import RegisterColoring.Proofs.Interference.Edges
import RegisterColoring.Proofs.Live.Runs
/-!
# Nodes of the interference graph

The graph has a node for every variable that the code mentions and for what interferes with
such a variable. Since a line defines at most one variable, two variables interfere exactly if
one of them is defined while the other is live.
-/
namespace RegisterColoring

def FlowGraph.Mentioned (g : FlowGraph) (v : Nat) : Prop :=
  ∃ b ∈ g.blocks, ∃ line ∈ b.lines, ∃ access, v ∈ b.idsAt access line

namespace InterferenceGraph

/-- Every node is one of the variables or interferes with one of them. -/
structure Accounted (vars : Nat → Prop) (g : InterferenceGraph) : Prop where
  sized : g.Sized
  reason : ∀ x, g.contains x = true → vars x ∨ ∃ w, vars w ∧ g.interferes w x = true

private theorem contains_foldl_addEdge (v : Nat) (ws : List Nat) (g : InterferenceGraph)
    (x : Nat) : (ws.foldl (fun g w => g.addEdge v w) g).contains x = true ↔
      g.contains x = true ∨ ∃ w ∈ ws, v ≠ w ∧ (x = v ∨ x = w) := by
  induction ws generalizing g with
  | nil => simp
  | cons w ws ih =>
    rw [List.foldl_cons, ih, contains_addEdge]
    simp [or_assoc]

private theorem foldl_of_mem {α β : Type} {step : β → α → β} (P : β → Prop)
    (hkeep : ∀ b a, P b → P (step b a)) {as : List α} {a : α} (ha : a ∈ as)
    (hmake : ∀ b, P (step b a)) (b : β) : P (as.foldl step b) := by
  rcases List.append_of_mem ha with ⟨before, after, rfl⟩
  rw [List.foldl_append, List.foldl_cons]
  exact List.foldlRecOn after step (hmake _) fun b hb a _ => hkeep b a hb

namespace Sweep

private theorem contains_define (s : Sweep) (v x : Nat) : (s.define v).graph.contains x = true ↔
    s.graph.contains x = true ∨ x = v ∨ x ∈ s.live := by
  simp only [define]
  rw [contains_foldl_addEdge, contains_addNode]
  constructor
  · rintro ((h | h) | ⟨w, hw, _, h | h⟩)
    · exact .inl h
    · exact .inr (.inl h)
    · exact .inr (.inl h)
    · exact .inr (.inr (h ▸ hw))
  · rintro (h | h | h)
    · exact .inl (.inl h)
    · exact .inl (.inr h)
    · by_cases hx : x = v
      · exact .inl (.inr hx)
      · exact .inr ⟨x, h, Ne.symm hx, .inr rfl⟩

private theorem contains_use (s : Sweep) (v x : Nat) :
    (s.use v).graph.contains x = true ↔ s.graph.contains x = true ∨ x = v :=
  s.graph.contains_addNode v x

private theorem accounted_define {vars : Nat → Prop} {s : Sweep} (h : Accounted vars s.graph)
    {v : Nat} (hv : vars v) : Accounted vars (s.define v).graph where
  sized := sized_define h.sized v
  reason x hx := by
    have hedges := fun w => interferes_define h.sized v w x
    rcases (s.contains_define v x).mp hx with hx | rfl | hx
    · rcases h.reason x hx with hx | ⟨w, hw, hwx⟩
      · exact .inl hx
      · exact .inr ⟨w, hw, (hedges w).mpr (.inl hwx)⟩
    · exact .inl hv
    · by_cases hxv : x = v
      · exact .inl (hxv ▸ hv)
      · exact .inr ⟨v, hv, (hedges v).mpr (.inr ⟨Ne.symm hxv, .inl ⟨rfl, hx⟩⟩)⟩

private theorem accounted_use {vars : Nat → Prop} {s : Sweep} (h : Accounted vars s.graph) {v : Nat}
    (hv : vars v) : Accounted vars (s.use v).graph where
  sized := h.sized.addNode v
  reason x hx := by
    rcases (s.contains_use v x).mp hx with hx | rfl
    · simpa only [interferes_use] using h.reason x hx
    · exact .inl hv

private theorem contains_define_mono (s : Sweep) (v x : Nat) (h : s.graph.contains x = true) :
    (s.define v).graph.contains x = true :=
  (s.contains_define v x).mpr (.inl h)

private theorem contains_use_mono (s : Sweep) (v x : Nat) (h : s.graph.contains x = true) :
    (s.use v).graph.contains x = true :=
  (s.contains_use v x).mpr (.inl h)

private theorem contains_line (b : Block) (s : Sweep) (line : Nat) {x : Nat}
    (h : s.graph.contains x = true ∨ ∃ access, x ∈ b.idsAt access line) :
    (Sweep.line b s line).graph.contains x = true := by
  unfold Sweep.line
  rw [Block.getD_usesAt?, Block.getD_defsAt?]
  have huses : ∀ s : Sweep, s.graph.contains x = true →
      ((b.idsAt .use line).foldl use s).graph.contains x = true := by
    intro s hs
    exact List.foldlRecOn (motive := fun s : Sweep => s.graph.contains x = true) _ use hs
      fun s hs v _ => contains_use_mono s v x hs
  rcases h with h | ⟨access, h⟩
  · apply huses
    exact List.foldlRecOn (motive := fun s : Sweep => s.graph.contains x = true) _ define h
      fun s hs v _ => contains_define_mono s v x hs
  · cases access with
    | define =>
      apply huses
      exact foldl_of_mem (fun s : Sweep => s.graph.contains x = true)
        (fun s v => contains_define_mono s v x) h
        (fun s => (s.contains_define x x).mpr (.inr (.inl rfl))) s
    | use =>
      exact foldl_of_mem (fun s : Sweep => s.graph.contains x = true)
        (fun s v => contains_use_mono s v x) h
        (fun s => (s.contains_use x x).mpr (.inr rfl)) _

private theorem contains_block {g : InterferenceGraph} {b : Block} {x : Nat}
    (h : g.contains x = true ∨ ∃ line ∈ b.lines, ∃ access, x ∈ b.idsAt access line) :
    (Sweep.block g b).graph.contains x = true := by
  rcases h with h | ⟨line, hline, h⟩
  · exact List.foldlRecOn (motive := fun s : Sweep => s.graph.contains x = true) _ (Sweep.line b) h
      fun s hs line _ => contains_line b s line (.inl hs)
  · exact foldl_of_mem (fun s : Sweep => s.graph.contains x = true)
      (fun s line hs => contains_line b s line (.inl hs)) (List.mem_reverse.mpr hline)
      (fun s => contains_line b s line (.inr h)) _

end Sweep

private theorem contains_ofFlow_iff {g : FlowGraph} (hb : ∀ b ∈ g.blocks, b.first ≤ b.last)
    (v : Nat) : (ofFlow g).contains v = true ↔
      g.Mentioned v ∨ ∃ w, g.Mentioned w ∧ (ofFlow g).interferes w v = true := by
  constructor
  · have haccounted : Accounted g.Mentioned (ofFlow g) := by
      apply List.foldlRecOn (motive := Accounted g.Mentioned)
      · refine ⟨sized_empty _, ?_⟩
        intro x hx
        simp [contains, row?_empty] at hx
      · intro graph hgraph b hb
        have hmem := Array.mem_toList_iff.mp hb
        apply Sweep.block_preserves fun s => Accounted g.Mentioned s.graph
        · intro s hs line hline v hv
          exact Sweep.accounted_define hs ⟨b, hmem, line, hline, .define, hv⟩
        · intro s hs line hline v hv
          exact Sweep.accounted_use hs ⟨b, hmem, line, hline, .use, hv⟩
        · exact hgraph
    exact haccounted.reason v
  · rintro (⟨b, hmem, hmentioned⟩ | ⟨w, _, hwv⟩)
    · unfold ofFlow
      refine foldl_of_mem (fun graph : InterferenceGraph => graph.contains v = true) ?_
        (Array.mem_toList_iff.mpr hmem) ?_ _
      · intro graph b hgraph
        exact Sweep.contains_block (.inl hgraph)
      · intro graph
        exact Sweep.contains_block (.inr hmentioned)
    · exact contains_of_interferes (symm_ofFlow hb hwv)

end InterferenceGraph

private theorem Instruction.defs_subsingleton {i : Instruction} {v w : Variable} (hv : v ∈ i.defs)
    (hw : w ∈ i.defs) : v = w := by
  have hstored : ∀ k, v ∈ i.storedAt k → w ∈ i.storedAt k → v = w := by
    intro k hv hw
    unfold storedAt at hv hw
    cases ho : i.operands[k]? with
    | none => simp [ho] at hv
    | some o => cases o <;> simp_all [Operand.stored]
  unfold defs at hv hw
  cases hop : i.opcode <;> simp only [hop] at hv hw <;> first
    | exact hstored 0 hv hw
    | simp at hv

theorem FlowGraph.Describes.define_subsingleton {g : FlowGraph} {f : Function}
    {bounds : List Bounds} (h : g.Describes f bounds) {b : Block} (hb : b ∈ g.blocks)
    {line v w : Nat} (hv : v ∈ b.idsAt .define line) (hw : w ∈ b.idsAt .define line) : v = w := by
  rcases (h.mem_idsAt b hb _ _ _).mp hv with ⟨_, x, hx, hvx⟩
  rcases (h.mem_idsAt b hb _ _ _).mp hw with ⟨_, y, hy, hwy⟩
  rcases Control.accesses_define.mp hx with ⟨i, hi, hxi⟩
  rcases Control.accesses_define.mp hy with ⟨j, hj, hyj⟩
  rw [hi, Option.some.injEq] at hj
  subst hj
  rw [Instruction.defs_subsingleton hxi hyj] at hvx
  exact Numbering.var?_inj h.nodup hvx hwy

private theorem Block.clashes_iff {b : Block} {line : Nat}
    (h : ∀ v w, v ∈ b.idsAt .define line → w ∈ b.idsAt .define line → v = w) (x y : Nat) :
    b.Clashes line x y ↔ x ≠ y ∧
      ((x ∈ b.idsAt .define line ∧ b.LiveLeaving y line) ∨
        (y ∈ b.idsAt .define line ∧ b.LiveLeaving x line)) := by
  constructor
  · rintro ⟨hne, before, d, after, hsplit, hside⟩
    have hd : d ∈ b.idsAt .define line := by simp [hsplit]
    refine ⟨hne, ?_⟩
    rcases hside with ⟨rfl, hlive, _⟩ | ⟨rfl, hlive, _⟩
    · exact .inl ⟨hd, hlive⟩
    · exact .inr ⟨hd, hlive⟩
  · rintro ⟨hne, hside⟩
    have honly : ∀ d z before after, b.idsAt .define line = before ++ d :: after → d ≠ z →
        z ∉ before := by
      intro d z before after hsplit hdz hz
      exact hdz (h d z (by simp [hsplit]) (by simp [hsplit, hz]))
    refine ⟨hne, ?_⟩
    rcases hside with ⟨hd, hlive⟩ | ⟨hd, hlive⟩
    · rcases List.append_of_mem hd with ⟨before, after, hsplit⟩
      exact ⟨before, x, after, hsplit, .inl ⟨rfl, hlive, honly x y before after hsplit hne⟩⟩
    · rcases List.append_of_mem hd with ⟨before, after, hsplit⟩
      exact ⟨before, y, after, hsplit, .inr ⟨rfl, hlive, honly y x before after hsplit hne.symm⟩⟩

/-- Whatever sets the blocks of a built graph hold, its lines define and use what their
instructions do, the nodes are the variables mentioned on a line and what interferes with them,
and two variables interfere exactly if some line defines one while the other is live on exit. -/
theorem InterferenceGraph.ofFlow_exact {f : Function} {t : SymbolTable} {g : FlowGraph}
    (hg : g.Built f t) (live : Nat → VarSet × VarSet) :
    let flow := g.withLiveSets live
    (∀ b ∈ flow.blocks, ∀ line ∈ b.lines, ∀ access id v, flow.vars.var? id = some v →
      (id ∈ b.idsAt access line ↔ Accesses f.code access line v)) ∧
    (∀ v, (ofFlow flow).contains v = true ↔
      flow.Mentioned v ∨ ∃ w, flow.Mentioned w ∧ (ofFlow flow).interferes w v = true) ∧
    ∀ v w, (ofFlow flow).interferes v w = true ↔ v ≠ w ∧ ∃ b ∈ flow.blocks, ∃ line ∈ b.lines,
      (v ∈ b.idsAt .define line ∧ b.LiveLeaving w line) ∨
        (w ∈ b.idsAt .define line ∧ b.LiveLeaving v line) := by
  intro flow
  rcases hg.describes with ⟨bounds, hdescribes⟩
  have hflow : flow.Describes f bounds :=
    hdescribes.of_sameRecords (g.sameRecords_withLiveSets live)
  refine ⟨?_, contains_ofFlow_iff hflow.first_le_last, ?_⟩
  · intro b hb line hline access id v hid
    exact hflow.mem_idsAt_iff hb hline hid access
  · intro v w
    have hclashes : ∀ b ∈ flow.blocks, ∀ line, b.Clashes line v w ↔ v ≠ w ∧
        ((v ∈ b.idsAt .define line ∧ b.LiveLeaving w line) ∨
          (w ∈ b.idsAt .define line ∧ b.LiveLeaving v line)) :=
      fun b hb line => Block.clashes_iff (fun _ _ => hflow.define_subsingleton hb) v w
    rw [interferes_ofFlow hflow.first_le_last]
    constructor
    · rintro ⟨b, hb, line, hline, hclash⟩
      have hside := (hclashes b hb line).mp hclash
      exact ⟨hside.1, b, hb, line, hline, hside.2⟩
    · rintro ⟨hne, b, hb, line, hline, hside⟩
      exact ⟨b, hb, line, hline, (hclashes b hb line).mpr ⟨hne, hside⟩⟩

/-- With `c` live on exit of every block, the last line of the first one makes it interfere with
`b`. -/
theorem InterferenceGraph.spin_ofFlow_exact : ∃ g, FlowGraph.build spin spinTable = .ok g ∧
    let flow := g.withLiveSets fun _ => (∅, .ofList [2])
    (ofFlow flow).contains 2 = true ∧
    (flow.Mentioned 2 ∨ ∃ w, flow.Mentioned w ∧ (ofFlow flow).interferes w 2 = true) ∧
    (ofFlow flow).interferes 1 2 = true ∧ ∃ b ∈ flow.blocks, ∃ line ∈ b.lines,
      (1 ∈ b.idsAt .define line ∧ b.LiveLeaving 2 line) ∨
        (2 ∈ b.idsAt .define line ∧ b.LiveLeaving 1 line) := by
  obtain ⟨g, hg, hnode, hedge⟩ : ∃ g, FlowGraph.build spin spinTable = .ok g ∧
      (ofFlow (g.withLiveSets fun _ => (∅, .ofList [2]))).contains 2 = true ∧
      (ofFlow (g.withLiveSets fun _ => (∅, .ofList [2]))).interferes 1 2 = true :=
    ⟨_, rfl, by decide +kernel, by decide +kernel⟩
  have hexact := ofFlow_exact (.build hg) fun _ => (∅, .ofList [2])
  exact ⟨g, hg, hnode, (hexact.2.1 2).mp hnode, hedge, ((hexact.2.2 1 2).mp hedge).2⟩

end RegisterColoring
