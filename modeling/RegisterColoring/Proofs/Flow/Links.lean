import RegisterColoring.Flow.Graph
import Mathlib.Data.List.Basic

namespace RegisterColoring.Links

private theorem mem_foldl_add (new edges : List (Nat × Nat)) (e : Nat × Nat) :
    e ∈ new.foldl add edges ↔ e ∈ edges ∨ e ∈ new := by
  induction new generalizing edges with
  | nil => simp
  | cons d new ih =>
    have hadd : e ∈ add edges d ↔ e ∈ edges ∨ e = d := by
      unfold add
      split
      · next h =>
        have hd : d ∈ edges := by simpa using h
        exact ⟨.inl, fun he => he.elim id (fun he => he ▸ hd)⟩
      · simp
    rw [List.foldl_cons, ih, hadd, List.mem_cons, or_assoc]

theorem mem_edges (code : List Instruction) (blocks : List Block) (source target : Nat) :
    (source, target) ∈ edges code blocks ↔
      ∃ b, blocks[source]? = some b ∧ target ∈ targets code blocks source b := by
  unfold edges
  rw [mem_foldl_add]
  simp only [List.not_mem_nil, false_or, List.mem_flatMap, List.mem_map, Prod.mk.injEq]
  constructor
  · rintro ⟨⟨b, id⟩, hb, d, hd, rfl, rfl⟩
    exact ⟨b, List.mem_zipIdx_iff_getElem?.mp hb, hd⟩
  · rintro ⟨b, hb, hd⟩
    exact ⟨(b, source), List.mem_zipIdx_iff_getElem?.mpr hb, target, hd, rfl, rfl⟩

private theorem ascending_labelled (blocks : List Block) (label : String) :
    (blocks.zipIdx.filter fun b => b.1.label = some label).Pairwise fun b c => b.2 < c.2 := by
  apply List.Pairwise.filter
  have h : (blocks.zipIdx.map Prod.snd).Pairwise (· < ·) := by
    rw [List.zipIdx_map_snd]
    exact List.pairwise_lt_range'
  exact List.pairwise_map.mp h

private theorem mem_labelled {blocks : List Block} {label : String} {b : Block} {k : Nat} :
    (b, k) ∈ (blocks.zipIdx.filter fun b => b.1.label = some label) ↔
      blocks[k]? = some b ∧ b.label = some label := by
  rw [List.mem_filter, List.mem_zipIdx_iff_getElem?, decide_eq_true_eq]

private theorem labelled?_lt {blocks : List Block} {label : String} {k : Nat}
    (h : labelled? blocks label = some k) : k < blocks.length := by
  obtain ⟨⟨b, j⟩, hlast, rfl⟩ := Option.map_eq_some_iff.mp h
  have hb := (mem_labelled.mp (List.mem_of_getLast? hlast)).1
  exact (List.getElem?_eq_some_iff.mp hb).1

/-- A label names the last block that carries it. -/
theorem labelled?_eq_some {blocks : List Block} {label : String} {b : Block} {k : Nat}
    (hb : blocks[k]? = some b) (hlabel : b.label = some label)
    (hlast : ∀ j c, k < j → blocks[j]? = some c → c.label ≠ some label) :
    labelled? blocks label = some k := by
  have hmem := mem_labelled.mpr ⟨hb, hlabel⟩
  obtain ⟨init, ⟨c, j⟩, hsplit⟩ := List.eq_nil_or_concat'
    (blocks.zipIdx.filter fun b => b.1.label = some label) |>.resolve_left
      (List.ne_nil_of_mem hmem)
  have hc := mem_labelled.mp (hsplit ▸ List.mem_append_right init (List.mem_singleton_self (c, j)))
  have hasc := ascending_labelled blocks label
  rw [hsplit] at hmem hasc
  have hkj : k = j := by
    rcases List.mem_append.mp hmem with hinit | hmem
    · have hlt := (List.pairwise_append.mp hasc).2.2 _ hinit _ (List.mem_singleton_self (c, j))
      exact absurd hc.2 (hlast j c hlt hc.1)
    · exact (Prod.mk.inj (List.mem_singleton.mp hmem)).2
  rw [labelled?, hsplit, List.getLast?_concat, hkj]
  rfl

theorem of_labelled?_eq_some {blocks : List Block} {label : String} {k : Nat}
    (h : labelled? blocks label = some k) :
    ∃ b, blocks[k]? = some b ∧ b.label = some label ∧
      ∀ j c, k < j → blocks[j]? = some c → c.label ≠ some label := by
  rcases Option.map_eq_some_iff.mp h with ⟨⟨b, k⟩, hlast, rfl⟩
  rcases List.getLast?_eq_some_iff.mp hlast with ⟨init, hsplit⟩
  have hb := mem_labelled.mp (List.mem_of_getLast? hlast)
  refine ⟨b, hb.1, hb.2, ?_⟩
  intro j c hkj hc hlabel
  have hasc := ascending_labelled blocks label
  have hmem := mem_labelled.mpr ⟨hc, hlabel⟩
  rw [hsplit] at hasc hmem
  simp only [List.mem_append, List.mem_singleton, Prod.mk.injEq] at hmem
  rcases hmem with hinit | ⟨_, hjk⟩
  · have hlt := (List.pairwise_append.mp hasc).2.2 _ hinit _ (List.mem_singleton_self (b, k))
    simp only at hlt hkj
    omega
  · simp only at hkj
    omega

def HasEnd (code : List Instruction) (blocks : List Block) (id : Nat) : Prop :=
  ∃ b, blocks[id]? = some b ∧ ∃ line ∈ b.lines, ∃ i, code[line]? = some i ∧ i.opcode = .funcEnd

/-- Block `id` is the first with an end of function, or the last block if none has one. -/
def IsExit (code : List Instruction) (blocks : List Block) (id : Nat) : Prop :=
  (HasEnd code blocks id ∧ ∀ j < id, ¬ HasEnd code blocks j) ∨
    ((∀ j, ¬ HasEnd code blocks j) ∧ id + 1 = blocks.length)

theorem isExit_exitBlock (code : List Instruction) {blocks : List Block} (h : 0 < blocks.length) :
    IsExit code blocks (exitBlock code blocks) := by
  let ends : Block → Bool := fun b => b.lines.any fun l => code[l]?.any fun i => i.opcode = .funcEnd
  have hends : ∀ j, HasEnd code blocks j ↔ ∃ b, blocks[j]? = some b ∧ ends b = true := by
    simp [HasEnd, ends, Option.any_eq_true]
  have hexit : exitBlock code blocks = (blocks.findIdx? ends).getD (blocks.length - 1) := rfl
  cases hfind : blocks.findIdx? ends with
  | some k =>
    rw [hexit, hfind, Option.getD_some]
    rcases List.findIdx?_eq_some_iff_getElem.mp hfind with ⟨hk, hend, hfirst⟩
    refine .inl ⟨(hends k).mpr ⟨_, List.getElem?_eq_getElem hk, hend⟩, ?_⟩
    intro j hj hj'
    rcases (hends j).mp hj' with ⟨b, hb, hbend⟩
    rcases List.getElem?_eq_some_iff.mp hb with ⟨_, rfl⟩
    exact hfirst j hj hbend
  | none =>
    rw [hexit, hfind, Option.getD_none]
    refine .inr ⟨?_, by omega⟩
    intro j hj
    rcases (hends j).mp hj with ⟨b, hb, hbend⟩
    have hno := List.findIdx?_eq_none_iff.mp hfind b (List.mem_of_getElem? hb)
    rw [hno] at hbend
    cases hbend

private theorem exitBlock_lt (code : List Instruction) {blocks : List Block}
    (h : 0 < blocks.length) : exitBlock code blocks < blocks.length := by
  have hfind : ∀ p : Block → Bool,
      (blocks.findIdx? p).getD (blocks.length - 1) < blocks.length := by
    intro p
    cases hp : blocks.findIdx? p with
    | none => exact Nat.sub_lt h Nat.one_pos
    | some k => exact (List.findIdx?_eq_some_iff_findIdx_eq.mp hp).1
  exact hfind _

theorem targets_lt (code : List Instruction) (blocks : List Block) {id : Nat} {b : Block}
    (hb : blocks[id]? = some b) {target : Nat} (h : target ∈ targets code blocks id b) :
    target < blocks.length := by
  have hpos : 0 < blocks.length := Nat.zero_lt_of_lt (List.getElem?_eq_some_iff.mp hb).1
  have hjump : target ∈ ((target? code b).bind (labelled? blocks)).toList →
      target < blocks.length := by
    intro hj
    obtain ⟨label, _, hl⟩ := Option.bind_eq_some_iff.mp (Option.mem_toList.mp hj)
    exact labelled?_lt hl
  have hnext : target ∈ (if id + 1 < blocks.length then [id + 1] else []) →
      target < blocks.length := by
    intro hn
    split at hn
    · next hlt => exact (List.mem_singleton.mp hn) ▸ hlt
    · exact absurd hn List.not_mem_nil
  unfold targets at h
  simp only at h
  split at h
  · exact hjump h
  · exact (List.mem_append.mp h).elim hjump hnext
  · split at h
    · exact absurd h List.not_mem_nil
    · exact (List.mem_singleton.mp h) ▸ exitBlock_lt code hpos
  · exact absurd h List.not_mem_nil
  · exact hnext h

theorem mem_targets_jump {code : List Instruction} {blocks : List Block} {b : Block}
    {i : Instruction} (hi : code[b.last]? = some i) {label : String}
    (hlabel : i.jumpTarget = some label) {target : Nat}
    (htarget : labelled? blocks label = some target) (id : Nat) :
    target ∈ targets code blocks id b := by
  have hjump : target ∈ ((target? code b).bind (labelled? blocks)).toList := by
    rw [Option.mem_toList, target?, hi, Option.bind_some, hlabel, Option.bind_some]
    exact htarget
  have hop : i.opcode = .jump ∨ i.opcode = .ifFalseJump := by
    unfold Instruction.jumpTarget at hlabel
    cases hop : i.opcode with
    | jump => exact .inl rfl
    | ifFalseJump => exact .inr rfl
    | _ => simp [hop, Opcode.isJump] at hlabel
  simp only [targets, hi, Option.map_some]
  rcases hop with hop | hop
  · rw [hop]
    exact hjump
  · rw [hop]
    exact List.mem_append_left _ hjump

theorem mem_targets_next {code : List Instruction} {blocks : List Block} {b : Block}
    {i : Instruction} (hi : code[b.last]? = some i) (hjump : i.opcode ≠ .jump)
    (hret : i.opcode ≠ .ret) (hend : i.opcode ≠ .funcEnd) {id : Nat}
    (hid : id + 1 < blocks.length) : id + 1 ∈ targets code blocks id b := by
  simp only [targets, hi, Option.map_some, if_pos hid]
  cases hop : i.opcode with
  | jump => exact absurd hop hjump
  | ret => exact absurd hop hret
  | funcEnd => exact absurd hop hend
  | _ => simp

/-- A target is where a jump leads, or the next block, or the exit block after a return. -/
theorem of_mem_targets {code : List Instruction} {blocks : List Block} {b : Block}
    {i : Instruction} (hi : code[b.last]? = some i) {id target : Nat}
    (h : target ∈ targets code blocks id b) :
    (∃ label, i.jumpTarget = some label ∧ labelled? blocks label = some target) ∨
      (i.opcode ≠ .jump ∧ i.opcode ≠ .ret ∧ i.opcode ≠ .funcEnd ∧ target = id + 1 ∧
        id + 1 < blocks.length) ∨
      (i.opcode = .ret ∧ target = exitBlock code blocks ∧ target ≠ id) := by
  have hjump : target ∈ ((target? code b).bind (labelled? blocks)).toList →
      ∃ label, i.jumpTarget = some label ∧ labelled? blocks label = some target := by
    simp [target?, hi, Option.bind_eq_some_iff]
  have hnext : target ∈ (if id + 1 < blocks.length then [id + 1] else []) →
      target = id + 1 ∧ id + 1 < blocks.length := by
    split <;> simp_all
  simp only [targets, hi, Option.map_some] at h
  cases hop : i.opcode with
  | jump =>
    rw [hop] at h
    exact .inl (hjump h)
  | ifFalseJump =>
    rw [hop] at h
    rcases List.mem_append.mp h with h | h
    · exact .inl (hjump h)
    · exact .inr (.inl ⟨by simp, by simp, by simp, hnext h⟩)
  | ret =>
    rw [hop] at h
    simp only at h
    split at h
    · simp at h
    · next hne =>
      have ht := List.mem_singleton.mp h
      exact .inr (.inr ⟨rfl, ht, fun he => hne (ht ▸ he)⟩)
  | funcEnd => simp [hop] at h
  | _ =>
    rw [hop] at h
    exact .inr (.inl ⟨by simp, by simp, by simp, hnext h⟩)

end RegisterColoring.Links
