import RegisterColoring.Proofs.Source.Nesting
/-!
# Names resolve lexically

The reader keeps a list of open scopes, and the symbol table a parent for each scope. Both follow the
brackets of the source, so a name stands for the declaration in the innermost open bracket.
-/
namespace RegisterColoring.Source

def Makes (src : List Line) (m : Nat) (d : Declaration) : Prop :=
  ∃ text e, src[m]? = some (.directive (.declare d.name text)) ∧
    ValueType.ofText? text = some d.type ∧ Innermost src e m ∧ d.scope = scopeOf src e

/-- What the reader holds after `n` lines follows from these lines. -/
structure Tracks (src : List Line) (n : Nat) (r : Reader) : Prop where
  sound : r.Sound
  nesting : ∃ levels, Nesting src n levels ∧ r.scopes = levels.map (scopeOf src)
  scopeCount : r.program.symbols.scopes.size = (src.take n).countP Line.opens + 1
  size : r.program.symbols.size = (src.take n).countP Line.isDeclaration
  length : r.code.length = (src.take n).countP Line.isInstruction
  declared : ∀ v d, r.program.symbols.declaration? v = some d ↔
    ∃ m, m < n ∧ v = declaredBy src m ∧ Makes src m d

private theorem tracks_start (src : List Line) : Tracks src 0 .start := by
  refine ⟨Reader.sound_start, ⟨[0], .start src, rfl⟩, rfl, rfl, rfl, fun v d => ?_⟩
  constructor
  · intro h
    cases h
  · rintro ⟨m, hm, _⟩
    cases hm

section Step
variable {src : List Line} {n : Nat} {r r' : Reader} {l : Line} (hl : src[n]? = some l)

include hl in
private theorem makes_lt_succ_iff (hnot : l.isDeclaration = false) (v : Variable)
    (d : Declaration) : (∃ m, m < n + 1 ∧ v = declaredBy src m ∧ Makes src m d) ↔
      ∃ m, m < n ∧ v = declaredBy src m ∧ Makes src m d := by
  constructor
  · rintro ⟨m, hm, hv, hmakes⟩
    rcases Nat.lt_succ_iff_lt_or_eq.mp hm with hlt | rfl
    · exact ⟨m, hlt, hv, hmakes⟩
    · obtain ⟨text, e, hline, _⟩ := hmakes
      rw [hl] at hline
      rw [Option.some.inj hline] at hnot
      cases hnot
  · rintro ⟨m, hm, hrest⟩
    exact ⟨m, Nat.lt_succ_of_lt hm, hrest⟩

theorem Tracks.exists_innermost (h : Tracks src n r) :
    ∃ e, Innermost src e n ∧ r.scope = scopeOf src e := by
  obtain ⟨levels, hnesting, hscopes⟩ := h.nesting
  obtain ⟨rest, hrest⟩ := r.scopes_eq
  rw [hrest] at hscopes
  obtain ⟨e, levels', rfl, hscope, _⟩ := List.map_eq_cons_iff.mp hscopes.symm
  exact ⟨e, hnesting.innermost, hscope.symm⟩

theorem Innermost.eq {e e' : Nat} (h : Innermost src e n) (h' : Innermost src e' n) : e = e' :=
  Nat.le_antisymm (h'.2 e h.1) (h.2 e' h'.1)

include hl in
private theorem Tracks.declared_declare {name text : String} {type : ValueType} {v : Variable}
    (h : Tracks src n r) (hline : l = .directive (.declare name text))
    (htype : ValueType.ofText? text = some type)
    (hdeclare : r.program.symbols.declare r.scope name type = .ok (v, r'.program.symbols))
    (w : Variable) (d : Declaration) : r'.program.symbols.declaration? w = some d ↔
      ∃ m, m < n + 1 ∧ w = declaredBy src m ∧ Makes src m d := by
  obtain ⟨e, hinner, hscope⟩ := h.exists_innermost
  subst hline
  have hnew : declaredBy src n = v := by
    rw [SymbolTable.eq_size_of_declare hdeclare, h.size, declaredBy]
  rw [SymbolTable.declaration?_declare hdeclare, ← hnew]
  split
  · next hw =>
    constructor
    · intro hd
      obtain rfl := Option.some.inj hd
      exact ⟨n, Nat.lt_succ_self n, hw, text, e, hl, htype, hinner, hscope⟩
    · rintro ⟨m, hm, rfl, text', e', hline, htype', hinner', hscope'⟩
      obtain rfl : m = n :=
        eq_of_countP_take_eq (p := Line.isDeclaration) hline rfl hl rfl (congrArg Variable.handle hw)
      rw [hl] at hline
      obtain ⟨hname, rfl⟩ : name = d.name ∧ text = text' := by
        simpa using Option.some.inj hline
      rw [htype] at htype'
      rw [hscope, hinner.eq hinner', ← hscope', hname, Option.some.inj htype']
  · next hw =>
    rw [h.declared]
    constructor
    · rintro ⟨m, hm, hrest⟩
      exact ⟨m, Nat.lt_succ_of_lt hm, hrest⟩
    · rintro ⟨m, hm, hv, hmakes⟩
      refine ⟨m, ?_, hv, hmakes⟩
      rcases Nat.lt_succ_iff_lt_or_eq.mp hm with hlt | rfl
      · exact hlt
      · exact (hw hv).elim

include hl in
theorem Tracks.newScope_eq (h : Tracks src n r) (hopens : l.opens = true)
    (parent : Option Scope) :
    (r.program.symbols.newScope parent).1 = scopeOf src (n + 1) := by
  rw [scopeOf, countP_take_succ_of_pos hl hopens, ← h.scopeCount]
  rfl

include hl in
private theorem Tracks.step (h : Tracks src n r) (hstep : r.Step r' l) : Tracks src (n + 1) r' := by
  have hsound := h.sound.step hstep
  obtain ⟨levels, hnesting, hscopes⟩ := h.nesting
  cases hstep with
  | blank hr =>
    subst hr
    refine ⟨hsound, ⟨levels, hnesting.stay hl rfl rfl, hscopes⟩, ?_, ?_, ?_, fun v d => ?_⟩
    · rw [countP_take_succ_of_neg hl rfl, h.scopeCount]
    · rw [countP_take_succ_of_neg hl rfl, h.size]
    · rw [countP_take_succ_of_neg hl rfl, h.length]
    · rw [makes_lt_succ_iff hl rfl, h.declared]
  | opens hopens hsymbols hscopes' hcode =>
    obtain ⟨_, hdeclaration, hinstruction⟩ := Line.of_opens hopens
    refine ⟨hsound, ⟨_, hnesting.push hl hopens, ?_⟩, ?_, ?_, ?_, fun v d => ?_⟩
    · rw [hscopes', h.newScope_eq hl hopens, hscopes, List.map_cons]
    · rw [hsymbols, countP_take_succ_of_pos hl hopens, ← h.scopeCount]
      exact Arena.size_alloc _ _
    · rw [hsymbols, countP_take_succ_of_neg hl hdeclaration]
      exact h.size
    · rw [hcode, countP_take_succ_of_neg hl hinstruction, h.length]
    · rw [hsymbols, makes_lt_succ_iff hl hdeclaration]
      exact h.declared v d
  | closes hcloses hsymbols hscopes' hcode =>
    obtain ⟨hopens, hdeclaration, hinstruction⟩ := Line.of_closes hcloses
    obtain ⟨top, levels', rfl, _, hrest⟩ := List.map_eq_cons_iff.mp (hscopes.symm.trans hscopes')
    refine ⟨hsound, ⟨levels', hnesting.pop hl hcloses, hrest.symm⟩, ?_, ?_, ?_, fun v d => ?_⟩
    · rw [hsymbols, countP_take_succ_of_neg hl hopens, h.scopeCount]
    · rw [hsymbols, countP_take_succ_of_neg hl hdeclaration, h.size]
    · rw [hcode, countP_take_succ_of_neg hl hinstruction, h.length]
    · rw [hsymbols, makes_lt_succ_iff hl hdeclaration, h.declared]
  | declares htype hdeclare hscopes' hcode =>
    refine ⟨hsound, ⟨levels, hnesting.stay hl rfl rfl, hscopes'.trans hscopes⟩, ?_, ?_, ?_,
      h.declared_declare hl rfl htype hdeclare⟩
    · rw [SymbolTable.size_scopes_declare hdeclare, countP_take_succ_of_neg hl rfl, h.scopeCount]
    · rw [SymbolTable.size_declare hdeclare, countP_take_succ_of_pos hl rfl, ← h.size]
    · rw [hcode, countP_take_succ_of_neg hl rfl, h.length]
  | instruction hi hsymbols hscopes' hcode =>
    refine ⟨hsound, ⟨levels, hnesting.stay hl rfl rfl, hscopes'.trans hscopes⟩, ?_, ?_, ?_,
      fun v d => ?_⟩
    · rw [hsymbols, countP_take_succ_of_neg hl rfl, h.scopeCount]
    · rw [hsymbols, countP_take_succ_of_neg hl rfl, h.size]
    · rw [hcode, countP_take_succ_of_pos hl rfl, ← h.length, List.length_append]
      rfl
    · rw [hsymbols, makes_lt_succ_iff hl rfl, h.declared]

end Step

theorem Reader.Reaches.tracks {src : List Line} {n : Nat} {r : Reader} (h : Reaches src n r) :
    Tracks src n r := by
  induction h with
  | start => exact tracks_start src
  | line _ hl hstep ih => exact ih.step hl hstep

namespace Tracks
variable {src : List Line} {n : Nat} {r : Reader} (h : Tracks src n r)
include h

private theorem exists_makes {m : Nat} (hm : m < n) {name text : String}
    (hline : src[m]? = some (.directive (.declare name text))) :
    ∃ d, r.program.symbols.declaration? (declaredBy src m) = some d ∧ Makes src m d := by
  have hlt : (declaredBy src m).handle < r.program.symbols.declarations.items.size := by
    have hcount := countP_take_lt (p := Line.isDeclaration) hline rfl hm
    rwa [← h.size] at hcount
  obtain ⟨d, hd⟩ : ∃ d, r.program.symbols.declaration? (declaredBy src m) = some d :=
    ⟨_, Array.getElem?_eq_getElem hlt⟩
  obtain ⟨m', _, heq, hmakes⟩ := (h.declared _ _).mp hd
  obtain ⟨text', e, hline', _⟩ := id hmakes
  obtain rfl : m = m' := eq_of_countP_take_eq (p := Line.isDeclaration) hline rfl hline' rfl
    (congrArg Variable.handle heq)
  exact ⟨d, hd, hmakes⟩

private theorem declaredIn?_iff {e : Nat} (he : OpenAt src e n) (name : String) (v : Variable) :
    r.program.symbols.declaredIn? (scopeOf src e) name = some v ↔
      ∃ m, Declares src m name e ∧ m < n ∧ v = declaredBy src m := by
  rw [SymbolTable.declaredIn?_iff]
  constructor
  · rintro ⟨d, hd, hscope, rfl⟩
    obtain ⟨m, hm, hv, text, e', hline, _, hinner, hscope'⟩ := (h.declared v d).mp hd
    obtain rfl : e' = e := eq_of_scopeOf_eq hinner.1 he (hscope'.symm.trans hscope)
    exact ⟨m, ⟨⟨text, hline⟩, hinner⟩, hm, hv⟩
  · rintro ⟨m, ⟨⟨text, hline⟩, hinner⟩, hm, rfl⟩
    obtain ⟨d, hd, text', e', hline', _, hinner', hscope⟩ := h.exists_makes hm hline
    rw [hline] at hline'
    refine ⟨d, hd, hinner.eq hinner' ▸ hscope, ?_⟩
    have hname : name = d.name ∧ text = text' := by simpa using Option.some.inj hline'
    exact hname.1.symm

/-- The reader finds a name where the brackets of the source lead to. -/
theorem names_iff (name : String) (v : Variable) : r.names name = .ok (some v) ↔
    ∃ m, Resolves src n name m ∧ v = declaredBy src m := by
  obtain ⟨levels, hnesting, hscopes⟩ := h.nesting
  have hopen : ∀ {e}, e ∈ levels → OpenAt src e n := fun he => (hnesting.mem_iff _).mp he
  rw [h.sound.names, hscopes, List.findSome?_map, Except.ok.injEq, List.findSome?_eq_some_iff]
  constructor
  · rintro ⟨inner, e, outer, rfl, hfound, hnone⟩
    obtain ⟨m, hdeclares, hm, hv⟩ := (h.declaredIn?_iff (hopen (by simp)) name v).mp hfound
    refine ⟨m, ⟨e, hdeclares, hm, hopen (by simp), fun m' e' hdeclares' hm' he' => ?_⟩, hv⟩
    -- a declaration in a bracket further inside would have been found first
    rcases List.mem_append.mp ((hnesting.mem_iff e').mpr he') with hinner | houter
    · have hsome := (h.declaredIn?_iff he' name _).mpr ⟨m', hdeclares', hm', rfl⟩
      have hnone' := hnone e' hinner
      rw [Function.comp_apply, hsome] at hnone'
      cases hnone'
    · rcases List.mem_cons.mp houter with rfl | houter
      · exact Nat.le_refl _
      · have hsorted := (List.pairwise_append.mp hnesting.sorted).2.1
        exact Nat.le_of_lt ((List.pairwise_cons.mp hsorted).1 e' houter)
  · rintro ⟨m, ⟨e, hdeclares, hm, he, hmax⟩, rfl⟩
    obtain ⟨inner, outer, rfl⟩ := List.append_of_mem ((hnesting.mem_iff e).mpr he)
    refine ⟨inner, e, outer, rfl, (h.declaredIn?_iff he name _).mpr ⟨m, hdeclares, hm, rfl⟩, ?_⟩
    intro e' he'
    have hlt : e < e' := (List.pairwise_append.mp hnesting.sorted).2.2 e' he' e (by simp)
    have hopen' := hopen (List.mem_append_left _ he')
    rw [Function.comp_apply, Option.eq_none_iff_forall_ne_some]
    intro w hw
    obtain ⟨m', hdeclares', hm', _⟩ := (h.declaredIn?_iff hopen' name w).mp hw
    exact Nat.not_le_of_lt hlt (hmax m' e' hdeclares' hm' hopen')

private theorem eq_of_resolves {name : String} {m m' : Nat} (hm : Resolves src n name m)
    (hm' : Resolves src n name m') : m = m' := by
  have hfound := (h.names_iff name _).mpr ⟨m, hm, rfl⟩
  have hfound' := (h.names_iff name _).mpr ⟨m', hm', rfl⟩
  rw [hfound] at hfound'
  obtain ⟨_, ⟨⟨_, hline⟩, _⟩, _⟩ := hm
  obtain ⟨_, ⟨⟨_, hline'⟩, _⟩, _⟩ := hm'
  exact eq_of_countP_take_eq (p := Line.isDeclaration) hline rfl hline' rfl
    (congrArg Variable.handle (Option.some.inj (Except.ok.inj hfound')))

end Tracks

/-- The instructions of a program are those of the instruction lines, in their order. On each of these
lines a name stands for the variable that the lexically nearest declaration of it has made, and this
declaration is an earlier line in a bracket that is still open, with all the brackets around it. -/
theorem names_resolve_lexically {source : String} {p : Program} (h : readProgram source = .ok p) :
    let src := sourceLines source
    let code := p.functions.flatMap Function.code
    (∀ m name text, src[m]? = some (.directive (.declare name text)) →
      ∃ d, p.symbols.declaration? (declaredBy src m) = some d ∧ d.name = name ∧
        ValueType.ofText? text = some d.type) ∧
    code.length = src.countP Line.isInstruction ∧
    ∀ n text, src[n]? = some (.instruction text) → ∃ i,
      code[(src.take n).countP Line.isInstruction]? = some i ∧
      SpellsInstruction (fun name v => ∃ m, Resolves src n name m ∧ v = declaredBy src m) text i ∧
      ∀ name m, Resolves src n name m → m < n ∧ (∀ m', Resolves src n name m' → m' = m) ∧
        ∀ e, OpenAt src e m → OpenAt src e n := by
  intro src code
  obtain ⟨r, hreach, rfl, hopened⟩ := exists_reaches h
  change Reader.Reaches src src.length r at hreach
  clear_value src
  have htracks := hreach.tracks
  have hcode : r.code = code := by
    rw [Reader.code, hopened]
    exact List.append_nil _
  refine ⟨fun m name text hline => ?_, ?_, fun n text hline => ?_⟩
  · have hm := (List.getElem?_eq_some_iff.mp hline).1
    obtain ⟨d, hd, text', e, hline', htype, _⟩ := htracks.exists_makes hm hline
    rw [hline] at hline'
    obtain ⟨rfl, rfl⟩ : name = d.name ∧ text = text' := by simpa using Option.some.inj hline'
    exact ⟨d, hd, rfl, htype⟩
  · rw [← hcode, htracks.length, List.take_length]
  · have hn := (List.getElem?_eq_some_iff.mp hline).1
    obtain ⟨r₁, r₂, l, hreach₁, hl, hstep, _, hprefix⟩ := hreach.exists_step hn
    rw [hline] at hl
    obtain rfl := Option.some.inj hl
    have htracks₁ := hreach₁.tracks
    cases hstep with
    | opens hfalse _ _ _ => cases hfalse
    | closes hfalse _ _ _ => cases hfalse
    | @instruction _ i hi _ _ hcode₂ =>
      refine ⟨i, ?_, ?_, ?_⟩
      · obtain ⟨later, hlater⟩ := hprefix
        rw [← hcode, ← hlater, hcode₂, ← htracks₁.length]
        simp
      · rw [readInstruction_eq_ok_iff] at hi
        exact hi.mono fun name v hv => (htracks₁.names_iff name v).mp hv
      · intro name m hm
        refine ⟨?_, fun m' hm' => htracks₁.eq_of_resolves hm' hm, fun e he => hm.openAt he⟩
        obtain ⟨_, _, hlt, _⟩ := hm
        exact hlt

theorem names_resolve_lexically_shadowed :
    let source := ".var x int\n.func f\n.scope\n.var x int\n= x, 1\n.endscope\n= x, 2\n.endfunc"
    let i : Instruction := ⟨none, .assign, [.var ⟨1⟩, .literal "1"]⟩
    let j : Instruction := ⟨none, .assign, [.var ⟨0⟩, .literal "2"]⟩
    let Binds n name v :=
      ∃ m, Resolves (sourceLines source) n name m ∧ v = declaredBy (sourceLines source) m
    ∃ p, readProgram source = .ok p ∧ p.functions.flatMap Function.code = [i, j] ∧
      SpellsInstruction (Binds 4) "= x, 1".toList i ∧
      SpellsInstruction (Binds 6) "= x, 2".toList j := by
  intro source i j Binds
  have hcode : (readProgram source).map (·.functions.flatMap Function.code) = .ok [i, j] := by
    decide +kernel
  obtain ⟨p, hp, hcode⟩ := (map_eq_ok_iff _ _ _).mp hcode
  obtain ⟨_, _, hlines⟩ := names_resolve_lexically hp
  obtain ⟨i', hi, hspells, _⟩ := hlines 4 "= x, 1".toList (by decide +kernel)
  obtain ⟨j', hj, hspells', _⟩ := hlines 6 "= x, 2".toList (by decide +kernel)
  have hcount : ((sourceLines source).take 4).countP Line.isInstruction = 0 := by decide +kernel
  have hcount' : ((sourceLines source).take 6).countP Line.isInstruction = 1 := by decide +kernel
  rw [hcode, hcount] at hi
  rw [hcode, hcount'] at hj
  obtain rfl : i = i' := Option.some.inj hi
  obtain rfl : j = j' := Option.some.inj hj
  exact ⟨p, hp, hcode, hspells, hspells'⟩

end RegisterColoring.Source
