import RegisterColoring.Proofs.Flow.Mentions

namespace RegisterColoring

/-- The instruction on a line of the code makes this access to the variable. -/
def Accesses (code : List Instruction) (access : Access) (line : Nat) (v : Variable) : Prop :=
  ∃ i, code[line]? = some i ∧ (access, v) ∈ i.accesses

namespace Block

/-- `later` is `b` after the accesses `new` were recorded, where `n` names the variables. -/
structure Gains (n : Numbering) (new : Access → Nat → Variable → Prop) (b later : Block) :
    Prop where
  frame : later = { b with uses := later.uses, defs := later.defs }
  size : ∀ access, (later.mentions access).perLine.size = (b.mentions access).perLine.size
  agrees : b.Agrees → later.Agrees
  mem : ∀ access line id, id ∈ later.idsAt access line ↔
    id ∈ b.idsAt access line ∨ ∃ v, new access line v ∧ n.var? id = some v
  named : ∀ access line v, new access line v → ∃ id, n.var? id = some v

namespace Gains
variable {n : Numbering} {new more : Access → Nat → Variable → Prop} {b later last : Block}

private theorem first_eq (h : Gains n new b later) : later.first = b.first := by rw [h.frame]

theorem hasLine (h : Gains n new b later) {line : Nat} (hb : b.HasLine line) :
    later.HasLine line := by
  refine ⟨by rw [h.first_eq]; exact hb.1, fun access => ?_⟩
  rw [h.first_eq, h.size access]
  exact hb.2 access

private theorem refl (n : Numbering) (b : Block) : Gains n (fun _ _ _ => False) b b where
  frame := rfl
  size _ := rfl
  agrees h := h
  mem := by simp
  named _ _ _ h := h.elim

private theorem trans (h : Gains n new b later) (h' : Gains n more later last) :
    Gains n (fun access line v => new access line v ∨ more access line v) b last where
  frame := by
    rw [h'.frame, h.frame]
  size access := (h'.size access).trans (h.size access)
  agrees hb := h'.agrees (h.agrees hb)
  mem access line id := by
    rw [h'.mem, h.mem, or_assoc]
    refine or_congr_right ⟨?_, ?_⟩
    · rintro (⟨v, hv, hid⟩ | ⟨v, hv, hid⟩)
      · exact ⟨v, .inl hv, hid⟩
      · exact ⟨v, .inr hv, hid⟩
    · rintro ⟨v, hv | hv, hid⟩
      · exact .inl ⟨v, hv, hid⟩
      · exact .inr ⟨v, hv, hid⟩
  named access line v := by
    rintro (hv | hv)
    · exact h.named access line v hv
    · exact h'.named access line v hv

private theorem congr (h : Gains n new b later)
    (hnew : ∀ access line v, new access line v ↔ more access line v) : Gains n more b later := by
  have he : new = more := by
    funext access line v
    exact propext (hnew access line v)
  exact he ▸ h

end Gains

theorem mentions_record (b : Block) (access access' : Access) (line id : Nat) :
    (b.record access line id).mentions access' =
      if access' = access then (b.mentions access').record b.first line id
      else b.mentions access' := by
  cases access <;> cases access' <;> rfl

theorem first_record (b : Block) (access : Access) (line id : Nat) :
    (b.record access line id).first = b.first := by
  cases access <;> rfl

private theorem gains_record {n : Numbering} (hn : n.toList.Nodup) {b : Block} {line : Nat}
    (hline : b.HasLine line) (access : Access) {id : Nat} {v : Variable}
    (hid : n.var? id = some v) :
    Gains n (fun access' line' w => access' = access ∧ line' = line ∧ w = v) b
      (b.record access line id) where
  frame := by cases access <;> rfl
  size access' := by
    rw [mentions_record]
    split <;> simp
  agrees hb access' := by
    rw [mentions_record, first_record]
    split
    · exact (hb access').record hline.1 (hline.2 access') id
    · exact hb access'
  mem access' line' id' := by
    unfold idsAt
    rw [mentions_record, first_record]
    by_cases hf : b.first ≤ line'
    · rw [if_pos hf, if_pos hf]
      by_cases ha : access' = access
      · rw [if_pos ha, Mentions.mem_onLine_record _ hline.1 (hline.2 access') id id' line' hf]
        refine or_congr_right ⟨?_, ?_⟩
        · rintro ⟨rfl, rfl⟩
          exact ⟨v, ⟨ha, rfl, rfl⟩, hid⟩
        · rintro ⟨w, ⟨_, hl, rfl⟩, hw⟩
          exact ⟨hl, Numbering.var?_inj hn hw hid⟩
      · rw [if_neg ha]
        simp [ha]
    · have hl : line' ≠ line := fun he => hf (he ▸ hline.1)
      rw [if_neg hf, if_neg hf]
      simp [hl]
  named := by
    rintro access' line' w ⟨_, _, rfl⟩
    exact ⟨id, hid⟩

/-- A recording went from `vars` and `b` to `vars'` and `later`. The identifiers it recorded may
be read in any numbering that comes after it. -/
structure Records (new : Access → Nat → Variable → Prop) (vars vars' : Numbering)
    (b later : Block) : Prop where
  grows : vars'.Extends vars
  nodup : vars'.toList.Nodup
  gains : ∀ n : Numbering, n.Extends vars' → n.toList.Nodup → Gains n new b later

namespace Records
variable {new more : Access → Nat → Variable → Prop} {vars vars' vars'' : Numbering}
  {b later last : Block}

private theorem hasLine (h : Records new vars vars' b later) {line : Nat} (hb : b.HasLine line) :
    later.HasLine line :=
  (h.gains vars' (.refl _) h.nodup).hasLine hb

private theorem refl {vars : Numbering} (hn : vars.toList.Nodup) (b : Block) :
    Records (fun _ _ _ => False) vars vars b b :=
  ⟨.refl _, hn, fun n _ _ => .refl n b⟩

private theorem trans (h : Records new vars vars' b later)
    (h' : Records more vars' vars'' later last) :
    Records (fun access line v => new access line v ∨ more access line v) vars vars'' b last :=
  ⟨h'.grows.trans h.grows, h'.nodup, fun n hn hnn =>
    (h.gains n (hn.trans h'.grows) hnn).trans (h'.gains n hn hnn)⟩

private theorem congr (h : Records new vars vars' b later)
    (hnew : ∀ access line v, new access line v ↔ more access line v) :
    Records more vars vars' b later :=
  ⟨h.grows, h.nodup, fun n hn hnn => (h.gains n hn hnn).congr hnew⟩

end Records

private theorem records_intern {vars : Numbering} (hn : vars.toList.Nodup) {b : Block} {line : Nat}
    (hline : b.HasLine line) (access : Access) (v : Variable) :
    Records (fun access' line' w => access' = access ∧ line' = line ∧ w = v) vars
      (vars.intern v).2 b (b.record access line (vars.intern v).1) := by
  obtain ⟨hid, hext, hnodup⟩ := vars.intern_spec v
  exact ⟨hext, hnodup hn, fun n hn' hnn => gains_record hnn hline access (hn' _ _ hid)⟩

end Block

namespace Recorded

private theorem accesses_records (t : SymbolTable) (function : String) (line : Nat)
    (todo : List (Access × Variable)) (vars vars' : Numbering) (b b' : Block)
    (hn : vars.toList.Nodup) (hline : b.HasLine line)
    (h : accesses t function line todo vars b = ⟨vars', b', none⟩) :
    Block.Records (fun access line' v => line' = line ∧ (access, v) ∈ todo) vars vars' b b' := by
  induction todo generalizing vars b with
  | nil =>
    obtain ⟨rfl, rfl, _⟩ := Recorded.mk.inj h
    exact (Block.Records.refl hn _).congr (by simp)
  | cons head todo ih =>
    obtain ⟨access, v⟩ := head
    rw [accesses] at h
    split at h
    · have hfirst := Block.records_intern hn hline access v
      have hrest := ih _ _ hfirst.nodup (hfirst.hasLine hline) h
      refine (hfirst.trans hrest).congr fun access' line' w => ?_
      rw [List.mem_cons, Prod.mk.injEq]
      tauto
    · cases h

private theorem lines_records (t : SymbolTable) (f : Function) (todo : List Nat)
    (vars vars' : Numbering) (b b' : Block) (hn : vars.toList.Nodup)
    (hlines : ∀ line ∈ todo, b.HasLine line) (h : lines t f todo vars b = ⟨vars', b', none⟩) :
    Block.Records (fun access line v => line ∈ todo ∧ Accesses f.code access line v)
      vars vars' b b' := by
  induction todo generalizing vars b with
  | nil =>
    obtain ⟨rfl, rfl, _⟩ := Recorded.mk.inj h
    exact (Block.Records.refl hn _).congr (by simp)
  | cons line todo ih =>
    rw [lines] at h
    split at h
    · cases h
    · next i hi =>
      split at h
      · next vars₁ b₁ h₁ =>
        have hfirst := accesses_records t f.name line i.accesses vars vars₁ b b₁ hn
          (hlines line (by simp)) h₁
        have hrest := ih vars₁ b₁ hfirst.nodup
          (fun line' hl => hfirst.hasLine (hlines line' (by simp [hl]))) h
        refine (hfirst.trans hrest).congr fun access line' v => ?_
        have haccess : Accesses f.code access line v ↔ (access, v) ∈ i.accesses := by
          simp [Accesses, hi]
        rw [List.mem_cons]
        constructor
        · rintro (⟨rfl, hv⟩ | ⟨hl, hv⟩)
          · exact ⟨.inl rfl, haccess.mpr hv⟩
          · exact ⟨.inr hl, hv⟩
        · rintro ⟨rfl | hl, hv⟩
          · exact .inl ⟨rfl, haccess.mp hv⟩
          · exact .inr ⟨hl, hv⟩
      · next stopped hstop => exact absurd h (hstop vars' b')

/-- Recording blocks keeps their number, and every block gains the accesses of its own lines. -/
theorem blocks_gains (t : SymbolTable) (f : Function) (todo done : List Block)
    (vars vars' : Numbering) (hn : vars.toList.Nodup)
    (hlines : ∀ b ∈ todo, ∀ line ∈ b.lines, b.HasLine line)
    (h : blocks t f todo vars = ⟨vars', done, none⟩) :
    vars'.Extends vars ∧ vars'.toList.Nodup ∧ ∀ n : Numbering, n.Extends vars' →
      n.toList.Nodup → List.Forall₂ (fun b later =>
        b.Gains n (fun access line v => line ∈ b.lines ∧ Accesses f.code access line v) later)
        todo done := by
  -- the numbering still grows after a block, so its gains are read in any later one
  induction todo generalizing vars done with
  | nil =>
    obtain ⟨rfl, rfl, _⟩ := Recorded.mk.inj h
    exact ⟨.refl _, hn, fun _ _ _ => .nil⟩
  | cons b todo ih =>
    rw [blocks] at h
    split at h
    · next vars₁ b₁ h₁ =>
      have hfirst := lines_records t f b.lines vars vars₁ b b₁ hn (hlines b (by simp)) h₁
      obtain ⟨hvars, hdone, herror⟩ := Recorded.mk.inj h
      obtain ⟨hext, hnodup, hrest⟩ := ih (blocks t f todo vars₁).value vars₁ hfirst.nodup
        (fun c hc => hlines c (by simp [hc])) (by rw [← hvars, ← herror])
      refine ⟨hext.trans hfirst.grows, hnodup, fun n hn' hnn => ?_⟩
      rw [← hdone]
      exact .cons (hfirst.gains n (hn'.trans hext) hnn) (hrest n hn' hnn)
    · cases h

section Keeps
variable {P : Numbering → Prop} {Q : Block → Prop}
  (hP : ∀ (vars : Numbering) (v : Variable), P vars → P (vars.intern v).2)
  (hQ : ∀ (b : Block) (access : Access) (line id : Nat), Q b → Q (b.record access line id))
  (t : SymbolTable)
include hP hQ

private theorem accesses_keep (function : String) (line : Nat) (todo : List (Access × Variable))
    {vars : Numbering} (hvars : P vars) {b : Block} (hb : Q b) :
    P (accesses t function line todo vars b).vars ∧
      Q (accesses t function line todo vars b).value := by
  induction todo generalizing vars b with
  | nil => exact ⟨hvars, hb⟩
  | cons head todo ih =>
    rw [accesses]
    split
    · apply ih
      · exact hP vars head.2 hvars
      · exact hQ b head.1 line _ hb
    · exact ⟨hvars, hb⟩

private theorem lines_keep (f : Function) (todo : List Nat) {vars : Numbering} (hvars : P vars)
    {b : Block} (hb : Q b) : P (lines t f todo vars b).vars ∧ Q (lines t f todo vars b).value := by
  induction todo generalizing vars b with
  | nil => exact ⟨hvars, hb⟩
  | cons line todo ih =>
    rw [lines]
    split
    · exact ⟨hvars, hb⟩
    · next i hi =>
      have hline := accesses_keep hP hQ t f.name line i.accesses hvars hb
      split
      · next vars' b' hok =>
        rw [hok] at hline
        exact ih hline.1 hline.2
      · exact hline

theorem blocks_keep (f : Function) (todo : List Block) {vars : Numbering} (hvars : P vars)
    (h : ∀ b ∈ todo, Q b) :
    P (blocks t f todo vars).vars ∧ ∀ b ∈ (blocks t f todo vars).value, Q b := by
  induction todo generalizing vars with
  | nil => exact ⟨hvars, h⟩
  | cons b todo ih =>
    obtain ⟨hb, htodo⟩ := List.forall_mem_cons.mp h
    have hblock := lines_keep hP hQ t f b.lines hvars hb
    rw [blocks]
    split
    · next vars' b' hok =>
      rw [hok] at hblock
      have hrest := ih hblock.1 htodo
      exact ⟨hrest.1, List.forall_mem_cons.mpr ⟨hblock.2, hrest.2⟩⟩
    · next vars' b' e hstop =>
      rw [hstop] at hblock
      exact ⟨hblock.1, List.forall_mem_cons.mpr ⟨hblock.2, htodo⟩⟩

end Keeps

theorem nodup_blocks (t : SymbolTable) (f : Function) (todo : List Block) {vars : Numbering}
    (hn : vars.toList.Nodup) : (blocks t f todo vars).vars.toList.Nodup :=
  (blocks_keep (P := fun vars => vars.toList.Nodup) (Q := fun _ => True)
    (fun vars v h => (vars.intern_spec v).2.2 h) (fun _ _ _ _ h => h) t f todo hn
    (fun _ _ => trivial)).1

end Recorded

end RegisterColoring
