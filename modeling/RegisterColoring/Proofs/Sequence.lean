import Mathlib.Data.List.Forall2

namespace RegisterColoring

theorem bind_eq_ok_iff {α β ε : Type} (x : Except ε α) (f : α → Except ε β) (b : β) :
    (x >>= f) = .ok b ↔ ∃ a, x = .ok a ∧ f a = .ok b := by
  cases x with
  | error e =>
    constructor
    · intro h
      cases h
    · intro h
      obtain ⟨_, ha, _⟩ := h
      cases ha
  | ok a => simp [bind, Except.bind]

theorem map_eq_ok_iff {α β ε : Type} (f : α → β) (x : Except ε α) (b : β) :
    x.map f = .ok b ↔ ∃ a, x = .ok a ∧ f a = b := by
  cases x <;> simp [Except.map]

theorem bind_eq_error_iff {α β ε : Type} (x : Except ε α) (f : α → Except ε β) (e : ε) :
    (x >>= f) = .error e ↔ x = .error e ∨ ∃ a, x = .ok a ∧ f a = .error e := by
  cases x with
  | error e' => simp [bind, Except.bind]
  | ok a => simp [bind, Except.bind]

theorem mapM_eq_ok_iff {α β ε : Type} (f : α → Except ε β) (xs : List α) (ys : List β) :
    xs.mapM f = .ok ys ↔ List.Forall₂ (fun x y => f x = .ok y) xs ys := by
  induction xs generalizing ys with
  | nil =>
    rw [List.mapM_nil, List.forall₂_nil_left_iff]
    exact ⟨fun h => (Except.ok.inj h).symm, fun h => by rw [h]; rfl⟩
  | cons x xs ih =>
    rw [List.mapM_cons, bind_eq_ok_iff, List.forall₂_cons_left_iff]
    constructor
    · intro h
      obtain ⟨y, hy, hrest⟩ := h
      obtain ⟨zs, hzs, he⟩ := (bind_eq_ok_iff _ _ _).mp hrest
      obtain rfl := Except.ok.inj he
      exact ⟨y, zs, hy, (ih zs).mp hzs, rfl⟩
    · intro h
      obtain ⟨y, zs, hy, hzs, rfl⟩ := h
      exact ⟨y, hy, (bind_eq_ok_iff _ _ _).mpr ⟨zs, (ih zs).mpr hzs, rfl⟩⟩

theorem exists_mapM_eq_ok {α β ε : Type} (f : α → Except ε β) (xs : List α)
    (h : ∀ x ∈ xs, ∃ y, f x = .ok y) : ∃ ys, xs.mapM f = .ok ys := by
  induction xs with
  | nil => exact ⟨[], rfl⟩
  | cons x xs ih =>
    obtain ⟨y, hy⟩ := h x (by simp)
    obtain ⟨ys, hys⟩ := ih fun z hz => h z (by simp [hz])
    rw [mapM_eq_ok_iff] at hys
    exact ⟨y :: ys, (mapM_eq_ok_iff f _ _).mpr (.cons hy hys)⟩

/-- A sequence fails as its first failing member does. -/
theorem mapM_eq_error_iff {α β ε : Type} (f : α → Except ε β) (xs : List α) (e : ε) :
    xs.mapM f = .error e ↔ ∃ before x after, xs = before ++ x :: after ∧
      (∀ y ∈ before, ∃ z, f y = .ok z) ∧ f x = .error e := by
  induction xs with
  | nil =>
    constructor
    · intro h
      cases h
    · intro h
      obtain ⟨before, x, after, h, _⟩ := h
      simp at h
  | cons x xs ih =>
    rw [List.mapM_cons, bind_eq_error_iff]
    constructor
    · intro h
      obtain hx | ⟨y, hy, hrest⟩ := h
      · exact ⟨[], x, xs, rfl, by simp, hx⟩
      · obtain hxs | ⟨ys, _, hpure⟩ := (bind_eq_error_iff _ _ _).mp hrest
        · obtain ⟨before, z, after, rfl, hbefore, hz⟩ := ih.mp hxs
          refine ⟨x :: before, z, after, rfl, ?_, hz⟩
          intro w hw
          rcases List.mem_cons.mp hw with rfl | hw
          · exact ⟨y, hy⟩
          · exact hbefore w hw
        · cases hpure
    · intro h
      obtain ⟨before, z, after, hsplit, hbefore, hz⟩ := h
      cases before with
      | nil =>
        obtain ⟨rfl, rfl⟩ := List.cons.inj hsplit
        exact .inl hz
      | cons w before =>
        obtain ⟨rfl, rfl⟩ := List.cons.inj hsplit
        obtain ⟨y, hy⟩ := hbefore x (by simp)
        have hrest := ih.mpr ⟨before, z, after, rfl, fun u hu => hbefore u (by simp [hu]), hz⟩
        exact .inr ⟨y, hy, (bind_eq_error_iff _ _ _).mpr (.inl hrest)⟩

theorem exists_of_mapM_eq_error {α β ε : Type} {f : α → Except ε β} {xs : List α} {e : ε}
    (h : xs.mapM f = .error e) : ∃ x ∈ xs, f x = .error e := by
  obtain ⟨before, x, after, rfl, _, hx⟩ := (mapM_eq_error_iff f xs e).mp h
  exact ⟨x, by simp, hx⟩

theorem mapM_map_comm {α α' β β' ε : Type} (k : α → α') (k' : β → β') {f : α → Except ε β}
    {f' : α' → Except ε β'} {xs : List α} (h : ∀ x ∈ xs, f' (k x) = (f x).map k') :
    (xs.map k).mapM f' = (xs.mapM f).map (List.map k') := by
  induction xs with
  | nil => rfl
  | cons x xs ih =>
    obtain ⟨hx, hxs⟩ := List.forall_mem_cons.mp h
    rw [List.map_cons, List.mapM_cons, List.mapM_cons, hx, ih hxs]
    cases f x with
    | error e => rfl
    | ok y => cases xs.mapM f <;> rfl

end RegisterColoring
