/-
  Runs in stages, which end with their first fault.

  * `bind_eq_ok_iff`, `bind_mapError_eq_ok_iff`: a run succeeds if every stage
    does;
  * `bind_eq_error_iff`, `bind_mapError_eq_error_iff`, `bind_bind_eq_error_iff`: the
    fault of a stage comes before those of the later ones;
  * `exists_eq_ok_iff`: a run succeeds if nothing is found that makes a fault;
  * `mapM_cons_eq_ok_iff`, `mapM_eq_ok_iff`, `exists_mapM_iff`: a list is read
    member by member, if each of them is;
  * `Past`, `mapM_eq_error_iff`: else its fault is that of the first member that
    is not read;
  * `mapM_eq_some_iff`: the same for runs that tell no fault.
-/
namespace TableQuery

variable {ε ε' α β : Type} {x : Except ε α}

theorem bind_eq_ok_iff {k : α → Except ε β} {b : β} :
    x >>= k = .ok b ↔ ∃ a, x = .ok a ∧ k a = .ok b := by
  cases x <;> simp [bind, Except.bind]

theorem bind_eq_error_iff {k : α → Except ε β} {e : ε} :
    x >>= k = .error e ↔ x = .error e ∨ ∃ a, x = .ok a ∧ k a = .error e := by
  cases x <;> simp [bind, Except.bind]

theorem bind_mapError_eq_ok_iff {f : ε → ε'} {k : α → Except ε' β} {b : β} :
    x.mapError f >>= k = .ok b ↔ ∃ a, x = .ok a ∧ k a = .ok b := by
  cases x with
  | error fault =>
    constructor
    · rintro ⟨⟩
    · rintro ⟨_, ⟨⟩, _⟩
  | ok a =>
    constructor
    · intro h
      exact ⟨a, rfl, h⟩
    · rintro ⟨_, ⟨⟩, h⟩
      exact h

theorem bind_mapError_eq_error_iff {f : ε → ε'} {k : α → Except ε' β} {e : ε'} :
    x.mapError f >>= k = .error e ↔
      (∃ fault, x = .error fault ∧ f fault = e) ∨ ∃ a, x = .ok a ∧ k a = .error e := by
  cases x with
  | error fault =>
    constructor
    · intro h
      exact Or.inl ⟨fault, rfl, Except.error.inj h⟩
    · rintro (⟨_, ⟨⟩, rfl⟩ | ⟨_, ⟨⟩, _⟩)
      rfl
  | ok a =>
    constructor
    · intro h
      exact Or.inr ⟨a, rfl, h⟩
    · rintro (⟨_, ⟨⟩, _⟩ | ⟨_, ⟨⟩, h⟩)
      exact h

theorem mapError_eq_ok_iff {f : ε → ε'} {a : α} : x.mapError f = .ok a ↔ x = .ok a := by
  cases x with
  | error fault =>
    constructor
    · rintro ⟨⟩
    · rintro ⟨⟩
  | ok b =>
    constructor
    · intro h
      rw [Except.ok.inj h]
    · rintro ⟨⟩
      rfl

theorem mapError_eq_error_iff {f : ε → ε'} {e : ε'} :
    x.mapError f = .error e ↔ ∃ fault, x = .error fault ∧ f fault = e := by
  cases x with
  | error fault =>
    constructor
    · intro h
      exact ⟨fault, rfl, Except.error.inj h⟩
    · rintro ⟨_, ⟨⟩, rfl⟩
      rfl
  | ok a =>
    constructor
    · rintro ⟨⟩
    · rintro ⟨_, ⟨⟩, _⟩

theorem map_eq_ok_iff {f : α → β} {b : β} : x.map f = .ok b ↔ ∃ a, x = .ok a ∧ f a = b := by
  cases x <;> simp [Except.map]

theorem map_eq_error_iff {f : α → β} {e : ε} : x.map f = .error e ↔ x = .error e := by
  cases x <;> simp [Except.map]

theorem exists_eq_error (h : ¬ ∃ a, x = .ok a) : ∃ fault, x = .error fault := by
  cases x with
  | error fault => exact ⟨fault, rfl⟩
  | ok a => exact absurd ⟨a, rfl⟩ h

/-- A run succeeds if nothing is found that makes its faults. -/
theorem exists_eq_ok_iff {γ : Type} {m : Option γ} {g : γ → ε}
    (h : ∀ e, x = .error e ↔ ∃ c, m = some c ∧ g c = e) : (∃ a, x = .ok a) ↔ m = none := by
  cases x with
  | error e =>
    obtain ⟨c, rfl, -⟩ := (h e).1 rfl
    simp
  | ok a =>
    refine iff_of_true ⟨a, rfl⟩ (Option.eq_none_iff_forall_ne_some.2 fun c hc => ?_)
    cases (h (g c)).2 ⟨c, hc, rfl⟩

/-- The faults of two runs whose results are put together. -/
theorem bind_bind_eq_error_iff {γ : Type} {y : Except ε β} {f : α → β → γ} {e : ε} :
    (do let a ← x; let b ← y; return f a b) = .error e ↔
      x = .error e ∨ (∃ a, x = .ok a) ∧ y = .error e := by
  cases x <;> cases y <;> simp [bind, Except.bind, pure, Except.pure]

theorem mapM_cons_eq_ok_iff {f : α → Except ε β} {x : α} {xs : List α} {zs : List β} :
    (x :: xs).mapM f = .ok zs ↔
      ∃ y ys, f x = .ok y ∧ xs.mapM f = .ok ys ∧ zs = y :: ys := by
  simp only [List.mapM_cons, bind_eq_ok_iff]
  constructor
  · rintro ⟨y, hy, ys, hys, h⟩
    exact ⟨y, ys, hy, hys, (Except.ok.inj h).symm⟩
  · rintro ⟨y, ys, hy, hys, rfl⟩
    exact ⟨y, hy, ys, hys, rfl⟩

/-- What is read from a list is what is read from its members. -/
theorem mapM_eq_ok_iff {f : α → Except ε β} {xs : List α} {ys : List β} :
    xs.mapM f = .ok ys ↔
      (∀ x ∈ xs, ∃ y, f x = .ok y) ∧ ys = xs.filterMap fun x => (f x).toOption := by
  induction xs generalizing ys with
  | nil => simp [pure, Except.pure, eq_comm]
  | cons x xs ih =>
    rw [mapM_cons_eq_ok_iff, List.forall_mem_cons]
    constructor
    · rintro ⟨y, rest, hy, hrest, rfl⟩
      obtain ⟨hall, rfl⟩ := ih.1 hrest
      exact ⟨⟨⟨y, hy⟩, hall⟩, by simp [hy, Except.toOption]⟩
    · rintro ⟨⟨⟨y, hy⟩, hall⟩, rfl⟩
      exact ⟨y, _, hy, ih.2 ⟨hall, rfl⟩, by simp [hy, Except.toOption]⟩

theorem exists_mapM_iff {f : α → Except ε β} {xs : List α} :
    (∃ ys, xs.mapM f = .ok ys) ↔ ∀ x ∈ xs, ∃ y, f x = .ok y := by
  simp only [mapM_eq_ok_iff]
  exact ⟨fun ⟨_, hall, _⟩ => hall, fun hall => ⟨_, hall, rfl⟩⟩

/-- A list has a hit, past members that are skipped. -/
def Past (skip hit : α → Prop) (xs : List α) : Prop :=
  ∃ before x after, xs = before ++ x :: after ∧ (∀ y ∈ before, skip y) ∧ hit x

theorem not_past_nil {skip hit : α → Prop} : ¬ Past skip hit [] := by
  rintro ⟨before, x, after, h, -⟩
  simp at h

theorem past_cons_iff {skip hit : α → Prop} {x : α} {xs : List α} :
    Past skip hit (x :: xs) ↔ hit x ∨ skip x ∧ Past skip hit xs := by
  constructor
  · rintro ⟨before, y, after, h, hskip, hhit⟩
    cases before with
    | nil =>
      obtain ⟨rfl, -⟩ := List.cons.inj h
      exact Or.inl hhit
    | cons b before =>
      obtain ⟨rfl, hxs⟩ := List.cons.inj h
      obtain ⟨hx, hbefore⟩ := List.forall_mem_cons.1 hskip
      exact Or.inr ⟨hx, before, y, after, hxs, hbefore, hhit⟩
  · rintro (hx | ⟨hx, before, y, after, rfl, hskip, hhit⟩)
    · exact ⟨[], x, xs, rfl, by simp, hx⟩
    · exact ⟨x :: before, y, after, rfl, List.forall_mem_cons.2 ⟨hx, hskip⟩, hhit⟩

/-- The fault of a list is that of the first member that is not read. -/
theorem mapM_eq_error_iff {f : α → Except ε β} {xs : List α} {e : ε} :
    xs.mapM f = .error e ↔ Past (fun x => ∃ y, f x = .ok y) (fun x => f x = .error e) xs := by
  induction xs with
  | nil => exact iff_of_false (by simp [pure, Except.pure]) not_past_nil
  | cons x xs ih =>
    rw [past_cons_iff, ← ih, List.mapM_cons, bind_eq_error_iff]
    refine or_congr_right ⟨?_, ?_⟩
    · rintro ⟨y, hy, h⟩
      rcases bind_eq_error_iff.1 h with hxs | ⟨ys, -, hys⟩
      · exact ⟨⟨y, hy⟩, hxs⟩
      · cases hys
    · rintro ⟨⟨y, hy⟩, hxs⟩
      exact ⟨y, hy, bind_eq_error_iff.2 (Or.inl hxs)⟩

/-- What is read from a list, without a fault to tell, is what is read from its members. -/
theorem mapM_eq_some_iff {f : α → Option β} {xs : List α} {ys : List β} :
    xs.mapM f = some ys ↔ xs.map f = ys.map some := by
  induction xs generalizing ys with
  | nil => cases ys <;> simp
  | cons x xs ih =>
    cases ys with
    | nil => simp [Option.bind_eq_some_iff]
    | cons y ys =>
      rw [List.map_cons, List.map_cons, List.cons.injEq, ← ih]
      simp [Option.bind_eq_some_iff]

end TableQuery
