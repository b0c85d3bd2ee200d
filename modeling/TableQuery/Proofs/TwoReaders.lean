/-
  The two readers of the parameters of a form.

  One reads the form as a whole, from the empty path down. The other reads each member
  on its own, so that its paths begin below the member.

  * `ofEach_eq_ok_iff`, `ofEach_eq_error_iff`: what the second one reads, and its fault;
  * `ofObject_agrees`: both read the same parameters, and their faults are about the
    same array.
-/
import TableQuery.Proofs.Reading

namespace TableQuery.Params

/-- Read one by one, members are the parameters that are written back as they are. -/
theorem ofEach_eq_ok_iff {ms : Members Json} {ps : Params} :
    ofEach ms = .ok ps ↔ toMembers ps = Json.clearedMembers ms := by
  induction ms generalizing ps with
  | nil =>
    rw [ofEach, Json.clearedMembers]
    cases ps <;> simp [toMembers]
  | cons m ms ih =>
    obtain ⟨name, v⟩ := m
    rw [ofEach, Json.clearedMembers, toMembers_eq_cons_iff]
    simp only [bind_eq_ok_iff, Param.ofJson_eq_ok_iff "" v, ih]
    simp [pure, Except.pure]

/-- The fault of members that are read one by one is that of the first array that stands
    for no leaf, at its path below the member. -/
theorem ofEach_eq_error_iff {ms : Members Json} {fault : ParamFault} :
    ofEach ms = .error fault ↔
      ∃ name names items, Leaf.misfit? (Json.arraysBelow ms) = some (name :: names, items) ∧
        .ofArray "" (names, items) = fault := by
  induction ms with
  | nil => simp [ofEach, Json.arraysBelow, Leaf.misfit?]
  | cons m ms ih =>
    obtain ⟨name, v⟩ := m
    have h := Param.ofJson_eq_error_iff "" v
    rw [ofEach, bind_bind_eq_error_iff, exists_eq_ok_iff h, h, ih, Leaf.misfit?_arraysBelow]
    cases Leaf.misfit? v.arrays with
    | none => simp
    | some a =>
      simp only [Option.some.injEq, exists_eq_left', reduceCtorEq, false_and, or_false,
        Option.map_some, Option.some_or, Prod.mk.injEq, List.cons.injEq]
      constructor
      · rintro rfl
        exact ⟨name, a.1, a.2, ⟨⟨rfl, rfl⟩, rfl⟩, rfl⟩
      · rintro ⟨_, _, _, ⟨⟨-, rfl⟩, rfl⟩, rfl⟩
        rfl

theorem ofObject_eq_ok_iff {ms : Members Json} {ps : Params} :
    ofObject (.object ms) = .ok ps ↔ ofEach ms = .ok ps :=
  mapError_eq_ok_iff

theorem ofObject_eq_error_iff {ms : Members Json} {fault : ShapeFault} :
    ofObject (.object ms) = .error fault ↔ ∃ f, ofEach ms = .error f ∧ .param f = fault :=
  mapError_eq_error_iff

/-- Of an object only the members are read. -/
theorem ofJson_object_eq_ok_iff {ms : Members Json} {ps : Params} :
    ofJson (.object ms) = .ok ps ↔ toMembers ps = Json.clearedMembers ms := by
  rw [ofJson_eq_ok_iff, Param.ofJson_eq_ok_iff, Param.ofJson_eq_ok_iff]
  simp [Param.toJson, Leaf.toJson, Scalar.toJson, Json.cleared]

theorem ofJson_object_of_misfit {ms : Members Json} {a : List String × List Json}
    (h : Leaf.misfit? (Json.arraysBelow ms) = some a) :
    ofJson (.object ms) = .error (.ofArray "" a) := by
  have he := (Param.ofJson_eq_error_iff "" (.object ms) _).2 ⟨a, h, rfl⟩
  rw [ofJson, he]
  rfl

/-- **The two readers of a form agree.**  They read the same parameters of an object, in
    the same order. If they do not read it, their faults are about the same array, and
    give the same reason; the path of the one is that of all names that lead to the
    array, the path of the other that of the names below the member. -/
theorem ofObject_agrees (ms : Members Json) :
    (∀ ps, ofObject (.object ms) = .ok ps ↔ ofJson (.object ms) = .ok ps) ∧
    ∀ fault, ofObject (.object ms) = .error fault ↔
      ∃ name names items,
        (Json.object ms).arrays.find? (fun a => !Leaf.fits a.2) = some (name :: names, items) ∧
        fault = .param ⟨Path.below "" names, Leaf.complaint items⟩ ∧
        ofJson (.object ms) = .error ⟨Path.below "" (name :: names), Leaf.complaint items⟩ := by
  refine ⟨fun ps => ?_, fun fault => ?_⟩
  · rw [ofObject_eq_ok_iff, ofEach_eq_ok_iff, ofJson_object_eq_ok_iff]
  · rw [ofObject_eq_error_iff]
    constructor
    · rintro ⟨f, hf, rfl⟩
      obtain ⟨name, names, items, ha, rfl⟩ := ofEach_eq_error_iff.1 hf
      exact ⟨name, names, items, ha, rfl, ofJson_object_of_misfit ha⟩
    · rintro ⟨name, names, items, ha, rfl, -⟩
      exact ⟨_, ofEach_eq_error_iff.2 ⟨name, names, items, ha, rfl⟩, rfl⟩

end TableQuery.Params
