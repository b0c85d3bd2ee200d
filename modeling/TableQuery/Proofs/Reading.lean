/-
  Which JSON values are read as parameters.

  Only arrays can be misfits: an array stands for null if it is empty, else for its two
  scalar bounds.

  * `Json.arrays`: the arrays of a value that lie in objects only, depth first, each
    with the names that lead to it;
  * `Param.toJson`: a parameter written back;
  * `Param.ofJson_eq_ok_iff`: a value is read as the parameter that is written back as
    the value, empty arrays as null;
  * `Param.ofJson_eq_error_iff`: else the fault is that of the first misfit;
  * `Param.path_of_ofJson_eq_error`: its path, in the segments of field and names;
  * `Param.ofJson_outcome`: both, and which values are read as the parameters of a form.
-/
import TableQuery.Param.OfJson
import TableQuery.Proofs.Leaves
import TableQuery.Proofs.Stages

namespace TableQuery

/-! ## Arrays -/

/-- A value that is no array and no object. -/
def Json.isScalar : Json → Bool
  | .array _ | .object _ => false
  | _ => true

/-- Whether the items of an array stand for a leaf: there are none, or two scalars. -/
def Leaf.fits : List Json → Bool
  | [] => true
  | [lower, upper] => lower.isScalar && upper.isScalar
  | _ => false

/-- What is wrong with items that stand for no leaf: their number, unless it is two. -/
def Leaf.complaint (items : List Json) : ParamReason :=
  if items.length = 2 then .boundsNotScalar else .rangeLength items.length

mutual

/-- The arrays that are met on the way down through objects, depth first, with the
    names that lead to them. -/
def Json.arrays : Json → List (List String × List Json)
  | .array items => [([], items)]
  | .object ms => Json.arraysBelow ms
  | .null | .bool _ | .number _ | .text _ => []

/-- The arrays of the members of an object. -/
def Json.arraysBelow : List (String × Json) → List (List String × List Json)
  | [] => []
  | (name, v) :: ms => (v.arrays.map fun a => (name :: a.1, a.2)) ++ Json.arraysBelow ms

end

/-- The first of some arrays that stands for no leaf. -/
def Leaf.misfit? (arrays : List (List String × List Json)) : Option (List String × List Json) :=
  arrays.find? fun a => !fits a.2

/-! ## Parameters written back -/

def Scalar.toJson : Scalar → Json
  | .null => .null
  | .bool b => .bool b
  | .number n => .number n
  | .text s => .text s

def Leaf.toJson : Leaf → Json
  | .scalar s => s.toJson
  | .range lower upper => .array [lower.toJson, upper.toJson]

mutual

def Param.toJson : Param → Json
  | .leaf l => l.toJson
  | .group ms => .object (Params.toMembers ms)

def Params.toMembers : List (String × Param) → List (String × Json)
  | [] => []
  | (name, p) :: ps => (name, p.toJson) :: Params.toMembers ps

end

mutual

/-- A value with null for each empty array that is met on the way down through objects. -/
def Json.cleared : Json → Json
  | .array [] => .null
  | .object ms => .object (Json.clearedMembers ms)
  | v => v

def Json.clearedMembers : List (String × Json) → List (String × Json)
  | [] => []
  | (name, v) :: ms => (name, v.cleared) :: Json.clearedMembers ms

end

theorem Scalar.ofJson?_eq_some_iff {v : Json} {s : Scalar} :
    Scalar.ofJson? v = some s ↔ s.toJson = v := by
  cases v <;> cases s <;> simp [Scalar.ofJson?, Scalar.toJson, eq_comm]

theorem Scalar.ofJson?_eq_none_iff {v : Json} : Scalar.ofJson? v = none ↔ v.isScalar = false := by
  cases v <;> simp [Scalar.ofJson?, Json.isScalar]

/-! ## Leaves -/

theorem Leaf.toJson_eq_null_iff {l : Leaf} : l.toJson = .null ↔ l = .scalar .null := by
  cases l with
  | scalar s => cases s <;> simp [Leaf.toJson, Scalar.toJson]
  | range lower upper => simp [Leaf.toJson]

theorem Leaf.toJson_eq_array_iff {l : Leaf} {items : List Json} :
    l.toJson = .array items ↔
      ∃ lower upper, l = .range lower upper ∧ items = [lower.toJson, upper.toJson] := by
  constructor
  · intro h
    cases l with
    | scalar s => cases s <;> simp [Leaf.toJson, Scalar.toJson] at h
    | range lower upper => exact ⟨lower, upper, rfl, (Json.array.inj h).symm⟩
  · rintro ⟨lower, upper, rfl, rfl⟩
    rfl

theorem Leaf.ofItems_eq_ok_iff {path : String} {items : List Json} {l : Leaf} :
    Leaf.ofItems path items = .ok l ↔ l.toJson = (Json.array items).cleared := by
  match items with
  | [] => rw [Json.cleared, Leaf.toJson_eq_null_iff, Leaf.ofItems, Except.ok.injEq, eq_comm]
  | [_] | _ :: _ :: _ :: _ => simp [Leaf.ofItems, Json.cleared, Leaf.toJson_eq_array_iff]
  | [lower, upper] =>
    have hc : (Json.array [lower, upper]).cleared = .array [lower, upper] := by simp [Json.cleared]
    rw [hc, Leaf.toJson_eq_array_iff, Leaf.ofItems]
    constructor
    · intro h
      split at h
      · rename_i a b ha hb
        rw [← Scalar.ofJson?_eq_some_iff.1 ha, ← Scalar.ofJson?_eq_some_iff.1 hb]
        exact ⟨a, b, (Except.ok.inj h).symm, rfl⟩
      · cases h
    · rintro ⟨a, b, rfl, hitems⟩
      simp only [List.cons.injEq, and_true] at hitems
      rw [Scalar.ofJson?_eq_some_iff.2 hitems.1.symm, Scalar.ofJson?_eq_some_iff.2 hitems.2.symm]

theorem Leaf.ofItems_eq_error_iff {path : String} {items : List Json} {fault : ParamFault} :
    Leaf.ofItems path items = .error fault ↔
      Leaf.fits items = false ∧ fault = ⟨path, Leaf.complaint items⟩ := by
  match items with
  | [] => simp [Leaf.ofItems, Leaf.fits]
  | [_] | _ :: _ :: _ :: _ => simp [Leaf.ofItems, Leaf.fits, Leaf.complaint, eq_comm]
  | [lower, upper] =>
    have hfit : Leaf.fits [lower, upper] = (lower.isScalar && upper.isScalar) := rfl
    have hc : Leaf.complaint [lower, upper] = .boundsNotScalar := rfl
    rw [hfit, hc, Bool.and_eq_false_iff, ← Scalar.ofJson?_eq_none_iff,
      ← Scalar.ofJson?_eq_none_iff, Leaf.ofItems]
    cases Scalar.ofJson? lower <;> cases Scalar.ofJson? upper <;> simp [eq_comm]

/-! ## Values that are read -/

theorem Param.ok_scalar_iff {s : Scalar} {p : Param} :
    (.ok (.leaf (.scalar s)) : Except ParamFault Param) = .ok p ↔ p.toJson = s.toJson := by
  rw [Except.ok.injEq]
  constructor
  · rintro rfl
    rfl
  · intro h
    cases p with
    | leaf l =>
      cases l with
      | scalar t => cases s <;> cases t <;> simp_all [Param.toJson, Leaf.toJson, Scalar.toJson]
      | range lower upper => cases s <;> simp [Param.toJson, Leaf.toJson, Scalar.toJson] at h
    | group ms => cases s <;> simp [Param.toJson, Scalar.toJson] at h

theorem Param.toJson_eq_cleared_array_iff {p : Param} {items : List Json} :
    p.toJson = (Json.array items).cleared ↔
      ∃ l : Leaf, l.toJson = (Json.array items).cleared ∧ .leaf l = p := by
  constructor
  · intro h
    cases p with
    | leaf l => exact ⟨l, h, rfl⟩
    | group ms => cases items <;> simp [Param.toJson, Json.cleared] at h
  · rintro ⟨l, h, rfl⟩
    exact h

theorem Param.toJson_eq_object_iff {p : Param} {ms : List (String × Json)} :
    p.toJson = .object ms ↔ ∃ ps, Params.toMembers ps = ms ∧ .group ps = p := by
  constructor
  · intro h
    cases p with
    | leaf l =>
      cases l with
      | scalar s => cases s <;> simp [Param.toJson, Leaf.toJson, Scalar.toJson] at h
      | range lower upper => simp [Param.toJson, Leaf.toJson] at h
    | group ps => exact ⟨ps, Json.object.inj h, rfl⟩
  · rintro ⟨ps, rfl, rfl⟩
    rfl

theorem Params.toMembers_eq_cons_iff {ps : List (String × Param)} {name : String} {v : Json}
    {ms : List (String × Json)} :
    Params.toMembers ps = (name, v) :: ms ↔
      ∃ p, p.toJson = v ∧ ∃ rest, Params.toMembers rest = ms ∧ (name, p) :: rest = ps := by
  constructor
  · intro h
    cases ps with
    | nil => cases h
    | cons m rest =>
      obtain ⟨hm, hrest⟩ := List.cons.inj h
      obtain ⟨rfl, hv⟩ := Prod.mk.inj hm
      exact ⟨m.2, hv, rest, hrest, rfl⟩
  · rintro ⟨p, rfl, rest, rfl, rfl⟩
    rfl

mutual

/-- A value is read as the parameter that is written back as the value, with null for
    its empty arrays. -/
theorem Param.ofJson_eq_ok_iff (path : String) :
    ∀ (v : Json) (p : Param), Param.ofJson path v = .ok p ↔ p.toJson = v.cleared
  | .null, p => Param.ok_scalar_iff (s := .null)
  | .bool b, p => Param.ok_scalar_iff (s := .bool b)
  | .number n, p => Param.ok_scalar_iff (s := .number n)
  | .text t, p => Param.ok_scalar_iff (s := .text t)
  | .array items, p => by
    rw [Param.toJson_eq_cleared_array_iff, Param.ofJson, map_eq_ok_iff]
    simp only [Leaf.ofItems_eq_ok_iff]
  | .object ms, p => by
    rw [Param.ofJson, map_eq_ok_iff, Json.cleared, Param.toJson_eq_object_iff]
    simp only [Params.ofMembers_eq_ok_iff path ms]

theorem Params.ofMembers_eq_ok_iff (parent : String) :
    ∀ (ms : List (String × Json)) (ps : List (String × Param)),
      Params.ofMembers parent ms = .ok ps ↔ Params.toMembers ps = Json.clearedMembers ms
  | [], ps => by
    rw [Params.ofMembers, Json.clearedMembers]
    cases ps <;> simp [Params.toMembers]
  | (name, v) :: ms, ps => by
    rw [Params.ofMembers, Json.clearedMembers, Params.toMembers_eq_cons_iff]
    simp only [bind_eq_ok_iff, Param.ofJson_eq_ok_iff (Path.join parent name) v,
      Params.ofMembers_eq_ok_iff parent ms]
    simp [pure, Except.pure]

end

/-! ## Values that are not read -/

/-- The fault of an array that stands for no leaf, below a path. -/
def ParamFault.ofArray (path : String) (a : List String × List Json) : ParamFault :=
  ⟨Path.below path a.1, Leaf.complaint a.2⟩

theorem Leaf.misfit?_arraysBelow (name : String) (v : Json) (ms : List (String × Json)) :
    Leaf.misfit? (Json.arraysBelow ((name, v) :: ms)) =
      ((Leaf.misfit? v.arrays).map fun a => (name :: a.1, a.2)).or
        (Leaf.misfit? (Json.arraysBelow ms)) := by
  rw [Json.arraysBelow, Leaf.misfit?, List.find?_append, List.find?_map]
  rfl

mutual

/-- The fault of a value is that of its first array that stands for no leaf. -/
theorem Param.ofJson_eq_error_iff (path : String) :
    ∀ (v : Json) (fault : ParamFault), Param.ofJson path v = .error fault ↔
      ∃ a, Leaf.misfit? v.arrays = some a ∧ .ofArray path a = fault
  | .null, _ | .bool _, _ | .number _, _ | .text _, _ => by
    simp [Param.ofJson, Json.arrays, Leaf.misfit?]
  | .array items, fault => by
    rw [Param.ofJson, map_eq_error_iff, Leaf.ofItems_eq_error_iff, Json.arrays]
    cases h : Leaf.fits items <;> simp [Leaf.misfit?, h, ParamFault.ofArray, eq_comm]
  | .object ms, fault => by
    rw [Param.ofJson, map_eq_error_iff, Params.ofMembers_eq_error_iff path ms, Json.arrays]

theorem Params.ofMembers_eq_error_iff (parent : String) :
    ∀ (ms : List (String × Json)) (fault : ParamFault), Params.ofMembers parent ms = .error fault ↔
      ∃ a, Leaf.misfit? (Json.arraysBelow ms) = some a ∧ .ofArray parent a = fault
  | [], _ => by
    simp [Params.ofMembers, Json.arraysBelow, Leaf.misfit?]
  | (name, v) :: ms, fault => by
    have h := Param.ofJson_eq_error_iff (Path.join parent name) v
    rw [Params.ofMembers, bind_bind_eq_error_iff, exists_eq_ok_iff h, h,
      Params.ofMembers_eq_error_iff parent ms, Leaf.misfit?_arraysBelow]
    cases Leaf.misfit? v.arrays <;> simp [ParamFault.ofArray]

end

/-- The path of a fault joins the field and the names that lead to the array. Below an
    empty field it joins the names, without the empty ones at their front. -/
theorem Param.path_of_ofJson_eq_error {field : String} {v : Json} {fault : ParamFault}
    (h : Param.ofJson field v = .error fault) :
    ∃ names items, Leaf.misfit? v.arrays = some (names, items) ∧
      fault.path =
        Path.ofSegments (if field = "" then Path.dropRoot names else field :: names) := by
  obtain ⟨⟨names, items⟩, ha, rfl⟩ := (Param.ofJson_eq_error_iff field v fault).1 h
  refine ⟨names, items, ha, ?_⟩
  by_cases hf : field = ""
  · rw [if_pos hf, hf]
    exact Path.below_eq_ofSegments names
  · rw [if_neg hf]
    exact Path.below_of_ne hf names

theorem Leaf.misfit?_eq_none_iff {arrays : List (List String × List Json)} :
    Leaf.misfit? arrays = none ↔ ∀ a ∈ arrays, Leaf.fits a.2 = true := by
  simp [Leaf.misfit?]

/-- The values that are read have arrays that stand for leaves only. -/
theorem Param.exists_ofJson_iff (path : String) (v : Json) :
    (∃ p, Param.ofJson path v = .ok p) ↔ ∀ a ∈ v.arrays, Leaf.fits a.2 = true := by
  rw [exists_eq_ok_iff (Param.ofJson_eq_error_iff path v), Leaf.misfit?_eq_none_iff]

/-! ## The parameters of a form -/

theorem Json.cleared_eq_object_iff {v : Json} {ms : List (String × Json)} :
    v.cleared = .object ms ↔ ∃ ms', v = .object ms' ∧ Json.clearedMembers ms' = ms := by
  cases v with
  | array items => cases items <;> simp [Json.cleared]
  | _ => simp [Json.cleared]

theorem Json.cleared_eq_null_iff {v : Json} : v.cleared = .null ↔ v = .null ∨ v = .array [] := by
  cases v with
  | array items => cases items <;> simp [Json.cleared]
  | _ => simp [Json.cleared]

/-- The parameters of a form are a group, or null for none. -/
theorem Params.ofJson_eq_ok_iff {v : Json} {ps : Params} :
    Params.ofJson v = .ok ps ↔
      Param.ofJson "" v = .ok (.group ps) ∨
        Param.ofJson "" v = .ok (.leaf (.scalar .null)) ∧ ps = [] := by
  rw [Params.ofJson, bind_eq_ok_iff]
  constructor
  · rintro ⟨p, hp, h⟩
    split at h
    · exact Or.inl (Except.ok.inj h ▸ hp)
    · exact Or.inr ⟨hp, (Except.ok.inj h).symm⟩
    · cases h
  · rintro (h | ⟨h, rfl⟩)
    · exact ⟨_, h, rfl⟩
    · exact ⟨_, h, rfl⟩

/-- The values that are read as the parameters of a form are objects, or stand for null. -/
theorem Params.exists_ofJson_iff {v : Json} :
    (∃ ps, Params.ofJson v = .ok ps) ↔
      (∀ a ∈ v.arrays, Leaf.fits a.2 = true) ∧
        ((∃ ms, v = .object ms) ∨ v = .null ∨ v = .array []) := by
  rw [← Param.exists_ofJson_iff "" v]
  constructor
  · rintro ⟨ps, h⟩
    rcases Params.ofJson_eq_ok_iff.1 h with h | ⟨h, -⟩
    · obtain ⟨ms, hv, -⟩ := Json.cleared_eq_object_iff.1 ((Param.ofJson_eq_ok_iff "" v _).1 h).symm
      exact ⟨⟨_, h⟩, Or.inl ⟨ms, hv⟩⟩
    · exact ⟨⟨_, h⟩, Or.inr (Json.cleared_eq_null_iff.1 ((Param.ofJson_eq_ok_iff "" v _).1 h).symm)⟩
  · rintro ⟨⟨p, hp⟩, ⟨ms, rfl⟩ | h⟩
    · have hc : p.toJson = .object (Json.clearedMembers ms) := (Param.ofJson_eq_ok_iff "" _ p).1 hp
      obtain ⟨ps, -, rfl⟩ := Param.toJson_eq_object_iff.1 hc
      exact ⟨ps, Params.ofJson_eq_ok_iff.2 (Or.inl hp)⟩
    · have hn := (Param.ofJson_eq_ok_iff "" v (.leaf (.scalar .null))).2
        (Json.cleared_eq_null_iff.2 h).symm
      exact ⟨[], Params.ofJson_eq_ok_iff.2 (Or.inr ⟨hn, rfl⟩)⟩

/-- **Which values are parameters.**  A value is read if and only if the arrays in it
    that lie in objects only are empty or pairs of scalars. It is read as the parameter
    that is written back as the value, empty arrays as null. Else the fault is that of
    the first array, depth first, that is neither: it names the path from the field
    down, and the number of items, unless there are two. The path joins the field and
    the names with `/`, all of them unless the field is empty, and else those from the
    first that is not empty on (`Param.path_of_ofJson_eq_error`). A value is read as the
    parameters of a form if it is an object besides, or null, or an empty array. -/
theorem Param.ofJson_outcome (field : String) (v : Json) :
    ((∃ p, Param.ofJson field v = .ok p) ↔ ∀ a ∈ v.arrays, Leaf.fits a.2 = true) ∧
    (∀ p, Param.ofJson field v = .ok p ↔ p.toJson = v.cleared) ∧
    (∀ fault, Param.ofJson field v = .error fault ↔
      ∃ names items, v.arrays.find? (fun a => !Leaf.fits a.2) = some (names, items) ∧
        fault = ⟨Path.below field names,
          if items.length = 2 then .boundsNotScalar else .rangeLength items.length⟩) ∧
    ((∃ ps, Params.ofJson v = .ok ps) ↔
      (∀ a ∈ v.arrays, Leaf.fits a.2 = true) ∧
        ((∃ ms, v = .object ms) ∨ v = .null ∨ v = .array [])) := by
  refine ⟨Param.exists_ofJson_iff field v, Param.ofJson_eq_ok_iff field v, fun fault => ?_,
    Params.exists_ofJson_iff⟩
  rw [Param.ofJson_eq_error_iff]
  constructor
  · rintro ⟨⟨names, items⟩, ha, rfl⟩
    exact ⟨names, items, ha, rfl⟩
  · rintro ⟨names, items, ha, rfl⟩
    exact ⟨(names, items), ha, rfl⟩

end TableQuery
