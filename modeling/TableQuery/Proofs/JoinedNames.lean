/-
  Names joined downwards from a path.

  Every name is joined to the path before it. The empty path adds no separator, so below
  it the names before the first that is not empty leave no trace.

  * `toList_below`, `below_of_ne`: below a path that is not empty all names are kept, as
    segments behind it;
  * `below_eq_ofSegments`: below the empty path they are kept without the empty ones at
    their front;
  * `ofSegments_dropRoot_eq_iff`: when nothing is lost by that;
  * `below_eq_iff`: which names join to a path without separator.
-/
import TableQuery.Path

namespace TableQuery.Path

/-- The path of names, each below the one before, that begin below a path. -/
def below (parent : String) (names : List String) : String :=
  names.foldl join parent

@[simp] theorem below_nil (parent : String) : below parent [] = parent := rfl

@[simp] theorem below_cons (parent name : String) (names : List String) :
    below parent (name :: names) = below (join parent name) names := rfl

theorem toList_join {parent : String} (h : parent ≠ "") (name : String) :
    (join parent name).toList = parent.toList ++ '/' :: name.toList := by
  rw [join_of_ne h, String.toList_append, String.toList_append, List.append_assoc]
  rfl

/-- Below a path that is not empty every name is kept. -/
theorem toList_below {parent : String} (h : parent ≠ "") (names : List String) :
    (below parent names).toList = parent.toList ++ names.flatMap ('/' :: ·.toList) := by
  induction names generalizing parent with
  | nil => simp
  | cons name names ih =>
    have hne : join parent name ≠ "" := by
      intro e
      have := toList_join h name
      simp [e] at this
    rw [below_cons, ih hne, toList_join h, List.flatMap_cons, List.append_assoc]

/-- Whether names lead to a name past empty names only. -/
def leadsTo (name : String) : List String → Bool
  | [] => false
  | [n] => n == name
  | n :: m :: ns => n == "" && leadsTo name (m :: ns)

/-- A path without separator is joined only by its name below empty names. -/
theorem below_eq_iff {name : String} (hn : name ≠ "") (hs : '/' ∉ name.toList)
    (names : List String) : below "" names = name ↔ leadsTo name names = true := by
  induction names with
  | nil => simp [leadsTo, hn.symm]
  | cons n ns ih =>
    rw [below_cons, join_empty]
    cases ns with
    | nil => simp [leadsTo]
    | cons m ns =>
      by_cases h : n = ""
      · rw [h, ih]
        simp [leadsTo]
      · have hne : below n (m :: ns) ≠ name := by
          rintro rfl
          rw [toList_below h] at hs
          simp at hs
        simp only [leadsTo, beq_false_of_ne h, Bool.false_and, hne, Bool.false_eq_true]

/-! ## Names and segments -/

/-- Names without the empty ones at their front; the last name stays. -/
def dropRoot : List String → List String
  | name :: next :: names => if name = "" then dropRoot (next :: names) else name :: next :: names
  | names => names

theorem dropRoot_cons_of_ne {name : String} (h : name ≠ "") (names : List String) :
    dropRoot (name :: names) = name :: names := by
  cases names with
  | nil => rfl
  | cons next names => rw [dropRoot, if_neg h]

theorem dropRoot_empty_cons (next : String) (names : List String) :
    dropRoot ("" :: next :: names) = dropRoot (next :: names) := by
  rw [dropRoot, if_pos rfl]

/-- The segments behind the first have a separator each. -/
theorem toList_ofSegments_cons (name : String) (names : List String) :
    (ofSegments (name :: names)).toList = name.toList ++ names.flatMap ('/' :: ·.toList) := by
  induction names generalizing name with
  | nil => simp [ofSegments]
  | cons next names ih =>
    have hc : ofSegments (name :: next :: names) = name ++ "/" ++ ofSegments (next :: names) :=
      String.intercalate_cons_cons
    rw [hc, String.toList_append, String.toList_append, ih, List.flatMap_cons]
    simp

/-- Names below a path that is not empty join it as segments. -/
theorem below_of_ne {parent : String} (h : parent ≠ "") (names : List String) :
    below parent names = ofSegments (parent :: names) := by
  rw [← String.toList_inj, toList_below h, toList_ofSegments_cons]

/-- By induction on the names, what is joined below the root is the path of the
    names without the empty ones at their front. -/
theorem below_eq_ofSegments (names : List String) :
    below "" names = ofSegments (dropRoot names) := by
  induction names with
  | nil => rfl
  | cons name names ih =>
    rw [below_cons, join_empty]
    cases names with
    | nil => simp [dropRoot, ofSegments]
    | cons next names =>
      by_cases h : name = ""
      · rw [h, dropRoot_empty_cons]
        exact ih
      · rw [dropRoot_cons_of_ne h, below_of_ne h]

theorem length_dropRoot_le (names : List String) :
    (ofSegments (dropRoot names)).toList.length ≤ (ofSegments names).toList.length := by
  induction names with
  | nil => exact Nat.le_refl _
  | cons name names ih =>
    by_cases h : name = ""
    · cases names with
      | nil => exact Nat.le_refl _
      | cons next names =>
        rw [h, dropRoot_empty_cons]
        refine Nat.le_trans ih ?_
        rw [toList_ofSegments_cons, toList_ofSegments_cons]
        simp
    · exact Nat.le_of_eq (by rw [dropRoot_cons_of_ne h])

/-- Nothing is lost unless an empty name stands before others. -/
theorem ofSegments_dropRoot_eq_iff {names : List String} :
    ofSegments (dropRoot names) = ofSegments names ↔
      ∀ name rest, names ≠ "" :: name :: rest := by
  constructor
  · rintro h name rest rfl
    rw [dropRoot_empty_cons] at h
    have hlt : (ofSegments (name :: rest)).toList.length <
        (ofSegments ("" :: name :: rest)).toList.length := by
      rw [toList_ofSegments_cons, toList_ofSegments_cons]
      simp
    have hle := length_dropRoot_le (name :: rest)
    rw [h] at hle
    exact absurd hle (Nat.not_le.2 hlt)
  · intro h
    match names with
    | [] | [_] => rfl
    | name :: next :: rest =>
      rw [dropRoot_cons_of_ne]
      rintro rfl
      exact h next rest rfl

end TableQuery.Path
