/-
  Which clauses a filter is made of.

  * `clauseOf_cases`: the forms that the clause of a value can have;
  * `select_eq_error_iff`: the only fault is a single value for a period;
  * `mem_clausesOf`, `paths_clausesOf`, `path_mem_iff`: every clause is selected
    for one of the entries, and every entry that filters has one at its path;
  * `clausesOf_append`, `exists_clausesOf_iff`: entries are read one by one;
  * `build_eq_some_iff`: a filter joins the texts of at least one clause;
  * `text_ne_empty`, `build_ne_empty`: no clause and no filter is empty.
-/
import Mathlib.Tactic.SplitIfs
import TableQuery.Filter
import TableQuery.Proofs.Stages

namespace TableQuery.Filter

variable {columns : Columns} {offset path : String} {value : Leaf} {clause : Clause}

/-! ## One clause -/

/-- A selected clause is that of a value that is not falsy. -/
theorem select_eq_some_iff :
    select columns offset path value = .ok (some clause) ↔
      value.isFalsy = false ∧ clauseOf (columns.kind? path) offset path value = .ok clause := by
  unfold select
  split_ifs with h
  · simp [h]
  · cases clauseOf (columns.kind? path) offset path value <;> simp [Except.map, h]

/-- The forms that the clause of a value can have. -/
theorem clauseOf_cases {kind : Option ValueKind}
    (h : clauseOf kind offset path value = .ok clause) :
    (∃ spaced, clause = .contains path (operand value) spaced) ∨
      clause = .compare path .eq (operand value) ∨
      clause = .compare path .eq (instant value offset) ∨
      ∃ lower upper, value = .range lower upper ∧
        clause = .between path (bound? lower) (bound? upper) := by
  unfold clauseOf at h
  split at h
  · exact Or.inl ⟨false, (Except.ok.inj h).symm⟩
  · exact Or.inr (Or.inl (Except.ok.inj h).symm)
  · exact Or.inr (Or.inl (Except.ok.inj h).symm)
  · exact Or.inr (Or.inl (Except.ok.inj h).symm)
  · exact Or.inr (Or.inl (Except.ok.inj h).symm)
  · exact Or.inr (Or.inr (Or.inl (Except.ok.inj h).symm))
  · split at h
    · exact Or.inr (Or.inr (Or.inr ⟨_, _, rfl, (Except.ok.inj h).symm⟩))
    · cases h
  · exact Or.inl ⟨true, (Except.ok.inj h).symm⟩
  · exact Or.inl ⟨true, (Except.ok.inj h).symm⟩

theorem bound?_eq_none_iff {s : Scalar} : bound? s = none ↔ s.isFalsy = true := by
  simp [bound?]

theorem text_ne_empty (h : select columns offset path value = .ok (some clause)) :
    clause.text ≠ "" := by
  obtain ⟨hv, hc⟩ := select_eq_some_iff.1 h
  obtain ⟨spaced, rfl⟩ | rfl | rfl | ⟨lower, upper, rfl, rfl⟩ := clauseOf_cases hc
  · simp [Clause.text, Operator.name]
  · simp [Clause.text, Clause.comparison]
  · simp [Clause.text, Clause.comparison]
  · -- a range that is not falsy has a bound
    cases hl : bound? lower with
    | some l => cases bound? upper <;> simp [Clause.text, Clause.comparison]
    | none =>
      cases hu : bound? upper with
      | some u => simp [Clause.text, Clause.comparison]
      | none => simp [Leaf.isFalsy, bound?_eq_none_iff.1 hl, bound?_eq_none_iff.1 hu] at hv

/-- The only value that a column cannot filter on is a single one where a
    period is due. -/
theorem select_eq_error_iff {fault : ParamFault} :
    select columns offset path value = .error fault ↔
      value.isFalsy = false ∧ columns.kind? path = some .dateRange ∧ (∃ s, value = .scalar s) ∧
        fault = ⟨path, .singleDate⟩ := by
  unfold select
  split_ifs with h
  · simp [h]
  · rcases hk : columns.kind? path with _ | k
    · simp [clauseOf, Except.map]
    · cases k with
      | dateRange => cases value <;> simp [clauseOf, Except.map, h, eq_comm]
      | _ => simp [clauseOf, Except.map]

theorem path_of_select (h : select columns offset path value = .ok (some clause)) :
    clause.path = path := by
  obtain ⟨-, hc⟩ := select_eq_some_iff.1 h
  obtain ⟨spaced, rfl⟩ | rfl | rfl | ⟨lower, upper, -, rfl⟩ := clauseOf_cases hc <;> rfl

theorem select_eq_none_iff :
    select columns offset path value = .ok none ↔ value.isFalsy = true := by
  unfold select
  split_ifs with h
  · simp [h]
  · cases clauseOf (columns.kind? path) offset path value <;> simp [Except.map, h]

/-! ## All clauses -/

variable {es es' : Members Leaf} {cs : List Clause}

theorem clausesOf_cons_eq_ok_iff :
    clausesOf columns offset ((path, value) :: es) = .ok cs ↔
      ∃ selected rest, select columns offset path value = .ok selected ∧
        clausesOf columns offset es = .ok rest ∧ cs = selected.toList ++ rest := by
  simp only [clausesOf, bind_eq_ok_iff]
  constructor
  · rintro ⟨selected, hs, rest, hrest, h⟩
    exact ⟨selected, rest, hs, hrest, (Except.ok.inj h).symm⟩
  · rintro ⟨selected, rest, hs, hrest, rfl⟩
    exact ⟨selected, hs, rest, hrest, rfl⟩

/-- Every clause is selected for one of the entries. -/
theorem mem_clausesOf (h : clausesOf columns offset es = .ok cs) (hc : clause ∈ cs) :
    ∃ e ∈ es, select columns offset e.1 e.2 = .ok (some clause) := by
  induction es generalizing cs with
  | nil =>
    rw [← Except.ok.inj h] at hc
    simp at hc
  | cons e es ih =>
    obtain ⟨path, value⟩ := e
    obtain ⟨selected, rest, hs, hrest, rfl⟩ := clausesOf_cons_eq_ok_iff.1 h
    rcases List.mem_append.1 hc with hc | hc
    · rw [Option.mem_toList] at hc
      exact ⟨_, List.mem_cons_self, by rw [hs, hc]⟩
    · obtain ⟨e, he, hsel⟩ := ih hrest hc
      exact ⟨e, List.mem_cons_of_mem _ he, hsel⟩

/-- The clauses stand at the paths of the entries that filter, in order. -/
theorem paths_clausesOf (h : clausesOf columns offset es = .ok cs) :
    cs.map Clause.path = Members.names (es.filter fun e => !e.2.isFalsy) := by
  induction es generalizing cs with
  | nil => rw [← Except.ok.inj h]; rfl
  | cons e es ih =>
    obtain ⟨path, value⟩ := e
    obtain ⟨selected, rest, hs, hrest, rfl⟩ := clausesOf_cons_eq_ok_iff.1 h
    cases selected with
    | none => simpa [select_eq_none_iff.1 hs] using ih hrest
    | some clause =>
      simp [(select_eq_some_iff.1 hs).1, path_of_select hs, ih hrest, Members.names]

/-- The paths of clauses are those of the entries that filter. -/
theorem path_mem_iff (hes : es.names.Nodup)
    (h : clausesOf columns offset es = .ok cs) (path : String) :
    (∃ clause ∈ cs, clause.path = path) ↔
      ∃ value, es.get? path = some value ∧ value.isFalsy = false := by
  have hm : (∃ clause ∈ cs, clause.path = path) ↔ path ∈ cs.map Clause.path := by simp
  rw [hm, paths_clausesOf h]
  simp only [Members.names, List.mem_map, List.mem_filter, ← Members.mem_iff_get? hes]
  constructor
  · rintro ⟨⟨path, value⟩, ⟨he, hv⟩, rfl⟩
    exact ⟨value, he, by simpa using hv⟩
  · rintro ⟨value, he, hv⟩
    exact ⟨(path, value), ⟨he, by simp [hv]⟩, rfl⟩

/-- The clauses of entries are those of the first ones, then those of the others. -/
theorem clausesOf_append (h : clausesOf columns offset (es ++ es') = .ok cs) :
    ∃ own others, cs = own ++ others ∧ clausesOf columns offset es = .ok own ∧
      clausesOf columns offset es' = .ok others := by
  induction es generalizing cs with
  | nil => exact ⟨[], cs, rfl, rfl, h⟩
  | cons e es ih =>
    obtain ⟨path, value⟩ := e
    obtain ⟨selected, rest, hs, hrest, rfl⟩ := clausesOf_cons_eq_ok_iff.1 h
    obtain ⟨own, others, rfl, hown, hothers⟩ := ih hrest
    exact ⟨selected.toList ++ own, others, (List.append_assoc ..).symm,
      clausesOf_cons_eq_ok_iff.2 ⟨selected, own, hs, hown, rfl⟩, hothers⟩

/-- Entries have clauses unless there is one that its column cannot filter on. -/
theorem exists_clausesOf_iff :
    (∃ cs, clausesOf columns offset es = .ok cs) ↔
      ∀ e ∈ es, ∀ fault, select columns offset e.1 e.2 ≠ .error fault := by
  induction es with
  | nil => simp [clausesOf]
  | cons e es ih =>
    obtain ⟨path, value⟩ := e
    rw [List.forall_mem_cons, ← ih]
    constructor
    · rintro ⟨cs, h⟩
      obtain ⟨selected, rest, hs, hrest, -⟩ := clausesOf_cons_eq_ok_iff.1 h
      refine ⟨fun fault hf => ?_, rest, hrest⟩
      cases hs.symm.trans hf
    · rintro ⟨h, rest, hrest⟩
      cases hs : select columns offset path value with
      | error fault => exact absurd hs (h fault)
      | ok selected => exact ⟨_, clausesOf_cons_eq_ok_iff.2 ⟨selected, rest, hs, hrest, rfl⟩⟩

/-- A filter joins the texts of at least one clause. -/
theorem build_eq_some_iff {form quick : Params} {filter : String} :
    build form quick columns offset = .ok (some filter) ↔
      ∃ cs, clauses form quick columns offset = .ok cs ∧ cs ≠ [] ∧
        filter = String.intercalate Clause.conjunction (cs.map Clause.text) := by
  unfold build
  cases clauses form quick columns offset with
  | error fault => simp [Except.map]
  | ok cs => cases cs <;> simp [Except.map, conjoin, eq_comm]

/-- A filter is missing rather than empty. -/
theorem build_ne_empty {form quick : Params} :
    build form quick columns offset ≠ .ok (some "") := by
  intro h
  obtain ⟨cs, hcs, hne, he⟩ := build_eq_some_iff.1 h
  obtain ⟨c, cs, rfl⟩ := List.exists_cons_of_ne_nil hne
  obtain ⟨e, -, hsel⟩ := mem_clausesOf hcs (List.mem_cons_self (a := c))
  have ht := text_ne_empty hsel
  cases cs with
  | nil => exact ht (by simpa using he.symm)
  | cons c' cs =>
    rw [List.map_cons, List.map_cons, String.intercalate_cons_cons, String.append_assoc,
      eq_comm, String.append_eq_empty_iff] at he
    exact ht he.1

end TableQuery.Filter
