/-
  One clause for each value that filters, and none of them empty.

  * `Scalar.render_ne_empty`: a value without text filters nothing;
  * `Filter.filled_of_clauseOf`: so a clause never lacks its operand, its needle
    or both of its bounds;
  * `Filter.clausesOf_eq_error_iff`, `Filter.exists_clausesOf`: entries are
    answered one by one, up to the first that its column cannot filter on;
  * `Filter.build_outcome`: the fault of a filter, or its clauses.
-/
import Mathlib.Data.List.Forall2
import TableQuery.Proofs.Clause

namespace TableQuery

/-! ## Values as text -/

theorem Decimal.write_ne_nil (layout : Decimal.Layout) (d : Decimal) : d.write layout ≠ [] := by
  unfold write
  simp only
  split_ifs
  · unfold pointed
    split_ifs <;> simp
  · simp
  · simp

theorem Number.doubleText_ne_nil (x : Binary64) : doubleText x ≠ [] := by
  have hd : (if x.isZero then ['0', '.', '0'] else x.shortest.write doubleLayout) ≠ [] := by
    split_ifs
    · simp
    · exact Decimal.write_ne_nil _ _
  unfold doubleText
  split_ifs at hd ⊢ <;> simp [hd]

theorem Number.text_ne_empty (n : Number) : n.text ≠ "" := by
  cases n with
  | natural n => exact Nat.repr_ne_empty
  | negative n => simp [text]
  | double x => simpa [text] using doubleText_ne_nil x

/-- A value without text filters nothing. -/
theorem Scalar.render_ne_empty {s : Scalar} (h : s.isFalsy = false) : s.render ≠ "" := by
  cases s with
  | null => simp [isFalsy] at h
  | bool b => cases b <;> simp [render]
  | number n => exact n.text_ne_empty
  | text s =>
    rw [isFalsy, beq_eq_false_iff_ne] at h
    exact h

theorem Leaf.render_ne_empty {l : Leaf} (h : l.isFalsy = false) : l.render ≠ "" := by
  cases l with
  | scalar s => exact Scalar.render_ne_empty h
  | range lower upper => simp [render]

theorem doubleQuotes_ne_empty {s : String} (h : s ≠ "") : doubleQuotes s ≠ "" := by
  have hs : s.toList ≠ [] := fun e => h (String.toList_eq_nil_iff.1 e)
  obtain ⟨c, cs, hc⟩ := List.exists_cons_of_ne_nil hs
  rw [doubleQuotes, hc, Text.double]
  split_ifs <;> simp

/-! ## One clause -/

/-- Nothing is missing in a clause: it has an operand, a needle or at least one
    bound, and none of these is empty. -/
def Clause.Filled : Clause → Prop
  | .compare _ _ operand => operand ≠ ""
  | .between _ lower upper =>
    (lower ≠ none ∨ upper ≠ none) ∧ lower ≠ some "" ∧ upper ≠ some ""
  | .contains _ needle _ => needle ≠ ""

namespace Filter

variable {columns : Columns} {offset path : String} {value : Leaf} {clause : Clause}

theorem operand_ne_empty (h : value.isFalsy = false) : operand value ≠ "" :=
  doubleQuotes_ne_empty (Leaf.render_ne_empty h)

theorem instant_ne_empty (h : value.isFalsy = false) (offset : String) :
    instant value offset ≠ "" := by
  have hr : value.render.toList ≠ [] := fun e =>
    Leaf.render_ne_empty h (String.toList_eq_nil_iff.1 e)
  obtain ⟨c, cs, hc⟩ := List.exists_cons_of_ne_nil hr
  have hm : String.ofList (markTime value.render.toList) ≠ "" := by
    rw [hc, markTime]
    split_ifs <;> simp
  intro he
  exact doubleQuotes_ne_empty hm (String.append_eq_empty_iff.1 he).1

theorem bound?_ne_empty (s : Scalar) : bound? s ≠ some "" := by
  unfold bound?
  split_ifs with h
  · simp
  · intro he
    exact doubleQuotes_ne_empty (Scalar.render_ne_empty (Bool.eq_false_iff.2 h))
      (Option.some.inj he)

/-- The clause of a value that filters has all its parts. -/
theorem filled_of_clauseOf {kind : Option ValueKind} (hv : value.isFalsy = false)
    (h : clauseOf kind offset path value = .ok clause) : clause.Filled := by
  obtain ⟨spaced, rfl⟩ | rfl | rfl | ⟨lower, upper, rfl, rfl⟩ := clauseOf_cases h
  · exact operand_ne_empty hv
  · exact operand_ne_empty hv
  · exact instant_ne_empty hv offset
  · refine ⟨?_, bound?_ne_empty lower, bound?_ne_empty upper⟩
    -- a period of two falsy bounds would be falsy
    rw [Leaf.isFalsy, Bool.and_eq_false_iff] at hv
    refine hv.imp (fun hl => ?_) fun hu => ?_
    · rw [Ne, bound?_eq_none_iff, hl]
      simp
    · rw [Ne, bound?_eq_none_iff, hu]
      simp

/-- A single value that filters, where a period is due. -/
def Unfit (columns : Columns) (e : String × Leaf) : Prop :=
  e.2.isFalsy = false ∧ columns.kind? e.1 = some .dateRange ∧ ∃ s, e.2 = .scalar s

instance (columns : Columns) : ∀ e, Decidable (Unfit columns e)
  | (path, .scalar s) =>
    decidable_of_iff (s.isFalsy = false ∧ columns.kind? path = some .dateRange)
      (by simp [Unfit, Leaf.isFalsy])
  | (_, .range ..) => isFalse (by simp [Unfit])

/-- The clause of an entry: the one that the kind of its column asks for, on the
    path of the entry, with nothing missing in it. -/
def Answers (columns : Columns) (offset : String) (e : String × Leaf) (clause : Clause) : Prop :=
  clauseOf (columns.kind? e.1) offset e.1 e.2 = .ok clause ∧ clause.path = e.1 ∧
    clause.Filled ∧ clause.text ≠ ""

theorem answers_of_select {e : String × Leaf}
    (h : select columns offset e.1 e.2 = .ok (some clause)) : Answers columns offset e clause := by
  obtain ⟨hv, hc⟩ := select_eq_some_iff.1 h
  exact ⟨hc, path_of_select h, filled_of_clauseOf hv hc, text_ne_empty h⟩

theorem select_eq_error_iff_unfit {e : String × Leaf} {fault : ParamFault} :
    select columns offset e.1 e.2 = .error fault ↔
      Unfit columns e ∧ fault = ⟨e.1, .singleDate⟩ := by
  rw [select_eq_error_iff, Unfit, and_assoc, and_assoc]

/-! ## All clauses -/

variable {es : Members Leaf}

theorem clausesOf_cons_eq_error_iff {fault : ParamFault} :
    clausesOf columns offset ((path, value) :: es) = .error fault ↔
      select columns offset path value = .error fault ∨
        (∃ selected, select columns offset path value = .ok selected) ∧
          clausesOf columns offset es = .error fault := by
  rw [clausesOf, bind_eq_error_iff]
  refine or_congr_right ⟨?_, ?_⟩
  · rintro ⟨selected, hs, h⟩
    rcases bind_eq_error_iff.1 h with hes | ⟨rest, -, hrest⟩
    · exact ⟨⟨selected, hs⟩, hes⟩
    · cases hrest
  · rintro ⟨⟨selected, hs⟩, hes⟩
    exact ⟨selected, hs, bind_eq_error_iff.2 (Or.inl hes)⟩

theorem exists_select_iff (offset : String) {e : String × Leaf} :
    (∃ selected, select columns offset e.1 e.2 = .ok selected) ↔ ¬ Unfit columns e := by
  constructor
  · rintro ⟨selected, hs⟩ hu
    cases hs.symm.trans (select_eq_error_iff_unfit.2 ⟨hu, rfl⟩)
  · intro hu
    by_contra h
    obtain ⟨fault, hf⟩ := exists_eq_error h
    exact hu (select_eq_error_iff_unfit.1 hf).1

/-- The fault of entries is that of the first one that its column cannot filter
    on. -/
theorem clausesOf_eq_error_iff {fault : ParamFault} :
    clausesOf columns offset es = .error fault ↔
      Past (fun e => ¬ Unfit columns e)
        (fun e => Unfit columns e ∧ fault = ⟨e.1, .singleDate⟩) es := by
  induction es with
  | nil => exact iff_of_false (by simp [clausesOf]) not_past_nil
  | cons e es ih =>
    rw [past_cons_iff, ← ih, ← select_eq_error_iff_unfit, ← exists_select_iff offset]
    exact clausesOf_cons_eq_error_iff

/-- Without such an entry, each one that filters has its clause, in order. -/
theorem exists_clausesOf (offset : String) (h : ∀ e ∈ es, ¬ Unfit columns e) :
    ∃ cs, clausesOf columns offset es = .ok cs ∧
      List.Forall₂ (Answers columns offset) (es.filter fun e => !e.2.isFalsy) cs := by
  induction es with
  | nil => exact ⟨[], rfl, .nil⟩
  | cons e es ih =>
    obtain ⟨he, hes⟩ := List.forall_mem_cons.1 h
    obtain ⟨rest, hrest, hall⟩ := ih hes
    obtain ⟨selected, hs⟩ := (exists_select_iff offset).2 he
    refine ⟨_, clausesOf_cons_eq_ok_iff.2 ⟨selected, rest, hs, hrest, rfl⟩, ?_⟩
    cases selected with
    | none =>
      rw [List.filter_cons_of_neg (by simp [select_eq_none_iff.1 hs])]
      exact hall
    | some clause =>
      rw [List.filter_cons_of_pos (by simp [(select_eq_some_iff.1 hs).1])]
      exact .cons (answers_of_select hs) hall

/-- **One clause for each value that filters.**  The first entry that its column
    cannot filter on is the fault. Without one, there is a clause for each entry
    that is not falsy, in order; a filter is missing if all entries are falsy,
    and else joins these clauses, none of which is empty. -/
theorem build_outcome (form quick : Params) (columns : Columns) (offset : String) :
    (∀ fault, build form quick columns offset = .error fault ↔
      ∃ before e after, entries form quick = before ++ e :: after ∧
        (∀ d ∈ before, ¬ Unfit columns d) ∧ Unfit columns e ∧ fault = ⟨e.1, .singleDate⟩) ∧
    ((∀ e ∈ entries form quick, ¬ Unfit columns e) →
      ∃ cs, List.Forall₂ (Answers columns offset)
          ((entries form quick).filter fun e => !e.2.isFalsy) cs ∧
        build form quick columns offset =
          .ok (if ∀ e ∈ entries form quick, e.2.isFalsy = true then none
            else some (String.intercalate Clause.conjunction (cs.map Clause.text)))) := by
  refine ⟨fun fault => ?_, fun h => ?_⟩
  · have hb : build form quick columns offset = .error fault ↔
        clausesOf columns offset (entries form quick) = .error fault := by
      rw [build, clauses]
      cases clausesOf columns offset (entries form quick) <;> simp [Except.map]
    rw [hb, clausesOf_eq_error_iff]
    exact Iff.rfl
  · obtain ⟨cs, hcs, hall⟩ := exists_clausesOf offset h
    refine ⟨cs, hall, ?_⟩
    rw [build, clauses, hcs]
    split_ifs with hf
    · have hnil : (entries form quick).filter (fun e => !e.2.isFalsy) = [] :=
        List.filter_eq_nil_iff.2 fun e he => by simp [hf e he]
      rw [hnil] at hall
      rw [List.forall₂_nil_left_iff.1 hall]
      rfl
    · cases cs with
      | nil =>
        have hnil := List.filter_eq_nil_iff.1 (List.forall₂_nil_right_iff.1 hall)
        exact absurd (fun e he => by simpa using hnil e he) hf
      | cons c cs => rfl

/-- A period without a lower bound, a point in time below a group, a falsy value
    and a page number. -/
def mixedForm : Params :=
  [("day", .leaf (.range .null (.text "2024-01-31"))),
    ("owner", .group [("seen", .leaf (.scalar (.text "2024-01-01 10:00")))]),
    ("age", .leaf (.scalar (.bool false))),
    ("current", .leaf (.scalar (.text "1")))]

def mixedColumns : Columns :=
  Columns.ofList [⟨["day"], some .dateRange⟩, ⟨["owner", "seen"], some .dateTime⟩]

/-- Two entries have a clause; with one more day, as a quick filter, that day is
    the fault. -/
theorem build_outcome_mixed :
    (∀ e ∈ entries mixedForm [], ¬ Unfit mixedColumns e) ∧
      (∃ cs, List.Forall₂ (Answers mixedColumns "+08:00")
          ((entries mixedForm []).filter fun e => !e.2.isFalsy) cs ∧
        String.intercalate Clause.conjunction (cs.map Clause.text) =
          "day le 2024-01-31 and owner/seen eq 2024-01-01T10:00+08:00") ∧
      build mixedForm [("day", .leaf (.scalar (.text "2024-01-31")))] mixedColumns "+08:00" =
        .error ⟨"day", .singleDate⟩ := by
  have hfit : ∀ e ∈ entries mixedForm [], ¬ Unfit mixedColumns e := by decide +kernel
  have hb : build mixedForm [] mixedColumns "+08:00" =
      .ok (some "day le 2024-01-31 and owner/seen eq 2024-01-01T10:00+08:00") := by decide +kernel
  obtain ⟨cs, hall, hcs⟩ := (build_outcome mixedForm [] mixedColumns "+08:00").2 hfit
  rw [if_neg (by decide +kernel), hb] at hcs
  refine ⟨hfit, ⟨cs, hall, (Option.some.inj (Except.ok.inj hcs)).symm⟩, ?_⟩
  exact ((build_outcome mixedForm _ mixedColumns "+08:00").1 _).2
    ⟨_, _, [], rfl, by decide +kernel, by decide +kernel, rfl⟩

end Filter

end TableQuery
