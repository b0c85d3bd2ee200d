/-
  Which values of a form reach the filter at the path of a reserved name.

  A reserved name at the top of a form belongs to the page window. Further down
  its path is another one, unless all names above it are empty: those leave no
  trace in the path. The last value of that kind, if it is not falsy, is a
  clause on the reserved name, and there is no other (`reserved_path_iff`).
-/
import Mathlib.Control.Monad.Basic
import TableQuery.Proofs.Clause
import TableQuery.Proofs.Leaves

namespace TableQuery

/-- No reserved name is empty or has a separator. -/
theorem PageKey.plain_name (key : PageKey) : key.name ≠ "" ∧ '/' ∉ key.name.toList := by
  cases key <;> decide

theorem PageKey.owns_name (key : PageKey) : PageKey.owns key.name = true :=
  PageKey.owns_iff.2 ⟨key, rfl⟩

theorem PageKey.owns_empty : PageKey.owns "" = false := rfl

namespace Filter

/-- The last value of a form whose names lead to a reserved name past empty
    names, at least one. -/
def strayValue? (form : Params) (key : PageKey) : Option Leaf :=
  Params.lastLeaf? (fun names => decide (1 < names.length) && Path.leadsTo key.name names) form

/-- The names that join to the path of a reserved name without beginning with a
    reserved one. -/
theorem unreserved_below_eq (key : PageKey) (names : List String) :
    (names.head?.any (fun n => !PageKey.owns n) && Path.below "" names == key.name) =
      (decide (1 < names.length) && Path.leadsTo key.name names) := by
  have hb : (Path.below "" names == key.name) = Path.leadsTo key.name names := by
    rw [Bool.eq_iff_iff, beq_iff_eq]
    exact Path.below_eq_iff key.plain_name.1 key.plain_name.2 names
  rw [hb]
  match names with
  | [] => rfl
  | [n] =>
    by_cases h : n = key.name
    · simp [h, key.owns_name]
    · simp [Path.leadsTo, h]
  | n :: m :: ns =>
    by_cases h : n = ""
    · simp [h, PageKey.owns_empty]
    · simp [Path.leadsTo, h]

/-- The entry of a form at the path of a reserved name. -/
theorem get?_formEntries (form : Params) (key : PageKey) :
    (formEntries form).get? key.name = strayValue? form key := by
  rw [formEntries, Params.get?_flatten, Params.lastLeaf?_filter fun n => !PageKey.owns n]
  simp only [unreserved_below_eq, strayValue?]

/-- A form without an empty name at the top has no stray values. -/
theorem strayValue?_eq_none {form : Params} (h : ∀ m ∈ form, m.1 ≠ "") (key : PageKey) :
    strayValue? form key = none := by
  refine Option.map_eq_none_iff.2 (List.find?_eq_none.2 fun e he => ?_)
  obtain ⟨m, hm, names, hnames⟩ := Params.exists_member (List.mem_reverse.1 he)
  rw [hnames]
  cases names with
  | nil => simp
  | cons n ns => simp [Path.leadsTo, h m hm]

variable {columns : Columns} {offset : String} {cs : List Clause}

/-- **Reserved names in the filter.**  The clauses of a form and of quick
    filters are those of the form, then those of the quick filters. The form
    has a clause on a reserved name if and only if its last stray value under
    that name is not falsy; so it has none if no name at its top is empty. -/
theorem reserved_path_iff {form quick : Params} (h : clauses form quick columns offset = .ok cs) :
    ∃ own others, cs = own ++ others ∧ clausesOf columns offset (formEntries form) = .ok own ∧
      clausesOf columns offset quick.flatten = .ok others ∧
      (∀ key : PageKey, (∃ clause ∈ own, clause.path = key.name) ↔
        ∃ value, strayValue? form key = some value ∧ value.isFalsy = false) ∧
      ((∀ m ∈ form, m.1 ≠ "") → ∀ clause ∈ own, PageKey.owns clause.path = false) := by
  obtain ⟨own, others, rfl, hown, hothers⟩ := clausesOf_append h
  have hiff : ∀ key : PageKey, (∃ clause ∈ own, clause.path = key.name) ↔
      ∃ value, strayValue? form key = some value ∧ value.isFalsy = false := by
    intro key
    have hn : (formEntries form).names.Nodup := Params.nodup_flatten _
    rw [path_mem_iff hn hown, get?_formEntries]
  refine ⟨own, others, rfl, hown, hothers, hiff, fun hform clause hc => ?_⟩
  refine Bool.eq_false_iff.2 fun ho => ?_
  obtain ⟨key, hkey⟩ := PageKey.owns_iff.1 ho
  obtain ⟨value, hv, -⟩ := (hiff key).1 ⟨clause, hc, hkey.symm⟩
  rw [strayValue?_eq_none hform] at hv
  cases hv

/-- A form with a page window and, below an empty name, two more values under a
    reserved name, of which the last counts. -/
def strayForm : Params :=
  [("current", .leaf (.scalar (.text "1"))),
    ("", .group [("current", .leaf (.scalar (.bool false))),
      ("", .group [("current", .leaf (.scalar (.text "x")))])]),
    ("pageSize", .leaf (.scalar (.text "5")))]

theorem reserved_path_iff_stray :
    clauses strayForm [] Columns.empty "+08:00" = .ok [.contains "current" "x" false] ∧
      (∃ value, strayValue? strayForm .current = some value ∧ value.isFalsy = false) ∧
      ¬ ∃ value, strayValue? strayForm .pageSize = some value ∧ value.isFalsy = false := by
  have h : clauses strayForm [] Columns.empty "+08:00" =
      .ok [.contains "current" "x" false] := by decide +kernel
  obtain ⟨own, others, -, hown, -, hiff, -⟩ := reserved_path_iff h
  have hown' : clausesOf Columns.empty "+08:00" (formEntries strayForm) =
      .ok [.contains "current" "x" false] := by decide +kernel
  obtain rfl := Except.ok.inj (hown.symm.trans hown')
  exact ⟨h, (hiff .current).1 (by decide), mt (hiff .pageSize).2 (by decide)⟩

/-- A value that is not part of the page window makes a clause on a reserved
    name. -/
theorem clause_on_current :
    let form : Params := [("", .group [("current", .leaf (.scalar (.text "x")))])]
    PageKey.owns "current" = true ∧
      clauses form [] Columns.empty "+00:00" = .ok [.contains "current" "x" false] ∧
      build form [] Columns.empty "+00:00" = .ok (some "contains(current,'x')") := by
  decide +kernel

end Filter

end TableQuery
