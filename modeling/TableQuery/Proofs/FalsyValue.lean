/-
  Values that filter nothing.

  Where every leaf has a path of its own, falsy leaves of a form, outside its page
  window, and of quick filters may be left out: a composition ends as before, with
  the same query or the same fault.

  * `Params.Trimmed`: parameters without some of their falsy leaves;
  * `Trimmed.leaves`, `Trimmed.flatten`: their leaves and their entries are those
    before, without some falsy ones;
  * `clausesOf_of_thinned`, `build_of_trimmed`: such entries have the same clauses;
  * `ofParams_congr`: a page window is read from its own members only;
  * `compose_trimmed`: so the composition is the same.
-/
import TableQuery.Proofs.Clause
import TableQuery.Proofs.Leaves
import TableQuery.Proofs.PageTurn
import TableQuery.Proofs.Thinned

namespace TableQuery

/-! ## Parameters without falsy leaves -/

namespace Params

/-- The second parameters are the first without some falsy leaves, at any depth. A
    group stays, even one that has no leaf any more. -/
inductive Trimmed : Params → Params → Prop
  | nil : Trimmed [] []
  | leaf (name : String) (l : Leaf) {ps qs : Params} (h : Trimmed ps qs) :
      Trimmed ((name, .leaf l) :: ps) ((name, .leaf l) :: qs)
  | group (name : String) {ms ns ps qs : Params} (hms : Trimmed ms ns) (h : Trimmed ps qs) :
      Trimmed ((name, .group ms) :: ps) ((name, .group ns) :: qs)
  | drop {name : String} {l : Leaf} {ps qs : Params} (hl : l.isFalsy = true) (h : Trimmed ps qs) :
      Trimmed ((name, .leaf l) :: ps) qs

variable {ps qs : Params}

theorem Trimmed.leaves (h : Trimmed ps qs) :
    Thinned (fun e => e.2.isFalsy = true) (leaves ps) (leaves qs) := by
  induction h with
  | nil => exact .nil
  | leaf name l _ ih => exact ih.keep ([name], l)
  | group name _ _ ihms ih =>
    exact Thinned.append (ihms.map _ fun _ he => he) ih
  | drop hl _ ih => exact ih.drop hl

theorem Trimmed.filter (f : String → Bool) (h : Trimmed ps qs) :
    Trimmed (ps.filter fun m => f m.1) (qs.filter fun m => f m.1) := by
  induction h with
  | nil => exact .nil
  | leaf name l _ ih =>
    cases hf : f name with
    | false => simpa [hf] using ih
    | true => simpa [hf] using ih.leaf name l
  | group name hms _ _ ih =>
    cases hf : f name with
    | false => simpa [hf] using ih
    | true => simpa [hf] using hms.group name ih
  | @drop name l _ _ hl _ ih =>
    cases hf : f name with
    | false => simpa [hf] using ih
    | true => simpa [hf] using ih.drop hl

theorem Trimmed.paths (h : Trimmed ps qs) : qs.paths.Sublist ps.paths :=
  h.leaves.sublist.map _

theorem Trimmed.flatten (h : Trimmed ps qs) (hps : ps.paths.Nodup) :
    Thinned (fun e => e.2.isFalsy = true) ps.flatten qs.flatten := by
  rw [flatten_of_nodup hps, flatten_of_nodup (h.paths.nodup hps)]
  exact h.leaves.map _ fun _ he => he

-- A falsy leaf whose path stood before hides the value there, so it does count.
example :
    let falsy := Param.leaf (.scalar (.text ""))
    let form (ms : Params) : Params := [("a/b", .leaf (.scalar (.text "x"))), ("a", .group ms)]
    (form [("b", falsy)]).flatten = [("a/b", .scalar (.text ""))] ∧
      (form []).flatten = [("a/b", .scalar (.text "x"))] := by
  decide +kernel

end Params

/-! ## Clauses -/

namespace Filter

variable {columns : Columns} {offset : String} {es es' : Members Leaf}

theorem clausesOf_of_falsy {e : String × Leaf} (he : e.2.isFalsy = true) :
    clausesOf columns offset (e :: es) = clausesOf columns offset es := by
  obtain ⟨path, value⟩ := e
  rw [clausesOf, select_eq_none_iff.2 he]
  cases clausesOf columns offset es <;> rfl

/-- Falsy entries select no clause and have no fault. -/
theorem clausesOf_of_thinned (h : Thinned (fun e => e.2.isFalsy = true) es es') :
    clausesOf columns offset es' = clausesOf columns offset es := by
  induction h with
  | nil => rfl
  | keep e _ ih =>
    obtain ⟨path, value⟩ := e
    rw [clausesOf, clausesOf, ih]
  | drop he _ ih => rw [clausesOf_of_falsy he, ih]

theorem build_of_trimmed {form form' quick quick' : Params}
    (hform : Params.Trimmed form.unpaged form'.unpaged) (hquick : Params.Trimmed quick quick')
    (hf : form.unpaged.paths.Nodup) (hq : quick.paths.Nodup) :
    build form' quick' columns offset = build form quick columns offset := by
  have he : Thinned (fun e => e.2.isFalsy = true) (entries form quick) (entries form' quick') :=
    (hform.flatten hf).append (hquick.flatten hq)
  rw [build, build, clauses, clauses, clausesOf_of_thinned he]

end Filter

/-! ## Page windows -/

/-- The members of a form that are its page window, in order. -/
def Params.window (form : Params) : Params :=
  form.filter fun m => PageKey.owns m.1

theorem Page.ofParams_congr {form form' : Params} (h : form.window = form'.window) (limit : Nat) :
    ofParams form limit = ofParams form' limit := by
  refine ofParams_of_readNumber (fun key => ?_) limit
  have hkey : PageKey.owns key.name = true := PageKey.owns_iff.2 ⟨key, rfl⟩
  have hget : Members.get? form key.name = Members.get? form' key.name := by
    rw [← Members.get?_filter hkey form, ← Members.get?_filter hkey form']
    exact congrArg (Members.get? · key.name) h
  rw [readNumber, readNumber, hget]

/-! ## Compositions -/

/-- The second report is the first without some falsy leaves of its form, outside
    the page window, and of its quick filters. -/
structure TableReport.Trimmed (s t : TableReport) : Prop where
  params : s.params.Trimmed t.params
  window_eq : s.params.window = t.params.window
  filter : s.filter.Trimmed t.filter
  sort_eq : s.sort = t.sort
  baseQuery_eq : s.baseQuery = t.baseQuery

namespace Composer

/-- **Values that filter nothing.**  If the leaves of a form outside its page window
    have different paths, and those of the quick filters as well, then falsy ones of
    them may be left out, at any depth: the composition ends as it did. -/
theorem compose_trimmed {s t : TableReport} (h : s.Trimmed t) (hform : s.params.unpaged.paths.Nodup)
    (hquick : s.filter.paths.Nodup) (c : Composer) : c.compose t = c.compose s := by
  have hf : Filter.build t.params t.filter c.columns c.offset.text =
      Filter.build s.params s.filter c.columns c.offset.text :=
    Filter.build_of_trimmed (h.params.filter fun name => !PageKey.owns name) h.filter hform hquick
  rw [compose, compose, hf, Page.ofParams_congr h.window_eq, h.baseQuery_eq, h.sort_eq]

/-- Falsy values of every sort, on a period, in a group and among quick filters,
    beside a value for another period. -/
def untrimmedReport (period : Leaf) : TableReport where
  params := [("current", .leaf (.scalar (.text "1"))), ("due", .leaf (.scalar .null)),
    ("pageSize", .leaf (.scalar (.text "10"))),
    ("owner", .group [("city", .leaf (.scalar (.text ""))), ("age", .leaf (.scalar (.text "7"))),
      ("tags", .group [("open", .leaf (.scalar (.bool false)))])]),
    ("rank", .leaf (.scalar (.number (.natural ⟨0, by decide⟩))))]
  sort := []
  filter := [("period", .leaf period), ("span", .leaf (.range .null (.text ""))),
    ("change", .leaf (.scalar (.number (.double ⟨true, 0, -1074, by decide⟩))))]
  baseQuery := none

/-- The same report with one of its falsy values only. -/
def trimmedReport (period : Leaf) : TableReport where
  params := [("current", .leaf (.scalar (.text "1"))), ("pageSize", .leaf (.scalar (.text "10"))),
    ("owner", .group [("age", .leaf (.scalar (.text "7"))), ("tags", .group [])]),
    ("rank", .leaf (.scalar (.number (.natural ⟨0, by decide⟩))))]
  sort := []
  filter := [("period", .leaf period)]
  baseQuery := none

theorem trimmed_untrimmedReport (period : Leaf) :
    (untrimmedReport period).Trimmed (trimmedReport period) where
  params :=
    .leaf _ _ <| .drop rfl <| .leaf _ _ <|
      .group _ (.drop rfl <| .leaf _ _ <| .group _ (.drop rfl .nil) .nil) <| .leaf _ _ .nil
  window_eq := rfl
  filter := .leaf _ _ <| .drop rfl <| .drop rfl .nil
  sort_eq := rfl
  baseQuery_eq := rfl

/-- A composition that succeeds, and one with a fault. -/
theorem compose_trimmed_both :
    let c := ofColumns [⟨["due"], some .dateRange⟩, ⟨["period"], some .dateRange⟩,
      ⟨["owner", "age"], some .digit⟩]
    let since := untrimmedReport (.range (.text "2024-01-01") .null)
    let since' := trimmedReport (.range (.text "2024-01-01") .null)
    let single := untrimmedReport (.scalar (.text "2024-01-01"))
    let single' := trimmedReport (.scalar (.text "2024-01-01"))
    (since.Trimmed since' ∧ since.params.unpaged.paths.Nodup ∧ since.filter.paths.Nodup) ∧
      c.compose since =
        .ok ⟨true, 10, 0, some "owner/age eq 7 and period ge 2024-01-01", none, none⟩ ∧
      c.compose since' = c.compose since ∧
    (single.Trimmed single' ∧ single.params.unpaged.paths.Nodup ∧ single.filter.paths.Nodup) ∧
      c.compose single = .error (.param ⟨"period", .singleDate⟩) ∧
      c.compose single' = c.compose single := by
  intro c since since' single single'
  have hsince : since.Trimmed since' := trimmed_untrimmedReport _
  have hsingle : single.Trimmed single' := trimmed_untrimmedReport _
  have hform : since.params.unpaged.paths.Nodup := by decide +kernel
  have hquick : since.filter.paths.Nodup := by decide +kernel
  have hform' : single.params.unpaged.paths.Nodup := by decide +kernel
  have hquick' : single.filter.paths.Nodup := by decide +kernel
  refine ⟨⟨hsince, hform, hquick⟩, ?_, ?_, ⟨hsingle, hform', hquick'⟩, ?_, ?_⟩
  · decide +kernel
  · exact compose_trimmed hsince hform hquick c
  · decide +kernel
  · exact compose_trimmed hsingle hform' hquick' c

end Composer

end TableQuery
