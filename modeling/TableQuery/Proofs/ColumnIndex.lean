/-
  Columns by path against a search of their list.

  * `First`: the first column of a list with segments and a path, by what stands
    before it;
  * `get?_ofList_eq_some_iff`, `get?_ofList_eq_none_iff`: what is found under a path;
  * `kind?_of_first`: the kind of that column, declared or not;
  * `mem_names_ofList`, `size_ofList`: the paths under which something is found, and
    their number;
  * `get?_ofList_append`: more columns behind;
  * `ofList_filter`: columns without segments;
  * `index_is_search`: so finding a column is searching the list.

  A path does not tell its segments: `a/b` is the path of one segment or of two.
  And a column with one empty segment has a path, the empty one, unlike a column
  without segments, whose segments are joined to the same text.
-/
import Mathlib.Data.Finset.Card
import TableQuery.Column

namespace TableQuery.Columns

/-- The first column of a list with segments and a path. -/
def First (columns : List Column) (path : String) (c : Column) : Prop :=
  ∃ before after, columns = before ++ c :: after ∧ c.segments ≠ [] ∧ c.path = path ∧
    ∀ d ∈ before, d.segments ≠ [] → d.path ≠ path

variable {columns : List Column} {path : String} {c : Column}

theorem get?_ofList_eq_some_iff : (ofList columns).get? path = some c ↔ First columns path c := by
  rw [get?_ofList, List.find?_eq_some_iff_append]
  constructor
  · rintro ⟨hc, before, after, hsplit, hbefore⟩
    obtain ⟨hs, hp⟩ := of_decide_eq_true hc
    exact ⟨before, after, hsplit, hs, hp,
      fun d hd => by simpa [or_iff_not_imp_left] using hbefore d hd⟩
  · rintro ⟨before, after, hsplit, hs, hp, hbefore⟩
    exact ⟨decide_eq_true ⟨hs, hp⟩, before, after, hsplit,
      fun d hd => by simpa [or_iff_not_imp_left] using hbefore d hd⟩

theorem get?_ofList_eq_none_iff :
    (ofList columns).get? path = none ↔ ∀ c ∈ columns, c.segments ≠ [] → c.path ≠ path := by
  rw [get?_ofList, List.find?_eq_none]
  simp only [decide_eq_true_eq, not_and]

theorem kind?_of_first (h : First columns path c) : (ofList columns).kind? path = c.kind := by
  rw [kind?, get?_ofList_eq_some_iff.2 h, Option.bind_some]

theorem mem_names_ofList :
    path ∈ (ofList columns).byPath.names ↔ ∃ c ∈ columns, c.segments ≠ [] ∧ c.path = path := by
  rw [← not_iff_not, ← Members.get?_eq_none_iff, ← get?, get?_ofList_eq_none_iff]
  simp only [not_exists, not_and]

/-- Each path is counted once, however many columns have it. -/
theorem size_ofList (columns : List Column) :
    (ofList columns).size =
      ((columns.filter (·.segments ≠ [])).map Column.path).toFinset.card := by
  have hnames : (ofList columns).byPath.names.toFinset =
      ((columns.filter (·.segments ≠ [])).map Column.path).toFinset := by
    ext path
    simp only [List.mem_toFinset, mem_names_ofList, List.mem_map, List.mem_filter,
      decide_eq_true_eq, and_assoc]
  rw [← hnames, List.toFinset_card_of_nodup (ofList columns).distinct, Members.names,
    List.length_map, size]

/-- What is found is found before any column that is appended. -/
theorem get?_ofList_append (h : (ofList columns).get? path = some c) (more : List Column) :
    (ofList (columns ++ more)).get? path = some c := by
  rw [get?_ofList] at h ⊢
  rw [List.find?_append, h, Option.some_or]

/-- A column without segments is passed over, so it may as well be missing. -/
theorem ofList_filter (columns : List Column) :
    ofList (columns.filter (·.segments ≠ [])) = ofList columns := by
  have hadd : (fun (cs : Columns) (c : Column) => if decide (c.segments ≠ []) = true
      then cs.add c else cs) = add := by
    funext cs c
    by_cases hs : c.segments = []
    · rw [if_neg (by simpa using hs), add_eq_self (Or.inl hs)]
    · rw [if_pos (decide_eq_true hs)]
  rw [ofList, List.foldl_filter, hadd, ofList]

/-- **Finding a column by its path is searching the list.**  The column of a path is the
    first of the list that has segments and that path, if there is one, and its kind is the
    kind of the path, also where it declares none and a later column of that path does. There
    are as many columns as there are paths of columns with segments. So a column that is
    found is found as well after more columns are appended, and lists that differ only by
    columns without segments make the same columns. -/
theorem index_is_search (columns : List Column) :
    (∀ path c, (ofList columns).get? path = some c ↔ First columns path c) ∧
    (∀ path, (ofList columns).get? path = none ↔
      ∀ c ∈ columns, c.segments ≠ [] → c.path ≠ path) ∧
    (∀ path c, First columns path c → (ofList columns).kind? path = c.kind) ∧
    (∀ path, (ofList columns).get? path = none → (ofList columns).kind? path = none) ∧
    (ofList columns).size =
      ((columns.filter (·.segments ≠ [])).map Column.path).toFinset.card ∧
    (∀ path c more, (ofList columns).get? path = some c →
      (ofList (columns ++ more)).get? path = some c ∧
        (ofList (columns ++ more)).kind? path = (ofList columns).kind? path) ∧
    ∀ others : List Column,
      others.filter (·.segments ≠ []) = columns.filter (·.segments ≠ []) →
        ofList others = ofList columns := by
  refine ⟨fun path c => get?_ofList_eq_some_iff, fun path => get?_ofList_eq_none_iff,
    fun path c => kind?_of_first, ?missing, size_ofList columns, ?appended, ?others⟩
  case missing =>
    intro path h
    rw [kind?, h, Option.bind_none]
  case appended =>
    intro path c more h
    have hmore := get?_ofList_append h more
    exact ⟨hmore, by rw [kind?, kind?, hmore, h]⟩
  case others =>
    intro others h
    rw [← ofList_filter others, h, ofList_filter]

/-- One path from one segment and from two, of which the first declares no kind; and the
    empty path of an empty segment beside columns without segments. -/
theorem index_is_search_shadowed :
    let untyped : Column := ⟨["a/b"], none⟩
    let typed : Column := ⟨["a", "b"], some .digit⟩
    let pathless : Column := ⟨[], some .text⟩
    let blank : Column := ⟨[""], some .date⟩
    let columns := [pathless, untyped, typed, blank]
    (ofList columns).get? "a/b" = some untyped ∧ (ofList columns).kind? "a/b" = none ∧
      (ofList columns).get? "" = some blank ∧ (ofList columns).get? "a" = none ∧
      (ofList columns).size = 2 ∧
      (ofList (columns ++ [typed])).kind? "a/b" = none ∧
      ofList [untyped, pathless, typed, pathless, blank] = ofList columns := by
  intro untyped typed pathless blank columns
  obtain ⟨hfirst, hnone, hkind, -, hsize, happend, hothers⟩ := index_is_search columns
  have huntyped : First columns "a/b" untyped :=
    ⟨[pathless], [typed, blank], rfl, by decide, by decide, by decide⟩
  have hblank : First columns "" blank :=
    ⟨[pathless, untyped, typed], [], rfl, by decide, by decide, by decide⟩
  have hfound := (hfirst _ _).2 huntyped
  refine ⟨hfound, hkind _ _ huntyped, (hfirst _ _).2 hblank, (hnone _).2 (by decide),
    hsize.trans (by decide), ?_, hothers _ rfl⟩
  rw [(happend _ _ [typed] hfound).2, hkind _ _ huntyped]

end TableQuery.Columns
