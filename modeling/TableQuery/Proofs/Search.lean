/-
  Searches for a substring, written into a filter and read back.

  A reader takes a path up to the first comma, an optional blank, a literal in
  which two quotes stand for one, and a closing bracket; then the text ends, or
  the connective and a further search follow.

  * `read?_eq_some_iff`, `readAll?_eq_some_iff`: what is read is what is written,
    one search and any number of them;
  * `build_searches`: the filter of columns that are searched consists of one
    search for each entry that filters;
  * `read_build`: so the entries are found again in the filter, whatever their
    values are.
-/
import Mathlib.Control.Monad.Basic
import Mathlib.Data.List.Basic
import TableQuery.Proofs.Terms
import TableQuery.Text.Cut

namespace TableQuery

open Connective (conj)

/-- A search for a text in a field; `spaced` puts a blank behind the comma. -/
structure Search where
  path : String
  text : String
  spaced : Bool
  deriving DecidableEq, Repr

namespace Search

/-- The clause of a search, with the quotes of its text doubled. -/
def clause (s : Search) : Clause :=
  .contains s.path (doubleQuotes s.text) s.spaced

/-! ## The reader -/

/-- Whether a blank stands before a quote, and what follows the quote. -/
def opening? : List Char → Option (Bool × List Char)
  | ' ' :: '\'' :: cs => some (true, cs)
  | '\'' :: cs => some (false, cs)
  | _ => none

/-- The search that a text begins with, and what follows it. -/
def read? (cs : List Char) : Option (Search × List Char) := do
  let cs ← cs.dropPrefix? "contains(".toList
  let (path, cs) ← Text.cut? ',' cs
  let (spaced, cs) ← opening? cs
  let (text, cs) ← Text.readLiteral? '\'' cs
  let cs ← cs.dropPrefix? [')']
  return (⟨String.ofList path, String.ofList text, spaced⟩, cs)

theorem dropPrefix?_iff {cs word rest : List Char} :
    cs.dropPrefix? word = some rest ↔ cs = word ++ rest := by
  simp [List.dropPrefix?_eq_some_iff]

theorem opening?_eq_some_iff {cs rest : List Char} {spaced : Bool} :
    opening? cs = some (spaced, rest) ↔ ',' :: cs = Clause.opening spaced ++ rest := by
  constructor
  · intro h
    unfold opening? at h
    split at h
    · obtain ⟨rfl, rfl⟩ := Prod.mk.inj (Option.some.inj h)
      rfl
    · obtain ⟨rfl, rfl⟩ := Prod.mk.inj (Option.some.inj h)
      rfl
    · cases h
  · intro h
    cases spaced <;> rw [(List.cons.inj h).2] <;> rfl

/-- One search is read if and only if it is written; its path ends at the first
    comma. -/
theorem read?_eq_some_iff {cs rest : List Char} {s : Search} :
    read? cs = some (s, rest) ↔ ',' ∉ s.path.toList ∧ cs = s.clause.text.toList ++ rest := by
  simp only [read?, Option.bind_eq_bind, Option.bind_eq_some_iff, dropPrefix?_iff, clause,
    Clause.toList_contains, Filter.toList_doubleQuotes, Prod.exists, Text.cut?_eq_some_iff,
    opening?_eq_some_iff, Text.readLiteral?_eq_some_iff]
  constructor
  · rintro ⟨_, rfl, path, _, ⟨hp, rfl⟩, spaced, _, ho, text, _, ⟨rfl, -⟩, _, rfl, h⟩
    obtain ⟨rfl, rfl⟩ := Prod.mk.inj (Option.some.inj h)
    refine ⟨by simpa using hp, ?_⟩
    rw [ho]
    simp
  · rintro ⟨hp, rfl⟩
    have ho : ∀ r, Clause.opening s.spaced ++ r = ',' :: ((Clause.opening s.spaced).tail ++ r) := by
      cases s.spaced <;> exact fun r => rfl
    refine ⟨_, List.append_assoc .., s.path.toList, _, ⟨hp, ?_⟩, s.spaced, _, (ho _).symm,
      s.text.toList, ')' :: rest, ⟨rfl, by simp⟩, rest, rfl, by simp⟩
    rw [← ho]
    simp

/-- What follows the search after a connective is shorter than the whole. -/
theorem length_lt_of_read? {cs rest next : List Char} {s : Search}
    (h : read? cs = some (s, rest)) (hn : rest.dropPrefix? conj = some next) :
    next.length < cs.length := by
  rw [(read?_eq_some_iff.1 h).2, dropPrefix?_iff.1 hn]
  simp [conj, Connective.ofWord]
  omega

/-- The searches of a text, with the connective between them. -/
def readAll? (cs : List Char) : Option (List Search) :=
  match h : read? cs with
  | none => none
  | some (s, rest) =>
    if rest = [] then some [s]
    else
      match hn : rest.dropPrefix? conj with
      | none => none
      | some next =>
        have := length_lt_of_read? h hn
        (readAll? next).map (s :: ·)
termination_by cs.length

/-- The searches that a filter consists of; a missing filter has none. -/
def ofFilter? : Option String → Option (List Search)
  | none => some []
  | some filter => readAll? filter.toList

/-! ## All searches -/

/-- After a search the text ends, or the connective and the next search follow. -/
theorem readAll?_eq (cs : List Char) :
    readAll? cs = (read? cs).bind fun (s, rest) =>
      if rest = [] then some [s]
      else (rest.dropPrefix? conj).bind fun next => (readAll? next).map (s :: ·) := by
  rw [readAll?]
  split
  · rename_i h
    simp only [h, Option.bind_none]
  · rename_i s rest h
    simp only [h, Option.bind_some]
    congr 1
    split
    · rename_i hn
      simp only [hn, Option.bind_none]
    · rename_i next hn
      simp only [hn, Option.bind_some]

theorem readAll?_ne_nil (cs : List Char) : readAll? cs ≠ some [] := by
  intro h
  rw [readAll?_eq] at h
  obtain ⟨⟨s, rest⟩, -, h⟩ := Option.bind_eq_some_iff.1 h
  simp only at h
  split_ifs at h
  · cases h
  · obtain ⟨next, -, h⟩ := Option.bind_eq_some_iff.1 h
    obtain ⟨ss, -, h⟩ := Option.map_eq_some_iff.1 h
    cases h

theorem readAll?_eq_cons_iff {cs : List Char} {s : Search} {ss : List Search} :
    readAll? cs = some (s :: ss) ↔
      read? cs = some (s, []) ∧ ss = [] ∨
        ∃ next, read? cs = some (s, conj ++ next) ∧ readAll? next = some ss := by
  rw [readAll?_eq]
  constructor
  · intro h
    obtain ⟨⟨s', rest⟩, hr, h⟩ := Option.bind_eq_some_iff.1 h
    simp only at h
    split_ifs at h with he
    · obtain ⟨rfl, rfl⟩ := List.cons.inj (Option.some.inj h)
      exact Or.inl ⟨he ▸ hr, rfl⟩
    · obtain ⟨next, hn, h⟩ := Option.bind_eq_some_iff.1 h
      obtain ⟨ss', hss, h⟩ := Option.map_eq_some_iff.1 h
      obtain ⟨rfl, rfl⟩ := List.cons.inj h
      exact Or.inr ⟨next, dropPrefix?_iff.1 hn ▸ hr, hss⟩
  · rintro (⟨hr, rfl⟩ | ⟨next, hr, hss⟩)
    · rw [hr]
      rfl
    · have hd : (conj ++ next).dropPrefix? conj = some next := dropPrefix?_iff.2 rfl
      rw [hr, Option.bind_some]
      simp only [hd, Option.bind_some, hss, Option.map_some]
      exact if_neg (by simp [conj, Connective.ofWord])

/-- Searches are read if and only if they are written, at least one. -/
theorem readAll?_eq_some_iff {cs : List Char} {ss : List Search} :
    readAll? cs = some ss ↔
      ss ≠ [] ∧ (∀ s ∈ ss, ',' ∉ s.path.toList) ∧
        cs = List.intercalate conj (ss.map fun s => s.clause.text.toList) := by
  induction ss generalizing cs with
  | nil => simp [readAll?_ne_nil]
  | cons s ss ih =>
    rw [readAll?_eq_cons_iff]
    simp only [ih, read?_eq_some_iff, List.forall_mem_cons]
    cases ss with
    | nil => simp
    | cons s' ss =>
      constructor
      · rintro (⟨-, h⟩ | ⟨next, ⟨hs, rfl⟩, -, hss, rfl⟩)
        · cases h
        · exact ⟨List.cons_ne_nil _ _, ⟨hs, hss⟩, by simp⟩
      · rintro ⟨-, ⟨hs, hss⟩, rfl⟩
        exact Or.inr ⟨_, ⟨hs, by simp⟩, List.cons_ne_nil _ _, hss, rfl⟩

/-- A filter is read as searches if and only if it is their conjunction. -/
theorem ofFilter?_eq_some_iff {filter : Option String} {ss : List Search} :
    ofFilter? filter = some ss ↔
      (∀ s ∈ ss, ',' ∉ s.path.toList) ∧ filter = Filter.conjoin (ss.map clause) := by
  cases filter with
  | none => cases ss <;> simp [ofFilter?, Filter.conjoin]
  | some filter =>
    rw [ofFilter?, readAll?_eq_some_iff]
    cases ss with
    | nil => simp [Filter.conjoin]
    | cons s ss =>
      have hc : Filter.conjoin ((s :: ss).map clause) =
          some (String.intercalate Clause.conjunction (((s :: ss).map clause).map Clause.text)) :=
        rfl
      rw [hc, Option.some_inj, ← String.toList_inj, String.toList_intercalate,
        Connective.toList_conjunction, List.map_map, List.map_map]
      exact ⟨fun h => h.2, fun h => ⟨List.cons_ne_nil _ _, h⟩⟩

end Search

namespace Filter

variable {columns : Columns} {offset : String} {es : Members Leaf}

/-! ## The filter of searched columns -/

/-- Whether a column of this kind is searched for a text: one that is unknown or
    declares no kind, a text, or a kind that is not known. -/
def isSearched : Option ValueKind → Bool
  | none | some .text | some (.other _) => true
  | _ => false

/-- The searches for the values of the entries that filter, in order. -/
def searches (columns : Columns) (es : Members Leaf) : List Search :=
  (es.filter fun e => !e.2.isFalsy).map fun e =>
    ⟨e.1, e.2.render, (columns.kind? e.1).isSome⟩

theorem clauseOf_isSearched {kind : Option ValueKind} (h : isSearched kind = true) (path : String)
    (value : Leaf) :
    clauseOf kind offset path value =
      .ok (Search.clause ⟨path, value.render, kind.isSome⟩) := by
  unfold isSearched at h
  split at h
  · rfl
  · rfl
  · rfl
  · cases h

/-- Searched columns give a search for each entry that filters. -/
theorem clausesOf_searches (h : ∀ e ∈ es, isSearched (columns.kind? e.1) = true) :
    clausesOf columns offset es = .ok ((searches columns es).map Search.clause) := by
  induction es with
  | nil => rfl
  | cons e es ih =>
    obtain ⟨path, value⟩ := e
    obtain ⟨hk, hes⟩ := List.forall_mem_cons.1 h
    have hrest := ih hes
    by_cases hv : value.isFalsy = true
    · refine clausesOf_cons_eq_ok_iff.2 ⟨none, _, select_eq_none_iff.2 hv, hrest, ?_⟩
      simp [searches, hv]
    · have hv' : value.isFalsy = false := Bool.eq_false_iff.2 hv
      refine clausesOf_cons_eq_ok_iff.2
        ⟨_, _, select_eq_some_iff.2 ⟨hv', clauseOf_isSearched hk path value⟩, hrest, ?_⟩
      simp [searches, hv']

theorem build_searches {form quick : Params}
    (h : ∀ e ∈ entries form quick, isSearched (columns.kind? e.1) = true) :
    build form quick columns offset =
      .ok (conjoin ((searches columns (entries form quick)).map Search.clause)) := by
  rw [build, clauses, clausesOf_searches h]
  rfl

/-- **Searches cannot be broken out of.**  If all columns are searched and no path
    has a comma, the filter is read as one search for each value that filters, in
    order, and it is the filter of no other searches; the values may be any
    texts. -/
theorem read_build {form quick : Params} (offset : String)
    (hpath : ∀ e ∈ entries form quick, ',' ∉ e.1.toList)
    (hkind : ∀ e ∈ entries form quick, isSearched (columns.kind? e.1) = true) :
    ∃ filter, build form quick columns offset = .ok filter ∧
      Search.ofFilter? filter = some (searches columns (entries form quick)) ∧
      ∀ ss : List Search, (∀ s ∈ ss, ',' ∉ s.path.toList) →
        filter = conjoin (ss.map Search.clause) → ss = searches columns (entries form quick) := by
  have hcomma : ∀ s ∈ searches columns (entries form quick), ',' ∉ s.path.toList := by
    intro s hs
    obtain ⟨e, he, rfl⟩ := List.mem_map.1 hs
    exact hpath e (List.mem_filter.1 he).1
  have hread := Search.ofFilter?_eq_some_iff.2 ⟨hcomma, rfl⟩
  refine ⟨_, build_searches hkind, hread, fun ss hss h => ?_⟩
  exact Option.some.inj ((Search.ofFilter?_eq_some_iff.2 ⟨hss, h⟩).symm.trans hread)

/-- Columns of a text and of a kind that is not known. -/
def searchedColumns : Columns :=
  Columns.ofList [⟨["name"], some .text⟩, ⟨["tag"], some (.other "chips")⟩]

/-- A value that looks like the end of its search and a further one, one that
    filters nothing, and one of quotes only. -/
def hostileForm : Params :=
  [("current", .leaf (.scalar (.text "1"))),
    ("name", .leaf (.scalar (.text "') and contains(x,'"))),
    ("size", .leaf (.scalar (.bool false))), ("note", .leaf (.scalar (.text "''")))]

/-- A range with a missing bound. -/
def hostileQuick : Params :=
  [("tag", .leaf (.range (.text "a'") .null))]

/-- The conjunction of three searches. -/
def hostileFilter : String :=
  "contains(name, ''') and contains(x,''') and contains(note,'''''') and contains(tag, 'a'',')"

theorem read_build_hostile :
    let es := entries hostileForm hostileQuick
    (∀ e ∈ es, ',' ∉ e.1.toList) ∧ (∀ e ∈ es, isSearched (searchedColumns.kind? e.1) = true) ∧
      build hostileForm hostileQuick searchedColumns "+00:00" = .ok (some hostileFilter) ∧
      Search.ofFilter? (some hostileFilter) =
        some [⟨"name", "') and contains(x,'", true⟩, ⟨"note", "''", false⟩,
          ⟨"tag", "a',", true⟩] := by
  intro es
  have hpath : ∀ e ∈ es, ',' ∉ e.1.toList := by decide +kernel
  have hkind : ∀ e ∈ es, isSearched (searchedColumns.kind? e.1) = true := by decide +kernel
  have hf : build hostileForm hostileQuick searchedColumns "+00:00" = .ok (some hostileFilter) := by
    decide +kernel
  obtain ⟨filter, hb, hread, -⟩ := read_build "+00:00" hpath hkind
  obtain rfl := Except.ok.inj (hb.symm.trans hf)
  exact ⟨hpath, hkind, hf, hread.trans (by decide +kernel)⟩

end Filter

end TableQuery
