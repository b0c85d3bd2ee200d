/-
  Compositions in a chain, each of which takes the query string of the one
  before as its base query.

  The query string holds all texts of its query (`parse?_feeds`), so one more
  stage only adds to them (`query_eq_ok`), and by induction on the stages a
  chain of any length loses nothing (`chain_loses_nothing`).
-/
import Mathlib.Data.List.Chain
import TableQuery.Proofs.Compose

namespace TableQuery

/-- One composition of a chain. -/
structure Stage where
  composer : Composer
  report : TableReport

namespace Stage

def query (s : Stage) : Except QueryError Query :=
  s.composer.compose s.report

/-- The filter of the form and the quick filters of a stage, if it has one. -/
def computed? (s : Stage) : Option String :=
  match Filter.build s.report.params s.report.filter s.composer.columns s.composer.offset.text with
  | .ok filter => filter
  | .error _ => none

/-- The query string of one stage is the base query of the next. -/
def Feeds (s t : Stage) : Prop :=
  ∃ text, s.composer.queryString s.report = .ok text ∧ t.report.baseQuery = some text

/-- The order of the latest stage that is sorted by hand. -/
def latestOrder? (stages : List Stage) : Option String :=
  (stages.reverse.find? fun s => s.report.sort ≠ []).bind fun s => OrderBy.build s.report.sort

end Stage

/-- The conjunction of filters, if there are any. -/
def Filter.conjoinAll : List String → Option String
  | [] => none
  | filters => some (String.intercalate Clause.conjunction filters)

namespace Stage

variable {s t : Stage} {q : Query}

/-! ## One stage -/

/-- What a stage adds to its base query. -/
theorem query_eq_ok (h : s.query = .ok q) :
    ∃ base, BaseQuery.parse? s.report.baseQuery = .ok base ∧
      q.filter = Filter.both base.filter s.computed? ∧ q.expand = base.expand ∧
      q.orderby = (OrderBy.build s.report.sort).or base.orderby := by
  obtain ⟨page, base, computed, skip, -, hb, hf, -, rfl⟩ := Composer.compose_eq_ok_iff.1 h
  exact ⟨base, hb, by rw [computed?, hf]; rfl, rfl, rfl⟩

/-- The next stage starts from the texts of the query of this one. -/
theorem parse?_feeds (h : Feeds s t) :
    ∃ q, s.query = .ok q ∧
      BaseQuery.parse? t.report.baseQuery = .ok ⟨q.filter, q.orderby, q.expand⟩ := by
  obtain ⟨text, hs, ht⟩ := h
  rw [Composer.queryString] at hs
  cases hq : s.composer.compose s.report with
  | error e => rw [hq] at hs; cases hs
  | ok q =>
    rw [hq] at hs
    refine ⟨q, hq, ?_⟩
    rw [ht, ← Except.ok.inj hs, Query.parse?_queryString, Composer.texts_of_compose hq]

/-! ## Joining filters and orders -/

theorem conjoinAll_both (base computed : Option String) (filters : List String) :
    Filter.conjoinAll ((Filter.both base computed).toList ++ filters) =
      Filter.conjoinAll (base.toList ++ (computed.toList ++ filters)) := by
  cases base with
  | none => cases computed <;> rfl
  | some b =>
    cases computed with
    | none => rfl
    | some c => simp [Filter.both, Filter.conjoinAll]

theorem conjoinAll_toList (filter : Option String) : Filter.conjoinAll filter.toList = filter := by
  cases filter <;> simp [Filter.conjoinAll]

theorem filterMap_computed?_cons (s : Stage) (stages : List Stage) :
    (s :: stages).filterMap computed? = s.computed?.toList ++ stages.filterMap computed? := by
  cases h : s.computed? <;> simp [h]

theorem latestOrder?_cons (s : Stage) (stages : List Stage) :
    latestOrder? (s :: stages) = (latestOrder? stages).or (OrderBy.build s.report.sort) := by
  unfold latestOrder?
  rw [List.reverse_cons, List.find?_append]
  cases hl : stages.reverse.find? fun s => s.report.sort ≠ [] with
  | none =>
    by_cases hs : s.report.sort = []
    · simp [hs, OrderBy.build, OrderBy.ofSort]
    · simp [hs]
  | some t =>
    have ht : t.report.sort ≠ [] := by simpa using List.find?_some hl
    obtain ⟨m, ms, hm⟩ := List.exists_cons_of_ne_nil ht
    simp [OrderBy.build, OrderBy.ofSort, hm]

/-! ## The whole chain -/

/-- By induction on the stages, a chain has the parts of the base query of its
    first stage and what its stages add to them. -/
theorem getLast_query (first : Stage) (rest : List Stage)
    (h : List.IsChain Feeds (first :: rest))
    (hq : ((first :: rest).getLast (List.cons_ne_nil _ _)).query = .ok q) :
    ∃ base, BaseQuery.parse? first.report.baseQuery = .ok base ∧
      q.filter = Filter.conjoinAll (base.filter.toList ++ (first :: rest).filterMap computed?) ∧
      q.expand = base.expand ∧ q.orderby = (latestOrder? (first :: rest)).or base.orderby := by
  induction rest generalizing first with
  | nil =>
    rw [List.getLast_singleton] at hq
    obtain ⟨base, hb, hf, he, ho⟩ := query_eq_ok hq
    refine ⟨base, hb, ?_, he, ?_⟩
    · rw [filterMap_computed?_cons, ← conjoinAll_both, List.filterMap_nil, List.append_nil,
        conjoinAll_toList, hf]
    · rw [latestOrder?_cons, ho]; rfl
  | cons second rest ih =>
    obtain ⟨hfeeds, hrest⟩ := List.isChain_cons_cons.1 h
    obtain ⟨q₁, hq₁, hb₁⟩ := parse?_feeds hfeeds
    obtain ⟨base, hb, hf, he, ho⟩ := query_eq_ok hq₁
    obtain ⟨base₁, hb₁', hf₁, he₁, ho₁⟩ := ih second hrest hq
    obtain rfl := Except.ok.inj (hb₁'.symm.trans hb₁)
    refine ⟨base, hb, ?_, he₁.trans he, ?_⟩
    · rw [hf₁, hf, filterMap_computed?_cons first, ← conjoinAll_both]
    · rw [ho₁, ho, latestOrder?_cons first, Option.or_assoc]

/-- A stage that is fed has a sound base query. -/
theorem query_ne_baseQuery_error (h : Feeds s t) (fault : BaseQueryFault) :
    t.query ≠ .error (.baseQuery fault) := by
  intro he
  obtain ⟨q, -, hb⟩ := parse?_feeds h
  have he' := Composer.parse?_eq_error he
  rw [hb] at he'
  cases he'

/-- Every stage but the first is fed. -/
theorem exists_feeds {first : Stage} {rest : List Stage} (h : List.IsChain Feeds (first :: rest)) :
    ∀ t ∈ rest, ∃ s, Feeds s t := by
  induction rest generalizing first with
  | nil => simp
  | cons second rest ih =>
    obtain ⟨hfeeds, hrest⟩ := List.isChain_cons_cons.1 h
    intro t ht
    rcases List.mem_cons.1 ht with rfl | ht
    · exact ⟨first, hfeeds⟩
    · exact ih hrest t ht

/-- **A chain of compositions loses nothing.**  No stage but the first has a
    fault in its base query, and the last query conjoins, in order, the filter
    of the first base query and the filters of all stages; it keeps the
    expansion of the first base query; and its order is that of the latest
    stage sorted by hand, or else that of the first base query. -/
theorem chain_loses_nothing (first : Stage) (rest : List Stage)
    (h : List.IsChain Feeds (first :: rest)) :
    (∀ s ∈ rest, ∀ fault, s.query ≠ .error (.baseQuery fault)) ∧
      ∀ q, ((first :: rest).getLast (List.cons_ne_nil _ _)).query = .ok q →
        ∃ base, BaseQuery.parse? first.report.baseQuery = .ok base ∧
          q.filter =
            Filter.conjoinAll (base.filter.toList ++ (first :: rest).filterMap computed?) ∧
          q.expand = base.expand ∧
          q.orderby = (latestOrder? (first :: rest)).or base.orderby := by
  refine ⟨fun t ht fault => ?_, fun q hq => getLast_query first rest h hq⟩
  obtain ⟨s, hs⟩ := exists_feeds h t ht
  exact query_ne_baseQuery_error hs fault

/-- A composer with another naming. -/
def renamed (c : Composer) (naming : Naming) : Composer :=
  { c with
    config := { c.config with naming }
    valid := ⟨c.valid.pageLimit_pos, c.valid.parse_offset⟩ }

/-- A stage on the first page of a table with ages. -/
def onAges (naming : Naming) (params : Params) (sort : ManualSort) (baseQuery : Option String) :
    Stage where
  composer := renamed (Composer.ofColumns [⟨["age"], some .digit⟩]) naming
  report := ⟨[("current", .leaf (.scalar (.text "1"))), ("pageSize", .leaf (.scalar (.text "5")))]
    ++ params, sort, [], baseQuery⟩

/-- A search for a text that needs escapes, in the naming with `$`. -/
def searched : Stage :=
  onAges .dollar [("näme", .leaf (.scalar (.text "a&b=1 %21+?")))] [] (some "expand=x")

/-- A sorted stage that starts from the search. -/
def sorted : Stage :=
  onAges .plain [("age", .leaf (.scalar (.text "7")))] [("n", none)]
    (some "?%24count=true&%24top=5&%24filter=contains(n%C3%A4me%2C'a%26b%3D1%20%2521%2B%3F')&%24expand=x")

/-- What the two stages compose. -/
def sortedQuery : Query :=
  ⟨true, 5, 0, some "contains(näme,'a&b=1 %21+?') and age eq 7", some "x", some "n asc"⟩

theorem chain_loses_nothing_searched :
    List.IsChain Feeds [searched, sorted] ∧ sorted.query = .ok sortedQuery ∧
      (∀ fault, sorted.query ≠ .error (.baseQuery fault)) ∧
      ∃ base, BaseQuery.parse? searched.report.baseQuery = .ok base ∧
        sortedQuery.filter =
          Filter.conjoinAll (base.filter.toList ++ [searched, sorted].filterMap computed?) ∧
        sortedQuery.expand = base.expand ∧
        sortedQuery.orderby = (latestOrder? [searched, sorted]).or base.orderby := by
  have h : List.IsChain Feeds [searched, sorted] :=
    List.isChain_cons_cons.2 ⟨⟨_, by decide +kernel, rfl⟩, List.isChain_singleton _⟩
  have hq : sorted.query = .ok sortedQuery := by decide +kernel
  have hall := chain_loses_nothing searched [sorted] h
  exact ⟨h, hq, hall.1 sorted (List.mem_singleton_self _), hall.2 sortedQuery hq⟩

end Stage

end TableQuery
