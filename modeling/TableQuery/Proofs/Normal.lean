/-
  Normal queries, and what the two forms of a query tell about each other.

  A query string leaves out what is false, zero or empty. A normal query counts,
  shows a row and has no empty text, so that its string leaves out nothing but
  a skip of no rows.

  * `eq_of_pairs_eq`: the pairs of a query determine it up to empty texts;
  * `Normal.pairs_eq`: the pairs of a normal query are all its parameters;
  * `normal_of_compose`: a composed query is normal;
  * `compose_faithful`: the string and the object of a composed query carry the
    same information.
-/
import TableQuery.Proofs.Window

namespace TableQuery

namespace Query

variable {q r : Query} {naming : Naming}

/-! ## Queries with the same pairs -/

/-- The pairs of a query determine it, up to texts that are empty. -/
theorem eq_of_pairs_eq (h : q.pairs naming = r.pairs naming) :
    q.count = r.count ∧ q.top = r.top ∧ q.skip = r.skip ∧ q.texts = r.texts := by
  have lookup : ∀ name, (q.pairs naming).lookup name = (r.pairs naming).lookup name := fun name => by
    rw [h]
  have hcount : countValue q.count = countValue r.count := by
    have hl := lookup (naming.key "count")
    cases naming <;> simpa [lookup_pairs, Naming.key] using hl
  have htop : numberValue q.top = numberValue r.top := by
    have hl := lookup (naming.key "top")
    cases naming <;> simpa [lookup_pairs, Naming.key] using hl
  have hskip : numberValue q.skip = numberValue r.skip := by
    have hl := lookup (naming.key "skip")
    cases naming <;> simpa [lookup_pairs, Naming.key] using hl
  have htexts : q.texts = r.texts := by
    rw [← ofPairs_pairs q naming, h, ofPairs_pairs]
  exact ⟨countValue_injective hcount, numberValue_injective htop, numberValue_injective hskip,
    htexts⟩

/-! ## Normal queries -/

/-- A query that counts and shows a row, and whose texts are missing rather than
    empty. -/
structure Normal (q : Query) : Prop where
  counts : q.count = true
  top_pos : 1 ≤ q.top
  filter_ne : q.filter ≠ some ""
  expand_ne : q.expand ≠ some ""
  orderby_ne : q.orderby ≠ some ""

/-- The names and values of all parameters that a query has, but for a skip of no
    rows. -/
def parameters (q : Query) (naming : Naming) : List (String × String) :=
  [(naming.key "count", toString q.count), (naming.key "top", toString q.top)]
    ++ (if q.skip = 0 then [] else [(naming.key "skip", toString q.skip)])
    ++ [("filter", q.filter), ("expand", q.expand), ("orderby", q.orderby)].filterMap
      fun (name, value) => value.map (naming.key name, ·)

theorem textPair_eq_toList {key : String} {value : Option String} (h : value ≠ some "") :
    textPair key value = (value.map (key, ·)).toList := by
  cases value with
  | none => rfl
  | some v => exact if_neg fun e : v = "" => h (congrArg some e)

namespace Normal

/-- The pairs of a normal query are all its parameters. -/
theorem pairs_eq (h : q.Normal) (naming : Naming) : q.pairs naming = q.parameters naming := by
  have htop : q.top ≠ 0 := Nat.pos_iff_ne_zero.1 h.top_pos
  have htexts : [("filter", q.filter), ("expand", q.expand), ("orderby", q.orderby)].filterMap
      (fun (name, value) => value.map (naming.key name, ·)) =
      textPair (naming.key "filter") q.filter ++ textPair (naming.key "expand") q.expand
        ++ textPair (naming.key "orderby") q.orderby := by
    rw [textPair_eq_toList h.filter_ne, textPair_eq_toList h.expand_ne,
      textPair_eq_toList h.orderby_ne]
    cases q.filter <;> cases q.expand <;> cases q.orderby <;> rfl
  rw [pairs, parameters, htexts, h.counts, numberPair, if_neg htop, numberPair]
  simp only [if_true, List.append_assoc]
  rfl

theorem isFiltered_iff (h : q.Normal) : q.isFiltered = true ↔ q.filter.isSome = true := by
  have hf := h.filter_ne
  cases hq : q.filter with
  | none => simp [isFiltered, hq]
  | some f => simpa [isFiltered, hq] using hf

theorem texts_eq (h : q.Normal) : q.texts = ⟨q.filter, q.orderby, q.expand⟩ := by
  rw [texts, nonEmpty_eq_self h.filter_ne, nonEmpty_eq_self h.expand_ne,
    nonEmpty_eq_self h.orderby_ne]

/-- Normal queries with the same query string are the same. -/
theorem eq_of_queryString_eq (hq : q.Normal) (hr : r.Normal)
    (h : q.queryString naming = r.queryString naming) : q = r := by
  have hw : '?' :: written (q.pairs naming) = '?' :: written (r.pairs naming) := by
    rw [← toList_queryString, h, toList_queryString]
  have hp := written_injective (List.cons.inj hw).2
  obtain ⟨hcount, htop, hskip, htexts⟩ := eq_of_pairs_eq hp
  rw [hq.texts_eq, hr.texts_eq] at htexts
  obtain ⟨hfilter, horderby, hexpand⟩ := BaseQuery.mk.inj htexts
  cases q
  cases r
  simp only [Query.mk.injEq]
  exact ⟨hcount, htop, hskip, hfilter, hexpand, horderby⟩

end Normal

end Query

namespace Composer

variable {c : Composer} {s : TableReport} {q : Query}

/-! ## Composed queries -/

theorem normal_of_compose (h : c.compose s = .ok q) : q.Normal := by
  obtain ⟨_, hv, hcount, -⟩ := window_of_compose h
  obtain ⟨hfilter, horderby, hexpand⟩ := BaseQuery.mk.inj (texts_of_compose h)
  exact ⟨hcount, hv.size_pos, hfilter ▸ Query.nonEmpty_ne _, hexpand ▸ Query.nonEmpty_ne _,
    horderby ▸ Query.nonEmpty_ne _⟩

/-- **The two forms of a query.**  A composed query is normal: it has a filter if
    and only if it is filtered, and its pairs are all the parameters that it has,
    but for a skip of no rows. So two composed queries with the same query string,
    in one naming, are the same. -/
theorem compose_faithful :
    (∀ (c : Composer) (s : TableReport) (q : Query), c.compose s = .ok q →
      q.Normal ∧ (q.isFiltered = true ↔ q.filter.isSome = true) ∧
        ∀ naming, q.pairs naming = q.parameters naming) ∧
    ∀ (c d : Composer) (s t : TableReport) (q r : Query) (naming : Naming),
      c.compose s = .ok q → d.compose t = .ok r →
      q.queryString naming = r.queryString naming → q = r := by
  refine ⟨fun c s q h => ?_, fun c d s t q r naming hq hr h => ?_⟩
  · have hn := normal_of_compose h
    exact ⟨hn, hn.isFiltered_iff, hn.pairs_eq⟩
  · exact (normal_of_compose hq).eq_of_queryString_eq (normal_of_compose hr) h

/-- A form that filters by age. -/
def agedReport : TableReport :=
  .ofParams [("current", .leaf (.scalar (.text "1"))), ("pageSize", .leaf (.scalar (.text "5"))),
    ("age", .leaf (.scalar (.number (.natural ⟨7, by decide⟩))))]

/-- The same filter, from a base query. -/
def basedReport : TableReport :=
  { TableReport.ofParams [("pageSize", .leaf (.scalar (.text "05"))),
      ("current", .leaf (.scalar (.text " +1")))] with
    baseQuery := some "?$filter=age+eq+7&top=3&expand=" }

theorem compose_faithful_aged :
    let c := ofColumns [⟨["age"], some .digit⟩]
    let d := ofColumns []
    ∃ q r, c.compose agedReport = .ok q ∧ q.Normal ∧
      q.queryString .dollar = "?%24count=true&%24top=5&%24filter=age%20eq%207" ∧
      d.compose basedReport = .ok r ∧ q.queryString .dollar = r.queryString .dollar ∧ q = r := by
  intro c d
  have hq : c.compose agedReport = .ok { Query.window 5 0 with filter := some "age eq 7" } := by
    decide +kernel
  have hr : d.compose basedReport = .ok { Query.window 5 0 with filter := some "age eq 7" } := by
    decide +kernel
  have hs : Query.queryString { Query.window 5 0 with filter := some "age eq 7" } .dollar =
      "?%24count=true&%24top=5&%24filter=age%20eq%207" := by decide +kernel
  exact ⟨_, _, hq, (compose_faithful.1 _ _ _ hq).1, hs, hr, rfl,
    compose_faithful.2 _ _ _ _ _ _ .dollar hq hr rfl⟩

end Composer

end TableQuery
