/-
  When a composition succeeds, and which fault it has otherwise.

  Each stage is said in terms of the report: the page window (`Page.Valid`),
  the base query (`BaseQuery.Sound`), single values for periods
  (`Filter.SingleDate`), and the rows before the page. The first that fails,
  in this order, is the fault (`compose_outcome`).
-/
import Mathlib.Control.Monad.Basic
import TableQuery.Proofs.BaseQuery
import TableQuery.Proofs.Window

namespace TableQuery

namespace Filter

/-- An entry is a single value that is not falsy, where the first column of its
    path holds periods. -/
def SingleDate (columns : List Column) (es : Members Leaf) : Prop :=
  ∃ path s column, (path, Leaf.scalar s) ∈ es ∧ s.isFalsy = false ∧
    (columns.find? fun c => c.segments ≠ [] ∧ c.path = path) = some column ∧
    column.kind = some .dateRange

/-- A filter is built unless there is a single value for a period. -/
theorem exists_build_iff {form quick : Params} {columns : List Column} {offset : String} :
    (∃ computed, build form quick (Columns.ofList columns) offset = .ok computed) ↔
      ¬ SingleDate columns (entries form quick) := by
  have hb : (∃ computed, build form quick (Columns.ofList columns) offset = .ok computed) ↔
      ∃ cs, clausesOf (Columns.ofList columns) offset (entries form quick) = .ok cs := by
    rw [build, clauses]
    cases clausesOf (Columns.ofList columns) offset (entries form quick) <;> simp [Except.map]
  rw [hb, exists_clausesOf_iff]
  constructor
  · rintro h ⟨path, s, column, he, hs, hcol, hkind⟩
    have hk : (Columns.ofList columns).kind? path = some .dateRange := by
      rw [Columns.kind?, Columns.get?_ofList, hcol]
      exact hkind
    exact h _ he _ (select_eq_error_iff.2 ⟨hs, hk, ⟨s, rfl⟩, rfl⟩)
  · rintro h ⟨path, value⟩ he fault hsel
    obtain ⟨hv, hk, ⟨s, rfl⟩, -⟩ := select_eq_error_iff.1 hsel
    obtain ⟨column, hcol, hkind⟩ := Option.bind_eq_some_iff.1 hk
    rw [Columns.get?_ofList] at hcol
    exact h ⟨path, s, column, he, hv, hcol, hkind⟩

end Filter

namespace Page

variable {params : Params} {limit : Nat}

theorem exists_ofParams_iff :
    (∃ page, ofParams params limit = .ok page) ↔ ∃ current size, Valid params limit current size := by
  constructor
  · rintro ⟨page, h⟩
    exact ⟨_, _, ofParams_eq_ok_iff.1 h⟩
  · rintro ⟨current, size, h⟩
    obtain ⟨page, hp, -⟩ := h.exists_page
    exact ⟨page, hp⟩

end Page

namespace Composer

/-- A composer of a table, with the standard configuration or one that is
    valid. -/
inductive BuiltFrom (columns : List Column) : Composer → Prop
  | standard : BuiltFrom columns (ofColumns columns)
  | configured {config : Config} {c : Composer} (h : configured columns config = .ok c) :
    BuiltFrom columns c

variable {columns : List Column} {c : Composer} {s : TableReport} {current size : Nat}

theorem BuiltFrom.columns_eq (hc : c.BuiltFrom columns) : c.columns = Columns.ofList columns := by
  cases hc with
  | standard => rfl
  | @configured config _ h =>
    rw [Composer.configured] at h
    cases ho : config.check with
    | error fault => rw [ho] at h; cases h
    | ok o =>
      rw [ho] at h
      rw [← Except.ok.inj h]

theorem BuiltFrom.exists_build_iff (hc : c.BuiltFrom columns) {form quick : Params} :
    (∃ computed, Filter.build form quick c.columns c.offset.text = .ok computed) ↔
      ¬ Filter.SingleDate columns (Filter.entries form quick) := by
  rw [hc.columns_eq]
  exact Filter.exists_build_iff

/-! ## The stages of a report -/

theorem exists_compose_iff (hc : c.BuiltFrom columns) :
    (∃ q, c.compose s = .ok q) ↔
      ∃ current size, Page.Valid s.params c.config.pageLimit current size ∧
        BaseQuery.Sound s.baseQuery ∧
        ¬ Filter.SingleDate columns (Filter.entries s.params s.filter) ∧
        (current - 1) * size < Number.wordCount := by
  constructor
  · rintro ⟨q, h⟩
    obtain ⟨page, base, computed, skip, hp, hb, hf, hs, -⟩ := compose_eq_ok_iff.1 h
    exact ⟨_, _, Page.ofParams_eq_ok_iff.1 hp, BaseQuery.exists_parse?_iff.1 ⟨base, hb⟩,
      hc.exists_build_iff.1 ⟨computed, hf⟩, (Page.skip_eq_ok_iff.1 hs).2⟩
  · rintro ⟨current, size, hv, hb, hf, hrows⟩
    obtain ⟨page, hp, rfl, rfl⟩ := hv.exists_page
    obtain ⟨base, hb⟩ := BaseQuery.exists_parse?_iff.2 hb
    obtain ⟨computed, hf⟩ := hc.exists_build_iff.2 hf
    have hs := Page.skip_eq_ok_iff.2 ⟨rfl, hrows⟩
    exact ⟨_, compose_eq_ok_iff.2 ⟨page, base, computed, _, hp, hb, hf, hs, rfl⟩⟩

theorem compose_of_not_valid
    (hp : ¬ ∃ current size, Page.Valid s.params c.config.pageLimit current size) :
    ∃ fault, c.compose s = .error (.page fault) := by
  obtain ⟨fault, hp⟩ := exists_eq_error (mt Page.exists_ofParams_iff.1 hp)
  exact ⟨fault, compose_eq_error_iff.2 (Or.inl ⟨fault, hp, rfl⟩)⟩

theorem compose_of_not_sound (hv : Page.Valid s.params c.config.pageLimit current size)
    (hb : ¬ BaseQuery.Sound s.baseQuery) :
    ∃ fault, c.compose s = .error (.baseQuery fault) := by
  obtain ⟨page, hp, -⟩ := hv.exists_page
  obtain ⟨fault, hb⟩ := exists_eq_error (mt BaseQuery.exists_parse?_iff.1 hb)
  exact ⟨fault, compose_eq_error_iff.2 (Or.inr ⟨page, hp, Or.inl ⟨fault, hb, rfl⟩⟩)⟩

theorem compose_of_singleDate (hc : c.BuiltFrom columns)
    (hv : Page.Valid s.params c.config.pageLimit current size) (hb : BaseQuery.Sound s.baseQuery)
    (hf : Filter.SingleDate columns (Filter.entries s.params s.filter)) :
    ∃ fault, c.compose s = .error (.param fault) := by
  obtain ⟨page, hp, -⟩ := hv.exists_page
  obtain ⟨base, hb⟩ := BaseQuery.exists_parse?_iff.2 hb
  obtain ⟨fault, hf⟩ := exists_eq_error (mt hc.exists_build_iff.1 (not_not_intro hf))
  exact ⟨fault, compose_eq_error_iff.2
    (Or.inr ⟨page, hp, Or.inr ⟨base, hb, Or.inl ⟨fault, hf, rfl⟩⟩⟩)⟩

theorem compose_of_overflow (hc : c.BuiltFrom columns)
    (hv : Page.Valid s.params c.config.pageLimit current size) (hb : BaseQuery.Sound s.baseQuery)
    (hf : ¬ Filter.SingleDate columns (Filter.entries s.params s.filter))
    (hrows : Number.wordCount ≤ (current - 1) * size) :
    c.compose s = .error (.page (.overflow current size)) := by
  obtain ⟨page, hp, rfl, rfl⟩ := hv.exists_page
  obtain ⟨base, hb⟩ := BaseQuery.exists_parse?_iff.2 hb
  obtain ⟨computed, hf⟩ := hc.exists_build_iff.2 hf
  have hs : page.skip = .error (.overflow page.current page.size) := by
    rw [Page.skip]
    exact if_neg (Nat.not_lt.2 hrows)
  exact compose_eq_error_iff.2
    (Or.inr ⟨page, hp, Or.inr ⟨base, hb, Or.inr ⟨computed, hf, _, hs, rfl⟩⟩⟩)

theorem compose_ne_config (fault : ConfigFault) : c.compose s ≠ .error (.config fault) := by
  intro h
  obtain ⟨f, -, hf⟩ | ⟨page, -, ⟨f, -, hf⟩ | ⟨base, -, ⟨f, -, hf⟩ | ⟨_, -, f, -, hf⟩⟩⟩ :=
    compose_eq_error_iff.1 h
  all_goals cases hf

/-- **When a composition succeeds.**  The form has a page window, the base
    query is sound, no single value stands for a period, and the number of rows
    before the page has 64 bits. The first of these that does not hold is the
    fault; it is never one of the configuration. -/
theorem compose_outcome (hc : c.BuiltFrom columns) (s : TableReport) :
    ((∃ q, c.compose s = .ok q) ↔
      ∃ current size, Page.Valid s.params c.config.pageLimit current size ∧
        BaseQuery.Sound s.baseQuery ∧
        ¬ Filter.SingleDate columns (Filter.entries s.params s.filter) ∧
        (current - 1) * size < Number.wordCount) ∧
    ((¬ ∃ current size, Page.Valid s.params c.config.pageLimit current size) →
      ∃ fault, c.compose s = .error (.page fault)) ∧
    (∀ current size, Page.Valid s.params c.config.pageLimit current size →
      (¬ BaseQuery.Sound s.baseQuery → ∃ fault, c.compose s = .error (.baseQuery fault)) ∧
      (BaseQuery.Sound s.baseQuery →
        Filter.SingleDate columns (Filter.entries s.params s.filter) →
        ∃ fault, c.compose s = .error (.param fault)) ∧
      (BaseQuery.Sound s.baseQuery →
        ¬ Filter.SingleDate columns (Filter.entries s.params s.filter) →
        Number.wordCount ≤ (current - 1) * size →
        c.compose s = .error (.page (.overflow current size)))) ∧
    ∀ fault, c.compose s ≠ .error (.config fault) :=
  ⟨exists_compose_iff hc, compose_of_not_valid,
    fun _ _ hv => ⟨compose_of_not_sound hv, compose_of_singleDate hc hv,
      compose_of_overflow hc hv⟩,
    compose_ne_config⟩

/-- A report on the last page that a number can name, with an escape that is
    cut off and one date where a period is due. -/
def faulty : TableReport where
  params := [("current", .leaf (.scalar (.text "18446744073709551615"))),
    ("pageSize", .leaf (.scalar (.number (.natural ⟨2, by decide⟩)))),
    ("day", .leaf (.scalar (.text "2024-01-31")))]
  sort := []
  filter := []
  baseQuery := some "?top=5&filter=%4"

theorem compose_outcome_faulty :
    let columns : List Column := [⟨["day"], some .dateRange⟩]
    (ofColumns columns).BuiltFrom columns ∧
      Page.Valid faulty.params 1000 18446744073709551615 2 ∧ ¬ BaseQuery.Sound faulty.baseQuery ∧
      Filter.SingleDate columns (Filter.entries faulty.params faulty.filter) ∧
      Number.wordCount ≤ (18446744073709551615 - 1) * 2 ∧
      ∃ fault, (ofColumns columns).compose faulty = .error (.baseQuery fault) := by
  intro columns
  have hc : (ofColumns columns).BuiltFrom columns := .standard
  have hv : Page.Valid faulty.params 1000 18446744073709551615 2 :=
    ⟨Page.readNumber_eq_ok_iff.1 (by decide +kernel),
      Page.readNumber_eq_ok_iff.1 (by decide +kernel), by decide, by decide, by decide⟩
  have hb : ¬ BaseQuery.Sound faulty.baseQuery := by
    rw [← BaseQuery.exists_parse?_iff]
    rintro ⟨base, h⟩
    have he : BaseQuery.parse? faulty.baseQuery = .error (.encoding "%4" (.malformed 0)) := by
      decide +kernel
    cases he.symm.trans h
  have hf : Filter.SingleDate columns (Filter.entries faulty.params faulty.filter) :=
    ⟨"day", .text "2024-01-31", ⟨["day"], some .dateRange⟩, by decide +kernel, by decide,
      by decide +kernel, rfl⟩
  exact ⟨hc, hv, hb, hf, by decide, ((compose_outcome hc faulty).2.2.1 _ _ hv).1 hb⟩

end Composer

end TableQuery
