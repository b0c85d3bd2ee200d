/-
  Two compositions that differ in their page windows, or in everything else.

  * `compose_turn`: turning pages changes only the window of the query;
  * `window_eq`: the window depends on the two numbers of the page alone.

  `turn_page` puts both together.
-/
import Mathlib.Control.Monad.Basic
import TableQuery.Proofs.Window

namespace TableQuery

/-- The parameters of a form that are not its page window, in order. -/
def Params.unpaged (form : Params) : Params :=
  form.filter fun m => !PageKey.owns m.1

/-- Two reports that differ in their page windows only, wherever these stand. -/
structure PageTurn (s t : TableReport) : Prop where
  params_eq : Params.unpaged s.params = Params.unpaged t.params
  sort_eq : s.sort = t.sort
  filter_eq : s.filter = t.filter
  baseQuery_eq : s.baseQuery = t.baseQuery

/-- A filter does not depend on the page window of its form. -/
theorem Filter.build_congr {form form' : Params} (h : Params.unpaged form = Params.unpaged form')
    (quick : Params) (columns : Columns) (offset : String) :
    build form quick columns offset = build form' quick columns offset := by
  have he : formEntries form = formEntries form' := congrArg Params.flatten h
  rw [build, build, clauses, clauses, entries, entries, he]

namespace Composer

variable {c d : Composer} {s t : TableReport} {q r : Query} {current size : Nat}

theorem compose_turn (hturn : PageTurn s t) (hq : c.compose s = .ok q)
    (hv : Page.Valid t.params c.config.pageLimit current size)
    (hrows : (current - 1) * size < Number.wordCount) :
    c.compose t = .ok { q with top := size, skip := (current - 1) * size } := by
  obtain ⟨_, base, computed, _, -, hb, hf, -, rfl⟩ := compose_eq_ok_iff.1 hq
  obtain ⟨page, hp, rfl, rfl⟩ := hv.exists_page
  rw [hturn.baseQuery_eq] at hb
  rw [hturn.filter_eq, Filter.build_congr hturn.params_eq] at hf
  have hs := Page.skip_eq_ok_iff.2 ⟨rfl, hrows⟩
  refine compose_eq_ok_iff.2 ⟨page, base, computed, _, hp, hb, hf, hs, ?_⟩
  rw [assemble, assemble, hturn.sort_eq]
  rfl

theorem window_eq (hq : c.compose s = .ok q) (hr : d.compose t = .ok r)
    (h : ∀ key n, Page.Holds s.params key n ↔ Page.Holds t.params key n) :
    r.count = q.count ∧ r.top = q.top ∧ r.skip = q.skip := by
  obtain ⟨m, hm, hqc, hqs, -⟩ := window_of_compose hq
  obtain ⟨n, hn, hrc, hrs, -⟩ := window_of_compose hr
  have hcurrent : n = m := hn.current_eq.unique ((h .current m).1 hm.current_eq)
  have hsize : r.top = q.top := hn.size_eq.unique ((h .pageSize q.top).1 hm.size_eq)
  refine ⟨hrc.trans hqc.symm, hsize, ?_⟩
  rw [hrs, hqs, hcurrent, hsize]

/-- **Turning pages.**  Of two reports that differ in their page windows only,
    the second one is composed if the first one is and the window of the second
    is valid; nothing but the window of the query changes. The window in turn
    is that of the two numbers of the page, whatever else differs, even the
    composer. -/
theorem turn_page (c : Composer) :
    (∀ s t q current size, PageTurn s t → c.compose s = .ok q →
      Page.Valid t.params c.config.pageLimit current size →
      (current - 1) * size < Number.wordCount →
      c.compose t = .ok { q with top := size, skip := (current - 1) * size }) ∧
    ∀ (d : Composer) (s t : TableReport) (q r : Query),
      c.compose s = .ok q → d.compose t = .ok r →
      (∀ key n, Page.Holds s.params key n ↔ Page.Holds t.params key n) →
      r.count = q.count ∧ r.top = q.top ∧ r.skip = q.skip :=
  ⟨fun _ _ _ _ _ => compose_turn, fun _ _ _ _ _ => window_eq⟩

/-- A report sorted by age, with some form parameters. -/
def sortedReport (params : Params) : TableReport where
  params := params
  sort := [("age", some "ascend")]
  filter := []
  baseQuery := some "?filter=a eq 1&top=7&skip=3"

def firstPage : TableReport :=
  sortedReport [("current", .leaf (.scalar (.number (.natural ⟨1, by decide⟩)))),
    ("pageSize", .leaf (.scalar (.number (.natural ⟨10, by decide⟩)))),
    ("name", .leaf (.scalar (.text "x")))]

/-- The third page, of another size, its parameters in another order. -/
def thirdPage : TableReport :=
  sortedReport [("pageSize", .leaf (.scalar (.text "20"))),
    ("name", .leaf (.scalar (.text "x"))),
    ("current", .leaf (.scalar (.number (.natural ⟨3, by decide⟩))))]

/-- The numbers of the first page, written out, and nothing else. -/
def barePage : TableReport :=
  .ofParams [("current", .leaf (.scalar (.text "+1"))), ("pageSize", .leaf (.scalar (.text " 10 ")))]

theorem turn_page_third :
    let c := ofColumns [⟨["name"], some .select⟩]
    ∃ q r, c.compose firstPage = .ok q ∧
      (PageTurn firstPage thirdPage ∧ Page.Valid thirdPage.params c.config.pageLimit 3 20 ∧
        (3 - 1) * 20 < Number.wordCount ∧
        c.compose thirdPage = .ok { q with top := 20, skip := (3 - 1) * 20 }) ∧
      (ofColumns []).compose barePage = .ok r ∧
      (∀ key n, Page.Holds firstPage.params key n ↔ Page.Holds barePage.params key n) ∧
      r.count = q.count ∧ r.top = q.top ∧ r.skip = q.skip := by
  intro c
  have hq : c.compose firstPage =
      .ok ⟨true, 10, 0, some "a eq 1 and name eq x", none, some "age asc"⟩ := by decide +kernel
  have hturn : PageTurn firstPage thirdPage := ⟨rfl, rfl, rfl, rfl⟩
  have hv : Page.Valid thirdPage.params c.config.pageLimit 3 20 :=
    ⟨Page.readNumber_eq_ok_iff.1 (by decide +kernel),
      Page.readNumber_eq_ok_iff.1 (by decide +kernel), by decide, by decide, by decide⟩
  have hrows : (3 - 1) * 20 < Number.wordCount := by decide
  have hr : (ofColumns []).compose barePage = .ok (Query.window 10 0) := by decide +kernel
  have hsame : ∀ key n, Page.Holds firstPage.params key n ↔ Page.Holds barePage.params key n := by
    intro key n
    have hread : Page.readNumber firstPage.params key = Page.readNumber barePage.params key := by
      cases key <;> decide +kernel
    rw [← Page.readNumber_eq_ok_iff, ← Page.readNumber_eq_ok_iff, hread]
  exact ⟨_, _, hq, ⟨hturn, hv, hrows, (turn_page c).1 _ _ _ _ _ hturn hq hv hrows⟩, hr, hsame,
    (turn_page c).2 _ _ _ _ _ hq hr hsame⟩

end Composer

end TableQuery
