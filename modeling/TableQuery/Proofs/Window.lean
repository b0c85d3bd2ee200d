/-
  The page window of a composed query.

  * `readNumber_eq_ok_iff`, `ofParams_eq_ok_iff`, `skip_eq_ok_iff`: when a form
    holds a page window, and which one;
  * `window_of_compose`: a composed query counts, and its window is that of the
    page;
  * `pairwiseDisjoint_rows`, `biUnion_rows`: the rows of the pages of one size;
  * `pages_tile`: pages of one size follow each other without gap or overlap.
-/
import Mathlib.Algebra.Order.Group.Nat
import Mathlib.Control.Monad.Basic
import Mathlib.Order.Interval.Finset.Nat
import TableQuery.Proofs.Compose
import TableQuery.Proofs.Numeral

namespace TableQuery

namespace Page

variable {params : Params} {key : PageKey} {limit current size : Nat} {page : Page}

/-! ## Numbers of a form -/

/-- A form holds a number of 64 bits under a reserved name, as a number or
    written out. -/
inductive Holds (params : Params) (key : PageKey) : Nat → Prop
  | number (n : Fin Number.wordCount)
      (h : Members.get? params key.name = some (.leaf (.scalar (.number (.natural n))))) :
      Holds params key n
  | text {s : String} {n : Nat}
      (h : Members.get? params key.name = some (.leaf (.scalar (.text s)))) (hs : Written s n)
      (hn : n < Number.wordCount) : Holds params key n

theorem readNumber_eq_ok_iff {n : Nat} : readNumber params key = .ok n ↔ Holds params key n := by
  constructor
  · intro h
    unfold readNumber at h
    split at h
    · cases h
    · cases h
    · rename_i x hx
      cases x with
      | natural m =>
        obtain rfl := Except.ok.inj h
        exact .number m hx
      | negative m => cases h
      | double x => cases h
    · rename_i s hs
      split at h
      · rename_i m hm
        obtain rfl := Except.ok.inj h
        obtain ⟨hw, hn⟩ := ofText?_eq_some_iff.1 hm
        exact .text hs hw hn
      · cases h
    · cases h
  · rintro (⟨m, h⟩ | ⟨h, hs, hn⟩)
    · simp [readNumber, h]
    · simp [readNumber, h, ofText?_eq_some_iff.2 ⟨hs, hn⟩]

/-- A form holds one number under a reserved name. -/
theorem Holds.unique {m n : Nat} (hm : Holds params key m) (hn : Holds params key n) : m = n :=
  Except.ok.inj ((readNumber_eq_ok_iff.2 hm).symm.trans (readNumber_eq_ok_iff.2 hn))

/-! ## Page windows of a form -/

/-- A page window depends on the two numbers only. -/
theorem ofParams_of_readNumber {form form' : Params}
    (h : ∀ key, readNumber form key = readNumber form' key) (limit : Nat) :
    ofParams form limit = ofParams form' limit := by
  rw [ofParams, ofParams, h, h]

/-- A form holds the page window of a number and a size, neither of them zero
    and the size up to a limit. -/
structure Valid (params : Params) (limit current size : Nat) : Prop where
  current_eq : Holds params .current current
  size_eq : Holds params .pageSize size
  current_pos : 1 ≤ current
  size_pos : 1 ≤ size
  size_le : size ≤ limit

theorem ofNumbers_eq_ok_iff :
    ofNumbers current size = .ok page ↔ page.current = current ∧ page.size = size := by
  unfold ofNumbers
  constructor
  · intro h
    split_ifs at h
    rw [← Except.ok.inj h]
    exact ⟨rfl, rfl⟩
  · rintro ⟨rfl, rfl⟩
    rw [dif_neg page.current_pos.ne', dif_neg page.size_pos.ne']

theorem ofParams_eq_ok_iff :
    ofParams params limit = .ok page ↔ Valid params limit page.current page.size := by
  simp only [ofParams, bind_eq_ok_iff, readNumber_eq_ok_iff, ofNumbers_eq_ok_iff]
  constructor
  · rintro ⟨_, hc, _, hs, page', ⟨rfl, rfl⟩, h⟩
    split_ifs at h with hl
    · cases h
    · obtain rfl := Except.ok.inj h
      exact ⟨hc, hs, page'.current_pos, page'.size_pos, Nat.le_of_not_lt hl⟩
  · intro h
    refine ⟨_, h.current_eq, _, h.size_eq, page, ⟨rfl, rfl⟩, ?_⟩
    rw [if_neg (Nat.not_lt.2 h.size_le)]
    rfl

theorem Valid.exists_page (h : Valid params limit current size) :
    ∃ page : Page, ofParams params limit = .ok page ∧ page.current = current ∧ page.size = size :=
  ⟨⟨current, size, h.current_pos, h.size_pos⟩, ofParams_eq_ok_iff.2 h, rfl, rfl⟩

theorem skip_eq_ok_iff {rows : Nat} :
    page.skip = .ok rows ↔
      rows = (page.current - 1) * page.size ∧ (page.current - 1) * page.size < Number.wordCount := by
  dsimp only [skip]
  split_ifs with h
  · simp [h, eq_comm]
  · simp [h]

end Page

/-- The rows in the window of a query. -/
def Query.rows (q : Query) : Finset Nat :=
  Finset.Ico q.skip (q.skip + q.top)

/-- The rows of a page are those whose number, divided by the size, is that of
    the pages before. -/
theorem Query.mem_rows_iff {q : Query} {before : Nat} (ht : 1 ≤ q.top)
    (hs : q.skip = before * q.top) {row : Nat} : row ∈ q.rows ↔ row / q.top = before := by
  rw [rows, Finset.mem_Ico, hs, Nat.div_eq_iff ht]
  omega

section
-- the rows of the pages `1` to `n`
variable {n size : Nat} {query : Nat → Query} (h : ∀ k ∈ Finset.Icc 1 n,
  1 ≤ k ∧ 1 ≤ size ∧ ∀ row, row ∈ (query k).rows ↔ row / size = k - 1)
include h

theorem Query.pairwiseDisjoint_rows :
    Set.PairwiseDisjoint (Finset.Icc 1 n : Finset Nat) fun k => (query k).rows := by
  intro j hj k hk hjk
  obtain ⟨hj₁, -, hjr⟩ := h j hj
  obtain ⟨hk₁, -, hkr⟩ := h k hk
  refine Finset.disjoint_left.2 fun row hrj hrk => hjk ?_
  have := (hjr row).1 hrj
  have := (hkr row).1 hrk
  omega

theorem Query.biUnion_rows :
    (Finset.Icc 1 n).biUnion (fun k => (query k).rows) = Finset.range (n * size) := by
  ext row
  simp only [Finset.mem_biUnion, Finset.mem_range]
  constructor
  · rintro ⟨k, hk, hr⟩
    obtain ⟨-, hsize, hkr⟩ := h k hk
    rw [← Nat.div_lt_iff_lt_mul hsize, (hkr row).1 hr]
    have := Finset.mem_Icc.1 hk
    omega
  · intro hrow
    -- the page of a row is the one after as many full pages as fit before it
    have hsize : 0 < size := Nat.pos_of_ne_zero fun e => by simp [e] at hrow
    have hlt : row / size < n := (Nat.div_lt_iff_lt_mul hsize).2 hrow
    have hk : row / size + 1 ∈ Finset.Icc 1 n := Finset.mem_Icc.2 ⟨Nat.le_add_left 1 _, hlt⟩
    exact ⟨_, hk, ((h _ hk).2.2 row).2 rfl⟩

end

namespace Composer

variable {c : Composer} {s : TableReport} {q : Query}

/-- A composed query counts, and its window is that of the page. -/
theorem window_of_compose (h : c.compose s = .ok q) :
    ∃ current, Page.Valid s.params c.config.pageLimit current q.top ∧ q.count = true ∧
      q.skip = (current - 1) * q.top ∧ q.skip < Number.wordCount := by
  obtain ⟨page, base, computed, skip, hp, -, -, hs, rfl⟩ := compose_eq_ok_iff.1 h
  obtain ⟨rfl, hlt⟩ := Page.skip_eq_ok_iff.1 hs
  exact ⟨page.current, Page.ofParams_eq_ok_iff.1 hp, rfl, rfl, hlt⟩

/-- The rows of a page of a form. -/
theorem mem_rows_of_compose (h : c.compose s = .ok q) {current size : Nat}
    (hc : Page.Holds s.params .current current) (hs : Page.Holds s.params .pageSize size) :
    1 ≤ current ∧ 1 ≤ size ∧ ∀ row, row ∈ q.rows ↔ row / size = current - 1 := by
  obtain ⟨current', hv, -, hskip, -⟩ := window_of_compose h
  obtain rfl := hv.current_eq.unique hc
  obtain rfl := hv.size_eq.unique hs
  exact ⟨hv.current_pos, hv.size_pos, fun row => Query.mem_rows_iff hv.size_pos hskip⟩

/-- **The page window is exact.**  A composed query counts; its top is the page
    size, from one up to the limit; and as many rows are skipped as there are
    on the pages before. So the windows of the pages `1` to `n` of one size
    have no row in common, and together they have the first `n` times as many
    rows. -/
theorem pages_tile (c : Composer) :
    (∀ s q, c.compose s = .ok q →
      ∃ current size, Page.Holds s.params .current current ∧ Page.Holds s.params .pageSize size ∧
        q.count = true ∧ q.top = size ∧ 1 ≤ q.top ∧ q.top ≤ c.config.pageLimit ∧ 1 ≤ current ∧
        (q.skip : Int) = ((current : Int) - 1) * size) ∧
    ∀ (n size : Nat) (report : Nat → TableReport) (query : Nat → Query),
      (∀ k ∈ Finset.Icc 1 n, Page.Holds (report k).params .current k ∧
        Page.Holds (report k).params .pageSize size ∧ c.compose (report k) = .ok (query k)) →
      (Set.PairwiseDisjoint (Finset.Icc 1 n : Finset Nat) fun k => (query k).rows) ∧
        (Finset.Icc 1 n).biUnion (fun k => (query k).rows) = Finset.range (n * size) := by
  refine ⟨fun s q h => ?_, fun n size report query h => ?_⟩
  · obtain ⟨current, hv, hcount, hskip, -⟩ := window_of_compose h
    refine ⟨current, q.top, hv.current_eq, hv.size_eq, hcount, rfl, hv.size_pos, hv.size_le,
      hv.current_pos, ?_⟩
    rw [hskip, Int.natCast_mul, Int.natCast_sub hv.current_pos, Int.natCast_one]
  · have hrows : ∀ k ∈ Finset.Icc 1 n,
        1 ≤ k ∧ 1 ≤ size ∧ ∀ row, row ∈ (query k).rows ↔ row / size = k - 1 := by
      intro k hk
      obtain ⟨hc, hs, hq⟩ := h k hk
      exact mem_rows_of_compose hq hc hs
    exact ⟨Query.pairwiseDisjoint_rows hrows, Query.biUnion_rows hrows⟩

/-- A page of two rows, its size written with a sign, a zero and blanks. -/
def pageOfTwo (k : Nat) : TableReport :=
  .ofParams [("pageSize", .leaf (.scalar (.text " +02 "))),
    ("current", .leaf (.scalar (.text (toString k))))]

theorem pages_tile_two :
    (∀ k ∈ Finset.Icc 1 2, Page.Holds (pageOfTwo k).params .current k ∧
        Page.Holds (pageOfTwo k).params .pageSize 2 ∧
        (ofColumns []).compose (pageOfTwo k) = .ok (Query.window 2 ((k - 1) * 2))) ∧
      (Finset.Icc 1 2).biUnion (fun k => (Query.window 2 ((k - 1) * 2)).rows) =
        Finset.range (2 * 2) := by
  have h : ∀ k ∈ Finset.Icc 1 2, Page.Holds (pageOfTwo k).params .current k ∧
      Page.Holds (pageOfTwo k).params .pageSize 2 ∧
      (ofColumns []).compose (pageOfTwo k) = .ok (Query.window 2 ((k - 1) * 2)) := by
    simp only [← Page.readNumber_eq_ok_iff]
    decide +kernel
  exact ⟨h, ((pages_tile (ofColumns [])).2 2 2 pageOfTwo _ h).2⟩

end Composer

end TableQuery
