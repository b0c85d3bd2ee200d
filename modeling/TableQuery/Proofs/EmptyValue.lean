/-
  Empty values of a base query, and what they hide.

  An empty value is no value, but it is the first one under its name all the
  same. Left out, it may uncover a later value.

  * `lookup_of_thinned`: without empty values, a first value that is not empty
    stays the first;
  * `get_thinned_iff`, `parse_thinned_iff`: leaving empty values out changes a
    base query if and only if it uncovers a value that then counts;
  * `parse_shadowed`: such a base query.
-/
import TableQuery.Proofs.FirstValue

namespace TableQuery.BaseQuery

/-- A piece without a value, or without characters. -/
def Valueless (piece : List Char) : Prop :=
  ∀ pair, pair? piece = some pair → pair.2 = ""

/-- The first value under a name was empty and is no longer. -/
def Uncovers (ls ls' : List (List Char)) (name value : String) : Prop :=
  FirstValue ls name "" ∧ FirstValue ls' name value ∧ value ≠ ""

/-! ## First values without empty ones -/

theorem lookup_of_thinned {ps ps' : List (String × String)}
    (h : Thinned (fun p => p.2 = "") ps ps') {name value : String}
    (hv : ps.lookup name = some value) (hne : value ≠ "") : ps'.lookup name = some value := by
  induction h with
  | nil => exact hv
  | keep p _ ih =>
    rw [List.lookup_cons] at hv ⊢
    cases hk : name == p.1 with
    | true => simpa [hk] using hv
    | false => simpa [hk] using ih (by simpa [hk] using hv)
  | @drop p _ _ hp _ ih =>
    rw [List.lookup_cons] at hv
    cases hk : name == p.1 with
    | true => exact absurd (by simpa [hk, hp] using hv.symm) hne
    | false => exact ih (by simpa [hk] using hv)

theorem lookup_eq_none_of_thinned {P : String × String → Prop} {ps ps' : List (String × String)}
    (h : Thinned P ps ps') {name : String} (hn : ps.lookup name = none) :
    ps'.lookup name = none := by
  rw [List.lookup_eq_none_iff] at hn ⊢
  exact fun p hp => hn p (h.mem_of_mem hp)

theorem uncovers_iff {ls ls' : List (List Char)} {name value : String} :
    Uncovers ls ls' name value ↔ (ls.filterMap pair?).lookup name = some "" ∧
      (ls'.filterMap pair?).lookup name = some value ∧ value ≠ "" := by
  rw [Uncovers, firstValue_iff, firstValue_iff]

/-- What is left under a name is what was there, unless a value is uncovered. -/
theorem same_or_uncovers {ls ls' : List (List Char)} (h : Thinned Valueless ls ls')
    (name : String) :
    (nonEmpty ((ls'.filterMap pair?).lookup name) = nonEmpty ((ls.filterMap pair?).lookup name) ∧
      ∀ v, ¬ Uncovers ls ls' name v) ∨ ∃ v, Uncovers ls ls' name v := by
  have ht : Thinned (fun p => p.2 = "") (ls.filterMap pair?) (ls'.filterMap pair?) :=
    (h.filterMap pair?).mono fun p ⟨l, hl, hp⟩ => hl p hp
  by_cases hu : ∃ v, Uncovers ls ls' name v
  · exact Or.inr hu
  · have hno : ∀ v, ¬ Uncovers ls ls' name v := fun v hv => hu ⟨v, hv⟩
    refine Or.inl ⟨?_, hno⟩
    cases hv : (ls.filterMap pair?).lookup name with
    | none => rw [lookup_eq_none_of_thinned ht hv]
    | some v =>
      by_cases he : v = ""
      · subst he
        cases hw : (ls'.filterMap pair?).lookup name with
        | none => rfl
        | some w =>
          by_cases hwe : w = ""
          · rw [hwe]
          · exact absurd (uncovers_iff.2 ⟨hv, hw, hwe⟩) (hno w)
      · rw [lookup_of_thinned ht hv he]

theorem Uncovers.nonEmpty_eq {ls ls' : List (List Char)} {name value : String}
    (h : Uncovers ls ls' name value) :
    nonEmpty ((ls.filterMap pair?).lookup name) = none ∧
      nonEmpty ((ls'.filterMap pair?).lookup name) = some value := by
  obtain ⟨hold, hnew, hne⟩ := uncovers_iff.1 h
  exact ⟨by rw [hold]; rfl, nonEmpty_eq_some_iff.2 ⟨hnew, hne⟩⟩

/-- A value uncovered under the plain name counts, unless the one under the name
    with `$` was the same. -/
theorem Uncovers.get_eq_iff {ls ls' : List (List Char)} {part : Part} {value : String}
    (h : Uncovers ls ls' part.name value) :
    (ofPairs (ls'.filterMap pair?)).get part = (ofPairs (ls.filterMap pair?)).get part ↔
      FirstValue ls ("$" ++ part.name) value := by
  rw [get_ofPairs, get_ofPairs, h.nonEmpty_eq.1, h.nonEmpty_eq.2, Option.some_or, Option.none_or,
    eq_comm, nonEmpty_eq_some_iff, firstValue_iff]
  exact and_iff_left h.2.2

/-- With nothing new under the plain name, a value uncovered under the name with `$`
    counts, unless there is one under the former. -/
theorem get_eq_iff_of_plain {ls ls' : List (List Char)} (h : Thinned Valueless ls ls') {part : Part}
    (hplain : nonEmpty ((ls'.filterMap pair?).lookup part.name) =
      nonEmpty ((ls.filterMap pair?).lookup part.name)) :
    (ofPairs (ls'.filterMap pair?)).get part = (ofPairs (ls.filterMap pair?)).get part ↔
      ∀ v, Uncovers ls ls' ("$" ++ part.name) v → ∃ w, w ≠ "" ∧ FirstValue ls part.name w := by
  simp only [firstValue_iff]
  rw [get_ofPairs, get_ofPairs, hplain]
  rcases same_or_uncovers h ("$" ++ part.name) with ⟨hdollar, hno⟩ | ⟨v, hv⟩
  · exact iff_of_true (by rw [hdollar]) fun v hv => absurd hv (hno v)
  · rw [hv.nonEmpty_eq.1, hv.nonEmpty_eq.2, Option.or_none]
    cases hw : nonEmpty ((ls.filterMap pair?).lookup part.name) with
    | none =>
      refine iff_of_false (by simp) fun hall => ?_
      obtain ⟨w, hne, hl⟩ := hall v hv
      rw [nonEmpty_eq_some_iff.2 ⟨hl, hne⟩] at hw
      cases hw
    | some w =>
      obtain ⟨hl, hne⟩ := nonEmpty_eq_some_iff.1 hw
      exact iff_of_true rfl fun _ _ => ⟨w, hne, hl⟩

/-- A part stays as it was if and only if no value is uncovered that counts for
    it: one under its plain name counts, unless it was there under the name with
    `$`, and one under the latter counts without a value under the former. -/
theorem get_thinned_iff {ls ls' : List (List Char)} (h : Thinned Valueless ls ls') (part : Part) :
    (ofPairs (ls'.filterMap pair?)).get part = (ofPairs (ls.filterMap pair?)).get part ↔
      (∀ v, Uncovers ls ls' part.name v → FirstValue ls ("$" ++ part.name) v) ∧
      ∀ v, Uncovers ls ls' ("$" ++ part.name) v → ∃ w, w ≠ "" ∧ FirstValue ls part.name w := by
  rcases same_or_uncovers h part.name with ⟨hplain, hno⟩ | ⟨v, hv⟩
  · rw [get_eq_iff_of_plain h hplain]
    exact (and_iff_right fun v hv => absurd hv (hno v)).symm
  · rw [hv.get_eq_iff]
    constructor
    · intro hd
      refine ⟨fun v' hv' => ?_, fun w hw => ?_⟩
      · have he := hv.nonEmpty_eq.2.symm.trans hv'.nonEmpty_eq.2
        rw [← Option.some.inj he]
        exact hd
      · -- the first value under the name with `$` is not empty, so it hides none
        have he := (firstValue_iff.1 hd).symm.trans (uncovers_iff.1 hw).1
        exact absurd (Option.some.inj he) hv.2.2
    · rintro ⟨hall, -⟩
      exact hall v hv

/-! ## Base queries without empty values -/

/-- **Empty values of a base query.**  Without some pieces that have no value, a
    base query behind a `?` is still read. It is the same if and only if every
    value uncovered under a plain name was the first under the name with `$`, and
    every one uncovered under the latter stands back behind one under the former;
    in particular if no value is uncovered. -/
theorem parse_thinned_iff {raw : String} {rest : List Char} {base : BaseQuery}
    {ls : List (List Char)} (hraw : raw.toList = '?' :: rest) (hb : parse raw = .ok base)
    (hls : Thinned Valueless (rest.splitOn '&') ls) :
    ∃ base', parse (ofPieces ls) = .ok base' ∧
      (base' = base ↔ ∀ part : Part,
        (∀ v, Uncovers (rest.splitOn '&') ls part.name v →
          FirstValue (rest.splitOn '&') ("$" ++ part.name) v) ∧
        ∀ v, Uncovers (rest.splitOn '&') ls ("$" ++ part.name) v →
          ∃ w, w ≠ "" ∧ FirstValue (rest.splitOn '&') part.name w) ∧
      ((∀ name v, ¬ Uncovers (rest.splitOn '&') ls name v) → base' = base) := by
  have hamp : ∀ l ∈ rest.splitOn '&', '&' ∉ l := fun l hl => (Text.mem_splitOn hl).1
  rw [eq_ofPieces hraw] at hb
  obtain ⟨hs, rfl⟩ := (parse_ofPieces_iff hamp).1 hb
  have hb' : parse (ofPieces ls) = .ok (ofPairs (ls.filterMap pair?)) :=
    (parse_ofPieces_iff fun l hl => hamp l (hls.mem_of_mem hl)).2
      ⟨fun l hl => hs l (hls.mem_of_mem hl), rfl⟩
  have hiff := ext_get.trans (forall_congr' (get_thinned_iff hls))
  refine ⟨_, hb', hiff, fun hno => hiff.2 fun part => ?_⟩
  exact ⟨fun v hv => absurd hv (hno _ v), fun v hv => absurd hv (hno _ v)⟩

theorem valueless_filter : Valueless "filter=".toList := by
  intro pair hp
  have he : pair? "filter=".toList = some ("filter", "") := by decide +kernel
  rw [← Option.some.inj (he.symm.trans hp)]

/-- The value that is uncovered was there before, under the name with `$`. -/
theorem parse_thinned_iff_twice :
    let ls := ["filter=".toList, "filter=a".toList, "%24filter=a".toList]
    parse (ofPieces ls) = .ok ⟨some "a", none, none⟩ ∧ Thinned Valueless ls ls.tail ∧
      Uncovers ls ls.tail "filter" "a" ∧ FirstValue ls "$filter" "a" ∧
      parse (ofPieces ls.tail) = .ok ⟨some "a", none, none⟩ := by
  intro ls
  have hb : parse (ofPieces ls) = .ok ⟨some "a", none, none⟩ := by decide +kernel
  have ht : Thinned Valueless ls ls.tail := .drop valueless_filter (.keep _ (.keep _ .nil))
  have hu : Uncovers ls ls.tail "filter" "a" := uncovers_iff.2 (by decide +kernel)
  have hsplit : (List.intercalate ['&'] ls).splitOn '&' = ls := by decide +kernel
  obtain ⟨base', hb', hiff, -⟩ := parse_thinned_iff String.toList_ofList hb (hsplit.symm ▸ ht)
  rw [hsplit] at hiff
  have hsame : parse (ofPieces ls.tail) = .ok ⟨some "a", none, none⟩ := by decide +kernel
  have hfirst := (hiff.1 (Except.ok.inj (hb'.symm.trans hsame)) .filter).1 "a" hu
  exact ⟨hb, ht, hu, hfirst, hsame⟩

/-- An empty filter before the filter. -/
theorem parse_shadowed :
    "?filter=&filter=a" = ofPieces ["filter=".toList, "filter=a".toList] ∧
      Thinned Valueless ["filter=".toList, "filter=a".toList] ["filter=a".toList] ∧
      ofPieces ["filter=a".toList] = "?filter=a" ∧
      parse "?filter=&filter=a" = .ok ⟨none, none, none⟩ ∧
      parse "?filter=a" = .ok ⟨some "a", none, none⟩ := by
  refine ⟨by decide +kernel, .drop valueless_filter (.keep _ .nil), by decide +kernel, ?_, ?_⟩
  · decide +kernel
  · decide +kernel

end TableQuery.BaseQuery
