/-
  Export links of query strings, and base queries in export links.

  * `kept_eq_filter`: what stays of a query are its pieces, less those of the
    page window;
  * `kept_written`: of a query string the pairs of its texts stay;
  * `strip_queryString`: so a link with a query string loses its page window and
    nothing else;
  * `name_of_isWindowPiece`: a piece of the page window has the same name for
    the reader of base queries, who does not use it;
  * `parse_strip`: so the base query of a link stays the same.
-/
import TableQuery.ExportLink
import TableQuery.Proofs.BaseQuery
import TableQuery.Proofs.QueryString

namespace TableQuery

namespace Query

/-- The query without its page window. -/
def exported (q : Query) : Query :=
  { q with count := false, top := 0, skip := 0 }

/-- The query string without the page window, empty if nothing is left. -/
def exportString (q : Query) (naming : Naming) : String :=
  if q.exported.pairs naming = [] then "" else q.exported.queryString naming

end Query

namespace ExportLink

open Query (piece written)

/-! ## The pieces that stay -/

/-- Whether a name, decoded, is one of the page window. -/
def isWindowName (name : String) : Bool :=
  windowNames.contains (bareName name.toList)

theorem kept_eq_filter (query : List Char) :
    kept query = (BaseQuery.pieces ('?' :: query)).filter fun piece => !isWindowPiece piece := by
  rw [kept, BaseQuery.pieces, List.filter_filter]
  refine List.filter_congr fun piece _ => ?_
  rw [Bool.and_comm]

theorem isWindowPiece_piece (p : String × String) :
    isWindowPiece (piece p) = isWindowName p.1 := by
  simp only [isWindowPiece, Query.cut?_piece, Percent.bytes_encode, Utf8.decode_encode]
  rfl

theorem kept_written (pairs : List (String × String)) :
    kept (written pairs) = (pairs.filter fun p => !isWindowName p.1).map piece := by
  rw [kept_eq_filter, Query.pieces_written, List.filter_map]
  refine congrArg _ (List.filter_congr fun p _ => ?_)
  rw [Function.comp, isWindowPiece_piece]

theorem isWindowName_key (naming : Naming) :
    (∀ name ∈ ["count", "top", "skip"], isWindowName (naming.key name) = true) ∧
      ∀ name ∈ ["filter", "expand", "orderby"], isWindowName (naming.key name) = false := by
  cases naming <;> decide

/-- Pairs of one name stay or go together. -/
theorem filter_eq_ite {key : String} {pairs : List (String × String)}
    (h : ∀ p ∈ pairs, p.1 = key) :
    (pairs.filter fun p => !isWindowName p.1) = if isWindowName key then [] else pairs := by
  split_ifs with hk
  · exact List.filter_eq_nil_iff.2 fun p hp => by simp [h p hp, hk]
  · exact List.filter_eq_self.2 fun p hp => by simp [h p hp, hk]

/-- Of the pairs of a query those that are not of the page window stay. -/
theorem filter_pairs (q : Query) (naming : Naming) :
    ((q.pairs naming).filter fun p => !isWindowName p.1) = q.exported.pairs naming := by
  obtain ⟨hwindow, htexts⟩ := isWindowName_key naming
  simp only [List.forall_mem_cons] at hwindow htexts
  simp only [Query.pairs, List.filter_append]
  rw [filter_eq_ite fun p => Query.fst_of_mem_countPair,
    filter_eq_ite fun p => Query.fst_of_mem_numberPair,
    filter_eq_ite fun p => Query.fst_of_mem_numberPair,
    filter_eq_ite fun p => Query.fst_of_mem_textPair,
    filter_eq_ite fun p => Query.fst_of_mem_textPair,
    filter_eq_ite fun p => Query.fst_of_mem_textPair]
  simp [hwindow, htexts, Query.exported, Query.numberPair]

/-! ## Links and their fragments -/

/-- A fragment as it stands in a link. -/
def fragmentText : Option String → String
  | none => ""
  | some fragment => "#" ++ fragment

theorem strip_eq_stripQuery {link : String} (h : '#' ∉ link.toList) :
    strip link = String.ofList (stripQuery link.toList) := by
  rw [strip, Text.cut?_eq_none_iff.2 h]

theorem strip_append_fragment {head : String} (h : '#' ∉ head.toList) (fragment : Option String) :
    strip (head ++ fragmentText fragment) =
      String.ofList (stripQuery head.toList) ++ fragmentText fragment := by
  cases fragment with
  | none => rw [fragmentText, String.append_empty, String.append_empty, strip_eq_stripQuery h]
  | some fragment =>
    have hc : Text.cut? '#' (head.toList ++ '#' :: fragment.toList) =
        some (head.toList, fragment.toList) := Text.cut?_eq_some_iff.2 ⟨h, rfl⟩
    apply String.toList_inj.1
    simp [strip, fragmentText, hc]

theorem stripQuery_append {base : List Char} (h : '?' ∉ base) (query : List Char) :
    stripQuery (base ++ '?' :: query) =
      base ++ if kept query = [] then [] else '?' :: List.intercalate ['&'] (kept query) := by
  rw [stripQuery, Text.cut?_eq_some_iff.2 ⟨h, rfl⟩]
  simp only
  split_ifs
  · rw [List.append_nil]
  · rfl

/-- Behind a base, a query string loses its page window. -/
theorem stripQuery_queryString (q : Query) (naming : Naming) {base : List Char} (h : '?' ∉ base) :
    stripQuery (base ++ (q.queryString naming).toList) =
      base ++ (q.exportString naming).toList := by
  rw [Query.toList_queryString, stripQuery_append h, kept_written, filter_pairs, Query.exportString]
  by_cases hp : q.exported.pairs naming = []
  · simp [hp]
  · rw [if_neg hp, if_neg (by simpa using hp), Query.toList_queryString, written]

theorem parse?_exportString (q : Query) (naming : Naming) :
    BaseQuery.parse? (some (q.exportString naming)) = .ok q.texts := by
  rw [Query.exportString]
  split_ifs with hp
  · have ht := Query.ofPairs_pairs q.exported naming
    rw [hp] at ht
    exact congrArg Except.ok ht
  · exact Query.parse?_queryString q.exported naming

/-- **Export links of query strings.**  Behind a base without `?` and `#`, and
    before a fragment, a query string loses its page window and nothing else, and
    the texts of the query are read from what is left. -/
theorem strip_queryString (q : Query) (naming : Naming) {base : String}
    (hmark : '?' ∉ base.toList) (hhash : '#' ∉ base.toList) (fragment : Option String) :
    strip (base ++ q.queryString naming ++ fragmentText fragment) =
        base ++ q.exportString naming ++ fragmentText fragment ∧
      BaseQuery.parse? (some (q.exportString naming)) =
        .ok ⟨BaseQuery.nonEmpty q.filter, BaseQuery.nonEmpty q.orderby,
          BaseQuery.nonEmpty q.expand⟩ := by
  refine ⟨?_, parse?_exportString q naming⟩
  have hq : '#' ∉ (base ++ q.queryString naming).toList := by
    rw [String.toList_append, List.mem_append, not_or, Query.toList_queryString]
    refine ⟨hhash, fun h => ?_⟩
    rcases List.mem_cons.1 h with h | h
    · exact absurd h (by decide)
    · exact Query.not_mem_written (by decide) (by decide) (by decide) _ h
  rw [strip_append_fragment hq, String.toList_append, stripQuery_queryString q naming hmark,
    String.ofList_append, String.ofList_toList, String.ofList_toList]

/-- A query whose filter looks like a page window and a fragment. -/
def hostileQuery : Query :=
  { Query.window 10 20 with filter := some "a eq '&top=5#?'", expand := some "" }

theorem strip_queryString_hostile :
    '?' ∉ "/api/rows".toList ∧ '#' ∉ "/api/rows".toList ∧
      hostileQuery.queryString .dollar =
        "?%24count=true&%24top=10&%24skip=20&%24filter=a%20eq%20'%26top%3D5%23%3F'" ∧
      strip ("/api/rows" ++ hostileQuery.queryString .dollar ++ fragmentText (some "?top=1")) =
        "/api/rows" ++ "?%24filter=a%20eq%20'%26top%3D5%23%3F'" ++ fragmentText (some "?top=1") ∧
      BaseQuery.parse? (some "?%24filter=a%20eq%20'%26top%3D5%23%3F'") =
        .ok ⟨some "a eq '&top=5#?'", none, none⟩ := by
  have hmark : '?' ∉ "/api/rows".toList := by decide
  have hhash : '#' ∉ "/api/rows".toList := by decide
  have hq : hostileQuery.queryString .dollar =
      "?%24count=true&%24top=10&%24skip=20&%24filter=a%20eq%20'%26top%3D5%23%3F'" := by
    decide +kernel
  have hs : hostileQuery.exportString .dollar = "?%24filter=a%20eq%20'%26top%3D5%23%3F'" := by
    decide +kernel
  obtain ⟨h, hb⟩ := strip_queryString hostileQuery .dollar hmark hhash (some "?top=1")
  rw [hs] at h hb
  exact ⟨hmark, hhash, hq, h, hb⟩

/-! ## The base query of a link -/

theorem eq_or_eq_of_bareName {name bare : List Char} (h : bareName name = bare) :
    name = bare ∨ name = '$' :: bare := by
  unfold bareName at h
  split at h
  · exact Or.inr (congrArg _ h)
  · exact Or.inl h

/-- No name of the page window has the byte of a `+`. -/
theorem plus_not_mem_encode {name : List Char} (h : windowNames.contains (bareName name) = true) :
    0x2B ∉ Utf8.encode name := by
  have hw : ∀ w ∈ windowNames, 0x2B ∉ Utf8.encode w ∧ 0x2B ∉ Utf8.encode ('$' :: w) := by decide
  obtain ⟨hbare, hdollar⟩ := hw _ (List.contains_iff_mem.1 h)
  rcases eq_or_eq_of_bareName (rfl : bareName name = bareName name) with he | he
  · rw [he]; exact hbare
  · rw [he]; exact hdollar

/-- Both readers find the same name in a piece of the page window: they differ
    about `+`, which no such name has. -/
theorem name_of_isWindowPiece {piece : List Char} {pair : String × String}
    (h : isWindowPiece piece = true) (hr : BaseQuery.readPiece piece = .ok pair) :
    isWindowName pair.1 = true := by
  unfold isWindowPiece at h
  split at h
  · cases h
  · rename_i rawName rawValue hc
    split at h
    · rename_i name hn
      obtain ⟨_, _, name', value, hcut, hn', -, -, rfl⟩ := BaseQuery.readPiece_eq_ok_iff.1 hr
      rw [hc, Option.getD_some] at hcut
      obtain ⟨rfl, rfl⟩ := Prod.mk.inj hcut
      have hbytes := Utf8.decode_eq_ok_iff.1 hn
      have hplus : '+' ∉ rawName := fun hp =>
        plus_not_mem_encode h (hbytes ▸ Percent.plus_mem_bytes hp)
      have hread := ((BaseQuery.decodeText_eq_ok_iff.1 hn').read 0).2
      rw [Percent.spaced_eq_self hplus, hbytes] at hread
      rw [isWindowName, String.toList_ofList, ← Utf8.encode_injective hread]
      exact h
    · cases h

/-- By induction on the pieces, those that stay are read as before, and a name
    that is not of the page window is looked up with the same result. -/
theorem exists_mapM_filter {ps : List (List Char)} {pairs : List (String × String)}
    (h : ps.mapM BaseQuery.readPiece = .ok pairs) :
    ∃ left, (ps.filter fun piece => !isWindowPiece piece).mapM BaseQuery.readPiece = .ok left ∧
      ∀ name, isWindowName name = false → left.lookup name = pairs.lookup name := by
  induction ps generalizing pairs with
  | nil => exact ⟨pairs, h, fun _ _ => rfl⟩
  | cons piece ps ih =>
    obtain ⟨⟨key, value⟩, rest, hp, hrest, rfl⟩ := mapM_cons_eq_ok_iff.1 h
    obtain ⟨left, hleft, hlookup⟩ := ih hrest
    by_cases hw : isWindowPiece piece = true
    · refine ⟨left, by simpa [hw] using hleft, fun name hn => ?_⟩
      have hne : name ≠ key := by
        rintro rfl
        rw [name_of_isWindowPiece hw hp] at hn
        cases hn
      rw [List.lookup_cons, beq_false_of_ne hne]
      exact hlookup name hn
    · refine ⟨(key, value) :: left, ?_, fun name hn => ?_⟩
      · rw [List.filter_cons_of_pos (by simpa using hw)]
        exact mapM_cons_eq_ok_iff.2 ⟨_, left, hp, hleft, rfl⟩
      · rw [List.lookup_cons, List.lookup_cons, hlookup name hn]

/-- The names of the page window take no part in a base query. -/
theorem ofPairs_congr {left pairs : List (String × String)}
    (h : ∀ name, isWindowName name = false → left.lookup name = pairs.lookup name) :
    BaseQuery.ofPairs left = BaseQuery.ofPairs pairs := by
  simp only [BaseQuery.ofPairs, BaseQuery.part, h "filter" (by decide), h "orderby" (by decide),
    h "expand" (by decide), h ("$" ++ "filter") (by decide), h ("$" ++ "orderby") (by decide),
    h ("$" ++ "expand") (by decide)]

/-! ## Pieces of a stripped link -/

/-- A mark in front changes no pieces, unless there is one already. -/
theorem pieces_mark {cs : List Char} (h : '?' ∉ cs) :
    BaseQuery.pieces ('?' :: cs) = BaseQuery.pieces cs := by
  cases cs with
  | nil => rfl
  | cons c cs =>
    have hc : c ≠ '?' := fun e => h (e ▸ List.mem_cons_self)
    simp [BaseQuery.pieces, hc]

theorem mem_of_mem_kept {query piece : List Char} (h : piece ∈ kept query) :
    '&' ∉ piece ∧ piece ≠ [] ∧ ∀ c ∈ piece, c ∈ query := by
  obtain ⟨hs, hp⟩ := List.mem_filter.1 h
  obtain ⟨hamp, hsub⟩ := Text.mem_splitOn hs
  simp only [Bool.and_eq_true, decide_eq_true_eq] at hp
  exact ⟨hamp, hp.1, hsub⟩

/-- Joined again, the pieces that stay are found behind a mark. -/
theorem pieces_kept (query : List Char) :
    BaseQuery.pieces ('?' :: List.intercalate ['&'] (kept query)) = kept query :=
  Query.pieces_intercalate_of_ne_nil fun _ hp =>
    ⟨(mem_of_mem_kept hp).1, (mem_of_mem_kept hp).2.1⟩

/-- A link that is a query string, with or without its mark, keeps its pieces but
    those of the page window. -/
theorem pieces_stripQuery {link : List Char} (h : '?' ∉ link ∨ ∃ query, link = '?' :: query) :
    BaseQuery.pieces (stripQuery link) =
      (BaseQuery.pieces link).filter fun piece => !isWindowPiece piece := by
  rcases h with h | ⟨query, rfl⟩
  · have hk : '?' ∉ List.intercalate ['&'] (kept link) := by
      intro hc
      rcases Query.mem_intercalate hc with hc | ⟨piece, hp, hc⟩
      · exact absurd hc (by decide)
      · exact h ((mem_of_mem_kept hp).2.2 _ hc)
    have hs : stripQuery link = List.intercalate ['&'] (kept link) := by
      rw [stripQuery, Text.cut?_eq_none_iff.2 h]
    rw [hs, ← pieces_mark hk, pieces_kept, kept_eq_filter, pieces_mark h]
  · have hs : stripQuery ([] ++ '?' :: query) = _ := stripQuery_append List.not_mem_nil query
    rw [List.nil_append, List.nil_append] at hs
    rw [hs, ← kept_eq_filter]
    split_ifs with hk
    · rw [hk]; decide
    · exact pieces_kept query

/-- **The base query of an export link.**  A text without `#` that has no `?`, or
    begins with one, and is read as a base query is read as the same base query
    without its page window. -/
theorem parse_strip {raw : String} {base : BaseQuery} (hhash : '#' ∉ raw.toList)
    (hmark : '?' ∉ raw.toList ∨ ∃ query, raw.toList = '?' :: query)
    (h : BaseQuery.parse raw = .ok base) : BaseQuery.parse (strip raw) = .ok base := by
  rw [BaseQuery.parse] at h ⊢
  cases hp : (BaseQuery.pieces raw.toList).mapM BaseQuery.readPiece with
  | error fault => rw [hp] at h; cases h
  | ok pairs =>
    obtain ⟨left, hleft, hlookup⟩ := exists_mapM_filter hp
    rw [strip_eq_stripQuery hhash, String.toList_ofList, pieces_stripQuery hmark, hleft]
    rw [hp] at h
    rw [← h]
    exact congrArg Except.ok (ofPairs_congr hlookup)

/-- A base query with parameters of the page window and names that resemble them. -/
def windowedQuery : String :=
  "?%24top=5&filter=a%3D1&&s%6Bip=2&%2524count=1&top&skip+=3&$filter=b"

theorem parse_strip_windowed :
    '#' ∉ windowedQuery.toList ∧ (∃ query, windowedQuery.toList = '?' :: query) ∧
      BaseQuery.parse windowedQuery = .ok ⟨some "a=1", none, none⟩ ∧
      strip windowedQuery = "?filter=a%3D1&%2524count=1&top&skip+=3&$filter=b" ∧
      BaseQuery.parse (strip windowedQuery) = .ok ⟨some "a=1", none, none⟩ := by
  have hhash : '#' ∉ windowedQuery.toList := by decide +kernel
  have hmark : ∃ query, windowedQuery.toList = '?' :: query := ⟨_, rfl⟩
  have hb : BaseQuery.parse windowedQuery = .ok ⟨some "a=1", none, none⟩ := by decide +kernel
  have hs : strip windowedQuery = "?filter=a%3D1&%2524count=1&top&skip+=3&$filter=b" := by
    decide +kernel
  exact ⟨hhash, hmark, hb, hs, parse_strip hhash (Or.inr hmark) hb⟩

end ExportLink

end TableQuery
