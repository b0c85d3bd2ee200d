/-
  Export links, by the parts of a link.

  A link is what stands before its first `?`, its query, and its fragment; every
  text is a link in one way.

  * `isWindowPiece_iff`: the pieces of a query that are removed are those whose
    name, in any spelling, is one of the page window;
  * `Link.strip_url`: a stripped link has the same parts, with the other pieces
    that are not empty for its query;
  * `strip_parts`: so nothing else is removed, and a link without such pieces
    stays as it is;
  * `strip_strip_ne_iff`: stripping again changes a link only if nothing of its
    query was left, and what stood before the `?` is then taken for a query.
-/
import TableQuery.Proofs.Decode
import TableQuery.Proofs.ExportLink

namespace TableQuery.ExportLink

open Percent (Spelling)

/-! ## Pairs of the page window -/

/-- The names of the page window, with and without a `$`. -/
def windowKeys : List (List Char) :=
  windowNames ++ windowNames.map ('$' :: ·)

/-- A piece of a query with a name, up to its first `=`, that spells one of the page
    window. -/
def IsWindowPair (piece : List Char) : Prop :=
  ∃ rawName value name, '=' ∉ rawName ∧ piece = rawName ++ '=' :: value ∧
    name ∈ windowKeys ∧ Spelling name rawName

theorem contains_bareName_iff {name : List Char} :
    windowNames.contains (bareName name) = true ↔ name ∈ windowKeys := by
  rw [List.contains_iff_mem, windowKeys, List.mem_append, List.mem_map]
  constructor
  · intro h
    rcases eq_or_eq_of_bareName (rfl : bareName name = bareName name) with he | he
    · exact Or.inl (he ▸ h)
    · exact Or.inr ⟨bareName name, h, he.symm⟩
  · rintro (h | ⟨bare, h, rfl⟩)
    · have hw : ∀ w ∈ windowNames, bareName w = w := by decide
      rwa [hw name h]
    · exact h

/-- No name of the page window has a `%`, a `+` or a space, so that it does not
    matter how a reader takes these. -/
theorem decode_bytes_iff_spelling {name rawName : List Char} (h : name ∈ windowKeys) :
    Utf8.decode (Percent.bytes rawName) = .ok name ↔ Spelling name rawName := by
  have hk : ∀ key ∈ windowKeys,
      0x25 ∉ Utf8.encode key ∧ 0x2B ∉ Utf8.encode key ∧ 0x20 ∉ Utf8.encode key := by decide
  obtain ⟨hpercent, hplus, hspace⟩ := hk name h
  rw [Utf8.decode_eq_ok_iff, Percent.bytes_eq_iff_spells hpercent hplus hspace,
    Percent.spelling_iff_spells]

theorem isWindowPiece_eq_true_iff {piece : List Char} :
    isWindowPiece piece = true ↔ ∃ rawName value name,
      Text.cut? '=' piece = some (rawName, value) ∧
      Utf8.decode (Percent.bytes rawName) = .ok name ∧ name ∈ windowKeys := by
  simp only [← contains_bareName_iff]
  unfold isWindowPiece
  split
  · rename_i hc
    simp [hc]
  · rename_i rawName value hc
    split <;> rename_i hd <;> simp [hc, hd]

theorem isWindowPiece_iff {piece : List Char} :
    isWindowPiece piece = true ↔ IsWindowPair piece := by
  rw [isWindowPiece_eq_true_iff]
  constructor
  · rintro ⟨rawName, value, name, hc, hd, hk⟩
    obtain ⟨hn, hp⟩ := Text.cut?_eq_some_iff.1 hc
    exact ⟨rawName, value, name, hn, hp, hk, (decode_bytes_iff_spelling hk).1 hd⟩
  · rintro ⟨rawName, value, name, hn, hp, hk, hs⟩
    exact ⟨rawName, value, name, Text.cut?_eq_some_iff.2 ⟨hn, hp⟩,
      (decode_bytes_iff_spelling hk).2 hs, hk⟩

instance : DecidablePred IsWindowPair := fun _ =>
  decidable_of_iff _ isWindowPiece_iff

/-- The strict reader of names finds the same pairs. -/
theorem isWindowPair_iff {piece : List Char} :
    IsWindowPair piece ↔ ∃ rawName value name, Text.cut? '=' piece = some (rawName, value) ∧
      BaseQuery.decodeText rawName = .ok name ∧ name ∈ windowKeys := by
  simp only [IsWindowPair, Text.cut?_eq_some_iff, BaseQuery.decodeText_eq_ok_iff,
    Percent.spelling_iff_spells]
  constructor
  · rintro ⟨rawName, value, name, hn, hp, hk, hs⟩
    exact ⟨rawName, value, name, ⟨hn, hp⟩, hs, hk⟩
  · rintro ⟨rawName, value, name, ⟨hn, hp⟩, hs, hk⟩
    exact ⟨rawName, value, name, hn, hp, hk, hs⟩

/-! ## The parts of a link -/

/-- A query behind a base and its mark, or a bare one. -/
def withQuery : Option (List Char) → List Char → List Char
  | none, query => query
  | some base, query => base ++ '?' :: query

theorem withQuery_injective {base : Option (List Char)} : Function.Injective (withQuery base) := by
  intro query query' h
  cases base with
  | none => exact h
  | some base => exact (List.cons.inj (List.append_cancel_left h)).2

theorem mem_withQuery_of_imp {base : Option (List Char)} {query query' : List Char} {c : Char}
    (h : c ∈ query' → c ∈ query) (hc : c ∈ withQuery base query') : c ∈ withQuery base query := by
  cases base with
  | none => exact h hc
  | some base =>
    simp only [withQuery, List.mem_append, List.mem_cons] at hc ⊢
    exact hc.imp_right (Or.imp_right h)

/-- A link, cut at its first `#` and, before that, at its first `?`. -/
@[ext]
structure Link where
  /-- What stands before the `?`, if there is one. -/
  base : Option (List Char)
  query : List Char
  fragment : Option String
  not_mem_base : ∀ cs ∈ base, '?' ∉ cs
  not_mem_query : base = none → '?' ∉ query
  hash_not_mem : '#' ∉ withQuery base query

namespace Link

/-- What stands before the fragment. -/
def head (link : Link) : List Char :=
  withQuery link.base link.query

def url (link : Link) : String :=
  String.ofList link.head ++ fragmentText link.fragment

theorem cut?_head (link : Link) :
    Text.cut? '?' link.head = link.base.map fun base => (base, link.query) := by
  rw [head]
  cases hb : link.base with
  | none => exact Text.cut?_eq_none_iff.2 (link.not_mem_query hb)
  | some base => exact Text.cut?_eq_some_iff.2 ⟨link.not_mem_base base hb, rfl⟩

theorem cut?_url (link : Link) :
    Text.cut? '#' link.url.toList =
      link.fragment.map fun fragment => (link.head, fragment.toList) := by
  cases hf : link.fragment with
  | none =>
    have ht : link.url.toList = link.head := by simp [url, hf, fragmentText]
    rw [ht]
    exact Text.cut?_eq_none_iff.2 link.hash_not_mem
  | some fragment =>
    exact Text.cut?_eq_some_iff.2 ⟨link.hash_not_mem, by simp [url, hf, fragmentText]⟩

/-- The parts are read off again at the first `#` and the first `?`. -/
theorem url_injective : Function.Injective Link.url := by
  intro link link' h
  have hcut := link.cut?_url.symm.trans (h ▸ link'.cut?_url)
  have hfragment : link.fragment = link'.fragment := by
    have hmap := congrArg (Option.map Prod.snd) hcut
    simp only [Option.map_map, Function.comp_def] at hmap
    exact Option.map_injective (fun _ _ => String.toList_inj.1) hmap
  have hhead : link.head = link'.head := by
    rw [url, url, hfragment] at h
    exact String.ofList_inj.1 ((String.append_left_inj _).1 h)
  have hbase : link.base = link'.base := by
    have hcut := link.cut?_head.symm.trans (hhead ▸ link'.cut?_head)
    have hmap := congrArg (Option.map Prod.fst) hcut
    simpa only [Option.map_map, Function.comp_def, Option.map_id'] using hmap
  have hquery : link.query = link'.query := by
    rw [head, head, hbase] at hhead
    exact withQuery_injective hhead
  exact Link.ext hbase hquery hfragment

/-- What holds of some link of a text holds of the link. -/
theorem exists_url_eq_iff {link : Link} {P : Link → Prop} :
    (∃ other : Link, other.url = link.url ∧ P other) ↔ P link := by
  constructor
  · rintro ⟨other, he, h⟩
    rwa [← url_injective he]
  · intro h
    exact ⟨link, rfl, h⟩

theorem exists_head {cs : List Char} (h : '#' ∉ cs) (fragment : Option String) :
    ∃ link : Link, link.head = cs ∧ link.fragment = fragment := by
  cases hc : Text.cut? '?' cs with
  | none =>
    exact ⟨⟨none, cs, fragment, by simp, fun _ => Text.cut?_eq_none_iff.1 hc, h⟩, rfl, rfl⟩
  | some parts =>
    obtain ⟨base, query⟩ := parts
    obtain ⟨hb, rfl⟩ := Text.cut?_eq_some_iff.1 hc
    exact ⟨⟨some base, query, fragment, by simpa using hb, by simp, h⟩, rfl, rfl⟩

theorem exists_url (text : String) : ∃ link : Link, link.url = text := by
  cases hc : Text.cut? '#' text.toList with
  | none =>
    obtain ⟨link, hh, hf⟩ := exists_head (Text.cut?_eq_none_iff.1 hc) none
    refine ⟨link, String.toList_inj.1 ?_⟩
    simp [url, hh, hf, fragmentText]
  | some parts =>
    obtain ⟨cs, fragment⟩ := parts
    obtain ⟨hn, ht⟩ := Text.cut?_eq_some_iff.1 hc
    obtain ⟨link, hh, hf⟩ := exists_head hn (some (String.ofList fragment))
    refine ⟨link, String.toList_inj.1 ?_⟩
    simp [url, hh, hf, fragmentText, ht]

/-- The pieces of the query that are not empty and no pairs of the page window. -/
def left (link : Link) : List (List Char) :=
  (link.query.splitOn '&').filter fun piece => piece ≠ [] ∧ ¬ IsWindowPair piece

theorem left_eq_kept (link : Link) : link.left = kept link.query := by
  refine List.filter_congr fun piece _ => ?_
  rw [Bool.eq_iff_iff]
  simp [← isWindowPiece_iff]

/-- What stands before the fragment of a stripped link. -/
def rest (link : Link) : List Char :=
  if link.left = [] then link.base.getD []
  else withQuery link.base (List.intercalate ['&'] link.left)

theorem stripQuery_head (link : Link) : stripQuery link.head = link.rest := by
  rw [stripQuery, cut?_head, rest, left_eq_kept]
  cases hb : link.base with
  | some base => rfl
  | none =>
    simp only [head, hb, withQuery, Option.map_none, Option.getD_none]
    split_ifs with hk
    · rw [hk]
      rfl
    · rfl

theorem strip_url (link : Link) :
    strip link.url = String.ofList link.rest ++ fragmentText link.fragment := by
  have h : '#' ∉ (String.ofList link.head).toList := by
    rw [String.toList_ofList]
    exact link.hash_not_mem
  rw [url, strip_append_fragment h, String.toList_ofList, stripQuery_head]

/-! ## What stays as it is -/

/-- No piece of the query is empty or a pair of the page window. -/
def IsClean (link : Link) : Prop :=
  ∀ piece ∈ link.query.splitOn '&', piece ≠ [] ∧ ¬ IsWindowPair piece

theorem mem_left_iff {link : Link} {piece : List Char} :
    piece ∈ link.left ↔ piece ∈ link.query.splitOn '&' ∧ piece ≠ [] ∧ ¬ IsWindowPair piece := by
  simp [left]

theorem left_eq_splitOn_iff {link : Link} :
    link.left = link.query.splitOn '&' ↔ link.IsClean := by
  simp [left, IsClean, List.filter_eq_self]

theorem IsClean.left_ne_nil {link : Link} (h : link.IsClean) : link.left ≠ [] := by
  rw [left_eq_splitOn_iff.2 h]
  exact List.splitOn_ne_nil _ _

theorem splitOn_intercalate_left {link : Link} (h : link.left ≠ []) :
    (List.intercalate ['&'] link.left).splitOn '&' = link.left :=
  List.splitOn_intercalate '&' (fun _ hp => (Text.mem_splitOn (mem_left_iff.1 hp).1).1) h

theorem intercalate_left_eq_iff {link : Link} (h : link.left ≠ []) :
    List.intercalate ['&'] link.left = link.query ↔ link.IsClean := by
  rw [← left_eq_splitOn_iff]
  constructor
  · intro he
    rw [← splitOn_intercalate_left h, he]
  · intro he
    rw [he, List.intercalate_splitOn]

theorem head_ne_nil {link : Link} (h : link.left ≠ []) : link.head ≠ [] := by
  intro hh
  rw [head] at hh
  cases hb : link.base with
  | some base => simp [hb, withQuery] at hh
  | none =>
    rw [hb, withQuery] at hh
    refine h (List.eq_nil_iff_forall_not_mem.2 fun piece hp => ?_)
    obtain ⟨hs, hne, -⟩ := mem_left_iff.1 hp
    rw [hh] at hs
    exact hne (by simpa using hs)

/-- Where no piece stays, the mark does not stay either, and of a bare query nothing. -/
theorem rest_eq_head_iff {link : Link} : link.rest = link.head ↔ link.head = [] ∨ link.IsClean := by
  rw [rest]
  split_ifs with hl
  · have hc : ¬ link.IsClean := fun hc => hc.left_ne_nil hl
    rw [head]
    cases link.base <;> simp [withQuery, hc, eq_comm]
  · rw [head, withQuery_injective.eq_iff, intercalate_left_eq_iff hl]
    exact (or_iff_right (head_ne_nil hl)).symm

theorem strip_url_eq_iff {link : Link} :
    strip link.url = link.url ↔ link.head = [] ∨ link.IsClean := by
  rw [strip_url, url, String.append_left_inj, String.ofList_inj, rest_eq_head_iff]

/-! ## Stripping again -/

theorem mem_intercalate_left {link : Link} {c : Char}
    (h : c ∈ List.intercalate ['&'] link.left) : c = '&' ∨ c ∈ link.query := by
  rcases Query.mem_intercalate h with h | ⟨piece, hp, hc⟩
  · exact Or.inl h
  · exact Or.inr ((Text.mem_splitOn (mem_left_iff.1 hp).1).2 c hc)

/-- The link with the pieces that stay for its query. -/
def stripped (link : Link) : Link where
  base := link.base
  query := List.intercalate ['&'] link.left
  fragment := link.fragment
  not_mem_base := link.not_mem_base
  not_mem_query hb hm := link.not_mem_query hb ((mem_intercalate_left hm).resolve_left (by decide))
  hash_not_mem hm :=
    link.hash_not_mem (mem_withQuery_of_imp
      (fun hc => (mem_intercalate_left hc).resolve_left (by decide)) hm)

theorem strip_url_of_left {link : Link} (h : link.left ≠ []) :
    strip link.url = link.stripped.url := by
  rw [strip_url, rest, if_neg h]
  rfl

theorem isClean_stripped {link : Link} (h : link.left ≠ []) : link.stripped.IsClean := by
  intro piece hp
  rw [stripped, splitOn_intercalate_left h] at hp
  exact (mem_left_iff.1 hp).2

/-- Where a piece stays, the stripped link is clean. -/
theorem strip_strip_url {link : Link} (h : link.left ≠ []) :
    strip (strip link.url) = strip link.url := by
  rw [strip_url_of_left h]
  exact strip_url_eq_iff.2 (Or.inr (isClean_stripped h))

theorem strip_url_of_left_eq_nil {link : Link} (h : link.left = []) :
    strip link.url = String.ofList (link.base.getD []) ++ fragmentText link.fragment := by
  rw [strip_url, rest, if_pos h]

theorem hash_not_mem_base (link : Link) : '#' ∉ (String.ofList (link.base.getD [])).toList := by
  rw [String.toList_ofList]
  intro hm
  refine link.hash_not_mem ?_
  cases hb : link.base with
  | none => simp [hb] at hm
  | some base =>
    rw [hb] at hm
    exact List.mem_append_left _ hm

/-- Where no piece stays, what stood before the mark is stripped next, as if alone. -/
theorem strip_strip_url_iff {link : Link} (h : link.left = []) :
    strip (strip link.url) = strip link.url ↔
      strip (String.ofList (link.base.getD [])) = String.ofList (link.base.getD []) := by
  rw [strip_url_of_left_eq_nil h, strip_append_fragment link.hash_not_mem_base,
    strip_eq_stripQuery link.hash_not_mem_base, String.append_left_inj]

end Link

/-! ## Outcomes -/

/-- **What a stripped link keeps.**  A text is a link in one way. Stripped, it keeps what
    stands before the `?`, its fragment, and of its query every piece that is not
    empty and no pair of the page window, in order and joined by `&`; a `?` is kept
    if and only if one of them is left. It stays as it is if and only if nothing
    stands before the fragment, or no piece is empty or such a pair. A pair is one of
    the page window if its name is decoded to one of the names: names that resemble
    them, that are encoded twice or that cannot be decoded do not count. -/
theorem strip_parts (text : String) :
    (∀ piece, IsWindowPair piece ↔ ∃ rawName value name,
      Text.cut? '=' piece = some (rawName, value) ∧
        BaseQuery.decodeText rawName = .ok name ∧ name ∈ windowKeys) ∧
    ∃ link : Link, (∀ other : Link, other.url = text ↔ other = link) ∧
      strip text =
        String.ofList (if link.left = [] then link.base.getD []
          else withQuery link.base (List.intercalate ['&'] link.left)) ++
          fragmentText link.fragment ∧
      (strip text = text ↔ link.head = [] ∨
        ∀ piece ∈ link.query.splitOn '&', piece ≠ [] ∧ ¬ IsWindowPair piece) := by
  obtain ⟨link, rfl⟩ := Link.exists_url text
  refine ⟨fun _ => isWindowPair_iff, link, fun other => ?_, link.strip_url, Link.strip_url_eq_iff⟩
  exact Link.url_injective.eq_iff

example : strip "/x?stop=1&%2574op=2&top&%zz=3&%FFtop=4&&%24t%6fp=5#a?top=6" =
    "/x?stop=1&%2574op=2&top&%zz=3&%FFtop=4#a?top=6" := by
  decide +kernel

/-- **When stripping again changes a link.**  If and only if it has a `?`, nothing of its
    query is left, and what stands before the `?` is changed when it is stripped by
    itself: without the mark it is taken for a query. -/
theorem strip_strip_ne_iff (text : String) :
    strip (strip text) ≠ strip text ↔ ∃ link : Link, link.url = text ∧ link.left = [] ∧
      ∃ base, link.base = some base ∧ strip (String.ofList base) ≠ String.ofList base := by
  obtain ⟨link, rfl⟩ := Link.exists_url text
  rw [Link.exists_url_eq_iff]
  by_cases hl : link.left = []
  · rw [Ne, Link.strip_strip_url_iff hl]
    have hnil : strip (String.ofList []) = String.ofList [] := by decide
    cases link.base with
    | none => simp [hnil]
    | some base => simp [hl]
  · simp [Link.strip_strip_url hl, hl]

example : strip "a&&b?top=1" = "a&&b" ∧ strip "a&&b" = "a&b" := by
  decide +kernel

end TableQuery.ExportLink
