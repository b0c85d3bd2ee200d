/-
  The query string read back.

  The names and values of a query string stand in it encoded, so neither `&`
  nor `=` is found in them, and cutting gives back what was joined.

  * `readPiece_piece`, `pieces_written`: one pair, and all of them;
  * `ofPairs_pairs`: of the pairs, the texts of the query are found again, in
    either naming;
  * `parse?_queryString`: the base query of a query string holds the texts of
    the query;
  * `queryString_read_back`: the characters of a query string, its pairs and
    its base query.
-/
import Mathlib.Data.List.Forall2
import TableQuery.Proofs.BaseQuery
import TableQuery.Query

namespace TableQuery

namespace Query

/-! ## One pair -/

theorem mem_piece {p : String × String} {c : Char} (h : c ∈ piece p) :
    Percent.isEncoded c = true ∨ c = '=' := by
  simp only [piece, List.mem_append, List.mem_cons] at h
  rcases h with h | h | h
  · exact Or.inl (Percent.isEncoded_of_mem_encode h)
  · exact Or.inr h
  · exact Or.inl (Percent.isEncoded_of_mem_encode h)

theorem piece_ne_nil (p : String × String) : piece p ≠ [] := by
  simp [piece]

theorem amp_not_mem_piece (p : String × String) : '&' ∉ piece p := by
  intro h
  rcases mem_piece h with h | h <;> exact absurd h (by decide)

/-- The first `=` of a written pair is the one between its name and value. -/
theorem cut?_piece (p : String × String) :
    Text.cut? '=' (piece p) = some (Percent.encode p.1.toList, Percent.encode p.2.toList) :=
  Text.cut?_eq_some_iff.2 ⟨Percent.not_mem_encode (by decide) _, rfl⟩

theorem piece_injective {p p' : String × String} (h : piece p = piece p') : p = p' := by
  have hc := cut?_piece p
  rw [h, cut?_piece] at hc
  obtain ⟨hn, hv⟩ := Prod.mk.inj (Option.some.inj hc)
  exact Prod.ext (String.toList_inj.1 (Percent.encode_injective hn.symm))
    (String.toList_inj.1 (Percent.encode_injective hv.symm))

theorem decodeText_encode (cs : List Char) : BaseQuery.decodeText (Percent.encode cs) = .ok cs := by
  rw [BaseQuery.decodeText, Percent.decode_encode]
  rfl

theorem readPiece_piece {p : String × String} (h : p.1 ≠ "") :
    BaseQuery.readPiece (piece p) = .ok p := by
  have hn : p.1.toList ≠ [] := fun e => h (String.toList_eq_nil_iff.1 e)
  simp only [BaseQuery.readPiece, cut?_piece, Option.getD_some, decodeText_encode]
  simp [bind, Except.bind, pure, Except.pure, hn]

/-! ## All pairs -/

/-- What follows the `?` of a query string. -/
def written (pairs : List (String × String)) : List Char :=
  List.intercalate ['&'] (pairs.map piece)

theorem toList_queryString (q : Query) (naming : Naming) :
    (q.queryString naming).toList = '?' :: written (q.pairs naming) := by
  rw [queryString, String.toList_ofList, written]

theorem splitOn_written {pairs : List (String × String)} (h : pairs ≠ []) :
    (written pairs).splitOn '&' = pairs.map piece := by
  refine List.splitOn_intercalate '&' (fun l hl => ?_) (by simpa using h)
  obtain ⟨p, -, rfl⟩ := List.mem_map.1 hl
  exact amp_not_mem_piece p

theorem mem_intercalate {d c : Char} {ls : List (List Char)} (h : c ∈ List.intercalate [d] ls) :
    c = d ∨ ∃ l ∈ ls, c ∈ l := by
  induction ls with
  | nil => simp at h
  | cons l ls ih =>
    cases ls with
    | nil => exact Or.inr ⟨l, by simp, by simpa using h⟩
    | cons m ls =>
      rw [List.intercalate_cons_cons, List.append_assoc, List.mem_append] at h
      rcases h with h | h
      · exact Or.inr ⟨l, by simp, h⟩
      · rcases List.mem_cons.1 h with h | h
        · exact Or.inl h
        · obtain h | ⟨l', hl', hc⟩ := ih h
          · exact Or.inl h
          · exact Or.inr ⟨l', List.mem_cons_of_mem _ hl', hc⟩

theorem mem_written {pairs : List (String × String)} {c : Char} (h : c ∈ written pairs) :
    Percent.isEncoded c = true ∨ c = '=' ∨ c = '&' := by
  obtain h | ⟨l, hl, hc⟩ := mem_intercalate h
  · exact Or.inr (Or.inr h)
  · obtain ⟨p, -, rfl⟩ := List.mem_map.1 hl
    exact (mem_piece hc).imp_right Or.inl

theorem not_mem_written {c : Char} (h : Percent.isEncoded c = false) (heq : c ≠ '=')
    (hamp : c ≠ '&') (pairs : List (String × String)) : c ∉ written pairs := by
  intro hc
  rcases mem_written hc with he | rfl | rfl
  · rw [he] at h
    cases h
  · exact heq rfl
  · exact hamp rfl

theorem isBlank_of_mem_written {pairs : List (String × String)} {c : Char} (h : c ∈ written pairs) :
    Text.isBlank c = false := by
  rcases mem_written h with h | rfl | rfl
  · exact Percent.isBlank_of_isEncoded h
  · decide
  · decide

/-- Nothing is trimmed from a query string. -/
theorem trim_query (pairs : List (String × String)) :
    Text.trim ('?' :: written pairs) = '?' :: written pairs := by
  have hb : ∀ c ∈ '?' :: written pairs, Text.isBlank c = false := by
    intro c hc
    rcases List.mem_cons.1 hc with rfl | hc
    · decide
    · exact isBlank_of_mem_written hc
  exact Text.trim_eq_self_of_forall hb

/-- Pieces that are joined behind a `?` are all found again, as none is empty. -/
theorem pieces_intercalate_of_ne_nil {ls : List (List Char)} (h : ∀ l ∈ ls, '&' ∉ l ∧ l ≠ []) :
    BaseQuery.pieces ('?' :: List.intercalate ['&'] ls) = ls := by
  rw [BaseQuery.pieces_intercalate fun l hl => (h l hl).1]
  exact List.filter_eq_self.2 fun l hl => by simp [(h l hl).2]

theorem pieces_written (pairs : List (String × String)) :
    BaseQuery.pieces ('?' :: written pairs) = pairs.map piece := by
  refine pieces_intercalate_of_ne_nil fun l hl => ?_
  obtain ⟨p, -, rfl⟩ := List.mem_map.1 hl
  exact ⟨amp_not_mem_piece p, piece_ne_nil p⟩

/-- A query string determines its pairs. -/
theorem written_injective {pairs pairs' : List (String × String)}
    (h : written pairs = written pairs') : pairs = pairs' := by
  have hp := pieces_written pairs
  rw [h, pieces_written] at hp
  exact (List.map_injective_iff.2 fun _ _ => piece_injective) hp.symm

theorem parse_written {pairs : List (String × String)} (h : ∀ p ∈ pairs, p.1 ≠ "") :
    BaseQuery.parse (String.ofList ('?' :: written pairs)) = .ok (BaseQuery.ofPairs pairs) := by
  have hm : ∀ {ps : List (String × String)}, (∀ p ∈ ps, p.1 ≠ "") →
      (ps.map piece).mapM BaseQuery.readPiece = .ok ps := by
    intro ps hps
    induction ps with
    | nil => rfl
    | cons p ps ih =>
      obtain ⟨hp, hps⟩ := List.forall_mem_cons.1 hps
      exact mapM_cons_eq_ok_iff.2 ⟨p, ps, readPiece_piece hp, ih hps, rfl⟩
  rw [BaseQuery.parse, String.toList_ofList, pieces_written, hm h]
  rfl

/-! ## The pairs of a query -/

theorem lookup_textPair (key : String) (value : Option String) (name : String) :
    (textPair key value).lookup name = if name = key then BaseQuery.nonEmpty value else none := by
  cases value with
  | none => simp [textPair, BaseQuery.nonEmpty]
  | some v =>
    by_cases hv : v = "" <;> by_cases hk : name = key <;>
      simp [textPair, BaseQuery.nonEmpty, Option.filter, hv, hk]

/-- What is written for the count, if anything is. -/
def countValue (count : Bool) : Option String :=
  if count then some "true" else none

/-- What is written for a number, if anything is. -/
def numberValue (n : Nat) : Option String :=
  if n = 0 then none else some (toString n)

theorem countValue_injective {b b' : Bool} (h : countValue b = countValue b') : b = b' := by
  cases b <;> cases b' <;> simp_all [countValue]

theorem numberValue_injective {m n : Nat} (h : numberValue m = numberValue n) : m = n := by
  unfold numberValue at h
  split_ifs at h with hm hn
  · rw [hm, hn]
  · have hd : Nat.toDigits 10 m = Nat.toDigits 10 n := by
      simpa [Nat.toList_repr] using congrArg String.toList (Option.some.inj h)
    rw [← Decimal.valueOf_toDigits m, hd, Decimal.valueOf_toDigits]

theorem lookup_countPair (key : String) (count : Bool) (name : String) :
    (if count then [(key, "true")] else []).lookup name =
      if name = key then countValue count else none := by
  cases count <;> by_cases hk : name = key <;> simp [countValue, hk]

theorem lookup_numberPair (key : String) (n : Nat) (name : String) :
    (numberPair key n).lookup name = if name = key then numberValue n else none := by
  by_cases hn : n = 0 <;> by_cases hk : name = key <;> simp [numberPair, numberValue, hn, hk]

/-- A name is looked up among the six parameters, in their order. -/
theorem lookup_pairs (q : Query) (naming : Naming) (name : String) :
    (q.pairs naming).lookup name =
      (((((if name = naming.key "count" then countValue q.count else none).or
        (if name = naming.key "top" then numberValue q.top else none)).or
        (if name = naming.key "skip" then numberValue q.skip else none)).or
        (if name = naming.key "filter" then BaseQuery.nonEmpty q.filter else none)).or
        (if name = naming.key "expand" then BaseQuery.nonEmpty q.expand else none)).or
        (if name = naming.key "orderby" then BaseQuery.nonEmpty q.orderby else none) := by
  rw [pairs, List.lookup_append, List.lookup_append, List.lookup_append, List.lookup_append,
    List.lookup_append, lookup_countPair, lookup_numberPair, lookup_numberPair, lookup_textPair,
    lookup_textPair, lookup_textPair]

/-- The base query that holds the texts of a query, the empty ones left out. -/
def texts (q : Query) : BaseQuery :=
  ⟨BaseQuery.nonEmpty q.filter, BaseQuery.nonEmpty q.orderby, BaseQuery.nonEmpty q.expand⟩

theorem nonEmpty_eq_self {value : Option String} (h : value ≠ some "") :
    BaseQuery.nonEmpty value = value := by
  cases value with
  | none => rfl
  | some v =>
    have hv : v ≠ "" := fun e => h (congrArg some e)
    simp [BaseQuery.nonEmpty, Option.filter, hv]

theorem nonEmpty_ne (value : Option String) : BaseQuery.nonEmpty value ≠ some "" := by
  intro h
  obtain ⟨-, hv⟩ := Option.filter_eq_some_iff.1 h
  simp at hv

/-- In either naming, the texts of a query are found among its pairs. -/
theorem ofPairs_pairs (q : Query) (naming : Naming) :
    BaseQuery.ofPairs (q.pairs naming) = q.texts := by
  have hz : BaseQuery.nonEmpty none = none := rfl
  cases naming <;>
    simp [BaseQuery.ofPairs, BaseQuery.part, lookup_pairs, Naming.key, texts, hz,
      nonEmpty_eq_self (nonEmpty_ne _)]

theorem fst_of_mem_textPair {key : String} {value : Option String} {p : String × String}
    (h : p ∈ textPair key value) : p.1 = key := by
  unfold textPair at h
  split at h
  · split_ifs at h
    · simp at h
    · rw [List.mem_singleton.1 h]
  · simp at h

theorem fst_of_mem_numberPair {key : String} {n : Nat} {p : String × String}
    (h : p ∈ numberPair key n) : p.1 = key := by
  unfold numberPair at h
  split_ifs at h
  · simp at h
  · rw [List.mem_singleton.1 h]

theorem fst_of_mem_countPair {key : String} {count : Bool} {p : String × String}
    (h : p ∈ if count then [(key, "true")] else []) : p.1 = key := by
  split_ifs at h
  · rw [List.mem_singleton.1 h]
  · simp at h

theorem fst_of_mem_pairs {q : Query} {naming : Naming} {p : String × String}
    (h : p ∈ q.pairs naming) :
    ∃ name ∈ ["count", "top", "skip", "filter", "expand", "orderby"], p.1 = naming.key name := by
  simp only [pairs, List.mem_append] at h
  rcases h with ((((h | h) | h) | h) | h) | h
  · exact ⟨"count", by simp, fst_of_mem_countPair h⟩
  · exact ⟨"top", by simp, fst_of_mem_numberPair h⟩
  · exact ⟨"skip", by simp, fst_of_mem_numberPair h⟩
  · exact ⟨"filter", by simp, fst_of_mem_textPair h⟩
  · exact ⟨"expand", by simp, fst_of_mem_textPair h⟩
  · exact ⟨"orderby", by simp, fst_of_mem_textPair h⟩

theorem name_ne_empty {q : Query} {naming : Naming} {p : String × String}
    (h : p ∈ q.pairs naming) : p.1 ≠ "" := by
  obtain ⟨name, hm, hp⟩ := fst_of_mem_pairs h
  have hne : ∀ name ∈ ["count", "top", "skip", "filter", "expand", "orderby"],
      naming.key name ≠ "" := by
    cases naming <;> decide
  exact hp ▸ hne name hm

/-! ## Reading back -/

theorem written_eq_nil_iff {pairs : List (String × String)} : written pairs = [] ↔ pairs = [] := by
  cases pairs with
  | nil => simp [written]
  | cons p ps => cases ps <;> simp [written, piece]

/-- The base query of a query string holds the texts of the query. -/
theorem parse?_queryString (q : Query) (naming : Naming) :
    BaseQuery.parse? (some (q.queryString naming)) = .ok q.texts := by
  have hp := @parse_written (q.pairs naming) fun p => name_ne_empty
  rw [ofPairs_pairs] at hp
  rw [BaseQuery.parse?, toList_queryString, trim_query]
  by_cases hn : q.pairs naming = []
  · have ht := ofPairs_pairs q naming
    rw [hn] at ht ⊢
    rw [← ht]
    rfl
  · have hw := mt written_eq_nil_iff.1 hn
    simpa [hw] using hp

/-- The pieces of a text between `&`; an empty text has none. -/
def piecesOf (cs : List Char) : List (List Char) :=
  if cs = [] then [] else cs.splitOn '&'

/-- A piece that, cut at its first `=`, has the name and value of a pair in
    their encodings. -/
def Spells (piece : List Char) (p : String × String) : Prop :=
  ∃ rawName rawValue, Text.cut? '=' piece = some (rawName, rawValue) ∧
    BaseQuery.decodeText rawName = .ok p.1.toList ∧ BaseQuery.decodeText rawValue = .ok p.2.toList

/-- **A query string can be read back.**  It is `?` and a text without `?`,
    `#` and blanks; the pieces of that text spell the pairs of the query, in
    order; and its base query holds the texts of the query. -/
theorem queryString_read_back (q : Query) (naming : Naming) :
    ∃ rest, (q.queryString naming).toList = '?' :: rest ∧
      (∀ c ∈ rest, c ≠ '?' ∧ c ≠ '#' ∧ Text.isBlank c = false) ∧
      List.Forall₂ Spells (piecesOf rest) (q.pairs naming) ∧
      BaseQuery.parse? (some (q.queryString naming)) =
        .ok ⟨BaseQuery.nonEmpty q.filter, BaseQuery.nonEmpty q.orderby,
          BaseQuery.nonEmpty q.expand⟩ := by
  refine ⟨_, toList_queryString q naming, fun c hc => ⟨?_, ?_, isBlank_of_mem_written hc⟩, ?_,
    parse?_queryString q naming⟩
  · rintro rfl
    rcases mem_written hc with h | h | h <;> exact absurd h (by decide)
  · rintro rfl
    rcases mem_written hc with h | h | h <;> exact absurd h (by decide)
  · have hp : piecesOf (written (q.pairs naming)) = (q.pairs naming).map piece := by
      unfold piecesOf
      split_ifs with h
      · rw [written_eq_nil_iff.1 h]; rfl
      · exact splitOn_written (mt written_eq_nil_iff.2 h)
    rw [hp, List.forall₂_map_left_iff, List.forall₂_same]
    exact fun p _ => ⟨_, _, cut?_piece p, decodeText_encode _, decodeText_encode _⟩

end Query

end TableQuery
