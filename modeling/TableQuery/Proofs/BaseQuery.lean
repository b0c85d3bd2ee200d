/-
  Which base queries are read.

  * `readPiece_eq_ok_iff`: the name and value of a piece;
  * `pieces_intercalate`: the pieces of a text that is joined from them;
  * `exists_parse?_iff`: a base query is read if all its pieces have a name, and
    all names and values are encodings of texts, whether they take part or not.
-/
import TableQuery.BaseQuery
import TableQuery.Proofs.Spelling
import TableQuery.Proofs.Stages

namespace TableQuery.BaseQuery

open Percent (Spells)

/-- A piece has a name that is not empty, up to its first `=`, and perhaps a
    value; both are encodings of texts. -/
def SoundPiece (piece : List Char) : Prop :=
  ∃ rawName rawValue, '=' ∉ rawName ∧
    (piece = rawName ++ '=' :: rawValue ∨ piece = rawName ∧ rawValue = []) ∧
    ∃ name value, Spells rawName (Utf8.encode name) ∧ name ≠ [] ∧
      Spells rawValue (Utf8.encode value)

/-- All pieces of a base query that is not missing are sound, blanks around it
    left out. -/
def Sound (raw : Option String) : Prop :=
  ∀ text, raw = some text → ∀ piece ∈ pieces (Text.trim text.toList), SoundPiece piece

theorem decodeText_eq_ok_iff {raw text : List Char} :
    decodeText raw = .ok text ↔ Spells raw (Utf8.encode text) := by
  rw [← Percent.decode_eq_ok_iff, decodeText]
  cases Percent.decode raw <;> simp [Except.mapError]

theorem getD_cut?_iff {piece rawName rawValue : List Char} :
    (Text.cut? '=' piece).getD (piece, []) = (rawName, rawValue) ↔
      '=' ∉ rawName ∧ (piece = rawName ++ '=' :: rawValue ∨ piece = rawName ∧ rawValue = []) := by
  constructor
  · intro h
    cases hc : Text.cut? '=' piece with
    | none =>
      rw [hc] at h
      obtain ⟨rfl, rfl⟩ := Prod.mk.inj h
      exact ⟨Text.cut?_eq_none_iff.1 hc, Or.inr ⟨rfl, rfl⟩⟩
    | some p =>
      rw [hc] at h
      obtain rfl : p = (rawName, rawValue) := h
      obtain ⟨hn, hp⟩ := Text.cut?_eq_some_iff.1 hc
      exact ⟨hn, Or.inl hp⟩
  · rintro ⟨hn, rfl | ⟨rfl, rfl⟩⟩
    · rw [Text.cut?_eq_some_iff.2 ⟨hn, rfl⟩]
      rfl
    · rw [Text.cut?_eq_none_iff.2 hn]
      rfl

theorem readPiece_eq_ok_iff {piece : List Char} {pair : String × String} :
    readPiece piece = .ok pair ↔
      ∃ rawName rawValue name value,
        (Text.cut? '=' piece).getD (piece, []) = (rawName, rawValue) ∧
        decodeText rawName = .ok name ∧ name ≠ [] ∧ decodeText rawValue = .ok value ∧
        pair = (String.ofList name, String.ofList value) := by
  obtain ⟨rawName, rawValue, hcut⟩ : ∃ rawName rawValue,
      (Text.cut? '=' piece).getD (piece, []) = (rawName, rawValue) := ⟨_, _, rfl⟩
  simp only [readPiece, hcut, bind_eq_ok_iff]
  constructor
  · rintro ⟨name, hn, h⟩
    split_ifs at h with he
    · cases h
    · obtain ⟨value, hv, hpair⟩ := bind_eq_ok_iff.1 h
      exact ⟨rawName, rawValue, name, value, rfl, hn, he, hv, (Except.ok.inj hpair).symm⟩
  · rintro ⟨_, _, name, value, hraw, hn, he, hv, rfl⟩
    obtain ⟨rfl, rfl⟩ := Prod.mk.inj hraw
    refine ⟨name, hn, ?_⟩
    rw [if_neg he]
    exact bind_eq_ok_iff.2 ⟨value, hv, rfl⟩

/-- The pieces that are read are the sound ones. -/
theorem exists_readPiece_iff {piece : List Char} :
    (∃ pair, readPiece piece = .ok pair) ↔ SoundPiece piece := by
  constructor
  · rintro ⟨pair, h⟩
    obtain ⟨rawName, rawValue, name, value, hcut, hn, hne, hv, -⟩ := readPiece_eq_ok_iff.1 h
    obtain ⟨he, hp⟩ := getD_cut?_iff.1 hcut
    exact ⟨rawName, rawValue, he, hp, name, value, decodeText_eq_ok_iff.1 hn, hne,
      decodeText_eq_ok_iff.1 hv⟩
  · rintro ⟨rawName, rawValue, he, hp, name, value, hn, hne, hv⟩
    exact ⟨_, readPiece_eq_ok_iff.2 ⟨rawName, rawValue, name, value, getD_cut?_iff.2 ⟨he, hp⟩,
      decodeText_eq_ok_iff.2 hn, hne, decodeText_eq_ok_iff.2 hv, rfl⟩⟩

/-- Pieces that are joined behind a `?` are found again, but for the empty ones. -/
theorem pieces_intercalate {ls : List (List Char)} (h : ∀ l ∈ ls, '&' ∉ l) :
    pieces ('?' :: List.intercalate ['&'] ls) = ls.filter (· ≠ []) := by
  rw [pieces]
  by_cases hn : ls = []
  · subst hn; decide
  · simp only [List.splitOn_intercalate '&' h hn]

/-- The base queries that are read are the sound ones. -/
theorem exists_parse?_iff {raw : Option String} :
    (∃ base, parse? raw = .ok base) ↔ Sound raw := by
  cases raw with
  | none => simp [parse?, Sound]
  | some text =>
    have hs : Sound (some text) ↔ ∀ piece ∈ pieces (Text.trim text.toList), SoundPiece piece := by
      simp [Sound]
    rw [hs]
    simp only [parse?]
    split_ifs with h
    · -- blank, or nothing behind the mark: no piece is there
      refine iff_of_true ⟨_, rfl⟩ ?_
      rcases h with h | h <;> simp [h, pieces]
    · rw [parse, String.toList_ofList]
      simp only [← exists_readPiece_iff, ← exists_mapM_iff]
      cases (pieces (Text.trim text.toList)).mapM readPiece <;> simp [Except.map]

end TableQuery.BaseQuery
