/-
  Percent-encoding read back.

  * `isEncoded_of_mem_encode`: an encoded text holds kept characters and `%`
    only, so none that separates the parts of a query string, no `+` and no
    blank;
  * `decode_encode`: every text is read back from its encoding, since `bytes`
    undoes `escape` and `Utf8.decode` undoes UTF-8; so no two texts have one
    encoding (`encode_injective`).
-/
import Mathlib.Tactic.SplitIfs
import TableQuery.Proofs.Utf8
import TableQuery.Text.Blank
import TableQuery.Text.Percent

namespace TableQuery.Percent

/-! ## Escapes -/

theorem hexDigit?_digitChar :
    ∀ n < 16, hexDigit? (Nat.digitChar n).toUpper = some n := by
  decide

/-- The two digits of an escape spell its byte. -/
theorem hexByte?_digits (b : UInt8) :
    hexByte? (Nat.digitChar (b.toNat / 16)).toUpper (Nat.digitChar (b.toNat % 16)).toUpper =
      some b := by
  have hb := b.toNat_lt
  have hh := hexDigit?_digitChar (b.toNat / 16) (by omega)
  have hl := hexDigit?_digitChar (b.toNat % 16) (by omega)
  rw [hexByte?, hh, hl]
  simp only [show 16 * (b.toNat / 16) + b.toNat % 16 = b.toNat by omega, UInt8.ofNat_toNat]

theorem bytes_escaped {high low : Char} {b : UInt8} (h : hexByte? high low = some b)
    (cs : List Char) : bytes ('%' :: high :: low :: cs) = b :: bytes cs := by
  rw [bytes.eq_def]
  simp only [h, if_true]

theorem bytes_escape (b : UInt8) (rest : List Char) :
    bytes (escape b ++ rest) = b :: bytes rest :=
  bytes_escaped (hexByte?_digits b) rest

theorem bytes_escapes (bs : List UInt8) (rest : List Char) :
    bytes (bs.flatMap escape ++ rest) = bs ++ bytes rest := by
  induction bs with
  | nil => rfl
  | cons b bs ih => rw [List.flatMap_cons, List.append_assoc, bytes_escape, ih, List.cons_append]

theorem malformedFrom_escaped {high low : Char} {b : UInt8} (h : hexByte? high low = some b)
    (index : Nat) (cs : List Char) :
    malformedFrom index ('%' :: high :: low :: cs) = malformedFrom (index + 3) cs := by
  rw [malformedFrom.eq_def]
  simp only [h, if_true, Option.isSome_some]

theorem malformedFrom_escape (index : Nat) (b : UInt8) (rest : List Char) :
    malformedFrom index (escape b ++ rest) = malformedFrom (index + 3) rest :=
  malformedFrom_escaped (hexByte?_digits b) index rest

theorem malformedFrom_escapes (index : Nat) (bs : List UInt8) (rest : List Char) :
    malformedFrom index (bs.flatMap escape ++ rest) =
      malformedFrom (index + 3 * bs.length) rest := by
  induction bs generalizing index with
  | nil => rfl
  | cons b bs ih =>
    rw [List.flatMap_cons, List.append_assoc, malformedFrom_escape, ih, List.length_cons]
    congr 1; omega

/-! ## The characters of an encoded text -/

/-- Whether a character can stand in an encoded text. -/
def isEncoded (c : Char) : Bool :=
  isKept c || c == '%'

theorem toNat_of_isAlphanum {c : Char} (h : c.isAlphanum = true) :
    48 ≤ c.toNat ∧ c.toNat ≤ 57 ∨ 65 ≤ c.toNat ∧ c.toNat ≤ 90 ∨ 97 ≤ c.toNat ∧ c.toNat ≤ 122 := by
  have hr : (decide (65 ≤ c.val ∧ c.val ≤ 90) || (decide (97 ≤ c.val) && decide (c.val ≤ 122)) ||
      (decide (48 ≤ c.val) && decide (c.val ≤ 57))) = true := h
  have hv : c.toNat = c.val.toNat := rfl
  simp only [Bool.or_eq_true, Bool.and_eq_true, decide_eq_true_eq, UInt32.le_iff_toNat_le] at hr
  simp at hr
  omega

theorem isBlank_of_isEncoded {c : Char} (h : isEncoded c = true) : Text.isBlank c = false := by
  simp only [isEncoded, isKept, Bool.or_eq_true, beq_iff_eq, List.contains_iff_mem] at h
  rcases h with (h | h) | rfl
  · have := toNat_of_isAlphanum h
    simp [Text.isBlank, Text.blankRanges]
    omega
  · simp only [marks, List.mem_cons, List.not_mem_nil, or_false] at h
    rcases h with rfl | rfl | rfl | rfl | rfl | rfl | rfl | rfl | rfl <;> decide
  · decide

theorem isEncoded_digitChar : ∀ n < 16, isEncoded (Nat.digitChar n).toUpper = true := by
  decide

theorem isEncoded_of_mem_escape {b : UInt8} {c : Char} (h : c ∈ escape b) :
    isEncoded c = true := by
  have hb := b.toNat_lt
  simp only [escape, List.mem_cons, List.not_mem_nil, or_false] at h
  rcases h with rfl | rfl | rfl
  · decide
  · exact isEncoded_digitChar _ (by omega)
  · exact isEncoded_digitChar _ (by omega)

theorem isEncoded_of_mem_encode {cs : List Char} {c : Char} (h : c ∈ encode cs) :
    isEncoded c = true := by
  obtain ⟨x, -, hc⟩ := List.mem_flatMap.1 h
  unfold encodeChar at hc
  split_ifs at hc with hx
  · rw [List.mem_singleton.1 hc, isEncoded, hx, Bool.true_or]
  · obtain ⟨b, -, hb⟩ := List.mem_flatMap.1 hc
    exact isEncoded_of_mem_escape hb

/-- A character that stands in no encoded text, such as `&` or `+`. -/
theorem not_mem_encode {c : Char} (h : isEncoded c = false) (cs : List Char) : c ∉ encode cs :=
  fun hc => by simp [isEncoded_of_mem_encode hc] at h

/-! ## Reading back -/

/-- A character that is no `%` is read as itself. -/
theorem bytes_cons_of_ne {c : Char} (h : c ≠ '%') (cs : List Char) :
    bytes (c :: cs) = String.utf8EncodeChar c ++ bytes cs := by
  rw [bytes.eq_def]
  simp only [h, if_false]

theorem bytes_encodeChar (c : Char) (rest : List Char) :
    bytes (encodeChar c ++ rest) = String.utf8EncodeChar c ++ bytes rest := by
  unfold encodeChar
  split_ifs with h
  · have hc : c ≠ '%' := by rintro rfl; exact absurd h (by decide)
    exact bytes_cons_of_ne hc rest
  · exact bytes_escapes _ rest

theorem bytes_encode (cs : List Char) : bytes (encode cs) = Utf8.encode cs := by
  have h : ∀ rest, bytes (encode cs ++ rest) = Utf8.encode cs ++ bytes rest := by
    intro rest
    induction cs with
    | nil => rfl
    | cons c cs ih =>
      rw [encode, List.flatMap_cons, List.append_assoc, bytes_encodeChar, ← encode, ih, Utf8.encode,
        Utf8.encode, List.flatMap_cons, List.append_assoc]
  simpa [bytes] using h []

theorem malformedFrom_cons_of_ne {c : Char} (he : c ≠ '%') (index : Nat) (cs : List Char) :
    malformedFrom index (c :: cs) = malformedFrom (index + c.utf8Size) cs := by
  rw [malformedFrom.eq_def]
  simp only [he, if_false]

/-- The escapes of an encoded text are well formed. -/
theorem malformedFrom_encode (cs : List Char) (index : Nat) :
    malformedFrom index (encode cs) = none := by
  induction cs generalizing index with
  | nil => rfl
  | cons c cs ih =>
    rw [encode, List.flatMap_cons, ← encode, encodeChar]
    split_ifs with h
    · have hc : c ≠ '%' := by rintro rfl; exact absurd h (by decide)
      rw [List.singleton_append, malformedFrom_cons_of_ne hc, ih]
    · rw [malformedFrom_escapes, ih]

theorem spaced_eq_self {cs : List Char} (h : '+' ∉ cs) : spaced cs = cs := by
  have : ∀ c ∈ cs, (if c = '+' then ' ' else c) = c := fun c hc =>
    if_neg fun e : c = '+' => h (e ▸ hc)
  rw [spaced, List.map_congr_left this, List.map_id']

/-- Every text is read back from its encoding. -/
theorem decode_encode (cs : List Char) : decode (encode cs) = .ok cs := by
  have hs := spaced_eq_self (not_mem_encode (c := '+') (by decide) cs)
  rw [decode, malformed?, malformedFrom_encode]
  simp only
  rw [hs, bytes_encode, Utf8.decode_encode]
  rfl

theorem encode_injective {cs ds : List Char} (h : encode cs = encode ds) : cs = ds := by
  have hd := decode_encode cs
  rw [h, decode_encode] at hd
  exact (Except.ok.inj hd).symm

end TableQuery.Percent
