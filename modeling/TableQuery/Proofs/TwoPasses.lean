/-
  Percent-encoding in two passes.

  A strict encoder writes the bytes of a text as escapes, all but letters, digits and
  the marks `-_.~`. In what it wrote, the escapes of five more marks are then replaced by
  the marks, one after another and wherever they occur.

  * `replaceAll_writeBytes`: to replace the escapes of one byte is to keep this byte as
    well, since a `%` stands at the front of an escape only;
  * `foldl_restoreMark_writeBytes`: by induction the same holds of several bytes;
  * `encode_in_two_passes`: both passes together encode character by character, and no
    escape that the text itself spells becomes a mark.
-/
import Mathlib.Data.List.Infix
import TableQuery.Proofs.Scan

namespace TableQuery

/-! ## Replacing -/

namespace Text

/-- The text with `new` in the place of every `old`, which is not empty. Reading goes on
    behind what was replaced. -/
def replaceAll (old new : List Char) : List Char → List Char
  | [] => []
  | c :: cs =>
    if old <+: c :: cs then new ++ replaceAll old new (cs.drop (old.length - 1))
    else c :: replaceAll old new cs
termination_by cs => cs.length

variable {old new : List Char}

theorem replaceAll_nil : replaceAll old new [] = [] := by
  rw [replaceAll]

theorem replaceAll_append (h : old ≠ []) (cs : List Char) :
    replaceAll old new (old ++ cs) = new ++ replaceAll old new cs := by
  cases old with
  | nil => exact absurd rfl h
  | cons d ds =>
    rw [List.cons_append, replaceAll, if_pos ⟨cs, rfl⟩]
    simp

theorem replaceAll_cons_of_mismatch {c : Char} {cs : List Char} (h : ¬ old <+: c :: cs) :
    replaceAll old new (c :: cs) = c :: replaceAll old new cs := by
  rw [replaceAll, if_neg h]

/-- A part without the first character of `old` is passed over. -/
theorem replaceAll_append_of_not_mem {d : Char} {ds part : List Char} (h : d ∉ part)
    (cs : List Char) :
    replaceAll (d :: ds) new (part ++ cs) = part ++ replaceAll (d :: ds) new cs := by
  induction part with
  | nil => rfl
  | cons c part ih =>
    rw [List.mem_cons, not_or] at h
    have hc : ¬ d :: ds <+: c :: (part ++ cs) := fun hp => h.1 (List.cons_prefix_cons.1 hp).1
    rw [List.cons_append, replaceAll_cons_of_mismatch hc, ih h.2, List.cons_append]

theorem replaceAll_eq_self {cs : List Char} (h : ¬ old <:+: cs) : replaceAll old new cs = cs := by
  induction cs with
  | nil => exact replaceAll_nil
  | cons c cs ih =>
    rw [List.infix_cons_iff, not_or] at h
    rw [replaceAll_cons_of_mismatch h.1, ih h.2]

end Text

namespace Percent

/-! ## The two passes -/

/-- The character with the number of a byte. -/
def ofByte (b : UInt8) : Char :=
  Char.ofNat b.toNat

def writeByte (kept : UInt8 → Bool) (b : UInt8) : List Char :=
  if kept b then [ofByte b] else escape b

/-- Bytes in writing: some are kept as characters, the others are escapes. -/
def writeBytes (kept : UInt8 → Bool) (bs : List UInt8) : List Char :=
  bs.flatMap (writeByte kept)

/-- The marks that the strict encoder keeps, beside letters and digits. -/
def plainMarks : List Char :=
  ['-', '_', '.', '~']

def isPlain (b : UInt8) : Bool :=
  (ofByte b).isAlphanum || plainMarks.contains (ofByte b)

/-- The first pass. -/
def encodeStrict (text : List Char) : List Char :=
  writeBytes isPlain (Utf8.encode text)

/-- The escapes of the other marks. -/
def markEscapes : List (List Char × Char) :=
  [("%21".toList, '!'), ("%27".toList, '\''), ("%28".toList, '('), ("%29".toList, ')'),
    ("%2A".toList, '*')]

/-- A text with a mark in the place of its escape, if this occurs at all. -/
def restoreMark (cs : List Char) (e : List Char × Char) : List Char :=
  if e.1 <:+: cs then Text.replaceAll e.1 [e.2] cs else cs

/-- The second pass. -/
def restoreMarks (cs : List Char) : List Char :=
  markEscapes.foldl restoreMark cs

theorem restoreMark_eq (cs : List Char) (e : List Char × Char) :
    restoreMark cs e = Text.replaceAll e.1 [e.2] cs := by
  unfold restoreMark
  split_ifs with h
  · rfl
  · exact (Text.replaceAll_eq_self h).symm

/-! ## One replacement -/

theorem escape_injective {b m : UInt8} (h : escape b = escape m) : b = m := by
  have hb := bytes_escape b []
  rw [h, bytes_escape] at hb
  exact (List.cons.inj hb).1.symm

theorem toNat_ofByte (b : UInt8) : (ofByte b).toNat = b.toNat := by
  have hb := b.toNat_lt
  exact Utf8.toNat_charOfNat (by omega)

theorem ofByte_injective : Function.Injective ofByte := by
  intro b m h
  rw [← UInt8.toNat_inj, ← toNat_ofByte, h, toNat_ofByte]

theorem digitChar_ne_percent : ∀ n < 16, (Nat.digitChar n).toUpper ≠ '%' := by
  decide

/-- An escape is a `%` and two characters that are none. -/
theorem escape_eq_cons (b : UInt8) : ∃ digits, escape b = '%' :: digits ∧ '%' ∉ digits := by
  have hb := b.toNat_lt
  refine ⟨_, rfl, ?_⟩
  simp only [List.mem_cons, List.not_mem_nil, or_false, not_or]
  exact ⟨(digitChar_ne_percent _ (by omega)).symm, (digitChar_ne_percent _ (by omega)).symm⟩

/-- To replace the escapes of a byte is to keep the byte as well. Every other escape is
    passed over: it differs, and nothing begins inside it. -/
theorem replaceAll_writeBytes {kept : UInt8 → Bool} (hk : kept 0x25 = false) (m : UInt8)
    (bs : List UInt8) :
    Text.replaceAll (escape m) [ofByte m] (writeBytes kept bs) =
      writeBytes (fun b => kept b || b == m) bs := by
  obtain ⟨digits, hm, -⟩ := escape_eq_cons m
  induction bs with
  | nil => exact Text.replaceAll_nil
  | cons b bs ih =>
    simp only [writeBytes, List.flatMap_cons] at ih ⊢
    rw [← ih]
    by_cases hkb : kept b = true
    · have hc : '%' ∉ [ofByte b] := by
        rw [List.mem_singleton]
        intro h
        have hb : (0x25 : UInt8) = b := ofByte_injective h
        rw [← hb, hk] at hkb
        cases hkb
      rw [writeByte, if_pos hkb, writeByte, if_pos (by simp [hkb]), hm,
        Text.replaceAll_append_of_not_mem hc]
    · by_cases hbm : b = m
      · subst hbm
        rw [writeByte, if_neg hkb, writeByte, if_pos (by simp),
          Text.replaceAll_append (by simp [hm])]
      · obtain ⟨rest, hb, hr⟩ := escape_eq_cons b
        have hp : ¬ escape m <+: escape b ++ bs.flatMap (writeByte kept) := by
          intro h
          have he := List.prefix_of_prefix_length_le h (List.prefix_append _ _) (Nat.le_refl 3)
          exact hbm (escape_injective (he.eq_of_length rfl)).symm
        rw [writeByte, if_neg hkb, writeByte, if_neg (by simp [hkb, hbm])]
        rw [hb, List.cons_append] at hp ⊢
        rw [Text.replaceAll_cons_of_mismatch hp, hm, Text.replaceAll_append_of_not_mem hr,
          List.cons_append]

/-- By induction on the bytes whose escapes are replaced, one after another. -/
theorem foldl_restoreMark_writeBytes {ms : List UInt8} (hms : 0x25 ∉ ms) {kept : UInt8 → Bool}
    (hk : kept 0x25 = false) (bs : List UInt8) :
    (ms.map fun m => (escape m, ofByte m)).foldl restoreMark (writeBytes kept bs) =
      writeBytes (fun b => kept b || ms.contains b) bs := by
  induction ms generalizing kept with
  | nil => simp
  | cons m ms ih =>
    rw [List.mem_cons, not_or] at hms
    have hk' : (kept 0x25 || (0x25 : UInt8) == m) = false := by simpa [hk] using hms.1
    rw [List.map_cons, List.foldl_cons, restoreMark_eq, replaceAll_writeBytes hk, ih hms.2 hk']
    simp only [List.contains_cons, Bool.or_assoc]

/-! ## Both passes -/

/-- The bytes of the marks that are replaced. -/
def markBytes : List UInt8 :=
  [0x21, 0x27, 0x28, 0x29, 0x2A]

theorem markEscapes_eq : markEscapes = markBytes.map fun m => (escape m, ofByte m) := by
  decide

theorem marks_eq : marks = plainMarks ++ markBytes.map ofByte := by
  decide

theorem isPlain_or_contains (b : UInt8) :
    (isPlain b || markBytes.contains b) = isKept (ofByte b) := by
  rw [Bool.eq_iff_iff]
  simp only [isPlain, isKept, marks_eq, Bool.or_eq_true, List.contains_iff_mem, List.mem_append,
    List.mem_map_of_injective ofByte_injective, or_assoc]

theorem toNat_lt_of_isKept {c : Char} (h : isKept c = true) : c.toNat < 128 := by
  rw [isKept, Bool.or_eq_true, List.contains_iff_mem] at h
  rcases h with h | h
  · have := toNat_of_isAlphanum h
    omega
  · have hm : marks.all (fun m => decide (m.toNat < 128)) = true := by decide
    exact of_decide_eq_true (List.all_eq_true.1 hm c h)

/-- The bytes of a character are written as the character is: none of the bytes of a
    longer one is kept. -/
theorem flatMap_writeByte_utf8EncodeChar (c : Char) :
    (String.utf8EncodeChar c).flatMap (writeByte fun b => isKept (ofByte b)) = encodeChar c := by
  rcases utf8EncodeChar_cases c with ⟨hc, he⟩ | ⟨hc, hb⟩
  · have hn : ofByte (UInt8.ofNat c.toNat) = c := by
      rw [ofByte, Utf8.toNat_ofNat (by omega), Char.ofNat_toNat]
    rw [encodeChar, he, List.flatMap_singleton, List.flatMap_singleton, writeByte, hn]
  · have hesc : ∀ b ∈ String.utf8EncodeChar c,
        writeByte (fun b => isKept (ofByte b)) b = escape b := by
      intro b hmem
      refine if_neg fun hk => ?_
      have hlt := toNat_lt_of_isKept hk
      rw [toNat_ofByte] at hlt
      exact absurd (hb b hmem) (by omega)
    have hkc : ¬ isKept c = true := fun hk => absurd (toNat_lt_of_isKept hk) (by omega)
    rw [encodeChar, if_neg hkc, List.flatMap_congr hesc]

theorem restoreMarks_encodeStrict (text : List Char) :
    restoreMarks (encodeStrict text) = encode text := by
  have hkept : (fun b => isPlain b || markBytes.contains b) = fun b => isKept (ofByte b) :=
    funext isPlain_or_contains
  rw [restoreMarks, encodeStrict, markEscapes_eq,
    foldl_restoreMark_writeBytes (by decide) (by decide), hkept, writeBytes, Utf8.encode,
    List.flatMap_assoc]
  exact List.flatMap_congr fun c _ => flatMap_writeByte_utf8EncodeChar c

/-! ## Marks -/

theorem mark_not_mem_escape {m : Char} (hm : m ∈ marks) (b : UInt8) : m ∉ escape b := by
  have hb := b.toNat_lt
  have hdigit : ∀ n < 16, marks.contains (Nat.digitChar n).toUpper = false := by decide
  have hne : ∀ n < 16, m ≠ (Nat.digitChar n).toUpper := by
    intro n hn he
    have hc := hdigit n hn
    rw [← he, ← Bool.not_eq_true, List.contains_iff_mem] at hc
    exact hc hm
  have hpercent : m ≠ '%' := by
    rintro rfl
    exact absurd hm (by decide)
  simp only [escape, List.mem_cons, List.not_mem_nil, or_false, not_or]
  exact ⟨hpercent, hne _ (by omega), hne _ (by omega)⟩

/-- A mark is written for each that stands in the text, and for nothing else. -/
theorem count_encode {m : Char} (hm : m ∈ marks) (text : List Char) :
    (encode text).count m = text.count m := by
  have hk : isKept m = true := by
    rw [isKept, Bool.or_eq_true, List.contains_iff_mem]
    exact Or.inr hm
  have hchar : ∀ c, (encodeChar c).count m = [c].count m := by
    intro c
    unfold encodeChar
    split_ifs with hc
    · rfl
    · have hne : m ≠ c := by
        rintro rfl
        exact hc hk
      rw [List.count_eq_zero.2, List.count_eq_zero.2 (by simpa using hne)]
      rw [List.mem_flatMap]
      rintro ⟨b, -, hb⟩
      exact mark_not_mem_escape hm b hb
  induction text with
  | nil => rfl
  | cons c text ih =>
    rw [encode, List.flatMap_cons, ← encode, List.count_append, hchar, ih, ← List.count_append,
      List.singleton_append]

/-- **Encoding in two passes.**  A strict encoding, in which the escapes of five marks are
    then replaced by the marks, is the encoding character by character: an ASCII
    letter, a digit or a mark stands for itself, and any other character is written as the
    escapes of its bytes. Each mark is written as often as it stands in the text. So an
    escape of a mark that stands in the text itself is written with an escaped `%`, and
    does not become the mark. -/
theorem encode_in_two_passes (text : List Char) :
    restoreMarks (encodeStrict text) = encode text ∧
    encode text = (text.flatMap fun c =>
      if c.isAlphanum ∨ c ∈ "-_.~!'()*".toList then [c]
      else (String.utf8EncodeChar c).flatMap escape) ∧
    (∀ m ∈ marks, (encode text).count m = text.count m) ∧
    ∀ e ∈ markEscapes, ∀ before after, text = before ++ e.1 ++ after →
      encode text = encode before ++ "%25".toList ++ e.1.tail ++ encode after := by
  refine ⟨restoreMarks_encodeStrict text, ?_, fun m hm => count_encode hm text, ?_⟩
  · refine List.flatMap_congr fun c _ => ?_
    have hm : marks = "-_.~!'()*".toList := by decide
    simp only [encodeChar, isKept, Bool.or_eq_true, List.contains_iff_mem, hm]
  · rintro e he before after rfl
    have hesc : ∀ e ∈ markEscapes, encode e.1 = "%25".toList ++ e.1.tail := by decide
    have happ : ∀ cs ds, encode (cs ++ ds) = encode cs ++ encode ds := fun _ _ =>
      List.flatMap_append
    rw [happ, happ, hesc e he, ← List.append_assoc]

/-- A text that spells the escape of a mark which it does not have. -/
theorem encode_in_two_passes_spelled :
    '!' ∈ marks ∧ ("%21".toList, '!') ∈ markEscapes ∧
      restoreMarks (encodeStrict "(%21é".toList) = "(%2521%C3%A9".toList ∧
      (encode "(%21é".toList).count '!' = 0 := by
  obtain ⟨hpasses, -, hcount, hspelled⟩ := encode_in_two_passes "(%21é".toList
  have hm : '!' ∈ marks := by decide
  have he : ("%21".toList, '!') ∈ markEscapes := by decide
  refine ⟨hm, he, ?_, hcount '!' hm⟩
  rw [hpasses, hspelled _ he ['('] ['é'] (by decide)]
  decide

end Percent

end TableQuery
