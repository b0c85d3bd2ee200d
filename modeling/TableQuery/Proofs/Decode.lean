/-
  The spellings of a text in a query string.

  A character stands for itself, or its bytes are escaped, with digits in either
  case; a space may be a `+`.

  * `spelling_iff_spells`: these are the raw texts that spell the bytes of a text;
  * `decodeText_outcome`: so each is decoded to its text, once, and all other raw
    texts are rejected, for a stray `%` or for bytes that are not UTF-8.
-/
import TableQuery.Proofs.BaseQuery
import TableQuery.Proofs.Scan

namespace TableQuery

namespace Percent

/-! ## Spellings -/

/-- The ways to write a character: as itself, unless it is `%` or `+`; as escapes of
    all its bytes, with digits in either case; a space also as `+`. -/
inductive Writes : Char → List Char → Prop
  | literal {c : Char} (he : c ≠ '%') (hp : c ≠ '+') : Writes c [c]
  | plus : Writes ' ' ['+']
  | escaped {c : Char} {w : List Char}
      (h : w.map Char.toUpper = (String.utf8EncodeChar c).flatMap escape) : Writes c w

/-- A raw text writes a text, one character after the other. -/
inductive Spelling : List Char → List Char → Prop
  | nil : Spelling [] []
  | cons {c : Char} {w text raw : List Char} (hw : Writes c w) (h : Spelling text raw) :
      Spelling (c :: text) (w ++ raw)

/-! ## Digits in either case -/

/-- Only the case of letters of ASCII is changed. -/
theorem toNat_lt_of_toUpper {c : Char} (h : c.toUpper.toNat < 128) : c.toNat < 128 := by
  unfold Char.toUpper at h
  split_ifs at h with hc
  · have hle : c.toNat ≤ 122 := UInt32.le_iff_toNat_le.1 hc.2
    omega
  · exact h

theorem hexDigit?_of_ascii :
    ∀ k < 128, ∀ n ∈ hexDigit? (Char.ofNat k),
      n < 16 ∧ (Char.ofNat k).toUpper = (Nat.digitChar n).toUpper := by
  decide

theorem hexDigit?_toUpper_of_ascii :
    ∀ k < 128, hexDigit? (Char.ofNat k).toUpper = hexDigit? (Char.ofNat k) := by
  decide

theorem toNat_digitChar_lt : ∀ n < 16, (Nat.digitChar n).toUpper.toNat < 128 := by
  decide

/-- The digits of a value are its upper-case digit in either case. -/
theorem hexDigit?_eq_some_iff {c : Char} {n : Nat} :
    hexDigit? c = some n ↔ n < 16 ∧ c.toUpper = (Nat.digitChar n).toUpper := by
  constructor
  · intro h
    have hd : IsHexDigit c := isSome_hexDigit?_iff.1 (by rw [h]; rfl)
    have hc : c.toNat < 128 := by
      rw [isHexDigit_iff] at hd
      omega
    have hn := hexDigit?_of_ascii c.toNat hc n
    rw [Char.ofNat_toNat] at hn
    exact hn h
  · rintro ⟨hn, hc⟩
    have hlt := toNat_lt_of_toUpper (hc ▸ toNat_digitChar_lt n hn)
    have hu := hexDigit?_toUpper_of_ascii c.toNat hlt
    rw [Char.ofNat_toNat] at hu
    rw [← hu, hc, hexDigit?_digitChar n hn]

/-- The digits of a byte are those of its escape, in either case. -/
theorem hexByte?_eq_some_iff {high low : Char} {b : UInt8} :
    hexByte? high low = some b ↔ ['%', high, low].map Char.toUpper = escape b := by
  have hb := b.toNat_lt
  have hdigits : hexByte? high low = some b ↔
      hexDigit? high = some (b.toNat / 16) ∧ hexDigit? low = some (b.toNat % 16) := by
    constructor
    · intro h
      obtain ⟨n, m, hn, hm, rfl⟩ : ∃ n m, hexDigit? high = some n ∧ hexDigit? low = some m ∧
          UInt8.ofNat (16 * n + m) = b := by
        unfold hexByte? at h
        split at h
        · exact ⟨_, _, ‹_›, ‹_›, Option.some.inj h⟩
        · cases h
      have hn' := (hexDigit?_eq_some_iff.1 hn).1
      have hm' := (hexDigit?_eq_some_iff.1 hm).1
      rw [Utf8.toNat_ofNat (by omega), hn, hm]
      exact ⟨congrArg some (by omega), congrArg some (by omega)⟩
    · rintro ⟨hh, hl⟩
      rw [hexByte?, hh, hl]
      exact congrArg some (Utf8.ofNat_eq (by omega))
  rw [hdigits, hexDigit?_eq_some_iff, hexDigit?_eq_some_iff, escape]
  have hp : ('%' : Char).toUpper = '%' := rfl
  simp only [List.map_cons, List.map_nil, hp, List.cons.injEq, true_and, and_true,
    show b.toNat / 16 < 16 by omega, show b.toNat % 16 < 16 by omega]

theorem eq_percent_of_ascii : ∀ k < 128, (Char.ofNat k).toUpper = '%' → Char.ofNat k = '%' := by
  decide

theorem eq_percent_of_toUpper {c : Char} (h : c.toUpper = '%') : c = '%' := by
  have hlt : c.toNat < 128 := toNat_lt_of_toUpper (by rw [h]; decide)
  have hp := eq_percent_of_ascii c.toNat hlt
  rw [Char.ofNat_toNat] at hp
  exact hp h

/-- An escape in either case is a `%` and the digits of its byte. -/
theorem exists_of_map_eq_escape {w : List Char} {b : UInt8} (h : w.map Char.toUpper = escape b) :
    ∃ high low, w = ['%', high, low] ∧ hexByte? high low = some b := by
  match w with
  | [] | [_] | [_, _] | _ :: _ :: _ :: _ :: _ => simp [escape] at h
  | [c, high, low] =>
    have hc : c = '%' := eq_percent_of_toUpper (List.cons.inj h).1
    rw [hc] at h
    exact ⟨high, low, by rw [hc], hexByte?_eq_some_iff.2 h⟩

/-! ## From spellings to bytes -/

theorem spells_escapes {bs bs' : List UInt8} {w raw : List Char}
    (hw : w.map Char.toUpper = bs.flatMap escape) (h : Spells raw bs') :
    Spells (w ++ raw) (bs ++ bs') := by
  induction bs generalizing w with
  | nil =>
    rw [List.map_eq_nil_iff.1 hw]
    exact h
  | cons b bs ih =>
    obtain ⟨w₁, w₂, rfl, h₁, h₂⟩ := List.map_eq_append_iff.1 hw
    obtain ⟨high, low, rfl, hb⟩ := exists_of_map_eq_escape h₁
    exact .escape hb (ih h₂)

theorem Writes.spells {c : Char} {w raw : List Char} {bs : List UInt8} (hw : Writes c w)
    (h : Spells raw bs) : Spells (w ++ raw) (String.utf8EncodeChar c ++ bs) := by
  cases hw with
  | literal he hp => exact .literal hp he h
  | plus => exact .plus h
  | escaped hw => exact spells_escapes hw h

theorem Spelling.spells {text raw : List Char} (h : Spelling text raw) :
    Spells raw (Utf8.encode text) := by
  induction h with
  | nil => exact .nil
  | cons hw _ ih => exact hw.spells ih

/-! ## From bytes to spellings -/

/-- Of the bytes of a character all but the first continue it. -/
theorem continues_of_utf8EncodeChar {c : Char} {b : UInt8} {more : List UInt8}
    (h : String.utf8EncodeChar c = b :: more) :
    Utf8.continues b = false ∧ ∀ x ∈ more, Utf8.continues x = true := by
  rw [Utf8.utf8EncodeChar_eq] at h
  have hc := Utf8.toNat_valid c
  split_ifs at h with h₁ h₂ h₃
  all_goals
    obtain ⟨rfl, rfl⟩ := List.cons.inj h
    refine ⟨?_, by simp [Utf8.continues_continuing]⟩
    rw [Bool.eq_false_iff, Ne, Utf8.continues_iff, Utf8.toNat_ofNat (by omega)]
    omega

/-- The first character of a text is read off its bytes. -/
theorem eq_of_encode_cons {c d : Char} {text : List Char} {bs : List UInt8}
    (h : Utf8.encode (c :: text) = String.utf8EncodeChar d ++ bs) :
    d = c ∧ bs = Utf8.encode text := by
  have hd := Utf8.decode_encode (c :: text)
  rw [h, Utf8.decode, Utf8.decodeFrom_utf8EncodeChar] at hd
  obtain ⟨cs, -, hcs⟩ := Utf8.map_cons_eq_ok hd
  obtain rfl : c = d := (List.cons.inj hcs).1
  exact ⟨rfl, (List.append_cancel_left h).symm⟩

theorem Spells.eq_nil {raw : List Char} (h : Spells raw []) : raw = [] := by
  generalize hbs : ([] : List UInt8) = bs at h
  cases h with
  | nil => rfl
  | plus | escape => cases hbs
  | literal => exact absurd (List.append_eq_nil_iff.1 hbs.symm).1 String.utf8EncodeChar_ne_nil

/-- What spells the first byte. -/
theorem Spells.cases_cons {raw : List Char} {b : UInt8} {bs : List UInt8}
    (h : Spells raw (b :: bs)) :
    (∃ rest, raw = '+' :: rest ∧ b = 0x20 ∧ Spells rest bs) ∨
      (∃ high low rest, raw = '%' :: high :: low :: rest ∧ hexByte? high low = some b ∧
        Spells rest bs) ∨
      ∃ c rest bs', c ≠ '+' ∧ c ≠ '%' ∧ raw = c :: rest ∧
        b :: bs = String.utf8EncodeChar c ++ bs' ∧ Spells rest bs' := by
  obtain ⟨all, hall⟩ : ∃ all, b :: bs = all := ⟨_, rfl⟩
  rw [hall] at h
  cases h with
  | nil => cases hall
  | plus h =>
    obtain ⟨rfl, rfl⟩ := List.cons.inj hall
    exact Or.inl ⟨_, rfl, rfl, h⟩
  | escape hb h =>
    obtain ⟨rfl, rfl⟩ := List.cons.inj hall
    exact Or.inr (Or.inl ⟨_, _, _, rfl, hb, h⟩)
  | literal hp he h => exact Or.inr (Or.inr ⟨_, _, _, hp, he, rfl, hall, h⟩)

/-- Bytes that continue a character are spelled by escapes: no other character
    begins with one. -/
theorem Spells.exists_escapes {more bs : List UInt8} {raw : List Char}
    (hmore : ∀ b ∈ more, Utf8.continues b = true) (h : Spells raw (more ++ bs)) :
    ∃ w rest, raw = w ++ rest ∧ w.map Char.toUpper = more.flatMap Percent.escape ∧
      Spells rest bs := by
  induction more generalizing raw with
  | nil => exact ⟨[], raw, rfl, rfl, h⟩
  | cons b more ih =>
    obtain ⟨hb, hmore⟩ := List.forall_mem_cons.1 hmore
    obtain ⟨rest, -, rfl, -⟩ | ⟨high, low, rest, rfl, hbyte, hrest⟩ |
      ⟨c, rest, bs', -, -, -, hc, -⟩ := h.cases_cons
    · cases hb
    · obtain ⟨w, rest, rfl, hw, hrest⟩ := ih hmore hrest
      refine ⟨'%' :: high :: low :: w, rest, rfl, ?_, hrest⟩
      rw [List.flatMap_cons, ← hexByte?_eq_some_iff.1 hbyte, ← hw, ← List.map_append]
      rfl
    · obtain ⟨b', more', he⟩ := exists_utf8EncodeChar c
      rw [he] at hc
      obtain ⟨rfl, -⟩ := List.cons.inj hc
      rw [(continues_of_utf8EncodeChar he).1] at hb
      cases hb

/-- By induction on the text, what spells its bytes writes its characters. -/
theorem Spells.spelling {text raw : List Char} (h : Spells raw (Utf8.encode text)) :
    Spelling text raw := by
  induction text generalizing raw with
  | nil =>
    rw [h.eq_nil]
    exact .nil
  | cons c text ih =>
    obtain ⟨b, more, hc⟩ := exists_utf8EncodeChar c
    have hbytes : Utf8.encode (c :: text) = b :: (more ++ Utf8.encode text) := by
      rw [Utf8.encode, List.flatMap_cons, hc]
      rfl
    rw [hbytes] at h
    obtain ⟨rest, rfl, rfl, hrest⟩ | ⟨high, low, rest, rfl, hb, hrest⟩ |
      ⟨d, rest, bs, hp, he, rfl, hd, hrest⟩ := h.cases_cons
    · have hspace : Utf8.encode (c :: text) =
          String.utf8EncodeChar ' ' ++ (more ++ Utf8.encode text) := hbytes
      obtain ⟨rfl, hbs⟩ := eq_of_encode_cons hspace
      rw [hbs] at hrest
      exact .cons .plus (ih hrest)
    · obtain ⟨w, rest, rfl, hw, hrest⟩ :=
        hrest.exists_escapes (continues_of_utf8EncodeChar hc).2
      have hesc : ('%' :: high :: low :: w).map Char.toUpper =
          (String.utf8EncodeChar c).flatMap Percent.escape := by
        rw [hc, List.flatMap_cons, ← hexByte?_eq_some_iff.1 hb, ← hw, ← List.map_append]
        rfl
      exact .cons (.escaped hesc) (ih hrest)
    · obtain ⟨rfl, rfl⟩ := eq_of_encode_cons (hbytes.trans hd)
      exact .cons (.literal he hp) (ih hrest)

theorem spelling_iff_spells {text raw : List Char} :
    Spelling text raw ↔ Spells raw (Utf8.encode text) :=
  ⟨Spelling.spells, Spells.spelling⟩

end Percent

namespace BaseQuery

open Percent (Spelling Spells StrayAfter FirstStrayAfter scanFrom)

variable {raw : List Char}

/-! ## Outcomes -/

theorem exists_spells_iff : (∃ bytes, Spells raw bytes) ↔ ∀ before, ¬ StrayAfter before raw := by
  rw [← Percent.malformed?_eq_none_iff]
  constructor
  · rintro ⟨bytes, h⟩
    exact (h.read 0).1
  · intro h
    exact ⟨_, Percent.spells_of_malformedFrom h⟩

/-- Without a stray `%` the bytes that are spelled are looked at. -/
theorem decodeText_of_spells {bytes : List UInt8} (h : Spells raw bytes) :
    decodeText raw =
      ((Utf8.decode bytes).mapError .notUtf8).mapError (.encoding (String.ofList raw)) := by
  obtain ⟨hm, hbytes⟩ := h.read 0
  rw [decodeText, Percent.decode, Percent.malformed?, hm, hbytes]

theorem decodeText_of_stray {before : List Char} (h : FirstStrayAfter before raw) :
    decodeText raw =
      .error (.encoding (String.ofList raw) (.malformed (Utf8.encode before).length)) := by
  rw [decodeText, Percent.decode, Percent.malformed?_eq_some_iff.2 ⟨before, h, rfl⟩]
  rfl

theorem decodeText_eq_error_iff {fault : BaseQueryFault} :
    decodeText raw = .error fault ↔
      (∃ before, FirstStrayAfter before raw ∧
        fault = .encoding (String.ofList raw) (.malformed (Utf8.encode before).length)) ∨
      ∃ bytes f, Spells raw bytes ∧ Utf8.decode bytes = .error f ∧
        fault = .encoding (String.ofList raw) (.notUtf8 f) := by
  constructor
  · intro h
    by_cases hs : ∃ bytes, Spells raw bytes
    · obtain ⟨bytes, hs⟩ := hs
      rw [decodeText_of_spells hs] at h
      cases hd : Utf8.decode bytes with
      | ok text => rw [hd] at h; cases h
      | error f =>
        rw [hd] at h
        exact Or.inr ⟨bytes, f, hs, hd, (Except.error.inj h).symm⟩
    · simp only [exists_spells_iff, Classical.not_forall, Classical.not_not] at hs
      obtain ⟨start, hstart⟩ := hs
      obtain ⟨before, hfirst⟩ := Percent.exists_firstStrayAfter hstart
      rw [decodeText_of_stray hfirst] at h
      exact Or.inl ⟨before, hfirst, (Except.error.inj h).symm⟩
  · rintro (⟨before, hfirst, rfl⟩ | ⟨bytes, f, hs, hd, rfl⟩)
    · exact decodeText_of_stray hfirst
    · rw [decodeText_of_spells hs, hd]
      rfl

/-- A raw text is rejected for a stray `%`, or because its bytes are not UTF-8. -/
theorem exists_decodeText_error_iff :
    (∃ fault, decodeText raw = .error fault) ↔
      (∃ before, StrayAfter before raw) ∨
        ∃ bytes, Spells raw bytes ∧ ∀ text, bytes ≠ Utf8.encode text := by
  simp only [decodeText_eq_error_iff]
  constructor
  · rintro ⟨fault, ⟨before, hfirst, -⟩ | ⟨bytes, f, hs, hd, -⟩⟩
    · exact Or.inl ⟨before, hfirst.1⟩
    · refine Or.inr ⟨bytes, hs, fun text ht => ?_⟩
      rw [Utf8.decode_eq_ok_iff.2 ht] at hd
      cases hd
  · rintro (⟨start, hstart⟩ | ⟨bytes, hs, hne⟩)
    · obtain ⟨before, hfirst⟩ := Percent.exists_firstStrayAfter hstart
      exact ⟨_, Or.inl ⟨before, hfirst, rfl⟩⟩
    · obtain ⟨f, hd⟩ : ∃ f, Utf8.decode bytes = .error f :=
        exists_eq_error fun ⟨text, ht⟩ => hne text (Utf8.decode_eq_ok_iff.1 ht)
      exact ⟨_, Or.inr ⟨bytes, f, hs, hd, rfl⟩⟩

theorem scanFrom_ne_outside : scanFrom (Utf8.encode raw) 0 ≠ .outside := by
  rw [Percent.scanFrom_zero]
  cases Percent.malformed? raw <;> simp [Percent.ScanEnd.ofIndex]

/-- The search over bytes finds the stray `%` that is reported. -/
theorem scanFrom_eq_stray_iff {index : Nat} :
    scanFrom (Utf8.encode raw) 0 = .stray index ↔
      decodeText raw = .error (.encoding (String.ofList raw) (.malformed index)) := by
  rw [Percent.scanFrom_zero, decodeText, Percent.decode]
  cases Percent.malformed? raw with
  | some i => simp [Percent.ScanEnd.ofIndex, Except.mapError]
  | none =>
    cases Utf8.decode (Percent.bytes (Percent.spaced raw)) <;>
      simp [Percent.ScanEnd.ofIndex, Except.mapError]

/-- **What raw texts are decoded to.**  A raw text is decoded to a text if and only if
    it is a spelling of it. Otherwise it has a stray `%`, and the first one is
    named by the number of bytes before it, or else its bytes are not UTF-8. The
    search over bytes for the stray `%` ends, and never reads beyond them. -/
theorem decodeText_outcome (raw : List Char) :
    (∀ text, decodeText raw = .ok text ↔ Spelling text raw) ∧
    ((∃ fault, decodeText raw = .error fault) ↔
      (∃ before, StrayAfter before raw) ∨
        ∃ bytes, Spells raw bytes ∧ ∀ text, bytes ≠ Utf8.encode text) ∧
    (∀ fault, decodeText raw = .error fault ↔
      (∃ before, FirstStrayAfter before raw ∧
        fault = .encoding (String.ofList raw) (.malformed (Utf8.encode before).length)) ∨
      ∃ bytes f, Spells raw bytes ∧ Utf8.decode bytes = .error f ∧
        fault = .encoding (String.ofList raw) (.notUtf8 f)) ∧
    (∀ index, (BaseQueryFault.encoding (String.ofList raw) (.malformed index)).message =
      "malformed percent-escape at byte " ++ toString index ++ " in "
        ++ backquoted (String.ofList raw)) ∧
    scanFrom (Utf8.encode raw) 0 ≠ .outside ∧
    ∀ index, scanFrom (Utf8.encode raw) 0 = .stray index ↔
      decodeText raw = .error (.encoding (String.ofList raw) (.malformed index)) := by
  refine ⟨fun text => ?_, exists_decodeText_error_iff, fun fault => decodeText_eq_error_iff,
    fun _ => rfl, scanFrom_ne_outside, fun index => scanFrom_eq_stray_iff⟩
  rw [decodeText_eq_ok_iff, Percent.spelling_iff_spells]

-- What is decoded is not decoded again, and only a written `+` is a space.
example : (decodeText "a%252B+%2b%C3%a9".toList).toOption = some "a%2B +é".toList := by
  decide +kernel

end BaseQuery

end TableQuery
