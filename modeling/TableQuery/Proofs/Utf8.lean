/-
  UTF-8 read back: decoding the bytes of a text gives the text, and no other
  bytes are decoded.

  * `decodeFrom_utf8EncodeChar`: the bytes of one character are read as that
    character, whatever follows;
  * `decode_encode`: so the bytes of a text are read as the text;
  * `encode_one` to `encode_four`: the bytes that are read as one character are
    those of that character;
  * `decode_eq_ok_iff`: bytes are read as a text if and only if they are its
    bytes.
-/
import Mathlib.Tactic.SplitIfs
import TableQuery.Text.Utf8

namespace TableQuery.Utf8

/-! ## Ranges of bytes -/

theorem within_iff {low high b : UInt8} :
    within (low, high) b = true ↔ low.toNat ≤ b.toNat ∧ b.toNat ≤ high.toNat := by
  simp [within, UInt8.le_iff_toNat_le]

/-- The least and the greatest second byte after a first byte. -/
theorem within_secondRange_iff {a b : UInt8} :
    within (secondRange a) b = true ↔
      (if a.toNat = 0xE0 then 0xA0 else if a.toNat = 0xF0 then 0x90 else 0x80) ≤ b.toNat ∧
        b.toNat ≤ (if a.toNat = 0xED then 0x9F else if a.toNat = 0xF4 then 0x8F else 0xBF) := by
  have ha : ∀ n : UInt8, a = n ↔ a.toNat = n.toNat := fun n => UInt8.toNat_inj.symm
  unfold secondRange
  simp only [ha]
  split_ifs <;> simp_all [within_iff]

/-- A continuing byte of a character carries six of its bits. -/
def continuing (n : Nat) : UInt8 :=
  UInt8.ofNat (n % 64 + 0x80)

theorem toNat_continuing (n : Nat) : (continuing n).toNat = n % 64 + 0x80 := by
  rw [continuing, UInt8.toNat_ofNat']
  omega

theorem continues_continuing (n : Nat) : continues (continuing n) = true := by
  rw [continues, within_iff, toNat_continuing]
  have := Nat.mod_lt n (by decide : 0 < 64)
  exact ⟨by simp, by simp; omega⟩

theorem extend_continuing (value n : Nat) : extend value (continuing n) = value * 64 + n % 64 := by
  rw [extend, toNat_continuing]
  omega

/-! ## The bytes of a character -/

theorem utf8EncodeChar_eq (c : Char) :
    String.utf8EncodeChar c =
      if c.toNat ≤ 0x7F then [UInt8.ofNat c.toNat]
      else if c.toNat ≤ 0x7FF then
        [UInt8.ofNat (c.toNat / 64 % 32 + 0xC0), continuing c.toNat]
      else if c.toNat ≤ 0xFFFF then
        [UInt8.ofNat (c.toNat / 4096 % 16 + 0xE0), continuing (c.toNat / 64), continuing c.toNat]
      else
        [UInt8.ofNat (c.toNat / 262144 % 8 + 0xF0), continuing (c.toNat / 4096),
          continuing (c.toNat / 64), continuing c.toNat] :=
  rfl

theorem toNat_valid (c : Char) : c.toNat < 0xD800 ∨ 0xDFFF < c.toNat ∧ c.toNat < 0x110000 :=
  c.valid

/-! ## Reading one character -/

section
variable (start : Nat) {a b c d : UInt8} (rest : List UInt8)

theorem decodeFrom_one (ha : a.toNat < 0x80) :
    decodeFrom start (a :: rest) = (decodeFrom (start + 1) rest).map (Char.ofNat a.toNat :: ·) := by
  rw [decodeFrom.eq_def]; simp only; rw [if_pos (UInt8.lt_iff_toNat_lt.2 ha)]

/-- A first byte of two lies in neither of the other ranges. -/
theorem decodeFrom_two (ha : 0xC2 ≤ a.toNat ∧ a.toNat ≤ 0xDF) (hb : continues b = true) :
    decodeFrom start (a :: b :: rest) =
      (decodeFrom (start + 2) rest).map (Char.ofNat (extend (a.toNat % 32) b) :: ·) := by
  have h₁ : ¬ a < 0x80 := by rw [UInt8.lt_iff_toNat_lt]; simp; omega
  have h₂ : within (0xC2, 0xDF) a = true := within_iff.2 ha
  rw [decodeFrom.eq_def]
  simp only [h₁, h₂, hb, if_true, if_false]

theorem decodeFrom_three (ha : 0xE0 ≤ a.toNat ∧ a.toNat ≤ 0xEF)
    (hb : within (secondRange a) b = true) (hc : continues c = true) :
    decodeFrom start (a :: b :: c :: rest) =
      (decodeFrom (start + 3) rest).map
        (Char.ofNat (extend (extend (a.toNat % 16) b) c) :: ·) := by
  have h₁ : ¬ a < 0x80 := by rw [UInt8.lt_iff_toNat_lt]; simp; omega
  have h₂ : ¬ within (0xC2, 0xDF) a = true := by rw [within_iff]; simp; omega
  have h₃ : within (0xE0, 0xEF) a = true := within_iff.2 ha
  rw [decodeFrom.eq_def]
  simp only [h₁, h₂, h₃, hb, hc, Bool.false_eq_true, if_true, if_false]

theorem decodeFrom_four (ha : 0xF0 ≤ a.toNat ∧ a.toNat ≤ 0xF4)
    (hb : within (secondRange a) b = true) (hc : continues c = true) (hd : continues d = true) :
    decodeFrom start (a :: b :: c :: d :: rest) =
      (decodeFrom (start + 4) rest).map
        (Char.ofNat (extend (extend (extend (a.toNat % 8) b) c) d) :: ·) := by
  have h₁ : ¬ a < 0x80 := by rw [UInt8.lt_iff_toNat_lt]; simp; omega
  have h₂ : ¬ within (0xC2, 0xDF) a = true := by rw [within_iff]; simp; omega
  have h₃ : ¬ within (0xE0, 0xEF) a = true := by rw [within_iff]; simp; omega
  have h₄ : within (0xF0, 0xF4) a = true := within_iff.2 ha
  rw [decodeFrom.eq_def]
  simp only [h₁, h₂, h₃, h₄, hb, hc, hd, Bool.false_eq_true, if_true, if_false]

end

theorem toNat_ofNat {n : Nat} (h : n < 256) : (UInt8.ofNat n).toNat = n := by
  rw [UInt8.toNat_ofNat', Nat.mod_eq_of_lt h]

/-- The bytes of a character are read as the character, whatever follows. -/
theorem decodeFrom_utf8EncodeChar (x : Char) (start : Nat) (rest : List UInt8) :
    decodeFrom start (String.utf8EncodeChar x ++ rest) =
      (decodeFrom (start + (String.utf8EncodeChar x).length) rest).map (x :: ·) := by
  have hx := toNat_valid x
  rw [utf8EncodeChar_eq]
  split_ifs with h₁ h₂ h₃
  · have ha := toNat_ofNat (n := x.toNat) (by omega)
    rw [List.singleton_append, decodeFrom_one _ _ (by omega), ha, Char.ofNat_toNat]
    rfl
  · have ha := toNat_ofNat (n := x.toNat / 64 % 32 + 0xC0) (by omega)
    rw [List.cons_append, List.singleton_append,
      decodeFrom_two _ _ (by omega) (continues_continuing _), ha, extend_continuing,
      show (x.toNat / 64 % 32 + 0xC0) % 32 * 64 + x.toNat % 64 = x.toNat by omega,
      Char.ofNat_toNat]
    rfl
  · have ha := toNat_ofNat (n := x.toNat / 4096 % 16 + 0xE0) (by omega)
    have hb := toNat_continuing (x.toNat / 64)
    have hab : within (secondRange (UInt8.ofNat (x.toNat / 4096 % 16 + 0xE0)))
        (continuing (x.toNat / 64)) = true := by
      rw [within_secondRange_iff, ha, hb]
      split_ifs <;> omega
    rw [List.cons_append, List.cons_append, List.singleton_append,
      decodeFrom_three _ _ (by omega) hab (continues_continuing _), ha, extend_continuing,
      extend_continuing,
      show ((x.toNat / 4096 % 16 + 0xE0) % 16 * 64 + x.toNat / 64 % 64) * 64 + x.toNat % 64 =
        x.toNat by omega, Char.ofNat_toNat]
    rfl
  · have ha := toNat_ofNat (n := x.toNat / 262144 % 8 + 0xF0) (by omega)
    have hb := toNat_continuing (x.toNat / 4096)
    have hab : within (secondRange (UInt8.ofNat (x.toNat / 262144 % 8 + 0xF0)))
        (continuing (x.toNat / 4096)) = true := by
      rw [within_secondRange_iff, ha, hb]
      split_ifs <;> omega
    rw [List.cons_append, List.cons_append, List.cons_append, List.singleton_append,
      decodeFrom_four _ _ (by omega) hab (continues_continuing _) (continues_continuing _), ha,
      extend_continuing, extend_continuing, extend_continuing,
      show (((x.toNat / 262144 % 8 + 0xF0) % 8 * 64 + x.toNat / 4096 % 64) * 64
        + x.toNat / 64 % 64) * 64 + x.toNat % 64 = x.toNat by omega, Char.ofNat_toNat]
    rfl

/-! ## A text -/

theorem decodeFrom_encode (cs : List Char) (start : Nat) :
    decodeFrom start (encode cs) = .ok cs := by
  induction cs generalizing start with
  | nil => rfl
  | cons c cs ih =>
    rw [encode, List.flatMap_cons, decodeFrom_utf8EncodeChar, ← encode, ih]
    rfl

/-- Every text is read back from its bytes. -/
theorem decode_encode (cs : List Char) : decode (encode cs) = .ok cs :=
  decodeFrom_encode cs 0

theorem encode_injective {cs ds : List Char} (h : encode cs = encode ds) : cs = ds := by
  have hd := decode_encode cs
  rw [h, decode_encode] at hd
  exact (Except.ok.inj hd).symm

/-! ## The bytes that are read -/

section
variable {a b c d : UInt8}

/-- The number of a character of a code point that is no surrogate. -/
theorem toNat_charOfNat {n : Nat} (h : n < 0xD800 ∨ 0xDFFF < n ∧ n < 0x110000) :
    (Char.ofNat n).toNat = n := by
  rw [Char.ofNat, dif_pos h]
  rfl

theorem ofNat_eq {n : Nat} (h : n = a.toNat) : UInt8.ofNat n = a := by
  rw [h, UInt8.ofNat_toNat]

theorem continuing_eq {n : Nat} (h : n % 64 + 0x80 = b.toNat) : continuing n = b :=
  ofNat_eq h

theorem continues_iff : continues b = true ↔ 0x80 ≤ b.toNat ∧ b.toNat ≤ 0xBF :=
  within_iff

theorem encode_one (ha : a.toNat < 0x80) :
    String.utf8EncodeChar (Char.ofNat a.toNat) = [a] := by
  rw [utf8EncodeChar_eq, toNat_charOfNat (by omega), if_pos (by omega), ofNat_eq rfl]

theorem encode_two (ha : 0xC2 ≤ a.toNat ∧ a.toNat ≤ 0xDF) (hb : continues b = true) :
    String.utf8EncodeChar (Char.ofNat (extend (a.toNat % 32) b)) = [a, b] := by
  rw [continues_iff] at hb
  obtain ⟨v, hv⟩ : ∃ v, v = extend (a.toNat % 32) b := ⟨_, rfl⟩
  have hn : v = (a.toNat - 0xC0) * 64 + (b.toNat - 0x80) := by rw [hv, extend]; omega
  have ha' : UInt8.ofNat (v / 64 % 32 + 0xC0) = a := ofNat_eq (by omega)
  have hb' : continuing v = b := continuing_eq (by omega)
  rw [← hv, utf8EncodeChar_eq, toNat_charOfNat (by omega), if_neg (by omega), if_pos (by omega),
    ha', hb']

/-- The range of the second byte keeps out code points of fewer bytes and
    surrogates. -/
theorem encode_three (ha : 0xE0 ≤ a.toNat ∧ a.toNat ≤ 0xEF)
    (hb : within (secondRange a) b = true) (hc : continues c = true) :
    String.utf8EncodeChar (Char.ofNat (extend (extend (a.toNat % 16) b) c)) = [a, b, c] := by
  rw [continues_iff] at hc
  rw [within_secondRange_iff] at hb
  obtain ⟨v, hv⟩ : ∃ v, v = extend (extend (a.toNat % 16) b) c := ⟨_, rfl⟩
  have hb₀ : 0x80 ≤ b.toNat ∧ b.toNat ≤ 0xBF := by
    split_ifs at hb <;> omega
  have hn : v = ((a.toNat - 0xE0) * 64 + (b.toNat - 0x80)) * 64 + (c.toNat - 0x80) := by
    rw [hv, extend, extend]; omega
  have hlow : 0x7FF < v := by split_ifs at hb <;> omega
  have hvalid : v < 0xD800 ∨ 0xDFFF < v ∧ v < 0x110000 := by split_ifs at hb <;> omega
  have ha' : UInt8.ofNat (v / 4096 % 16 + 0xE0) = a := ofNat_eq (by omega)
  have hb' : continuing (v / 64) = b := continuing_eq (by omega)
  have hc' : continuing v = c := continuing_eq (by omega)
  rw [← hv, utf8EncodeChar_eq, toNat_charOfNat hvalid, if_neg (by omega), if_neg (by omega),
    if_pos (by omega), ha', hb', hc']

/-- The range of the second byte keeps out code points of fewer bytes and those
    beyond the last. -/
theorem encode_four (ha : 0xF0 ≤ a.toNat ∧ a.toNat ≤ 0xF4)
    (hb : within (secondRange a) b = true) (hc : continues c = true) (hd : continues d = true) :
    String.utf8EncodeChar (Char.ofNat (extend (extend (extend (a.toNat % 8) b) c) d)) =
      [a, b, c, d] := by
  rw [continues_iff] at hc hd
  rw [within_secondRange_iff] at hb
  obtain ⟨v, hv⟩ : ∃ v, v = extend (extend (extend (a.toNat % 8) b) c) d := ⟨_, rfl⟩
  have hb₀ : 0x80 ≤ b.toNat ∧ b.toNat ≤ 0xBF := by
    split_ifs at hb <;> omega
  have hn : v = (((a.toNat - 0xF0) * 64 + (b.toNat - 0x80)) * 64 + (c.toNat - 0x80)) * 64
      + (d.toNat - 0x80) := by
    rw [hv, extend, extend, extend]; omega
  have hrange : 0xFFFF < v ∧ v < 0x110000 := by split_ifs at hb <;> omega
  have ha' : UInt8.ofNat (v / 262144 % 8 + 0xF0) = a := ofNat_eq (by omega)
  have hb' : continuing (v / 4096) = b := continuing_eq (by omega)
  have hc' : continuing (v / 64) = c := continuing_eq (by omega)
  have hd' : continuing v = d := continuing_eq (by omega)
  rw [← hv, utf8EncodeChar_eq, toNat_charOfNat (by omega), if_neg (by omega), if_neg (by omega),
    if_neg (by omega), ha', hb', hc', hd']

end

theorem map_cons_eq_ok {ε : Type} {x : Except ε (List Char)} {c : Char} {cs : List Char}
    (h : x.map (c :: ·) = .ok cs) : ∃ cs', x = .ok cs' ∧ cs = c :: cs' := by
  cases x with
  | error e => cases h
  | ok cs' => exact ⟨cs', rfl, (Except.ok.inj h).symm⟩

/-- By induction on the characters that are read, bytes that are read as a text
    are its bytes. -/
theorem eq_encode_of_decodeFrom {bs : List UInt8} {cs : List Char} {start : Nat}
    (h : decodeFrom start bs = .ok cs) : bs = encode cs := by
  fun_induction decodeFrom start bs generalizing cs
  case case1 => rw [← Except.ok.inj h]; rfl
  case case2 a r ha ih =>
    obtain ⟨cs, hcs, rfl⟩ := map_cons_eq_ok h
    rw [encode, List.flatMap_cons, ← encode, ← ih hcs, encode_one (UInt8.lt_iff_toNat_lt.1 ha)]
    rfl
  case case4 a _ ha b r hb ih =>
    obtain ⟨cs, hcs, rfl⟩ := map_cons_eq_ok h
    rw [encode, List.flatMap_cons, ← encode, ← ih hcs, encode_two (within_iff.1 ha) hb]
    rfl
  case case8 a _ _ ha b hb c r hc ih =>
    obtain ⟨cs, hcs, rfl⟩ := map_cons_eq_ok h
    rw [encode, List.flatMap_cons, ← encode, ← ih hcs, encode_three (within_iff.1 ha) hb hc]
    rfl
  case case14 a _ _ _ ha b hb c hc d r hd ih =>
    obtain ⟨cs, hcs, rfl⟩ := map_cons_eq_ok h
    rw [encode, List.flatMap_cons, ← encode, ← ih hcs, encode_four (within_iff.1 ha) hb hc hd]
    rfl
  -- all other cases are faults
  all_goals cases h

/-- Bytes are read as a text if and only if they are its bytes. -/
theorem decode_eq_ok_iff {bs : List UInt8} {cs : List Char} :
    decode bs = .ok cs ↔ bs = encode cs :=
  ⟨eq_encode_of_decodeFrom, fun h => h ▸ decode_encode cs⟩

end TableQuery.Utf8
