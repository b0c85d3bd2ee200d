/-
  Looking for malformed escapes.

  A `%` is stray if no two hexadecimal digits follow it. No digit is a `%`, so
  every `%` of a text is looked at, and the first stray one is reported by the
  number of bytes before it.

  * `malformed?_eq_some_iff`, `malformed?_eq_none_iff`: what is reported;
  * `scanFrom`: the same search over bytes, which reads them by their indices;
  * `scanFrom_encode`, `scanFrom_zero`: it never reads beyond the end, and reports the
    same.
-/
import TableQuery.Proofs.Spelling

namespace TableQuery.Percent

/-! ## Stray signs -/

/-- A hexadecimal digit of ASCII. -/
def IsHexDigit (c : Char) : Prop :=
  '0' ≤ c ∧ c ≤ '9' ∨ 'a' ≤ c ∧ c ≤ 'f' ∨ 'A' ≤ c ∧ c ≤ 'F'

/-- Two hexadecimal digits begin a text. -/
def BeginsByte (cs : List Char) : Prop :=
  ∃ high low rest, cs = high :: low :: rest ∧ IsHexDigit high ∧ IsHexDigit low

/-- Behind these first characters of a text stands a `%` that no two hexadecimal
    digits follow. -/
def StrayAfter (before raw : List Char) : Prop :=
  ∃ after, raw = before ++ '%' :: after ∧ ¬ BeginsByte after

/-- The stray `%` with the fewest characters before it. -/
def FirstStrayAfter (before raw : List Char) : Prop :=
  StrayAfter before raw ∧ ∀ before', StrayAfter before' raw → before.length ≤ before'.length

theorem isSome_hexDigit?_iff {c : Char} : (hexDigit? c).isSome ↔ IsHexDigit c := by
  unfold hexDigit? IsHexDigit
  split_ifs <;> simp_all

theorem isSome_hexByte?_iff {high low : Char} :
    (hexByte? high low).isSome ↔ IsHexDigit high ∧ IsHexDigit low := by
  rw [← isSome_hexDigit?_iff, ← isSome_hexDigit?_iff, hexByte?]
  cases hexDigit? high <;> cases hexDigit? low <;> simp

theorem beginsByte_cons_iff {high low : Char} {rest : List Char} :
    BeginsByte (high :: low :: rest) ↔ (hexByte? high low).isSome := by
  rw [isSome_hexByte?_iff]
  constructor
  · rintro ⟨_, _, _, h, hh, hl⟩
    simp only [List.cons.injEq] at h
    obtain ⟨rfl, rfl, -⟩ := h
    exact ⟨hh, hl⟩
  · rintro ⟨hh, hl⟩
    exact ⟨high, low, rest, rfl, hh, hl⟩

theorem isHexDigit_iff {c : Char} :
    IsHexDigit c ↔ 48 ≤ c.toNat ∧ c.toNat ≤ 57 ∨ 97 ≤ c.toNat ∧ c.toNat ≤ 102 ∨
      65 ≤ c.toNat ∧ c.toNat ≤ 70 := by
  simp only [IsHexDigit, Char.le_def, UInt32.le_iff_toNat_le]
  rfl

theorem IsHexDigit.ne_percent {c : Char} (h : IsHexDigit c) : c ≠ '%' := by
  rintro rfl
  revert h
  simp [isHexDigit_iff]

theorem IsHexDigit.utf8Size {c : Char} (h : IsHexDigit c) : c.utf8Size = 1 := by
  rw [isHexDigit_iff] at h
  rw [← String.length_utf8EncodeChar, Utf8.utf8EncodeChar_eq, if_pos (by omega)]
  rfl

variable {before cs raw : List Char} {c high low : Char}

theorem length_encode_escape (hh : IsHexDigit high) (hl : IsHexDigit low) :
    (Utf8.encode ['%', high, low]).length = 3 := by
  have hp : ('%' : Char).utf8Size = 1 := rfl
  simp [Utf8.encode, hp, hh.utf8Size, hl.utf8Size]

theorem not_strayAfter_nil : ¬ StrayAfter before [] := by
  rintro ⟨after, h, -⟩
  simp at h

theorem strayAfter_literal_iff (hc : c ≠ '%') :
    StrayAfter before ([c] ++ cs) ↔ ∃ rest, before = [c] ++ rest ∧ StrayAfter rest cs := by
  constructor
  · rintro ⟨after, h, hs⟩
    cases before with
    | nil => exact absurd (List.cons.inj h).1 hc
    | cons d rest =>
      obtain ⟨rfl, hcs⟩ := List.cons.inj h
      exact ⟨rest, rfl, after, hcs, hs⟩
  · rintro ⟨rest, rfl, after, rfl, hs⟩
    exact ⟨after, rfl, hs⟩

/-- No `%` is among the characters of an escape behind the first. -/
theorem strayAfter_escaped_iff (hh : IsHexDigit high) (hl : IsHexDigit low) :
    StrayAfter before (['%', high, low] ++ cs) ↔
      ∃ rest, before = ['%', high, low] ++ rest ∧ StrayAfter rest cs := by
  constructor
  · rintro ⟨after, h, hs⟩
    match before with
    | [] =>
      obtain ⟨-, rfl⟩ := List.cons.inj h
      exact absurd ⟨high, low, cs, rfl, hh, hl⟩ hs
    | [_] => exact absurd (List.cons.inj (List.cons.inj h).2).1 hh.ne_percent
    | [_, _] =>
      exact absurd (List.cons.inj (List.cons.inj (List.cons.inj h).2).2).1 hl.ne_percent
    | _ :: _ :: _ :: rest =>
      simp only [List.cons_append, List.cons.injEq] at h
      obtain ⟨rfl, rfl, rfl, h⟩ := h
      exact ⟨rest, rfl, after, h, hs⟩
  · rintro ⟨rest, rfl, after, rfl, hs⟩
    exact ⟨after, rfl, hs⟩

/-- Behind a part that no stray `%` begins in, the first one is that of the rest. -/
theorem firstStrayAfter_append_iff {part : List Char}
    (h : ∀ before, StrayAfter before (part ++ cs) ↔
      ∃ rest, before = part ++ rest ∧ StrayAfter rest cs) :
    FirstStrayAfter before (part ++ cs) ↔
      ∃ rest, before = part ++ rest ∧ FirstStrayAfter rest cs := by
  constructor
  · rintro ⟨hs, hfirst⟩
    obtain ⟨rest, rfl, hrest⟩ := (h before).1 hs
    refine ⟨rest, rfl, hrest, fun rest' hrest' => ?_⟩
    have hle := hfirst _ ((h _).2 ⟨rest', rfl, hrest'⟩)
    simpa using hle
  · rintro ⟨rest, rfl, hrest, hfirst⟩
    refine ⟨(h _).2 ⟨rest, rfl, hrest⟩, fun before' hbefore' => ?_⟩
    obtain ⟨rest', rfl, hrest'⟩ := (h before').1 hbefore'
    simpa using hfirst rest' hrest'

theorem firstStrayAfter_percent_iff (h : ¬ BeginsByte cs) :
    FirstStrayAfter before ('%' :: cs) ↔ before = [] := by
  have hs : StrayAfter [] ('%' :: cs) := ⟨cs, rfl, h⟩
  constructor
  · intro hfirst
    exact List.length_eq_zero_iff.1 (Nat.le_zero.1 (hfirst.2 [] hs))
  · rintro rfl
    exact ⟨hs, fun _ _ => Nat.zero_le _⟩

/-- By descent on the number of characters before it, there is a first stray `%` if
    there is one. -/
theorem exists_firstStrayAfter {raw start : List Char} (h : StrayAfter start raw) :
    ∃ before, FirstStrayAfter before raw := by
  by_cases hfirst : ∀ before, StrayAfter before raw → start.length ≤ before.length
  · exact ⟨start, h, hfirst⟩
  · simp only [Classical.not_forall, Nat.not_le] at hfirst
    obtain ⟨before, hb, hlt⟩ := hfirst
    exact exists_firstStrayAfter hb
termination_by start.length

/-! ## What is reported -/

theorem encode_append (cs ds : List Char) :
    Utf8.encode (cs ++ ds) = Utf8.encode cs ++ Utf8.encode ds :=
  List.flatMap_append

/-- The bytes before the first stray `%` are those of the part and those of the
    rest. -/
theorem index_append_iff {part : List Char} {start index : Nat}
    (h : ∀ before, StrayAfter before (part ++ cs) ↔
      ∃ rest, before = part ++ rest ∧ StrayAfter rest cs) :
    (∃ before, FirstStrayAfter before cs ∧
        index = start + (Utf8.encode part).length + (Utf8.encode before).length) ↔
      ∃ before, FirstStrayAfter before (part ++ cs) ∧
        index = start + (Utf8.encode before).length := by
  have hlen : ∀ rest, start + (Utf8.encode (part ++ rest)).length =
      start + (Utf8.encode part).length + (Utf8.encode rest).length := by
    intro rest
    rw [encode_append, List.length_append, Nat.add_assoc]
  constructor
  · rintro ⟨rest, hrest, rfl⟩
    exact ⟨part ++ rest, (firstStrayAfter_append_iff h).2 ⟨rest, rfl, hrest⟩, (hlen rest).symm⟩
  · rintro ⟨before, hbefore, rfl⟩
    obtain ⟨rest, rfl, hrest⟩ := (firstStrayAfter_append_iff h).1 hbefore
    exact ⟨rest, hrest, hlen rest⟩

/-- By induction on the search, the first stray `%` is reported, with the number of
    bytes before it. -/
theorem malformedFrom_eq_some_iff {start index : Nat} :
    malformedFrom start raw = some index ↔
      ∃ before, FirstStrayAfter before raw ∧ index = start + (Utf8.encode before).length := by
  fun_induction malformedFrom start raw with
  | case1 => simp [FirstStrayAfter, not_strayAfter_nil]
  | case2 start high low rest hbyte ih =>
    obtain ⟨hh, hl⟩ := isSome_hexByte?_iff.1 hbyte
    rw [ih, ← length_encode_escape hh hl]
    exact index_append_iff fun _ => strayAfter_escaped_iff hh hl
  | case3 start high low rest hbyte =>
    simp [firstStrayAfter_percent_iff (mt beginsByte_cons_iff.1 hbyte), Utf8.encode, eq_comm]
  | case4 start cs hcs =>
    have hb : ¬ BeginsByte cs := by
      rintro ⟨high, low, rest, h, -⟩
      exact hcs high low rest h
    simp [firstStrayAfter_percent_iff hb, Utf8.encode, eq_comm]
  | case5 start c cs hc ih =>
    have hlen : (Utf8.encode [c]).length = c.utf8Size := by simp [Utf8.encode]
    rw [ih, ← hlen]
    exact index_append_iff fun _ => strayAfter_literal_iff hc

theorem malformed?_eq_some_iff {index : Nat} :
    malformed? raw = some index ↔
      ∃ before, FirstStrayAfter before raw ∧ index = (Utf8.encode before).length := by
  simp [malformed?, malformedFrom_eq_some_iff]

theorem malformed?_eq_none_iff : malformed? raw = none ↔ ∀ before, ¬ StrayAfter before raw := by
  constructor
  · intro h before hs
    obtain ⟨first, hfirst⟩ := exists_firstStrayAfter hs
    have hsome := malformed?_eq_some_iff.2 ⟨first, hfirst, rfl⟩
    rw [h] at hsome
    cases hsome
  · intro h
    refine Option.eq_none_iff_forall_ne_some.2 fun index hi => ?_
    obtain ⟨before, hb, -⟩ := malformed?_eq_some_iff.1 hi
    exact h before hb.1

/-! ## The search over bytes -/

/-- A hexadecimal digit as a byte. -/
def isHexByte (b : UInt8) : Bool :=
  Utf8.within (0x30, 0x39) b || Utf8.within (0x61, 0x66) b || Utf8.within (0x41, 0x46) b

/-- What a search over bytes comes to. -/
inductive ScanEnd where
  /-- It would read from beyond the last byte. -/
  | outside
  | stray (index : Nat)
  | clean
  deriving DecidableEq, Repr

def ScanEnd.ofIndex : Option Nat → ScanEnd
  | some index => .stray index
  | none => .clean

/-- Look at the bytes from an index on: for the next `%`, for two digits behind it,
    and on from the byte behind these. -/
def scanFrom (bs : List UInt8) (i : Nat) : ScanEnd :=
  if bs.length < i then .outside
  else
    match (bs.drop i).findIdx? (· == 0x25) with
    | none => .clean
    | some gap =>
      let digits := (bs.drop (i + gap + 1)).take 2
      if digits.length = 2 ∧ digits.all isHexByte then scanFrom bs (i + gap + 3)
      else .stray (i + gap)
termination_by bs.length + 1 - i

theorem isHexByte_iff {b : UInt8} :
    isHexByte b = true ↔ 48 ≤ b.toNat ∧ b.toNat ≤ 57 ∨ 97 ≤ b.toNat ∧ b.toNat ≤ 102 ∨
      65 ≤ b.toNat ∧ b.toNat ≤ 70 := by
  simp [isHexByte, Utf8.within_iff, or_assoc]

theorem exists_utf8EncodeChar (c : Char) : ∃ b more, String.utf8EncodeChar c = b :: more :=
  List.exists_cons_of_ne_nil String.utf8EncodeChar_ne_nil

/-- The bytes of a character are below 128 if and only if it is. -/
theorem utf8EncodeChar_cases (c : Char) :
    c.toNat < 128 ∧ String.utf8EncodeChar c = [UInt8.ofNat c.toNat] ∨
      128 ≤ c.toNat ∧ ∀ b ∈ String.utf8EncodeChar c, 128 ≤ b.toNat := by
  rw [Utf8.utf8EncodeChar_eq]
  split_ifs with h₁ h₂ h₃
  · exact Or.inl ⟨by omega, rfl⟩
  all_goals
    refine Or.inr ⟨by omega, ?_⟩
    simp only [List.forall_mem_cons, Utf8.toNat_continuing, List.not_mem_nil, false_imp_iff,
      implies_true, and_true]
    rw [Utf8.toNat_ofNat (by omega)]
    omega

theorem isHexByte_head_iff {b : UInt8} {more : List UInt8}
    (h : String.utf8EncodeChar c = b :: more) : isHexByte b = true ↔ IsHexDigit c := by
  rw [isHexByte_iff, isHexDigit_iff]
  obtain ⟨hc, he⟩ | ⟨hc, hb⟩ := utf8EncodeChar_cases c
  · obtain ⟨rfl, -⟩ := List.cons.inj (h.symm.trans he)
    rw [Utf8.toNat_ofNat (by omega)]
  · have hb := hb b (h ▸ List.mem_cons_self)
    omega

theorem IsHexDigit.utf8EncodeChar (h : IsHexDigit c) :
    ∃ b, String.utf8EncodeChar c = [b] ∧ isHexByte b = true := by
  obtain ⟨-, he⟩ | ⟨hc, -⟩ := utf8EncodeChar_cases c
  · exact ⟨_, he, (isHexByte_head_iff he).2 h⟩
  · rw [isHexDigit_iff] at h
    omega

/-- Two digits are seen in the bytes of a text if and only if they begin it. -/
theorem beginsByte_iff :
    ((Utf8.encode cs).take 2).length = 2 ∧ ((Utf8.encode cs).take 2).all isHexByte ↔
      BeginsByte cs := by
  constructor
  · rintro ⟨hlen, hall⟩
    cases cs with
    | nil => simp [Utf8.encode] at hlen
    | cons high cs =>
      obtain ⟨b, more, hb⟩ := exists_utf8EncodeChar high
      have hh : IsHexDigit high := by
        rw [← isHexByte_head_iff hb]
        simp_all [Utf8.encode]
      obtain ⟨b, hb, -⟩ := hh.utf8EncodeChar
      cases cs with
      | nil => simp [Utf8.encode, hb] at hlen
      | cons low rest =>
        obtain ⟨b', more', hb'⟩ := exists_utf8EncodeChar low
        have hl : IsHexDigit low := by
          rw [← isHexByte_head_iff hb']
          simp_all [Utf8.encode]
        exact ⟨high, low, rest, rfl, hh, hl⟩
  · rintro ⟨high, low, rest, rfl, hh, hl⟩
    obtain ⟨b, hb, hhex⟩ := hh.utf8EncodeChar
    obtain ⟨b', hb', hhex'⟩ := hl.utf8EncodeChar
    simp [Utf8.encode, hb, hb', hhex, hhex']

theorem percent_not_mem_utf8EncodeChar (hc : c ≠ '%') : 0x25 ∉ String.utf8EncodeChar c := by
  intro h
  obtain ⟨hlt, he⟩ | ⟨-, hb⟩ := utf8EncodeChar_cases c
  · rw [he, List.mem_singleton, ← UInt8.toNat_inj, Utf8.toNat_ofNat (by omega)] at h
    exact hc (Char.toNat_inj.1 h.symm)
  · exact absurd (hb _ h) (by decide)

section
variable {bs rest : List UInt8} {i : Nat}

/-- Behind a part of the bytes the rest of them begins. -/
theorem drop_part {part : List UInt8} (hi : i ≤ bs.length) (h : bs.drop i = part ++ rest) :
    i + part.length ≤ bs.length ∧ bs.drop (i + part.length) = rest := by
  have hlen := congrArg List.length h
  rw [List.length_drop, List.length_append] at hlen
  exact ⟨by omega, by rw [← List.drop_drop, h, List.drop_left]⟩

theorem lt_length_of_drop {b : UInt8} (h : bs.drop i = b :: rest) : i < bs.length := by
  have hlen := congrArg List.length h
  rw [List.length_drop, List.length_cons] at hlen
  omega

theorem scanFrom_end (hi : i ≤ bs.length) (h : bs.drop i = []) : scanFrom bs i = .clean := by
  rw [scanFrom, if_neg (Nat.not_lt.2 hi), h]
  rfl

theorem scanFrom_cons {b : UInt8} (h : bs.drop i = b :: rest) (hb : b ≠ 0x25) :
    scanFrom bs i = scanFrom bs (i + 1) := by
  have hi := lt_length_of_drop h
  have hrest : bs.drop (i + 1) = rest := by rw [← List.drop_drop, h]; rfl
  rw [scanFrom, if_neg (by omega), scanFrom, if_neg (by omega), h, hrest, List.findIdx?_cons,
    if_neg (by simpa using hb)]
  cases rest.findIdx? (· == 0x25) with
  | none => rfl
  | some gap =>
    have hgap : i + (gap + 1) = i + 1 + gap := by omega
    simp only [Option.map_some, hgap]

theorem scanFrom_percent (h : bs.drop i = Utf8.encode ('%' :: cs)) :
    scanFrom bs i =
      if ((Utf8.encode cs).take 2).length = 2 ∧ ((Utf8.encode cs).take 2).all isHexByte then
        scanFrom bs (i + 3)
      else .stray i := by
  have h : bs.drop i = 0x25 :: Utf8.encode cs := h
  have hi := lt_length_of_drop h
  have hrest : bs.drop (i + 0 + 1) = Utf8.encode cs := by rw [Nat.add_zero, ← List.drop_drop, h]; rfl
  rw [scanFrom, if_neg (by omega), h, List.findIdx?_cons,
    if_pos (beq_self_eq_true _)]
  simp only [hrest, Nat.add_zero]

theorem scanFrom_append {part : List UInt8} (h : bs.drop i = part ++ rest) (hp : 0x25 ∉ part) :
    scanFrom bs i = scanFrom bs (i + part.length) := by
  induction part generalizing i with
  | nil => rfl
  | cons b part ih =>
    rw [List.mem_cons, not_or] at hp
    have hrest : bs.drop (i + 1) = part ++ rest := by rw [← List.drop_drop, h]; rfl
    rw [scanFrom_cons h (Ne.symm hp.1), ih hrest hp.2, List.length_cons]
    congr 1; omega

/-- By induction on the search, from the byte where a text begins it comes to the same
    over bytes as over characters. -/
theorem scanFrom_encode (hi : i ≤ bs.length) (h : bs.drop i = Utf8.encode cs) :
    scanFrom bs i = .ofIndex (malformedFrom i cs) := by
  fun_induction malformedFrom i cs with
  | case1 => exact scanFrom_end hi h
  | case2 i high low cs hbyte ih =>
    obtain ⟨hh, hl⟩ := isSome_hexByte?_iff.1 hbyte
    have hpart : bs.drop i = Utf8.encode ['%', high, low] ++ Utf8.encode cs := by
      rw [h, ← encode_append]
      rfl
    obtain ⟨hle, hcs⟩ := drop_part hi hpart
    rw [length_encode_escape hh hl] at hle hcs
    rw [scanFrom_percent h, if_pos (beginsByte_iff.2 (beginsByte_cons_iff.2 hbyte)), ih hle hcs]
  | case3 i high low cs hbyte =>
    rw [scanFrom_percent h, if_neg (mt beginsByte_iff.1 (mt beginsByte_cons_iff.1 hbyte))]
    rfl
  | case4 i cs hcs =>
    have hb : ¬ BeginsByte cs := by
      rintro ⟨high, low, rest, h, -⟩
      exact hcs high low rest h
    rw [scanFrom_percent h, if_neg (mt beginsByte_iff.1 hb)]
    rfl
  | case5 i c cs hc ih =>
    have hpart : bs.drop i = String.utf8EncodeChar c ++ Utf8.encode cs := h
    obtain ⟨hle, hcs⟩ := drop_part hi hpart
    rw [String.length_utf8EncodeChar] at hle hcs
    rw [scanFrom_append hpart (percent_not_mem_utf8EncodeChar hc), String.length_utf8EncodeChar,
      ih hle hcs]

end

theorem scanFrom_zero (raw : List Char) :
    scanFrom (Utf8.encode raw) 0 = .ofIndex (malformed? raw) :=
  scanFrom_encode (Nat.zero_le _) rfl

end TableQuery.Percent
