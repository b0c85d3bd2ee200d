/-
  Offsets as hours and minutes.

  A `Clock` is a sign, hours and minutes. Its text has a gap between the hours and the
  minutes, and something behind them.

  * `twoDigits?_eq_some_iff`: two digits are read as the number that they write;
  * `Clock.text_inj`: a text has one gap of colons and one rest, if it has any;
  * `ofParts?_eq_some_iff`: the offset that a sign, hours and minutes make is that of the
    clock;
  * `toList_text`: an offset is written as its clock, with one colon.
-/
import TableQuery.Config.UtcOffset
import TableQuery.Proofs.Numeral

namespace TableQuery.UtcOffset

/-! ## Digits -/

theorem isDigit_digitChar {n : Nat} (h : n < 10) : (Nat.digitChar n).isDigit = true := by
  have hd : ∀ n < 10, (Nat.digitChar n).isDigit = true := by decide
  exact hd n h

/-- Two digits are read as the number that they write. -/
theorem twoDigits?_eq_some_iff {a b : Char} {n : Nat} :
    twoDigits? a b = some n ↔ n < 100 ∧ [a, b] = twoDigits n := by
  constructor
  · intro h
    unfold twoDigits? at h
    split_ifs at h with hd
    obtain ⟨i, hi, rfl⟩ := Decimal.exists_digitChar hd.1
    obtain ⟨j, hj, rfl⟩ := Decimal.exists_digitChar hd.2
    have hn := Option.some.inj h
    have h0 : '0'.toNat = 48 := rfl
    rw [Nat.toNat_digitChar_of_lt_ten hi, Nat.toNat_digitChar_of_lt_ten hj, h0] at hn
    obtain rfl : n = 10 * i + j := by omega
    refine ⟨by omega, ?_⟩
    rw [twoDigits, show (10 * i + j) / 10 = i by omega, show (10 * i + j) % 10 = j by omega]
  · rintro ⟨hn, h⟩
    simp only [twoDigits, List.cons.injEq, and_true] at h
    obtain ⟨rfl, rfl⟩ := h
    have h0 : '0'.toNat = 48 := rfl
    rw [twoDigits?, if_pos ⟨isDigit_digitChar (by omega), isDigit_digitChar (by omega)⟩,
      Nat.toNat_digitChar_of_lt_ten (by omega), Nat.toNat_digitChar_of_lt_ten (by omega), h0]
    congr 1; omega

theorem isDigit_of_mem_twoDigits {n : Nat} (hn : n < 100) {c : Char} (h : c ∈ twoDigits n) :
    c.isDigit = true := by
  simp only [twoDigits, List.mem_cons, List.not_mem_nil, or_false] at h
  rcases h with rfl | rfl
  · exact isDigit_digitChar (by omega)
  · exact isDigit_digitChar (by omega)

/-- A run of characters that are no digits ends before two digits. -/
theorem span_twoDigits {p : Char → Bool} (hp : ∀ c, p c = true → c.isDigit = false)
    {gap : List Char} (hgap : ∀ c ∈ gap, p c = true) {n : Nat} (hn : n < 100)
    (behind : List Char) :
    (gap ++ (twoDigits n ++ behind)).takeWhile p = gap ∧
      (gap ++ (twoDigits n ++ behind)).dropWhile p = twoDigits n ++ behind := by
  have hdigit : ¬ p (Nat.digitChar (n / 10)) = true := by
    intro h
    have hd := isDigit_of_mem_twoDigits hn List.mem_cons_self
    rw [hp _ h] at hd
    cases hd
  rw [List.takeWhile_append_of_pos hgap, List.dropWhile_append_of_pos hgap]
  simp [twoDigits, hdigit]

theorem seconds_injective : Function.Injective seconds := by
  rintro ⟨m, hm⟩ ⟨n, hn⟩ h
  have hmn : m = n := by
    simp only [seconds] at h
    omega
  subst hmn
  rfl

/-! ## Clocks -/

/-- The hours and minutes of an offset, and whether it is west of UTC. -/
structure Clock where
  negative : Bool
  hours : Nat
  minutes : Nat
  hours_lt : hours < 24
  minutes_lt : minutes < 60

namespace Clock

variable {t : Clock} {gap behind : List Char}

def sign (t : Clock) : Char :=
  if t.negative then '-' else '+'

def seconds (t : Clock) : Int :=
  (if t.negative then -1 else 1) * (t.hours * 3600 + t.minutes * 60)

/-- A sign, two digits of hours and two of minutes, with a gap between them and more
    behind them. -/
def text (t : Clock) (gap behind : List Char) : List Char :=
  t.sign :: (twoDigits t.hours ++ (gap ++ (twoDigits t.minutes ++ behind)))

def offset (t : Clock) : UtcOffset where
  minutes := (if t.negative then -1 else 1) * (t.hours * 60 + t.minutes)
  bound := by
    have hh := t.hours_lt
    have hm := t.minutes_lt
    split <;> omega

theorem seconds_offset (t : Clock) : t.offset.seconds = t.seconds := by
  simp only [UtcOffset.seconds, offset, seconds]
  split <;> omega

theorem sign_eq (t : Clock) : t.sign = '+' ∨ t.sign = '-' := by
  unfold sign
  cases t.negative <;> simp

theorem hours_lt_hundred (t : Clock) : t.hours < 100 :=
  Nat.lt_trans t.hours_lt (by decide)

theorem minutes_lt_hundred (t : Clock) : t.minutes < 100 :=
  Nat.lt_trans t.minutes_lt (by decide)

theorem isDigit_of_mem_hours {c : Char} (h : c ∈ twoDigits t.hours) : c.isDigit = true :=
  isDigit_of_mem_twoDigits t.hours_lt_hundred h

theorem isDigit_of_mem_minutes {c : Char} (h : c ∈ twoDigits t.minutes) : c.isDigit = true :=
  isDigit_of_mem_twoDigits t.minutes_lt_hundred h

theorem length_text : (t.text gap behind).length = 5 + gap.length + behind.length := by
  simp only [text, twoDigits, List.length_cons, List.length_append, List.length_nil]
  omega

theorem text_ne_singleton (c : Char) : t.text gap behind ≠ [c] := by
  intro h
  have hlen := congrArg List.length h
  rw [length_text, List.length_singleton] at hlen
  omega

/-- A text is a clock with one gap of colons, and one text behind it. -/
theorem text_inj {t' : Clock} {gap' behind' : List Char} (hgap : ∀ c ∈ gap, c = ':')
    (hgap' : ∀ c ∈ gap', c = ':') (h : t.text gap behind = t'.text gap' behind') :
    gap = gap' ∧ behind = behind' := by
  have hp : ∀ c, decide (c = ':') = true → c.isDigit = false := by
    intro c hc
    rw [decide_eq_true_iff.1 hc]
    rfl
  obtain ⟨htake, hdrop⟩ :=
    span_twoDigits hp (fun c hc => decide_eq_true (hgap c hc)) t.minutes_lt_hundred behind
  obtain ⟨htake', hdrop'⟩ :=
    span_twoDigits hp (fun c hc => decide_eq_true (hgap' c hc)) t'.minutes_lt_hundred behind'
  have hrest : gap ++ (twoDigits t.minutes ++ behind) =
      gap' ++ (twoDigits t'.minutes ++ behind') := congrArg (List.drop 3) h
  rw [hrest] at htake hdrop
  refine ⟨htake.symm.trans htake', ?_⟩
  exact congrArg (List.drop 2) (hdrop.symm.trans hdrop')

end Clock

theorem ofParts?_eq_offset (t : Clock) :
    ofParts? t.negative t.hours t.minutes = some t.offset := by
  rw [ofParts?, dif_pos ⟨t.minutes_lt, t.hours_lt⟩]
  cases hn : t.negative <;> simp [Clock.offset, hn]

theorem ofParts?_eq_some_iff {negative : Bool} {hours minutes : Nat} {o : UtcOffset} :
    ofParts? negative hours minutes = some o ↔
      ∃ t : Clock, t.negative = negative ∧ t.hours = hours ∧ t.minutes = minutes ∧
        t.offset = o := by
  constructor
  · intro h
    by_cases hlt : minutes < 60 ∧ hours < 24
    · refine ⟨⟨negative, hours, minutes, hlt.2, hlt.1⟩, rfl, rfl, rfl, ?_⟩
      rw [← Option.some.injEq, ← ofParts?_eq_offset, ← h]
    · rw [ofParts?, dif_neg hlt] at h
      cases h
  · rintro ⟨t, rfl, rfl, rfl, rfl⟩
    exact ofParts?_eq_offset t

/-! ## Writing -/

/-- The hours and minutes of an offset, none of them west of UTC if there are none. -/
def clock (o : UtcOffset) : Clock where
  negative := decide (o.minutes < 0)
  hours := o.minutes.natAbs / 60
  minutes := o.minutes.natAbs % 60
  hours_lt := by
    have h := o.bound
    omega
  minutes_lt := Nat.mod_lt _ (by decide)

theorem seconds_clock (o : UtcOffset) : o.clock.seconds = o.seconds := by
  simp only [Clock.seconds, clock, seconds, decide_eq_true_eq]
  split <;> omega

theorem toList_text (o : UtcOffset) : o.text.toList = o.clock.text [':'] [] := by
  simp [text, Clock.text, Clock.sign, clock]

end TableQuery.UtcOffset
