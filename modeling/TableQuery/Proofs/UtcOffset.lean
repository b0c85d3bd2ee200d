/-
  Which texts are read as an offset.

  Reading is a guard in front of a lenient scanner. The scanner reads a sign, two digits
  of hours, colons and blanks, and two digits of minutes, and does not look at what
  follows. The guard has every byte but the first be a digit or a colon.

  * `parse?_eq_guardedScan?`: the offset that is read is that of the scanner, behind the
    guard;
  * `scan?_eq_some_iff`, `isGuarded_text_iff`: what the one reads and the other lets through;
  * `parse?_eq_some_iff`: so any number of colons may stand between hours and minutes, and
    digits and colons behind them;
  * `offset_outcome`: nothing else is read, and the texts that are read in a regular form
    are those with one colon at most and nothing behind the minutes.
-/
import Mathlib.Data.Option.Basic
import TableQuery.Config
import TableQuery.Proofs.Clock
import TableQuery.Proofs.Scan

namespace TableQuery

namespace UtcOffset

/-! ## A guard in front of a scanner -/

/-- Whether the scanner skips a character between hours and minutes. -/
def isSeparator (c : Char) : Bool :=
  c = ':' || Text.isBlank c

/-- The offset at the front of a text. -/
def scan? : List Char → Option UtcOffset
  | sign :: h₁ :: h₂ :: rest =>
    match rest.dropWhile isSeparator with
    | m₁ :: m₂ :: _ =>
      if sign = '+' ∨ sign = '-' then do
        let hours ← twoDigits? h₁ h₂
        let minutes ← twoDigits? m₁ m₂
        ofParts? (sign = '-') hours minutes
      else none
    | _ => none
  | _ => none

/-- Whether the bytes of a text, but for the first, are digits and colons. -/
def isGuarded (cs : List Char) : Bool :=
  ((Utf8.encode cs).drop 1).all fun b => Utf8.within (0x30, 0x39) b || b == 0x3A

/-- The offset of a `Z`, or else the one that is scanned behind the guard. -/
def guardedScan? (cs : List Char) : Option UtcOffset :=
  if cs = ['Z'] ∨ cs = ['z'] then some zero
  else if isGuarded cs then scan? cs
  else none

/-- A digit or a colon. -/
def isMark (c : Char) : Bool :=
  c.isDigit || c = ':'

theorem all_utf8EncodeChar (c : Char) :
    ((String.utf8EncodeChar c).all fun b => Utf8.within (0x30, 0x39) b || b == 0x3A) =
      isMark c := by
  rw [Bool.eq_iff_iff, isMark, Bool.or_eq_true, Char.isDigit_iff_toNat, decide_eq_true_iff,
    ← Char.toNat_inj, show ':'.toNat = 58 from rfl]
  rcases Percent.utf8EncodeChar_cases c with ⟨hc, he⟩ | ⟨hc, hb⟩
  · rw [he, List.all_cons, List.all_nil, Bool.and_true, Bool.or_eq_true, Utf8.within_iff,
      beq_iff_eq, ← UInt8.toNat_inj, Utf8.toNat_ofNat (by omega)]
    rfl
  · have h48 : '0'.toNat = 48 := rfl
    have h57 : '9'.toNat = 57 := rfl
    refine iff_of_false (fun h => ?_) (by omega)
    obtain ⟨b, more, he⟩ := Percent.exists_utf8EncodeChar c
    rw [he] at h hb
    have hb := hb b List.mem_cons_self
    rw [List.all_cons, Bool.and_eq_true, Bool.or_eq_true, Utf8.within_iff, beq_iff_eq,
      ← UInt8.toNat_inj] at h
    have h58 : (0x3A : UInt8).toNat = 58 := rfl
    have h57 : (0x39 : UInt8).toNat = 57 := rfl
    omega

/-- Behind an ASCII character the bytes are digits and colons if the characters are. -/
theorem isGuarded_cons {c : Char} (hc : c.toNat < 128) (cs : List Char) :
    isGuarded (c :: cs) = cs.all isMark := by
  have he : String.utf8EncodeChar c = [UInt8.ofNat c.toNat] := by
    rcases Percent.utf8EncodeChar_cases c with ⟨-, he⟩ | ⟨hle, -⟩
    · exact he
    · omega
  rw [isGuarded, Utf8.encode, List.flatMap_cons, he, List.singleton_append, List.drop_one,
    List.tail_cons, List.all_flatMap]
  simp only [all_utf8EncodeChar]

/-- Among digits and colons, the separators are the colons. -/
theorem isSeparator_of_isMark {c : Char} (h : isMark c = true) :
    isSeparator c = decide (c = ':') := by
  rw [isMark, Bool.or_eq_true, decide_eq_true_iff] at h
  rcases h with h | rfl
  · rw [isSeparator, Decimal.isBlank_of_isDigit h, Bool.or_false]
  · rfl

theorem isDigit_of_isSeparator {c : Char} (h : isSeparator c = true) : c.isDigit = false := by
  rw [← Bool.not_eq_true]
  intro hd
  rw [isSeparator, Decimal.isBlank_of_isDigit hd, Bool.or_false, decide_eq_true_iff] at h
  subst h
  cases hd

theorem isMark_of_isDigit {c : Char} (h : c.isDigit = true) : isMark c = true := by
  rw [isMark, h, Bool.true_or]

/-- Two digits of hours, what is skipped, and two digits of minutes, at the front. -/
def Timed (skipped : Char → Bool) (cs : List Char) (hours minutes : Nat) : Prop :=
  ∃ h₁ h₂ rest m₁ m₂ behind, cs = h₁ :: h₂ :: rest ∧
    rest.dropWhile skipped = m₁ :: m₂ :: behind ∧
    twoDigits? h₁ h₂ = some hours ∧ twoDigits? m₁ m₂ = some minutes

theorem Timed.isMark {cs : List Char} {p : Char → Bool} {hours minutes : Nat}
    (h : Timed p cs hours minutes) : (cs.take 2).all isMark = true := by
  obtain ⟨h₁, h₂, rest, m₁, m₂, behind, rfl, -, hh, -⟩ := h
  rw [twoDigits?_eq_some_iff] at hh
  refine List.all_eq_true.2 fun c hc => isMark_of_isDigit (isDigit_of_mem_twoDigits hh.1 ?_)
  rwa [← hh.2]

theorem time?_eq_some_iff {cs : List Char} {hours minutes : Nat} :
    time? cs = some (hours, minutes) ↔
      cs.all isMark = true ∧ Timed (fun c => c = ':') cs hours minutes := by
  constructor
  · intro h
    unfold time? at h
    split at h
    · rename_i h₁ h₂ rest
      simp only [Option.bind_eq_bind, Option.bind_eq_some_iff, Option.guard_eq_some'] at h
      obtain ⟨hours', hh, -, hall, h⟩ := h
      split at h
      · rename_i m₁ m₂ behind hrest
        obtain ⟨minutes', hm, heq⟩ := Option.bind_eq_some_iff.1 h
        obtain ⟨rfl, rfl⟩ := Prod.mk.inj (Option.some.inj heq)
        have ht : Timed (fun c => c = ':') (h₁ :: h₂ :: rest) hours' minutes' :=
          ⟨h₁, h₂, rest, m₁, m₂, behind, rfl, hrest, hh, hm⟩
        refine ⟨?_, ht⟩
        have hrest : rest.all isMark = true := hall
        simpa [hrest] using ht.isMark
      · cases h
    · cases h
  · rintro ⟨hall, h₁, h₂, rest, m₁, m₂, behind, rfl, hrest, hh, hm⟩
    have hall : (rest.all fun c => c.isDigit || decide (c = ':')) = true := by
      simp only [List.all_cons, Bool.and_eq_true] at hall
      exact hall.2.2
    simp only [time?, hh, hrest, hm, hall]
    rfl

theorem scan?_cons_eq_some_iff {sign : Char} {cs : List Char} {o : UtcOffset} :
    scan? (sign :: cs) = some o ↔ (sign = '+' ∨ sign = '-') ∧
      ∃ hours minutes, Timed isSeparator cs hours minutes ∧
        ofParts? (sign = '-') hours minutes = some o := by
  constructor
  · intro h
    unfold scan? at h
    split at h
    · rename_i sign' h₁ h₂ rest hcs
      obtain ⟨rfl, rfl⟩ := List.cons.inj hcs
      split at h
      · rename_i m₁ m₂ behind hrest
        split_ifs at h with hs
        simp only [Option.bind_eq_bind, Option.bind_eq_some_iff] at h
        obtain ⟨hours, hh, minutes, hm, ho⟩ := h
        exact ⟨hs, hours, minutes, ⟨h₁, h₂, rest, m₁, m₂, behind, rfl, hrest, hh, hm⟩, ho⟩
      · cases h
    · cases h
  · rintro ⟨hs, hours, minutes, ⟨h₁, h₂, rest, m₁, m₂, behind, rfl, hrest, hh, hm⟩, ho⟩
    simp only [scan?, hrest, hh, hm, if_pos hs]
    exact ho

theorem Timed.congr {p q : Char → Bool} {cs : List Char} {hours minutes : Nat}
    (h : ∀ c ∈ cs, p c = q c) (ht : Timed p cs hours minutes) : Timed q cs hours minutes := by
  obtain ⟨h₁, h₂, rest, m₁, m₂, behind, rfl, hrest, hh, hm⟩ := ht
  have hdrop : rest.dropWhile p = rest.dropWhile q := by
    have hr : ∀ c ∈ rest, p c = q c := fun c hc => h c (by simp [hc])
    clear h hrest
    induction rest with
    | nil => rfl
    | cons c rest ih =>
      rw [List.forall_mem_cons] at hr
      rw [List.dropWhile_cons, List.dropWhile_cons, hr.1, ih hr.2]
  exact ⟨h₁, h₂, rest, m₁, m₂, behind, rfl, hdrop ▸ hrest, hh, hm⟩

/-- Among digits and colons, only colons are skipped. -/
theorem timed_colon_iff {cs : List Char} (h : cs.all isMark = true) {hours minutes : Nat} :
    Timed (fun c => c = ':') cs hours minutes ↔ Timed isSeparator cs hours minutes := by
  have hp : ∀ c ∈ cs, isSeparator c = decide (c = ':') := fun c hc =>
    isSeparator_of_isMark (List.all_eq_true.1 h c hc)
  exact ⟨Timed.congr fun c hc => (hp c hc).symm, Timed.congr hp⟩

/-- What is read is what the scanner finds in a text that the guard lets through. -/
theorem parse?_eq_guardedScan? (s : String) :
    parse? s = guardedScan? (Text.trim s.toList) := by
  unfold parse?
  generalize Text.trim s.toList = cs
  split
  · rfl
  · rfl
  · rename_i sign rest hZ hz
    have hne : ¬ (sign :: rest = ['Z'] ∨ sign :: rest = ['z']) := by
      simp_all
    rw [guardedScan?, if_neg hne]
    refine Option.ext fun o => ?_
    by_cases hs : sign = '+' ∨ sign = '-'
    · have hascii : sign.toNat < 128 := by rcases hs with rfl | rfl <;> decide
      rw [if_pos hs, isGuarded_cons hascii, Option.bind_eq_bind, Option.bind_eq_some_iff]
      simp only [Prod.exists, time?_eq_some_iff]
      by_cases hall : rest.all isMark = true
      · rw [if_pos hall, scan?_cons_eq_some_iff]
        simp only [hall, timed_colon_iff hall, hs, true_and]
      · simp [hall]
    · have hscan : scan? (sign :: rest) = none := by
        refine Option.eq_none_iff_forall_ne_some.2 fun o ho => hs ?_
        exact (scan?_cons_eq_some_iff.1 ho).1
      rw [if_neg hs, hscan, ite_self]
  · rfl

/-! ## What is read -/

/-- If no digit is skipped, the hours and minutes are those around what is skipped. -/
theorem timed_iff {p : Char → Bool} (hp : ∀ c, p c = true → c.isDigit = false) {cs : List Char}
    {hours minutes : Nat} :
    Timed p cs hours minutes ↔ hours < 100 ∧ minutes < 100 ∧ ∃ gap behind,
      (∀ c ∈ gap, p c = true) ∧
        cs = twoDigits hours ++ (gap ++ (twoDigits minutes ++ behind)) := by
  constructor
  · rintro ⟨h₁, h₂, rest, m₁, m₂, behind, rfl, hrest, hh, hm⟩
    rw [twoDigits?_eq_some_iff] at hh hm
    refine ⟨hh.1, hm.1, rest.takeWhile p, behind, fun c hc => ?_, ?_⟩
    · exact List.all_eq_true.1 List.all_takeWhile c hc
    · have hbehind : twoDigits minutes ++ behind = rest.dropWhile p := by
        rw [← hm.2, hrest]
        rfl
      rw [hbehind, List.takeWhile_append_dropWhile, ← hh.2]
      rfl
  · rintro ⟨hh, hm, gap, behind, hgap, rfl⟩
    refine ⟨_, _, gap ++ (twoDigits minutes ++ behind), _, _, behind, rfl,
      (span_twoDigits hp hgap hm behind).2, ?_, ?_⟩
    · exact twoDigits?_eq_some_iff.2 ⟨hh, rfl⟩
    · exact twoDigits?_eq_some_iff.2 ⟨hm, rfl⟩

/-- The scanner reads a clock with any separators in its gap and anything behind it. -/
theorem scan?_eq_some_iff {cs : List Char} {o : UtcOffset} :
    scan? cs = some o ↔ ∃ (t : Clock) (gap behind : List Char),
      (∀ c ∈ gap, isSeparator c = true) ∧ cs = t.text gap behind ∧ t.offset = o := by
  cases cs with
  | nil => exact iff_of_false (by rintro ⟨⟩) (by rintro ⟨t, gap, behind, -, ⟨⟩, -⟩)
  | cons sign cs =>
    rw [scan?_cons_eq_some_iff]
    simp only [timed_iff fun _ => isDigit_of_isSeparator, ofParts?_eq_some_iff]
    constructor
    · rintro ⟨hs, _, _, ⟨-, -, gap, behind, hgap, rfl⟩, t, hneg, rfl, rfl, rfl⟩
      refine ⟨t, gap, behind, hgap, ?_, rfl⟩
      have hsign : sign = t.sign := by
        rcases hs with rfl | rfl <;> simp [Clock.sign, hneg]
      rw [hsign, Clock.text]
    · rintro ⟨t, gap, behind, hgap, hcs, rfl⟩
      obtain ⟨rfl, rfl⟩ := List.cons.inj hcs
      refine ⟨t.sign_eq, t.hours, t.minutes, ⟨t.hours_lt_hundred, t.minutes_lt_hundred, gap, behind,
        hgap, rfl⟩, t, ?_, rfl, rfl, rfl⟩
      unfold Clock.sign
      cases t.negative <;> decide

/-- The guard lets a clock through if digits and colons are in its gap and behind it. -/
theorem isGuarded_text_iff {t : Clock} {gap behind : List Char} :
    isGuarded (t.text gap behind) = true ↔
      (∀ c ∈ gap, isMark c = true) ∧ ∀ c ∈ behind, isMark c = true := by
  have hascii : t.sign.toNat < 128 := by rcases t.sign_eq with h | h <;> rw [h] <;> decide
  have hhours : ∀ c ∈ twoDigits t.hours, isMark c = true := fun c hc =>
    isMark_of_isDigit (t.isDigit_of_mem_hours hc)
  have hminutes : ∀ c ∈ twoDigits t.minutes, isMark c = true := fun c hc =>
    isMark_of_isDigit (t.isDigit_of_mem_minutes hc)
  rw [Clock.text, isGuarded_cons hascii, List.all_eq_true]
  simp only [List.forall_mem_append]
  exact ⟨fun h => ⟨h.2.1, h.2.2.2⟩, fun h => ⟨hhours, h.1, hminutes, h.2⟩⟩

/-- The texts that are read as an offset, and its seconds. -/
inductive Reads : List Char → Int → Prop
  | utc {c : Char} (h : c = 'Z' ∨ c = 'z') : Reads [c] 0
  | clock (t : Clock) {gap behind : List Char} (hgap : ∀ c ∈ gap, c = ':')
      (hbehind : ∀ c ∈ behind, c.isDigit = true ∨ c = ':') :
      Reads (t.text gap behind) t.seconds

theorem isMark_iff {c : Char} : isMark c = true ↔ c.isDigit = true ∨ c = ':' := by
  rw [isMark, Bool.or_eq_true, decide_eq_true_iff]

/-- Behind the guard, a gap of separators is one of colons. -/
theorem guardedScan?_eq_some_iff {cs : List Char} {o : UtcOffset} :
    guardedScan? cs = some o ↔ Reads cs o.seconds := by
  constructor
  · intro h
    unfold guardedScan? at h
    split_ifs at h with hz hg
    · obtain rfl := Option.some.inj h
      rcases hz with rfl | rfl
      · exact .utc (Or.inl rfl)
      · exact .utc (Or.inr rfl)
    · obtain ⟨t, gap, behind, hgap, rfl, rfl⟩ := scan?_eq_some_iff.1 h
      obtain ⟨hgap', hbehind⟩ := isGuarded_text_iff.1 hg
      rw [t.seconds_offset]
      refine .clock t (fun c hc => ?_) fun c hc => isMark_iff.1 (hbehind c hc)
      have hsep := hgap c hc
      rwa [isSeparator_of_isMark (hgap' c hc), decide_eq_true_iff] at hsep
  · generalize hn : o.seconds = n
    rintro (hc | @⟨t, gap, behind, hgap, hbehind⟩)
    · obtain rfl : o = zero := seconds_injective hn
      rcases hc with rfl | rfl <;> rfl
    · obtain rfl : t.offset = o := seconds_injective (t.seconds_offset.trans hn.symm)
      have hg : isGuarded (t.text gap behind) = true :=
        isGuarded_text_iff.2 ⟨fun c hc => isMark_iff.2 (Or.inr (hgap c hc)),
          fun c hc => isMark_iff.2 (hbehind c hc)⟩
      have hz : ¬ (t.text gap behind = ['Z'] ∨ t.text gap behind = ['z']) := by
        rintro (h | h) <;> exact Clock.text_ne_singleton _ h
      have hsep : ∀ c ∈ gap, isSeparator c = true := by
        intro c hc
        rw [hgap c hc]
        rfl
      rw [guardedScan?, if_neg hz, if_pos hg]
      exact scan?_eq_some_iff.2 ⟨t, gap, behind, hsep, rfl, rfl⟩

theorem parse?_eq_some_iff {s : String} {o : UtcOffset} :
    parse? s = some o ↔ Reads (Text.trim s.toList) o.seconds := by
  rw [parse?_eq_guardedScan?, guardedScan?_eq_some_iff]

theorem Reads.exists_seconds {cs : List Char} {n : Int} (h : Reads cs n) :
    ∃ o : UtcOffset, o.seconds = n := by
  cases h with
  | utc => exact ⟨zero, rfl⟩
  | clock t => exact ⟨t.offset, t.seconds_offset⟩

/-- The characters of the texts that are read as an offset. -/
def isOffsetChar (c : Char) : Bool :=
  isMark c || ['+', '-', 'Z', 'z'].contains c

theorem Reads.isOffsetChar {cs : List Char} {n : Int} (h : Reads cs n) :
    ∀ c ∈ cs, isOffsetChar c = true := by
  have hmark : ∀ c, isMark c = true → UtcOffset.isOffsetChar c = true := fun c hc => by
    rw [UtcOffset.isOffsetChar, hc, Bool.true_or]
  cases h with
  | utc h =>
    rw [List.forall_mem_singleton]
    rcases h with rfl | rfl <;> decide
  | clock t hgap hbehind =>
    rw [Clock.text]
    simp only [List.forall_mem_cons, List.forall_mem_append]
    refine ⟨?_, fun c hc => ?_, fun c hc => ?_, fun c hc => ?_, fun c hc => ?_⟩
    · rcases t.sign_eq with h | h <;> rw [h] <;> decide
    · exact hmark c (isMark_of_isDigit (Clock.isDigit_of_mem_hours hc))
    · exact hmark c (isMark_iff.2 (Or.inr (hgap c hc)))
    · exact hmark c (isMark_of_isDigit (Clock.isDigit_of_mem_minutes hc))
    · exact hmark c (isMark_iff.2 (hbehind c hc))

theorem isBlank_of_isOffsetChar {c : Char} (h : isOffsetChar c = true) :
    Text.isBlank c = false := by
  rw [isOffsetChar, Bool.or_eq_true, isMark_iff, List.contains_iff_mem] at h
  rcases h with (h | rfl) | h
  · exact Decimal.isBlank_of_isDigit h
  · decide
  · simp only [List.mem_cons, List.not_mem_nil, or_false] at h
    rcases h with rfl | rfl | rfl | rfl <;> decide

theorem Reads.trim_eq {cs : List Char} {n : Int} (h : Reads cs n) : Text.trim cs = cs :=
  Text.trim_eq_self_of_forall fun c hc => isBlank_of_isOffsetChar (h.isOffsetChar c hc)

/-! ## Regular forms -/

/-- The forms of an offset: a `Z`, or a clock with a colon in its gap or none. -/
inductive Regular : List Char → Int → Prop
  | utc {c : Char} (h : c = 'Z' ∨ c = 'z') : Regular [c] 0
  | colon (t : Clock) : Regular (t.text [':'] []) t.seconds
  | plain (t : Clock) : Regular (t.text [] []) t.seconds

/-- A clock with more than one colon in its gap, or with digits or colons behind it. -/
def Loose (cs : List Char) : Prop :=
  ∃ (t : Clock) (gap behind : List Char), cs = t.text gap behind ∧ (∀ c ∈ gap, c = ':') ∧
    (∀ c ∈ behind, c.isDigit = true ∨ c = ':') ∧ (1 < gap.length ∨ behind ≠ [])

theorem Regular.reads {cs : List Char} {n : Int} (h : Regular cs n) : Reads cs n := by
  cases h with
  | utc h => exact .utc h
  | colon t => exact .clock t (by simp) (by simp)
  | plain t => exact .clock t (by simp) (by simp)

theorem Regular.not_loose {cs : List Char} {n : Int} (h : Regular cs n) : ¬ Loose cs := by
  rintro ⟨t, gap, behind, hcs, hgap, -, hloose⟩
  cases h with
  | utc => exact t.text_ne_singleton _ hcs.symm
  | colon t' =>
    obtain ⟨rfl, rfl⟩ := Clock.text_inj (by simp) hgap hcs
    simp at hloose
  | plain t' =>
    obtain ⟨rfl, rfl⟩ := Clock.text_inj (by simp) hgap hcs
    simp at hloose

theorem Reads.regular_or_loose {cs : List Char} {n : Int} (h : Reads cs n) :
    Regular cs n ∨ Loose cs := by
  cases h with
  | utc h => exact Or.inl (.utc h)
  | @clock t gap behind hgap hbehind =>
    by_cases hloose : 1 < gap.length ∨ behind ≠ []
    · exact Or.inr ⟨t, gap, behind, rfl, hgap, hbehind, hloose⟩
    · rw [not_or, Nat.not_lt, not_not] at hloose
      obtain ⟨hlen, rfl⟩ := hloose
      cases gap with
      | nil => exact Or.inl (.plain t)
      | cons c gap =>
        obtain rfl : gap = [] := List.eq_nil_of_length_eq_zero (by simpa using hlen)
        obtain rfl := hgap c List.mem_cons_self
        exact Or.inl (.colon t)

theorem Loose.reads {cs : List Char} (h : Loose cs) : ∃ n, Reads cs n := by
  obtain ⟨t, gap, behind, rfl, hgap, hbehind, -⟩ := h
  exact ⟨t.seconds, .clock t hgap hbehind⟩

end UtcOffset

namespace Config

open UtcOffset (Reads Regular Loose)

theorem offset_eq_ok_iff {c : Config} {o : UtcOffset} :
    c.offset = .ok o ↔ UtcOffset.parse? c.timeOffset = some o := by
  unfold offset
  cases UtcOffset.parse? c.timeOffset <;> simp

theorem offset_eq_error_iff {c : Config} {fault : ConfigFault} :
    c.offset = .error fault ↔
      UtcOffset.parse? c.timeOffset = none ∧ fault = .offset c.timeOffset := by
  unfold offset
  cases UtcOffset.parse? c.timeOffset <;> simp [eq_comm]

/-- **What is an offset.**  The offset of a configuration is read if and only if its text,
    without blanks around, is a `Z` of either case or a clock: a sign, two digits of
    hours below 24, any number of colons, two digits of minutes below 60, and any digits
    and colons behind them. It has the seconds of the hours and minutes, with the sign.
    Any other text is a fault, which names it. A text is read in the regular forms only, which
    have one colon at most and nothing behind the minutes, unless it is a clock that has
    more. -/
theorem offset_outcome (c : Config) :
    (∀ o, c.offset = .ok o ↔ Reads (Text.trim c.timeOffset.toList) o.seconds) ∧
    (∀ fault, c.offset = .error fault ↔
      fault = .offset c.timeOffset ∧ ¬ ∃ n, Reads (Text.trim c.timeOffset.toList) n) ∧
    ((∀ o, c.offset = .ok o ↔ Regular (Text.trim c.timeOffset.toList) o.seconds) ↔
      ¬ Loose (Text.trim c.timeOffset.toList)) := by
  have hok : ∀ o, c.offset = .ok o ↔ Reads (Text.trim c.timeOffset.toList) o.seconds := fun o =>
    offset_eq_ok_iff.trans UtcOffset.parse?_eq_some_iff
  refine ⟨hok, fun fault => ?_, ?_⟩
  · rw [offset_eq_error_iff, and_comm]
    refine and_congr_right fun _ => ?_
    rw [Option.eq_none_iff_forall_ne_some]
    constructor
    · rintro hnone ⟨n, hn⟩
      obtain ⟨o, rfl⟩ := hn.exists_seconds
      exact hnone o (UtcOffset.parse?_eq_some_iff.2 hn)
    · intro hn o ho
      exact hn ⟨o.seconds, UtcOffset.parse?_eq_some_iff.1 ho⟩
  · constructor
    · intro hregular hloose
      obtain ⟨n, hn⟩ := hloose.reads
      obtain ⟨o, rfl⟩ := hn.exists_seconds
      exact ((hregular o).1 ((hok o).2 hn)).not_loose hloose
    · intro hloose o
      rw [hok o]
      exact ⟨fun h => h.regular_or_loose.resolve_right hloose, Regular.reads⟩

/-- Seconds behind the minutes are passed over, as any digits and colons are. -/
theorem offset_with_seconds :
    let c := { standard with timeOffset := "+08:00:00" }
    c.offset = .ok ⟨480, by decide⟩ ∧ ¬ ∃ n, Regular (Text.trim c.timeOffset.toList) n := by
  refine ⟨by decide, ?_⟩
  rintro ⟨n, hn⟩
  exact hn.not_loose ⟨⟨false, 8, 0, by decide, by decide⟩, [':'], [':', '0', '0'], by decide,
    by simp, by simp, by simp⟩

end Config

end TableQuery
