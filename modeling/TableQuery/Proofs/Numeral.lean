/-
  Numbers as a form writes them: blanks around an optional `+`, zeros and the
  decimal digits of the number.

  * `eq_zeros_append_toDigits`: digits are zeros and the digits of their value;
  * `natural?_eq_some_iff`: which texts are read as a number;
  * `natural?_trim_eq_some_iff`, `ofText?_eq_some_iff`: the same with blanks around, and up
    to 64 bits.
-/
import Mathlib.Data.List.Induction
import Mathlib.Tactic.SplitIfs
import TableQuery.Page

namespace TableQuery

namespace Decimal

/-! ## Digits -/

theorem exists_digitChar {c : Char} (h : c.isDigit = true) : ∃ n < 10, c = Nat.digitChar n := by
  have hr : 48 ≤ c.toNat ∧ c.toNat ≤ 57 := Char.isDigit_iff_toNat.1 h
  refine ⟨c.toNat - 48, by omega, Char.toNat_inj.1 ?_⟩
  rw [Nat.toNat_digitChar_of_lt_ten (by omega)]
  omega

theorem isBlank_of_isDigit {c : Char} (h : c.isDigit = true) : Text.isBlank c = false := by
  obtain ⟨n, hn, rfl⟩ := exists_digitChar h
  have hb : ∀ n < 10, Text.isBlank (Nat.digitChar n) = false := by decide
  exact hb n hn

theorem valueOf_concat_digitChar (ds : List Char) {n : Nat} (h : n < 10) :
    valueOf (ds ++ [Nat.digitChar n]) = 10 * valueOf ds + n := by
  rw [valueOf, Nat.ofDigitChars_append, Nat.ofDigitChars_cons_digitChar_of_lt_ten h,
    Nat.ofDigitChars_nil, ← valueOf]

theorem valueOf_zeros_append (zeros : Nat) (ds : List Char) :
    valueOf (List.replicate zeros '0' ++ ds) = valueOf ds := by
  rw [valueOf, Nat.ofDigitChars_append, Nat.ofDigitChars_replicate_zero, Nat.mul_zero, ← valueOf]

/-- By induction from the last digit, digits are zeros and the digits of their
    value. -/
theorem eq_zeros_append_toDigits {ds : List Char} (hne : ds ≠ []) (h : ∀ c ∈ ds, c.isDigit = true) :
    ∃ zeros, ds = List.replicate zeros '0' ++ Nat.toDigits 10 (valueOf ds) := by
  induction ds using List.reverseRecOn with
  | nil => exact absurd rfl hne
  | append_singleton ds d ih =>
    obtain ⟨n, hn, rfl⟩ := exists_digitChar (h d (by simp))
    have hds : ∀ c ∈ ds, c.isDigit = true := fun c hc => h c (List.mem_append_left _ hc)
    rw [valueOf_concat_digitChar ds hn]
    by_cases hnil : ds = []
    · subst hnil
      exact ⟨0, by simp [valueOf, Nat.toDigits_of_lt_base hn]⟩
    · obtain ⟨zeros, hz⟩ := ih hnil hds
      rcases Nat.eq_zero_or_pos (valueOf ds) with hv | hv
      · -- all digits but the last are zeros
        refine ⟨zeros + 1, ?_⟩
        rw [hv, Nat.toDigits_zero] at hz
        rw [hv, Nat.mul_zero, Nat.zero_add, Nat.toDigits_of_lt_base hn, hz,
          List.replicate_succ']
      · refine ⟨zeros, ?_⟩
        rw [← Nat.toDigits_append_toDigits (by decide) hv hn, Nat.toDigits_of_lt_base hn,
          ← List.append_assoc, ← hz]

/-! ## Numerals -/

/-- An optional sign, zeros and the digits of a number. -/
def Numeral (cs : List Char) (n : Nat) : Prop :=
  ∃ sign zeros, (sign = [] ∨ sign = ['+']) ∧
    cs = sign ++ List.replicate zeros '0' ++ Nat.toDigits 10 n

theorem isDigit_of_mem_zeros_append {zeros n : Nat} {c : Char}
    (h : c ∈ List.replicate zeros '0' ++ Nat.toDigits 10 n) : c.isDigit = true := by
  rcases List.mem_append.1 h with h | h
  · rw [List.eq_of_mem_replicate h]
    decide
  · exact Nat.isDigit_of_mem_toDigits (by decide) (by decide) h

theorem plus_not_mem_zeros_append (zeros n : Nat) :
    '+' ∉ List.replicate zeros '0' ++ Nat.toDigits 10 n := fun h =>
  absurd (isDigit_of_mem_zeros_append h) (by decide)

/-- Digits are read as a number if and only if they are zeros and its digits. -/
theorem ite_digits_eq_some_iff {ds : List Char} {n : Nat} :
    (if ds ≠ [] ∧ ds.all Char.isDigit then some (valueOf ds) else none) = some n ↔
      ∃ zeros, ds = List.replicate zeros '0' ++ Nat.toDigits 10 n := by
  constructor
  · intro h
    split_ifs at h with hd
    obtain rfl := Option.some.inj h
    exact eq_zeros_append_toDigits hd.1 (List.all_eq_true.1 hd.2)
  · rintro ⟨zeros, rfl⟩
    have hd : ((List.replicate zeros '0' ++ Nat.toDigits 10 n).all Char.isDigit) = true :=
      List.all_eq_true.2 fun c hc => isDigit_of_mem_zeros_append hc
    rw [if_pos ⟨by simp [Nat.toDigits_ne_nil], hd⟩, valueOf_zeros_append, valueOf_toDigits]

/-- The numerals are the texts that are read as a number. -/
theorem natural?_eq_some_iff {cs : List Char} {n : Nat} :
    natural? cs = some n ↔ Numeral cs n := by
  by_cases hp : ∃ ds, cs = '+' :: ds
  · obtain ⟨ds, rfl⟩ := hp
    refine ite_digits_eq_some_iff.trans ⟨?_, ?_⟩
    · rintro ⟨zeros, rfl⟩
      exact ⟨['+'], zeros, Or.inr rfl, rfl⟩
    · rintro ⟨sign, zeros, rfl | rfl, hcs⟩
      · rw [List.nil_append] at hcs
        exact absurd (hcs ▸ List.mem_cons_self) (plus_not_mem_zeros_append zeros n)
      · exact ⟨zeros, (List.cons.inj hcs).2⟩
  · have hne : ∀ ds, cs = '+' :: ds → False := fun ds h => hp ⟨ds, h⟩
    rw [natural?.eq_2 _ hne]
    refine ite_digits_eq_some_iff.trans ⟨?_, ?_⟩
    · rintro ⟨zeros, hcs⟩
      exact ⟨[], zeros, Or.inl rfl, hcs⟩
    · rintro ⟨sign, zeros, rfl | rfl, hcs⟩
      · exact ⟨zeros, hcs⟩
      · exact (hne _ hcs).elim

theorem Numeral.isBlank {cs : List Char} {n : Nat} (h : Numeral cs n) :
    ∀ c ∈ cs, Text.isBlank c = false := by
  obtain ⟨sign, zeros, hsign, rfl⟩ := h
  intro c hc
  rw [List.append_assoc] at hc
  rcases List.mem_append.1 hc with hc | hc
  · rcases hsign with rfl | rfl
    · simp at hc
    · rw [List.mem_singleton.1 hc]
      decide
  · exact isBlank_of_isDigit (isDigit_of_mem_zeros_append hc)

end Decimal

namespace Page

/-- A text that writes a number, with blanks around. -/
def Written (s : String) (n : Nat) : Prop :=
  ∃ before numeral after, s.toList = before ++ numeral ++ after ∧
    (∀ c ∈ before ++ after, Text.isBlank c = true) ∧ Decimal.Numeral numeral n

theorem natural?_trim_eq_some_iff {s : String} {n : Nat} :
    Decimal.natural? (Text.trim s.toList) = some n ↔ Written s n := by
  rw [Decimal.natural?_eq_some_iff]
  constructor
  · intro h
    obtain ⟨before, after, hs, hb, ha⟩ := Text.exists_trim s.toList
    exact ⟨before, _, after, hs, fun c hc => (List.mem_append.1 hc).elim (hb c) (ha c), h⟩
  · rintro ⟨before, numeral, after, hs, hb, h⟩
    rw [hs, Text.trim_append_right fun c hc => hb c (List.mem_append_right _ hc),
      Text.trim_append_left fun c hc => hb c (List.mem_append_left _ hc),
      Text.trim_eq_self_of_forall h.isBlank]
    exact h

theorem ofText?_eq_some_iff {s : String} {n : Nat} :
    ofText? s = some n ↔ Written s n ∧ n < Number.wordCount := by
  rw [ofText?, Option.filter_eq_some_iff, natural?_trim_eq_some_iff, decide_eq_true_iff]

/-- A text writes one number. -/
theorem Written.unique {s : String} {m n : Nat} (hm : Written s m) (hn : Written s n) : m = n :=
  Option.some.inj
    ((natural?_trim_eq_some_iff.2 hm).symm.trans (natural?_trim_eq_some_iff.2 hn))

end Page

end TableQuery
