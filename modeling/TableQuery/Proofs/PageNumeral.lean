/-
  Page numbers and page sizes as numbers and as text.

  A form holds them either way. A text that writes a number of 64 bits is read as that
  number, whatever blanks, sign and zeros it has; any other text is refused, and so is any
  number that is not a natural one, even a whole one with a point.

  * `number?_toDigits`, `isDigit_of_number?`: which literals are natural numbers;
  * `readNumber_text`, `readNumber_natural`: a text is read as the number that it writes;
  * `readNumber_of_not_written`, `readNumber_of_not_natural`: the fault of any other value;
  * `refuses_of_readNumber`: it is the fault of the form, unless the page number has one;
  * `numerals_page_alike`: so numbers and texts make the same page windows.
-/
import Mathlib.Data.List.TakeWhile
import TableQuery.Json.Reader
import TableQuery.Proofs.Window

namespace TableQuery

/-! ## Literals -/

/-- The natural numbers are the integers without a sign. -/
theorem Number.ofInteger?_eq_natural_iff {negative : Bool} {m : Nat} {n : Fin wordCount} :
    ofInteger? negative m = some (.natural n) ↔ negative = false ∧ m = n := by
  unfold ofInteger?
  split_ifs with h h'
  · simp [h.1, Fin.ext_iff]
  · simp [h'.1]
  · constructor
    · intro hd
      obtain ⟨x, -, hx⟩ := Option.map_eq_some_iff.1 hd
      cases hx
    · rintro ⟨rfl, rfl⟩
      exact absurd ⟨rfl, n.isLt⟩ h

/-- The digits of a number do not begin with a zero, unless it is the only one. -/
theorem Decimal.head?_toDigits (n : Nat) :
    (Nat.toDigits 10 n).head? ≠ some '0' ∨ (Nat.toDigits 10 n).length = 1 := by
  rw [or_iff_not_imp_left, not_not]
  intro h
  obtain ⟨ds, hds⟩ := List.head?_eq_some_iff.1 h
  by_cases hne : ds = []
  · rw [hds, hne, List.length_singleton]
  · -- the digits behind the zero have the same value, so they are no fewer
    have hdigit : ∀ c ∈ ds, c.isDigit = true := fun c hc =>
      Nat.isDigit_of_mem_toDigits (n := n) (by decide) (by decide)
        (hds ▸ List.mem_cons_of_mem _ hc)
    have hvalue : valueOf ds = n := by
      rw [← valueOf_toDigits n, hds]
      exact (valueOf_zeros_append 1 ds).symm
    obtain ⟨zeros, hzeros⟩ := eq_zeros_append_toDigits hne hdigit
    rw [hvalue, hds] at hzeros
    have hlength := congrArg List.length hzeros
    rw [List.length_append, List.length_cons] at hlength
    omega

namespace Json.Reader

/-- The digits of a number of 64 bits are the literal of the natural number. -/
theorem number?_toDigits (n : Fin Number.wordCount) :
    number? (Nat.toDigits 10 n) = some (.number (.natural n), []) := by
  have hdigit : ∀ c ∈ Nat.toDigits 10 n.val, c.isDigit = true := fun c hc =>
    Nat.isDigit_of_mem_toDigits (by decide) (by decide) hc
  have hspan : Decimal.spanDigits (Nat.toDigits 10 n) = (Nat.toDigits 10 n, []) := by
    rw [Decimal.spanDigits, List.takeWhile_eq_self_iff.2 hdigit, List.dropWhile_eq_nil_iff.2 hdigit]
  have hguard : Nat.toDigits 10 n.val ≠ [] ∧
      ((Nat.toDigits 10 n.val).head? ≠ some '0' ∨ (Nat.toDigits 10 n.val).length = 1) :=
    ⟨Nat.toDigits_ne_nil, Decimal.head?_toDigits n⟩
  have hinteger : Number.ofInteger? false n = some (.natural n) :=
    Number.ofInteger?_eq_natural_iff.2 ⟨rfl, rfl⟩
  unfold number?
  split
  rename_i negative ds hsign
  split at hsign
  · rename_i hds
    exact absurd (hdigit '-' (hds ▸ List.mem_cons_self)) (by decide)
  · obtain ⟨rfl, rfl⟩ := Prod.mk.inj hsign
    simp [hspan, hguard, Decimal.fraction, Decimal.exponent?, Decimal.valueOf_toDigits, hinteger]

/-- A literal that is a natural number has no sign, no point and no exponent. -/
theorem isDigit_of_number? {literal : List Char} {n : Fin Number.wordCount}
    (h : number? literal = some (.number (.natural n), [])) :
    ∀ c ∈ literal, c.isDigit = true := by
  unfold number? at h
  split at h
  rename_i negative ds hsign
  simp only [Option.bind_eq_bind, Option.bind_eq_some_iff, Option.pure_def] at h
  obtain ⟨-, -, -, -, ⟨exponent, rest⟩, -, h⟩ := h
  split_ifs at h with hlen
  · -- nothing follows the digits
    obtain ⟨x, hx, heq⟩ := Option.bind_eq_some_iff.1 h
    simp only [Option.some.injEq, Prod.mk.injEq, Json.number.injEq] at heq
    obtain ⟨rfl, rfl⟩ := heq
    obtain ⟨rfl, -⟩ := Number.ofInteger?_eq_natural_iff.1 hx
    have hrest : ds.dropWhile Char.isDigit = [] := List.eq_nil_of_length_eq_zero hlen.symm
    split at hsign
    · cases hsign
    · obtain ⟨-, rfl⟩ := Prod.mk.inj hsign
      exact fun c hc => List.dropWhile_eq_nil_iff.1 hrest c hc
  · -- a point or an exponent makes a double
    obtain ⟨x, hx, heq⟩ := Option.bind_eq_some_iff.1 h
    obtain ⟨y, -, rfl⟩ := Option.map_eq_some_iff.1 hx
    simp at heq

end Json.Reader

namespace Page

variable {params : Params} {key other : PageKey} {limit : Nat}

/-! ## Values under a reserved name -/

/-- The parameters with a scalar under a reserved name. -/
def entered (params : Params) (key : PageKey) (s : Scalar) : Params :=
  Members.put params key.name (.leaf (.scalar s))

theorem get?_entered (params : Params) (key : PageKey) (s : Scalar) :
    Members.get? (entered params key s) key.name = some (.leaf (.scalar s)) := by
  rw [entered, Members.get?_put, if_pos rfl]

theorem readNumber_entered_of_ne (h : other ≠ key) (params : Params) (s : Scalar) :
    readNumber (entered params key s) other = readNumber params other := by
  have hname : other.name ≠ key.name := fun e => h (PageKey.name_injective e)
  rw [readNumber, readNumber, entered, Members.get?_put, if_neg hname]

theorem readNumber_text {s : String} {n : Nat} (hs : Written s n) (hn : n < Number.wordCount) :
    readNumber (entered params key (.text s)) key = .ok n :=
  readNumber_eq_ok_iff.2 (.text (get?_entered params key _) hs hn)

theorem readNumber_natural (n : Fin Number.wordCount) :
    readNumber (entered params key (.number (.natural n))) key = .ok n.val :=
  readNumber_eq_ok_iff.2 (.number n (get?_entered params key _))

theorem readNumber_of_not_written {s : String} (h : ¬ ∃ n : Fin Number.wordCount, Written s n) :
    readNumber (entered params key (.text s)) key = .error (.notNaturalText key s) := by
  have hs : ofText? s = none := by
    rw [Option.eq_none_iff_forall_ne_some]
    intro n hn
    obtain ⟨hw, hlt⟩ := ofText?_eq_some_iff.1 hn
    exact h ⟨⟨n, hlt⟩, hw⟩
  simp only [readNumber, get?_entered, hs]

theorem readNumber_of_not_natural {x : Number} (h : ∀ n, x ≠ .natural n) :
    readNumber (entered params key (.number x)) key = .error (.notNaturalNumber key x) := by
  cases x with
  | natural n => exact absurd rfl (h n)
  | negative | double => simp only [readNumber, get?_entered, Number.toNat?]

/-! ## Faults of a form -/

/-- A form has no page window for a fault of a value, or for that of the page
    number, which is read first. -/
def Refuses (params : Params) (limit : Nat) (key : PageKey) (fault : PageFault) : Prop :=
  ofParams params limit = .error fault ∨
    key = .pageSize ∧ ∃ first, readNumber params .current = .error first ∧
      ofParams params limit = .error first

theorem refuses_of_readNumber {fault : PageFault} (h : readNumber params key = .error fault) :
    Refuses params limit key fault := by
  cases hc : readNumber params .current with
  | error first =>
    have hp : ofParams params limit = .error first := by
      rw [ofParams, hc]
      rfl
    cases key with
    | current =>
      obtain rfl := Except.error.inj (hc.symm.trans h)
      exact Or.inl hp
    | pageSize => exact Or.inr ⟨rfl, first, hc, hp⟩
  | ok current =>
    cases key with
    | current => cases hc.symm.trans h
    | pageSize =>
      refine Or.inl ?_
      rw [ofParams, hc, h]
      rfl

/-- **Numbers and numerals page alike.**  Under either reserved name a text with the
    digits of a number of 64 bits, zeros and a `+` before them and blanks around, is read
    as the number itself, with the same page window or fault up to any limit. Every other
    text is refused, also one with the digits of a larger number, and so is a number whose
    literal has a sign, a point or an exponent, and any number that is not a natural one. -/
theorem numerals_page_alike (params : Params) (key : PageKey) (limit : Nat) :
    (∀ (n : Fin Number.wordCount) (s : String), Written s n →
      Json.Reader.number? (Nat.toDigits 10 n) = some (.number (.natural n), []) ∧
      readNumber (entered params key (.text s)) key = .ok n.val ∧
      readNumber (entered params key (.number (.natural n))) key = .ok n.val ∧
      ofParams (entered params key (.text s)) limit =
        ofParams (entered params key (.number (.natural n))) limit) ∧
    (∀ s, (¬ ∃ n : Fin Number.wordCount, Written s n) →
      Refuses (entered params key (.text s)) limit key (.notNaturalText key s)) ∧
    (∀ s n, Written s n → Number.wordCount ≤ n →
      Refuses (entered params key (.text s)) limit key (.notNaturalText key s)) ∧
    (∀ literal x, Json.Reader.number? literal = some (.number x, []) →
      (∃ c ∈ literal, c.isDigit = false) →
      Refuses (entered params key (.number x)) limit key (.notNaturalNumber key x)) ∧
    ∀ x, (∀ n, x ≠ .natural n) →
      Refuses (entered params key (.number x)) limit key (.notNaturalNumber key x) := by
  have htext : ∀ s, (¬ ∃ n : Fin Number.wordCount, Written s n) →
      Refuses (entered params key (.text s)) limit key (.notNaturalText key s) := fun s hs =>
    refuses_of_readNumber (readNumber_of_not_written hs)
  have hnumber : ∀ x, (∀ n, x ≠ .natural n) →
      Refuses (entered params key (.number x)) limit key (.notNaturalNumber key x) := fun x hx =>
    refuses_of_readNumber (readNumber_of_not_natural hx)
  refine ⟨fun n s hs => ?_, htext, fun s n hs hn => ?_, fun literal x hx => ?_, hnumber⟩
  · refine ⟨Json.Reader.number?_toDigits n, readNumber_text hs n.isLt, readNumber_natural n, ?_⟩
    refine ofParams_of_readNumber (fun other => ?_) limit
    by_cases h : other = key
    · rw [h, readNumber_text hs n.isLt, readNumber_natural]
    · rw [readNumber_entered_of_ne h, readNumber_entered_of_ne h]
  · refine htext s ?_
    rintro ⟨m, hm⟩
    exact absurd m.isLt (Nat.not_lt.2 (hm.unique hs ▸ hn))
  · rintro ⟨c, hc, hdigit⟩
    refine hnumber x ?_
    rintro n rfl
    rw [Json.Reader.isDigit_of_number? hx c hc] at hdigit
    cases hdigit

/-- A page size with zeros and blanks, one of too many digits, and a whole number with a
    point. -/
theorem numerals_page_alike_padded :
    let form : Params := [("current", .leaf (.scalar (.text "2")))]
    let size (s : String) : Params := entered form .pageSize (.text s)
    let point : Binary64 := ⟨false, 4503599627370496, -52, by decide⟩
    Written "\u00a0+0020\n" 20 ∧
      ofParams (size "\u00a0+0020\n") 10 =
        ofParams (entered form .pageSize (.number (.natural ⟨20, by decide⟩))) 10 ∧
      Written "18446744073709551616" Number.wordCount ∧
      Refuses (size "18446744073709551616") 10 .pageSize
        (.notNaturalText .pageSize "18446744073709551616") ∧
      (¬ ∃ n : Fin Number.wordCount, Written "+ 1" n) ∧
      Refuses (size "+ 1") 10 .pageSize (.notNaturalText .pageSize "+ 1") ∧
      Json.Reader.number? "1.0".toList = some (.number (.double point), []) ∧
      Refuses (entered form .current (.number (.double point))) 10 .current
        (.notNaturalNumber .current (.double point)) := by
  intro form size point
  have hwritten : Written "\u00a0+0020\n" 20 := natural?_trim_eq_some_iff.1 (by decide +kernel)
  have hlarge : Written "18446744073709551616" Number.wordCount :=
    natural?_trim_eq_some_iff.1 (by decide +kernel)
  have hother : ¬ ∃ n : Fin Number.wordCount, Written "+ 1" n := by
    rintro ⟨n, hn⟩
    have hnone : Decimal.natural? (Text.trim "+ 1".toList) = none := by decide +kernel
    cases hnone.symm.trans (natural?_trim_eq_some_iff.2 hn)
  have hliteral : Json.Reader.number? "1.0".toList = some (.number (.double point), []) := by
    rfl
  obtain ⟨halike, htext, hover, -, -⟩ := numerals_page_alike form .pageSize 10
  obtain ⟨-, -, -, hnumber, -⟩ := numerals_page_alike form .current 10
  exact ⟨hwritten, (halike ⟨20, by decide⟩ _ hwritten).2.2.2, hlarge,
    hover _ _ hlarge (Nat.le_refl _), hother, htext _ hother, hliteral,
    hnumber _ _ hliteral ⟨'.', by decide, by decide⟩⟩

end Page

end TableQuery
