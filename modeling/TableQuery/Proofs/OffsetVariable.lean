/-
  The offset of an environment variable.

  The value of a variable is read before it is an offset: what is an integer of 64 bits as a
  whole is a number, and no text any more.

  * `setting_eq_bare`: a value without brackets and quotes, and without the words that mean
    something else, is a bare word between blanks;
  * `bare_of_isSigned`, `bare_of_not_isSigned`: a bare word with a sign is a text if and only
    if it is no integer;
  * `load_offset`: what a variable for the offset makes of the standard configuration;
  * `load_offset_iff`: so the text of a valid offset is read to the same offset from a
    variable, unless it is a sign and digits that make an integer of 64 bits.
-/
import Mathlib.Data.List.TakeWhile
import TableQuery.Config.File
import TableQuery.Proofs.Suffix

namespace TableQuery

namespace Environment

/-! ## Values -/

/-- Whether a value that is no bare word may begin with a character, or a bare word end
    before it. -/
def isOpening (c : Char) : Bool :=
  isSeparator c || ['t', 'f', '"', '\''].contains c

theorem isBlank_of_isSkipped {c : Char} (h : isSkipped c = true) : Text.isBlank c = true := by
  simp only [isSkipped, Bool.or_eq_true, decide_eq_true_eq] at h
  rcases h with (((rfl | rfl) | rfl) | rfl) | rfl <;> decide

theorem isSeparator_of_not_isOpening {c : Char} (h : isOpening c = false) :
    isSeparator c = false := by
  rw [isOpening, Bool.or_eq_false_iff] at h
  exact h.1

theorem trim_dropWhile_isSkipped (cs : List Char) :
    Text.trim (cs.dropWhile isSkipped) = Text.trim cs := by
  have hblank : ∀ c ∈ cs.takeWhile isSkipped, Text.isBlank c = true := fun c hc =>
    isBlank_of_isSkipped (List.all_eq_true.1 List.all_takeWhile c hc)
  rw [← Text.trim_append_left hblank, List.takeWhile_append_dropWhile]

theorem value?_eq_bare {fuel : Nat} {cs : List Char} (h : ∀ c ∈ cs, isOpening c = false) :
    value? (fuel + 1) cs = some (bare (Text.trim cs), []) := by
  have hdrop : ∀ c ∈ cs.dropWhile isSkipped, isOpening c = false := fun c hc =>
    h c ((List.dropWhile_suffix _).mem hc)
  rw [← trim_dropWhile_isSkipped, value?]
  generalize cs.dropWhile isSkipped = ds at hdrop
  -- all forms but the last begin with a character that opens them
  split
  case h_8 =>
    have hword : ∀ c ∈ ds, (!isSeparator c) = true := fun c hc => by
      rw [isSeparator_of_not_isOpening (hdrop c hc)]
      rfl
    rw [List.takeWhile_eq_self_iff.2 hword, List.dropWhile_eq_nil_iff.2 hword]
    rfl
  all_goals exact absurd (hdrop _ List.mem_cons_self) (by decide)

theorem setting_eq_bare {value : String} (h : ∀ c ∈ value.toList, isOpening c = false) :
    setting value = bare (Text.trim value.toList) := by
  simp only [setting, value?_eq_bare h]

/-! ## Integers -/

/-- A sign and digits that make an integer of 64 bits. -/
def IsSigned (cs : List Char) : Prop :=
  ∃ ds, ds ≠ [] ∧ (∀ d ∈ ds, d.isDigit = true) ∧
    (cs = '+' :: ds ∧ Decimal.valueOf ds < Number.wordCount ∨
      cs = '-' :: ds ∧ Decimal.valueOf ds ≤ Number.negativeCount)

theorem isPointed_eq_false {cs : List Char} (h : '.' ∉ cs) : isPointed cs = false := by
  have hc : cs.contains '.' = false := by simpa using h
  simp only [isPointed, hc, Bool.false_and]

theorem natural?_plus (ds : List Char) :
    Decimal.natural? ('+' :: ds) =
      if ds ≠ [] ∧ ds.all Char.isDigit then some (Decimal.valueOf ds) else none := rfl

theorem natural?_minus (ds : List Char) : Decimal.natural? ('-' :: ds) = none := by
  simp [Decimal.natural?]

theorem negative?_plus (ds : List Char) : negative? ('+' :: ds) = none := rfl

theorem negative?_minus (ds : List Char) :
    negative? ('-' :: ds) =
      if ds ≠ [] ∧ ds.all Char.isDigit then some (Decimal.valueOf ds) else none := rfl

theorem bare_of_isSigned {cs : List Char} (h : IsSigned cs) (s : String) : bare cs ≠ .text s := by
  obtain ⟨ds, hne, hdigits, h⟩ := h
  have hds : ds ≠ [] ∧ ds.all Char.isDigit = true := ⟨hne, List.all_eq_true.2 hdigits⟩
  have hdot : '.' ∉ ds := fun hm => absurd (hdigits _ hm) (by decide)
  rcases h with ⟨rfl, hv⟩ | ⟨rfl, hv⟩
  · have hp : isPointed ('+' :: ds) = false := isPointed_eq_false (by simpa using hdot)
    simp [bare, hp, natural?_plus, hds, hv]
  · have hp : isPointed ('-' :: ds) = false := isPointed_eq_false (by simpa using hdot)
    simp only [bare, hp, natural?_minus, negative?_minus, if_pos hds, hv]
    split_ifs <;> simp

/-- A bare word with a sign is a text, if it is no integer. -/
theorem bare_of_not_isSigned {sign : Char} {ds : List Char} (hs : sign = '+' ∨ sign = '-')
    (hdot : '.' ∉ ds) (h : ¬ IsSigned (sign :: ds)) :
    bare (sign :: ds) = .text (String.ofList (sign :: ds)) := by
  have hp : isPointed (sign :: ds) = false := by
    refine isPointed_eq_false ?_
    rcases hs with rfl | rfl <;> simpa using hdot
  by_cases hds : ds ≠ [] ∧ ds.all Char.isDigit = true
  · have hdigits : ∀ d ∈ ds, d.isDigit = true := List.all_eq_true.1 hds.2
    rcases hs with rfl | rfl
    · have hv : ¬ Decimal.valueOf ds < Number.wordCount := fun hv =>
        h ⟨ds, hds.1, hdigits, Or.inl ⟨rfl, hv⟩⟩
      simp only [bare, hp, natural?_plus, if_pos hds, if_neg hv]
      rfl
    · have hv : ¬ Decimal.valueOf ds ≤ Number.negativeCount := fun hv =>
        h ⟨ds, hds.1, hdigits, Or.inr ⟨rfl, hv⟩⟩
      have hzero : ¬ Decimal.valueOf ds = 0 := fun hz => hv (by omega)
      simp only [bare, hp, natural?_minus, negative?_minus, if_pos hds, if_neg hzero, if_neg hv]
      rfl
  · rcases hs with rfl | rfl
    · simp only [bare, hp, natural?_plus, negative?_plus, if_neg hds]
      rfl
    · simp only [bare, hp, natural?_minus, negative?_minus, if_neg hds]
      rfl

end Environment

namespace UtcOffset

open Environment (isOpening)

/-! ## Texts of offsets as values -/

/-- No blank and no character of an offset opens a value that is no bare word. -/
theorem isOpening_eq_false {c : Char} (h : Text.isBlank c = true ∨ isOffsetChar c = true) :
    isOpening c = false := by
  rw [← Bool.not_eq_true]
  intro hc
  simp only [isOpening, Environment.isSeparator, Bool.or_eq_true, decide_eq_true_eq,
    List.contains_iff_mem, List.mem_cons, List.not_mem_nil, or_false, or_assoc] at hc
  rcases hc with rfl | rfl | rfl | rfl | rfl | rfl | rfl | rfl | rfl <;> revert h <;> decide

theorem Reads.setting_eq {s : String} {n : Int} (h : Reads (Text.trim s.toList) n) :
    Environment.setting s = Environment.bare (Text.trim s.toList) := by
  refine Environment.setting_eq_bare fun c hc => isOpening_eq_false ?_
  obtain ⟨before, after, hs, hbefore, hafter⟩ := Text.exists_trim s.toList
  rw [hs, List.mem_append, List.mem_append] at hc
  rcases hc with (hc | hc) | hc
  · exact Or.inl (hbefore c hc)
  · exact Or.inr (h.isOffsetChar c hc)
  · exact Or.inl (hafter c hc)

/-- Unless it is an integer, an offset is a bare word that is a text. -/
theorem Reads.bare_eq {cs : List Char} {n : Int} (h : Reads cs n)
    (hsigned : ¬ Environment.IsSigned cs) :
    Environment.bare cs = .text (String.ofList cs) := by
  have hchar := h.isOffsetChar
  cases h with
  | utc h => rcases h with rfl | rfl <;> decide
  | clock t hgap hbehind =>
    rw [Clock.text] at hsigned hchar ⊢
    refine Environment.bare_of_not_isSigned t.sign_eq (fun hdot => ?_) hsigned
    exact absurd (hchar '.' (List.mem_cons_of_mem _ hdot)) (by decide)

/-- The digits of hours and minutes make an integer below ten thousand. -/
theorem Clock.isSigned_text (t : Clock) : Environment.IsSigned (t.text [] []) := by
  have hh := t.hours_lt
  have hm := t.minutes_lt
  have hv : Decimal.valueOf (twoDigits t.hours ++ twoDigits t.minutes) < 10000 := by
    rw [Decimal.valueOf, twoDigits, twoDigits]
    simp (disch := omega) only [List.cons_append, List.nil_append,
      Nat.ofDigitChars_cons_digitChar_of_lt_ten, Nat.ofDigitChars_nil]
    omega
  have htext : t.text [] [] = t.sign :: (twoDigits t.hours ++ twoDigits t.minutes) := by
    simp [Clock.text]
  refine ⟨twoDigits t.hours ++ twoDigits t.minutes, by simp [twoDigits], fun d hd => ?_, ?_⟩
  · rcases List.mem_append.1 hd with hd | hd
    · exact Clock.isDigit_of_mem_hours hd
    · exact Clock.isDigit_of_mem_minutes hd
  · rw [htext]
    rcases t.sign_eq with h | h <;> rw [h]
    · exact Or.inl ⟨rfl, Nat.lt_trans hv (by decide)⟩
    · exact Or.inr ⟨rfl, Nat.le_of_lt (Nat.lt_trans hv (by decide))⟩

end UtcOffset

namespace Config

/-! ## Loading -/

/-- The name of the variable for the offset. -/
def offsetVariable : String :=
  "TABLE_ODATA_DATETIME_OFFSET"

/-- Of the value of the variable, only a text is an offset. -/
theorem load_offset (value : String) :
    load none [(offsetVariable, value)] =
      match Environment.setting value with
      | .text s => ({ standard with timeOffset := s }.validate).map fun _ =>
          { standard with timeOffset := s }
      | _ => .error .unreadable := by
  have hp : Environment.settingPath? offsetVariable = some ["datetime_offset"] := by decide
  have hf : SettingsFile.settings? "" = some [] := by decide
  simp only [load, Environment.settings, Environment.settingsOf, hp, hf, Option.getD_none,
    List.map_cons, List.map_nil, Setting.nest]
  cases Environment.setting value <;> rfl

/-- **The offset of a variable.**  The text of a valid offset, as the value of the variable,
    makes a configuration with the same offset if and only if, without the blanks around,
    it is no sign and digits of an integer of 64 bits. If it is, the settings cannot be read;
    so they never can with hours and minutes that have no colon between them and nothing
    behind. -/
theorem load_offset_iff (s : String) (h : { standard with timeOffset := s }.validate = .ok ()) :
    ((∃ c, load none [(offsetVariable, s)] = .ok c ∧
        c.offset = { standard with timeOffset := s }.offset) ↔
      ¬ Environment.IsSigned (Text.trim s.toList)) ∧
    (Environment.IsSigned (Text.trim s.toList) →
      load none [(offsetVariable, s)] = .error .unreadable) ∧
    ∀ t : UtcOffset.Clock, Text.trim s.toList = t.text [] [] →
      load none [(offsetVariable, s)] = .error .unreadable := by
  obtain ⟨o, ho⟩ := validate_eq_ok_iff.1 h
  have hreads := UtcOffset.parse?_eq_some_iff.1 ho.parse_offset
  have hsigned : Environment.IsSigned (Text.trim s.toList) →
      load none [(offsetVariable, s)] = .error .unreadable := by
    intro hi
    have hno := Environment.bare_of_isSigned hi
    rw [load_offset, hreads.setting_eq]
    cases hb : Environment.bare (Text.trim s.toList) with
    | text s' => exact absurd hb (hno s')
    | natural | null | group | other => rfl
  refine ⟨⟨?_, fun hi => ?_⟩, hsigned, ?_⟩
  · rintro ⟨c, hc, -⟩ hi
    rw [hsigned hi] at hc
    cases hc
  · have hv : { standard with timeOffset := String.ofList (Text.trim s.toList) }.Valid o := by
      refine ⟨ho.pageLimit_pos, UtcOffset.parse?_eq_some_iff.2 ?_⟩
      rw [String.toList_ofList, hreads.trim_eq]
      exact hreads
    refine ⟨_, ?_, hv.offset_eq.trans ho.offset_eq.symm⟩
    rw [load_offset, hreads.setting_eq, hreads.bare_eq hi]
    simp only [validate_eq_ok_iff.2 ⟨o, hv⟩]
    rfl
  · intro t ht
    refine hsigned ?_
    rw [ht]
    exact t.isSigned_text

/-- An offset between blanks, with a colon. -/
theorem load_offset_iff_west :
    let s := "\t-05:30\u00a0"
    { standard with timeOffset := s }.validate = .ok () ∧
      ∃ c, load none [(offsetVariable, s)] = .ok c ∧ c.offset = .ok ⟨-330, by decide⟩ := by
  intro s
  have hv : { standard with timeOffset := s }.validate = .ok () := by decide
  have ho : { standard with timeOffset := s }.offset = .ok ⟨-330, by decide⟩ := by decide
  have hi : ¬ Environment.IsSigned (Text.trim s.toList) := by
    have hs : Text.trim s.toList = '-' :: "05:30".toList := by decide
    rintro ⟨ds, -, hdigits, ⟨h, -⟩ | ⟨h, -⟩⟩
    · rw [hs] at h
      cases h
    · rw [hs] at h
      obtain rfl := (List.cons.inj h).2
      exact absurd (hdigits ':' (by decide)) (by decide)
  obtain ⟨c, hc, hsame⟩ := (load_offset_iff s hv).1.2 hi
  exact ⟨hv, c, hc, hsame.trans ho⟩

/-- Hours and minutes without a colon are an offset, and no offset of a variable. -/
theorem load_offset_number :
    { standard with timeOffset := "+0800" }.validate = .ok () ∧
      { standard with timeOffset := "+0800" }.offset = .ok ⟨480, by decide⟩ ∧
      load none [(offsetVariable, "+0800")] = .error .unreadable := by
  decide

end Config

end TableQuery
