/-
  What stands behind a date and time.

  The offset of a valid configuration is written as a suffix in one way, however the
  configuration spells it, and a composer holds the offset of its configuration.

  * `reads_text`, `parse?_text`: a suffix is a clock with one colon, and is read back as the
    offset that it was made from;
  * `valid_iff`, `validate_eq_ok_iff`: which configurations are valid;
  * `Valid.configured_eq`, `configured_eq_error`: these are the ones that make a composer;
  * `offset_suffix`: so a suffix may replace the text of the offset, and two of them are the
    same if and only if the offsets are.
-/
import TableQuery.Composer
import TableQuery.Proofs.Stages
import TableQuery.Proofs.UtcOffset

namespace TableQuery

namespace UtcOffset

/-! ## Suffixes -/

theorem reads_text (o : UtcOffset) : Reads o.text.toList o.seconds := by
  rw [toList_text, ← seconds_clock]
  exact .clock _ (by simp) (by simp)

/-- A suffix is read as the offset that it was made from. -/
theorem parse?_text (o : UtcOffset) : parse? o.text = some o := by
  rw [parse?_eq_some_iff, o.reads_text.trim_eq]
  exact o.reads_text

theorem text_injective : Function.Injective text := by
  intro o o' h
  have hp := parse?_text o
  rw [h, parse?_text] at hp
  exact (Option.some.inj hp).symm

/-- The one form of a suffix: a sign, two digits of hours, a colon and two digits of
    minutes. -/
structure IsSuffix (suffix : String) (seconds : Int) : Prop where
  length_eq : suffix.length = 6
  eq_clock : ∃ t : Clock, suffix.toList = t.text [':'] [] ∧ t.seconds = seconds
  zero : seconds = 0 → suffix = "+00:00"

theorem isSuffix_text (o : UtcOffset) : IsSuffix o.text o.seconds where
  length_eq := by
    rw [← String.length_toList, toList_text, Clock.length_text]
    rfl
  eq_clock := ⟨o.clock, o.toList_text, o.seconds_clock⟩
  zero h := by
    obtain rfl : o = zero := seconds_injective h
    rfl

theorem seconds_bounds (o : UtcOffset) : 60 ∣ o.seconds ∧ o.seconds.natAbs < 24 * 3600 := by
  have hb := o.bound
  exact ⟨Int.dvd_mul_left o.minutes 60, by rw [seconds]; omega⟩

end UtcOffset

namespace Config

variable {c d : Config} {o : UtcOffset}

/-! ## Valid configurations -/

theorem valid_iff : c.Valid o ↔ 0 < c.pageLimit ∧ c.offset = .ok o := by
  rw [offset_eq_ok_iff]
  exact ⟨fun h => ⟨h.pageLimit_pos, h.parse_offset⟩, fun h => ⟨h.1, h.2⟩⟩

theorem Valid.offset_eq (h : c.Valid o) : c.offset = .ok o :=
  (valid_iff.1 h).2

theorem Valid.offsetText_eq (h : c.Valid o) : c.offsetText = .ok o.text := by
  rw [offsetText, h.offset_eq]
  rfl

theorem Valid.check_eq (h : c.Valid o) : c.check = .ok ⟨o, h⟩ := by
  have hl : ¬ c.pageLimit = 0 := Nat.pos_iff_ne_zero.1 h.pageLimit_pos
  unfold check
  rw [dif_neg hl]
  split
  · rename_i o' ho
    obtain rfl : o = o' := by
      rw [← Option.some.injEq, ← h.parse_offset, ho]
    rfl
  · rename_i ho
    rw [h.parse_offset] at ho
    cases ho

theorem validate_eq_ok_iff : c.validate = .ok () ↔ ∃ o, c.Valid o := by
  rw [validate, map_eq_ok_iff]
  constructor
  · rintro ⟨o, -, -⟩
    exact ⟨o.val, o.property⟩
  · rintro ⟨o, h⟩
    exact ⟨⟨o, h⟩, h.check_eq, rfl⟩

/-- The suffix of a valid configuration, as its offset, is valid again. -/
theorem Valid.suffix (h : c.Valid o) : { c with timeOffset := o.text }.Valid o :=
  ⟨h.pageLimit_pos, o.parse?_text⟩

theorem Valid.configured_eq (h : c.Valid o) (columns : List Column) :
    Composer.configured columns c = .ok ⟨Columns.ofList columns, c, o, h⟩ := by
  rw [Composer.configured, h.check_eq]
  rfl

theorem configured_eq_error {fault : ConfigFault} (h : c.validate = .error fault)
    (columns : List Column) : Composer.configured columns c = .error fault := by
  rw [validate, map_eq_error_iff] at h
  rw [Composer.configured, map_eq_error_iff, h]

theorem text_standard : UtcOffset.text ⟨480, by decide⟩ = standard.timeOffset := by
  decide

/-- **Suffixes.**  A valid configuration has an offset of whole minutes, less than a day,
    and its suffix is a sign, two digits of hours, a colon and two digits of minutes with
    the same seconds, `+00:00` if there are none. The suffix in the place of the text of the
    offset is valid again, with the same offset and suffix, and a composer is made that
    holds it. Two valid configurations have the same suffix if and only if they have
    the same offset. One that is not valid makes no composer, for the same fault. The
    standard one makes the standard composer, and its text is its suffix. -/
theorem offset_suffix (columns : List Column) :
    (∀ c : Config, c.validate = .ok () → ∃ (o : UtcOffset) (k : Composer),
      c.offset = .ok o ∧ 60 ∣ o.seconds ∧ o.seconds.natAbs < 24 * 3600 ∧
      c.offsetText = .ok o.text ∧ UtcOffset.IsSuffix o.text o.seconds ∧
      { c with timeOffset := o.text }.validate = .ok () ∧
      { c with timeOffset := o.text }.offset = .ok o ∧
      { c with timeOffset := o.text }.offsetText = .ok o.text ∧
      Composer.configured columns c = .ok k ∧ k.columns = Columns.ofList columns ∧
      k.config = c ∧ k.offset.text = o.text) ∧
    (∀ c d : Config, c.validate = .ok () → d.validate = .ok () →
      (c.offsetText = d.offsetText ↔ c.offset = d.offset)) ∧
    (∀ (c : Config) (fault : ConfigFault), c.validate = .error fault →
      Composer.configured columns c = .error fault) ∧
    Composer.configured columns standard = .ok (Composer.ofColumns columns) ∧
    (Composer.ofColumns columns).offset.text = standard.timeOffset := by
  refine ⟨fun c h => ?_, fun c d hc hd => ?_, fun c fault h => configured_eq_error h columns,
    standard_valid.configured_eq columns, text_standard⟩
  · obtain ⟨o, ho⟩ := validate_eq_ok_iff.1 h
    obtain ⟨hminutes, hday⟩ := o.seconds_bounds
    exact ⟨o, _, ho.offset_eq, hminutes, hday, ho.offsetText_eq, o.isSuffix_text,
      validate_eq_ok_iff.2 ⟨o, ho.suffix⟩, ho.suffix.offset_eq, ho.suffix.offsetText_eq,
      ho.configured_eq columns, rfl, rfl, rfl⟩
  · obtain ⟨o, ho⟩ := validate_eq_ok_iff.1 hc
    obtain ⟨o', ho'⟩ := validate_eq_ok_iff.1 hd
    rw [ho.offsetText_eq, ho'.offsetText_eq, ho.offset_eq, ho'.offset_eq, Except.ok.injEq,
      Except.ok.injEq, UtcOffset.text_injective.eq_iff]

/-- Two spellings of no offset at all, and an offset of a whole day. -/
theorem offset_suffix_zero :
    let c : Config := ⟨" -00::00:5 ", .dollar, 7⟩
    let d : Config := ⟨"z", .plain, 1⟩
    let e : Config := ⟨"+24:00", .plain, 5⟩
    c.validate = .ok () ∧ d.validate = .ok () ∧ e.validate = .error (.offset "+24:00") ∧
      c.offsetText = d.offsetText ∧
      Composer.configured [] e = .error (.offset "+24:00") ∧
      ∃ (o : UtcOffset) (k : Composer), c.offset = .ok o ∧ o.seconds = 0 ∧
        Composer.configured [] c = .ok k ∧ k.offset.text = "+00:00" := by
  intro c d e
  obtain ⟨hsuffix, hsame, hfault, -⟩ := offset_suffix []
  have hc : c.validate = .ok () := by decide
  have hd : d.validate = .ok () := by decide
  have he : e.validate = .error (.offset "+24:00") := by decide
  have hoffset : c.offset = .ok UtcOffset.zero := by decide
  have hoffset' : d.offset = .ok UtcOffset.zero := by decide
  refine ⟨hc, hd, he, (hsame c d hc hd).2 (hoffset.trans hoffset'.symm), hfault e _ he, ?_⟩
  obtain ⟨o, k, ho, -, -, -, hform, -, -, -, hk, -, -, htext⟩ := hsuffix c hc
  obtain rfl : o = UtcOffset.zero := Except.ok.inj (ho.symm.trans hoffset)
  exact ⟨_, k, ho, rfl, hk, htext.trans (hform.zero rfl)⟩

end Config

end TableQuery
