/-
  Which texts of a query string spell which bytes.

  * `Spells`: a `+` spells a space, an escape its byte, and any other character
    its own bytes;
  * `spells_of_malformedFrom`, `Spells.read`: a text without malformed escapes
    spells the bytes that are read from it, and a text with one spells none;
  * `decode_eq_ok_iff`: a text is decoded if and only if it spells the bytes of
    the result;
  * `bytes_eq_iff_spells`: bytes without those of `%`, `+` and the space are read
    leniently from the texts that spell them.
-/
import TableQuery.Proofs.Percent

namespace TableQuery.Percent

/-- The bytes that a text spells, if there are any. -/
inductive Spells : List Char → List UInt8 → Prop
  | nil : Spells [] []
  | plus {cs : List Char} {bs : List UInt8} (h : Spells cs bs) : Spells ('+' :: cs) (0x20 :: bs)
  | escape {high low : Char} {b : UInt8} {cs : List Char} {bs : List UInt8}
      (hb : hexByte? high low = some b) (h : Spells cs bs) :
      Spells ('%' :: high :: low :: cs) (b :: bs)
  | literal {c : Char} {cs : List Char} {bs : List UInt8} (hp : c ≠ '+') (he : c ≠ '%')
      (h : Spells cs bs) : Spells (c :: cs) (String.utf8EncodeChar c ++ bs)

/-! ## Reading bytes -/

/-- A `+` is no hexadecimal digit. -/
theorem ne_plus_of_hexByte? {high low : Char} {b : UInt8} (h : hexByte? high low = some b) :
    high ≠ '+' ∧ low ≠ '+' := by
  have hp : hexDigit? '+' = none := by decide
  constructor
  · rintro rfl
    simp [hexByte?, hp] at h
  · rintro rfl
    cases hh : hexDigit? high <;> simp [hexByte?, hp, hh] at h

/-- No escape takes a `+` up, so that its byte is read. -/
theorem plus_mem_bytes {cs : List Char} (h : '+' ∈ cs) : 0x2B ∈ bytes cs := by
  fun_induction bytes cs with
  | case1 => simp at h
  | case2 high low rest b hb ih =>
    obtain ⟨hh, hl⟩ := ne_plus_of_hexByte? hb
    simp only [List.mem_cons, hh.symm, hl.symm, false_or] at h
    exact List.mem_cons_of_mem _ (ih (h.resolve_left (by decide)))
  | case3 high low rest hb ih =>
    exact List.mem_append_right _ (ih ((List.mem_cons.1 h).resolve_left (by decide)))
  | case4 high ih =>
    exact List.mem_append_right _ (ih ((List.mem_cons.1 h).resolve_left (by decide)))
  | case5 => simp at h
  | case6 c cs hc ih =>
    rcases List.mem_cons.1 h with rfl | h
    · exact List.mem_append_left _ (by decide)
    · exact List.mem_append_right _ (ih h)

theorem spaced_escaped {high low : Char} {b : UInt8} (h : hexByte? high low = some b)
    (cs : List Char) : spaced ('%' :: high :: low :: cs) = '%' :: high :: low :: spaced cs := by
  obtain ⟨hh, hl⟩ := ne_plus_of_hexByte? h
  simp [spaced, hh, hl]

theorem bytes_spaced_plus (cs : List Char) :
    bytes (spaced ('+' :: cs)) = 0x20 :: bytes (spaced cs) := by
  have hs : spaced ('+' :: cs) = ' ' :: spaced cs := rfl
  rw [hs, bytes_cons_of_ne (by decide)]
  rfl

theorem bytes_spaced_literal {c : Char} (hp : c ≠ '+') (he : c ≠ '%') (cs : List Char) :
    bytes (spaced (c :: cs)) = String.utf8EncodeChar c ++ bytes (spaced cs) := by
  have hs : spaced (c :: cs) = c :: spaced cs := by simp [spaced, hp]
  rw [hs, bytes_cons_of_ne he]

/-! ## Spelling and reading -/

/-- A text spells the bytes that are read from it, unless an escape is
    malformed. -/
theorem spells_of_malformedFrom {index : Nat} {cs : List Char}
    (h : malformedFrom index cs = none) : Spells cs (bytes (spaced cs)) := by
  fun_induction malformedFrom index cs with
  | case1 => exact .nil
  | case2 index high low rest hh ih =>
    obtain ⟨b, hb⟩ := Option.isSome_iff_exists.1 hh
    rw [spaced_escaped hb, bytes_escaped hb]
    exact .escape hb (ih h)
  | case3 | case4 => cases h
  | case5 index c cs he ih =>
    by_cases hp : c = '+'
    · rw [hp, bytes_spaced_plus]
      exact .plus (ih h)
    · rw [bytes_spaced_literal hp he]
      exact .literal hp he (ih h)

/-- A text that spells bytes has no malformed escape, and these bytes are read
    from it. -/
theorem Spells.read {cs : List Char} {bs : List UInt8} (h : Spells cs bs) (index : Nat) :
    malformedFrom index cs = none ∧ bytes (spaced cs) = bs := by
  induction h generalizing index with
  | nil => exact ⟨rfl, rfl⟩
  | plus _ ih =>
    rw [malformedFrom_cons_of_ne (by decide), bytes_spaced_plus, (ih 0).2]
    exact ⟨(ih _).1, rfl⟩
  | escape hb _ ih =>
    rw [malformedFrom_escaped hb, spaced_escaped hb, bytes_escaped hb, (ih 0).2]
    exact ⟨(ih _).1, rfl⟩
  | literal hp he _ ih =>
    rw [malformedFrom_cons_of_ne he, bytes_spaced_literal hp he, (ih 0).2]
    exact ⟨(ih _).1, rfl⟩

/-- A text is decoded if and only if it spells the bytes of the result. -/
theorem decode_eq_ok_iff {cs text : List Char} :
    decode cs = .ok text ↔ Spells cs (Utf8.encode text) := by
  unfold decode
  split
  · rename_i index hm
    refine iff_of_false (by simp) fun h => ?_
    rw [malformed?, (h.read 0).1] at hm
    cases hm
  · rename_i hm
    have hs := spells_of_malformedFrom hm
    have hd : (Utf8.decode (bytes (spaced cs))).mapError Fault.notUtf8 = .ok text ↔
        bytes (spaced cs) = Utf8.encode text := by
      rw [← Utf8.decode_eq_ok_iff]
      cases Utf8.decode (bytes (spaced cs)) <;> simp [Except.mapError]
    rw [hd]
    exact ⟨fun h => h ▸ hs, fun h => (h.read 0).2⟩

/-! ## Lenient reading -/

/-- The `%` of a malformed escape is read as itself. -/
theorem percent_mem_bytes {index j : Nat} {cs : List Char} (h : malformedFrom index cs = some j) :
    0x25 ∈ bytes cs := by
  fun_induction malformedFrom index cs with
  | case1 => cases h
  | case2 index high low rest hh ih =>
    obtain ⟨b, hb⟩ := Option.isSome_iff_exists.1 hh
    rw [bytes_escaped hb]
    exact List.mem_cons_of_mem _ (ih h)
  | case3 index high low rest hh =>
    have hb : hexByte? high low = none := by simpa using hh
    simp only [bytes, if_pos, hb]
    exact List.mem_append_left _ (by decide)
  | case4 index cs hcs =>
    rcases cs with _ | ⟨high, _ | ⟨low, rest⟩⟩
    · decide
    · exact List.mem_append_left _ (by decide)
    · exact absurd rfl (hcs high low rest)
  | case5 index c cs he ih =>
    rw [bytes_cons_of_ne he]
    exact List.mem_append_right _ (ih h)

theorem Spells.space_mem {cs : List Char} {bs : List UInt8} (h : Spells cs bs) (hp : '+' ∈ cs) :
    0x20 ∈ bs := by
  induction h with
  | nil => cases hp
  | plus _ _ => exact List.mem_cons_self
  | escape hb _ ih =>
    obtain ⟨hh, hl⟩ := ne_plus_of_hexByte? hb
    simp only [List.mem_cons, hh.symm, hl.symm, false_or] at hp
    exact List.mem_cons_of_mem _ (ih (hp.resolve_left (by decide)))
  | literal hne _ _ ih =>
    exact List.mem_append_right _ (ih ((List.mem_cons.1 hp).resolve_left hne.symm))

/-- Readers that are lenient and strict differ about malformed escapes, which leave
    a `%`, and about `+`. -/
theorem bytes_eq_iff_spells {cs : List Char} {bs : List UInt8} (hpercent : 0x25 ∉ bs)
    (hplus : 0x2B ∉ bs) (hspace : 0x20 ∉ bs) : bytes cs = bs ↔ Spells cs bs := by
  constructor
  · rintro rfl
    have hm : malformedFrom 0 cs = none :=
      Option.eq_none_iff_forall_ne_some.2 fun _ hj => hpercent (percent_mem_bytes hj)
    have hs := spells_of_malformedFrom hm
    rwa [spaced_eq_self fun hp => hplus (plus_mem_bytes hp)] at hs
  · intro h
    have hr := (h.read 0).2
    rwa [spaced_eq_self fun hp => hspace (h.space_mem hp)] at hr

end TableQuery.Percent
