/-
  Blank characters and trimming.

  A character is blank if it has the Unicode property White_Space: the six
  ASCII blanks, the two Latin-1 ones and the spaces and separators beyond.
  `trim` removes them at both ends and nowhere else (`exists_trim`).
-/
namespace TableQuery.Text

/-- The code points with the property White_Space, as inclusive ranges. -/
def blankRanges : List (Nat × Nat) :=
  [(0x09, 0x0D), (0x20, 0x20), (0x85, 0x85), (0xA0, 0xA0), (0x1680, 0x1680), (0x2000, 0x200A),
    (0x2028, 0x2029), (0x202F, 0x202F), (0x205F, 0x205F), (0x3000, 0x3000)]

/-- Whether a character is white space. -/
def isBlank (c : Char) : Bool :=
  blankRanges.any fun (lo, hi) => decide (lo ≤ c.toNat) && decide (c.toNat ≤ hi)

/-- The text from its first to its last character that is not blank. -/
def trim (cs : List Char) : List Char :=
  ((cs.dropWhile isBlank).reverse.dropWhile isBlank).reverse

@[simp] theorem trim_nil : trim [] = [] := rfl

/-- Blank characters around a text are trimmed, and nothing else. -/
theorem exists_trim (cs : List Char) :
    ∃ before after, cs = before ++ trim cs ++ after ∧ (∀ c ∈ before, isBlank c = true) ∧
      ∀ c ∈ after, isBlank c = true := by
  have span : ∀ ds : List Char,
      ∃ before, ds = before ++ ds.dropWhile isBlank ∧ ∀ c ∈ before, isBlank c = true :=
    fun ds => ⟨ds.takeWhile isBlank, List.takeWhile_append_dropWhile.symm, fun c hc =>
      List.all_eq_true.1 List.all_takeWhile c hc⟩
  obtain ⟨before, hb, hbefore⟩ := span cs
  obtain ⟨after, ha, hafter⟩ := span (cs.dropWhile isBlank).reverse
  refine ⟨before, after.reverse, ?_, hbefore, fun c hc => hafter c (List.mem_reverse.1 hc)⟩
  have ht : cs.dropWhile isBlank = trim cs ++ after.reverse := by
    rw [trim, ← List.reverse_append, ← ha, List.reverse_reverse]
  rw [List.append_assoc, ← ht]
  exact hb

theorem trim_append_left {before : List Char} (h : ∀ c ∈ before, isBlank c = true)
    (cs : List Char) : trim (before ++ cs) = trim cs := by
  rw [trim, List.dropWhile_append_of_pos h, ← trim]

theorem trim_append_right {after : List Char} (h : ∀ c ∈ after, isBlank c = true)
    (cs : List Char) : trim (cs ++ after) = trim cs := by
  have hr : ∀ c ∈ after.reverse, isBlank c = true := fun c hc => h c (List.mem_reverse.1 hc)
  rw [trim, trim, List.dropWhile_append]
  split
  · rename_i he
    have hd : (after ++ []).dropWhile isBlank = [] := List.dropWhile_append_of_pos h
    rw [List.append_nil] at hd
    rw [List.isEmpty_iff.1 he, hd]
  · rw [List.reverse_append, List.dropWhile_append_of_pos hr]

/-- A text whose ends are not blank is its own trimmed form. -/
theorem trim_eq_self {cs : List Char} (first : ∀ c ∈ cs.head?, isBlank c = false)
    (last : ∀ c ∈ cs.getLast?, isBlank c = false) : trim cs = cs := by
  have drop : ∀ ds : List Char, (∀ c ∈ ds.head?, isBlank c = false) → ds.dropWhile isBlank = ds
    | [], _ => rfl
    | d :: ds, h => by simp [h d (by simp)]
  rw [trim, drop cs first, drop cs.reverse (by simpa using last), List.reverse_reverse]

/-- A text without blanks is its own trimmed form. -/
theorem trim_eq_self_of_forall {cs : List Char} (h : ∀ c ∈ cs, isBlank c = false) : trim cs = cs :=
  trim_eq_self (fun c hc => h c (List.mem_of_mem_head? hc)) fun c hc =>
    h c (List.mem_of_getLast? hc)

end TableQuery.Text
