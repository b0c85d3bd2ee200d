/-
  Cutting a filter text at a connective, such as ` and `, wherever it stands
  outside of the literals between single quotes.

  The cut goes from left to right; a connective that is cut at is used up.

  * `intercalate_cut`: joining the pieces gives back the text;
  * `Clear`: no connective begins in a text that something follows, outside of
    literals;
  * `cut_intercalate_iff`: texts whose literals are closed are cut apart again
    if and only if all of them are clear.
-/
import Mathlib.Tactic.SplitIfs
import TableQuery.Filter.Clause

namespace TableQuery.Connective

/-- A word between two blanks. -/
def ofWord (word : List Char) : List Char :=
  ' ' :: word ++ [' ']

/-- Whether a position lies inside of a literal, one character further. -/
def pass (inside : Bool) (c : Char) : Bool :=
  inside != (c == '\'')

theorem pass_quote (inside : Bool) : pass inside '\'' = !inside := by
  cases inside <;> rfl

theorem pass_of_ne {c : Char} (h : c ≠ '\'') (inside : Bool) : pass inside c = inside := by
  rw [pass, beq_false_of_ne h]
  cases inside <;> rfl

/-- The pieces of a text of which `skip` characters are used up. -/
def cutFrom (sep : List Char) : Nat → Bool → List Char → List (List Char)
  | _, _, [] => [[]]
  | skip + 1, inside, _ :: cs => cutFrom sep skip inside cs
  | 0, inside, c :: cs =>
    if inside = false ∧ sep <+: c :: cs then [] :: cutFrom sep (sep.length - 1) false cs
    else (cutFrom sep 0 (pass inside c) cs).modifyHead (c :: ·)

/-- The pieces of a text between the connectives outside of its literals. -/
def cut (sep cs : List Char) : List (List Char) :=
  cutFrom sep 0 false cs

/-- Whether a text ends inside of a literal. -/
def endsInside : Bool → List Char → Bool
  | inside, [] => inside
  | inside, c :: cs => endsInside (pass inside c) cs

/-- No connective begins in the first text, outside of literals, if the second
    follows it. -/
def Clear (sep : List Char) : Bool → List Char → List Char → Prop
  | _, [], _ => True
  | inside, c :: cs, rest =>
    (inside = false → ¬ sep <+: c :: cs ++ rest) ∧ Clear sep (pass inside c) cs rest

instance decidableClear (sep : List Char) :
    ∀ (inside : Bool) (t rest : List Char), Decidable (Clear sep inside t rest)
  | _, [], _ => isTrue trivial
  | inside, c :: cs, rest =>
    have := decidableClear sep (pass inside c) cs rest
    inferInstanceAs
      (Decidable ((inside = false → ¬ sep <+: c :: cs ++ rest) ∧ Clear sep (pass inside c) cs rest))

variable {sep t u rest : List Char} {inside : Bool}

/-! ## Cutting and joining -/

theorem cutFrom_ne_nil (sep : List Char) (skip : Nat) (inside : Bool) (cs : List Char) :
    cutFrom sep skip inside cs ≠ [] := by
  induction cs generalizing skip inside with
  | nil => simp [cutFrom]
  | cons c cs ih =>
    cases skip with
    | succ skip => exact ih skip inside
    | zero =>
      rw [cutFrom]
      split_ifs
      · simp
      · simpa using ih 0 (pass inside c)

/-- The characters of a used connective leave no trace. -/
theorem cutFrom_append (u : List Char) :
    cutFrom sep u.length inside (u ++ rest) = cutFrom sep 0 inside rest := by
  induction u with
  | nil => rfl
  | cons c u ih => exact ih

theorem cutFrom_sep (hs : sep ≠ []) :
    cutFrom sep 0 false (sep ++ rest) = [] :: cutFrom sep 0 false rest := by
  obtain ⟨c, u, rfl⟩ := List.exists_cons_of_ne_nil hs
  rw [List.cons_append, cutFrom, if_pos ⟨rfl, List.prefix_append (c :: u) rest⟩, List.length_cons,
    Nat.add_sub_cancel, cutFrom_append]

theorem intercalate_cutFrom (hs : sep ≠ []) (skip : Nat) (inside : Bool) (cs : List Char) :
    List.intercalate sep (cutFrom sep skip inside cs) = cs.drop skip := by
  induction cs generalizing skip inside with
  | nil => simp [cutFrom]
  | cons c cs ih =>
    cases skip with
    | succ skip => rw [cutFrom, ih, List.drop_succ_cons]
    | zero =>
      rw [cutFrom]
      split_ifs with h
      · obtain ⟨d, u, rfl⟩ := List.exists_cons_of_ne_nil hs
        obtain ⟨v, hv⟩ := h.2
        obtain ⟨rfl, rfl⟩ := List.cons.inj hv
        rw [List.intercalate_cons_of_ne_nil (cutFrom_ne_nil _ _ _ _), ih]
        simp
      · obtain ⟨p, ps, hp⟩ := List.exists_cons_of_ne_nil (cutFrom_ne_nil sep 0 (pass inside c) cs)
        have hi := ih 0 (pass inside c)
        rw [hp] at hi ⊢
        cases ps with
        | nil => simpa using hi
        | cons p' ps => simpa using hi

/-- Joining the pieces gives back the text. -/
theorem intercalate_cut (hs : sep ≠ []) (cs : List Char) : List.intercalate sep (cut sep cs) = cs :=
  intercalate_cutFrom hs 0 false cs

/-! ## Clear texts -/

theorem endsInside_append (t u : List Char) :
    endsInside inside (t ++ u) = endsInside (endsInside inside t) u := by
  induction t generalizing inside with
  | nil => rfl
  | cons c t ih => exact ih

theorem clear_append (t u : List Char) :
    Clear sep inside (t ++ u) rest ↔
      Clear sep inside t (u ++ rest) ∧ Clear sep (endsInside inside t) u rest := by
  induction t generalizing inside with
  | nil => simp [Clear, endsInside]
  | cons c t ih =>
    rw [List.cons_append, Clear, Clear, endsInside, ih, and_assoc, List.cons_append,
      List.cons_append, List.append_assoc]

/-- With less behind it, a clear text stays clear. -/
theorem Clear.mono (h : Clear sep inside t rest) (hu : u <+: rest) : Clear sep inside t u := by
  induction t generalizing inside with
  | nil => trivial
  | cons c t ih =>
    refine ⟨fun hi hp => h.1 hi (hp.trans ?_), ih h.2⟩
    exact List.prefix_append_right_inj (c :: t) |>.2 hu

/-- A clear text belongs to one piece. -/
theorem cutFrom_of_clear (h : Clear sep inside t rest) :
    cutFrom sep 0 inside (t ++ rest) =
      (cutFrom sep 0 (endsInside inside t) rest).modifyHead (t ++ ·) := by
  induction t generalizing inside with
  | nil =>
    obtain ⟨p, ps, hp⟩ := List.exists_cons_of_ne_nil (cutFrom_ne_nil sep 0 inside rest)
    simp [endsInside, hp]
  | cons c t ih =>
    rw [List.cons_append, cutFrom, if_neg (fun hc => h.1 hc.1 hc.2), ih h.2,
      List.modifyHead_modifyHead, endsInside]
    rfl

/-- A text that is not clear is cut short. -/
theorem length_lt_of_not_clear (h : ¬ Clear sep inside t rest) :
    ∃ p ps, cutFrom sep 0 inside (t ++ rest) = p :: ps ∧ p.length < t.length := by
  induction t generalizing inside with
  | nil => exact absurd trivial h
  | cons c t ih =>
    rw [List.cons_append, cutFrom]
    split_ifs with hc
    · exact ⟨[], _, rfl, by simp⟩
    · have ht : ¬ Clear sep (pass inside c) t rest := fun ht => h ⟨fun h₁ h₂ => hc ⟨h₁, h₂⟩, ht⟩
      obtain ⟨p, ps, hp, hl⟩ := ih ht
      exact ⟨c :: p, ps, by rw [hp]; rfl, by simpa using hl⟩

/-- A closed text before a connective is the first piece if and only if it is
    clear. -/
theorem cut_append_sep_iff (hs : sep ≠ []) (ht : endsInside false t = false)
    {ts : List (List Char)} :
    cut sep (t ++ (sep ++ rest)) = t :: ts ↔
      Clear sep false t (sep ++ rest) ∧ cut sep rest = ts := by
  by_cases h : Clear sep false t (sep ++ rest)
  · rw [cut, cutFrom_of_clear h, ht, cutFrom_sep hs]
    simp [h, cut]
  · obtain ⟨p, ps, hp, hl⟩ := length_lt_of_not_clear h
    rw [cut, hp]
    constructor
    · intro he
      rw [(List.cons.inj he).1] at hl
      exact absurd hl (Nat.lt_irrefl _)
    · exact fun he => absurd he.1 h

theorem cut_eq_singleton_iff : cut sep t = [t] ↔ Clear sep false t [] := by
  by_cases h : Clear sep false t []
  · have hc := cutFrom_of_clear h
    rw [List.append_nil] at hc
    rw [cut, hc]
    simp [cutFrom, h]
  · obtain ⟨p, ps, hp, hl⟩ := length_lt_of_not_clear h
    rw [List.append_nil] at hp
    rw [cut, hp]
    constructor
    · intro he
      rw [(List.cons.inj he).1] at hl
      exact absurd hl (Nat.lt_irrefl _)
    · exact fun he => absurd he h

/-! ## Words between blanks -/

variable {word : List Char}

theorem ofWord_ne_nil (word : List Char) : ofWord word ≠ [] := by
  simp [ofWord]

/-- If a connective begins before a blank, it ends there or before. -/
theorem ofWord_prefix_iff (hw : ' ' ∉ word) {u : List Char} (hu : u ≠ []) (x : List Char) :
    ofWord word <+: u ++ ' ' :: x ↔ ofWord word <+: u ++ [' '] := by
  have hx : u ++ [' '] <+: u ++ ' ' :: x := ⟨x, by simp⟩
  refine ⟨fun h => ?_, fun h => h.trans hx⟩
  by_cases hl : (ofWord word).length ≤ (u ++ [' ']).length
  · exact List.prefix_of_prefix_length_le h hx hl
  · -- otherwise the blank would lie within the word
    exfalso
    obtain ⟨c, u, rfl⟩ := List.exists_cons_of_ne_nil hu
    have hp := List.prefix_of_prefix_length_le hx h (by omega)
    simp only [ofWord, List.cons_append, List.cons_prefix_cons] at hp
    have hlw : (u ++ [' ']).length ≤ word.length := by simp [ofWord] at hl ⊢; omega
    have hpw := List.prefix_of_prefix_length_le hp.2 (List.prefix_append word [' ']) hlw
    exact hw (hpw.subset (by simp))

theorem clear_blank_iff (hw : ' ' ∉ word) (x : List Char) :
    Clear (ofWord word) inside t (' ' :: x) ↔ Clear (ofWord word) inside t [' '] := by
  induction t generalizing inside with
  | nil => simp [Clear]
  | cons c t ih => rw [Clear, Clear, ih, ofWord_prefix_iff hw (List.cons_ne_nil c t)]

/-- No connective begins in a text without blanks. -/
theorem clear_of_no_blank (h : ' ' ∉ t) : Clear (ofWord word) inside t rest := by
  induction t generalizing inside with
  | nil => trivial
  | cons c t ih =>
    rw [List.mem_cons, not_or] at h
    refine ⟨fun _ hp => ?_, ih h.2⟩
    rw [ofWord, List.cons_append, List.cons_append, List.cons_prefix_cons] at hp
    exact h.1 hp.1

/-- The connective of clauses and of filters. -/
def conj : List Char :=
  ofWord ['a', 'n', 'd']

theorem toList_conjunction : Clause.conjunction.toList = conj := by
  decide

/-- The connective of disjunctions, which binds less. -/
def disj : List Char :=
  ofWord ['o', 'r']

/-! ## Joined texts -/

theorem intercalate_append {ts us : List (List Char)} (ht : ts ≠ []) (hu : us ≠ []) :
    List.intercalate sep (ts ++ us) =
      List.intercalate sep ts ++ (sep ++ List.intercalate sep us) := by
  induction ts with
  | nil => exact absurd rfl ht
  | cons t ts ih =>
    cases ts with
    | nil => rw [List.singleton_append, List.intercalate_cons_of_ne_nil hu,
        List.intercalate_singleton, List.append_assoc]
    | cons t' ts =>
      have hne : t' :: ts ++ us ≠ [] := by simp
      rw [List.cons_append, List.intercalate_cons_of_ne_nil hne, ih (List.cons_ne_nil t' ts),
        List.intercalate_cons_cons]
      simp only [List.append_assoc]

/-- What is put behind a joined text is put behind its last part. -/
theorem intercalate_concat (ts : List (List Char)) (t u : List Char) :
    List.intercalate sep (ts ++ [t ++ u]) = List.intercalate sep (ts ++ [t]) ++ u := by
  by_cases ht : ts = []
  · rw [ht, List.nil_append, List.nil_append, List.intercalate_singleton,
      List.intercalate_singleton]
  · rw [intercalate_append ht (List.cons_ne_nil _ _), intercalate_append ht (List.cons_ne_nil _ _),
      List.intercalate_singleton, List.intercalate_singleton]
    simp only [List.append_assoc]

/-- Every text is clear, the blank of the next connective following all but the
    last. -/
def ClearAll (sep : List Char) : List (List Char) → Prop
  | [] => True
  | [t] => Clear sep false t []
  | t :: t' :: ts => Clear sep false t [' '] ∧ ClearAll sep (t' :: ts)

theorem clearAll_of_forall {ts : List (List Char)} (h : ∀ t ∈ ts, Clear sep false t [' ']) :
    ClearAll sep ts := by
  induction ts with
  | nil => trivial
  | cons t ts ih =>
    have ht := h t List.mem_cons_self
    cases ts with
    | nil => exact ht.mono (List.nil_prefix)
    | cons t' ts => exact ⟨ht, ih fun u hu => h u (List.mem_cons_of_mem t hu)⟩

/-- Closed texts that are joined are cut apart again if and only if all of them
    are clear. -/
theorem cut_intercalate_iff (hw : ' ' ∉ word) {ts : List (List Char)} (hne : ts ≠ [])
    (hts : ∀ t ∈ ts, endsInside false t = false) :
    cut (ofWord word) (List.intercalate (ofWord word) ts) = ts ↔ ClearAll (ofWord word) ts := by
  induction ts with
  | nil => exact absurd rfl hne
  | cons t ts ih =>
    have ht := hts t List.mem_cons_self
    cases ts with
    | nil => rw [List.intercalate_singleton, cut_eq_singleton_iff, ClearAll]
    | cons t' ts =>
      have hih := ih (List.cons_ne_nil t' ts) fun u hu => hts u (List.mem_cons_of_mem _ hu)
      have hb : ∀ r, Clear (ofWord word) false t (ofWord word ++ r) ↔
          Clear (ofWord word) false t [' '] := fun r => clear_blank_iff hw _
      rw [List.intercalate_cons_cons, List.append_assoc,
        cut_append_sep_iff (ofWord_ne_nil word) ht, hih, hb, ClearAll]

end TableQuery.Connective
