/-
  The conditions that a filter joins, and what a reader finds who cuts it at
  ` and ` outside of literals.

  A needle stands within a literal, and its doubled quotes never end it.  An
  operand stands bare, so that a blank, `and` and a blank in it look like the
  connective.

  * `Clause.terms`: the conditions of a clause, two for a range with both
    bounds;
  * `Clause.clear_text_iff`: a condition is not cut if and only if it is `Solid`;
  * `Filter.cut_build_iff`: a filter is cut into its conditions if and only if all of
    them are solid.
-/
import Mathlib.Control.Monad.Basic
import TableQuery.Config.UtcOffset
import TableQuery.Proofs.Clause
import TableQuery.Proofs.Connective

namespace TableQuery

namespace Connective

variable {sep t rest : List Char} {inside : Bool}

/-! ## Texts without quotes and with doubled quotes -/

theorem endsInside_of_not_mem (h : '\'' ∉ t) : endsInside inside t = inside := by
  induction t generalizing inside with
  | nil => rfl
  | cons c t ih =>
    rw [List.mem_cons, not_or] at h
    rw [endsInside, pass_of_ne (Ne.symm h.1), ih h.2]

theorem endsInside_double (s : List Char) :
    endsInside inside (Text.double '\'' s) = inside := by
  induction s generalizing inside with
  | nil => rfl
  | cons c s ih =>
    rw [Text.double]
    split_ifs with hc
    · rw [endsInside, endsInside, ih, pass_quote, pass_quote, Bool.not_not]
    · rw [endsInside, ih, pass_of_ne hc]

/-- Outside of literals, doubled quotes hide nothing. -/
theorem clear_double_iff (hs : ∀ u, ¬ sep <+: '\'' :: u) (s rest : List Char) :
    Clear sep false (Text.double '\'' s) rest ∧ ¬ sep <:+: rest ↔
      ¬ sep <:+: Text.double '\'' s ++ rest := by
  induction s with
  | nil => simp [Clear]
  | cons c s ih =>
    rw [Text.double]
    split_ifs with hc
    · simp only [Clear, List.cons_append, List.infix_cons_iff, not_or, hs, pass_quote]
      simpa using ih
    · simp only [Clear, List.cons_append, List.infix_cons_iff, not_or, ← ih, pass_of_ne hc,
        forall_const, and_assoc]

/-- Within a literal, doubled quotes hide everything. -/
theorem clear_double_inside (hs : ∀ u, ¬ sep <+: '\'' :: u) (s : List Char) :
    Clear sep true (Text.double '\'' s) rest := by
  induction s with
  | nil => trivial
  | cons c s ih =>
    rw [Text.double]
    split_ifs with hc
    · simpa [Clear, hs, pass_quote] using ih
    · simpa [Clear, pass_of_ne hc] using ih

/-- Without quotes, a text that holds no connective is clear before a character
    that no connective has. -/
theorem clear_before {d : Char} (hd : d ∉ sep) (hq : '\'' ∉ t) (ht : ¬ sep <:+: t)
    (x : List Char) : Clear sep false t (d :: x) := by
  induction t with
  | nil => trivial
  | cons c t ih =>
    rw [List.mem_cons, not_or] at hq
    rw [List.infix_cons_iff, not_or] at ht
    rw [Clear, pass_of_ne (Ne.symm hq.1)]
    refine ⟨fun _ hp => ?_, ih hq.2 ht.2⟩
    by_cases hl : sep.length ≤ (c :: t).length
    · exact ht.1 (List.prefix_of_prefix_length_le hp (List.prefix_append _ _) hl)
    · have hdt : c :: t ++ [d] <+: c :: t ++ d :: x := ⟨x, by simp⟩
      have hp' := List.prefix_of_prefix_length_le hdt hp (by simp at hl ⊢; omega)
      exact hd (hp'.subset (by simp))

theorem not_conj_prefix (u : List Char) : ¬ conj <+: '\'' :: u := by
  simp [conj, ofWord]

end Connective

namespace Clause

open Connective (conj Clear endsInside)

/-! ## Conditions -/

/-- The conditions of a clause, each of them a clause: a range with two bounds
    has two. -/
def terms : Clause → List Clause
  | .between path (some lower) (some upper) => [.compare path .ge lower, .compare path .le upper]
  | .between path (some lower) none => [.compare path .ge lower]
  | .between path none (some upper) => [.compare path .le upper]
  | .between _ none none => []
  | c => [c]

/-- A path with neither a quote nor the connective in it. -/
def PlainPath (path : String) : Prop :=
  '\'' ∉ path.toList ∧ ¬ conj <:+: path.toList

instance (path : String) : Decidable (PlainPath path) :=
  inferInstanceAs (Decidable (_ ∧ _))

/-- A condition as it is selected: on a plain path, with the quotes of its
    operand or needle doubled. -/
def Sound : Clause → Prop
  | .compare path op operand =>
    PlainPath path ∧ op ≠ .and ∧ ∃ s, operand.toList = Text.double '\'' s
  | .contains path needle _ => PlainPath path ∧ ∃ s, needle.toList = Text.double '\'' s
  | .between .. => False

/-- The connective is found neither at the end of the path of a comparison nor
    in its operand, which stands between a blank and `rest`. -/
def Solid : Clause → List Char → Prop
  | .compare path _ operand, rest =>
    ¬ conj <:+: path.toList ++ [' '] ∧ ¬ conj <:+: ' ' :: operand.toList ++ rest
  | _, _ => True

instance : ∀ (t : Clause) (rest : List Char), Decidable (t.Solid rest)
  | .compare .., _ => inferInstanceAs (Decidable (_ ∧ _))
  | .between .., _ | .contains .., _ => isTrue trivial

/-- All conditions are solid; all but the last have a blank behind them. -/
def AllSolid : List Clause → Prop
  | [] => True
  | [t] => t.Solid []
  | t :: t' :: ts => t.Solid [' '] ∧ AllSolid (t' :: ts)

instance decidableAllSolid : ∀ ts : List Clause, Decidable (AllSolid ts)
  | [] => isTrue trivial
  | [t] => inferInstanceAs (Decidable (t.Solid []))
  | t :: t' :: ts =>
    have := decidableAllSolid (t' :: ts)
    inferInstanceAs (Decidable (t.Solid [' '] ∧ AllSolid (t' :: ts)))

theorem toList_compare (path : String) (op : Operator) (operand : String) :
    (Clause.compare path op operand).text.toList =
      path.toList ++ (' ' :: op.name.toList ++ ' ' :: operand.toList) := by
  simp [text, comparison]

/-- What stands between a path and its needle opens a literal. -/
def opening (spaced : Bool) : List Char :=
  if spaced then [',', ' ', '\''] else [',', '\'']

theorem endsInside_opening (spaced : Bool) : endsInside false (opening spaced) = true := by
  cases spaced <;> rfl

theorem clear_opening (spaced : Bool) (rest : List Char) :
    Clear conj false (opening spaced) rest := by
  cases spaced <;> simp [opening, Clear, conj, Connective.ofWord, Connective.pass]

theorem toList_contains (path needle : String) (spaced : Bool) :
    (Clause.contains path needle spaced).text.toList =
      "contains(".toList ++ (path.toList ++
        (opening spaced ++ (needle.toList ++ ['\'', ')']))) := by
  cases spaced <;> simp [text, Operator.name, opening]

theorem endsInside_text {t : Clause} (h : t.Sound) : endsInside false t.text.toList = false := by
  cases t with
  | compare path op operand =>
    obtain ⟨⟨hp, -⟩, -, s, hs⟩ := h
    have ho : '\'' ∉ op.name.toList := by cases op <;> decide
    have hd : endsInside false (' ' :: operand.toList) = false := by
      rw [hs]; exact Connective.endsInside_double s
    rw [toList_compare, Connective.endsInside_append, Connective.endsInside_append,
      Connective.endsInside_of_not_mem hp,
      Connective.endsInside_of_not_mem (t := ' ' :: op.name.toList) (by simpa using ho), hd]
  | contains path needle spaced =>
    obtain ⟨⟨hp, -⟩, s, hs⟩ := h
    have hc : endsInside false "contains(".toList = false := by decide
    rw [toList_contains, Connective.endsInside_append, hc, Connective.endsInside_append,
      Connective.endsInside_of_not_mem hp, Connective.endsInside_append, endsInside_opening,
      Connective.endsInside_append, hs, Connective.endsInside_double]
    rfl
  | between => exact absurd h id

/-- The operand of a comparison and what follows it, the end of the path: each
    may hold the connective, and nothing else may. -/
theorem clear_compare_iff {path operand : String} {op : Operator}
    (h : (Clause.compare path op operand).Sound) {rest : List Char} (hr : ¬ conj <:+: rest) :
    Clear conj false (Clause.compare path op operand).text.toList rest ↔
      (Clause.compare path op operand).Solid rest := by
  obtain ⟨⟨hq, -⟩, ho, s, hs⟩ := h
  have hw : ' ' ∉ ['a', 'n', 'd'] := by decide
  have hpath : Clear conj false path.toList [' '] ↔ ¬ conj <:+: path.toList ++ [' '] := by
    have hd := Connective.clear_double_iff Connective.not_conj_prefix path.toList [' ']
    rw [Text.double_eq_self hq] at hd
    rw [← hd, and_iff_left (by decide)]
  have hop : Clear conj false (' ' :: op.name.toList) [' '] ∧
      endsInside false (' ' :: op.name.toList) = false := by
    cases op with
    | and => exact absurd rfl ho
    | eq | ge | le | contains => decide
  have hoperand : Clear conj false (' ' :: operand.toList) rest ↔
      ¬ conj <:+: ' ' :: operand.toList ++ rest := by
    have hd := Connective.clear_double_iff Connective.not_conj_prefix (' ' :: s) rest
    rwa [show Text.double '\'' (' ' :: s) = ' ' :: operand.toList by rw [hs]; rfl,
      and_iff_left hr] at hd
  rw [toList_compare, Connective.clear_append, Connective.clear_append,
    Connective.endsInside_of_not_mem hq, hop.2, hoperand]
  have hb₁ : Clear conj false path.toList (' ' :: op.name.toList ++ ' ' :: operand.toList ++ rest) ↔
      Clear conj false path.toList [' '] := Connective.clear_blank_iff hw _
  have hb₂ : Clear conj false (' ' :: op.name.toList) (' ' :: operand.toList ++ rest) ↔
      Clear conj false (' ' :: op.name.toList) [' '] := Connective.clear_blank_iff hw _
  rw [hb₁, hb₂, hpath, Solid]
  simp only [hop.1, true_and]

/-- Nothing of a needle or its path is taken for the connective. -/
theorem clear_contains {path needle : String} {spaced : Bool}
    (h : (Clause.contains path needle spaced).Sound) (rest : List Char) :
    Clear conj false (Clause.contains path needle spaced).text.toList rest := by
  obtain ⟨⟨hq, hc⟩, s, hs⟩ := h
  have hopen : endsInside false "contains(".toList = false := by decide
  have hpath : ∀ r, Clear conj false path.toList (opening spaced ++ r) := by
    intro r
    cases spaced <;> exact Connective.clear_before (by decide) hq hc _
  rw [toList_contains, Connective.clear_append, hopen, Connective.clear_append,
    Connective.endsInside_of_not_mem hq, Connective.clear_append, endsInside_opening,
    Connective.clear_append, hs, Connective.endsInside_double]
  refine ⟨Connective.clear_of_no_blank (by decide), ?_, clear_opening spaced _,
    Connective.clear_double_inside Connective.not_conj_prefix s, ?_⟩
  · rw [List.append_assoc]
    exact hpath _
  · simp [Clear, conj, Connective.ofWord, Connective.pass]

/-- A condition is not cut if and only if it is solid. -/
theorem clear_text_iff {t : Clause} (h : t.Sound) {rest : List Char} (hr : ¬ conj <:+: rest) :
    Clear conj false t.text.toList rest ↔ t.Solid rest := by
  cases t with
  | compare path op operand => exact clear_compare_iff h hr
  | contains path needle spaced => exact iff_of_true (clear_contains h rest) trivial
  | between => exact absurd h id

/-! ## Joined conditions -/

theorem text_eq_intercalate {c : Clause} (h : c.terms ≠ []) :
    c.text = String.intercalate Clause.conjunction (c.terms.map text) := by
  cases c with
  | compare | contains => simp [terms]
  | between path lower upper =>
    cases lower <;> cases upper <;> simp_all [terms, text, String.append_assoc]

/-- Joining clauses is joining their conditions. -/
theorem intercalate_terms {cs : List Clause} (h : ∀ c ∈ cs, c.terms ≠ []) :
    String.intercalate Clause.conjunction (cs.map text) =
      String.intercalate Clause.conjunction ((cs.flatMap terms).map text) := by
  induction cs with
  | nil => rfl
  | cons c cs ih =>
    have hc := h c List.mem_cons_self
    have hih := ih fun c' hc' => h c' (List.mem_cons_of_mem _ hc')
    cases cs with
    | nil => simpa using text_eq_intercalate hc
    | cons c' cs =>
      have hne : ((c' :: cs).flatMap terms).map text ≠ [] := by
        have := h c' (by simp)
        simp [this]
      have hts : (c :: c' :: cs).flatMap terms = c.terms ++ (c' :: cs).flatMap terms :=
        List.flatMap_cons
      rw [hts, List.map_append, String.intercalate_append_of_ne_nil (by simpa using hc) hne, ← hih,
        ← text_eq_intercalate hc, List.map_cons, String.intercalate_cons_of_ne_nil (by simp)]

theorem clearAll_iff {ts : List Clause} (h : ∀ t ∈ ts, t.Sound) :
    Connective.ClearAll conj (ts.map (·.text.toList)) ↔ AllSolid ts := by
  induction ts with
  | nil => exact Iff.rfl
  | cons t ts ih =>
    have ht := h t List.mem_cons_self
    have hih := ih fun u hu => h u (List.mem_cons_of_mem _ hu)
    cases ts with
    | nil => exact clear_text_iff ht (by decide)
    | cons t' ts => exact and_congr (clear_text_iff ht (by decide)) hih

/-- Every condition has a character that is no blank. -/
theorem exists_not_blank {t : Clause} (h : t.Sound) :
    ∃ c ∈ t.text.toList, Text.isBlank c = false := by
  cases t with
  | compare path op operand =>
    have ho : (op.name.toList.any fun c => !Text.isBlank c) = true := by cases op <;> decide
    obtain ⟨c, hc, hb⟩ := List.any_eq_true.1 ho
    exact ⟨c, by simp [toList_compare, hc], by simpa using hb⟩
  | contains path needle spaced => exact ⟨'c', by simp [toList_contains], by decide⟩
  | between => exact absurd h id

end Clause

/-- No offset has a quote. -/
theorem UtcOffset.quote_not_mem_text (o : UtcOffset) : '\'' ∉ o.text.toList := by
  have hd : ∀ n < 10, '\'' ≠ Nat.digitChar n := by decide
  have ht : ∀ n < 100, '\'' ∉ UtcOffset.twoDigits n := by
    intro n hn
    simp [UtcOffset.twoDigits, hd (n / 10) (by omega), hd (n % 10) (by omega)]
  have hm := o.bound
  rw [UtcOffset.text, String.toList_ofList]
  simp only [List.cons_append, List.mem_cons, List.mem_append, not_or]
  refine ⟨by split_ifs <;> decide, ht _ (by omega), by decide, ht _ (by omega)⟩

namespace Filter

open Connective (conj)

variable {columns : Columns} {offset path : String} {value : Leaf} {clause : Clause}

/-! ## The conditions of a filter -/

theorem toList_doubleQuotes (s : String) :
    (doubleQuotes s).toList = Text.double '\'' s.toList := by
  rw [doubleQuotes, String.toList_ofList]

theorem toList_operand (value : Leaf) :
    (operand value).toList = Text.double '\'' value.render.toList :=
  toList_doubleQuotes _

theorem toList_instant (ho : '\'' ∉ offset.toList) (value : Leaf) :
    (instant value offset).toList =
      Text.double '\'' (markTime value.render.toList ++ offset.toList) := by
  rw [instant, String.toList_append, toList_doubleQuotes, String.toList_ofList, Text.double_append,
    Text.double_eq_self ho]

theorem sound_bound {s : Scalar} {bound : String} (h : bound? s = some bound) :
    ∃ cs, bound.toList = Text.double '\'' cs := by
  unfold bound? at h
  split_ifs at h
  rw [← Option.some.inj h]
  exact ⟨_, toList_doubleQuotes _⟩

/-- A selected clause has conditions, each as sound as its path is plain. -/
theorem sound_of_select (ho : '\'' ∉ offset.toList) (hp : Clause.PlainPath path)
    (h : select columns offset path value = .ok (some clause)) :
    clause.terms ≠ [] ∧ ∀ t ∈ clause.terms, t.Sound := by
  obtain ⟨hv, hc⟩ := select_eq_some_iff.1 h
  obtain ⟨spaced, rfl⟩ | rfl | rfl | ⟨lower, upper, rfl, rfl⟩ := clauseOf_cases hc
  · simpa [Clause.terms, Clause.Sound, hp] using ⟨_, toList_operand value⟩
  · simpa [Clause.terms, Clause.Sound, hp] using ⟨_, toList_operand value⟩
  · simpa [Clause.terms, Clause.Sound, hp] using ⟨_, toList_instant ho value⟩
  · have hs : ∀ {s : Scalar} {bound : String} {op : Operator}, bound? s = some bound → op ≠ .and →
        (Clause.compare path op bound).Sound := fun hb hop => ⟨hp, hop, sound_bound hb⟩
    cases hl : bound? lower with
    | some l =>
      cases hu : bound? upper with
      | some u => simpa [Clause.terms] using ⟨hs hl (by decide), hs hu (by decide)⟩
      | none => simpa [Clause.terms] using hs hl (by decide)
    | none =>
      cases hu : bound? upper with
      | some u => simpa [Clause.terms] using hs hu (by decide)
      | none => simp [Leaf.isFalsy, bound?_eq_none_iff.1 hl, bound?_eq_none_iff.1 hu] at hv

variable {form quick : Params} {filter : String}

/-- **What a filter is cut into.**  On plain paths no condition is blank, and a
    reader finds all conditions, in order and nothing else, if and only if they
    are solid. -/
theorem cut_build_iff (o : UtcOffset) (hp : ∀ e ∈ entries form quick, Clause.PlainPath e.1)
    (h : build form quick columns o.text = .ok (some filter)) :
    ∃ cs, clauses form quick columns o.text = .ok cs ∧
      (∀ t ∈ cs.flatMap Clause.terms, ∃ c ∈ t.text.toList, Text.isBlank c = false) ∧
      (Connective.cut conj filter.toList = (cs.flatMap Clause.terms).map (·.text.toList) ↔
        Clause.AllSolid (cs.flatMap Clause.terms)) := by
  obtain ⟨cs, hcs, hne, rfl⟩ := build_eq_some_iff.1 h
  have hsel : ∀ c ∈ cs, c.terms ≠ [] ∧ ∀ t ∈ c.terms, t.Sound := by
    intro c hc
    obtain ⟨e, he, hs⟩ := mem_clausesOf hcs hc
    exact sound_of_select o.quote_not_mem_text (hp e he) hs
  have hsound : ∀ t ∈ cs.flatMap Clause.terms, t.Sound := by
    intro t ht
    obtain ⟨c, hc, htc⟩ := List.mem_flatMap.1 ht
    exact (hsel c hc).2 t htc
  have hts : (cs.flatMap Clause.terms).map (·.text.toList) ≠ [] := by
    obtain ⟨c, cs, rfl⟩ := List.exists_cons_of_ne_nil hne
    simp [(hsel c List.mem_cons_self).1]
  have hclosed : ∀ u ∈ (cs.flatMap Clause.terms).map (·.text.toList),
      Connective.endsInside false u = false := by
    intro u hu
    obtain ⟨t, ht, rfl⟩ := List.mem_map.1 hu
    exact Clause.endsInside_text (hsound t ht)
  refine ⟨cs, hcs, fun t ht => Clause.exists_not_blank (hsound t ht), ?_⟩
  have hw : ' ' ∉ ['a', 'n', 'd'] := by decide
  rw [Clause.intercalate_terms fun c hc => (hsel c hc).1, String.toList_intercalate, List.map_map,
    Connective.toList_conjunction]
  exact (Connective.cut_intercalate_iff hw hts hclosed).trans (Clause.clearAll_iff hsound)

/-- A column of choices, whose values stand bare. -/
def statusColumns : Columns :=
  Columns.ofList [⟨["status"], some .select⟩]

/-- The connective within a literal. -/
def quotedForm : Params :=
  [("name", .leaf (.scalar (.text "x and 'y"))), ("status", .leaf (.scalar (.text "open")))]

theorem cut_build_iff_quoted :
    (∀ e ∈ entries quotedForm [], Clause.PlainPath e.1) ∧
      build quotedForm [] statusColumns UtcOffset.zero.text =
        .ok (some "contains(name,'x and ''y') and status eq open") ∧
      Connective.cut conj "contains(name,'x and ''y') and status eq open".toList =
        ["contains(name,'x and ''y')".toList, "status eq open".toList] := by
  have hp : ∀ e ∈ entries quotedForm [], Clause.PlainPath e.1 := by decide +kernel
  have hf : build quotedForm [] statusColumns UtcOffset.zero.text =
      .ok (some "contains(name,'x and ''y') and status eq open") := by decide +kernel
  obtain ⟨cs, hcs, -, hcut⟩ := cut_build_iff UtcOffset.zero hp hf
  have hcs' : clauses quotedForm [] statusColumns UtcOffset.zero.text =
      .ok [.contains "name" "x and ''y" false, .compare "status" .eq "open"] := by decide +kernel
  obtain rfl := Except.ok.inj (hcs.symm.trans hcs')
  exact ⟨hp, hf, hcut.2 (by decide +kernel)⟩

/-- The connective, twice, in a bare operand: `status eq x`, nothing, and `y`. -/
theorem cut_build_bare :
    let form : Params := [("status", .leaf (.scalar (.text "x and  and y")))]
    (∀ e ∈ entries form [], Clause.PlainPath e.1) ∧
      build form [] statusColumns UtcOffset.zero.text = .ok (some "status eq x and  and y") ∧
      clauses form [] statusColumns UtcOffset.zero.text =
        .ok [.compare "status" .eq "x and  and y"] ∧
      Connective.cut conj "status eq x and  and y".toList = ["status eq x".toList, [], ['y']] := by
  decide +kernel

end Filter

end TableQuery
