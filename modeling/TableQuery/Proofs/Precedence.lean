/-
  The meaning of a filter: atoms joined by ` and ` and ` or `, of which ` and `
  binds tighter.

  Filters are conjoined as texts, without parentheses, so that of the disjuncts
  of a base query only the last takes part (`disjuncts_both`).

  * `disjuncts_disjunction`: joined atoms are read as the atoms that were joined;
  * `holds_compose_iff`: the filter of a composed query means both filters if
    and only if every other disjunct holds the computed conjunction already.
-/
import TableQuery.Proofs.Compose
import TableQuery.Proofs.Connective

namespace TableQuery

namespace Filter

open Connective (conj disj cut endsInside Clear ClearAll)

/-! ## Reading a filter -/

/-- The atoms of a text, as a disjunction of conjunctions. -/
def disjuncts (cs : List Char) : List (List (List Char)) :=
  (cut disj cs).map (cut conj)

/-- The text of a disjunction of conjunctions. -/
def disjunction (ds : List (List (List Char))) : List Char :=
  List.intercalate disj (ds.map (List.intercalate conj))

/-- A row, as the atoms that are true of it, satisfies a filter. -/
def Holds (row : List Char → Prop) (filter : String) : Prop :=
  ∃ d ∈ disjuncts filter.toList, ∀ a ∈ d, row a

/-- The literals of an atom are closed, and there is no connective in it, even
    between blanks. -/
def IsAtom (a : List Char) : Prop :=
  endsInside false a = false ∧ Clear conj false (' ' :: a) [' '] ∧ Clear disj false (' ' :: a) [' ']

instance (a : List Char) : Decidable (IsAtom a) :=
  inferInstanceAs (Decidable (_ ∧ _ ∧ _))

/-- A filter is made of atoms. -/
def Atomic (filter : String) : Prop :=
  ∀ d ∈ disjuncts filter.toList, ∀ a ∈ d, IsAtom a

instance (filter : String) : Decidable (Atomic filter) :=
  inferInstanceAs (Decidable (∀ d ∈ disjuncts filter.toList, ∀ a ∈ d, IsAtom a))

/-- Conjunctions of atoms, none of them empty. -/
def Formed (ds : List (List (List Char))) : Prop :=
  ∀ d ∈ ds, d ≠ [] ∧ ∀ a ∈ d, IsAtom a

theorem disjuncts_ne_nil (cs : List Char) : disjuncts cs ≠ [] := by
  rw [disjuncts, ne_eq, List.map_eq_nil_iff]
  exact Connective.cutFrom_ne_nil disj 0 false cs

theorem Atomic.formed {filter : String} (h : Atomic filter) :
    Formed (disjuncts filter.toList) := by
  intro d hd
  refine ⟨?_, h d hd⟩
  obtain ⟨p, -, rfl⟩ := List.mem_map.1 hd
  exact Connective.cutFrom_ne_nil conj 0 false p

/-- Joining the atoms of a text gives back the text. -/
theorem disjunction_disjuncts (cs : List Char) : disjunction (disjuncts cs) = cs := by
  have hp : ∀ p, List.intercalate conj (cut conj p) = p := fun p =>
    Connective.intercalate_cut (Connective.ofWord_ne_nil ['a', 'n', 'd']) p
  have hps : (disjuncts cs).map (List.intercalate conj) = cut disj cs := by
    rw [disjuncts, List.map_map]
    exact List.map_id'' hp _
  rw [disjunction, hps]
  exact Connective.intercalate_cut (Connective.ofWord_ne_nil ['o', 'r']) cs

/-! ## Joined atoms -/

variable {d : List (List Char)} {ds : List (List (List Char))}

theorem endsInside_conjunction (h : ∀ a ∈ d, IsAtom a) :
    endsInside false (List.intercalate conj d) = false := by
  induction d with
  | nil => rfl
  | cons a d ih =>
    have ha : endsInside false a = false := (h a List.mem_cons_self).1
    have hd := ih fun b hb => h b (List.mem_cons_of_mem a hb)
    cases d with
    | nil => rwa [List.intercalate_singleton]
    | cons b d =>
      have hc : endsInside false conj = false := rfl
      rw [List.intercalate_cons_cons, Connective.endsInside_append, Connective.endsInside_append,
        ha, hc, hd]

/-- There is no ` or ` in a conjunction of atoms: none in an atom, and none
    that takes a blank of an ` and `. -/
theorem clear_conjunction (hne : d ≠ []) (h : ∀ a ∈ d, IsAtom a) :
    Clear disj false (' ' :: List.intercalate conj d) [' '] := by
  induction d with
  | nil => exact absurd rfl hne
  | cons a d ih =>
    obtain ⟨hin, -, ha⟩ := h a List.mem_cons_self
    cases d with
    | nil => rwa [List.intercalate_singleton]
    | cons b d =>
      have hd := ih (List.cons_ne_nil b d) fun b hb => h b (List.mem_cons_of_mem a hb)
      have hw : ' ' ∉ ['o', 'r'] := by decide
      have hand : Clear disj false [' ', 'a', 'n', 'd'] [' '] := by decide
      have hsplit : ' ' :: List.intercalate conj (a :: b :: d) =
          ' ' :: a ++ ([' ', 'a', 'n', 'd'] ++ ' ' :: List.intercalate conj (b :: d)) := by
        rw [List.intercalate_cons_cons, conj, Connective.ofWord]
        simp
      have hin' : endsInside false (' ' :: a) = false := hin
      have hand' : endsInside false [' ', 'a', 'n', 'd'] = false := rfl
      rw [hsplit, Connective.clear_append, Connective.clear_append, hin', hand']
      exact ⟨(Connective.clear_blank_iff hw _).2 ha, (Connective.clear_blank_iff hw _).2 hand, hd⟩

theorem cut_conjunction (hne : d ≠ []) (h : ∀ a ∈ d, IsAtom a) :
    cut conj (List.intercalate conj d) = d := by
  have hclosed : ∀ a ∈ d, endsInside false a = false := fun a ha => (h a ha).1
  have hclear : ∀ a ∈ d, Clear conj false a [' '] := fun a ha => (h a ha).2.1.2
  exact (Connective.cut_intercalate_iff (by decide) hne hclosed).2
    (Connective.clearAll_of_forall hclear)

/-- Joined atoms are read as the atoms that were joined. -/
theorem disjuncts_disjunction (hne : ds ≠ []) (h : Formed ds) :
    disjuncts (disjunction ds) = ds := by
  have hne' : ds.map (List.intercalate conj) ≠ [] := by simpa using hne
  have hclosed : ∀ p ∈ ds.map (List.intercalate conj), endsInside false p = false := by
    intro p hp
    obtain ⟨d, hd, rfl⟩ := List.mem_map.1 hp
    exact endsInside_conjunction (h d hd).2
  have hclear : ∀ p ∈ ds.map (List.intercalate conj), Clear disj false p [' '] := by
    intro p hp
    obtain ⟨d, hd, rfl⟩ := List.mem_map.1 hp
    exact (clear_conjunction (h d hd).1 (h d hd).2).2
  have hcut : cut disj (disjunction ds) = ds.map (List.intercalate conj) :=
    (Connective.cut_intercalate_iff (by decide) hne' hclosed).2
      (Connective.clearAll_of_forall hclear)
  have hds : ∀ d ∈ ds, (cut conj ∘ List.intercalate conj) d = id d := fun d hd =>
    cut_conjunction (h d hd).1 (h d hd).2
  rw [disjuncts, hcut, List.map_map, List.map_congr_left hds, List.map_id]

/-! ## Merging -/

variable {base computed : String} {cc : List (List Char)}

/-- Behind a disjunction, a conjunction belongs to the last disjunct. -/
theorem disjunction_concat (hd : d ≠ []) (hc : cc ≠ []) :
    disjunction (ds ++ [d ++ cc]) = disjunction (ds ++ [d]) ++ (conj ++ List.intercalate conj cc) := by
  rw [disjunction, disjunction, List.map_append, List.map_append, List.map_singleton,
    List.map_singleton, Connective.intercalate_append hd hc, Connective.intercalate_concat]

theorem Formed.concat (h : Formed (ds ++ [d])) (hc : Formed [cc]) : Formed (ds ++ [d ++ cc]) := by
  obtain ⟨hd, hda⟩ := h d (by simp)
  obtain ⟨-, hca⟩ := hc cc (by simp)
  intro e he
  rcases List.mem_append.1 he with he | he
  · exact h e (List.mem_append_left _ he)
  · rw [List.mem_singleton.1 he]
    refine ⟨List.append_ne_nil_of_left_ne_nil hd cc, fun a ha => ?_⟩
    rcases List.mem_append.1 ha with ha | ha
    · exact hda a ha
    · exact hca a ha

/-- Of the disjuncts of the left filter only the last is joined with the right
    one. -/
theorem disjuncts_both (hb : Atomic base) (hc : Atomic computed)
    (hcc : disjuncts computed.toList = [cc]) :
    ∃ ds d, disjuncts base.toList = ds ++ [d] ∧
      disjuncts (base ++ Clause.conjunction ++ computed).toList = ds ++ [d ++ cc] := by
  obtain ⟨ds, d, hds⟩ := (List.eq_nil_or_concat' _).resolve_left (disjuncts_ne_nil base.toList)
  have hbf : Formed (ds ++ [d]) := hds ▸ hb.formed
  have hcf : Formed [cc] := hcc ▸ hc.formed
  have hbt : base.toList = disjunction (ds ++ [d]) := by rw [← hds, disjunction_disjuncts]
  have hct : computed.toList = List.intercalate conj cc := by
    rw [← disjunction_disjuncts computed.toList, hcc, disjunction, List.map_singleton,
      List.intercalate_singleton]
  have htext : (base ++ Clause.conjunction ++ computed).toList = disjunction (ds ++ [d ++ cc]) := by
    rw [String.toList_append, String.toList_append, Connective.toList_conjunction, hbt, hct,
      List.append_assoc, disjunction_concat (hbf d (by simp)).1 (hcf cc (by simp)).1]
  refine ⟨ds, d, hds, ?_⟩
  rw [htext, disjuncts_disjunction (by simp) (hbf.concat hcf)]

/-- What a merged filter means: the right filter restricts the last disjunct of
    the left one and no other. -/
theorem holds_both_iff {filter : String} (hb : disjuncts base.toList = ds ++ [d])
    (hcc : disjuncts computed.toList = [cc]) (hf : disjuncts filter.toList = ds ++ [d ++ cc]) :
    (∀ row, Holds row filter ↔ Holds row base ∧ Holds row computed) ↔ ∀ e ∈ ds, cc ⊆ e := by
  have hbase : ∀ row, Holds row base ↔ (∃ e ∈ ds, ∀ a ∈ e, row a) ∨ ∀ a ∈ d, row a := by
    intro row
    simp [Holds, hb, or_and_right, exists_or]
  have hcomputed : ∀ row, Holds row computed ↔ ∀ a ∈ cc, row a := by
    intro row
    simp [Holds, hcc]
  have hfilter : ∀ row, Holds row filter ↔
      (∃ e ∈ ds, ∀ a ∈ e, row a) ∨ (∀ a ∈ d, row a) ∧ ∀ a ∈ cc, row a := by
    intro row
    simp [Holds, hf, or_and_right, exists_or, or_imp, forall_and]
  simp only [hbase, hcomputed, hfilter]
  constructor
  · -- the row on which just the atoms of a disjunct are true
    intro h e he a ha
    exact ((h (· ∈ e)).1 (Or.inl ⟨e, he, fun _ => id⟩)).2 a ha
  · intro h row
    constructor
    · rintro (⟨e, he, hr⟩ | ⟨hd, hc⟩)
      · exact ⟨Or.inl ⟨e, he, hr⟩, fun a ha => hr a (h e he ha)⟩
      · exact ⟨Or.inr hd, hc⟩
    · rintro ⟨he | hd, hc⟩
      · exact Or.inl he
      · exact Or.inr ⟨hd, hc⟩

end Filter

namespace Composer

open TableQuery.Filter (disjuncts Holds Atomic)

/-- **The meaning of a composed filter.**  An atomic base query is joined, by
    its last disjunct only, with a computed conjunction of atoms.  The rows of
    the composed filter are those of both filters if and only if all other
    disjuncts hold every computed atom, as when there are none. -/
theorem holds_compose_iff {c : Composer} {s : TableReport} {q : Query} {base : BaseQuery}
    {left right : String} {cc : List (List Char)} (hq : c.compose s = .ok q)
    (hb : BaseQuery.parse? s.baseQuery = .ok base) (hl : base.filter = some left)
    (hr : Filter.build s.params s.filter c.columns c.offset.text = .ok (some right))
    (hleft : Atomic left) (hright : Atomic right) (hcc : disjuncts right.toList = [cc]) :
    ∃ filter ds d, q.filter = some filter ∧ disjuncts left.toList = ds ++ [d] ∧
      disjuncts filter.toList = ds ++ [d ++ cc] ∧
      ((∀ row, Holds row filter ↔ Holds row left ∧ Holds row right) ↔ ∀ e ∈ ds, cc ⊆ e) := by
  obtain ⟨page, base', computed, skip, -, hb', hc, -, rfl⟩ := compose_eq_ok_iff.1 hq
  obtain rfl := Except.ok.inj (hb.symm.trans hb')
  obtain rfl := Except.ok.inj (hr.symm.trans hc)
  obtain ⟨ds, d, hds, hf⟩ := Filter.disjuncts_both hleft hright hcc
  refine ⟨left ++ Clause.conjunction ++ right, ds, d, ?_, hds, hf,
    Filter.holds_both_iff hds hcc hf⟩
  rw [assemble, hl]
  rfl

def ofAges : Composer :=
  ofColumns [⟨["age"], some .digit⟩]

/-- A report of the first page, for the age of 30. -/
def ageReport (baseQuery : String) : TableReport where
  params := [("current", .leaf (.scalar (.number (.natural 1)))),
    ("pageSize", .leaf (.scalar (.number (.natural 10)))),
    ("age", .leaf (.scalar (.number (.natural 30))))]
  sort := []
  filter := []
  baseQuery := some baseQuery

theorem holds_compose_iff_age :
    let left := "age eq 30 and status eq 1 or status eq 2"
    let filter := "age eq 30 and status eq 1 or status eq 2 and age eq 30"
    ofAges.compose (ageReport ("?filter=" ++ left)) = .ok { Query.window 10 0 with filter } ∧
      ∀ row, Holds row filter ↔ Holds row left ∧ Holds row "age eq 30" := by
  intro left filter
  have hq : ofAges.compose (ageReport ("?filter=" ++ left)) =
      .ok { Query.window 10 0 with filter } := by decide +kernel
  have hb : BaseQuery.parse? (ageReport ("?filter=" ++ left)).baseQuery =
      .ok ⟨some left, none, none⟩ := by decide +kernel
  have hds : disjuncts left.toList =
      [["age eq 30".toList, "status eq 1".toList]] ++ [["status eq 2".toList]] := by
    decide +kernel
  have hr : Filter.build (ageReport ("?filter=" ++ left)).params [] ofAges.columns
      ofAges.offset.text = .ok (some "age eq 30") := by decide +kernel
  have hcc : disjuncts "age eq 30".toList = [["age eq 30".toList]] := by decide +kernel
  obtain ⟨filter', ds, d, hf, hl, -, hiff⟩ :=
    holds_compose_iff hq hb rfl hr (by decide +kernel) (by decide +kernel) hcc
  obtain rfl := Option.some.inj hf
  refine ⟨hq, hiff.2 ?_⟩
  rw [List.append_inj_left' (hl.symm.trans hds) rfl]
  decide +kernel

/-- A row of the base query that is not of the age asked for. -/
theorem compose_leaks :
    let left := "status eq 1 or status eq 2"
    let filter := "status eq 1 or status eq 2 and age eq 30"
    let row := fun a => a = "status eq 1".toList
    let s := ageReport ("?filter=" ++ left)
    BaseQuery.parse? s.baseQuery = .ok ⟨some left, none, none⟩ ∧ Atomic left ∧
      Filter.build s.params s.filter ofAges.columns ofAges.offset.text = .ok (some "age eq 30") ∧
      Atomic "age eq 30" ∧ disjuncts "age eq 30".toList = [["age eq 30".toList]] ∧
      ofAges.compose s = .ok { Query.window 10 0 with filter } ∧
      Holds row filter ∧ ¬ Holds row "age eq 30" := by
  intro left filter row s
  refine ⟨by decide +kernel, by decide +kernel, by decide +kernel, by decide +kernel,
    by decide +kernel, by decide +kernel, ?_, ?_⟩
  · have hd : ["status eq 1".toList] ∈ disjuncts filter.toList := by decide +kernel
    exact ⟨_, hd, fun a ha => List.mem_singleton.1 ha⟩
  · rintro ⟨d, hd, h⟩
    have hage : disjuncts "age eq 30".toList = [["age eq 30".toList]] := by decide +kernel
    rw [hage, List.mem_singleton] at hd
    have hrow := h "age eq 30".toList (by simp [hd])
    exact absurd hrow (by decide +kernel)

end Composer

end TableQuery
