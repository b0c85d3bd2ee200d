/-
  The path of a column and the path of a value.

  A column joins all its segments. Flattening joins names from the root down,
  where an empty name leaves no trace as long as another one follows, so a value
  stands at the path of its names without the empty ones at their front.

  * `Params.mem_leaves_iff`: the leaves are what names lead to;
  * `Params.get?_flatten_of_alone`: a leaf that has its path to itself is the
    entry there;
  * `Filter.column_path_iff`: a column has the path of the values under its
    segments if and only if no empty segment stands before the others, and then
    its kind decides about them.
-/
import Mathlib.Control.Monad.Basic
import TableQuery.Proofs.Clause
import TableQuery.Proofs.ColumnIndex
import TableQuery.Proofs.Leaves

namespace TableQuery

/-! ## Leaves -/

/-- Names, followed from the top of parameters as keys, lead to a leaf. -/
inductive Params.Reaches : Params → List String → Leaf → Prop
  | leaf {ps : Params} {name : String} {l : Leaf} (h : (name, .leaf l) ∈ ps) :
    Reaches ps [name] l
  | group {ps ms : Params} {name : String} {names : List String} {l : Leaf}
      (h : (name, .group ms) ∈ ps) (hl : Reaches ms names l) : Reaches ps (name :: names) l

namespace Params

variable {ps : Params} {names : List String} {l : Leaf}

theorem Reaches.cons_right (h : Reaches ps names l) (m : String × Param) :
    Reaches (m :: ps) names l := by
  cases h with
  | leaf h => exact .leaf (List.mem_cons_of_mem _ h)
  | group h hl => exact .group (List.mem_cons_of_mem _ h) hl

theorem mem_leaves_of_mem {m : String × Param} (hm : m ∈ ps) (h : (names, l) ∈ m.2.leaves) :
    (m.1 :: names, l) ∈ leaves ps := by
  induction ps with
  | nil => simp at hm
  | cons m' ps ih =>
    obtain ⟨name, p⟩ := m'
    rcases List.mem_cons.1 hm with rfl | hm
    · exact List.mem_append_left _ (List.mem_map.2 ⟨_, h, rfl⟩)
    · exact List.mem_append_right _ (ih hm)

/-- The leaves of parameters are those that names lead to. -/
theorem reaches_of_mem_leaves : ∀ {ps : List (String × Param)} {names : List String} {l : Leaf},
    (names, l) ∈ leaves ps → Reaches ps names l
  | [], _, _, h => by simp [leaves] at h
  | (name, .leaf l') :: ps, names, l, h => by
    rcases List.mem_append.1 h with h | h
    · simp only [Param.leaves, List.map_cons, List.map_nil, List.mem_singleton, Prod.mk.injEq] at h
      obtain ⟨rfl, rfl⟩ := h
      exact .leaf List.mem_cons_self
    · exact (reaches_of_mem_leaves h).cons_right _
  | (name, .group ms) :: ps, names, l, h => by
    rcases List.mem_append.1 h with h | h
    · obtain ⟨⟨names', l'⟩, he, heq⟩ := List.mem_map.1 h
      obtain ⟨rfl, rfl⟩ := Prod.mk.inj heq
      have hl : Reaches ms names' l' := reaches_of_mem_leaves he
      exact .group List.mem_cons_self hl
    · exact (reaches_of_mem_leaves h).cons_right _

theorem mem_leaves_iff : (names, l) ∈ leaves ps ↔ Reaches ps names l := by
  refine ⟨reaches_of_mem_leaves, fun h => ?_⟩
  induction h with
  | leaf h => exact mem_leaves_of_mem h List.mem_cons_self
  | group h _ ih => exact mem_leaves_of_mem h ih

/-- Flattening puts a leaf at a path, after the leaves before it and before those
    behind it. -/
def Records (ps : Params) (names : List String) (l : Leaf) (path : String) : Prop :=
  ∃ before after, leaves ps = before ++ (names, l) :: after ∧
    ps.flatten =
      ((Members.putAll [] (Leaf.placed "" before)).put path l).putAll (Leaf.placed "" after)

/-- No other leaf stands at the path of a leaf. -/
def Alone (ps : Params) (names : List String) (l : Leaf) : Prop :=
  ∀ names' l', Reaches ps names' l' → Path.below "" names' = Path.below "" names →
    names' = names ∧ l' = l

theorem alone_iff : Alone ps names l ↔
    ∀ e ∈ leaves ps, Path.below "" e.1 = Path.below "" names → e = (names, l) := by
  simp only [Alone, Prod.forall, Prod.mk.injEq, mem_leaves_iff]

theorem records_of_reaches (h : Reaches ps names l) : Records ps names l (Path.below "" names) := by
  obtain ⟨before, after, hs⟩ := List.append_of_mem (mem_leaves_iff.2 h)
  refine ⟨before, after, hs, ?_⟩
  rw [flatten_eq_putAll, hs, Leaf.placed_append]
  exact List.foldl_append ..

/-- A leaf that has its path to itself is the entry there. -/
theorem get?_flatten_of_alone (h : Reaches ps names l) (ha : Alone ps names l) :
    ps.flatten.get? (Path.below "" names) = some l := by
  rw [get?_flatten, lastLeaf?]
  cases hf : (leaves ps).reverse.find? fun e => Path.below "" e.1 == Path.below "" names with
  | none =>
    have hn := List.find?_eq_none.1 hf (names, l) (List.mem_reverse.2 (mem_leaves_iff.2 h))
    simp at hn
  | some e =>
    have hm := List.mem_reverse.1 (List.mem_of_find?_eq_some hf)
    have hp : Path.below "" e.1 = Path.below "" names := by simpa using List.find?_some hf
    rw [Option.map_some, alone_iff.1 ha e hm hp]

end Params

/-! ## Columns -/

/-- The column of a path is found behind columns with other paths. -/
theorem Columns.kind?_ofList_append {earlier : List Column} {column : Column}
    (hs : column.segments ≠ []) (h : ∀ c ∈ earlier, c.segments ≠ [] → c.path ≠ column.path)
    (later : List Column) :
    (ofList (earlier ++ column :: later)).kind? column.path = column.kind :=
  kind?_of_first ⟨earlier, later, rfl, hs, rfl, h⟩

namespace Filter

open Params (Reaches Records Alone)

variable {columns : Columns} {offset path : String} {leaf : Leaf} {es : Members Leaf}
  {cs : List Clause}

/-- The clause of an entry that filters is the only one on its path. -/
theorem exists_only_clause (hes : es.names.Nodup) (h : clausesOf columns offset es = .ok cs)
    (hget : es.get? path = some leaf) (hv : leaf.isFalsy = false) :
    ∃ clause, clauseOf (columns.kind? path) offset path leaf = .ok clause ∧
      ∀ c, c ∈ cs ∧ c.path = path ↔ c = clause := by
  have hown : ∀ c ∈ cs, c.path = path →
      clauseOf (columns.kind? path) offset path leaf = .ok c := by
    intro c hc hp
    obtain ⟨⟨p, l⟩, he, hsel⟩ := mem_clausesOf h hc
    obtain rfl : p = path := (path_of_select hsel).symm.trans hp
    obtain rfl : l = leaf :=
      Option.some.inj (((Members.mem_iff_get? hes).1 he).symm.trans hget)
    exact (select_eq_some_iff.1 hsel).2
  obtain ⟨clause, hc, hp⟩ := (path_mem_iff hes h path).2 ⟨leaf, hget, hv⟩
  refine ⟨clause, hown clause hc hp, fun c => ⟨?_, ?_⟩⟩
  · rintro ⟨hc', hp'⟩
    exact Except.ok.inj ((hown c hc' hp').symm.trans (hown clause hc hp))
  · rintro rfl
    exact ⟨hc, hp⟩

/-- **The path of a column and of the values under its segments.**  Flattening puts
    a leaf at the path of the names that lead to it, without the empty ones at
    their front. That is the path of the column with these segments if and only
    if no empty segment stands before others. Then, if neither another leaf nor an
    earlier column has that path, the kind of the column makes the clause of the
    leaf, the only one on the path. -/
theorem column_path_iff {ps : Params} {segments : List String} (h : Reaches ps segments leaf)
    (kind : Option ValueKind) :
    Records ps segments leaf (Path.ofSegments (Path.dropRoot segments)) ∧
    (Path.ofSegments (Path.dropRoot segments) = Column.path ⟨segments, kind⟩ ↔
      ∀ name rest, segments ≠ "" :: name :: rest) ∧
    ((∀ name rest, segments ≠ "" :: name :: rest) → Alone ps segments leaf →
      ∀ earlier later,
        (∀ c ∈ earlier, c.segments ≠ [] → c.path ≠ Column.path ⟨segments, kind⟩) →
        ps.flatten.get? (Column.path ⟨segments, kind⟩) = some leaf ∧
        (Columns.ofList (earlier ++ ⟨segments, kind⟩ :: later)).kind?
          (Column.path ⟨segments, kind⟩) = kind ∧
        ∀ offset cs,
          clausesOf (Columns.ofList (earlier ++ ⟨segments, kind⟩ :: later)) offset ps.flatten =
            .ok cs → leaf.isFalsy = false →
          ∃ clause, clauseOf kind offset (Column.path ⟨segments, kind⟩) leaf = .ok clause ∧
            ∀ c, c ∈ cs ∧ c.path = Column.path ⟨segments, kind⟩ ↔ c = clause) := by
  have hpath : Path.ofSegments (Path.dropRoot segments) = Column.path ⟨segments, kind⟩ ↔
      ∀ name rest, segments ≠ "" :: name :: rest := Path.ofSegments_dropRoot_eq_iff
  have hne : segments ≠ [] := by
    rintro rfl
    cases h
  refine ⟨Path.below_eq_ofSegments segments ▸ Params.records_of_reaches h, hpath, ?_⟩
  intro hroot halone earlier later hearlier
  have hget : ps.flatten.get? (Column.path ⟨segments, kind⟩) = some leaf := by
    rw [← hpath.2 hroot, ← Path.below_eq_ofSegments]
    exact Params.get?_flatten_of_alone h halone
  have hkind : (Columns.ofList (earlier ++ ⟨segments, kind⟩ :: later)).kind?
      (Column.path ⟨segments, kind⟩) = kind :=
    Columns.kind?_ofList_append hne hearlier later
  refine ⟨hget, hkind, fun offset cs hcs hv => ?_⟩
  have hclause := exists_only_clause (Params.nodup_flatten ps) hcs hget hv
  rw [hkind] at hclause
  exact hclause

/-- Below a name an empty one and one with a separator. -/
def deepForm : Params :=
  [("age", .leaf (.scalar (.text "30"))),
    ("owner", .group [("", .group [("a/b", .leaf (.scalar (.text "x")))])])]

theorem column_path_iff_deep :
    let segments := ["owner", "", "a/b"]
    let leaf := Leaf.scalar (.text "x")
    let columns := Columns.ofList [⟨["age"], none⟩, ⟨segments, some .select⟩,
      ⟨["owner", "/a", "b"], some .text⟩]
    Reaches deepForm segments leaf ∧ Alone deepForm segments leaf ∧
      Path.ofSegments (Path.dropRoot segments) = "owner//a/b" ∧
      columns.kind? "owner//a/b" = some .select ∧
      clausesOf columns "+00:00" deepForm.flatten =
        .ok [.contains "age" "30" false, .compare "owner//a/b" .eq "x"] ∧
      ∃ clause, clauseOf (some .select) "+00:00" "owner//a/b" leaf = .ok clause ∧
        ∀ c, c ∈ [Clause.contains "age" "30" false, .compare "owner//a/b" .eq "x"] ∧
          c.path = "owner//a/b" ↔ c = clause := by
  intro segments leaf columns
  have hr : Reaches deepForm segments leaf := Params.mem_leaves_iff.1 (by decide +kernel)
  have ha : Alone deepForm segments leaf := Params.alone_iff.2 (by decide +kernel)
  have hroot : ∀ name rest, segments ≠ "" :: name :: rest := by
    intro name rest he
    simp [segments] at he
  have hearlier : ∀ c ∈ [(⟨["age"], none⟩ : Column)], c.segments ≠ [] →
      c.path ≠ Column.path ⟨segments, some .select⟩ := by decide +kernel
  have hcs : clausesOf columns "+00:00" deepForm.flatten =
      .ok [.contains "age" "30" false, .compare "owner//a/b" .eq "x"] := by decide +kernel
  obtain ⟨-, hpath, hcolumn⟩ := column_path_iff hr (some .select)
  obtain ⟨-, hkind, hclause⟩ := hcolumn hroot ha [⟨["age"], none⟩]
    [⟨["owner", "/a", "b"], some .text⟩] hearlier
  exact ⟨hr, ha, hpath.2 hroot, hkind, hcs, hclause "+00:00" _ hcs (by decide)⟩

/-- A value below an empty name misses the column with the same segments. -/
theorem column_path_empty_segment :
    let five := Leaf.scalar (.number (.natural ⟨5, by decide⟩))
    let form : Params := [("", .group [("a", .leaf five)])]
    let column : Column := ⟨["", "a"], some .digit⟩
    Reaches form column.segments five ∧ Alone form column.segments five ∧
      form.flatten = [("a", five)] ∧ column.path = "/a" ∧
      build form [] (Columns.ofList [column]) "+00:00" = .ok (some "contains(a,'5')") := by
  intro five form column
  have hr : Reaches form column.segments five := Params.mem_leaves_iff.1 (by decide +kernel)
  have ha : Alone form column.segments five := Params.alone_iff.2 (by decide +kernel)
  exact ⟨hr, ha, by decide +kernel, by decide +kernel, by decide +kernel⟩

end Filter

end TableQuery
