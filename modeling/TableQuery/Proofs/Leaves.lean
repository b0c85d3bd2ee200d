/-
  The leaves of parameters and the entries that flattening makes of them.

  * `Params.leaves`: the leaves, depth first, each with the names that lead to it;
  * `flatten_eq_putAll`: flattening puts every leaf at the joined path of its
    names, one after the other;
  * `flatten_of_nodup`: leaves with paths of their own have an entry each;
  * `nodup_flatten`, `get?_flatten`: in any case a path has one entry, and its value is
    the last leaf that the path stands for.
-/
import TableQuery.Param.Flatten
import TableQuery.Proofs.JoinedNames

namespace TableQuery

mutual

/-- The leaves of a parameter, depth first, with the names that lead to them. -/
def Param.leaves : Param → List (List String × Leaf)
  | .leaf l => [([], l)]
  | .group ms => Params.leaves ms

/-- The leaves of parameters, depth first, with the names that lead to them. -/
def Params.leaves : List (String × Param) → List (List String × Leaf)
  | [] => []
  | (name, p) :: ps => (p.leaves.map fun e => (name :: e.1, e.2)) ++ Params.leaves ps

end

/-- Leaves as entries at their paths below a path. -/
def Leaf.placed (parent : String) (ls : List (List String × Leaf)) : Members Leaf :=
  ls.map fun e => (Path.below parent e.1, e.2)

theorem Leaf.placed_cons_names (parent name : String) (ls : List (List String × Leaf)) :
    placed parent (ls.map fun e => (name :: e.1, e.2)) = placed (Path.join parent name) ls := by
  simp [placed]

theorem Leaf.placed_append (parent : String) (ls ls' : List (List String × Leaf)) :
    placed parent (ls ++ ls') = placed parent ls ++ placed parent ls' :=
  List.map_append

mutual

theorem Param.enter_eq_putAll (path : String) (entries : Members Leaf) :
    ∀ p : Param, p.enter path entries = entries.putAll (Leaf.placed path p.leaves)
  | .leaf _ => rfl
  | .group ms => Params.enter_eq_putAll path entries ms

/-- Entering parameters puts their leaves one after the other. -/
theorem Params.enter_eq_putAll (parent : String) (entries : Members Leaf) :
    ∀ ps : List (String × Param),
      Params.enter parent entries ps = entries.putAll (Leaf.placed parent (Params.leaves ps))
  | [] => rfl
  | (name, p) :: ps => by
    rw [Params.enter, Params.enter_eq_putAll parent _ ps, Param.enter_eq_putAll _ entries p,
      Params.leaves, Leaf.placed_append, Leaf.placed_cons_names]
    exact (List.foldl_append ..).symm

end

namespace Params

theorem flatten_eq_putAll (ps : Params) :
    ps.flatten = Members.putAll [] (Leaf.placed "" (leaves ps)) :=
  enter_eq_putAll "" [] ps

/-- The paths of the leaves, in order. -/
def paths (ps : Params) : List String :=
  (leaves ps).map fun e => Path.below "" e.1

theorem names_placed (ps : Params) : (Leaf.placed "" (leaves ps)).names = ps.paths :=
  List.map_map

/-- Leaves with paths of their own have an entry each. -/
theorem flatten_of_nodup {ps : Params} (h : ps.paths.Nodup) :
    ps.flatten = Leaf.placed "" (leaves ps) := by
  rw [flatten_eq_putAll]
  exact Members.putAll_of_nodup ((names_placed ps).symm ▸ h)

/-- A path has one entry. -/
theorem nodup_flatten (ps : Params) : (ps.flatten).names.Nodup := by
  rw [flatten_eq_putAll]
  exact Members.nodup_putAll (by simp [Members.names]) _

/-- The last leaf whose names have a property. -/
def lastLeaf? (p : List String → Bool) (ps : Params) : Option Leaf :=
  ((leaves ps).reverse.find? fun e => p e.1).map Prod.snd

theorem get?_placed (parent path : String) (ls : List (List String × Leaf)) :
    (Leaf.placed parent ls).get? path =
      (ls.find? fun e => Path.below parent e.1 == path).map Prod.snd := by
  induction ls with
  | nil => rfl
  | cons e ls ih =>
    rw [Leaf.placed, List.map_cons, ← Leaf.placed, Members.get?_cons, ih, List.find?_cons]
    by_cases h : Path.below parent e.1 = path
    · simp [h]
    · simp [beq_false_of_ne h, Ne.symm h]

/-- The value at a path is the last leaf that the path stands for. -/
theorem get?_flatten (ps : Params) (path : String) :
    ps.flatten.get? path = lastLeaf? (Path.below "" · == path) ps := by
  rw [flatten_eq_putAll, Members.get?_putAll, lastLeaf?, ← get?_placed, Leaf.placed, Leaf.placed,
    List.map_reverse]
  simp [Members.get?]

/-- The names of a leaf begin with that of a member. -/
theorem exists_member {ps : Params} {e : List String × Leaf} (h : e ∈ leaves ps) :
    ∃ m ∈ ps, ∃ names, e.1 = m.1 :: names := by
  induction ps with
  | nil => simp [leaves] at h
  | cons m ps ih =>
    obtain ⟨name, p⟩ := m
    rcases List.mem_append.1 h with h | h
    · obtain ⟨e', -, rfl⟩ := List.mem_map.1 h
      exact ⟨_, List.mem_cons_self, e'.1, rfl⟩
    · obtain ⟨m, hm, hnames⟩ := ih h
      exact ⟨m, List.mem_cons_of_mem _ hm, hnames⟩

theorem leaves_filter (f : String → Bool) (ps : Params) :
    leaves (ps.filter fun m => f m.1) = (leaves ps).filter fun e => e.1.head?.any f := by
  induction ps with
  | nil => rfl
  | cons m ps ih =>
    obtain ⟨name, p⟩ := m
    by_cases h : f name
    · have hp : ((p.leaves.map fun e => (name :: e.1, e.2)).filter fun e => e.1.head?.any f) =
          p.leaves.map fun e => (name :: e.1, e.2) := by
        refine List.filter_eq_self.2 fun e he => ?_
        obtain ⟨e', -, rfl⟩ := List.mem_map.1 he
        exact h
      simp only [List.filter_cons, h, if_true, leaves, ih, List.filter_append, hp]
    · have hp : ((p.leaves.map fun e => (name :: e.1, e.2)).filter fun e => e.1.head?.any f) =
          [] := by
        refine List.filter_eq_nil_iff.2 fun e he => ?_
        obtain ⟨e', -, rfl⟩ := List.mem_map.1 he
        exact h
      simp only [List.filter_cons, h, if_false, Bool.false_eq_true, leaves, ih, List.filter_append,
        hp, List.nil_append]

theorem lastLeaf?_filter (f : String → Bool) (p : List String → Bool) (ps : Params) :
    lastLeaf? p (ps.filter fun m => f m.1) = lastLeaf? (fun ns => ns.head?.any f && p ns) ps := by
  rw [lastLeaf?, leaves_filter, ← List.filter_reverse, List.find?_filter]
  simp [lastLeaf?]

end Params

end TableQuery
