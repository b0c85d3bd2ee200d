/-
  The entries of parameters, told from their leaves.

  Each path stands once, where it first occurs among the leaves, with the leaf of
  its last occurrence. The path of a leaf joins its names, without the empty ones
  at their front.

  * `Params.listing`: the leaves in order, at the paths that their names make;
  * `Params.flatten_settled`: what the entries are;
  * `Params.flatten_below_empty`: where they are not those of all names joined.
-/
import TableQuery.Proofs.ColumnPath

namespace TableQuery.Params

variable {ps : Params} {path path' : List String → String}

/-- The leaves, depth first, each at the path that its names make. -/
def listing (path : List String → String) (ps : Params) : Members Leaf :=
  (leaves ps).map fun e => (path e.1, e.2)

/-- No leaf lies below an empty name at the top. -/
def Rooted (ps : Params) : Prop :=
  ∀ names l, Reaches ps names l → ∀ name rest, names ≠ "" :: name :: rest

theorem listing_eq_iff :
    listing path ps = listing path' ps ↔ ∀ names l, Reaches ps names l → path names = path' names := by
  simp only [listing, List.map_inj_left, Prod.forall, Prod.mk.injEq, and_true, mem_leaves_iff]

theorem placed_leaves (ps : Params) :
    Leaf.placed "" (leaves ps) = listing (fun names => Path.ofSegments (Path.dropRoot names)) ps := by
  simp only [Leaf.placed, listing, Path.below_eq_ofSegments]

/-- The paths of the entries are those of all names, unless a leaf lies below an
    empty name at the top. -/
theorem listing_dropRoot_eq_iff :
    listing (fun names => Path.ofSegments (Path.dropRoot names)) ps = listing Path.ofSegments ps ↔
      ps.Rooted := by
  simp only [listing_eq_iff, Path.ofSegments_dropRoot_eq_iff]
  rfl

/-- **The entries of parameters.**  Of the leaves, at the paths of their names
    without the empty ones at their front, each path is listed once, where it first
    occurs, with the leaf of its last occurrence. These are the paths of all names if
    and only if no leaf lies below an empty name at the top. -/
theorem flatten_settled (ps : Params) :
    ps.flatten.Settled (listing (fun names => Path.ofSegments (Path.dropRoot names)) ps) ∧
    (listing (fun names => Path.ofSegments (Path.dropRoot names)) ps =
      listing Path.ofSegments ps ↔ ps.Rooted) ∧
    (ps.Rooted → ps.flatten.Settled (listing Path.ofSegments ps)) := by
  have hs : ps.flatten.Settled
      (listing (fun names => Path.ofSegments (Path.dropRoot names)) ps) := by
    rw [flatten_eq_putAll, placed_leaves]
    exact Members.settled_putAll _
  refine ⟨hs, listing_dropRoot_eq_iff, fun h => ?_⟩
  rw [← listing_dropRoot_eq_iff.2 h]
  exact hs

/-- The path `a/b` of the first leaf comes again below `a`. -/
def repeatedForm : Params :=
  [("a/b", .leaf (.scalar (.text "1"))), ("c", .leaf (.range .null (.text "2"))),
    ("a", .group [("b", .leaf (.scalar (.text "3"))), ("", .group [])])]

theorem flatten_settled_repeated :
    repeatedForm.Rooted ∧
      listing Path.ofSegments repeatedForm =
        [("a/b", .scalar (.text "1")), ("c", .range .null (.text "2")),
          ("a/b", .scalar (.text "3"))] ∧
      repeatedForm.flatten = [("a/b", .scalar (.text "3")), ("c", .range .null (.text "2"))] ∧
      repeatedForm.flatten.Settled (listing Path.ofSegments repeatedForm) := by
  have hr : repeatedForm.Rooted := by
    rintro _ l h name rest rfl
    have hm := mem_leaves_iff.2 h
    simp [repeatedForm, leaves, Param.leaves] at hm
  exact ⟨hr, by decide +kernel, by decide +kernel, (flatten_settled repeatedForm).2.2 hr⟩

/-- An empty name at the top leaves no trace in the path of a leaf below it. -/
theorem flatten_below_empty :
    let five := Leaf.scalar (.number (.natural ⟨5, by decide⟩))
    let form : Params := [("", .group [("a", .leaf five)])]
    form.flatten = [("a", five)] ∧ listing Path.ofSegments form = [("/a", five)] ∧
      ¬ form.flatten.Settled (listing Path.ofSegments form) := by
  intro five form
  refine ⟨by decide +kernel, by decide +kernel, fun h => ?_⟩
  have hnames : form.flatten.names ≠ (listing Path.ofSegments form).names.eraseDups := by
    decide +kernel
  exact hnames h.names_eq

end TableQuery.Params
