/-
  Flattening parameters: one entry for each path.

  The tree is walked depth first. A leaf that meets a path again replaces the
  value of the earlier one and keeps its place; groups leave entries only
  through their leaves.
-/
import TableQuery.Param
import TableQuery.Path

namespace TableQuery

mutual

/-- Enter the leaves of a parameter that stands at a path. -/
def Param.enter (path : String) (entries : Members Leaf) : Param → Members Leaf
  | .leaf l => entries.put path l
  | .group ms => Params.enter path entries ms

/-- Enter the leaves of the parameters below a path. -/
def Params.enter (parent : String) (entries : Members Leaf) : List (String × Param) → Members Leaf
  | [] => entries
  | (name, p) :: ps => Params.enter parent (p.enter (Path.join parent name) entries) ps

end

/-- The entries of the parameters of a form. -/
def Params.flatten (ps : Params) : Members Leaf :=
  Params.enter "" [] ps

end TableQuery
