/-
  Parameters from JSON.

  Scalars and objects carry over. An array is a pair of scalar bounds, or null
  if it is empty, as a cleared range picker reports it. Any other array is a
  fault that names the path of the array; its length is judged before its
  bounds, and the first fault in depth-first order is reported.

  There are two readings of a whole document: `Params.ofJson` names paths from
  the root and takes null for no parameters, `Params.ofObject` reads each
  member on its own, so that its paths begin below the member.
-/
import TableQuery.Json
import TableQuery.Param
import TableQuery.Path
import TableQuery.Error

namespace TableQuery

/-- A value that is no array and no object. -/
def Scalar.ofJson? : Json → Option Scalar
  | .null => some .null
  | .bool b => some (.bool b)
  | .number n => some (.number n)
  | .text s => some (.text s)
  | .array _ | .object _ => none

/-- The leaf that an array stands for. -/
def Leaf.ofItems (path : String) : List Json → Except ParamFault Leaf
  | [] => .ok (.scalar .null)
  | [lower, upper] =>
    match Scalar.ofJson? lower, Scalar.ofJson? upper with
    | some lower, some upper => .ok (.range lower upper)
    | _, _ => .error ⟨path, .boundsNotScalar⟩
  | items => .error ⟨path, .rangeLength items.length⟩

mutual

/-- The parameter at a path. -/
def Param.ofJson (path : String) : Json → Except ParamFault Param
  | .null => .ok (.leaf (.scalar .null))
  | .bool b => .ok (.leaf (.scalar (.bool b)))
  | .number n => .ok (.leaf (.scalar (.number n)))
  | .text s => .ok (.leaf (.scalar (.text s)))
  | .array items => (Leaf.ofItems path items).map .leaf
  | .object ms => (Params.ofMembers path ms).map .group

/-- The parameters below a path. -/
def Params.ofMembers (parent : String) : List (String × Json) → Except ParamFault Params
  | [] => .ok []
  | (name, v) :: ms => do
    let p ← Param.ofJson (Path.join parent name) v
    let ps ← Params.ofMembers parent ms
    return (name, p) :: ps

end

/-- The parameters of a document; null, also as an empty array, stands for
    none. -/
def Params.ofJson (v : Json) : Except ParamFault Params := do
  match ← Param.ofJson "" v with
  | .group ps => return ps
  | .leaf (.scalar .null) => return []
  | .leaf _ => throw ⟨"<root>", .notObject⟩

/-- The members of an object, each read from the empty path. -/
def Params.ofEach : Members Json → Except ParamFault Params
  | [] => .ok []
  | (name, v) :: ms => do
    let p ← Param.ofJson "" v
    let ps ← Params.ofEach ms
    return (name, p) :: ps

/-- The parameters of an object. -/
def Params.ofObject : Json → Except ShapeFault Params
  | .object ms => (Params.ofEach ms).mapError .param
  | _ => .error .shape

end TableQuery
