/-
  The order of the rows.

  A table reports its manual sort as field names, whose segments are joined by
  commas, each with a token for the direction. In the query the segments are
  joined by `/`, the directions are `asc` and `desc`, and commas separate the
  keys.
-/
import TableQuery.Json
import TableQuery.Error

namespace TableQuery

inductive Direction where
  | asc
  | desc
  deriving DecidableEq, Repr

namespace Direction

/-- The direction that a table's token asks for: ascending, unless it is
    `descend`. -/
def ofToken : Option String → Direction
  | some "descend" => .desc
  | _ => .asc

def name : Direction → String
  | .asc => "asc"
  | .desc => "desc"

def ofName? : String → Option Direction
  | "asc" => some .asc
  | "desc" => some .desc
  | _ => none

end Direction

/-- The sort that a table reports: tokens by field. -/
abbrev ManualSort := Members (Option String)

/-- A field and the direction in which it orders. -/
structure OrderKey where
  field : String
  direction : Direction
  deriving DecidableEq, Repr

/-- The keys of an order, the first deciding before the second. -/
abbrev OrderBy := List OrderKey

def OrderKey.text (k : OrderKey) : String :=
  k.field ++ " " ++ k.direction.name

namespace OrderBy

/-- The path of a field whose segments are joined by commas. -/
def fieldPath (field : String) : String :=
  String.ofList (field.toList.map fun c => if c = ',' then '/' else c)

def ofSort (sort : ManualSort) : OrderBy :=
  sort.map fun (field, token) => ⟨fieldPath field, Direction.ofToken token⟩

def text (order : OrderBy) : String :=
  String.intercalate "," (order.map OrderKey.text)

/-- The order of a sort as written, unless nothing is sorted. -/
def build (sort : ManualSort) : Option String :=
  match ofSort sort with
  | [] => none
  | order => some (text order)

end OrderBy

namespace ManualSort

/-- The sort that the members of an object describe. -/
def ofMembers? : Members Json → Option ManualSort
  | [] => some []
  | (field, v) :: ms => do
    let token ← v.optionalText?
    let sort ← ofMembers? ms
    return (field, token) :: sort

/-- The sort of an object from fields to tokens or null. -/
def ofJson : Json → Except ShapeFault ManualSort
  | .object ms =>
    match ofMembers? ms with
    | some sort => .ok sort
    | none => .error .shape
  | _ => .error .shape

end ManualSort

end TableQuery
