/-
  What a table reports about its query: form parameters with the page window,
  the manual sort, quick filters and a base query.

  From JSON, any of the four may be missing or null; other members are passed
  over, and members are read in their order, so that the first that cannot be
  read decides about the fault.
-/
import TableQuery.OrderBy
import TableQuery.Param.OfJson

namespace TableQuery

/-- What a table reports about its query. -/
structure TableReport where
  params : Params
  sort : ManualSort
  filter : Params
  baseQuery : Option String
  deriving Repr

namespace TableReport

def empty : TableReport :=
  ⟨[], [], [], none⟩

def ofParams (params : Params) : TableReport :=
  { empty with params }

/-- The parameters of an object, none for null. -/
def optionalParams : Json → Except ShapeFault Params
  | .null => .ok []
  | v => Params.ofObject v

/-- The sort of an object, none for null. -/
def optionalSort : Json → Except ShapeFault ManualSort
  | .null => .ok []
  | v => ManualSort.ofJson v

/-- The base query of a text, none for null. -/
def optionalText (v : Json) : Except ShapeFault (Option String) :=
  match v.optionalText? with
  | some s => .ok s
  | none => .error .shape

/-- The report with one member read. -/
def read (s : TableReport) : String × Json → Except ShapeFault TableReport
  | ("params", v) => do return { s with params := ← optionalParams v }
  | ("sort", v) => do return { s with sort := ← optionalSort v }
  | ("filter", v) => do return { s with filter := ← optionalParams v }
  | ("preQuery", v) => do return { s with baseQuery := ← optionalText v }
  | _ => return s

def ofJson (v : Json) : Except ShapeFault TableReport :=
  match v.record? ["params", "sort", "filter", "preQuery"] with
  | none => .error .shape
  | some (ms, tooLong) => do
    let s ← ms.foldlM read empty
    if tooLong then throw .shape
    return s

end TableReport

end TableQuery
