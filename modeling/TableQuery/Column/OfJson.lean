/-
  Columns from and to JSON.

  A column is an object with `dataIndex`, or `fieldPath` in its place, and
  `valueType`, or an array of these two. A field is a single segment, an array
  of segments, or null for none; a kind is a name, or null for none, and so is
  the empty name. What is missing counts as null, what is not named here is
  passed over.
-/
import TableQuery.Column
import TableQuery.Json

namespace TableQuery

namespace Column

/-- The segments of a field. -/
def segments? : Json → Option (List String)
  | .null => some []
  | .text s => some [s]
  | .array items => items.mapM Json.text?
  | _ => none

/-- The kind of a column, if it declares one. -/
def kind? (v : Json) : Option (Option ValueKind) :=
  v.optionalText?.map fun name =>
    (name.filter (· ≠ "")).map ValueKind.ofName

/-- The column with the given parts. -/
def ofParts? (segments kind : Option Json) : Option Column := do
  let segments ← segments?  (segments.getD .null)
  let kind ← kind? (kind.getD .null)
  return ⟨segments, kind⟩

def ofJson? : Json → Option Column
  | .object ms =>
    match Members.get? ms "dataIndex", Members.get? ms "fieldPath" with
    | some _, some _ => none
    | some field, none | none, some field => ofParts? (some field) (Members.get? ms "valueType")
    | none, none => ofParts? none (Members.get? ms "valueType")
  | .array [] => ofParts? none none
  | .array [field] => ofParts? (some field) none
  | .array [field, kind] => ofParts? (some field) (some kind)
  | _ => none

def listOfJson? : Json → Option (List Column)
  | .array items => items.mapM ofJson?
  | _ => none

def toJson (c : Column) : Json :=
  let field := ("dataIndex", Json.array (c.segments.map .text))
  match c.kind with
  | some kind => .object [field, ("valueType", .text kind.name)]
  | none => .object [field]

end Column

end TableQuery
