/-
  The composed query and its written form.

  A query has six parameters in fixed order: count, top, skip, filter, expand,
  orderby. A parameter that is false, zero, empty or missing is not written.
  The query string is `?` and the pairs, encoded, with `&` between them.
-/
import TableQuery.Error
import TableQuery.Json

namespace TableQuery

/-- How parameter names are written. -/
inductive Naming where
  | plain
  /-- With a `$` before each name. -/
  | dollar
  deriving DecidableEq, Repr

namespace Naming

/-- The name of a parameter as written. -/
def key : Naming → String → String
  | .plain, name => name
  | .dollar, name => "$" ++ name

def name : Naming → String
  | .plain => "plain"
  | .dollar => "dollar"

def ofName? : String → Option Naming
  | "plain" => some .plain
  | "dollar" => some .dollar
  | _ => none

end Naming

/-- A query for a window of the rows of a table. -/
structure Query where
  count : Bool
  top : Nat
  skip : Nat
  filter : Option String
  expand : Option String
  orderby : Option String
  deriving DecidableEq, Repr

namespace Query

/-- The counted window of `top` rows after the first `skip`. -/
def window (top skip : Nat) : Query :=
  ⟨true, top, skip, none, none, none⟩

def isFiltered (q : Query) : Bool :=
  q.filter.any (· ≠ "")

/-- A text parameter, if it has a text. -/
def textPair (key : String) : Option String → List (String × String)
  | some value => if value = "" then [] else [(key, value)]
  | none => []

/-- A number parameter, unless it is zero. -/
def numberPair (key : String) (n : Nat) : List (String × String) :=
  if n = 0 then [] else [(key, toString n)]

/-- The names and values that are written. -/
def pairs (q : Query) (naming : Naming) : List (String × String) :=
  (if q.count then [(naming.key "count", "true")] else [])
    ++ numberPair (naming.key "top") q.top
    ++ numberPair (naming.key "skip") q.skip
    ++ textPair (naming.key "filter") q.filter
    ++ textPair (naming.key "expand") q.expand
    ++ textPair (naming.key "orderby") q.orderby

def piece : String × String → List Char
  | (name, value) => Percent.encode name.toList ++ '=' :: Percent.encode value.toList

def queryString (q : Query) (naming : Naming) : String :=
  String.ofList ('?' :: List.intercalate ['&'] ((q.pairs naming).map piece))

def textMember (name : String) : Option String → Members Json
  | some value => [(name, .text value)]
  | none => []

/-- The query as an object, without the parameters that are missing. -/
def toJson (q : Query) : Json :=
  .object ([("count", .bool q.count), ("top", Json.ofNat q.top), ("skip", Json.ofNat q.skip)]
    ++ textMember "filter" q.filter ++ textMember "expand" q.expand
    ++ textMember "orderby" q.orderby)

/-- The query that a record describes: three parameters have to be there,
    texts may be null or missing, and what is not named here is passed over. -/
def ofJson? (v : Json) : Option Query := do
  let (ms, tooLong) ← v.record? ["count", "top", "skip", "filter", "expand", "orderby"]
  guard (tooLong = false)
  let .bool count ← Members.get? ms "count" | none
  let top ← (← Members.get? ms "top").natural?
  let skip ← (← Members.get? ms "skip").natural?
  let text := fun name => ((Members.get? ms name).getD .null).optionalText?
  return ⟨count, top, skip, ← text "filter", ← text "expand", ← text "orderby"⟩

end Query

end TableQuery
