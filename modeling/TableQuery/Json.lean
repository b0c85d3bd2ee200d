/-
  JSON values whose objects keep the order of their members.
-/
import TableQuery.Number
import TableQuery.Members

namespace TableQuery

inductive Json where
  | null
  | bool (b : Bool)
  | number (n : Number)
  | text (s : String)
  | array (items : List Json)
  | object (members : List (String × Json))
  deriving Repr

namespace Json

def text? : Json → Option String
  | .text s => some s
  | _ => none

/-- A value that is a text or null. -/
def optionalText? : Json → Option (Option String)
  | .null => some none
  | .text s => some (some s)
  | _ => none

/-- The name of one of several choices: a text, or the name of the only member
    of an object whose value is null. -/
def choice? : Json → Option String
  | .text s => some s
  | .object [(name, .null)] => some name
  | _ => none

def natural? : Json → Option Nat
  | .number n => n.toNat?
  | _ => none

/-- A natural number, or null beyond 64 bits. -/
def ofNat (n : Nat) : Json :=
  match Number.ofNat? n with
  | some n => .number n
  | none => .null

/-- The members of a record: an object's, or an array's under the record's
    names in order. `none` is no record; the flag tells whether the array has
    more items than there are names. -/
def record? (names : List String) : Json → Option (Members Json × Bool)
  | .object ms => some (ms, false)
  | .array items => some (names.zip items, names.length < items.length)
  | _ => none

end Json

end TableQuery
