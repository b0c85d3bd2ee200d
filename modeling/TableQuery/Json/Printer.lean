/-
  Writing a JSON value on one line, without blanks. A text has escapes for the
  quote, the backslash, control characters and all that may end a line.
-/
import TableQuery.Json

namespace TableQuery.Json

/-- A character as `\u` and four hexadecimal digits. -/
def unitEscape (c : Char) : List Char :=
  let digit := fun weight => Nat.digitChar (c.toNat / weight % 16)
  ['\\', 'u', digit 4096, digit 256, digit 16, digit 1]

/-- Whether a character may not stand in a quoted text, or may end a line. -/
def needsEscape (c : Char) : Bool :=
  c < ' ' || c = '\x85' || c = '\u2028' || c = '\u2029'

def escapeChar (c : Char) : List Char :=
  if c = '"' ∨ c = '\\' then ['\\', c]
  else if needsEscape c then unitEscape c
  else [c]

def quote (s : String) : String :=
  String.ofList ('"' :: s.toList.flatMap escapeChar ++ ['"'])

mutual

def print : Json → String
  | .null => "null"
  | .bool b => if b then "true" else "false"
  | .number n => n.text
  | .text s => quote s
  | .array items => "[" ++ String.intercalate "," (printItems items) ++ "]"
  | .object ms => "\x7b" ++ String.intercalate "," (printMembers ms) ++ "\x7d"

/-- The items of an array, each as a document. -/
def printItems : List Json → List String
  | [] => []
  | v :: vs => print v :: printItems vs

/-- The members of an object, each with its name. -/
def printMembers : List (String × Json) → List String
  | [] => []
  | (name, v) :: ms => (quote name ++ ":" ++ print v) :: printMembers ms

end

end TableQuery.Json
