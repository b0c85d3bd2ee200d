/-
  Values of table parameters.

  * a `Scalar` is null, a truth value, a number or a text;
  * a `Leaf` is a scalar or a pair of bounds;
  * a `Param` is a leaf or a group of named parameters.

  A falsy value (`isFalsy`) means that nothing is filtered: null, false, zero,
  the empty text, and a pair of two falsy bounds.
-/
import TableQuery.Number
import TableQuery.Members
import TableQuery.Text.Quoted

namespace TableQuery

inductive Scalar where
  | null
  | bool (b : Bool)
  | number (n : Number)
  | text (s : String)
  deriving DecidableEq, Repr

/-- A value that stands under one path. -/
inductive Leaf where
  | scalar (s : Scalar)
  /-- Two bounds, such as the ends of a period. -/
  | range (lower upper : Scalar)
  deriving DecidableEq, Repr

/-- A parameter: a leaf, or parameters below a name. -/
inductive Param where
  | leaf (l : Leaf)
  | group (members : List (String × Param))
  deriving Repr

/-- The named parameters of a form, in order. -/
abbrev Params := Members Param

namespace Scalar

/-- Null, false, zero and the empty text filter nothing. -/
def isFalsy : Scalar → Bool
  | .null => true
  | .bool b => !b
  | .number n => n.isZero
  | .text s => s == ""

/-- The value as text; null is the empty text. -/
def render : Scalar → String
  | .null => ""
  | .bool b => if b then "true" else "false"
  | .number n => n.text
  | .text s => s

def text? : Scalar → Option String
  | .text s => some s
  | _ => none

end Scalar

/-- A text with its single quotes doubled, as it stands inside a literal. -/
def doubleQuotes (s : String) : String :=
  String.ofList (Text.double '\'' s.toList)

/-- A scalar with the quotes of a text doubled. -/
def Scalar.escape : Scalar → Scalar
  | .text s => .text (doubleQuotes s)
  | s => s

namespace Leaf

/-- A pair filters nothing if neither bound does. -/
def isFalsy : Leaf → Bool
  | .scalar s => s.isFalsy
  | .range lower upper => lower.isFalsy && upper.isFalsy

/-- The value as text; bounds are joined by a comma. -/
def render : Leaf → String
  | .scalar s => s.render
  | .range lower upper => lower.render ++ "," ++ upper.render

end Leaf

end TableQuery
