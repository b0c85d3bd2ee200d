/-
  What the scalars of a YAML document denote.

  A plain scalar is null, a truth value, an integer of up to 128 bits, a finite
  or infinite number or no number, or else a text. Digits behind a leading zero
  are a text, so that `+0530` is one. Other scalars are texts. A tag of the core
  schema asks for a kind of value, and an unknown tag for a text.
-/
import TableQuery.Number
import TableQuery.Yaml.Node

namespace TableQuery.Yaml

/-- What a scalar denotes. -/
inductive Value where
  | null
  | truth
  | integer (negative : Bool) (magnitude : Nat)
  | number
  | text (s : String)
  deriving DecidableEq, Repr

namespace Value

/-- A sign at the front, and the rest. -/
def sign : List Char → Bool × List Char
  | '-' :: cs => (true, cs)
  | '+' :: cs => (false, cs)
  | cs => (false, cs)

/-- Two digits or more of which the first is a zero. -/
def isZeroLed (cs : List Char) : Bool :=
  cs.head? = some '0' && decide (1 < cs.length) && cs.all Char.isDigit

/-- The value of an integer without sign, in decimal or behind the mark of its
    base. -/
def magnitude? : List Char → Option Nat
  | '0' :: 'x' :: ds => Text.valueIn? 16 ds
  | '0' :: 'o' :: ds => Text.valueIn? 8 ds
  | '0' :: 'b' :: ds => Text.valueIn? 2 ds
  | ds => if isZeroLed ds then none else Text.valueIn? 10 ds

/-- The number of natural numbers of 128 bits, `2^128`. -/
def wideCount : Nat :=
  Number.wordCount * Number.wordCount

/-- The integer that a plain scalar denotes. -/
def integer? (cs : List Char) : Option Value := do
  let (negative, ds) := sign cs
  let n ← magnitude? ds
  guard (if negative then 2 * n ≤ wideCount else n < wideCount)
  return .integer negative n

def isNull (cs : List Char) : Bool :=
  ["~", "null", "Null", "NULL"].contains (String.ofList cs)

def isTruth (cs : List Char) : Bool :=
  ["true", "True", "TRUE", "false", "False", "FALSE"].contains (String.ofList cs)

/-- Whether a plain scalar is a number beyond the integers: one with a point or
    an exponent that a double holds, an infinite one, or the mark of none. -/
def isNumber (cs : List Char) : Bool :=
  let ds := (sign cs).2
  [".nan", ".NaN", ".NAN"].contains (String.ofList cs)
    || [".inf", ".Inf", ".INF"].contains (String.ofList ds)
    || ((Decimal.ofText? ds).bind (Binary64.ofDecimal? false)).isSome

def ofPlain (s : String) : Value :=
  let cs := s.toList
  if cs = [] ∨ isNull cs then .null
  else if isTruth cs then .truth
  else
    match integer? cs with
    | some v => v
    | none => if isNumber cs ∧ !isZeroLed (sign cs).2 then .number else .text s

/-- What a scalar denotes. A tag of its own kind says nothing about it. -/
def ofScalar? (tag : Option Tag) (plain : Bool) (s : String) : Option Value :=
  let cs := s.toList
  match tag with
  | none | some (.own _) => some (if plain then ofPlain s else .text s)
  | some .null => if isNull cs then some .null else none
  | some .truth => if isTruth cs then some .truth else none
  | some .integer => integer? cs
  | some .number => if isNumber cs then some .number else none
  | some .other => some (.text s)

end Value

end TableQuery.Yaml
