/-
  Decimal numbers `digits · 10^exponent` and their written forms.

  * `natural?` reads an unsigned integer with an optional `+`;
  * `ofText?` reads digits with an optional point and an optional exponent,
    at least one digit standing before the exponent;
  * `Layout` says how such a number is written: between which magnitudes the
    point is placed among the digits, and what marks an exponent.
-/
namespace TableQuery

/-- The number `digits · 10^exponent`. -/
structure Decimal where
  digits : Nat
  exponent : Int
  deriving DecidableEq, Repr

namespace Decimal

def valueOf (ds : List Char) : Nat :=
  Nat.ofDigitChars 10 ds 0

/-- An unsigned integer: an optional `+` and at least one digit. -/
def natural? (cs : List Char) : Option Nat :=
  let ds := match cs with
    | '+' :: ds => ds
    | ds => ds
  if ds ≠ [] ∧ ds.all Char.isDigit then some (valueOf ds) else none

/-- The digits at the front of a text, and the rest. -/
def spanDigits (cs : List Char) : List Char × List Char :=
  (cs.takeWhile Char.isDigit, cs.dropWhile Char.isDigit)

/-- The digits after a point, if there is one, and the rest. -/
def fraction : List Char → List Char × List Char
  | '.' :: cs => spanDigits cs
  | cs => ([], cs)

/-- The value of an exponent with its mark, or zero where there is no mark,
    and the rest; a mark without digits is an error. -/
def exponent? (cs : List Char) : Option (Int × List Char) :=
  match cs with
  | [] => some (0, [])
  | mark :: rest =>
    if mark = 'e' ∨ mark = 'E' then
      let (negative, rest) := match rest with
        | '-' :: r => (true, r)
        | '+' :: r => (false, r)
        | r => (false, r)
      match spanDigits rest with
      | ([], _) => none
      | (ds, rest) => some (if negative then -(valueOf ds : Int) else valueOf ds, rest)
    else some (0, cs)

/-- The number with the given digits before and after the point. -/
def ofParts (whole part : List Char) (exponent : Int) : Decimal :=
  ⟨valueOf (whole ++ part), exponent - part.length⟩

/-- A number without sign that is the whole of a text. -/
def ofText? (cs : List Char) : Option Decimal := do
  let (whole, rest) := spanDigits cs
  let (part, rest) := fraction rest
  guard (whole ≠ [] ∨ part ≠ [])
  let (exponent, rest) ← exponent? rest
  guard (rest = [])
  return ofParts whole part exponent

/-- How a decimal number is written. A number is positional if the power of
    ten of its first digit is at least `low` and less than `high`; a
    positional number has a point and a digit after it. Any other has one
    digit before the point, if more follow, and its power of ten behind
    `mark`, with a sign of either kind. -/
structure Layout where
  low : Int
  high : Int
  mark : Char

/-- The digits with a point after the first `place` of them, zeros filling up
    on either side. -/
def pointed (ds : List Char) (place : Int) : List Char :=
  if place ≤ 0 then '0' :: '.' :: List.replicate (-place).toNat '0' ++ ds
  else if ds.length ≤ place.toNat then
    ds ++ List.replicate (place.toNat - ds.length) '0' ++ ['.', '0']
  else ds.take place.toNat ++ '.' :: ds.drop place.toNat

/-- The digits with a point after the first, if more follow. -/
def leading : List Char → List Char
  | d :: e :: ds => d :: '.' :: e :: ds
  | ds => ds

/-- A nonzero number as the layout writes it. -/
def write (layout : Layout) (d : Decimal) : List Char :=
  let ds := Nat.toDigits 10 d.digits
  let power := d.exponent + ds.length - 1
  if layout.low ≤ power ∧ power < layout.high then pointed ds (power + 1)
  else
    leading ds ++ layout.mark :: (if power < 0 then '-' else '+') :: Nat.toDigits 10 power.natAbs

/-- Without the zeros at the end of its digits, as far as `fuel` reaches. -/
def stripZeros : Nat → Decimal → Decimal
  | 0, d => d
  | fuel + 1, d =>
    if d.digits ≠ 0 ∧ d.digits % 10 = 0 then stripZeros fuel ⟨d.digits / 10, d.exponent + 1⟩ else d

theorem valueOf_toDigits (n : Nat) : valueOf (Nat.toDigits 10 n) = n :=
  Nat.ofDigitChars_ten_toDigits

end Decimal

end TableQuery
