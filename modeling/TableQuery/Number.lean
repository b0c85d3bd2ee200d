/-
  Numbers of a JSON document.

  A literal without point and exponent is an integer if a 64-bit word holds it,
  unsigned or signed; any other literal, and a negative zero, is a double. The
  kinds are kept apart: `1.0` is a double and no integer.

  `text` writes integers in plain decimal and doubles with the fewest digits
  that read back, in the layout `doubleLayout`.
-/
import TableQuery.Number.Binary64

namespace TableQuery

/-- The number of natural numbers that an unsigned 64-bit word holds, `2^64`. -/
abbrev Number.wordCount : Nat :=
  18446744073709551616

/-- The number of negative integers that a signed 64-bit word holds, `2^63`. -/
abbrev Number.negativeCount : Nat :=
  9223372036854775808

inductive Number where
  /-- An integer from `0` to `2^64 - 1`. -/
  | natural (n : Fin Number.wordCount)
  /-- The integer `-(n + 1)`, from `-2^63` to `-1`. -/
  | negative (n : Fin Number.negativeCount)
  | double (x : Binary64)
  deriving DecidableEq, Repr

namespace Number

/-- The number of an integer literal. -/
def ofInteger? (negative : Bool) (n : Nat) : Option Number :=
  if h : negative = false ∧ n < wordCount then some (.natural ⟨n, h.2⟩)
  else if h : negative = true ∧ 0 < n ∧ n - 1 < negativeCount then some (.negative ⟨n - 1, h.2.2⟩)
  else (Binary64.ofDecimal? negative ⟨n, 0⟩).map .double

/-- A natural number that a 64-bit word holds. -/
def ofNat? (n : Nat) : Option Number :=
  if h : n < wordCount then some (.natural ⟨n, h⟩) else none

/-- The value of an unsigned integer; a double has none, even a whole one. -/
def toNat? : Number → Option Nat
  | .natural n => some n
  | _ => none

def isZero : Number → Bool
  | .natural n => n.val == 0
  | .negative _ => false
  | .double x => x.isZero

/-- Doubles from `10^-5` up to, but without, `10^16` are positional; the
    others have an `e`. -/
def doubleLayout : Decimal.Layout :=
  ⟨-5, 16, 'e'⟩

/-- A double in decimal digits; zero is written with its sign and a point. -/
def doubleText (x : Binary64) : List Char :=
  let digits := if x.isZero then ['0', '.', '0'] else x.shortest.write doubleLayout
  if x.negative then '-' :: digits else digits

def text : Number → String
  | .natural n => toString n.val
  | .negative n => "-" ++ toString (n.val + 1)
  | .double x => String.ofList (doubleText x)

@[simp] theorem toNat?_natural (n : Fin wordCount) : (natural n).toNat? = some n.val := rfl

end Number

end TableQuery
