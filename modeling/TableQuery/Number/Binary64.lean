/-
  Finite binary floating-point numbers of 64 bits, as exact values.

  * a value is `±mantissa · 2^exponent` with a mantissa of 53 bits, fewer only
    at the smallest exponent (`Canonical`), so equal values of one sign have
    equal fields;
  * `ofDecimal?` rounds a decimal number to the nearest value, a tie to the
    even mantissa;
  * `shortest` gives the fewest decimal digits whose nearest value is the
    given one, and of those the closest to it, a tie to the even digit.

  All of it is arithmetic on natural numbers.
-/
import TableQuery.Number.Decimal

namespace TableQuery

/-- The bound of the mantissas, `2^53`. -/
abbrev Binary64.mantissaLimit : Nat :=
  9007199254740992

/-- The least mantissa of 53 bits, `2^52`. -/
abbrev Binary64.leastNormal : Nat :=
  4503599627370496

/-- The mantissas and exponents of finite values. -/
def Binary64.Canonical (mantissa : Nat) (exponent : Int) : Prop :=
  mantissa < mantissaLimit ∧ -1074 ≤ exponent ∧ exponent ≤ 971 ∧
    (leastNormal ≤ mantissa ∨ exponent = -1074)

instance (mantissa : Nat) (exponent : Int) : Decidable (Binary64.Canonical mantissa exponent) :=
  inferInstanceAs (Decidable (_ ∧ _))

/-- The value `±mantissa · 2^exponent`. -/
structure Binary64 where
  negative : Bool
  mantissa : Nat
  exponent : Int
  canonical : Binary64.Canonical mantissa exponent
  deriving DecidableEq, Repr

namespace Binary64

/-- The integer nearest to `num / den`, the even one of two. -/
def nearest (num den : Nat) : Nat :=
  let q := num / den
  let r := num % den
  if 2 * r < den then q
  else if den < 2 * r then q + 1
  else q + q % 2

/-- `num / den` divided by `2^e`, as a pair. -/
def scale (num den : Nat) (e : Int) : Nat × Nat :=
  if e < 0 then (num * Nat.pow 2 e.natAbs, den) else (num, den * Nat.pow 2 e.natAbs)

/-- The exponent at which `num / den` has a mantissa of 53 bits, but not less
    than the smallest one. -/
def exponentOf (num den : Nat) : Int :=
  let e := (num.log2 : Int) - den.log2 - 52
  let (n, d) := scale num den e
  max (if n < leastNormal * d then e - 1 else e) (-1074)

/-- The mantissa and exponent nearest to `num / den`. -/
def round (num den : Nat) : Nat × Int :=
  let e := exponentOf num den
  let (n, d) := scale num den e
  let m := nearest n d
  if m = mantissaLimit then (leastNormal, e + 1) else (m, e)

/-- The value of a sign and magnitude, if it is canonical. -/
def ofParts? (negative : Bool) : Nat × Int → Option Binary64
  | (m, e) => if h : Canonical m e then some ⟨negative, m, e, h⟩ else none

/-- The value nearest to a decimal number, or `none` beyond the largest.
    Powers of ten far outside of the range are not computed. -/
def ofDecimal? (negative : Bool) (d : Decimal) : Option Binary64 :=
  let power := d.exponent + (Nat.toDigits 10 d.digits).length
  if d.digits = 0 ∨ power < -400 then ofParts? negative (0, -1074)
  else if 400 < power then none
  else if d.exponent < 0 then ofParts? negative (round d.digits (Nat.pow 10 d.exponent.natAbs))
  else ofParts? negative (round (d.digits * Nat.pow 10 d.exponent.natAbs) 1)

def isZero (x : Binary64) : Bool :=
  x.mantissa == 0

/-- The largest `p` with `10^p ≤ num / den`, found among the `fuel` powers
    below `p + 1`. -/
def powerBelow (num den : Nat) : Nat → Int → Int
  | 0, p => p
  | fuel + 1, p =>
    let reached := if p < 0 then den ≤ num * Nat.pow 10 p.natAbs else den * Nat.pow 10 p.natAbs ≤ num
    if reached then p else powerBelow num den fuel (p - 1)

/-- A magnitude in quarters of the last mantissa bit, `quarters · 2^exponent`,
    with the bounds between which a number rounds to it, and whether the bounds
    themselves do. -/
structure Interval where
  low : Nat
  quarters : Nat
  high : Nat
  exponent : Int
  closed : Bool

/-- The numbers that round to a magnitude. The gap below a power of two is
    half as wide, save at the smallest exponent. -/
def interval (x : Binary64) : Interval :=
  let q := 4 * x.mantissa
  ⟨if x.mantissa = leastNormal ∧ x.exponent ≠ -1074 then q - 1 else q - 2, q, q + 2, x.exponent - 2,
    x.mantissa % 2 = 0⟩

/-- The point of the grid of multiples of `10^k` that rounds to the magnitude,
    if there is one: of the neighbours below and above the closer, the even
    one of two. -/
def Interval.point? (i : Interval) (k : Int) : Option Nat :=
  let unit := (if i.exponent < 0 then 1 else Nat.pow 2 i.exponent.natAbs) *
    (if k < 0 then Nat.pow 10 k.natAbs else 1)
  let grid := (if i.exponent < 0 then Nat.pow 2 i.exponent.natAbs else 1) *
    (if k < 0 then 1 else Nat.pow 10 k.natAbs)
  let below := i.quarters * unit / grid
  let holds (d : Nat) := if i.closed
    then i.low * unit ≤ d * grid ∧ d * grid ≤ i.high * unit
    else i.low * unit < d * grid ∧ d * grid < i.high * unit
  let toBelow := i.quarters * unit - below * grid
  let toAbove := (below + 1) * grid - i.quarters * unit
  if holds below ∧ holds (below + 1) then
    if toBelow < toAbove then some below
    else if toAbove < toBelow then some (below + 1)
    else some (below + below % 2)
  else if holds below then some below
  else if holds (below + 1) then some (below + 1)
  else none

/-- The first grid with a point, going from `10^k` down. -/
def Interval.search (i : Interval) : Nat → Int → Decimal
  | 0, k => ⟨i.quarters, k⟩
  | fuel + 1, k =>
    match i.point? k with
    | some d => ⟨d, k⟩
    | none => i.search fuel (k - 1)

/-- The shortest decimal number that rounds to the magnitude of a nonzero
    value. Seventeen digits always suffice. -/
def shortest (x : Binary64) : Decimal :=
  let i := x.interval
  let (num, den) := scale x.mantissa 1 (-x.exponent)
  (i.search 17 (powerBelow num den 640 309)).stripZeros 20

end Binary64

end TableQuery
