/-
  Offsets from UTC in whole minutes, less than a day.

  * `text` writes a sign, two digits of hours, a colon and two digits of
    minutes; zero is positive;
  * `parse?` reads, between blanks, a `Z` of either case, or a sign, two digits
    of hours, any number of colons and two digits of minutes. More digits and
    colons may follow and say nothing.
-/
import TableQuery.Text.Blank

namespace TableQuery

/-- An offset from UTC, in minutes to the east. -/
structure UtcOffset where
  minutes : Int
  bound : minutes.natAbs < 1440
  deriving DecidableEq, Repr

namespace UtcOffset

def zero : UtcOffset :=
  ⟨0, by decide⟩

def seconds (o : UtcOffset) : Int :=
  o.minutes * 60

def twoDigits (n : Nat) : List Char :=
  [Nat.digitChar (n / 10), Nat.digitChar (n % 10)]

/-- The offset as it stands behind a date and time. -/
def text (o : UtcOffset) : String :=
  let m := o.minutes.natAbs
  String.ofList ((if o.minutes < 0 then '-' else '+') :: twoDigits (m / 60) ++ ':' :: twoDigits (m % 60))

def twoDigits? (tens ones : Char) : Option Nat :=
  if tens.isDigit ∧ ones.isDigit then
    some (10 * (tens.toNat - '0'.toNat) + (ones.toNat - '0'.toNat))
  else none

/-- The offset of a sign, hours and minutes. -/
def ofParts? (negative : Bool) (hours minutes : Nat) : Option UtcOffset :=
  if h : minutes < 60 ∧ hours < 24 then
    let m : Nat := hours * 60 + minutes
    if negative then some ⟨-(m : Int), by omega⟩ else some ⟨m, by omega⟩
  else none

/-- The hours and minutes behind a sign. -/
def time? : List Char → Option (Nat × Nat)
  | h₁ :: h₂ :: rest => do
    let hours ← twoDigits? h₁ h₂
    guard (rest.all fun c => c.isDigit || c = ':')
    match rest.dropWhile (· = ':') with
    | m₁ :: m₂ :: _ =>
      let minutes ← twoDigits? m₁ m₂
      return (hours, minutes)
    | _ => none
  | _ => none

def parse? (s : String) : Option UtcOffset :=
  match Text.trim s.toList with
  | ['Z'] | ['z'] => some zero
  | sign :: rest =>
    if sign = '+' ∨ sign = '-' then do
      let (hours, minutes) ← time? rest
      ofParts? (sign = '-') hours minutes
    else none
  | [] => none

end UtcOffset

end TableQuery
