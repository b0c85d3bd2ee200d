/-
  Numbers in a base and characters written behind a backslash.

  An escape is a mark for one character, or a mark for a number of hexadecimal
  digits that give the code point of a character.
-/
import TableQuery.Text.Percent

namespace TableQuery.Text

/-- The value of digits in a base of at most sixteen, if there are any. -/
def valueIn? (base : Nat) (ds : List Char) : Option Nat :=
  if ds = [] then none
  else ds.foldlM (fun n c => do
    let d ← Percent.hexDigit? c
    guard (d < base)
    return n * base + d) 0

/-- The character of a code point, which no surrogate has. -/
def character? (n : Nat) : Option Char :=
  if n.isValidChar then some (Char.ofNat n) else none

/-- The escapes of a notation. -/
structure Escapes where
  /-- The characters that marks stand for. -/
  marks : List (Char × Char)
  /-- The marks of code points, by their number of digits. -/
  widths : List (Char × Nat)

/-- The character that an escape, without its backslash, stands for, and the
    rest of the text. -/
def Escapes.read? (e : Escapes) : List Char → Option (Char × List Char)
  | [] => none
  | mark :: cs =>
    match e.marks.lookup mark, e.widths.lookup mark with
    | some c, _ => some (c, cs)
    | none, some width => do
      guard (width ≤ cs.length)
      let c ← character? (← valueIn? 16 (cs.take width))
      return (c, cs.drop width)
    | none, none => none

end TableQuery.Text
