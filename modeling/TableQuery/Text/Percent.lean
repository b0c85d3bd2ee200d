/-
  Percent-encoding of the names and values of a query string.

  * `encode` keeps ASCII letters, digits and the marks `-_.~!'()*`, and
    escapes every byte of every other character;
  * `bytes` reads leniently: a `%` without two hexadecimal digits stands for
    itself;
  * `decode` reads strictly, with `+` for a space, and names the first
    malformed escape by the index of its `%` in the UTF-8 bytes of the text.
-/
import TableQuery.Text.Utf8

namespace TableQuery.Percent

/-- Why a text is not the encoding of any text. -/
inductive Fault where
  /-- The `%` at a byte index is not followed by two hexadecimal digits. -/
  | malformed (index : Nat)
  /-- The decoded bytes are not UTF-8. -/
  | notUtf8 (fault : Utf8.Fault)
  deriving DecidableEq, Repr

/-- The value of a hexadecimal digit, in either case. -/
def hexDigit? (c : Char) : Option Nat :=
  if '0' ≤ c ∧ c ≤ '9' then some (c.toNat - '0'.toNat)
  else if 'a' ≤ c ∧ c ≤ 'f' then some (c.toNat - 'a'.toNat + 10)
  else if 'A' ≤ c ∧ c ≤ 'F' then some (c.toNat - 'A'.toNat + 10)
  else none

/-- The byte written by two hexadecimal digits. -/
def hexByte? (high low : Char) : Option UInt8 :=
  match hexDigit? high, hexDigit? low with
  | some h, some l => some (UInt8.ofNat (16 * h + l))
  | _, _ => none

/-- A byte as `%` and two upper-case hexadecimal digits. -/
def escape (b : UInt8) : List Char :=
  ['%', (Nat.digitChar (b.toNat / 16)).toUpper, (Nat.digitChar (b.toNat % 16)).toUpper]

/-- The marks written as themselves, beside letters and digits. -/
def marks : List Char :=
  ['-', '_', '.', '~', '!', '\'', '(', ')', '*']

/-- Whether a character is written as itself. -/
def isKept (c : Char) : Bool :=
  c.isAlphanum || marks.contains c

def encodeChar (c : Char) : List Char :=
  if isKept c then [c] else (String.utf8EncodeChar c).flatMap escape

/-- A text as it stands in a query string. -/
def encode (cs : List Char) : List Char :=
  cs.flatMap encodeChar

/-- The bytes that a text spells: one for each escape, and those of every
    character outside of escapes. -/
def bytes : List Char → List UInt8
  | [] => []
  | c :: cs =>
    if c = '%' then
      match cs with
      | h :: l :: rest =>
        match hexByte? h l with
        | some b => b :: bytes rest
        | none => String.utf8EncodeChar c ++ bytes (h :: l :: rest)
      | [h] => String.utf8EncodeChar c ++ bytes [h]
      | [] => String.utf8EncodeChar c
    else String.utf8EncodeChar c ++ bytes cs

/-- The byte index of the first malformed escape of a text that begins at
    byte `index`. -/
def malformedFrom (index : Nat) : List Char → Option Nat
  | [] => none
  | c :: cs =>
    if c = '%' then
      match cs with
      | h :: l :: rest =>
        if (hexByte? h l).isSome then malformedFrom (index + 3) rest else some index
      | _ => some index
    else malformedFrom (index + c.utf8Size) cs

/-- The byte index of the first malformed escape. -/
def malformed? (cs : List Char) : Option Nat :=
  malformedFrom 0 cs

/-- A `+` stands for a space. -/
def spaced (cs : List Char) : List Char :=
  cs.map fun c => if c = '+' then ' ' else c

/-- The text that a name or value of a query string stands for. -/
def decode (cs : List Char) : Except Fault (List Char) :=
  match malformed? cs with
  | some index => .error (.malformed index)
  | none => (Utf8.decode (bytes (spaced cs))).mapError .notUtf8

end TableQuery.Percent
