/-
  UTF-8: the characters that a sequence of bytes spells, or the first place
  where it spells none.

  A character takes one to four bytes. The first byte tells how many and
  narrows the range of the second, so that each character has one spelling
  and surrogates have none (`secondRange`). A fault names the index of the
  first byte of the broken character: either the text ends inside it, or its
  longest well-formed beginning has the given length.
-/
namespace TableQuery.Utf8

/-- Why bytes are not UTF-8. -/
inductive Fault where
  /-- `length` bytes from `start` on begin no character. -/
  | invalid (length start : Nat)
  /-- The bytes end inside the character that begins at `start`. -/
  | incomplete (start : Nat)
  deriving DecidableEq, Repr

def Fault.message : Fault → String
  | .invalid length start =>
    "invalid utf-8 sequence of " ++ toString length ++ " bytes from index " ++ toString start
  | .incomplete start => "incomplete utf-8 byte sequence from index " ++ toString start

def encode (cs : List Char) : List UInt8 :=
  cs.flatMap String.utf8EncodeChar

/-- The characters that lie within the first bytes of a text. -/
def takeBytes : Nat → List Char → List Char
  | n, c :: cs => if c.utf8Size ≤ n then c :: takeBytes (n - c.utf8Size) cs else []
  | _, [] => []

/-- The range of the second byte after a first byte of three or four. -/
def secondRange (first : UInt8) : UInt8 × UInt8 :=
  if first = 0xE0 then (0xA0, 0xBF)
  else if first = 0xED then (0x80, 0x9F)
  else if first = 0xF0 then (0x90, 0xBF)
  else if first = 0xF4 then (0x80, 0x8F)
  else (0x80, 0xBF)

/-- Whether a byte lies in an inclusive range. -/
def within (range : UInt8 × UInt8) (b : UInt8) : Bool :=
  decide (range.1 ≤ b) && decide (b ≤ range.2)

/-- Whether a byte can continue a character. -/
def continues (b : UInt8) : Bool :=
  within (0x80, 0xBF) b

/-- The six payload bits of a continuing byte, behind those already read. -/
def extend (value : Nat) (b : UInt8) : Nat :=
  value * 64 + b.toNat % 64

/-- The characters spelled by the bytes, the first of which has index `start`. -/
def decodeFrom (start : Nat) : List UInt8 → Except Fault (List Char)
  | [] => .ok []
  | a :: r =>
    if a < 0x80 then
      (decodeFrom (start + 1) r).map (Char.ofNat a.toNat :: ·)
    else if within (0xC2, 0xDF) a then
      match r with
      | [] => .error (.incomplete start)
      | b :: r =>
        if continues b then
          (decodeFrom (start + 2) r).map (Char.ofNat (extend (a.toNat % 32) b) :: ·)
        else .error (.invalid 1 start)
    else if within (0xE0, 0xEF) a then
      match r with
      | [] => .error (.incomplete start)
      | b :: r =>
        if within (secondRange a) b then
          match r with
          | [] => .error (.incomplete start)
          | c :: r =>
            if continues c then
              (decodeFrom (start + 3) r).map
                (Char.ofNat (extend (extend (a.toNat % 16) b) c) :: ·)
            else .error (.invalid 2 start)
        else .error (.invalid 1 start)
    else if within (0xF0, 0xF4) a then
      match r with
      | [] => .error (.incomplete start)
      | b :: r =>
        if within (secondRange a) b then
          match r with
          | [] => .error (.incomplete start)
          | c :: r =>
            if continues c then
              match r with
              | [] => .error (.incomplete start)
              | d :: r =>
                if continues d then
                  (decodeFrom (start + 4) r).map
                    (Char.ofNat (extend (extend (extend (a.toNat % 8) b) c) d) :: ·)
                else .error (.invalid 3 start)
            else .error (.invalid 2 start)
        else .error (.invalid 1 start)
    else .error (.invalid 1 start)

def decode (bytes : List UInt8) : Except Fault (List Char) :=
  decodeFrom 0 bytes

end TableQuery.Utf8
