/-
  The text of a YAML document: its characters, its lines and the places in it.

  A line feed, a carriage return, both in this order, and a next-line character
  end a line and are the same. The line separator and the paragraph separator
  end a line as well, but count as themselves where a value goes over it.

  Places count characters; how far apart two places of a line are is counted in
  bytes.
-/
namespace TableQuery.Yaml

def isAllowed (c : Char) : Bool :=
  let n := c.toNat
  c = '\t' || c = '\n' || c = '\r' || n = 0x85
    || decide (0x20 ≤ n ∧ n ≤ 0x7E) || decide (0xA0 ≤ n ∧ n ≤ 0xFFFD)
    || decide (0x10000 ≤ n)

/-- The text with a line feed at the end of its lines. -/
def feedLines : List Char → List Char
  | '\r' :: '\n' :: cs => '\n' :: feedLines cs
  | c :: cs => (if c = '\r' ∨ c = '\x85' then '\n' else c) :: feedLines cs
  | [] => []

def source? (document : String) : Option (List Char) :=
  let cs := document.toList
  if cs.all isAllowed then some (feedLines cs) else none

def isBreak (c : Char) : Bool :=
  c = '\n' || c = '\u2028' || c = '\u2029'

/-- Whether a character is a blank within a line. -/
def isSpace (c : Char) : Bool :=
  c = ' ' || c = '\t'

/-- Whether a character stands between words. -/
def isGap (c : Char) : Bool :=
  isSpace c || isBreak c

/-- Whether a text is over or goes on between words. -/
def atGap (cs : List Char) : Bool :=
  cs.head?.all isGap

/-- A place in a document. -/
structure Place where
  line : Nat
  column : Nat
  /-- The number of bytes before it in its line. -/
  offset : Nat
  deriving DecidableEq, Repr

namespace Place

def start : Place :=
  ⟨0, 0, 0⟩

def newLine (p : Place) : Place :=
  ⟨p.line + 1, 0, 0⟩

def after (p : Place) (c : Char) : Place :=
  if isBreak c then p.newLine else ⟨p.line, p.column + 1, p.offset + c.utf8Size⟩

def behind (p : Place) (cs : List Char) : Place :=
  cs.foldl after p

end Place

/-- Whether three marks alone, at the start of a line, bound a document. -/
def isBound (p : Place) (cs : List Char) : Bool :=
  p.column = 0 && atGap (cs.drop 3) && (cs.take 3 = ['-', '-', '-'] || cs.take 3 = ['.', '.', '.'])

end TableQuery.Yaml
