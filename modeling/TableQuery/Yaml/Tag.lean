/-
  The tags of a YAML document.

  A tag stands behind a `!`: in full between angle brackets, or as a handle and
  what follows it. `!` alone, `!!` and `!name!` are handles; a directive says
  what a handle stands for, and the first two have a meaning without one. The
  octets of a tag may be written as escapes, those of a character in a row. An
  octet of zero ends a tag.

  In full, a tag is one of the core schema, one that begins with `!` and whose
  name has a meaning of its own, or another, which says nothing but that a
  scalar is a text.
-/
import TableQuery.Text.Percent
import TableQuery.Yaml.Source

namespace TableQuery.Yaml

/-! ## As it is written -/

/-- Whether a character may stand in a handle or in the name of an anchor. -/
def isNameChar (c : Char) : Bool :=
  c.isAlphanum || c = '_' || c = '-'

def isTagChar (c : Char) : Bool :=
  isNameChar c || [';', '/', '?', ':', '@', '&', '=', '+', '$', '.', '!', '~', '*', '\'', '(', ')'].contains c

/-- Whether a character may stand in a tag that is written in full. -/
def isFullTagChar (c : Char) : Bool :=
  isTagChar c || c = ',' || c = '[' || c = ']'

/-- The number of octets that follow an octet in a character, unless none
    begins with it. -/
def following? (b : UInt8) : Option Nat :=
  if b < 0x80 then some 0
  else if b < 0xC0 then none
  else if b < 0xE0 then some 1
  else if b < 0xF0 then some 2
  else if b < 0xF8 then some 3
  else none

/-- The octets at the front of a text, written as allowed characters or as
    escapes, and the rest. The given number of escapes has to follow in a
    character. -/
def octets? (allowed : Char → Bool) : Nat → List Char → Option (List UInt8 × List Char)
  | 0, '%' :: high :: low :: cs => do
    let b ← Percent.hexByte? high low
    (octets? allowed (← following? b) cs).map fun (bs, rest) => (b :: bs, rest)
  | n + 1, '%' :: high :: low :: cs => do
    let b ← Percent.hexByte? high low
    guard (Utf8.continues b)
    (octets? allowed n cs).map fun (bs, rest) => (b :: bs, rest)
  | 0, c :: cs =>
    if c = '%' then none
    else if allowed c then (octets? allowed 0 cs).map fun (bs, rest) => (String.utf8EncodeChar c ++ bs, rest)
    else some ([], c :: cs)
  | 0, [] => some ([], [])
  | _ + 1, _ => none

/-- A handle with octets: those behind it in a tag, or those that it stands
    for. A tag that is written in full has an empty handle. -/
structure Shorthand where
  handle : List Char
  octets : List UInt8
  deriving DecidableEq, Repr

/-- Some octets with their handle, at least one, and the rest. -/
def Shorthand.read? (handle : List Char) (allowed : Char → Bool) (cs : List Char) :
    Option (Shorthand × List Char) := do
  let (octets, rest) ← octets? allowed 0 cs
  guard (octets ≠ [])
  return (⟨handle, octets.takeWhile (· ≠ 0)⟩, rest)

def namedHandle (name : List Char) : List Char :=
  '!' :: name ++ ['!']

/-- The tag that is `!` and nothing else. -/
def bareTag : Shorthand :=
  ⟨[], Utf8.encode ['!']⟩

/-- The tag behind its `!`, and the rest. -/
def Shorthand.ofText? (cs : List Char) : Option (Shorthand × List Char) :=
  match cs, cs.dropWhile isNameChar with
  | '<' :: cs, _ => do
    let (tag, rest) ← Shorthand.read? [] isFullTagChar cs
    guard (rest.head? = some '>')
    return (tag, rest.drop 1)
  | cs, '!' :: rest => Shorthand.read? (namedHandle (cs.takeWhile isNameChar)) isTagChar rest
  | cs, _ => do
    let (octets, rest) ← octets? isTagChar 0 cs
    let octets := octets.takeWhile (· ≠ 0)
    return (if octets = [] then bareTag else ⟨['!'], octets⟩, rest)

/-- The tag behind its `!`, which a gap ends or, in brackets, a comma, and the
    rest. -/
def tag? (flow : Bool) (cs : List Char) : Option (Shorthand × List Char) := do
  let (tag, rest) ← Shorthand.ofText? cs
  guard (atGap rest ∨ flow ∧ rest.head? = some ',')
  return (tag, rest)

/-- The handle at the front of a text, and the rest. -/
def handle? : List Char → Option (List Char × List Char)
  | '!' :: cs =>
    let name := cs.takeWhile isNameChar
    match cs.dropWhile isNameChar with
    | '!' :: rest => some (namedHandle name, rest)
    | rest => if name = [] then some (['!'], rest) else none
  | _ => none

/-- A handle with what it stands for, as a directive says it, and the rest. -/
def meaning? (cs : List Char) : Option (Shorthand × List Char) := do
  let (handle, rest) ← handle? cs
  guard (rest.head?.any isSpace)
  let (meaning, rest) ← Shorthand.read? handle isFullTagChar (rest.dropWhile isSpace)
  guard (atGap rest)
  return (meaning, rest)

/-! ## In full -/

/-- What the tags of the core schema begin with. -/
def coreTag : List Char :=
  "tag:yaml.org,2002:".toList

/-- What handles stand for if no directive says it. -/
def standardMeanings : List Shorthand :=
  [⟨['!'], Utf8.encode ['!']⟩, ⟨['!', '!'], Utf8.encode coreTag⟩]

/-- The octets of a tag in full, if its handle has a meaning. -/
def Shorthand.full? (meanings : List Shorthand) (tag : Shorthand) : Option (List UInt8) :=
  if tag.handle = [] then some tag.octets
  else (meanings.find? (·.handle = tag.handle)).map (·.octets ++ tag.octets)

/-- What a tag says. -/
inductive Tag where
  /-- A tag that begins with `!`, by the name behind it; the tag `!` is its own
      name. -/
  | own (name : String)
  | null
  | truth
  | integer
  | number
  | other
  deriving DecidableEq, Repr

/-- The tags of the core schema that ask for a kind of value. -/
def coreTags : List (List UInt8 × Tag) :=
  [("null", Tag.null), ("bool", .truth), ("int", .integer), ("float", .number)].map fun (name, tag) =>
    (Utf8.encode (coreTag ++ name.toList), tag)

/-- What the tag of some octets says; nothing, if the name behind a `!` is no
    text. -/
def Tag.ofOctets? (octets : List UInt8) : Option Tag :=
  if octets.head? = some 0x21 then
    match Utf8.decode (if octets.length = 1 then octets else octets.drop 1) with
    | .ok name => some (.own (String.ofList name))
    | .error _ => none
  else some ((coreTags.lookup octets).getD .other)

end TableQuery.Yaml
