/-
  The tokens of a YAML document.

  Outside of brackets the columns of the text decide about its structure. A
  collection begins where a line goes on further to the right than the
  collection around it, and ends where a line goes on further to the left:
  `blockSequence`, `blockMapping` and `blockEnd` stand for this. A name before
  a colon is known as one only when the colon is read, so the place of a
  possible name is kept, and `key` is put there then. Such a name stands on one
  line and is at most 1024 bytes long.

  `tokens?` gives all tokens, or nothing if something in the text is no token
  or stands where it may not.
-/
import TableQuery.Number.Decimal
import TableQuery.Yaml.Scalar
import TableQuery.Yaml.Tag

namespace TableQuery.Yaml

inductive Token where
  /-- The directive for the version, which has to be 1.1 or 1.2. -/
  | version
  /-- The directive for what a handle stands for. -/
  | meaning (m : Shorthand)
  /-- Three dashes, before a document. -/
  | document
  /-- Three points, behind a document. -/
  | documentEnd
  | blockSequence
  | blockMapping
  | blockEnd
  | flowSequence
  | flowSequenceEnd
  | flowMapping
  | flowMappingEnd
  /-- The dash before an item. -/
  | item
  /-- The comma in brackets. -/
  | comma
  | key
  | value
  | anchor (name : List Char)
  | alias (name : List Char)
  | tag (t : Shorthand)
  | scalar (plain : Bool) (text : List Char)
  deriving DecidableEq, Repr

def Token.isDirective : Token → Bool
  | .version | .meaning _ => true
  | _ => false

/-! ## Names and directives -/

/-- The name of an anchor or an alias, and the rest. -/
def anchorName? (cs : List Char) : Option (List Char × List Char) :=
  let name := cs.takeWhile isNameChar
  let rest := cs.dropWhile isNameChar
  if name ≠ [] ∧ rest.head?.all (fun c => isGap c || ['?', ':', ',', ']', '}', '%', '@', '`'].contains c) then
    some (name, rest)
  else none

/-- The rest of the text behind a version. -/
def version? (cs : List Char) : Option (List Char) := do
  let (major, cs) := Decimal.spanDigits cs
  guard (major ≠ [] ∧ major.length < 10 ∧ Decimal.valueOf major = 1)
  guard (cs.head? = some '.')
  let (minor, cs) := Decimal.spanDigits (cs.drop 1)
  guard (minor ≠ [] ∧ minor.length < 10 ∧ (Decimal.valueOf minor = 1 ∨ Decimal.valueOf minor = 2))
  return cs

/-- A directive behind its mark, and the lines behind it. A comment may end its
    line. -/
def directive? (cs : List Char) : Option (Token × List Char) := do
  let rest := cs.dropWhile isNameChar
  guard (rest.head?.any isSpace)
  let rest := rest.dropWhile isSpace
  let (t, rest) ← match String.ofList (cs.takeWhile isNameChar) with
    | "YAML" => (version? rest).map fun rest => (Token.version, rest)
    | "TAG" => (meaning? rest).map fun (m, rest) => (.meaning m, rest)
    | _ => none
  let rest := rest.dropWhile isSpace
  let rest := if rest.head? = some '#' then rest.dropWhile (!isBreak ·) else rest
  guard (rest.head?.all isBreak)
  return (t, rest.drop 1)

/-! ## Reading -/

/-- A name that a colon may follow. -/
structure PossibleKey where
  place : Place
  /-- Whether the collection around it allows nothing but a name here. -/
  required : Bool
  /-- The number of tokens before it. -/
  before : Nat

/-- What is read and what is to be read. -/
structure Reading where
  rest : List Char
  place : Place
  /-- The column behind that of the innermost block collection, or zero. -/
  margin : Nat
  /-- The margins of the collections around it. -/
  margins : List Nat
  /-- Whether a name may stand here. -/
  keyAllowed : Bool
  /-- The possible key outside of brackets. -/
  key : Option PossibleKey
  /-- The possible keys within brackets, innermost first. -/
  flowKeys : List (Option PossibleKey)
  /-- The tokens, last first. -/
  tokens : List Token

namespace Reading

def start (cs : List Char) : Reading :=
  ⟨cs, .start, 0, [], true, none, [], []⟩

/-- Whether brackets are open. -/
def inFlow (s : Reading) : Bool :=
  s.flowKeys ≠ []

/-- The possible key of the innermost brackets, or outside of any. -/
def current (s : Reading) : Option PossibleKey :=
  s.flowKeys.headD s.key

/-- The reading with another possible key in that place. -/
def setCurrent (s : Reading) (key : Option PossibleKey) : Reading :=
  match s.flowKeys with
  | [] => { s with key }
  | _ :: keys => { s with flowKeys := key :: keys }

/-- No colon comes any more for the current possible key. -/
def giveUpKey (s : Reading) : Option Reading :=
  match s.current with
  | some k => if k.required then none else some (s.setCurrent none)
  | none => some s

/-- A possible key, if a name may stand here. -/
def saveKey (s : Reading) : Option Reading :=
  if s.keyAllowed then do
    let s ← s.giveUpKey
    return s.setCurrent (some ⟨s.place, !s.inFlow && s.place.column + 1 = s.margin, s.tokens.length⟩)
  else some s

/-- A possible key, unless it is on an earlier line or too far away. -/
def fresh? (p : Place) : Option PossibleKey → Option (Option PossibleKey)
  | some k =>
    if k.place.line < p.line ∨ k.place.offset + 1024 < p.offset then
      if k.required then none else some none
    else some (some k)
  | none => some none

/-- Only possible keys that a colon may still follow. -/
def freshKeys (s : Reading) : Option Reading := do
  return { s with key := ← fresh? s.place s.key, flowKeys := ← s.flowKeys.mapM (fresh? s.place) }

/-- Further to the text, over blanks, comments and line ends. A tab is no blank
    where a name may stand; a byte order mark is one at the start of a line. -/
def passGap (flow : Bool) : Bool → Bool → Place → List Char → Bool × Place × List Char
  | _, keyAllowed, p, [] => (keyAllowed, p, [])
  | comment, keyAllowed, p, c :: cs =>
    if isBreak c then passGap flow false (keyAllowed || !flow) (p.after c) cs
    else if comment ∨ c = ' ' ∨ c = '\t' ∧ (flow ∨ !keyAllowed) ∨ c = '\uFEFF' ∧ p.column = 0 then
      passGap flow comment keyAllowed (p.after c) cs
    else if c = '#' then passGap flow true keyAllowed (p.after c) cs
    else (keyAllowed, p, c :: cs)

/-- The reading at the next token. -/
def pass (s : Reading) : Reading :=
  let (keyAllowed, place, rest) := passGap s.inFlow false s.keyAllowed s.place s.rest
  { s with keyAllowed, place, rest }

def push (s : Reading) (t : Token) : Reading :=
  { s with tokens := t :: s.tokens }

/-- The end of the block collections whose margin is right of another. -/
def closeBlocks (margin : Nat) : Nat → List Nat → List Token → Nat × List Nat × List Token
  | current, [], tokens => (current, [], tokens)
  | current, m :: ms, tokens =>
    if margin < current then closeBlocks margin m ms (.blockEnd :: tokens)
    else (current, m :: ms, tokens)

/-- The reading without the block collections whose margin is right of
    another; within brackets there are none to end. -/
def dedent (s : Reading) (margin : Nat) : Reading :=
  if s.inFlow then s
  else
    let (margin, margins, tokens) := closeBlocks margin s.margin s.margins s.tokens
    { s with margin, margins, tokens }

/-- A collection that begins at a column before the last `n` tokens, unless it
    has begun. -/
def indent (s : Reading) (t : Token) (column n : Nat) : Reading :=
  if !s.inFlow ∧ s.margin ≤ column then
    { s with
      margin := column + 1
      margins := s.margin :: s.margins
      tokens := s.tokens.insertIdx n t }
  else s

/-- Where the rest of the text is a shorter one. -/
def upTo (s : Reading) (rest : List Char) : Reading :=
  { s with rest, place := s.place.behind (s.rest.take (s.rest.length - rest.length)) }

def skip (s : Reading) : Reading :=
  match s.rest with
  | c :: rest => { s with rest, place := s.place.after c }
  | [] => s

/-- Where a scalar ended. -/
def take (s : Reading) (plain : Bool) (t : Taken) : Reading :=
  { s with rest := t.rest, place := t.place, tokens := .scalar plain t.text :: s.tokens }

/-- A mark of one character that ends what could be a key. -/
def mark (s : Reading) (t : Token) (keyAllowed : Bool) : Option Reading := do
  let s ← s.giveUpKey
  return { (s.push t).skip with keyAllowed }

def openFlow (s : Reading) (t : Token) : Option Reading := do
  let s ← s.saveKey
  return { (s.push t).skip with flowKeys := none :: s.flowKeys, keyAllowed := true }

def closeFlow (s : Reading) (t : Token) : Option Reading := do
  let s ← s.giveUpKey
  return { (s.push t).skip with flowKeys := s.flowKeys.drop 1, keyAllowed := false }

/-- A directive or the bound of a document, before which all blocks end. -/
def boundary (s : Reading) (t : Token) (rest : List Char) : Option Reading := do
  let s ← (s.dedent 0).giveUpKey
  return { (s.push t).upTo rest with keyAllowed := false }

/-- A dash or question mark before a gap, at which a collection may begin. -/
def blockMark (s : Reading) (collection t : Token) (keyAllowed : Bool) : Option Reading := do
  guard (s.inFlow ∨ s.keyAllowed)
  (s.indent collection s.place.column 0).mark t keyAllowed

def colon (s : Reading) : Option Reading :=
  match s.current with
  | some k =>
    let n := s.tokens.length - k.before
    let s := { s.setCurrent none with tokens := s.tokens.insertIdx n .key }
    let s := s.indent .blockMapping k.place.column (n + 1)
    some { (s.push .value).skip with keyAllowed := false }
  | none => do
    guard (s.inFlow ∨ s.keyAllowed)
    let s := s.indent .blockMapping s.place.column 0
    return { (s.push .value).skip with keyAllowed := !s.inFlow }

/-- An anchor, an alias or a tag, of which one character is its mark. -/
def property {α : Type} (s : Reading) (t : α → Token) (read? : List Char → Option (α × List Char)) :
    Option Reading := do
  let s ← s.saveKey
  let (a, rest) ← read? (s.rest.drop 1)
  return { (s.push (t a)).upTo rest with keyAllowed := false }

def quoted (s : Reading) (read : Nat → Place → List Char → Option Taken) : Option Reading := do
  let s ← s.saveKey
  let s := s.skip
  let t ← read (s.rest.length + 1) s.place s.rest
  return { s.take false t with keyAllowed := false }

def block (s : Reading) (folded : Bool) : Option Reading := do
  let s ← s.giveUpKey
  let s := s.skip
  let t ← block? folded s.margin s.place s.rest
  return { s.take false t with keyAllowed := true }

def plain (s : Reading) : Option Reading := do
  guard (startsPlain s.inFlow s.rest)
  let s ← s.saveKey
  let (t, ended) ← plain? s.inFlow s.margin (s.rest.length + 1) s.place s.rest
  return { s.take true t with keyAllowed := ended }

def next (s : Reading) : Option Reading :=
  let behind := s.rest.drop 1
  if s.place.column = 0 ∧ s.rest.head? = some '%' then do
    let (t, rest) ← directive? behind
    s.boundary t rest
  else if isBound s.place s.rest then
    s.boundary (if s.rest.head? = some '-' then .document else .documentEnd) (s.rest.drop 3)
  else
    match s.rest.head? with
    | some '[' => s.openFlow .flowSequence
    | some '{' => s.openFlow .flowMapping
    | some ']' => s.closeFlow .flowSequenceEnd
    | some '}' => s.closeFlow .flowMappingEnd
    | some ',' => s.mark .comma true
    | some '-' => if atGap behind then s.blockMark .blockSequence .item true else s.plain
    | some '?' => if s.inFlow ∨ atGap behind then s.blockMark .blockMapping .key (!s.inFlow) else s.plain
    | some ':' => if s.inFlow ∨ atGap behind then s.colon else s.plain
    | some '*' => s.property .alias anchorName?
    | some '&' => s.property .anchor anchorName?
    | some '!' => s.property .tag (tag? s.inFlow)
    | some '\'' => s.quoted singleQuoted?
    | some '"' => s.quoted doubleQuoted?
    | some '|' => if s.inFlow then none else s.block false
    | some '>' => if s.inFlow then none else s.block true
    | _ => s.plain

/-- All tokens. Each takes a character at least, so there is fuel enough if
    there is more than there are characters. -/
def run : Nat → Reading → Option (List Token)
  | 0, _ => none
  | fuel + 1, s => do
    let s ← s.pass.freshKeys
    if s.rest = [] then
      let s ← (s.dedent 0).giveUpKey
      return s.tokens.reverse
    else run fuel (← (s.dedent (s.place.column + 1)).next)

end Reading

def tokens? (cs : List Char) : Option (List Token) :=
  (Reading.start cs).run (cs.length + 1)

end TableQuery.Yaml
