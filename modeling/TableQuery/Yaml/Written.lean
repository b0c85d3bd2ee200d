/-
  The nodes of a YAML document as they are written.

  A node is a scalar, a sequence or a mapping, each of which may have a tag, or
  an alias for another. A missing node between two marks is an empty plain
  scalar.

  An anchor gets a number where its node begins: the number of names that are
  known there, its own among them or not. An alias takes the number that its
  name has where the alias stands.

  `ofTokens?` reads the only document of some tokens. Of the fuel, every
  function spends one unit before it calls another, and of three calls in a row
  at least one takes a token.
-/
import TableQuery.Yaml.Token

namespace TableQuery.Yaml

/-- A node as it is written. -/
inductive Written where
  | scalar (tag : Option Tag) (plain : Bool) (text : String)
  | sequence (tag : Option Tag) (items : List Written)
  | mapping (tag : Option Tag) (pairs : List (Written × Written))
  /-- A node behind an anchor. -/
  | anchored (number : Nat) (node : Written)
  | alias (number : Nat)
  deriving Repr

namespace Written

/-- The node that stands for a missing one. -/
def empty : Written :=
  .scalar none true ""

/-- What is to be read, and what is known. -/
structure Pending where
  tokens : List Token
  /-- The number of each name of an anchor. -/
  numbers : List (List Char × Nat)
  /-- What handles stand for. -/
  meanings : List Shorthand

abbrev Reads := StateT Pending Option

def peek : Reads (Option Token) := do
  return (← get).tokens.head?

/-- Whether the next token is one of the given. -/
def isNext (ts : List Token) : Reads Bool := do
  return (← peek).any ts.contains

def pass : Reads Unit :=
  modify fun s => { s with tokens := s.tokens.drop 1 }

def numberOf (name : List Char) : Reads Nat := do
  match (← get).numbers.lookup name with
  | some number => return number
  | none => failure

/-- The number of a new anchor. -/
def newNumber (name : List Char) : Reads Nat := do
  let number := (← get).numbers.length
  modify fun s => { s with numbers := (name, number) :: s.numbers.filter (·.1 ≠ name) }
  return number

/-- What a tag says. -/
def fullTag (tag : Shorthand) : Reads (Option Tag) := do
  match tag.full? (← get).meanings with
  | some octets => return Tag.ofOctets? octets
  | none => failure

/-- The anchor and the tag of a node, in either order. -/
def properties : Reads (Option (List Char) × Option Shorthand) := do
  match ← peek with
  | some (.anchor name) =>
    pass
    match ← peek with
    | some (.tag tag) => pass; return (some name, some tag)
    | _ => return (some name, none)
  | some (.tag tag) =>
    pass
    match ← peek with
    | some (.anchor name) => pass; return (some name, some tag)
    | _ => return (none, some tag)
  | _ => return (none, none)

mutual

/-- A node. In a block mapping the items of a sequence may stand in the column
    of their key, `indentless`. -/
def read : Nat → Bool → Bool → Reads Written
  | 0, _, _ => failure
  | fuel + 1, block, indentless => do
    if let some (.alias name) ← peek then
      pass
      return .alias (← numberOf name)
    let (anchor, tag) ← properties
    let proper := anchor.isSome || tag.isSome
    let tag ← match tag with
      | some tag => fullTag tag
      | none => pure none
    match anchor with
    | none => content fuel block indentless proper tag
    | some name =>
      let number ← newNumber name
      return .anchored number (← content fuel block indentless proper tag)

/-- A node without its properties; if it has some, nothing else is needed. -/
def content : Nat → Bool → Bool → Bool → Option Tag → Reads Written
  | 0, _, _, _, _ => failure
  | fuel + 1, block, indentless, proper, tag => do
    match ← peek with
    | some (.scalar plain text) => pass; return .scalar tag plain (String.ofList text)
    | some .flowSequence => pass; return .sequence tag (← flowItems fuel true)
    | some .flowMapping => pass; return .mapping tag (← flowPairs fuel true)
    | some .blockSequence =>
      if !block then failure
      pass
      return .sequence tag (← blockItems fuel)
    | some .blockMapping =>
      if !block then failure
      pass
      return .mapping tag (← blockPairs fuel)
    | t =>
      if indentless ∧ t = some .item then return .sequence tag (← indentlessItems fuel)
      if proper then return .scalar tag true ""
      failure

def blockItems : Nat → Reads (List Written)
  | 0 => failure
  | fuel + 1 => do
    match ← peek with
    | some .item =>
      pass
      let n ← if ← isNext [.item, .blockEnd] then pure empty else read fuel true false
      return n :: (← blockItems fuel)
    | some .blockEnd => pass; return []
    | _ => failure

/-- The items of a sequence in the column of its key. -/
def indentlessItems : Nat → Reads (List Written)
  | 0 => failure
  | fuel + 1 => do
    if ← isNext [.item] then
      pass
      let n ← if ← isNext [.item, .key, .value, .blockEnd] then pure empty else read fuel true false
      return n :: (← indentlessItems fuel)
    else return []

def blockPairs : Nat → Reads (List (Written × Written))
  | 0 => failure
  | fuel + 1 => do
    match ← peek with
    | some .key =>
      pass
      let k ← if ← isNext [.key, .value, .blockEnd] then pure empty else read fuel true true
      let v ← blockValue fuel
      return (k, v) :: (← blockPairs fuel)
    | some .blockEnd => pass; return []
    | _ => failure

def blockValue : Nat → Reads Written
  | 0 => failure
  | fuel + 1 => do
    if ← isNext [.value] then
      pass
      if ← isNext [.key, .value, .blockEnd] then return empty else read fuel true true
    else return empty

/-- The items of a sequence in brackets. An item with a key is a mapping of a
    single pair; if its key is missing, the mark behind it is passed over. -/
def flowItems : Nat → Bool → Reads (List Written)
  | 0, _ => failure
  | fuel + 1, first => do
    if ← isNext [.flowSequenceEnd] then pass; return []
    if !first then
      if !(← isNext [.comma]) then failure
      pass
    match ← peek with
    | some .flowSequenceEnd => pass; return []
    | some .key =>
      pass
      let k ← if ← isNext [.value, .comma, .flowSequenceEnd] then do pass; pure empty
        else read fuel false false
      let v ← flowValue fuel .flowSequenceEnd
      return .mapping none [(k, v)] :: (← flowItems fuel false)
    | _ =>
      let n ← read fuel false false
      return n :: (← flowItems fuel false)

def flowPairs : Nat → Bool → Reads (List (Written × Written))
  | 0, _ => failure
  | fuel + 1, first => do
    if ← isNext [.flowMappingEnd] then pass; return []
    if !first then
      if !(← isNext [.comma]) then failure
      pass
    match ← peek with
    | some .flowMappingEnd => pass; return []
    | some .key =>
      pass
      let k ← if ← isNext [.value, .comma, .flowMappingEnd] then pure empty else read fuel false false
      let v ← flowValue fuel .flowMappingEnd
      return (k, v) :: (← flowPairs fuel false)
    | _ =>
      let k ← read fuel false false
      return (k, empty) :: (← flowPairs fuel false)

def flowValue : Nat → Token → Reads Written
  | 0, _ => failure
  | fuel + 1, ending => do
    if ← isNext [.value] then
      pass
      if ← isNext [.comma, ending] then return empty else read fuel false false
    else return empty

end

/-- The directives before a document: one for the version at most, and one for
    each handle. -/
def directives : Reads (List Token) := do
  let s ← get
  let ts := s.tokens.takeWhile Token.isDirective
  let meanings := ts.filterMap fun
    | .meaning m => some m
    | _ => none
  guard (ts.count .version ≤ 1 ∧ (meanings.map Shorthand.handle).Nodup)
  set { s with tokens := s.tokens.drop ts.length, meanings := meanings ++ standardMeanings }
  return ts

/-- The root of the first document, if there is a document. -/
def root (fuel : Nat) : Reads (Option Written) := do
  let directives ← directives
  if ← isNext [.document] then
    pass
    match ← peek with
    | none | some .version | some (.meaning _) | some .document | some .documentEnd => return some empty
    | _ => return some (← read fuel true false)
  else
    guard (directives = [])
    match ← peek with
    | none => return none
    | _ => return some (← read fuel true false)

/-- The root of the only document, if there is one; `none` if it cannot be read
    or there is a second document. -/
def ofTokens? (tokens : List Token) : Option (Option Written) := do
  let (w, rest) ← (root (3 * tokens.length + 3)).run ⟨tokens, [], []⟩
  guard (rest.tokens.all (· = .documentEnd))
  return w

end Written

end TableQuery.Yaml
