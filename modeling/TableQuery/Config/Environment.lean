/-
  Settings from environment variables.

  A variable gives a setting if its name begins with `TABLE_ODATA_`, in any
  case. The rest of the name, in lower case, is the setting; blanks around
  either are dropped. What stands behind a point in it names a member of a
  group.

  The value is a truth value, a text in double quotes, a character in single
  quotes, an array in square brackets, a group in braces, or a bare word, which
  any bracket or comma ends: a number with a point, an integer of 64 bits or
  else a text. A value that is none of them as a whole is the text that it is.
-/
import TableQuery.Config.Settings
import TableQuery.Text.Escape

namespace TableQuery.Environment

/-! ## Names -/

/-- How the names of the variables begin, in lower case. -/
def family : List Char :=
  "table_odata_".toList

/-- The parts of the name of the setting that a variable is for, none of them
    empty. -/
def settingPath? (variableName : String) : Option (List String) :=
  let name := (Text.trim variableName.toList).map Char.toLower
  let parts := (Text.trim (name.drop family.length)).splitOn '.'
  if family.isPrefixOf name ∧ [] ∉ parts then some (parts.map String.ofList) else none

/-! ## Values -/

/-- Whether a character is skipped around values. -/
def isSkipped (c : Char) : Bool :=
  c = ' ' || c = '\t' || c = '\n' || c = '\r' || c = '\x0c'

/-- Whether a character ends a bare word. -/
def isSeparator (c : Char) : Bool :=
  c = ',' || c = '[' || c = ']' || c = '{' || c = '}'

def isNameChar (c : Char) : Bool :=
  c.isAlphanum || c = '_' || c = '-'

/-- Whether a text is a number with a point, after an optional sign. -/
def isPointed (cs : List Char) : Bool :=
  let unsigned := match cs with
    | '-' :: rest => rest
    | '+' :: rest => rest
    | rest => rest
  cs.contains '.' && (Decimal.ofText? unsigned).isSome

/-- The integer below zero, or zero, that a text with a minus denotes. -/
def negative? : List Char → Option Nat
  | '-' :: ds => if ds ≠ [] ∧ ds.all Char.isDigit then some (Decimal.valueOf ds) else none
  | _ => none

/-- The value that a bare word is. -/
def bare (cs : List Char) : Setting :=
  if isPointed cs then .other
  else
    match Decimal.natural? cs, negative? cs with
    | some n, _ => if n < Number.wordCount then .natural n else .text (String.ofList cs)
    | none, some n =>
      if n = 0 then .natural 0
      else if n ≤ Number.negativeCount then .other
      else .text (String.ofList cs)
    | none, none => .text (String.ofList cs)

def escapes : Text.Escapes :=
  ⟨[('"', '"'), ('\\', '\\'), ('b', '\x08'), ('f', '\x0c'), ('n', '\n'), ('r', '\r'), ('t', '\t')],
    [('u', 4), ('U', 8)]⟩

/-- The text up to the next quote that no backslash is before, as it is
    written, and what follows the quote. -/
def literal? : List Char → Option (List Char × List Char)
  | [] => none
  | '"' :: cs => some ([], cs)
  | '\\' :: c :: cs => (literal? cs).map fun (s, r) => ('\\' :: c :: s, r)
  | c :: cs => (literal? cs).map fun (s, r) => (c :: s, r)

/-- Whether a character may stand between quotes. -/
def isPrintable (c : Char) : Bool :=
  c = '\t' || decide (' ' ≤ c) && c ≠ '\x7F'

/-- The text that escapes and other characters stand for. -/
def unescaped? : Nat → List Char → Option (List Char)
  | 0, _ => none
  | _ + 1, [] => some []
  | fuel + 1, '\\' :: cs => do
    let (c, rest) ← escapes.read? cs
    return c :: (← unescaped? fuel rest)
  | fuel + 1, c :: cs => (unescaped? fuel cs).map (c :: ·)

/-- The text that a literal stands for. If there are escapes, the text before
    them is cut to as many bytes as it has characters. -/
def text? (s : List Char) : Option (List Char) := do
  guard (s.all isPrintable)
  let front := s.takeWhile (· ≠ '\\')
  let behind := s.dropWhile (· ≠ '\\')
  if behind = [] then return front
  return Utf8.takeBytes front.length front ++ (← unescaped? (behind.length + 1) behind)

/-- The text behind an opening quote, and the rest. -/
def quoted? (cs : List Char) : Option (List Char × List Char) := do
  let (s, rest) ← literal? cs
  return (← text? s, rest)

/-- The name before an equals sign, and what follows the sign. -/
def key? (cs : List Char) : Option (String × List Char) := do
  let cs := cs.dropWhile isSkipped
  let (name, rest) ← match cs with
    | '"' :: cs => quoted? cs
    | cs => if cs.head?.any isNameChar then some (cs.span isNameChar) else none
  match rest.dropWhile isSkipped with
  | '=' :: rest => some (String.ofList name, rest)
  | _ => none

mutual

/-- The value at the front of a text, and the rest. -/
def value? : Nat → List Char → Option (Setting × List Char)
  | 0, _ => none
  | fuel + 1, cs => do
    let (v, rest) ← match cs.dropWhile isSkipped with
      | 't' :: 'r' :: 'u' :: 'e' :: rest => some (.other, rest)
      | 'f' :: 'a' :: 'l' :: 's' :: 'e' :: rest => some (.other, rest)
      | '{' :: rest => (members? fuel rest).map fun (names, rest) =>
          (.group (Members.putAll [] (names.map fun name => (name, false))), rest)
      | '[' :: rest => (items? fuel rest).map fun rest => (.other, rest)
      | '"' :: rest => (quoted? rest).map fun (s, rest) => (.text (String.ofList s), rest)
      | '\'' :: c :: '\'' :: rest => some (.text (String.ofList [c]), rest)
      | '\'' :: _ => none
      | cs => some (bare (Text.trim (cs.takeWhile (!isSeparator ·))), cs.dropWhile (!isSeparator ·))
    return (v, rest.dropWhile isSkipped)

/-- What follows the bracket that closes an array. -/
def items? : Nat → List Char → Option (List Char)
  | 0, _ => none
  | _ + 1, ']' :: rest => some rest
  | fuel + 1, cs => do
    let (_, rest) ← value? fuel cs
    match rest with
    | ',' :: rest => items? fuel rest
    | ']' :: rest => some rest
    | _ => none

/-- The names of the members up to the brace that closes a group, and the rest.
    No value is null. -/
def members? : Nat → List Char → Option (List String × List Char)
  | 0, _ => none
  | _ + 1, '}' :: rest => some ([], rest)
  | fuel + 1, cs => do
    let (name, rest) ← key? cs
    let (_, rest) ← value? fuel rest
    match rest with
    | ',' :: rest => (members? fuel rest).map fun (names, rest) => (name :: names, rest)
    | '}' :: rest => some ([name], rest)
    | _ => none

end

/-- The setting that the value of a variable is. -/
def setting (value : String) : Setting :=
  let cs := value.toList
  match value? (2 * cs.length + 2) cs with
  | some (v, []) => v
  | _ => .text value

def settingsOf (name value : String) : Settings :=
  match settingPath? name with
  | some (s :: path) => [(s, (setting value).nest path)]
  | _ => []

/-- The settings that variables give, a later one going before an earlier. -/
def settings (environment : Members String) : Settings :=
  Settings.merge (environment.map fun (name, value) => settingsOf name value)

end TableQuery.Environment
