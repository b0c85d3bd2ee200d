/-
  Reading a JSON document.

  The reader takes the whole text or nothing. An object that names a member
  twice keeps the first place and the last value. A number beyond the doubles,
  an unpaired surrogate and an unescaped control character are refused.

  Every step that goes on spends one unit of fuel and two steps at most are
  taken for each character, so `read?` gives enough of it.
-/
import TableQuery.Json
import TableQuery.Text.Percent

namespace TableQuery.Json.Reader

/-- The text from its first character that is no JSON blank. -/
def skipBlank (cs : List Char) : List Char :=
  cs.dropWhile fun c => c = ' ' || c = '\t' || c = '\n' || c = '\r'

/-- The number at the front of a text, and the rest. -/
def number? (cs : List Char) : Option (Json × List Char) := do
  let (negative, cs) := match cs with
    | '-' :: r => (true, r)
    | r => (false, r)
  let (whole, rest) := Decimal.spanDigits cs
  guard (whole ≠ [] ∧ (whole.head? ≠ some '0' ∨ whole.length = 1))
  let (part, afterPoint) := Decimal.fraction rest
  guard (rest.head? = some '.' → part ≠ [])
  let (exponent, afterMark) ← Decimal.exponent? afterPoint
  let n ← if afterMark.length = rest.length then Number.ofInteger? negative (Decimal.valueOf whole)
    else (Binary64.ofDecimal? negative (Decimal.ofParts whole part exponent)).map .double
  return (.number n, afterMark)

/-- The value of four hexadecimal digits, and the rest. -/
def unit? : List Char → Option (Nat × List Char)
  | a :: b :: c :: d :: rest => do
    let a ← Percent.hexDigit? a
    let b ← Percent.hexDigit? b
    let c ← Percent.hexDigit? c
    let d ← Percent.hexDigit? d
    return (((a * 16 + b) * 16 + c) * 16 + d, rest)
  | _ => none

/-- The character of a `\u` escape, of two where it begins with a surrogate. -/
def unicode? (cs : List Char) : Option (Char × List Char) := do
  let (high, rest) ← unit? cs
  if 0xD800 ≤ high ∧ high < 0xDC00 then
    match rest with
    | '\\' :: 'u' :: rest =>
      let (low, rest) ← unit? rest
      guard (0xDC00 ≤ low ∧ low < 0xE000)
      return (Char.ofNat (0x10000 + (high - 0xD800) * 0x400 + (low - 0xDC00)), rest)
    | _ => none
  else
    guard (high < 0xD800 ∨ 0xE000 ≤ high)
    return (Char.ofNat high, rest)

/-- The character that an escape without digits stands for. -/
def simpleEscape? (c : Char) : Option Char :=
  [('"', '"'), ('\\', '\\'), ('/', '/'), ('b', '\x08'), ('f', '\x0c'), ('n', '\n'), ('r', '\r'),
    ('t', '\t')].lookup c

/-- The text up to the closing quote, and the rest; `done` is reversed. -/
def text? : Nat → List Char → List Char → Option (String × List Char)
  | 0, _, _ => none
  | fuel + 1, done, cs =>
    match cs with
    | '"' :: rest => some (String.ofList done.reverse, rest)
    | '\\' :: 'u' :: rest => do
      let (c, rest) ← unicode? rest
      text? fuel (c :: done) rest
    | '\\' :: c :: rest => do
      let c ← simpleEscape? c
      text? fuel (c :: done) rest
    | c :: rest => if c < ' ' ∨ c = '\\' then none else text? fuel (c :: done) rest
    | [] => none

mutual

/-- The value at the front of a text, and the rest. -/
def value? : Nat → List Char → Option (Json × List Char)
  | 0, _ => none
  | fuel + 1, cs =>
    match skipBlank cs with
    | 'n' :: 'u' :: 'l' :: 'l' :: rest => some (.null, rest)
    | 't' :: 'r' :: 'u' :: 'e' :: rest => some (.bool true, rest)
    | 'f' :: 'a' :: 'l' :: 's' :: 'e' :: rest => some (.bool false, rest)
    | '"' :: rest => (text? fuel [] rest).map fun (s, rest) => (.text s, rest)
    | '[' :: rest =>
      match skipBlank rest with
      | ']' :: rest => some (.array [], rest)
      | rest => (items? fuel [] rest).map fun (items, rest) => (.array items, rest)
    | '{' :: rest =>
      match skipBlank rest with
      | '}' :: rest => some (.object [], rest)
      | rest => (members? fuel [] rest).map fun (ms, rest) => (.object ms, rest)
    | rest => number? rest

/-- The items up to the closing bracket, and the rest; `done` is reversed. -/
def items? : Nat → List Json → List Char → Option (List Json × List Char)
  | 0, _, _ => none
  | fuel + 1, done, cs => do
    let (item, rest) ← value? fuel cs
    match skipBlank rest with
    | ',' :: rest => items? fuel (item :: done) rest
    | ']' :: rest => some ((item :: done).reverse, rest)
    | _ => none

/-- The members up to the closing brace, and the rest. -/
def members? : Nat → Members Json → List Char → Option (Members Json × List Char)
  | 0, _, _ => none
  | fuel + 1, done, cs =>
    match skipBlank cs with
    | '"' :: rest => do
      let (name, rest) ← text? fuel [] rest
      match skipBlank rest with
      | ':' :: rest =>
        let (value, rest) ← value? fuel rest
        match skipBlank rest with
        | ',' :: rest => members? fuel (done.put name value) rest
        | '}' :: rest => some (done.put name value, rest)
        | _ => none
      | _ => none
    | _ => none

end

end Reader

def read? (document : String) : Option Json :=
  let cs := document.toList
  match Reader.value? (2 * cs.length + 2) cs with
  | some (v, rest) => if Reader.skipBlank rest = [] then some v else none
  | none => none

end TableQuery.Json
