/-
  The ways in which a YAML document writes a text: plain, between quotes, or as
  a block of lines.

  Plain and quoted texts may go over lines. The blanks around a line break are
  dropped; a single break stands for a blank, and of several the first is
  dropped. A block keeps its lines behind their common margin; a folded one
  joins those that begin with no blank.
-/
import TableQuery.Text.Escape
import TableQuery.Yaml.Source

namespace TableQuery.Yaml

/-- A text that was read, and where reading goes on. -/
structure Taken where
  text : List Char
  rest : List Char
  place : Place

def Taken.behind (cs : List Char) (t : Taken) : Taken :=
  { t with text := cs ++ t.text }

/-! ## Between words -/

/-- What stands between two words. -/
structure Gap where
  /-- The blanks before the first line break. -/
  blanks : List Char
  breaks : List Char
  rest : List Char
  place : Place

/-- The gap at the front of a text. Behind a line break, `broken`, a tab may
    not stand left of the margin. -/
def gap? (margin : Nat) : Bool → Place → List Char → Option Gap
  | _, p, [] => some ⟨[], [], [], p⟩
  | broken, p, c :: cs =>
    if isBreak c then
      (gap? margin true (p.after c) cs).map fun g => { g with blanks := [], breaks := c :: g.breaks }
    else if isSpace c then
      if broken ∧ c = '\t' ∧ p.column < margin then none
      else (gap? margin broken (p.after c) cs).map fun g => { g with blanks := c :: g.blanks }
    else some ⟨[], [], c :: cs, p⟩

/-- What a gap stands for between two words. -/
def Gap.text (g : Gap) : List Char :=
  match g.breaks with
  | [] => g.blanks
  | ['\n'] => [' ']
  | '\n' :: more => more
  | breaks => breaks

/-! ## Plain -/

/-- The marks of a collection in brackets. -/
def isFlowMark (c : Char) : Bool :=
  c = ',' || c = '[' || c = ']' || c = '{' || c = '}'

/-- Marks with which no plain text begins. -/
def isIndicator (c : Char) : Bool :=
  isFlowMark c || ['-', '?', ':', '#', '&', '*', '!', '|', '>', '\'', '"', '%', '@', '`'].contains c

/-- Whether a plain text begins here, in brackets or not. -/
def startsPlain (flow : Bool) : List Char → Bool
  | [] => false
  | c :: cs =>
    !(isGap c || isIndicator c) || c = '-' && !(cs.head?.any isSpace)
      || !flow && (c = '?' || c = ':') && !atGap cs

/-- The word of a plain text at the front, which a colon before a gap ends, or
    in brackets one of their marks. -/
def word? (flow : Bool) : Place → List Char → Option Taken
  | p, [] => some ⟨[], [], p⟩
  | p, c :: cs =>
    if isGap c ∨ c = ':' ∧ atGap cs ∨ flow ∧ isFlowMark c then some ⟨[], c :: cs, p⟩
    else if flow ∧ c = ':' ∧ cs.head?.any (fun d => isFlowMark d || d = '?') then none
    else (word? flow (p.after c) cs).map (.behind [c])

/-- The plain text at the front, with every line behind the margin, and whether
    a line ended behind it. -/
def plain? (flow : Bool) (margin : Nat) : Nat → Place → List Char → Option (Taken × Bool)
  | 0, _, _ => none
  | fuel + 1, p, cs =>
    if isBound p cs ∨ cs.head? = some '#' then some (⟨[], cs, p⟩, false)
    else do
      let word ← word? flow p cs
      if !(word.rest.head?.any isGap) then return (word, false)
      let gap ← gap? margin false word.place word.rest
      let broken := gap.breaks ≠ []
      if !flow ∧ gap.place.column < margin then return (⟨word.text, gap.rest, gap.place⟩, broken)
      let (more, ended) ← plain? flow margin fuel gap.place gap.rest
      if more.text = [] then return ({ more with text := word.text }, broken)
      return (more.behind (word.text ++ gap.text), ended)

/-! ## Between quotes -/

def escapes : Text.Escapes :=
  ⟨[('0', '\x00'), ('a', '\x07'), ('b', '\x08'), ('t', '\t'), ('\t', '\t'), ('n', '\n'), ('v', '\x0b'),
      ('f', '\x0c'), ('r', '\r'), ('e', '\x1b'), (' ', ' '), ('"', '"'), ('/', '/'), ('\\', '\\'),
      ('N', '\x85'), ('_', '\xa0'), ('L', '\u2028'), ('P', '\u2029')],
    [('x', 2), ('u', 4), ('U', 8)]⟩

/-- The text up to the closing single quote, in which two stand for one. -/
def singleQuoted? : Nat → Place → List Char → Option Taken
  | 0, _, _ => none
  | fuel + 1, p, cs =>
    if isBound p cs then none
    else match cs with
      | [] => none
      | '\'' :: '\'' :: cs => (singleQuoted? fuel (p.behind ['\'', '\'']) cs).map (.behind ['\''])
      | '\'' :: cs => some ⟨[], cs, p.after '\''⟩
      | c :: cs =>
        if isGap c then do
          let gap ← gap? 0 false p (c :: cs)
          return (← singleQuoted? fuel gap.place gap.rest).behind gap.text
        else (singleQuoted? fuel (p.after c) cs).map (.behind [c])

/-- The text up to the closing double quote. A backslash before a line break
    drops it, together with the blanks at the front of the next line. -/
def doubleQuoted? : Nat → Place → List Char → Option Taken
  | 0, _, _ => none
  | fuel + 1, p, cs =>
    if isBound p cs then none
    else match cs with
      | [] => none
      | '"' :: cs => some ⟨[], cs, p.after '"'⟩
      | '\\' :: cs =>
        if cs.head?.any isBreak then do
          let gap ← gap? 0 false (p.after '\\') cs
          return (← doubleQuoted? fuel gap.place gap.rest).behind (gap.breaks.drop 1)
        else do
          let (c, rest) ← escapes.read? cs
          let escape := '\\' :: cs.take (cs.length - rest.length)
          (doubleQuoted? fuel (p.behind escape) rest).map (.behind [c])
      | c :: cs =>
        if isGap c then do
          let gap ← gap? 0 false p (c :: cs)
          return (← doubleQuoted? fuel gap.place gap.rest).behind gap.text
        else (doubleQuoted? fuel (p.after c) cs).map (.behind [c])

/-! ## Blocks -/

/-- Which line breaks at its end a block keeps. -/
inductive Chomping where
  | none
  | one
  | all
  deriving DecidableEq, Repr

/-- How a block is to be read. -/
structure BlockStyle where
  chomping : Chomping
  /-- The margin of the lines behind that of the block, unless the first line
      gives it. -/
  indent : Option Nat

/-- The chomping that a sign asks for. -/
def chomping? : List Char → Option (Chomping × List Char)
  | '+' :: cs => some (.all, cs)
  | '-' :: cs => some (.none, cs)
  | _ => none

/-- The indent that a digit asks for, which is not zero. -/
def indent? : List Char → Option (Nat × List Char)
  | c :: cs => if c.isDigit ∧ c ≠ '0' then some (c.toNat - '0'.toNat, cs) else none
  | [] => none

/-- The style of a block: a sign and a digit in either order. -/
def blockStyle (cs : List Char) : BlockStyle × List Char :=
  match chomping? cs with
  | some (chomping, cs) =>
    match indent? cs with
    | some (n, cs) => (⟨chomping, some n⟩, cs)
    | none => (⟨chomping, none⟩, cs)
  | none =>
    match indent? cs with
    | some (n, cs) =>
      match chomping? cs with
      | some (chomping, cs) => (⟨chomping, some n⟩, cs)
      | none => (⟨.one, some n⟩, cs)
    | none => (⟨.one, none⟩, cs)

/-- The breaks of the blank lines at the front, and the widest column that
    their blanks reach. The blanks of the line that follows are taken up to the
    margin, all of them if there is no margin yet; no tab may be among them. -/
def blankLines? (margin : Option Nat) : Nat → Place → List Char → Option (Taken × Nat)
  | widest, p, [] => some (⟨[], [], p⟩, max widest p.column)
  | widest, p, c :: cs =>
    let left := margin.all (p.column < ·)
    if c = ' ' ∧ left then blankLines? margin widest (p.after c) cs
    else if c = '\t' ∧ left then none
    else if isBreak c then
      (blankLines? margin (max widest p.column) (p.after c) cs).map fun (t, n) => (t.behind [c], n)
    else some (⟨[], c :: cs, p⟩, max widest p.column)

/-- What stands for the breaks between two lines of a block: those of `first`,
    the break of the upper one, and of the blank lines between. Folding joins
    the lines unless one of them begins with a blank. -/
def joint (folded : Bool) (first between : List Char) (indented : Bool) : List Char :=
  if folded ∧ first = ['\n'] ∧ !indented then
    if between = [] then [' '] else between
  else first ++ between

/-- The lines of a block from the margin on: the text behind what came before,
    which ended with the break `first` and the blank lines `between`. -/
def blockLines? (folded : Bool) (chomping : Chomping) (margin : Nat) :
    Nat → List Char → List Char → Bool → Place → List Char → Option Taken
  | 0, _, _, _, _, _ => none
  | fuel + 1, first, between, indented, p, cs =>
    if p.column = margin ∧ cs ≠ [] then do
      let begins := cs.head?.any isSpace
      let line := cs.takeWhile (!isBreak ·)
      let rest := cs.dropWhile (!isBreak ·)
      let place := if rest = [] then p.behind line else p.newLine
      let (blank, _) ← blankLines? (some margin) 0 place (rest.drop 1)
      let more ← blockLines? folded chomping margin fuel (rest.take 1) blank.text begins blank.place blank.rest
      return more.behind (joint folded first between (indented || begins) ++ line)
    else
      let kept := match chomping with
        | .none => []
        | .one => first
        | .all => first ++ between
      return ⟨kept, cs, p⟩

/-- The block whose opening mark is read, in a collection with the given
    margin. A comment may end its first line. -/
def block? (folded : Bool) (margin : Nat) (p : Place) (cs : List Char) : Option Taken := do
  let (style, cs) := blockStyle cs
  let cs := cs.dropWhile isSpace
  let cs := if cs.head? = some '#' then cs.dropWhile (!isBreak ·) else cs
  guard (cs.head?.all isBreak)
  let place := if cs = [] then p else p.newLine
  let given := style.indent.map fun n => (margin - 1) + n
  let (blank, widest) ← blankLines? given 0 place (cs.drop 1)
  let lines := given.getD (max (max widest margin) 1)
  blockLines? folded style.chomping lines (cs.length + 1) [] blank.text false blank.place blank.rest

end TableQuery.Yaml
