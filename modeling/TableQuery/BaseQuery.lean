/-
  The base query: a query string that a table starts from.

  Of its parameters only `filter`, `orderby` and `expand` take part, each also
  with a `$` before its name. Every piece between `&` has to have a name, and
  names and values have to be encodings of texts, whether they take part or
  not. Of pieces with one name the first counts, even if it is empty; a value
  under the plain name goes before one under the name with `$`, unless it is
  empty; an empty value is no value.
-/
import TableQuery.Error
import TableQuery.Text.Blank
import TableQuery.Text.Cut

namespace TableQuery

/-- The parts of a query that a table starts from. -/
structure BaseQuery where
  filter : Option String
  orderby : Option String
  expand : Option String
  deriving DecidableEq, Repr

namespace BaseQuery

def empty : BaseQuery :=
  ⟨none, none, none⟩

/-- The value that a list of raw characters encodes. -/
def decodeText (raw : List Char) : Except BaseQueryFault (List Char) :=
  (Percent.decode raw).mapError (.encoding (String.ofList raw))

/-- The name and value of a piece; a piece without `=` has the empty value. -/
def readPiece (piece : List Char) : Except BaseQueryFault (String × String) := do
  let (rawName, rawValue) := (Text.cut? '=' piece).getD (piece, [])
  let name ← decodeText rawName
  if name = [] then throw (.nameless (String.ofList piece))
  let value ← decodeText rawValue
  return (String.ofList name, String.ofList value)

/-- The pieces of a query string, with or without a `?` before them. -/
def pieces (raw : List Char) : List (List Char) :=
  let query := match raw with
    | '?' :: rest => rest
    | rest => rest
  (query.splitOn '&').filter (· ≠ [])

def nonEmpty (value : Option String) : Option String :=
  value.filter (· ≠ "")

/-- The value of a part: the first under its plain name, unless that is empty,
    else the first under its name with `$`. -/
def part (pairs : List (String × String)) (name : String) : Option String :=
  (nonEmpty (pairs.lookup name)).or (nonEmpty (pairs.lookup ("$" ++ name)))

def ofPairs (pairs : List (String × String)) : BaseQuery :=
  ⟨part pairs "filter", part pairs "orderby", part pairs "expand"⟩

def parse (raw : String) : Except BaseQueryFault BaseQuery :=
  ((pieces raw.toList).mapM readPiece).map ofPairs

/-- The base query of a query string that may be missing or blank. -/
def parse? : Option String → Except BaseQueryFault BaseQuery
  | none => .ok empty
  | some raw =>
    let cs := Text.trim raw.toList
    if cs = [] ∨ cs = ['?'] then .ok empty else parse (String.ofList cs)

end BaseQuery

end TableQuery
