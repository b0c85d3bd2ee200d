/-
  Links for export and download, which are not limited to the current page.

  The page parameters `count`, `top` and `skip`, with or without a `$`, are
  removed from the query of a link. Names are compared decoded; a piece without
  `=` and one whose name is no encoding of a text stay. A link without `?` is a
  bare query, and what follows the first `#` is not touched.
-/
import TableQuery.Text.Cut
import TableQuery.Text.Percent

namespace TableQuery.ExportLink

def windowNames : List (List Char) :=
  ["count".toList, "top".toList, "skip".toList]

/-- A name without its leading `$`. -/
def bareName : List Char → List Char
  | '$' :: name => name
  | name => name

/-- Whether a piece of a query is a parameter of the page window. -/
def isWindowPiece (piece : List Char) : Bool :=
  match Text.cut? '=' piece with
  | none => false
  | some (rawName, _) =>
    match Utf8.decode (Percent.bytes rawName) with
    | .ok name => windowNames.contains (bareName name)
    | .error _ => false

/-- The pieces of a query that stay. -/
def kept (query : List Char) : List (List Char) :=
  (query.splitOn '&').filter fun piece => piece ≠ [] && !isWindowPiece piece

/-- A link without fragment, stripped. -/
def stripQuery (link : List Char) : List Char :=
  match Text.cut? '?' link with
  | some (base, query) =>
    if kept query = [] then base else base ++ '?' :: List.intercalate ['&'] (kept query)
  | none => List.intercalate ['&'] (kept link)

/-- A link without the parameters of the page window. -/
def strip (link : String) : String :=
  String.ofList <|
    match Text.cut? '#' link.toList with
    | some (head, fragment) => stripQuery head ++ '#' :: fragment
    | none => stripQuery link.toList

end TableQuery.ExportLink
