/-
  Why a query cannot be composed.

  Every stage has its own causes: reading the page window, the parameters, the
  base query and the configuration. `QueryError` collects them; its `message`
  is the only place where they are put in words. `ShapeFault` says why a JSON
  document is not read as the data of a table.
-/
import TableQuery.Number
import TableQuery.Page.Key
import TableQuery.Text.Percent

namespace TableQuery

/-- What is wrong with a page window. -/
inductive PageFault where
  | missing (key : PageKey)
  | notNaturalNumber (key : PageKey) (n : Number)
  | notNaturalText (key : PageKey) (s : String)
  | notNumber (key : PageKey)
  | zero (key : PageKey)
  | aboveLimit (size limit : Nat)
  | overflow (current size : Nat)
  deriving DecidableEq, Repr

/-- What is wrong with the value of a parameter. -/
inductive ParamReason where
  | rangeLength (length : Nat)
  | boundsNotScalar
  | notObject
  | singleDate
  deriving DecidableEq, Repr

/-- The path of a parameter and what is wrong with its value. -/
structure ParamFault where
  path : String
  reason : ParamReason
  deriving DecidableEq, Repr

inductive BaseQueryFault where
  /-- A name or value that is not the encoding of a text. -/
  | encoding (raw : String) (fault : Percent.Fault)
  /-- A piece whose name is empty. -/
  | nameless (piece : String)
  deriving DecidableEq, Repr

inductive ConfigFault where
  /-- A settings layer cannot be read, or a setting is unknown or of the wrong
      kind. -/
  | unreadable
  | zeroPageLimit
  | offset (raw : String)
  deriving DecidableEq, Repr

/-- Why a query cannot be composed. -/
inductive QueryError where
  | page (fault : PageFault)
  | baseQuery (fault : BaseQueryFault)
  | param (fault : ParamFault)
  | config (fault : ConfigFault)
  deriving DecidableEq, Repr

/-- Why a document is not read as the data of a table. -/
inductive ShapeFault where
  /-- A part is missing or not of the expected kind. -/
  | shape
  | param (fault : ParamFault)
  deriving DecidableEq, Repr

def backquoted (s : String) : String :=
  "`" ++ s ++ "`"

def PageFault.message : PageFault → String
  | .missing key => backquoted key.name ++ " is missing"
  | .notNaturalNumber key n =>
    backquoted key.name ++ " must be a non-negative integer, got " ++ n.text
  | .notNaturalText key s =>
    backquoted key.name ++ " must be a non-negative integer, got " ++ backquoted s
  | .notNumber key => backquoted key.name ++ " must be a number"
  | .zero key => backquoted key.name ++ " must be at least 1"
  | .aboveLimit size limit =>
    backquoted PageKey.pageSize.name ++ " " ++ toString size ++ " exceeds the maximum of "
      ++ toString limit
  | .overflow current size =>
    "page " ++ toString current ++ " of size " ++ toString size ++ " overflows the row offset"

def ParamReason.message : ParamReason → String
  | .rangeLength length =>
    "expected a two-element range, got " ++ toString length ++ " elements"
  | .boundsNotScalar => "range bounds must be scalar values"
  | .notObject => "expected an object"
  | .singleDate => "dateRange columns expect a [start, end] pair"

def BaseQueryFault.message : BaseQueryFault → String
  | .encoding raw (.malformed index) =>
    "malformed percent-escape at byte " ++ toString index ++ " in " ++ backquoted raw
  | .encoding raw (.notUtf8 fault) => backquoted raw ++ " is not valid UTF-8: " ++ fault.message
  | .nameless piece => "parameter without a name: " ++ backquoted piece

def ConfigFault.message : ConfigFault → String
  | .unreadable => "the settings cannot be read"
  | .zeroPageLimit => "max_page_size must be at least 1"
  | .offset raw => "invalid datetime_offset " ++ backquoted raw

def QueryError.message : QueryError → String
  | .page fault => "invalid paging input: " ++ fault.message
  | .baseQuery fault => "invalid pre-query: " ++ fault.message
  | .param fault => "invalid parameter " ++ backquoted fault.path ++ ": " ++ fault.reason.message
  | .config fault => "invalid configuration: " ++ fault.message

end TableQuery
