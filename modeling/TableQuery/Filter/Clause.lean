/-
  Clauses of a filter and their text.

  An operand or needle is already escaped: it stands in the text as it is.
-/
namespace TableQuery

/-- The words of the filter language. -/
inductive Operator where
  | eq
  | ge
  | le
  | contains
  | and
  deriving DecidableEq, Repr

def Operator.name : Operator → String
  | .eq => "eq"
  | .ge => "ge"
  | .le => "le"
  | .contains => "contains"
  | .and => "and"

/-- A condition on one field. -/
inductive Clause where
  /-- The field compared with an operand. -/
  | compare (path : String) (op : Operator) (operand : String)
  /-- The field between two bounds, either of which may be missing. -/
  | between (path : String) (lower upper : Option String)
  /-- The field contains a text; `spaced` puts a blank behind the comma. -/
  | contains (path needle : String) (spaced : Bool)
  deriving DecidableEq, Repr

namespace Clause

def path : Clause → String
  | .compare path .. | .between path .. | .contains path .. => path

def comparison (path : String) (op : Operator) (operand : String) : String :=
  path ++ " " ++ op.name ++ " " ++ operand

/-- What stands between two clauses. -/
def conjunction : String :=
  " " ++ Operator.and.name ++ " "

/-- The clause as written; a clause without bounds is empty. -/
def text : Clause → String
  | .compare path op operand => comparison path op operand
  | .between path (some lower) (some upper) =>
    comparison path .ge lower ++ conjunction ++ comparison path .le upper
  | .between path (some lower) none => comparison path .ge lower
  | .between path none (some upper) => comparison path .le upper
  | .between _ none none => ""
  | .contains path needle spaced =>
    Operator.contains.name ++ "(" ++ path ++ (if spaced then ", " else ",") ++ "'" ++ needle ++ "')"

end Clause

end TableQuery
