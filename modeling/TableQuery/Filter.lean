/-
  The filter of a table: one clause for each value that filters.

  The kind of the column at the path of a value selects its clause:
  * numbers, choices, dates and years are compared for equality;
  * a date with time is compared for equality, with a `T` for its first blank
    and the UTC offset at its end;
  * a period is bounded by the two values that are not falsy;
  * everything else contains the value as part of its text.

  Form parameters come first, without the page window, then quick filters. The
  first value that its column cannot filter on is the fault.
-/
import TableQuery.Column
import TableQuery.Error
import TableQuery.Filter.Clause
import TableQuery.Param.Flatten

namespace TableQuery

namespace Filter

def operand (value : Leaf) : String :=
  doubleQuotes value.render

/-- A bound of a period, unless it is falsy. -/
def bound? (s : Scalar) : Option String :=
  if s.isFalsy then none else some (doubleQuotes s.render)

/-- The text with a `T` for its first blank. -/
def markTime : List Char → List Char
  | [] => []
  | c :: cs => if c = ' ' then 'T' :: cs else c :: markTime cs

/-- A value as a point in time: its date and time joined, the offset behind. -/
def instant (value : Leaf) (offset : String) : String :=
  doubleQuotes (String.ofList (markTime value.render.toList)) ++ offset

/-- The clause of a value that is not falsy, for a column of a kind. -/
def clauseOf (kind : Option ValueKind) (offset path : String) (value : Leaf) :
    Except ParamFault Clause :=
  match kind with
  | none => .ok (.contains path (operand value) false)
  | some .digit | some .select | some .date | some .dateYear =>
    .ok (.compare path .eq (operand value))
  | some .dateTime => .ok (.compare path .eq (instant value offset))
  | some .dateRange =>
    match value with
    | .range lower upper => .ok (.between path (bound? lower) (bound? upper))
    | .scalar _ => .error ⟨path, .singleDate⟩
  | some .text | some (.other _) => .ok (.contains path (operand value) true)

/-- The clause of a value, if it filters. -/
def select (columns : Columns) (offset path : String) (value : Leaf) :
    Except ParamFault (Option Clause) :=
  if value.isFalsy then .ok none
  else (clauseOf (columns.kind? path) offset path value).map some

def clausesOf (columns : Columns) (offset : String) : Members Leaf → Except ParamFault (List Clause)
  | [] => .ok []
  | (path, value) :: entries => do
    let clause ← select columns offset path value
    let clauses ← clausesOf columns offset entries
    return clause.toList ++ clauses

/-- The entries of form parameters that are not the page window. -/
def formEntries (form : Params) : Members Leaf :=
  Params.flatten (form.filter fun m => !PageKey.owns m.1)

/-- The entries of a form and of quick filters, in order. -/
def entries (form quick : Params) : Members Leaf :=
  formEntries form ++ Params.flatten quick

def clauses (form quick : Params) (columns : Columns) (offset : String) :
    Except ParamFault (List Clause) :=
  clausesOf columns offset (entries form quick)

/-- The conjunction of clauses, if there are any. -/
def conjoin : List Clause → Option String
  | [] => none
  | cs => some (String.intercalate Clause.conjunction (cs.map Clause.text))

/-- The conjunction of two filters, either of which may be missing. -/
def both : Option String → Option String → Option String
  | some base, some computed => some (base ++ Clause.conjunction ++ computed)
  | base, computed => base.or computed

def build (form quick : Params) (columns : Columns) (offset : String) :
    Except ParamFault (Option String) :=
  (clauses form quick columns offset).map conjoin

end Filter

end TableQuery
