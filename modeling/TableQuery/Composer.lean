/-
  Composing the query of a table.

  A composer holds the columns and the valid configuration of one table.
  `compose` turns a report of the table into a query:
  * the window is that of the page;
  * the filter of the base query is conjoined with the filter of the form, from
    the left;
  * a manual sort goes before the order of the base query;
  * the expansion of the base query stays.

  Faults are found in this order: page window, base query, parameters, and the
  rows before the page.
-/
import TableQuery.BaseQuery
import TableQuery.Config.Settings
import TableQuery.Filter
import TableQuery.Page
import TableQuery.TableReport

namespace TableQuery

/-- The columns of a table and a valid configuration with its offset. -/
structure Composer where
  columns : Columns
  config : Config
  offset : UtcOffset
  valid : config.Valid offset

namespace Composer

/-- The composer of a table with the standard configuration. -/
def ofColumns (columns : List Column) : Composer :=
  ⟨Columns.ofList columns, Config.standard, _, Config.standard_valid⟩

/-- The composer of a table with a configuration that is valid. -/
def configured (columns : List Column) (config : Config) : Except ConfigFault Composer :=
  config.check.map fun o => ⟨Columns.ofList columns, config, o.val, o.property⟩

/-- The query of a page window, a base query, a filter and a sort. -/
def assemble (page : Page) (skip : Nat) (base : BaseQuery) (computed : Option String)
    (sort : ManualSort) : Query :=
  { Query.window page.top skip with
    filter := Filter.both base.filter computed
    expand := base.expand
    orderby := (OrderBy.build sort).or base.orderby }

/-- The query of a report of the table. -/
def compose (c : Composer) (s : TableReport) : Except QueryError Query := do
  let page ← (Page.ofParams s.params c.config.pageLimit).mapError .page
  let base ← (BaseQuery.parse? s.baseQuery).mapError .baseQuery
  let computed ← (Filter.build s.params s.filter c.columns c.offset.text).mapError .param
  let skip ← page.skip.mapError .page
  return assemble page skip base computed s.sort

def queryString (c : Composer) (s : TableReport) : Except QueryError String :=
  (c.compose s).map (·.queryString c.config.naming)

end Composer

end TableQuery
