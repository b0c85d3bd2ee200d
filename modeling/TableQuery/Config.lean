/-
  The configuration of a composer.

  * the UTC offset behind every date with time, as text;
  * how parameter names are written;
  * the largest page.

  A configuration is valid if pages may have rows and its offset is one.
-/
import TableQuery.Config.UtcOffset
import TableQuery.Query

namespace TableQuery

/-- The configuration of a composer. -/
structure Config where
  timeOffset : String
  naming : Naming
  pageLimit : Nat
  deriving DecidableEq, Repr

namespace Config

/-- Eight hours east, plain names, a thousand rows. -/
def standard : Config :=
  ⟨"+08:00", .plain, 1000⟩

def offset (c : Config) : Except ConfigFault UtcOffset :=
  match UtcOffset.parse? c.timeOffset with
  | some o => .ok o
  | none => .error (.offset c.timeOffset)

/-- What stands behind a date and time. -/
def offsetText (c : Config) : Except ConfigFault String :=
  c.offset.map UtcOffset.text

/-- What makes a configuration valid: pages may have rows, and the text of the
    offset denotes `o`. -/
structure Valid (c : Config) (o : UtcOffset) : Prop where
  pageLimit_pos : 0 < c.pageLimit
  parse_offset : UtcOffset.parse? c.timeOffset = some o

/-- The offset of a valid configuration, or the first thing that is wrong. -/
def check (c : Config) : Except ConfigFault { o : UtcOffset // c.Valid o } :=
  if hl : c.pageLimit = 0 then .error .zeroPageLimit
  else
    match ho : UtcOffset.parse? c.timeOffset with
    | some o => .ok ⟨o, Nat.pos_of_ne_zero hl, ho⟩
    | none => .error (.offset c.timeOffset)

/-- The first thing that is wrong with a configuration, if any. -/
def validate (c : Config) : Except ConfigFault Unit :=
  c.check.map fun _ => ()

theorem standard_valid : standard.Valid ⟨480, by decide⟩ :=
  ⟨by decide, by decide⟩

def toJson (c : Config) : Json :=
  .object [("datetime_offset", .text c.timeOffset), ("param_naming", .text c.naming.name),
    ("max_page_size", Json.ofNat c.pageLimit)]

end Config

end TableQuery
