/-
  Settings, from which a configuration is made.

  Settings come in layers, each of which may name some of them. A later layer
  goes before an earlier one, name by name; what no layer names has its
  standard value. Of a group in both layers the members are put together in the
  same way. A name that is not known, or a value of the wrong kind, makes the
  settings unreadable, whatever the other values are.

  The naming may be given as a group: the first name in alphabetical order then
  stands for it, if its value is null.
-/
import TableQuery.Config

namespace TableQuery

inductive Setting where
  | text (s : String)
  /-- A natural number of 64 bits. -/
  | natural (n : Nat)
  | null
  /-- Named values, of which it matters only whether they are null. -/
  | group (nulls : Members Bool)
  /-- A value of a kind that no setting has. -/
  | other
  deriving DecidableEq, Repr

abbrev Settings := Members Setting

namespace Setting

def isJsonNull : Json → Bool
  | .null => true
  | _ => false

def ofJson : Json → Setting
  | .null => .null
  | .text s => .text s
  | .number n =>
    match n.toNat? with
    | some n => .natural n
    | none => .other
  | .object ms => .group (ms.map fun (name, v) => (name, isJsonNull v))
  | _ => .other

/-- A value under a path of names, up to the first that is empty. -/
def nest : List String → Setting → Setting
  | [], v => v
  | part :: path, v => if part = "" then v else .group [(part, nest path v = .null)]

/-- A value that goes before another, which may be missing. -/
def onto : Option Setting → Setting → Setting
  | some (.group below), .group above => .group (Members.putAll below above)
  | _, above => above

/-- The first member in alphabetical order. -/
def leading? (nulls : Members Bool) : Option (String × Bool) :=
  nulls.find? fun m => nulls.all fun n => !decide (n.1 < m.1)

def naming? : Setting → Option Naming
  | .text s => Naming.ofName? s
  | .group nulls =>
    match leading? nulls with
    | some (name, true) => Naming.ofName? name
    | _ => none
  | _ => none

end Setting

namespace Settings

def ofMembers (ms : Members Json) : Settings :=
  ms.map fun (name, v) => (name, Setting.ofJson v)

def ofConfig (c : Config) : Settings :=
  [("datetime_offset", .text c.timeOffset), ("param_naming", .text c.naming.name),
    ("max_page_size", .natural c.pageLimit)]

/-- A layer with another before it. -/
def overlay (below above : Settings) : Settings :=
  above.foldl (fun ss (name, v) => ss.put name (Setting.onto (ss.get? name) v)) below

/-- All layers in one, later ones going before earlier ones. -/
def merge (layers : List Settings) : Settings :=
  layers.foldl overlay []

end Settings

namespace Config

/-- A configuration with one setting replaced. -/
def set? (c : Config) : String × Setting → Option Config
  | ("datetime_offset", .text s) => some { c with timeOffset := s }
  | ("param_naming", v) => v.naming?.map fun naming => { c with naming }
  | ("max_page_size", .natural n) => some { c with pageLimit := n }
  | _ => none

/-- The standard configuration with all settings replaced. -/
def ofSettings? (settings : Settings) : Option Config :=
  settings.foldlM set? standard

/-- A configuration with one member of a JSON record read. -/
def setJson? (c : Config) : String × Json → Option Config
  | ("datetime_offset", v) => v.text?.map fun s => { c with timeOffset := s }
  | ("param_naming", v) => (v.choice?.bind Naming.ofName?).map fun naming => { c with naming }
  | ("max_page_size", v) => v.natural?.map fun n => { c with pageLimit := n }
  | _ => none

/-- The configuration that a JSON record describes. -/
def ofJson? (v : Json) : Option Config := do
  let (ms, tooLong) ← v.record? ["datetime_offset", "param_naming", "max_page_size"]
  guard (tooLong = false)
  ms.foldlM setJson? standard

/-- The valid configuration of layers of settings. -/
def ofLayers (layers : List Settings) : Except ConfigFault Config :=
  match ofSettings? (Settings.merge layers) with
  | none => .error .unreadable
  | some c => c.validate.map fun _ => c

end Config

end TableQuery
