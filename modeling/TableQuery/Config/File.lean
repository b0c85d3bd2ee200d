/-
  Settings from a file.

  The file is a YAML document: a mapping from names to values, or nothing at
  all. A file that cannot be read has no settings, not even those before the
  fault.

  A group within it may have a member with a name of its own meaning: one for
  which the group stands as a whole, and one that is its identity.
-/
import TableQuery.Config.Environment
import TableQuery.Yaml.Schema

namespace TableQuery.SettingsFile

open Yaml (Node Tag)

/-- The name that a key of a mapping is. -/
def name? : Node → Option String
  | .scalar _ _ s => some s
  | _ => none

def ofValue : Yaml.Value → Setting
  | .null => .null
  | .integer negative n =>
    if n < Number.wordCount ∧ (negative = false ∨ n = 0) then .natural n else .other
  | .text s => .text s
  | .truth | .number => .other

/-- The setting that a value with a tag is. The name of a tag of its own is a
    path to the value. -/
def tagged : Option Tag → Setting → Setting
  | some (.own name), v => .nest ((name.toList.splitOn '.').map String.ofList) v
  | _, v => v

/-- Whether a node is a natural number of 64 bits, without a tag of its own. -/
def isIdentity : Node → Bool
  | .scalar (some (.own _)) _ _ => false
  | .scalar tag plain s =>
    match Yaml.Value.ofScalar? tag plain s with
    | some (.integer false n) => n < Number.wordCount
    | _ => false
  | _ => false

/-- The name of the member for which a group stands as a whole. -/
def wholeName : String :=
  "___figment_value_value"

/-- The name of the member that is the identity of a group, and no setting. -/
def identityName : String :=
  "___figment_value_id"

/-- Whether the identities among the members of a group are such. -/
def hasIdentities (pairs : List (Node × Node)) : Bool :=
  pairs.all fun (k, v) => name? k ≠ some identityName || isIdentity v

def ofMembers (ms : Members Setting) : Setting :=
  match ms.get? wholeName with
  | some v => v
  | none => .group ((ms.drop identityName).map fun (name, v) => (name, v = .null))

mutual

def setting? : Node → Option Setting
  | .scalar tag plain s => (Yaml.Value.ofScalar? tag plain s).map fun v => tagged tag (ofValue v)
  | .sequence tag items => if areSettings items then some (tagged tag .other) else none
  | .mapping tag pairs => do
    guard (hasIdentities pairs)
    return tagged tag (ofMembers (Members.putAll [] (← members? pairs)))

/-- Whether every node is a setting. -/
def areSettings : List Node → Bool
  | [] => true
  | n :: ns => (setting? n).isSome && areSettings ns

/-- The named settings of a mapping. -/
def members? : List (Node × Node) → Option (List (String × Setting))
  | [] => some []
  | (k, v) :: pairs => do
    let name ← name? k
    let v ← setting? v
    return (name, v) :: (← members? pairs)

end

def settings? (content : String) : Option Settings := do
  match ← Yaml.document? content with
  | none | some (.scalar _ true "") => return []
  | some (.mapping _ pairs) => return Members.putAll [] (← members? pairs)
  | _ => none

end TableQuery.SettingsFile

namespace TableQuery.Config

/-- The configuration of a settings file, if there is one, and of environment
    variables, which go before it. -/
def load (file : Option String) (environment : Members String) : Except ConfigFault Config :=
  match SettingsFile.settings? (file.getD "") with
  | none => .error .unreadable
  | some settings =>
    ofLayers [Settings.ofConfig standard, settings, Environment.settings environment]

end TableQuery.Config
