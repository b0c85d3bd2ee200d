/-
  The nodes of a YAML document.

  A node is a scalar, a sequence or a mapping, each of which may have a tag. An
  alias stands for the node behind the last anchor of its number in the whole
  document, its aliases replaced in turn. Collections may be nested 128 times,
  and for each thing that is written a hundred aliases may be replaced.
-/
import TableQuery.Yaml.Written

namespace TableQuery.Yaml

/-! ## What is written -/

namespace Written

mutual

/-- The number of the things that are written: a collection begins and ends. -/
def size : Written → Nat
  | .scalar .. | .alias _ => 1
  | .sequence _ items => 2 + itemsSize items
  | .mapping _ pairs => 2 + pairsSize pairs
  | .anchored _ w => w.size

def itemsSize : List Written → Nat
  | [] => 0
  | w :: ws => w.size + itemsSize ws

def pairsSize : List (Written × Written) → Nat
  | [] => 0
  | (k, v) :: pairs => k.size + v.size + pairsSize pairs

end

mutual

/-- The nodes behind anchors by number, in the order in which they begin. -/
def anchors : Written → List (Nat × Written)
  | .scalar .. | .alias _ => []
  | .sequence _ items => itemsAnchors items
  | .mapping _ pairs => pairsAnchors pairs
  | .anchored number w => (number, w) :: w.anchors

def itemsAnchors : List Written → List (Nat × Written)
  | [] => []
  | w :: ws => w.anchors ++ itemsAnchors ws

def pairsAnchors : List (Written × Written) → List (Nat × Written)
  | [] => []
  | (k, v) :: pairs => k.anchors ++ v.anchors ++ pairsAnchors pairs

end

end Written

/-! ## Nodes -/

inductive Node where
  | scalar (tag : Option Tag) (plain : Bool) (text : String)
  | sequence (tag : Option Tag) (items : List Node)
  | mapping (tag : Option Tag) (pairs : List (Node × Node))
  deriving Repr

namespace Node

/-- Replacing aliases, of which only a number may still be. -/
abbrev Replaces := StateT Nat Option

/-- What stands behind an anchor or an alias, or else what is written. -/
def behind (targets : List (Nat × Written)) : Written → Replaces Written
  | .anchored _ w => return w
  | .alias number => do
    match ← get, targets.lookup number with
    | left + 1, some w => set left; return w
    | _, _ => failure
  | w => return w

/-- The node that is written, with collections of some depth at most. -/
def replaced (targets : List (Nat × Written)) : Nat → Written → Replaces Node
  | depth, w => do
    match ← behind targets w, depth with
    | .scalar tag plain text, _ => return .scalar tag plain text
    | .sequence tag items, depth + 1 => return .sequence tag (← items.mapM (replaced targets depth))
    | .mapping tag pairs, depth + 1 =>
      return .mapping tag (← pairs.mapM fun (k, v) => do
        return (← replaced targets depth k, ← replaced targets depth v))
    | _, _ => failure

/-- How deep collections may be nested. -/
def maxDepth : Nat :=
  128

/-- The node of a root as it is written. -/
def ofWritten? (root : Written) : Option Node := do
  let (n, _) ← (replaced root.anchors.reverse maxDepth root).run (100 * root.size)
  return n

end Node

/-- The root of the only document of a text, if there is one; `none` if the
    text cannot be read or has a second document. -/
def document? (text : String) : Option (Option Node) := do
  match ← Written.ofTokens? (← tokens? (← source? text)) with
  | none => return none
  | some root => return some (← Node.ofWritten? root)

end TableQuery.Yaml
