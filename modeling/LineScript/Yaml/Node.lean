/-
# YAML nodes

The nodes of a document: scalars, sequences, mappings, and aliases that stand for nodes with an anchor.
-/

import LineScript.Yaml.Meaning

namespace LineScript.Yaml

/-- A node with the line it begins on, counted from one. -/
inductive Node where
  | scalar (line : Nat) (tag : String) (text : String)
  | sequence (line : Nat) (tag : String) (items : List Node)
  | mapping (line : Nat) (tag : String) (members : List (Node × Node))
  /-- Another place for the node with an anchor. `number` tells aliases apart, and `target` is the
  place of the node among all nodes with anchors. -/
  | reference (line : Nat) (name : String) (number : Nat) (target : Nat)

instance : Inhabited Node := ⟨.scalar 0 "!!null" ""⟩

/-- A document: its root and all its nodes with anchors. -/
structure Document where
  root : Node
  anchored : Array Node

namespace Node

/-- The line that a node begins on. -/
def line : Node → Nat
  | scalar line .. | sequence line .. | mapping line .. | reference line .. => line

/-- The text of a scalar or the name of an alias. -/
def label : Node → String
  | scalar _ _ text => text
  | reference _ name .. => name
  | _ => ""

/-- Whether two nodes cannot both be keys of a mapping. -/
def sameLabel : Node → Node → Bool
  | scalar _ _ s, scalar _ _ t => s == t
  | reference _ s .., reference _ t .. => s == t
  | sequence .., sequence .. => true
  | mapping .., mapping .. => true
  | _, _ => false

/-- Whether a node is the key that takes in the members of other mappings. -/
def isMerge : Node → Bool
  | scalar _ tag text => text = "<<" && tag = mergeTag
  | _ => false

mutual

/-- How many nodes there are in a node. -/
def size : Node → Nat
  | sequence _ _ items => sizeOfItems items + 1
  | mapping _ _ members => sizeOfMembers members + 1
  | _ => 1

/-- How many nodes there are in a row. -/
def sizeOfItems : List Node → Nat
  | [] => 0
  | item :: rest => size item + sizeOfItems rest

/-- How many nodes there are in members. -/
def sizeOfMembers : List (Node × Node) → Nat
  | [] => 0
  | (key, value) :: rest => size key + size value + sizeOfMembers rest

end

end Node

/-- The node that a node stands for. -/
def Document.resolve (d : Document) : Node → Node
  | .reference _ _ _ target => d.anchored.getD target default
  | n => n

/-- The tag of a node in its short form; an alias has the tag of its node. -/
def Document.tagOf (d : Document) (n : Node) : String :=
  match d.resolve n with
  | .scalar _ tag _ | .sequence _ tag _ | .mapping _ tag _ => tag
  | .reference .. => ""

end LineScript.Yaml
