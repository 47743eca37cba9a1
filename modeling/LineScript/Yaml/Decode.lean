/-
# Values of YAML nodes

What nodes stand for, with aliases replaced by their nodes and merged members taken in. A fault at one
place is a problem with a line and does not end the work, so that all problems are known in the end; a
failure ends it at once. How much of the work may come from aliases is limited.
-/

import LineScript.Yaml.Node

namespace LineScript.Yaml

open LineScript.Text (Bytes)

/-- Why nodes have no value. -/
inductive DecodeError where
  | failure (what : String)
  | problems (lines : List String)
  deriving DecidableEq, Repr

/-- The wording of an error. -/
def DecodeError.message : DecodeError → String
  | failure what => "yaml: " ++ what
  | problems lines => "yaml: unmarshal errors:\n  " ++ Text.joined "\n  " lines

/-- The state of the work on a document. -/
structure Decoding where
  document : Document
  /-- How many nodes were visited. -/
  visits : Nat := 0
  /-- How many of them were visited through aliases. -/
  expanded : Nat := 0
  /-- The numbers of the aliases that are being replaced. -/
  replacing : List Nat := []
  /-- While members are merged, the keys that are taken. -/
  taken? : Option (List Value) := none
  /-- The problems so far, the last one first. -/
  problems : List String := []

/-- A part of the work on a document. -/
abbrev Decode := StateT Decoding (Except String)

namespace Decode

/-- Notes a problem on a line. -/
def problem (line : Nat) (what : String) : Decode Unit :=
  modify fun s => { s with problems := ("line " ++ toString line ++ ": " ++ what) :: s.problems }

/-! ## Visits -/

/-- Whether too much of the work came from aliases: more than 99 percent of it, and less and less
than that past four hundred thousand visits, down to ten percent at four million. -/
def isExcessive (visits expanded : Nat) : Bool :=
  let low := 400000
  let range := 3600000
  let allowed : Int := if visits ≤ low then 99 * range
    else if low + range ≤ visits then 10 * range
    else 99 * range - 89 * ((visits : Int) - low)
  100 < expanded && 1000 < visits && (visits : Int) * allowed < (expanded : Int) * 100 * range

/-- Counts a visit. -/
def count : Decode Unit := do
  let s ← get
  let expanded := if s.replacing.isEmpty then s.expanded else s.expanded + 1
  if isExcessive (s.visits + 1) expanded then throw "document contains excessive aliasing"
  set { s with visits := s.visits + 1, expanded := expanded }

/-- Visits a node, or the node that it is an alias for. -/
def visit {α : Type} (n : Node) (act : Node → Decode α) : Decode α := do
  count
  match n with
  | .reference _ name number _ =>
    let s ← get
    if s.replacing.contains number then throw ("anchor '" ++ name ++ "' value contains itself")
    set { s with replacing := number :: s.replacing }
    count
    let a ← act (s.document.resolve n)
    modify fun t => { t with replacing := s.replacing }
    return a
  | n => act n

/-- The value of a scalar. -/
def scalar (tag text : String) : Decode Value :=
  match meaning tag text with
  | .ok v => return v
  | .error e => throw e

/-! ## Members -/

/-- What becomes of the members of a mapping. -/
structure Target (σ : Type) where
  /-- Any node as a value. -/
  anyValue : Node → Decode (Option Value)
  /-- A key, if the member is to be taken. -/
  key : Node → Decode (Option Value)
  /-- Takes a member; `again` tells whether its key came before in the same mapping. -/
  store : σ → (again : Bool) → (key : Value) → (keyNode value : Node) → Decode σ

/-- Notes the keys that are defined twice, and tells whether there are any. -/
def checkKeys : List (Node × Node) → Decode Bool
  | [] => return false
  | (key, _) :: rest => do
    let twins := rest.filter fun (other, _) => key.sameLabel other
    for (twin, _) in twins do
      problem twin.line ("mapping key " ++ Text.quote twin.label ++ " already defined at line "
        ++ toString key.line)
    let more ← checkKeys rest
    return !twins.isEmpty || more

/-- Fails unless a value can be looked up among keys. -/
def requireHashable (v : Value) : Decode Unit :=
  match v with
  | .list _ | .record _ | .table _ =>
    throw ("runtime error: hash of unhashable type " ++ v.kindName)
  | _ => return ()

/-- Whether a key may be taken while members are merged: only the first member with a key is. -/
def mayTake (taken? : Option (List Value)) (key : Value) : Decode Bool :=
  match taken? with
  | none => return true
  | some taken => do
    requireHashable key
    return !taken.any (key.sameKey ·)

/-- The members taken so far. -/
structure Taking (σ : Type) where
  result : σ
  seen : List Value := []
  taken? : Option (List Value)

/-- Takes members one after the other, except for those that merge other mappings. -/
def takeEach {σ : Type} (t : Target σ) : Taking σ → List (Node × Node) → Decode (Taking σ)
  | a, [] => return a
  | a, (keyNode, value) :: rest => do
    if keyNode.isMerge then takeEach t a rest
    else
      match ← t.key keyNode with
      | none => takeEach t a rest
      | some key =>
        if !(← mayTake a.taken? key) then takeEach t a rest
        else
          let again := a.seen.any (key.sameKey ·)
          let result ← t.store a.result again key keyNode value
          takeEach t ⟨result, key :: a.seen, a.taken?.map (key :: ·)⟩ rest

/-- The keys of members as values. -/
def keysOf {σ : Type} (t : Target σ) (members : List (Node × Node)) : Decode (List Value) := do
  let keys ← members.filterMapM fun (key, _) => t.anyValue key
  keys.forM requireHashable
  return keys

/-- What is wrong with merging anything but mappings. -/
def mergeFailure : String := "map merge requires map or sequence of maps as the value"

/-- Takes the members of a mapping, and then those of the mappings that it merges. There is no result
when a key is defined twice. -/
def takeMembers {σ : Type} (t : Target σ) : Nat → σ → List (Node × Node) → Decode (Option σ)
  | 0, _, _ => throw "document contains excessive aliasing"
  | fuel + 1, start, members => do
    if ← checkKeys members then return none
    let taken? := (← get).taken?
    modify fun s => { s with taken? := none }
    let a ← takeEach t ⟨start, [], taken?⟩ members
    modify fun s => { s with taken? := a.taken? }
    match (members.reverse.find? (·.1.isMerge)) with
    | none => return some a.result
    | some (_, merged) =>
      if a.taken?.isNone then
        let keys ← keysOf t members
        modify fun s => { s with taken? := some keys }
      let document := (← get).document
      let take (result : σ) (n : Node) : Decode σ :=
        match document.resolve n with
        | .mapping .. =>
          visit n fun n => match n with
            | .mapping _ _ members => return (← takeMembers t fuel result members).getD result
            | _ => throw mergeFailure
        | _ => throw mergeFailure
      let result ← match merged with
        | .sequence _ _ items => items.foldlM take a.result
        | n => take a.result n
      if a.taken?.isNone then modify fun s => { s with taken? := none }
      return some result

/-! ## Values -/

/-- A text, if a node is one or can be taken for one as it is written. Null is none. -/
def text (n : Node) : Decode (Option Bytes) :=
  visit n fun n => match n with
    | .scalar _ tag text => do
      match ← scalar tag text with
      | .null => return none
      | .text bytes => return some bytes
      | _ => return some (Text.encode text)
    | .sequence line tag _ | .mapping line tag _ => do
      let shown := if tag = "!!seq" || tag = "!!map" then tag else tag ++ " \x60\x60"
      problem line ("cannot unmarshal " ++ shown ++ " into string")
      return none
    | .reference .. => return none

/-- Puts a member into a list of members, in place of one with the same key. -/
def put {κ β : Type} (same : κ → κ → Bool) (members : List (κ × β)) (key : κ) (value : β) :
    List (κ × β) :=
  members.filter (fun m => !same m.1 key) ++ [(key, value)]

/-- The value of a node. -/
def value : Nat → Node → Decode (Option Value)
  | 0, _ => throw "document contains excessive aliasing"
  | fuel + 1, n => do
    let document := (← get).document
    visit n fun n => match n with
      | .scalar _ tag text => some <$> scalar tag text
      | .sequence _ _ items => do
        let values ← items.filterMapM (value fuel)
        return some (.list values)
      | .mapping _ _ members => do
        let isRecord := members.all fun (key, _) =>
          document.tagOf key = textTag || document.tagOf key = mergeTag
        if isRecord then
          let target : Target (List (Bytes × Value)) :=
            { anyValue := value fuel
              key := fun n => do return (← text n).map .text
              store := fun result _ key _ node => do
                match key, ← value fuel node with
                | .text bytes, some v => return put (· == ·) result bytes v
                | _, _ => return result }
          return (← takeMembers target fuel [] members).map .record
        else
          let target : Target (List (Value × Value)) :=
            { anyValue := value fuel
              key := value fuel
              store := fun result _ key _ node => do
                match key with
                | .list _ | .record _ | .table _ => throw ("invalid map key: " ++ key.detailed)
                | _ =>
                  match ← value fuel node with
                  | some v => return put Value.sameKey result key v
                  | none => return result }
          return (← takeMembers target fuel [] members).map .table
      | .reference .. => return none

/-- Takes the members of a mapping into a record whose fields are known; `take` gives nothing for an
unknown one. A field may be given once. Nothing at all is no record. -/
def fields {α : Type} (fuel : Nat) (take : α → String → Node → Option (Decode α)) (start : α)
    (n : Node) : Decode (Option α) :=
  visit n fun n => match n with
    | .mapping _ _ members =>
      let target : Target α :=
        { anyValue := value fuel
          key := fun n => do return (← text n).map .text
          store := fun result again key keyNode node => do
            let name := match key with
              | .text bytes => Text.decode bytes
              | _ => ""
            match take result name node with
            | none =>
              problem keyNode.line ("field " ++ name ++ " not found")
              return result
            | some act =>
              if again then
                problem keyNode.line ("field " ++ name ++ " already set")
                return result
              act }
      takeMembers target fuel start members
    | .scalar line tag text => do
      match ← scalar tag text with
      | .null => return none
      | v =>
        problem line ("cannot unmarshal " ++ v.tag)
        return none
    | .sequence line _ _ => do
      problem line "cannot unmarshal !!seq"
      return none
    | .reference .. => return none

/-- Does all the work on a document and fails if there was a problem. -/
def run {α : Type} (act : Decode α) (document : Document) : Except DecodeError α :=
  match StateT.run act { document := document } with
  | .error e => .error (.failure e)
  | .ok (a, s) => if s.problems.isEmpty then .ok a else .error (.problems s.problems.reverse)

end Decode

/-- Fuel for work on a document: no path from its root takes an alias twice. -/
def Document.fuel (d : Document) : Nat :=
  let n := d.root.size + 1
  n * n

/-- The value of a node of a document. -/
def Document.valueOf (d : Document) (n : Node) : Except DecodeError Value :=
  Decode.run (do return (← Decode.value d.fuel n).getD .null) d

end LineScript.Yaml
