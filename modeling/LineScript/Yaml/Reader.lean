/-
# Reading YAML documents

The first document of a text, from its tokens. A document may begin with directives and a mark; what
follows its end is not read. Every function here starts at a token and takes the tokens it uses.
-/

import LineScript.Yaml.Node
import LineScript.Yaml.TokenStream

namespace LineScript.Yaml

/-- A document on its way. -/
structure Reading where
  stream : TokenStream
  /-- What the handles of tags stand for. -/
  handles : List (String × String) := []
  /-- The names of the anchors so far, the last one first, with the places of their nodes. -/
  anchors : List (String × Nat) := []
  /-- The nodes with anchors. A node has its place before it is complete. -/
  anchored : Array Node := #[]
  /-- How many aliases there are so far. -/
  aliases : Nat := 0

/-- A part of the reading, which fails on malformed texts. -/
abbrev Read := StateT Reading Option

namespace Read

/-- Fails. -/
def malformed {α : Type} : Read α := fun _ => none

/-- The next token, which is not taken. -/
def peek : Read Token := fun r =>
  r.stream.peek?.map fun (t, stream) => (t, { r with stream := stream })

/-- Takes the next token. -/
def skip : Read Unit := modify fun r => { r with stream := r.stream.skip }

/-! ## Properties of nodes -/

/-- The tag of a node, written with a handle or in full. -/
def expandTag (handle suffix : String) : Read String := do
  if handle.isEmpty then return suffix
  match (← get).handles.lookup handle with
  | some expansion => if (expansion ++ suffix).isEmpty then malformed else return expansion ++ suffix
  | none => malformed

/-- The tag of the node that begins here, if it has one; it is taken. -/
def tagHere : Read (Option String) := do
  match (← peek).kind with
  | .tag handle suffix =>
    skip
    let tag ← expandTag handle suffix
    return some tag
  | _ => return none

/-- The anchor of the node that begins here, if it has one; it is taken. -/
def anchorHere : Read (Option String) := do
  match (← peek).kind with
  | .anchor name =>
    skip
    return some name
  | _ => return none

/-- The anchor and the tag of the node that begins here, in either order. -/
def properties : Read (Option String × Option String) := do
  match ← anchorHere with
  | some anchor => return (some anchor, ← tagHere)
  | none =>
    match ← tagHere with
    | some tag => return (← anchorHere, some tag)
    | none => return (none, none)

/-- The tag of a node, in its short form, if it has one that says something. -/
def statedTag (tag? : Option String) (usual : String) : String :=
  match tag? with
  | none => usual
  | some tag => if tag = "" || tag = "!" then usual else shortTag tag

/-- Makes place for a node with an anchor. -/
def declare (name : String) : Read Nat := fun r =>
  some (r.anchored.size,
    { r with
      anchors := (name, r.anchored.size) :: r.anchors
      anchored := r.anchored.push default })

/-- The node for an alias, which has to be known. -/
def aliasNode (line : Nat) (name : String) : Read Node := fun r =>
  (r.anchors.lookup name).map fun target =>
    (.reference (line + 1) name r.aliases target, { r with aliases := r.aliases + 1 })

/-- A node that nothing is written for. -/
def emptyNode (line : Nat) : Node := .scalar (line + 1) (plainTag "") ""

/-! ## Nodes -/

/-- Whether a token ends an entry of a block. -/
def endsBlockEntry (t : Token) : Bool :=
  t.kind = .key || t.kind = .value || t.kind = .blockEnd

mutual

/-- The node that begins here. Blocks may begin only inside blocks, and a sequence that stands no
further to the right than its key only as the value or the key of a mapping. -/
def node (block indentless : Bool) : Nat → Read Node
  | 0 => malformed
  | fuel + 1 => do
    let first ← peek
    match first.kind with
    | .reference name =>
      skip
      aliasNode first.line name
    | _ =>
      let (anchor?, tag?) ← properties
      let place? ← match anchor? with
        | none => pure none
        | some name => some <$> declare name
      let here ← peek
      let line := first.line + 1
      let sequence (items : List Node) : Node := .sequence line (statedTag tag? "!!seq") items
      let mapping (members : List (Node × Node)) : Node :=
        .mapping line (statedTag tag? "!!map") members
      let n ← match here.kind with
        | .scalar text plain =>
          skip
          pure (.scalar line (statedTag tag? (if plain then plainTag text else textTag)) text)
        | .flowSequenceStart =>
          skip
          sequence <$> flowItems true [] fuel
        | .flowMappingStart =>
          skip
          mapping <$> flowMembers true [] fuel
        | kind =>
          if indentless && kind = .blockEntry then sequence <$> indentlessItems [] fuel
          else if block && kind = .blockSequenceStart then
            skip
            sequence <$> blockItems [] fuel
          else if block && kind = .blockMappingStart then
            skip
            mapping <$> blockMembers [] fuel
          else if anchor?.isSome || tag?.isSome then
            pure (.scalar line (statedTag tag? (plainTag "")) "")
          else malformed
      match place? with
      | none => return n
      | some place =>
        modify fun r => { r with anchored := r.anchored.setIfInBounds place n }
        return n

/-- The items of a sequence of lines, up to its end. -/
def blockItems (items : List Node) : Nat → Read (List Node)
  | 0 => malformed
  | fuel + 1 => do
    let t ← peek
    match t.kind with
    | .blockEntry =>
      skip
      let next ← peek
      let item ←
        if next.kind = .blockEntry || next.kind = .blockEnd then pure (emptyNode t.line)
        else node true false fuel
      blockItems (item :: items) fuel
    | .blockEnd =>
      skip
      return items.reverse
    | _ => malformed

/-- The items of a sequence that stands no further to the right than its key. -/
def indentlessItems (items : List Node) : Nat → Read (List Node)
  | 0 => malformed
  | fuel + 1 => do
    let t ← peek
    match t.kind with
    | .blockEntry =>
      skip
      let next ← peek
      let item ←
        if next.kind = .blockEntry || endsBlockEntry next then pure (emptyNode t.line)
        else node true false fuel
      indentlessItems (item :: items) fuel
    | _ => return items.reverse

/-- The key or the value of a member of a block after its mark, which may be missing. -/
def blockPart (line : Nat) : Nat → Read Node
  | 0 => malformed
  | fuel + 1 => do
    if endsBlockEntry (← peek) then return emptyNode line
    node true true fuel

/-- The members of a mapping of lines, up to its end. -/
def blockMembers (members : List (Node × Node)) : Nat → Read (List (Node × Node))
  | 0 => malformed
  | fuel + 1 => do
    let t ← peek
    match t.kind with
    | .key =>
      skip
      let key ← blockPart t.line fuel
      let mark ← peek
      let value ←
        if mark.kind = .value then do
          skip
          blockPart mark.line fuel
        else pure (emptyNode mark.line)
      blockMembers ((key, value) :: members) fuel
    | .blockEnd =>
      skip
      return members.reverse
    | _ => malformed

/-- The value of a member between brackets, which may be missing. -/
def flowValue (closing : TokenKind) : Nat → Read Node
  | 0 => malformed
  | fuel + 1 => do
    let mark ← peek
    if mark.kind = .value then
      skip
      let next ← peek
      if next.kind = .flowEntry || next.kind = closing then return emptyNode next.line
      node false false fuel
    else return emptyNode mark.line

/-- A single member that is an item of a sequence. What ends a missing key is taken with it. -/
def singleMember (line : Nat) : Nat → Read Node
  | 0 => malformed
  | fuel + 1 => do
    let t ← peek
    let key ←
      if t.kind = .value || t.kind = .flowEntry || t.kind = .flowSequenceEnd then do
        skip
        pure (emptyNode t.line)
      else node false false fuel
    let value ← flowValue .flowSequenceEnd fuel
    return .mapping (line + 1) "!!map" [(key, value)]

/-- The items of a sequence between brackets, up to the closing one. -/
def flowItems (first : Bool) (items : List Node) : Nat → Read (List Node)
  | 0 => malformed
  | fuel + 1 => do
    let t ← peek
    if t.kind = .flowSequenceEnd then
      skip
      return items.reverse
    if !first then
      if t.kind = .flowEntry then skip else malformed
    let t ← peek
    match t.kind with
    | .key =>
      skip
      let item ← singleMember t.line fuel
      flowItems false (item :: items) fuel
    | .flowSequenceEnd =>
      skip
      return items.reverse
    | _ =>
      let item ← node false false fuel
      flowItems false (item :: items) fuel

/-- The members of a mapping between brackets, up to the closing one. -/
def flowMembers (first : Bool) (members : List (Node × Node)) : Nat → Read (List (Node × Node))
  | 0 => malformed
  | fuel + 1 => do
    let t ← peek
    if t.kind = .flowMappingEnd then
      skip
      return members.reverse
    if !first then
      if t.kind = .flowEntry then skip else malformed
    let t ← peek
    match t.kind with
    | .key =>
      skip
      let next ← peek
      let key ←
        if next.kind = .value || next.kind = .flowEntry || next.kind = .flowMappingEnd then
          pure (emptyNode next.line)
        else node false false fuel
      let value ← flowValue .flowMappingEnd fuel
      flowMembers false ((key, value) :: members) fuel
    | .flowMappingEnd =>
      skip
      return members.reverse
    | _ =>
      let key ← node false false fuel
      let next ← peek
      flowMembers false ((key, emptyNode next.line) :: members) fuel

end

/-! ## Documents -/

/-- Whether a token stands between documents. -/
def betweenDocuments (t : Token) : Bool :=
  match t.kind with
  | .version .. | .tagHandle .. | .documentStart | .documentEnd | .streamEnd => true
  | _ => false

/-- The handles that are known without a directive. -/
def usualHandles : List (String × String) := [("!", "!"), ("!!", standardTags)]

/-- Takes directives. A version may be stated once and has to be the one supported, and a handle may be
declared once. -/
def directives (versionSeen : Bool) : Nat → Read Unit
  | 0 => malformed
  | fuel + 1 => do
    match (← peek).kind with
    | .version major minor =>
      if versionSeen || major ≠ 1 || minor ≠ 1 then malformed
      skip
      directives true fuel
    | .tagHandle handle expansion =>
      if ((← get).handles.lookup handle).isSome then malformed
      modify fun r => { r with handles := r.handles ++ [(handle, expansion)] }
      skip
      directives versionSeen fuel
    | _ => modify fun r => { r with handles := r.handles ++ usualHandles }

/-- The root of the first document, if there is a document. -/
def root (fuel : Nat) : Read (Option Node) := do
  let _ ← peek
  skip
  match (← peek).kind with
  | .streamEnd => return none
  | kind =>
    directives false fuel
    let isMarked := match kind with
      | .version .. | .tagHandle .. | .documentStart => true
      | _ => false
    if isMarked then
      if (← peek).kind = .documentStart then skip else malformed
    let t ← peek
    let n ← if isMarked && betweenDocuments t then pure (emptyNode t.line) else node true false fuel
    let _ ← peek
    return some n

end Read

/-- What became of a text. -/
inductive ReadResult where
  | document (d : Document)
  /-- There is nothing in the text. -/
  | empty
  | malformed

/-- Reads the first document of a text. Every step takes a token or follows one that did, and a
character makes a few tokens at most. -/
def read (text : String) : ReadResult :=
  let stream := TokenStream.ofSource (Source.ofText text.toList)
  match (Read.root (8 * stream.cursor.size + 64)).run { stream := stream } with
  | none => .malformed
  | some (none, _) => .empty
  | some (some n, r) => .document ⟨n, r.anchored⟩

end LineScript.Yaml
