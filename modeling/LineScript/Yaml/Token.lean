/-
# YAML tokens

The tokens that a text is cut into. Some of them stand for nothing that is written: where a block of
lines begins or ends follows from the columns, and that a scalar is a key follows from the colon after
it.
-/

namespace LineScript.Yaml

/-- What a token is. -/
inductive TokenKind where
  | streamStart
  | streamEnd
  | version (major minor : Nat)
  /-- A directive that says what a handle of tags stands for. -/
  | tagHandle (handle expansion : String)
  | documentStart
  | documentEnd
  | blockSequenceStart
  | blockMappingStart
  | blockEnd
  | flowSequenceStart
  | flowSequenceEnd
  | flowMappingStart
  | flowMappingEnd
  | blockEntry
  | flowEntry
  | key
  | value
  | reference (name : String)
  | anchor (name : String)
  /-- A tag: its handle, which is empty when the tag is written in full, and what follows it. -/
  | tag (handle suffix : String)
  /-- A scalar; only one without quotes can mean anything but a text. -/
  | scalar (text : String) (plain : Bool)
  deriving DecidableEq, Repr

/-- A token and the line it begins on. -/
structure Token where
  kind : TokenKind
  line : Nat
  deriving DecidableEq, Repr

end LineScript.Yaml
