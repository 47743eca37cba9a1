/-
# Editor support

What an editor asks about the documents it has open: what is wrong with them, what could be typed next,
and what the name under the cursor is.
-/

import LineScript.Compile.Compiler
import LineScript.Editor.Declared
import LineScript.Json

namespace LineScript

open LineScript.Text (Bytes)

/-- The open documents, and the signatures of the host functions. -/
structure Editor where
  natives : Dict String
  documents : Dict String := ∅

namespace Editor

/-- The name under which the editor support reports. -/
def serverName : String := "luiggi-lsp"

/-- The version it reports. -/
def serverVersion : String := "0.1.0"

/-! ## Problems -/

/-- A problem on a line, counted from zero, marked from the start of the line over `width` bytes. -/
structure Problem where
  line : Nat
  width : Nat
  message : String
  deriving DecidableEq, Repr

/-- A compiler that knows the host functions. Those with a malformed signature are left out. -/
def compiler (e : Editor) : Compiler :=
  e.natives.toList.foldl
    (fun c (name, signature) =>
      match c.importNative name signature with
      | .ok c => c
      | .error _ => c)
    {}

/-- A compile error as a problem of a document. -/
def problemOf (text : String) (e : CompileError) : Problem :=
  let line := (e.line - 1).toNat
  { line := line
    width := ((Text.lines text)[line]?.map (·.utf8ByteSize)).getD 0
    message := e.kind.label ++ ": " ++ e.detail }

/-- What is wrong with a document. -/
def problem? (e : Editor) (text : String) : Option Problem :=
  match e.compiler.compileSource text with
  | .ok _ => none
  | .error error => some (problemOf text error)

/-! ## Documents -/

/-- Opens a document, or replaces its text. -/
def setDocument (e : Editor) (uri text : String) : Editor :=
  { e with documents := e.documents.insert uri text }

/-- Closes a document. -/
def closeDocument (e : Editor) (uri : String) : Editor :=
  { e with documents := e.documents.erase uri }

/-- An edit: the whole new text, or a change to a part, which is not followed. -/
inductive Edit where
  | whole (text : String)
  | part
  deriving DecidableEq, Repr

/-- The new text after edits: the last one has to give the whole text. -/
def editedText? (edits : List Edit) : Option String :=
  match edits.getLast? with
  | some (.whole text) => some text
  | _ => none

/-! ## Completion -/

/-- What a completion stands for. -/
inductive ItemKind where
  | function
  | keyword
  deriving DecidableEq, Repr

/-- A completion. -/
structure Item where
  label : String
  kind : ItemKind
  detail : String
  deriving DecidableEq, Repr

/-- The number of completions that are offered at most. -/
def itemLimit : Nat := 100

/-- Everything that can be completed in a document: the reserved words, the host functions, and the
functions of the document that no host function hides. -/
def items (e : Editor) (text : String) : List Item :=
  Token.reservedWords.map (⟨·, .keyword, "keyword"⟩)
    ++ e.natives.toList.map (fun (name, signature) => ⟨name, .function, signature⟩)
    ++ ((declared text).toList.filter fun (name, _) => !e.natives.contains name).map
      fun (name, signature) => ⟨name, .function, "func " ++ signature⟩

/-- The completions of the beginning of a word. -/
def completions (e : Editor) (text : String) (beginning : Bytes) : List Item :=
  ((e.items text).filter fun i => beginning.isPrefixOf (Text.encode i.label)).take itemLimit

/-- The completions at a position of an open document. Where no word has begun there are none. -/
def complete (e : Editor) (uri : String) (pos : Position) : List Item :=
  match e.documents.get? uri with
  | none => []
  | some text =>
    match wordBefore text pos with
    | [] => []
    | beginning => e.completions text beginning

/-! ## Hover -/

/-- What is known about a name: a function of the document hides a host function. -/
def about? (e : Editor) (text word : String) : Option String :=
  match (declared text).get? word with
  | some signature => some ("```\nfunc " ++ signature ++ "\n```\n\nDeclared in this document.")
  | none =>
    (e.natives.get? word).map fun signature => "```\n" ++ signature ++ "\n```\n\nNative function."

/-- What is known about the name at a position of an open document. -/
def hover? (e : Editor) (uri : String) (pos : Position) : Option String := do
  let text ← e.documents.get? uri
  match wordAround text pos with
  | [] => none
  | bytes => e.about? text (← Text.decode? bytes)

/-! ## Messages -/

/-- The members of a position. -/
def placeJson (line column : Nat) : Json :=
  .object [("line", .ofNat line), ("character", .ofNat column)]

/-- A problem as it is reported. -/
def Problem.toJson (p : Problem) : Json :=
  .object [
    ("range", .object [("start", placeJson p.line 0), ("end", placeJson p.line p.width)]),
    ("severity", .ofNat 1), ("source", .string serverName), ("message", .string p.message)]

/-- The report of the problems of a document. -/
def reportJson (uri : String) (problem? : Option Problem) : Json :=
  .array [.string "textDocument/publishDiagnostics",
    .object [("uri", .string uri), ("diagnostics", .array (problem?.toList.map Problem.toJson))]]

/-- The number that stands for a kind of completion. -/
def ItemKind.code : ItemKind → Nat
  | function => 3
  | keyword => 14

/-- A completion as it is offered. -/
def Item.toJson (i : Item) : Json :=
  .object [("label", .string i.label), ("kind", .ofNat i.kind.code), ("detail", .string i.detail),
    ("insertText", .string i.label)]

/-- The completions as they are offered; null when there are none. -/
def itemsJson : List Item → Json
  | [] => .null
  | items => .array (items.map Item.toJson)

/-- What is known about a name, as it is shown. -/
def hoverJson : Option String → Json
  | none => .null
  | some about =>
    .object [("contents", .object [("kind", .string "markdown"), ("value", .string about)])]

/-- What the editor support can do: it is told of opened and closed documents, takes every change as a
whole text, completes names and explains them. -/
def capabilitiesJson : Json :=
  .object [
    ("capabilities", .object [
      ("textDocumentSync", .object [("openClose", .boolean true), ("change", .ofNat 1)]),
      ("completionProvider", .object []),
      ("hoverProvider", .boolean true)]),
    ("serverInfo", .object [("name", .string serverName), ("version", .string serverVersion)])]

end Editor

end LineScript
