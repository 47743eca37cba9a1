/-
# The functions of a document

The functions that a document declares, found line by line without compiling, so that they are known
while the document is being written and cannot be compiled. A declaration counts when its line begins
with the keyword and holds a whole parameter list.
-/

import LineScript.Editor.Word
import LineScript.Signature

namespace LineScript.Editor

/-- What follows the keyword and a space at the front of a line. -/
def afterKeyword? (line : List Char) : Option (List Char) :=
  if "func ".toList.isPrefixOf line then some (line.drop 5) else none

/-- The function that a line declares, with its signature. -/
def declaration? (line : List Char) : Option (String × String) := do
  let rest := Text.trimChars (← afterKeyword? (Text.trimChars line))
  let before := rest.takeWhile (· ≠ '(')
  let after := rest.dropWhile (· ≠ '(')
  if before.isEmpty || after.isEmpty then none
  let name := String.ofList (Text.trimChars before)
  match Signature.parse (String.ofList after) with
  | .error _ => none
  | .ok params => if isWord name then some (name, Signature.render name params) else none

/-- The functions that a document declares, with their signatures; the last declaration of a name
counts. -/
def declared (text : String) : Dict String :=
  Dict.ofList ((Text.splitOnChar '\n' text.toList).filterMap declaration?)

end LineScript.Editor
