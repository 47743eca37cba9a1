/-
# Statements of a TOML text

A TOML text is a list of statements: headers that open a table or add a table to a list, and
assignments. A statement is read with the values it holds; whether the statements fit together is
decided when a document is built from them.
-/

namespace LineScript.Toml

/-- A key: its parts, from the outermost table inwards. -/
abbrev Key := List String

/-- A written value. Numbers with a fraction and points in time only have to be well formed: no setting
takes one. -/
inductive Written where
  | string (s : String)
  | integer (n : Int)
  | boolean (b : Bool)
  | fraction
  | moment
  | array (items : List Written)
  | inline (members : List (Key × Written))

/-- A statement. -/
inductive Statement where
  | table (key : Key)
  | tableOfList (key : Key)
  | assignment (key : Key) (value : Written)

end LineScript.Toml
