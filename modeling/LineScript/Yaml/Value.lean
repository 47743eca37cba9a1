/-
# YAML values

What the nodes of a document stand for. A mapping whose keys are all texts is kept apart from one with
other keys.
-/

import LineScript.Number.Written
import LineScript.Text.Quoted
import LineScript.Text.Utf8
import LineScript.Yaml.Moment

namespace LineScript.Yaml

open LineScript.Text (Bytes)

/-- What a node stands for. Texts are bytes, because a document can hold binary data. -/
inductive Value where
  | null
  | boolean (b : Bool)
  | integer (n : Int)
  | float (x : Float)
  | moment (m : Moment)
  | text (bytes : Bytes)
  | list (items : List Value)
  /-- A mapping whose keys are texts. -/
  | record (members : List (Bytes × Value))
  /-- A mapping with other keys. -/
  | table (members : List (Value × Value))

instance : Inhabited Value := ⟨.null⟩

namespace Value

/-- Whether two values are the same key. Lists and mappings are no keys. -/
def sameKey : Value → Value → Bool
  | null, null => true
  | boolean a, boolean b => a == b
  | integer m, integer n => m == n
  | float x, float y => x == y
  | moment m, moment n => m == n
  | text s, text t => s == t
  | _, _ => false

/-- The place of a kind of key among all kinds, where keys are listed in order. -/
def keyRank : Value → Nat
  | null => 0
  | boolean _ => 1
  | integer _ => 2
  | float _ => 3
  | text _ => 4
  | _ => 5

/-- Whether a key is listed before another one or is the same. -/
def keyLe : Value → Value → Bool
  | boolean a, boolean b => !a || b
  | integer m, integer n => m ≤ n
  | float x, float y => x ≤ y || !(x == x)
  | text s, text t => s ≤ t
  | a, b => a.keyRank ≤ b.keyRank

/-- A number in hexadecimal digits. -/
def hexText (n : Nat) : String := "0x" ++ String.ofList (Nat.toDigits 16 n)

/-- The kind of a value that cannot be a key. -/
def kindName : Value → String
  | list _ => "[]interface \x7b\x7d"
  | record _ => "map[string]interface \x7b\x7d"
  | _ => "map[interface \x7b\x7d]interface \x7b\x7d"

mutual

/-- A value with the kinds of its parts, as failures show one that cannot be a key. An integer past the
signed ones is written in hexadecimal digits. -/
def detailed : Value → String
  | null => "interface \x7b\x7d(nil)"
  | boolean b => if b then "true" else "false"
  | integer n => if Number.fits64 n then toString n else hexText n.toNat
  | float x => Number.written x
  | moment m => m.detailed
  | text bytes => Text.quoteBytes bytes
  | list items => "[]interface \x7b\x7d\x7b" ++ Text.joined ", " (detailedItems items) ++ "\x7d"
  | record members =>
    let shown := (detailedRecord members).mergeSort fun a b => a.1 ≤ b.1
    "map[string]interface \x7b\x7d\x7b" ++ Text.joined ", " (shown.map (·.2)) ++ "\x7d"
  | table members =>
    let shown := (detailedTable members).mergeSort fun a b => keyLe a.1 b.1
    "map[interface \x7b\x7d]interface \x7b\x7d\x7b" ++ Text.joined ", " (shown.map (·.2)) ++ "\x7d"

/-- The forms of values in a row. -/
def detailedItems : List Value → List String
  | [] => []
  | item :: rest => detailed item :: detailedItems rest

/-- The forms of members, with their keys. -/
def detailedRecord : List (Bytes × Value) → List (Bytes × String)
  | [] => []
  | (key, value) :: rest =>
    (key, Text.quoteBytes key ++ ":" ++ detailed value) :: detailedRecord rest

/-- The forms of members whose keys are values, with their keys. -/
def detailedTable : List (Value × Value) → List (Value × String)
  | [] => []
  | (key, value) :: rest => (key, detailed key ++ ":" ++ detailed value) :: detailedTable rest

end

end Value

end LineScript.Yaml
