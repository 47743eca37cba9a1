/-
# Expectations

What a case of a test suite expects of its script: a value, the text of a value, the output, or an
error. Expected values are plain data written in YAML; every number is compared as a floating point
number.
-/

import LineScript.Machine.Run
import LineScript.Yaml.Decode

namespace LineScript.Suite

open LineScript.Machine (Data)
open LineScript.Text (Bytes)

/-- What a case expects. Texts are bytes, because they can be written as binary data. -/
structure Expectation where
  /-- The expected value, as it is written. -/
  value? : Option Yaml.Node := none
  repr : Bytes := []
  output? : Option Bytes := none
  error : Bytes := []
  message : Bytes := []

/-! ## Expected values -/

/-- Why a written value cannot be compared with values of scripts. -/
inductive Unsupported where
  | moment
  /-- A mapping with a key that is no text. -/
  | mappingKey
  deriving DecidableEq, Repr

/-- The wording of an unsupported value. -/
def Unsupported.message : Unsupported → String
  | moment => "unsupported YAML type: time.Time"
  | mappingKey => "unsupported YAML type: map[interface \x7b\x7d]interface \x7b\x7d"

/-- Plain data that is expected; all numbers are floating point numbers. -/
inductive Wanted where
  | null
  | number (x : Float)
  | text (bytes : Bytes)
  | boolean (b : Bool)
  | list (items : List Wanted)
  | object (members : List (Bytes × Wanted))

mutual

/-- The data that a written value stands for. -/
def wanted : Yaml.Value → Except Unsupported Wanted
  | .null => .ok .null
  | .boolean b => .ok (.boolean b)
  | .integer n => .ok (.number (Yaml.ofInteger n))
  | .float x => .ok (.number x)
  | .moment _ => .error .moment
  | .text bytes => .ok (.text bytes)
  | .list items => (wantedItems items).map .list
  | .record members => (wantedMembers members).map .object
  | .table _ => .error .mappingKey

/-- The data of values in a row. -/
def wantedItems : List Yaml.Value → Except Unsupported (List Wanted)
  | [] => .ok []
  | item :: rest => do
    let d ← wanted item
    let ds ← wantedItems rest
    .ok (d :: ds)

/-- The data of members. -/
def wantedMembers : List (Bytes × Yaml.Value) → Except Unsupported (List (Bytes × Wanted))
  | [] => .ok []
  | (key, value) :: rest => do
    let d ← wanted value
    let ds ← wantedMembers rest
    .ok ((key, d) :: ds)

end

mutual

/-- Whether data is as expected; members may come in any order. -/
def Wanted.fits : Wanted → Data → Bool
  | .null, .null => true
  | .number x, .number y => x == y
  | .text bytes, .string s => bytes == Text.encode s
  | .boolean a, .boolean b => a == b
  | .list xs, .list ys => fitItems xs ys
  | .object ms, .object ns => ms.length == ns.length && fitMembers ms ns
  | _, _ => false

/-- Whether data in a row is as expected one by one. -/
def fitItems : List Wanted → List Data → Bool
  | [], [] => true
  | x :: xs, y :: ys => x.fits y && fitItems xs ys
  | _, _ => false

/-- Whether every expected member has one that fits among others. -/
def fitMembers : List (Bytes × Wanted) → List (String × Data) → Bool
  | [], _ => true
  | (key, value) :: rest, others =>
    (match others.find? fun m => Text.encode m.1 == key with
      | some (_, other) => value.fits other
      | none => false)
      && fitMembers rest others

end

/-- Texts in bytes with a blank between. -/
def spaced : List Bytes → Bytes
  | [] => []
  | [text] => text
  | text :: rest => text ++ Text.encode " " ++ spaced rest

mutual

/-- Data as failures show it: texts stand bare, and members are sorted by key. -/
def Wanted.shown : Wanted → Bytes
  | .null => Text.encode "<nil>"
  | .number x => Text.encode (Number.written x)
  | .text bytes => bytes
  | .boolean b => Text.encode (if b then "true" else "false")
  | .list items => Text.encode "[" ++ spaced (shownItems items) ++ Text.encode "]"
  | .object members =>
    let sorted := (shownMembers members).mergeSort fun a b => a.1 ≤ b.1
    Text.encode "map[" ++ spaced (sorted.map (·.2)) ++ Text.encode "]"

/-- The texts of data in a row. -/
def shownItems : List Wanted → List Bytes
  | [] => []
  | item :: rest => item.shown :: shownItems rest

/-- The texts of members, with their keys. -/
def shownMembers : List (Bytes × Wanted) → List (Bytes × Bytes)
  | [] => []
  | (key, value) :: rest => (key, key ++ Text.encode ":" ++ value.shown) :: shownMembers rest

end

/-! ## Judging a run -/

/-- How the script of a case ended. -/
structure Ending where
  /-- The class and the wording of the error, if there was one. -/
  error? : Option (String × String) := none
  output : String := ""
  /-- The value as it would be written in a script, and as plain data. -/
  repr : String := "null"
  data : Data := .null

/-- Whether bytes occur among others. -/
def occursIn (part : Bytes) : Bytes → Bool
  | [] => part.isEmpty
  | b :: rest => part.isPrefixOf (b :: rest) || occursIn part rest

/-- Whether nothing is expected. -/
def Expectation.isVoid (e : Expectation) : Bool :=
  e.value?.isNone && e.repr.isEmpty && e.output?.isNone && e.error.isEmpty

/-- What is wrong with the error of a run, or the lack of one. -/
def Expectation.errorFailure? (e : Expectation) (ending : Ending) : Option Bytes :=
  let expected := Text.encode "expected error " ++ e.error
  match ending.error? with
  | none =>
    if e.error.isEmpty then none else some (expected ++ Text.encode (", got value: " ++ ending.repr))
  | some (kind, message) =>
    if e.error.isEmpty then some (Text.encode ("unexpected error: " ++ message))
    else if Text.encode kind ≠ e.error then
      some (expected ++ Text.encode (", got " ++ kind ++ ": " ++ message))
    else if !e.message.isEmpty && !occursIn e.message (Text.encode message) then
      some (Text.encode
        ("error " ++ Text.quote message ++ " does not mention " ++ Text.quoteBytes e.message))
    else none

/-- What is wrong with the output of a run. -/
def Expectation.outputFailure? (e : Expectation) (ending : Ending) : Option Bytes :=
  match e.output? with
  | none => none
  | some output =>
    if Text.encode ending.output = output then none
    else
      some (Text.encode
        ("expected output " ++ Text.quoteBytes output ++ ", got " ++ Text.quote ending.output))

/-- What is wrong with the text of the value of a run. -/
def Expectation.reprFailure? (e : Expectation) (ending : Ending) : Option Bytes :=
  if e.repr.isEmpty || Text.encode ending.repr = e.repr then none
  else some (Text.encode "expected " ++ e.repr ++ Text.encode (", got " ++ ending.repr))

/-- What is wrong with the value of a run. -/
def Expectation.valueFailure? (e : Expectation) (document : Yaml.Document) (ending : Ending) :
    Option Bytes :=
  let unconvertible (cause : String) : Option Bytes :=
    some (Text.encode ("failed to convert expected value: " ++ cause))
  match e.value? with
  | none => none
  | some node =>
    match document.valueOf node with
    | .error cause => unconvertible cause.message
    | .ok value =>
      match wanted value with
      | .error cause => unconvertible cause.message
      | .ok want =>
        if want.fits ending.data then none
        else some (Text.encode "expected " ++ want.shown ++ Text.encode (", got " ++ ending.repr))

/-- The first thing that is not as expected, in a case of a document. -/
def Expectation.failure? (e : Expectation) (document : Yaml.Document) (ending : Ending) :
    Option Bytes :=
  if e.isVoid then some (Text.encode "no expectation specified")
  else
    e.errorFailure? ending <|> e.outputFailure? ending <|> e.reprFailure? ending
      <|> e.valueFailure? document ending

end LineScript.Suite
