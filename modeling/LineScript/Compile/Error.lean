/-
# Compile errors

Compilation stops at its first error. An error has a cause, from which its kind and its wording
follow, the line and the token it was raised at, and whether that token was the end of the input: an
entry that failed there may become valid when more input follows.
-/

import LineScript.Code.Function
import LineScript.Token

namespace LineScript

/-- The classes of compile errors. -/
inductive ErrorKind where
  | unexpectedToken
  | expectedExpression
  | undefinedVariable
  | undefinedFunction
  | duplicateFunction
  | duplicateParameter
  | arityMismatch
  | nestedFunction
  | unexpectedEnd
  | invalidToken
  | internalError
  deriving DecidableEq, Repr

namespace ErrorKind

/-- The kinds in numeric order. -/
def all : List ErrorKind :=
  [unexpectedToken, expectedExpression, undefinedVariable, undefinedFunction, duplicateFunction,
   duplicateParameter, arityMismatch, nestedFunction, unexpectedEnd, invalidToken, internalError]

/-- The name of a kind. -/
def label : ErrorKind → String
  | unexpectedToken => "UnexpectedToken"
  | expectedExpression => "ExpectedExpression"
  | undefinedVariable => "UndefinedVariable"
  | undefinedFunction => "UndefinedFunction"
  | duplicateFunction => "DuplicateFunction"
  | duplicateParameter => "DuplicateParameter"
  | arityMismatch => "ArityMismatch"
  | nestedFunction => "NestedFunctionNotAllowed"
  | unexpectedEnd => "UnexpectedEnd"
  | invalidToken => "InvalidToken"
  | internalError => "InternalError"

end ErrorKind

/-- Why text is no sequence of tokens. -/
inductive LexicalCause where
  | unexpectedCharacter (c : Char)
  | unterminatedString
  | invalidEscape (c : Char)
  | numberTooLarge (digits : String)
  deriving DecidableEq, Repr

/-- The wording of a lexical error. -/
def LexicalCause.text : LexicalCause → String
  | .unexpectedCharacter c => "unexpected character: " ++ String.singleton c
  | .unterminatedString => "unterminated string"
  | .invalidEscape c => "invalid escape sequence: \\" ++ String.singleton c
  | .numberTooLarge digits => "invalid number: " ++ digits

/-- Why a compilation failed. -/
inductive CompileCause where
  /-- The grammar asks for one particular kind of token here. -/
  | unexpected (found expected : TokenKind)
  /-- A value follows a value. The token is shown in full, or by its kind when it is a bracket. -/
  | valueAfterValue (found : String)
  /-- A symbol stands where a value should begin. -/
  | symbolForValue (found : TokenKind)
  /-- A list literal can only begin an expression. -/
  | misplacedList
  | missingExpression (found : String)
  | missingValue (found : String)
  | unclosedParen (found : String)
  | undefinedVariable (name : String)
  | undefinedFunction (name : String)
  | duplicateFunction (name : String)
  | duplicateParameter (name : String)
  | arityMismatch (name : String) (expected given : Nat)
  | nestedFunction
  | strayEnd (found : TokenKind)
  | lexical (cause : LexicalCause)
  | patch (error : Code.Function.PatchError)
  | unresolvedJumps (function : String) (addresses : List Nat)
  /-- The bound on the depth of the compilation was too small. -/
  | exhausted
  deriving DecidableEq, Repr

namespace CompileCause

/-- The kind of a cause. -/
def kind : CompileCause → ErrorKind
  | unexpected _ _ | valueAfterValue _ | symbolForValue _ | misplacedList | unclosedParen _ =>
    .unexpectedToken
  | missingExpression _ | missingValue _ => .expectedExpression
  | undefinedVariable _ => .undefinedVariable
  | undefinedFunction _ => .undefinedFunction
  | duplicateFunction _ => .duplicateFunction
  | duplicateParameter _ => .duplicateParameter
  | arityMismatch _ _ _ => .arityMismatch
  | nestedFunction => .nestedFunction
  | strayEnd _ => .unexpectedEnd
  | lexical _ => .invalidToken
  | patch _ | unresolvedJumps _ _ | exhausted => .internalError

/-- The wording of a cause. -/
def text : CompileCause → String
  | unexpected found expected =>
    "unexpected token " ++ Text.quote found.label ++ ", expected " ++ Text.quote expected.label
  | valueAfterValue found => "unexpected " ++ found ++ ", expected operator"
  | symbolForValue found => "unexpected " ++ Text.quote found.label ++ ", expected value"
  | misplacedList => "unexpected list definition"
  | missingExpression found => "unexpected " ++ found ++ ", expected expression"
  | missingValue found => "unexpected " ++ found ++ ", expected value"
  | unclosedParen found => "unexpected " ++ found ++ ", expected \")\""
  | undefinedVariable name => "variable " ++ Text.quote name ++ " does not exist"
  | undefinedFunction name => "function " ++ Text.quote name ++ " does not exist"
  | duplicateFunction name => "function " ++ Text.quote name ++ " already exists"
  | duplicateParameter name => "parameter name " ++ Text.quote name ++ " is already used"
  | arityMismatch name expected given =>
    "function " ++ Text.quote name ++ " expects " ++ toString expected ++ " arguments, not "
      ++ toString given
  | nestedFunction => "nested functions are not allowed"
  | strayEnd found => "unexpected " ++ Text.quote found.label
  | lexical cause => cause.text
  | patch error => error.message
  | unresolvedJumps function addresses =>
    "function " ++ Text.quote function ++ " has unresolved jumps at ["
      ++ Text.joined " " (addresses.map toString) ++ "]"
  | exhausted => "compilation nests too deeply"

end CompileCause

/-- A compile error. -/
structure CompileError where
  cause : CompileCause
  line : Int
  /-- The offending token, if there is one. -/
  token : String := ""
  /-- Whether the error was raised because the input ended. -/
  atEnd : Bool := false
  deriving DecidableEq, Repr

namespace CompileError

/-- The kind of an error. -/
def kind (e : CompileError) : ErrorKind := e.cause.kind

/-- The wording of an error without its position. -/
def detail (e : CompileError) : String := e.cause.text

/-- The wording of an error. -/
def message (e : CompileError) : String :=
  "line " ++ toString e.line ++ ": " ++ e.detail

/-- An error raised at a token. -/
def at_ (t : Token) (cause : CompileCause) : CompileError :=
  { cause := cause, line := t.line, token := t.shown, atEnd := t.kind = .endOfInput }

/-- Whether more input could make a failed entry valid. -/
def isIncomplete (e : CompileError) : Bool := e.atEnd

end CompileError

end LineScript
