/-
# Tokens

The words of the language. Line breaks end statements, so they are tokens; a run of them, with the
blank and comment lines between, is one.
-/

import LineScript.Code.Literal

namespace LineScript

/-- The kinds of tokens. -/
inductive TokenKind where
  | endOfInput
  | invalid
  | lineBreak
  | identifier
  | number
  | string
  | boolean
  | null
  | if_
  | then_
  | elif
  | else_
  | end_
  | while_
  | func
  | return_
  | and
  | or
  | not
  | leftParen
  | rightParen
  | leftBracket
  | rightBracket
  | leftBrace
  | rightBrace
  | comma
  | dot
  | equal
  | notEqual
  | less
  | lessEqual
  | greater
  | greaterEqual
  | plus
  | minus
  | star
  | slash
  deriving DecidableEq, Repr

namespace TokenKind

/-- The kinds in numeric order. -/
def all : List TokenKind :=
  [endOfInput, invalid, lineBreak, identifier, number, string, boolean, null, if_, then_, elif, else_,
   end_, while_, func, return_, and, or, not, leftParen, rightParen, leftBracket, rightBracket,
   leftBrace, rightBrace, comma, dot, equal, notEqual, less, lessEqual, greater, greaterEqual, plus,
   minus, star, slash]

/-- The name of a kind in messages; for symbols and reserved words it is their spelling. -/
def label : TokenKind → String
  | endOfInput => "end of input"
  | invalid => "ERROR"
  | lineBreak => "EOL"
  | identifier => "identifier"
  | number => "number"
  | string => "string"
  | boolean => "boolean"
  | null => "null"
  | if_ => "if"
  | then_ => "then"
  | elif => "elif"
  | else_ => "else"
  | end_ => "end"
  | while_ => "while"
  | func => "func"
  | return_ => "return"
  | and => "and"
  | or => "or"
  | not => "not"
  | leftParen => "("
  | rightParen => ")"
  | leftBracket => "["
  | rightBracket => "]"
  | leftBrace => "\x7b"
  | rightBrace => "\x7d"
  | comma => ","
  | dot => "."
  | equal => "="
  | notEqual => "!="
  | less => "<"
  | lessEqual => "<="
  | greater => ">"
  | greaterEqual => ">="
  | plus => "+"
  | minus => "-"
  | star => "*"
  | slash => "/"

/-- The kind with the given name. -/
def ofLabel? (name : String) : Option TokenKind :=
  all.find? (fun kind => kind.label = name)

end TokenKind

/-- A token: its kind, the constant it stands for, its text, and the line it begins on. -/
structure Token where
  kind : TokenKind
  value : Code.Literal := {}
  text : String := ""
  line : Int

namespace Token

/-- The token that stands for the end of the input. -/
def ending (line : Int) : Token := { kind := .endOfInput, line := line }

/-- The token as messages show it. -/
def shown (t : Token) : String :=
  match t.kind with
  | .identifier => "identifier(" ++ t.text ++ ")"
  | .number | .string | .boolean => t.kind.label ++ "(" ++ t.value.source ++ ")"
  | kind => kind.label

/-- The reserved words with their kinds, sorted. -/
def reserved : List (String × TokenKind) :=
  [("and", .and), ("elif", .elif), ("else", .else_), ("end", .end_), ("false", .boolean),
   ("func", .func), ("if", .if_), ("not", .not), ("null", .null), ("or", .or), ("return", .return_),
   ("then", .then_), ("true", .boolean), ("while", .while_)]

/-- The reserved words, sorted. -/
def reservedWords : List String := reserved.map (·.1)

end Token

end LineScript
