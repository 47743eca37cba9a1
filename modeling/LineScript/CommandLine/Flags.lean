/-
# Flags

The flags of the command line. A flag begins with one hyphen or two; a value follows an equals sign or
is the next argument, except that a switch takes a value only after an equals sign. Flags end at the
first argument that is none, or after two hyphens alone.
-/

import LineScript.Number.Integer
import LineScript.Number.Reading
import LineScript.Text.Quoted

namespace LineScript.CommandLine

/-- What the command line asks for. -/
structure Flags where
  disasm : Bool := false
  output : String := ""
  compileOnly : Bool := false
  cachePath : String := ""
  interactive : Bool := false
  serve : Bool := false
  port : Int := 4870
  editor : Bool := false
  verbosity : Int := -1
  trace : Bool := false
  /-- What follows the flags. -/
  arguments : List String := []
  deriving DecidableEq, Repr

/-- Why flags could not be read. -/
inductive FlagError where
  | badSyntax (argument : String)
  | unknown (name : String)
  | badSwitch (name value : String)
  | badValue (name value : String)
  | outOfRange (name value : String)
  | noValue (name : String)
  | help
  deriving DecidableEq, Repr

/-- The wording of a flag error. A request for help is not one. -/
def FlagError.message : FlagError → String
  | badSyntax argument => "bad flag syntax: " ++ argument
  | unknown name => "flag provided but not defined: -" ++ name
  | badSwitch name value => "invalid boolean value " ++ Text.quote value ++ " for -" ++ name ++ ": parse error"
  | badValue name value => "invalid value " ++ Text.quote value ++ " for flag -" ++ name ++ ": parse error"
  | outOfRange name value =>
    "invalid value " ++ Text.quote value ++ " for flag -" ++ name ++ ": value out of range"
  | noValue name => "flag needs an argument: -" ++ name
  | help => ""

/-- What a flag sets. -/
inductive Flag where
  | switch (set : Flags → Bool → Flags)
  | text (set : Flags → String → Flags)
  | integer (set : Flags → Int → Flags)

/-- The flag with a name. -/
def flag? (name : String) : Option Flag :=
  match name with
  | "d" => some (.switch fun f b => { f with disasm := b })
  | "o" => some (.text fun f s => { f with output := s })
  | "c" => some (.switch fun f b => { f with compileOnly := b })
  | "cache" => some (.text fun f s => { f with cachePath := s })
  | "i" => some (.switch fun f b => { f with interactive := b })
  | "serve" => some (.switch fun f b => { f with serve := b })
  | "port" => some (.integer fun f n => { f with port := n })
  | "lsp" => some (.switch fun f b => { f with editor := b })
  | "v" => some (.integer fun f n => { f with verbosity := n })
  | "trace" => some (.switch fun f b => { f with trace := b })
  | _ => none

/-- The truth value that a text stands for. -/
def truth? (s : String) : Option Bool :=
  if ["1", "t", "T", "TRUE", "true", "True"].contains s then some true
  else if ["0", "f", "F", "FALSE", "false", "False"].contains s then some false
  else none

/-- The digits of an integer in some base, with low lines between them, and whether the base is
sixteen; `true` first if the mark of a base came before. -/
def digitsOf : List Char → Bool × Number.Base × List Char
  | '0' :: mark :: digits =>
    if mark == 'x' || mark == 'X' then (true, .sixteen, digits)
    else if mark == 'o' || mark == 'O' || mark == 'b' || mark == 'B' then (true, .ten, digits)
    else (false, .ten, '0' :: mark :: digits)
  | digits => (false, .ten, digits)

/-- The integer that a text stands for, in a base that its front shows. Low lines may stand between
digits and after the mark of the base. -/
def integer? (cs : List Char) : Option Int :=
  let unsigned := match cs with
    | '-' :: rest => rest
    | '+' :: rest => rest
    | cs => cs
  let (marked, base, digits) := digitsOf unsigned
  if cs.contains '_' && !Number.lowLinesSeparate base marked false digits then none
  else Number.integer? (cs.filter (· ≠ '_'))

/-- The name of a flag, and its value if it follows an equals sign. -/
def nameAndValue (body : List Char) : String × Option String :=
  match body.dropWhile (· ≠ '=') with
  | [] => (String.ofList body, none)
  | _ :: value => (String.ofList (body.takeWhile (· ≠ '=')), some (String.ofList value))

/-- What an argument is to the reader of flags. -/
inductive Argument where
  /-- The flags end before the argument. -/
  | stop
  /-- The flags end with the argument. -/
  | finish
  | malformed
  | flag (name : String) (value? : Option String)

/-- What an argument is to the reader of flags. -/
def Argument.of (s : String) : Argument :=
  let ofBody (body : List Char) : Argument :=
    match body.head? with
    | none | some '-' | some '=' => .malformed
    | some _ => let (name, value?) := nameAndValue body; .flag name value?
  match s.toList with
  | ['-', '-'] => .finish
  | '-' :: '-' :: body => ofBody body
  | '-' :: c :: body => ofBody (c :: body)
  | _ => .stop

/-- Sets a flag to a value that was given. -/
def Flag.set (flag : Flag) (f : Flags) (name value : String) : Except FlagError Flags :=
  match flag with
  | .switch set => match truth? value with
    | some b => .ok (set f b)
    | none => .error (.badSwitch name value)
  | .text set => .ok (set f value)
  | .integer set => match integer? value.toList with
    | some n => if Number.fits64 n then .ok (set f n) else .error (.outOfRange name value)
    | none => .error (.badValue name value)

/-- Reads the flags at the front of the arguments. -/
def Flags.readFrom (f : Flags) : List String → Except FlagError Flags
  | [] => .ok f
  | argument :: rest =>
    match Argument.of argument with
    | .stop => .ok { f with arguments := argument :: rest }
    | .finish => .ok { f with arguments := rest }
    | .malformed => .error (.badSyntax argument)
    | .flag name value? =>
      match flag? name, value? with
      | none, _ => .error (if name = "help" || name = "h" then .help else .unknown name)
      | some (.switch set), none => Flags.readFrom (set f true) rest
      | some flag, some value => do Flags.readFrom (← flag.set f name value) rest
      | some flag, none =>
        match rest with
        | [] => .error (.noValue name)
        | value :: rest => do Flags.readFrom (← flag.set f name value) rest

/-- Reads the flags of a command line. -/
def Flags.read (arguments : List String) : Except FlagError Flags := Flags.readFrom {} arguments

/-- How the command line is used. -/
def usage : String :=
  "Usage: luiggi [options] [script]\n\n"
    ++ "Compiles and runs a Luiggi script, or the entry of the nearest luiggi.toml.\n\n"
    ++ "Options:\n"
    ++ "  -c\tCompile only, do not run\n"
    ++ "  -cache path\n    \tCompile cache database path\n"
    ++ "  -d\tPrint the disassembled program\n"
    ++ "  -i\tStart interactive REPL\n"
    ++ "  -lsp\n    \tStart the language server on stdio\n"
    ++ "  -o file\n    \tWrite the compiled program to file\n"
    ++ "  -port int\n    \tCompiler service port (used with -serve) (default 4870)\n"
    ++ "  -serve\n    \tStart the compiler service (Connect HTTP/JSON)\n"
    ++ "  -trace\n    \tTrace every executed instruction to stderr\n"
    ++ "  -v int\n    \tLog verbosity (0 quiet, 1 info, 2 debug) (default -1)\n"
    ++ "\nExamples:\n"
    ++ "  luiggi hello.lg              # Run a script\n"
    ++ "  luiggi -d -c hello.lg        # Show bytecode without running\n"
    ++ "  luiggi -o hello.lgc hello.lg # Save the compiled program\n"
    ++ "  luiggi hello.lgc             # Run a compiled program\n"
    ++ "  luiggi -i                    # Start REPL\n"
    ++ "  luiggi -serve -port 8080     # Serve the compiler on :8080\n"

end LineScript.CommandLine
