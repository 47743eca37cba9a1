import LineScript.Cache
import LineScript.Code.Function
import LineScript.Code.Literal
import LineScript.Code.Opcode
import LineScript.Code.Program
import LineScript.CommandLine
import LineScript.CommandLine.Flags
import LineScript.CommandLine.History
import LineScript.CommandLine.Prompt
import LineScript.Compile.Compiler
import LineScript.Compile.Draft
import LineScript.Compile.Error
import LineScript.Compile.Expression
import LineScript.Compile.Statement
import LineScript.Dict
import LineScript.Digest.Blake2b
import LineScript.Editor
import LineScript.Editor.Declared
import LineScript.Editor.Word
import LineScript.Files
import LineScript.Files.Path
import LineScript.Json
import LineScript.Machine.Fault
import LineScript.Machine.Operator
import LineScript.Machine.Run
import LineScript.Machine.Shown
import LineScript.Machine.State
import LineScript.Machine.Step
import LineScript.Machine.Value
import LineScript.Main
import LineScript.Manifest
import LineScript.Native.Standard
import LineScript.Native.Stub
import LineScript.Number.Dyadic
import LineScript.Number.Integer
import LineScript.Number.Power
import LineScript.Number.Reading
import LineScript.Number.Shortest
import LineScript.Number.Written
import LineScript.Proofs.Behaviour
import LineScript.Proofs.CachedService
import LineScript.Proofs.CallTargets
import LineScript.Proofs.Calls
import LineScript.Proofs.CompilationSteps
import LineScript.Proofs.CompiledCode
import LineScript.Proofs.Conditionals
import LineScript.Proofs.DataItems
import LineScript.Proofs.Doubles
import LineScript.Proofs.Drafts
import LineScript.Proofs.Echoes
import LineScript.Proofs.Emission
import LineScript.Proofs.EncodedTexts
import LineScript.Proofs.Entries
import LineScript.Proofs.Evaluator
import LineScript.Proofs.ExpressionTrees
import LineScript.Proofs.ExpressionTurns
import LineScript.Proofs.FloatLayouts
import LineScript.Proofs.FrameIsolation
import LineScript.Proofs.HostileBytes
import LineScript.Proofs.JoinedEntries
import LineScript.Proofs.JoinedRuns
import LineScript.Proofs.JoinedTexts
import LineScript.Proofs.Limits
import LineScript.Proofs.LongerInput
import LineScript.Proofs.OperatorStack
import LineScript.Proofs.Operators
import LineScript.Proofs.Precedence
import LineScript.Proofs.Preservation
import LineScript.Proofs.ProgramTrees
import LineScript.Proofs.Recasting
import LineScript.Proofs.Rendering
import LineScript.Proofs.RepeatedStatements
import LineScript.Proofs.Runs
import LineScript.Proofs.Safety
import LineScript.Proofs.Scanning
import LineScript.Proofs.Scope
import LineScript.Proofs.Sessions
import LineScript.Proofs.Signatures
import LineScript.Proofs.Simulation
import LineScript.Proofs.StackDiscipline
import LineScript.Proofs.StackHeights
import LineScript.Proofs.StatementTrees
import LineScript.Proofs.StoredPrograms
import LineScript.Proofs.TokenSizes
import LineScript.Proofs.Tree
import LineScript.Proofs.WellFormed
import LineScript.Proofs.WireRoundTrip
import LineScript.Proofs.WrittenExpressions
import LineScript.Proofs.WrittenStatements
import LineScript.Registry
import LineScript.Service
import LineScript.Service.Address
import LineScript.Service.Message
import LineScript.Session
import LineScript.Signature
import LineScript.Suite
import LineScript.Suite.Expectation
import LineScript.Text.Base64
import LineScript.Text.Blank
import LineScript.Text.Digit
import LineScript.Text.Hex
import LineScript.Text.Letter
import LineScript.Text.Printable
import LineScript.Text.Quoted
import LineScript.Text.Ranges
import LineScript.Text.Utf8
import LineScript.Token
import LineScript.Token.Lexer
import LineScript.Toml.Document
import LineScript.Toml.Reader
import LineScript.Toml.Scalar
import LineScript.Toml.Statement
import LineScript.Wire.Head
import LineScript.Wire.Item
import LineScript.Wire.Layout
import LineScript.Wire.Stored
import LineScript.Yaml.Cursor
import LineScript.Yaml.Decode
import LineScript.Yaml.Meaning
import LineScript.Yaml.Moment
import LineScript.Yaml.Node
import LineScript.Yaml.Reader
import LineScript.Yaml.Scalar
import LineScript.Yaml.Source
import LineScript.Yaml.Tag
import LineScript.Yaml.Token
import LineScript.Yaml.TokenStream
import LineScript.Yaml.Value
import LineScript.Proofs.OversizedPrograms
import LineScript.Proofs.CacheHistories
import LineScript.Proofs.NameResolution
import LineScript.Proofs.VariableScopes
import LineScript.Proofs.CompleteCalls
import LineScript.Proofs.CompleteScripts
import LineScript.Proofs.CompletedExpressions
import LineScript.Proofs.CompletedStatements
import LineScript.Proofs.Completions
import LineScript.Proofs.DecodedTexts
import LineScript.Proofs.Blanks
import LineScript.Proofs.Lexemes
import LineScript.Proofs.TokenSpans
import LineScript.Proofs.LineByLine
import LineScript.Proofs.JumpStructure
import LineScript.Proofs.LoopFreeRuns
import LineScript.Proofs.CalleeRuns
import LineScript.Proofs.ShortCircuit
import LineScript.Proofs.KeyMaterial
import LineScript.Proofs.Failures
import LineScript.Proofs.TokenSequences
import LineScript.Proofs.PrintedTokens
import LineScript.Proofs.UnfoldedValues
import LineScript.Proofs.SignedNumbers
import LineScript.Proofs.SpelledData
import LineScript.Proofs.DataLiterals
import LineScript.Proofs.BuiltData
import LineScript.Proofs.PrintedValues
import LineScript.Proofs.BackPatching
import LineScript.Proofs.Comparison
import LineScript.Proofs.Lockstep
import LineScript.Proofs.LockstepStatements
import LineScript.Proofs.AddedNatives
import LineScript.Proofs.Positions
import LineScript.Proofs.AgreedArities
import LineScript.Proofs.CutCycles
import LineScript.Proofs.WordsAtCursor
import LineScript.Proofs.FunctionHeaders
import LineScript.Proofs.HeaderLines
import LineScript.Proofs.DeclaredFunctions
import LineScript.Proofs.Objects
import LineScript.Proofs.References
import LineScript.Proofs.ObjectSettings
import LineScript.Proofs.ObjectHistories
import LineScript.Proofs.InputEnd
import LineScript.Proofs.ExpressionProgress
import LineScript.Proofs.StatementProgress
import LineScript.Proofs.CompilerProgress
