import Arbor.Power
import Arbor.Text.Blank
import Arbor.Text.Escape
import Arbor.Text.Printable
import Arbor.Text.Quoted
import Arbor.Decimal.Parts
import Arbor.Decimal.Reader
import Arbor.Decimal.Shortest
import Arbor.Decimal.Text
import Arbor.Json.Basic
import Arbor.Json.Scalar
import Arbor.Json.Skip
import Arbor.Json.Reader
import Arbor.Json.Writer
import Arbor.Syntax.Span
import Arbor.Syntax.Operator
import Arbor.Syntax.Tree
import Arbor.Syntax.Encode
import Arbor.Syntax.Decode
import Arbor.Syntax.Outline
import Arbor.Diagnostic
import Arbor.Config
import Arbor.Value.Kind
import Arbor.Value.Error
import Arbor.Value.Basic
import Arbor.Value.Operator
import Arbor.Value.Embedded
import Arbor.Environment
import Arbor.Evaluation.Run
import Arbor.Evaluation.Variable
import Arbor.Evaluation.Array
import Arbor.Evaluation.Control
import Arbor.Evaluation.Evaluator
import Arbor.Evaluation.Session
import Arbor.Assembly.Register
import Arbor.Assembly.Instruction
import Arbor.Assembly.Assembler
import Arbor.Assembly.Data
import Arbor.Assembly.Routine.Basic
import Arbor.Assembly.Routine.Strings
import Arbor.Assembly.Routine.Numbers
import Arbor.Assembly.Routine.Guards
import Arbor.Assembly.Routine.Arrays
import Arbor.Assembly.Routine
import Arbor.Assembly.File
import Arbor.Lowering.Error
import Arbor.Lowering.Frame
import Arbor.Lowering.JumpTargets
import Arbor.Lowering.State
import Arbor.Lowering.Literal
import Arbor.Lowering.Operator
import Arbor.Lowering.Variable
import Arbor.Lowering.Element
import Arbor.Lowering.Call
import Arbor.Lowering.Expression
import Arbor.Lowering.Region
import Arbor.Lowering.Declaration
import Arbor.Lowering.Control
import Arbor.Lowering.Print
import Arbor.Lowering.Statement
import Arbor.Lowering.Generator
import Arbor.Toml.Basic
import Arbor.Toml.Lexical
import Arbor.Toml.Scalar
import Arbor.Toml.Reader
import Arbor.Manifest
import Arbor.CommandLine.Arguments
import Arbor.CommandLine.Path
import Arbor.CommandLine.Host
import Arbor.CommandLine.Directory
import Arbor.CommandLine.Load
import Arbor.CommandLine.Run
import Arbor.CommandLine.Init
import Arbor.CommandLine.Generate
import Arbor.CommandLine.Tool
import Arbor.Main
import Arbor.Proofs.Value.WellKinded
import Arbor.Proofs.Evaluation.Triple
import Arbor.Proofs.Evaluation.Store
import Arbor.Proofs.Evaluation.WellKinded
import Arbor.Proofs.Evaluation.Moment
import Arbor.Proofs.Evaluation.StoreSoundness
import Arbor.Proofs.Value.Renaming
import Arbor.Proofs.Environment.Renaming
import Arbor.Proofs.Evaluation.Matching
import Arbor.Proofs.Evaluation.Renaming
import Arbor.Proofs.Evaluation.Desugaring
import Arbor.Proofs.Lowering.Frame
import Arbor.Proofs.Lowering.Code
import Arbor.Proofs.Lowering.Outcome
import Arbor.Proofs.Lowering.ExpressionCode
import Arbor.Proofs.Lowering.StatementCode
import Arbor.Proofs.Lowering.Level
import Arbor.Proofs.Lowering.Labels
import Arbor.Proofs.Lowering.StackDiscipline
import Arbor.Proofs.Evaluation.Stack
import Arbor.Proofs.Agreement.Scopes
import Arbor.Proofs.Agreement.Operators
import Arbor.Proofs.Agreement.Names
import Arbor.Proofs.Agreement.Store
import Arbor.Proofs.Agreement.Expressions
import Arbor.Proofs.Agreement.Declarations
import Arbor.Proofs.Agreement.Statements
import Arbor.Proofs.Agreement.Execution
import Arbor.Proofs.Agreement.Meeting
import Arbor.Proofs.Agreement.Soundness
import Arbor.Proofs.Agreement.Resolution
import Arbor.Proofs.Agreement.NameSafety
import Arbor.Proofs.Agreement.NameMeeting
import Arbor.Proofs.Evaluation.Balance
import Arbor.Proofs.Environment.Mirror
import Arbor.Proofs.Environment.Reclamation
import Arbor.Proofs.Assembly.Routines
import Arbor.Proofs.Assembly.Symbols
import Arbor.Proofs.Lowering.References
import Arbor.Proofs.Lowering.Closed
import Arbor.Proofs.Lowering.Effects
import Arbor.Proofs.Lowering.NetEffect
import Arbor.Proofs.Machine.Basic
import Arbor.Proofs.Machine.Memory
import Arbor.Proofs.Machine.Listing
import Arbor.Proofs.Machine.Division
import Arbor.Proofs.Machine.Words
import Arbor.Proofs.Machine.Cells
import Arbor.Proofs.Machine.Tracker
import Arbor.Proofs.Machine.Tracking
import Arbor.Proofs.Machine.Stack
import Arbor.Proofs.Machine.Process
import Arbor.Proofs.Machine.Expressions
import Arbor.Proofs.Machine.Printing
import Arbor.Proofs.Machine.Statements
import Arbor.Proofs.Machine.Switches
import Arbor.Proofs.Machine.Execution
import Arbor.Proofs.Machine.Loading
import Arbor.Proofs.Machine.Programs
import Arbor.Proofs.Machine.Floats
import Arbor.Proofs.Machine.Calls
import Arbor.Proofs.Machine.Footprint
import Arbor.Proofs.Machine.Digits
import Arbor.Proofs.Machine.Leaves
import Arbor.Proofs.Machine.Frames
import Arbor.Proofs.Machine.Convention
import Arbor.Proofs.Syntax.Decode
import Arbor.Proofs.Json.Number
import Arbor.Proofs.Json.Text
import Arbor.Proofs.Syntax.Text
import Arbor.Proofs.Evaluation.LoopFree
import Arbor.Proofs.Evaluation.Termination
import Arbor.Proofs.Evaluation.FirstError
import Arbor.Proofs.Evaluation.Extension
import Arbor.Proofs.Evaluation.CallDepth
import Arbor.Proofs.Assembly.Text
import Arbor.Proofs.Lowering.Comments
import Arbor.Proofs.Environment.Assignment
import Arbor.Proofs.Lowering.Places
import Arbor.Proofs.Machine.Passage
import Arbor.Proofs.Machine.AnyStack
import Arbor.Proofs.Evaluation.Refusals
import Arbor.Proofs.Machine.Region
import Arbor.Proofs.Machine.Workspace
import Arbor.Proofs.Machine.Elements
import Arbor.Proofs.Machine.Following
import Arbor.Proofs.Machine.CompoundAssignment
import Arbor.Proofs.Machine.Trace
import Arbor.Proofs.Machine.Bodies
import Arbor.Proofs.Machine.Rounds
import Arbor.Proofs.Machine.Iteration
import Arbor.Proofs.Machine.HeapTexts
import Arbor.Proofs.Machine.TextExpressions
import Arbor.Proofs.Machine.HeapBodies
import Arbor.Proofs.Machine.Arena
import Arbor.Proofs.Machine.Filling
import Arbor.Proofs.Machine.Construction
import Arbor.Proofs.Machine.ArrayDeclarations
import Arbor.Proofs.Machine.Unrolling
import Arbor.Proofs.Evaluation.Signals
import Arbor.Proofs.Machine.Bytes
import Arbor.Proofs.Machine.Strings
import Arbor.Proofs.Decimal.Reader
import Arbor.Proofs.Machine.Parsing
import Arbor.Proofs.Machine.Numerals
import Arbor.Proofs.Machine.Chars
import Arbor.Proofs.Machine.ArrayContents
import Arbor.Proofs.Machine.ArraySearch
import Arbor.Proofs.Machine.ArrayOutput
import Arbor.Proofs.Machine.ArrayJoin
import Arbor.Proofs.Machine.ArrayRoutines
import Arbor.Proofs.Value.Display
import Arbor.Proofs.Text.Escape
import Arbor.Proofs.Lowering.Parts
import Arbor.Proofs.Lowering.Immediates
import Arbor.Proofs.Toml.Strings
import Arbor.Proofs.Toml.Documents
import Arbor.Proofs.Toml.Lines
import Arbor.Proofs.CommandLine.Files
import Arbor.Proofs.CommandLine.Init
import Arbor.Proofs.Lowering.Layers
