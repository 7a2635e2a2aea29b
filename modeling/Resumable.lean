import Resumable.Bytecode.Code
import Resumable.Bytecode.Decode
import Resumable.Bytecode.Listing
import Resumable.Bytecode.Op
import Resumable.Bytecode.Outline
import Resumable.Command
import Resumable.Command.Arguments
import Resumable.Command.Files
import Resumable.Command.Path
import Resumable.Compile
import Resumable.Diagnostic
import Resumable.Document
import Resumable.Document.Reader
import Resumable.Engine
import Resumable.Excerpt
import Resumable.Expr
import Resumable.Expr.Handlers
import Resumable.Expr.Reader
import Resumable.Failure
import Resumable.Library
import Resumable.Library.Data
import Resumable.Library.Numbers
import Resumable.Library.Table
import Resumable.Machine
import Resumable.Machine.Call
import Resumable.Machine.Effect
import Resumable.Machine.Run
import Resumable.Machine.Step
import Resumable.Main
import Resumable.Number.Decimal
import Resumable.Number.Dyadic
import Resumable.Number.Shortest
import Resumable.Project
import Resumable.Proofs.Action
import Resumable.Proofs.Bytecode.Placement
import Resumable.Proofs.Bytecode.Typing
import Resumable.Proofs.Bytecode.Untailed
import Resumable.Proofs.Bytecode.Verifier
import Resumable.Proofs.Compile.Emission
import Resumable.Proofs.Compile.Emission.Branch
import Resumable.Proofs.Compile.Emission.Expression
import Resumable.Proofs.Compile.Emission.Function
import Resumable.Proofs.Compile.Layout
import Resumable.Proofs.Compile.Lexical
import Resumable.Proofs.Compile.Typed
import Resumable.Proofs.Compile.Verified
import Resumable.Proofs.Engine.Bracket
import Resumable.Proofs.Engine.Hosted
import Resumable.Proofs.Engine.Safety
import Resumable.Proofs.Engine.Sound
import Resumable.Proofs.Engine.Suspension
import Resumable.Proofs.Engine.TailCall
import Resumable.Proofs.Expr.Every
import Resumable.Proofs.Expr.Lowering
import Resumable.Proofs.Expr.Reader
import Resumable.Proofs.Library.Likeness
import Resumable.Proofs.Library.Sound
import Resumable.Proofs.Machine.Activation
import Resumable.Proofs.Machine.Bracket
import Resumable.Proofs.Machine.Frames
import Resumable.Proofs.Machine.Handlers
import Resumable.Proofs.Machine.Idle
import Resumable.Proofs.Machine.Instruction
import Resumable.Proofs.Machine.Invariant
import Resumable.Proofs.Machine.Likeness
import Resumable.Proofs.Machine.Lockstep
import Resumable.Proofs.Machine.Positions
import Resumable.Proofs.Machine.Primitive
import Resumable.Proofs.Machine.Progress
import Resumable.Proofs.Machine.Sound
import Resumable.Proofs.Machine.Suspension
import Resumable.Proofs.Machine.TailCall
import Resumable.Proofs.Machine.TailRun
import Resumable.Proofs.Machine.Transfer
import Resumable.Proofs.Symbol
import Resumable.Proofs.Value.Env
import Resumable.Proofs.Value.Likeness
import Resumable.Run
import Resumable.RuntimeError
import Resumable.Scope
import Resumable.Settings
import Resumable.Symbol
import Resumable.Text.Blank
import Resumable.Text.Casing
import Resumable.Text.Letters
import Resumable.Text.Lines
import Resumable.Text.Quoted
import Resumable.Text.Ranges
import Resumable.Text.Search
import Resumable.Text.Visible
import Resumable.Token
import Resumable.Token.Scan
import Resumable.Value
import Resumable.Value.Render
import Resumable.World
import Resumable.Proofs.Machine.Depth
import Resumable.Proofs.Engine.Depth
import Resumable.Proofs.Machine.Twin
import Resumable.Proofs.Machine.TwinCall
import Resumable.Proofs.Machine.TwinStep
import Resumable.Proofs.Machine.TwinRun
import Resumable.Proofs.Machine.TwinTasks
import Resumable.Proofs.Engine.CallSite
import Resumable.Proofs.Machine.Sealed
import Resumable.Proofs.Engine.Sealed
import Resumable.Proofs.Machine.Resumption
import Resumable.Proofs.Engine.Resumption
import Resumable.Proofs.Expr.Grouping
import Resumable.Proofs.Expr.Fitting
import Resumable.Proofs.Compile.Supported
import Resumable.Proofs.Compile.Nesting
import Resumable.Proofs.Engine.Footing
import Resumable.Proofs.Meaning.State
import Resumable.Proofs.Meaning.Step
import Resumable.Proofs.Meaning.Names
import Resumable.Proofs.Meaning.Awaits
import Resumable.Proofs.Meaning.Locals
import Resumable.Proofs.Meaning.Entry
import Resumable.Proofs.Meaning.Apply
import Resumable.Proofs.Meaning.Simulation
import Resumable.Proofs.Meaning.Variables
import Resumable.Proofs.Meaning.Operands
import Resumable.Proofs.Meaning.Closures
import Resumable.Proofs.Meaning.Evaluation
import Resumable.Proofs.Meaning.Choosing
import Resumable.Proofs.Meaning.Giving
import Resumable.Proofs.Meaning.Calling
import Resumable.Proofs.Token.Spelling
import Resumable.Proofs.Token.Scanning
import Resumable.Proofs.Expr.Taking
import Resumable.Proofs.Expr.Outlasting
import Resumable.Proofs.Expr.Termination
import Resumable.Proofs.Expr.Surface
import Resumable.Proofs.Expr.Reading
import Resumable.Proofs.Expr.Parts
import Resumable.Proofs.Expr.Printing
import Resumable.Proofs.Expr.Reserved
import Resumable.Proofs.Expr.Fresh
import Resumable.Proofs.Expr.Scoping
import Resumable.Proofs.Expr.Hygiene
import Resumable.Proofs.Compile.Resolution
import Resumable.Proofs.Bytecode.Encoding
import Resumable.Proofs.Symbol.Family
import Resumable.Proofs.Library.Local
import Resumable.Proofs.Library.Tasks
import Resumable.Proofs.Value.Unlined
import Resumable.Proofs.Compile.Unlined
import Resumable.Proofs.Machine.Unlined
import Resumable.Proofs.Library.Unlined
import Resumable.Proofs.Machine.UnlinedCall
import Resumable.Proofs.Machine.UnlinedEffect
import Resumable.Proofs.Machine.UnlinedStep
import Resumable.Proofs.Machine.UnlinedRun
import Resumable.Proofs.Engine.Unlined
import Resumable.Proofs.Machine.Tasks
import Resumable.Proofs.Meaning.Handling
import Resumable.Proofs.Meaning.Running
import Resumable.Proofs.Meaning.Programs
import Resumable.Proofs.Machine.Fetch
import Resumable.Proofs.Engine.Fetch
import Resumable.Proofs.Machine.Partial
import Resumable.Proofs.Engine.Partial
import Resumable.Proofs.Machine.Turn
import Resumable.Proofs.Machine.Pending
import Resumable.Proofs.Machine.TailResume
import Resumable.Proofs.Engine.TailResume
import Resumable.Proofs.Token.Places
import Resumable.Proofs.Expr.Faults
import Resumable.Proofs.Excerpt
import Resumable.Proofs.Expr.Precedence
import Resumable.Proofs.Engine.Prelude
import Resumable.Proofs.Engine.Unneeded
import Resumable.Proofs.Token.Stretch
import Resumable.Proofs.Token.Tiling
import Resumable.Proofs.Value.Rendering
import Resumable.Proofs.Value.Literal
import Resumable.Proofs.Library.Extremes
import Resumable.Proofs.Meaning.Comes
import Resumable.Proofs.Meaning.DirectRun
import Resumable.Proofs.Meaning.Preservation
import Resumable.Proofs.Meaning.Stored
import Resumable.Proofs.Engine.Modules
import Resumable.Proofs.Engine.Powers
