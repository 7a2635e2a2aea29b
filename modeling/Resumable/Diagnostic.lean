/-!
What can be wrong with a source text: the causes, their wording and their positions.
-/

namespace Resumable

/-- What is wrong with the form of a source text. -/
inductive SyntaxProblem where
  | strayCharacter (c : Char)
  | unknownEscape (c : Char)
  | openString
  | hugeInteger (digits : String)
  | expected (what found : String)
  | stated (text : String)

/-- The wording of a problem of form. -/
def SyntaxProblem.message : SyntaxProblem → String
  | strayCharacter c => "unexpected character '" ++ c.toString ++ "'"
  | unknownEscape c => "unknown escape '\\" ++ c.toString ++ "'"
  | openString => "unterminated string"
  | hugeInteger digits => "integer literal '" ++ digits ++ "' out of range"
  | expected what found => "expected " ++ what ++ ", found " ++ found
  | stated text => text

/-- A problem of form with its place in the source text. -/
structure SyntaxError where
  problem : SyntaxProblem
  line : Nat
  column : Nat

namespace SyntaxError

/-- The wording without the position. -/
def message (e : SyntaxError) : String :=
  e.problem.message

/-- The wording after the position. -/
def text (e : SyntaxError) : String :=
  "[" ++ toString e.line ++ ":" ++ toString e.column ++ "] " ++ e.message

/-- Whether one error stands no later than another in the source text. -/
def notAfter (a b : SyntaxError) : Bool :=
  decide (a.line < b.line) || (a.line == b.line && decide (a.column ≤ b.column))

end SyntaxError

/-- Why a piece of bytecode cannot be written. -/
inductive EncodeError where
  | tooManyConstants
  | jumpTooFar (distance : Nat)
  | operandTooWide (operand : Nat)

/-- The wording of a failure to write bytecode. -/
def EncodeError.message : EncodeError → String
  | tooManyConstants => "too many constants in one code object (limit 65536)"
  | jumpTooFar distance => "jump offset " ++ toString distance ++ " does not fit in 16 bits"
  | operandTooWide operand => "operand " ++ toString operand ++ " does not fit in 16 bits"

/-- Why a well-formed program is refused. -/
inductive CompileProblem where
  | variableExists (name : String)
  | parameterRepeated (name : String)
  | tooManyLocals
  | tooManyOperands (what : String) (count : Nat)
  | effectNotPath (found : String)
  | encoding (e : EncodeError)
  | catchAllRepeated (effect : String)
  | nodeNotSupported (kind : String)

namespace CompileProblem

/-- The name of the kind of problem. -/
def kind : CompileProblem → String
  | variableExists _ => "VariableAlreadyExists"
  | parameterRepeated _ => "DuplicateParameter"
  | tooManyLocals => "TooManyLocals"
  | tooManyOperands _ _ => "TooManyOperands"
  | effectNotPath _ => "InvalidEffectPath"
  | encoding _ => "Encode"
  | catchAllRepeated _ => "DuplicateCatchAll"
  | nodeNotSupported _ => "UnsupportedNode"

/-- The wording of the problem. -/
def message : CompileProblem → String
  | variableExists name => "Variable '" ++ name ++ "' already exists in this scope"
  | parameterRepeated name => "Duplicate parameter '" ++ name ++ "'"
  | tooManyLocals => "Too many local variables"
  | tooManyOperands what count =>
    "Too many " ++ what ++ " (" ++ toString count ++ ", limit 255)"
  | effectNotPath found =>
    "Handler clause effect must be a dotted identifier path, found " ++ found
  | encoding e => e.message
  | catchAllRepeated effect => "Duplicate catch-all clause for effect '" ++ effect ++ "'"
  | nodeNotSupported kind => "Unsupported node kind '" ++ kind ++ "'"

/-- Whether compilation stops at the problem instead of collecting further ones. -/
def isFatal : CompileProblem → Bool
  | catchAllRepeated _ | nodeNotSupported _ | encoding .tooManyConstants => true
  | _ => false

end CompileProblem

/-- A reason for refusal with its line. -/
structure CompileError where
  problem : CompileProblem
  line : Nat

namespace CompileError

/-- The wording after the line. -/
def text (e : CompileError) : String :=
  "[line " ++ toString e.line ++ "] " ++ e.problem.message

/-- The wording of several errors, one a line. -/
def texts (errors : List CompileError) : String :=
  "\n".intercalate (errors.map text)

end CompileError

/-- Why a source text yields no code. Reading a text can also fail to end: the recovery from an error
may wait for ever at a closing brace. -/
inductive SourceFailure where
  | malformed (errors : List SyntaxError)
  | refused (errors : List CompileError)
  | unending

end Resumable
