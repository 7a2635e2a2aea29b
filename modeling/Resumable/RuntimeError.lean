/-!
What can go wrong while a program runs.
-/

namespace Resumable

/-- A failure of a running program. The constructor `located` adds the line of the instruction that
failed. -/
inductive RuntimeError where
  | typeError (detail : String)
  | undefinedVariable (name : String)
  | indexOutOfBounds (index : Int) (length : Nat)
  | divisionByZero
  | stackOverflow (detail : String)
  | arityMismatch (name : String) (expected given : Nat)
  | notCallable (detail : String)
  | unhandledEffect (name : String)
  | panicked (text : String)
  | invalidBytecode (detail : String)
  | taskFailed (detail : String)
  | other (text : String)
  | located (line : Nat) (error : RuntimeError)

namespace RuntimeError

/-- The failure without its location. -/
def root : RuntimeError → RuntimeError
  | located _ e => e.root
  | e => e

/-- The line of the failure. -/
def line? : RuntimeError → Option Nat
  | located line _ => some line
  | _ => none

/-- The failure at the given line. A failure that has a line keeps it, and line zero stands for
none. -/
def atLine (line : Nat) : RuntimeError → RuntimeError
  | located line' e => located line' e
  | e => if line = 0 then e else located line e

/-- The wording of a failure. -/
def message : RuntimeError → String
  | typeError detail => "TypeError: " ++ detail
  | undefinedVariable name => "UndefinedVariable: " ++ name
  | indexOutOfBounds index length =>
    "IndexOutOfBounds: index " ++ toString index ++ " out of range for length " ++
      toString length
  | divisionByZero => "DivisionByZero"
  | stackOverflow detail => "StackOverflow: " ++ detail
  | arityMismatch name expected given =>
    "ArityMismatch: " ++ name ++ " expects " ++ toString expected ++ " argument(s) (" ++
      toString given ++ " given)"
  | notCallable detail => "NotCallable: " ++ detail
  | unhandledEffect name => "UnhandledEffect: unhandled effect " ++ name
  | panicked text => "Panic: " ++ text
  | invalidBytecode detail => "InvalidBytecode: " ++ detail
  | taskFailed detail => "TaskFailed: " ++ detail
  | other text => text
  | located line e => "[line " ++ toString line ++ "] " ++ e.message

/-- The name of the kind of failure. -/
def kind : RuntimeError → String
  | typeError _ => "TypeError"
  | undefinedVariable _ => "UndefinedVariable"
  | indexOutOfBounds _ _ => "IndexOutOfBounds"
  | divisionByZero => "DivisionByZero"
  | stackOverflow _ => "StackOverflow"
  | arityMismatch _ _ _ => "ArityMismatch"
  | notCallable _ => "NotCallable"
  | unhandledEffect _ => "UnhandledEffect"
  | panicked _ => "Panic"
  | invalidBytecode _ => "InvalidBytecode"
  | taskFailed _ => "TaskFailed"
  | other _ => "RuntimeError"
  | located _ e => e.kind

end RuntimeError

end Resumable
