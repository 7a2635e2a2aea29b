import Resumable.Diagnostic
import Resumable.Document
import Resumable.RuntimeError

/-!
Why a program yields no value, and reports on it for people and for other programs.
-/

namespace Resumable

/-- A failure of a program: its form, its compilation or its execution. -/
inductive Failure where
  | malformed (errors : List SyntaxError)
  | refused (errors : List CompileError)
  | failed (error : RuntimeError)

/-- A report on a failure: where it happened, the name of its kind, the wording, and the number of
errors it consists of. -/
structure Report where
  phase : String
  line : Option Nat
  column : Option Nat
  kind : String
  message : String
  count : Nat

namespace Failure

/-- The wording of a failure, one error a line. -/
def text : Failure → String
  | malformed errors => "\n".intercalate (errors.map SyntaxError.text)
  | refused errors => "Compiler error: " ++ CompileError.texts errors
  | failed e => "Runtime error: " ++ e.message

/-- The name of the phase that failed. -/
def phase : Failure → String
  | malformed _ => "parser"
  | refused _ => "compiler"
  | failed _ => "runtime"

/-- The line of the first error. -/
def line? : Failure → Option Nat
  | malformed errors => errors.head?.map SyntaxError.line
  | refused errors => errors.head?.map CompileError.line
  | failed e => e.line?

/-- The column of the first error, which is known for errors of form alone. -/
def column? : Failure → Option Nat
  | malformed errors => errors.head?.map SyntaxError.column
  | _ => none

/-- The name of the kind of the first error. -/
def kind : Failure → String
  | malformed _ => "SyntaxError"
  | refused errors => (errors.head?.map fun e => e.problem.kind).getD "CompileError"
  | failed e => e.kind

/-- The wording for a report. Places are left out if the report gives them. -/
def message : Failure → String
  | malformed errors => (errors.head?.map SyntaxError.message).getD ""
  | refused errors => CompileError.texts errors
  | failed e => e.root.message

/-- The number of errors. -/
def count : Failure → Nat
  | malformed errors => errors.length
  | refused errors => errors.length
  | failed _ => 1

/-- The report on a failure. -/
def report (f : Failure) : Report :=
  { phase := f.phase
    line := f.line?
    column := f.column?
    kind := f.kind
    message := f.message
    count := f.count }

end Failure

namespace Report

/-- The report in one sentence, with the place if it is known. -/
def display (r : Report) : String :=
  match r.line, r.column with
  | some line, some column =>
    "[" ++ toString line ++ ":" ++ toString column ++ "] " ++ r.phase ++ " error: " ++ r.message
  | some line, none => "[line " ++ toString line ++ "] " ++ r.phase ++ " error: " ++ r.message
  | none, _ => "[" ++ r.phase ++ "] " ++ r.kind ++ " error: " ++ r.message

/-- The phase and the wording. -/
def short (r : Report) : String :=
  r.phase ++ ": " ++ r.message

/-- The report as a document. -/
def document (r : Report) : Document :=
  .record
    [("phase", .ofString r.phase), ("line", .ofNat? r.line), ("column", .ofNat? r.column),
      ("error_kind", .ofString r.kind), ("message", .ofString r.message),
      ("count", .ofNat r.count)]

end Report

end Resumable
