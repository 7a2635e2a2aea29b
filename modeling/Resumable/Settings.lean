import Resumable.Compile
import Resumable.Document.Reader
import Resumable.Machine
import Resumable.Text.Casing

/-!
Settings: the limits of execution, the choices of the compiler, and how much each stage of the work
writes to the log.
-/

namespace Resumable

/-- Limits as a document gives them. -/
def Limits.ofDocument? (d : Document) : Option Limits := do
  let missing : Limits := {}
  let fields ← d.fields? ["max_stack_size", "max_recursion_depth"]
  let maxStack ← Document.fieldOr fields "max_stack_size" Document.count? missing.maxStack
  let maxDepth ← Document.fieldOr fields "max_recursion_depth" Document.count? missing.maxDepth
  return { maxStack, maxDepth }

/-- Choices of the compiler as a document gives them. -/
def CompileOptions.ofDocument? (d : Document) : Option CompileOptions := do
  let missing : CompileOptions := {}
  let fields ← d.fields? ["emit_debug_info"]
  let recordLines ← Document.fieldOr fields "emit_debug_info" Document.bool? missing.recordLines
  return { recordLines }

/-- The stages of the work that write to the log. -/
inductive Stage where
  | lexer
  | parser
  | desugar
  | compiler
  | vm
  | stdlib
deriving DecidableEq, Repr

namespace Stage

/-- All stages, in the order of the work. -/
def all : List Stage :=
  [lexer, parser, desugar, compiler, vm, stdlib]

/-- The name of a stage. -/
def name : Stage → String
  | lexer => "lexer"
  | parser => "parser"
  | desugar => "desugar"
  | compiler => "compiler"
  | vm => "vm"
  | stdlib => "stdlib"

/-- What the log calls a stage. -/
def target (s : Stage) : String :=
  "tern::" ++ s.name

/-- The stage with the given name. -/
def ofName? (text : String) : Option Stage :=
  all.find? fun s => s.name == text

/-- The stage that a document names: by a text, or by the key of an object with one field, which is
null. -/
def ofDocument? : Document → Option Stage
  | .text points => (Document.characters? points).bind ofName?
  | .object [(key, .null)] => (Document.characters? key).bind ofName?
  | _ => none

end Stage

/-- How grave an event in the log is, the gravest first. -/
inductive LogLevel where
  | error
  | warn
  | info
  | debug
  | trace
deriving DecidableEq, Repr

namespace LogLevel

/-- All levels, the gravest first. -/
def all : List LogLevel :=
  [error, warn, info, debug, trace]

/-- The name of a level. -/
def name : LogLevel → String
  | error => "ERROR"
  | warn => "WARN"
  | info => "INFO"
  | debug => "DEBUG"
  | trace => "TRACE"

/-- The place of a level among all levels. -/
def rank : LogLevel → Nat
  | error => 0
  | warn => 1
  | info => 2
  | debug => 3
  | trace => 4

/-- The level that a text names in any case; two names stand for silence, which is `some none`. -/
def parse? (s : String) : Option (Option LogLevel) :=
  match Text.lower s with
  | "silent" | "off" => some none
  | "error" => some (some error)
  | "warn" => some (some warn)
  | "info" => some (some info)
  | "debug" => some (some debug)
  | "trace" => some (some trace)
  | _ => none

end LogLevel

/-- What is written to the log: events up to a level, which a stage may have for itself. -/
structure LogSettings where
  overall : Option LogLevel := some .warn
  stages : List (Stage × LogLevel) := []

namespace LogSettings

/-- The settings that texts name. A text that names no level is passed over, and no stage can be
silenced by itself. -/
def ofTexts (overall : Option String) (stages : List (Stage × String)) : LogSettings :=
  let missing : LogSettings := {}
  { overall := (overall.bind LogLevel.parse?).getD missing.overall
    stages := stages.filterMap fun (stage, text) =>
      match LogLevel.parse? text with
      | some (some level) => some (stage, level)
      | _ => none }

/-- The least grave level that a stage writes. -/
def levelFor (s : LogSettings) (stage : Stage) : Option LogLevel :=
  match s.stages.lookup stage with
  | some level => some level
  | none => s.overall

/-- The levels that a stage writes. -/
def enabled (s : LogSettings) (stage : Stage) : List LogLevel :=
  match s.levelFor stage with
  | some most => LogLevel.all.filter fun l => decide (l.rank ≤ most.rank)
  | none => []

end LogSettings

end Resumable
