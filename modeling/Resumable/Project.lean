import Resumable.Run
import Resumable.Settings

/-!
Project files: which source text to run, and how.
-/

namespace Resumable

/-- A project. -/
structure Project where
  entry : String
  compileOnly : Bool := false
  dumpCode : Bool := false
  showSteps : Bool := false
  showSource : Bool := false
  run : RunOptions := {}
  log : LogSettings := {}

/-- Why a text is no project file. -/
inductive ProjectError where
  | notDocument
  | wrongShape
  | emptyEntry

/-- The wording of what is wrong with a project file. -/
def ProjectError.message : ProjectError → String
  | notDocument => "the text is no document"
  | wrongShape => "a field is missing or of the wrong type"
  | emptyEntry => "'entry' must not be empty"

namespace Project

/-- The stages and levels that an object gives; of two levels for a stage the later counts. -/
def logStages? : Document → Option (List (Stage × String))
  | .object fields => do
    let stages ← fields.mapM fun f => do
      return (← (Document.characters? f.1).bind Stage.ofName?, ← f.2.string?)
    return stages.reverse
  | _ => none

/-- The part of a project file that concerns the compiler, for a project with defaults for the
rest. -/
def withCompiler? (project : Project) (d : Document) : Option Project := do
  let fields ← d.fields?
    ["compile_only", "dump_bytecode", "show_steps", "show_source", "emit_debug_info",
      "load_prelude", "log_level", "log_phases"]
  let compileOnly ← Document.fieldOr fields "compile_only" Document.bool? false
  let dumpCode ← Document.fieldOr fields "dump_bytecode" Document.bool? false
  let showSteps ← Document.fieldOr fields "show_steps" Document.bool? false
  let showSource ← Document.fieldOr fields "show_source" Document.bool? false
  let recordLines ←
    Document.fieldOr fields "emit_debug_info" (Document.optional? Document.bool?) none
  let loadPrelude ←
    Document.fieldOr fields "load_prelude" (Document.optional? Document.bool?) none
  let level ← Document.fieldOr fields "log_level" (Document.optional? Document.string?) none
  let stages ← Document.fieldOr fields "log_phases" logStages? []
  let run : RunOptions :=
    { project.run with
      compile := { recordLines := recordLines.getD project.run.compile.recordLines }
      prelude := loadPrelude.getD project.run.prelude }
  return { project with
    compileOnly, dumpCode, showSteps, showSource, run, log := .ofTexts level stages }

/-- The project that a document describes. -/
def ofDocument? (d : Document) : Option Project := do
  let fields ← d.fields? ["entry", "compiler", "limits"]
  let entry ← (← fields.lookup "entry").string?
  let project ←
    Document.fieldOr fields "compiler" (withCompiler? { entry }) { entry }
  let limits ← Document.fieldOr fields "limits" Limits.ofDocument? {}
  return { project with run := { project.run with limits } }

/-- The project that a text describes. -/
def ofText (s : String) : Except ProjectError Project :=
  match Document.ofText? s with
  | none => .error .notDocument
  | some d =>
    match ofDocument? d with
    | none => .error .wrongShape
    | some project => if project.entry.isEmpty then .error .emptyEntry else .ok project

end Project

end Resumable
