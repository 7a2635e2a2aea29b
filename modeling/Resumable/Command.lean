import Resumable.Bytecode.Outline
import Resumable.Command.Arguments
import Resumable.Command.Files
import Resumable.Excerpt
import Resumable.Project

/-!
The command: it reads a project file and the source text that the file names, and runs it. A command
is a plan that asks for files one after the other and comes to an end, so that it can be carried out
on files of any kind.
-/

namespace Resumable

/-- How a command ends. -/
structure Exit where
  code : Nat := 0
  output : String := ""
  complaint : String := ""

/-- What a command does: it ends, or it reads a file and goes on from there. -/
inductive Plan where
  | stop (result : Exit)
  | read (path : String) (next : Reading → Plan)

/-- Carries out a plan on files that do not change. -/
def Plan.over (files : String → Reading) : Plan → Exit
  | stop result => result
  | read path next => (next (files path)).over files

namespace Project

/-- One line of output. -/
def writeLine (text : String) : Session Unit :=
  Session.write (text ++ "\n")

/-- Shows the source text with numbered lines. -/
def writeSource (source : String) : Session Unit := do
  writeLine "[Source]"
  let rows := (Text.lines source).zipIdx.map fun (line, i) =>
    Text.padLeft 3 (toString (i + 1)) ++ " | " ++ line ++ "\n"
  Session.write (String.join rows)
  writeLine "[Execution Result]"

/-- Shows what is about to be run. -/
def writeBanner (path : String) : Session Unit := do
  writeLine "[Tern VM - Bytecode Execution]"
  writeLine "======================"
  writeLine ("Entry: " ++ path)

/-- Shows the size of code. -/
def writeSizes (code : Code Value) : Session Unit := do
  writeLine ("Constants: " ++ toString code.constants.size)
  writeLine ("Bytecode: " ++ toString code.size ++ " bytes")
  writeLine ("Locals: " ++ toString code.localCount)

/-- Shows the value of the program. Without steps, `none` is not shown. -/
def writeValue (project : Project) (v : Value) : Session Unit := do
  let text := (← get).render v
  if project.showSteps then
    writeLine "Execution successful"
    writeLine ("Return value: " ++ text)
  else if !v.isNone then writeLine text

/-- Runs code that is ready, unless the project is only to be compiled. -/
def finish (fuel : Nat) (project : Project) (code : Code Value) : Session Unit := do
  if project.compileOnly then
    if project.showSteps then writeLine "Compilation successful"
  else
    if project.showSteps then writeLine "[Execution]"
    project.writeValue (← Session.interpret fuel code)

/-- Compiles and runs the source text of a project. -/
def session (fuel : Nat) (project : Project) (path source : String) : Session Unit := do
  if project.showSource then writeSource source
  if project.showSteps then
    writeBanner path
    writeLine "[Compilation]"
  let code ← Session.prepare fuel project.run source
  if project.showSteps then writeSizes code
  if project.dumpCode then
    writeLine ((code.outline (← get).world.cells "main").indented 0)
  project.finish fuel code

end Project

/-- The complaint about a failure, with the lines of the source text around it. -/
def Failure.complaint (f : Failure) (source : String) : String :=
  let excerpt := match f.line? with
    | some line => Excerpt.around source line f.column?
    | none => ""
  "error: " ++ f.text ++ "\n" ++ excerpt

/-- The complaint about a run that yields no value. -/
def Halt.complaint (source : String) : Halt → String
  | failure f => f.complaint source
  | crashed => "error: the machine cannot go on\n"
  | unending => "error: the program does not end\n"

namespace Command

/-- The version of the command. -/
def version : String := "tern 0.1.0\n"

/-- The form of the command's arguments. -/
def form : String := "Usage: tern [OPTIONS] [CONFIG]"

/-- How to use the command, with a line for each argument. -/
def summary : String :=
  "\n".intercalate
    ["Tern programming language - Project-based execution", "", form, "",
      "Arguments:",
      "  [CONFIG]  Configuration file path [default: project.json]", "",
      "Options:",
      "      --log-format <LOG_FORMAT>  Log output format [default: compact] " ++
        "[possible values: pretty, compact, json]",
      "  -h, --help                     Print help (see more with '--help')",
      "  -V, --version                  Print version", ""]

/-- A paragraph of the full description. -/
def indented (lines : List String) : String :=
  "".intercalate (lines.map fun line => "          " ++ line ++ "\n")

/-- How to use the command, with a paragraph for each argument. -/
def help : String :=
  "Tern programming language - Project-based execution\n\n" ++ form ++ "\n\n" ++
    "Arguments:\n  [CONFIG]\n" ++
    indented ["Configuration file path", "", "[default: project.json]"] ++
    "\nOptions:\n      --log-format <LOG_FORMAT>\n" ++
    indented ["Log output format", "", "[default: compact]"] ++ "\n" ++
    indented
      ["Possible values:", "- pretty:  彩色格式化（开发使用）", "- compact: 紧凑格式",
        "- json:    JSON 格式（工具集成）"] ++
    "\n  -h, --help\n" ++ indented ["Print help (see a summary with '-h')"] ++
    "\n  -V, --version\n" ++ indented ["Print version"]

/-- The end of a command that fails before anything is run. -/
def fail (reason : String) : Plan :=
  .stop { code := 1, complaint := "Error: " ++ reason ++ "\n" }

/-- Runs the source text of a project. -/
def execute (fuel clock : Nat) (project : Project) (path source : String) : Exit :=
  match project.session fuel path source (project.run.engine clock) with
  | .ok _ e => { output := e.world.output }
  | .error halt e => { code := 1, output := e.world.output, complaint := halt.complaint source }

/-- Goes on from a project with its source text. -/
def withProject (fuel clock : Nat) (file : String) (project : Project) : Plan :=
  let path := Path.join ((Path.parent? file).getD ".") project.entry
  .read path fun
    | .content source => .stop (execute fuel clock project path source)
    | other => fail ("Cannot read entry file '" ++ path ++ "': " ++ other.complaint)

/-- The complaint about a project file that is not there. -/
def notFound (file : String) : String :=
  "'" ++ file ++ "' not found\n\nThe current directory is not a Tern project.\n" ++
    "Hint: create '" ++ file ++ "' with an 'entry' field"

/-- Goes on with a project file. -/
def withFile (fuel clock : Nat) (file : String) : Plan :=
  .read file fun
    | .content text =>
      match Project.ofText text with
      | .ok project => withProject fuel clock file project
      | .error e => fail ("failed to parse '" ++ file ++ "': " ++ e.message)
    | other =>
      if other.isFound then fail ("cannot read '" ++ file ++ "': " ++ other.complaint)
      else fail (notFound file)

/-- The plan for arguments. The machine may make `fuel` moves, and its clock starts at `clock`. -/
def plan (fuel clock : Nat) (args : List String) : Plan :=
  match Request.ofArguments args with
  | .run file _ => withFile fuel clock file
  | .version => .stop { output := version }
  | .summary => .stop { output := summary }
  | .help => .stop { output := help }
  | .refused reason =>
    .stop
      { code := 2
        complaint := "error: " ++ reason ++ "\n\n" ++ form ++
          "\n\nFor more information, try '--help'.\n" }

end Command

end Resumable
