import Resumable.Text.Search

/-!
Arguments of the command.
-/

namespace Resumable

/-- The forms that the log can take. -/
inductive LogFormat where
  | pretty
  | compact
  | json
deriving DecidableEq, Repr

/-- The form with the given name. -/
def LogFormat.ofName? : String → Option LogFormat
  | "pretty" => some pretty
  | "compact" => some compact
  | "json" => some json
  | _ => none

/-- What the arguments ask for. -/
inductive Request where
  | run (project : String) (format : LogFormat)
  | version
  | summary
  | help
  | refused (reason : String)

namespace Request

/-- The project file if no other is named. -/
def defaultProject : String := "project.json"

/-- Whether an argument is an option. A single dash is none. -/
def isOption (arg : String) : Bool :=
  match arg.toList with
  | '-' :: _ :: _ => true
  | _ => false

/-- What a group of one-letter options asks for: the first letter decides. -/
def ofLetters : List Char → Request
  | 'V' :: _ => version
  | 'h' :: _ => summary
  | cs => refused ("unexpected argument '-" ++ String.ofList (cs.take 1) ++ "' found")

/-- An option with its value after an equals sign. -/
def valueOf? (option arg : String) : Option String :=
  (Text.after? (option ++ "=").toList arg.toList).map String.ofList

/-- Goes through the arguments after the project and the form found so far. After a double dash no
argument is an option. The first argument that settles the request decides. -/
def parse (project : Option String) (format : Option LogFormat) (plain : Bool) :
    List String → Request
  | [] => run (project.getD defaultProject) (format.getD .compact)
  | arg :: args =>
    if plain || !isOption arg then
      if project.isSome then refused ("unexpected argument '" ++ arg ++ "' found")
      else if arg.isEmpty then refused "a value is required for '[CONFIG]' but none was supplied"
      else parse (some arg) format plain args
    else if arg = "--" then parse project format true args
    else if arg = "--version" then version
    else if arg = "--help" then help
    else if arg = "--log-format" then
      match args with
      | [] => refused "a value is required for '--log-format'"
      | value :: rest =>
        match format, LogFormat.ofName? value with
        | none, some f => parse project (some f) plain rest
        | _, _ => refused ("invalid value '" ++ value ++ "' for '--log-format'")
    else
      match valueOf? "--log-format" arg with
      | some value =>
        match format, LogFormat.ofName? value with
        | none, some f => parse project (some f) plain args
        | _, _ => refused ("invalid value '" ++ value ++ "' for '--log-format'")
      | none =>
        match arg.toList with
        | '-' :: '-' :: _ => refused ("unexpected argument '" ++ arg ++ "' found")
        | _ :: letters => ofLetters letters
        | [] => refused ""

/-- What the arguments of the command ask for. -/
def ofArguments (args : List String) : Request :=
  parse none none false args

end Request

end Resumable
