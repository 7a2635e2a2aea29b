import Resumable.Text.Search

/-!
Paths of files: steps separated by slashes. Empty steps and steps of a single point lead nowhere,
except that a path may start with a point. A step of two points leads up.
-/

namespace Resumable.Path

/-- The most bytes that a step may have. -/
def stepLimit : Nat := 255

/-- The most bytes that a path may have. -/
def limit : Nat := 4095

/-- The steps of a path, with the empty ones. -/
def steps (path : String) : List String :=
  Text.split path "/"

/-- Whether a step leads nowhere. -/
def isIdle (step : String) : Bool :=
  step.isEmpty || step == "."

/-- The steps without the idle ones at their end. -/
def trimIdle (steps : List String) : List String :=
  (steps.reverse.dropWhile isIdle).reverse

/-- A path as its start, which is a slash, a point or nothing, and the text after it. -/
def splitStart (path : String) : String × String :=
  match path.toList with
  | '/' :: cs => ("/", String.ofList cs)
  | ['.'] => (".", "")
  | '.' :: '/' :: cs => (".", String.ofList ('/' :: cs))
  | _ => ("", path)

/-- The path without its last step. The root and the empty path have none. -/
def parent? (path : String) : Option String :=
  let (start, rest) := splitStart path
  let body := trimIdle (steps rest)
  if body.isEmpty then
    if start = "." then some "" else none
  else some (start ++ "/".intercalate (trimIdle body.dropLast))

/-- The path `path` as seen from a directory. -/
def join (directory path : String) : String :=
  if path.toList.head? = some '/' then path
  else if directory.isEmpty || directory.toList.getLast? == some '/' then directory ++ path
  else directory ++ "/" ++ path

end Resumable.Path
