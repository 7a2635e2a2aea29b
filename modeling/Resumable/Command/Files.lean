import Resumable.Command.Path

/-!
Files as a command sees them, and a directory of files that is held in memory.
-/

namespace Resumable

/-- What comes of reading a file: its text, or that there is none, that it is a directory, that the
path leads through a file, that the path or a step of it is too long, that the path cannot be
written down, or that reading fails otherwise. -/
inductive Reading where
  | content (text : String)
  | absent
  | directory
  | blocked
  | overlong
  | unnameable
  | failed (reason : String)

namespace Reading

/-- The complaint about a file that cannot be read. -/
def complaint : Reading → String
  | content _ => ""
  | absent => "No such file or directory (os error 2)"
  | directory => "Is a directory (os error 21)"
  | blocked => "Not a directory (os error 20)"
  | overlong => "File name too long (os error 36)"
  | unnameable => "file name contained an unexpected NUL byte"
  | failed reason => reason

/-- Whether the path leads to something, which may still be unreadable. -/
def isFound : Reading → Bool
  | absent | blocked | overlong | unnameable => false
  | content _ | directory | failed _ => true

/-- What a path alone settles before any file is looked at: a path with a NUL, an empty path and one
beyond the limit lead nowhere. -/
def ofPath? (path : String) : Option Reading :=
  if path.toList.any fun c => c.toNat == 0 then some unnameable
  else if path.isEmpty then some absent
  else if Path.limit < path.utf8ByteSize then some overlong
  else none

end Reading

/-- A place to look for a file: below the current directory, with the names that lead down to it, or
outside of it, on the way up to the root. -/
inductive Place where
  | below (names : List String)
  | outside

/-- Where a step leads that is not idle. Outside of the current directory only the way up is
known. -/
def Place.enter? (step : String) : Place → Option Place
  | below names =>
    if step = ".." then some (if names.isEmpty then outside else below names.dropLast)
    else some (below (names ++ [step]))
  | outside => if step = ".." then some outside else none

/-- Files with their paths, each a list of names from the current directory on. -/
structure Files where
  entries : List (List String × String)

namespace Files

/-- Files by their relative paths. -/
def ofList (files : List (String × String)) : Files :=
  ⟨files.map fun f => ((Path.steps f.1).filter fun step => !Path.isIdle step, f.2)⟩

/-- Whether names lead to a directory: there is a file in it, or it is the current directory. -/
def isDirectory (files : Files) (names : List String) : Bool :=
  names.isEmpty ||
    files.entries.any fun f => decide (names.length < f.1.length) && names.isPrefixOf f.1

/-- What stands at a place. -/
def lookAt (files : Files) : Place → Reading
  | .below names =>
    match files.entries.lookup names with
    | some text => .content text
    | none => if files.isDirectory names then .directory else .absent
  | .outside => .directory

/-- What the remaining steps lead to from a place. A step is taken in a directory only, and there its
length counts before its name. -/
def follow (files : Files) (place : Place) : List String → Reading
  | [] => files.lookAt place
  | step :: steps =>
    match files.lookAt place with
    | .directory =>
      if Path.isIdle step then files.follow place steps
      else if Path.stepLimit < step.utf8ByteSize then .overlong
      else match place.enter? step with
        | some next => files.follow next steps
        | none => .absent
    | .content _ => .blocked
    | other => other

/-- Reads a file. -/
def read (files : Files) (path : String) : Reading :=
  match Reading.ofPath? path with
  | some reading => reading
  | none =>
    let start := if path.toList.head? = some '/' then Place.outside else .below []
    files.follow start (Path.steps path)

end Files

end Resumable
