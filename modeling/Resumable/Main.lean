import Std.Time.DateTime.Timestamp
import Resumable.Command

/-!
The executable: carries out the plan of the command on the files of the system.
-/

namespace Resumable

/-- The number of an error of the system, whose code may be negated. -/
def errorNumber (code : UInt32) : UInt32 :=
  if code < 0x80000000 then code else 0 - code

/-- What a failure of the system says about a file. -/
def Reading.ofError : IO.Error → Reading
  | .noFileOrDirectory _ _ _ => .absent
  | .inappropriateType _ code _ => if errorNumber code = 20 then .blocked else .directory
  | .invalidArgument _ code reason =>
    if errorNumber code = 36 then .overlong else .failed reason
  | .permissionDenied _ _ _ => .failed "Permission denied (os error 13)"
  | other => .failed (toString other)

/-- Reads a file of the system. -/
def Reading.ofSystem (path : String) : IO Reading := do
  if let some reading := Reading.ofPath? path then return reading
  try
    match String.fromUTF8? (← IO.FS.readBinFile path) with
    | some text => return .content text
    | none => return .failed "stream did not contain valid UTF-8"
  catch e => return .ofError e

/-- Carries out a plan on the files of the system. -/
def Plan.perform : Plan → IO Exit
  | .stop result => return result
  | .read path next => do
    let reading ← Reading.ofSystem path
    (next reading).perform

/-- The moves that the machine may make: more than any run takes. -/
def Command.patience : Nat := 0x4000000000000000

end Resumable

open Resumable

/-- Runs the command and tells how it ended. -/
def main (args : List String) : IO UInt32 := do
  let now ← Std.Time.Timestamp.now
  let clock := now.toMillisecondsSinceUnixEpoch.val.toNat
  let result ← (Command.plan Command.patience clock args).perform
  (← IO.getStdout).putStr result.output
  (← IO.getStderr).putStr result.complaint
  return UInt32.ofNat result.code
