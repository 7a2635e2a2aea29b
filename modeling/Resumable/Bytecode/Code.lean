import Resumable.Bytecode.Op
import Resumable.Diagnostic
import Resumable.Symbol

/-!
Code objects and how instructions are written to them. Operands of two bytes have the high byte
first. A forward jump is written with a placeholder and completed once its target is reached; its
operand is the distance from its own first byte.
-/

namespace Resumable

/-- Where the value of a captured name is found when a function is made. -/
inductive CaptureSource where
  | slot (n : Nat)
  | enclosing

/-- A name that a function takes from the place where it is made. -/
structure Capture where
  name : Symbol
  source : CaptureSource

/-- The two ways to write an operation on an index. -/
inductive IndexForm where
  | narrow (op : Op)
  | wide (op : Op)

/-- How an operation is written for an index. -/
def Op.formFor (op : Op) (index : Nat) : Except EncodeError IndexForm :=
  if index < 256 then .ok (.narrow op)
  else if index < 65536 then
    match op.wide? with
    | some wide => .ok (.wide wide)
    | none => .error (.operandTooWide index)
  else .error (.operandTooWide index)

/-- The code of a function or a program, with constants of type `κ`. Parameters take the first local
slots, and the function itself the next one if it has a name for itself. -/
structure Code (κ : Type) where
  name : Option Symbol := none
  params : List Symbol := []
  selfName : Option Symbol := none
  localCount : Nat := 0
  captures : List Capture := []
  bytes : Array UInt8 := #[]
  constants : Array κ := #[]
  lines : Array Nat := #[]

namespace Code

variable {κ : Type}

/-- The most constants that a code object holds. -/
def maxConstants : Nat := 65536

/-- The number of parameters. -/
def arity (code : Code κ) : Nat :=
  code.params.length

/-- The number of bytes written so far. -/
def size (code : Code κ) : Nat :=
  code.bytes.size

/-- Writes one byte with its line. -/
def writeByte (code : Code κ) (byte : UInt8) (line : Nat) : Code κ :=
  { code with bytes := code.bytes.push byte, lines := code.lines.push line }

/-- Writes an operation without operand. -/
def write (code : Code κ) (op : Op) (line : Nat) : Code κ :=
  code.writeByte op.toByte line

/-- Writes an operation with an operand of one byte. -/
def writeNarrow (code : Code κ) (op : Op) (operand : UInt8) (line : Nat) : Code κ :=
  (code.write op line).writeByte operand line

/-- The high byte of an operand. -/
def highByte (operand : Nat) : UInt8 :=
  UInt8.ofNat (operand / 256)

/-- The low byte of an operand. -/
def lowByte (operand : Nat) : UInt8 :=
  UInt8.ofNat operand

/-- Writes an operation with an operand of two bytes. -/
def writeWide (code : Code κ) (op : Op) (operand : UInt16) (line : Nat) : Code κ :=
  ((code.write op line).writeByte (highByte operand.toNat) line).writeByte
    (lowByte operand.toNat) line

/-- Writes an operation on an index in one of its two forms. -/
def writeForm (code : Code κ) (form : IndexForm) (index line : Nat) : Code κ :=
  match form with
  | .narrow op => code.writeNarrow op (UInt8.ofNat index) line
  | .wide op => code.writeWide op (UInt16.ofNat index) line

/-- Writes an operation on an index, in its wide form only if the index needs it. -/
def writeIndexed (code : Code κ) (op : Op) (index line : Nat) : Except EncodeError (Code κ) :=
  match op.formFor index with
  | .ok form => .ok (code.writeForm form index line)
  | .error e => .error e

/-- Writes a jump whose target is still open. It is found again by the size before. -/
def writeJump (code : Code κ) (op : Op) (line : Nat) : Code κ :=
  code.writeWide op 65535 line

/-- The distance from the jump that starts at `start` to the end of the code, if a jump reaches that
far. -/
def jumpDistance (code : Code κ) (start : Nat) : Except EncodeError Nat :=
  let distance := code.bytes.size - start
  if distance < 65536 then .ok distance else .error (.jumpTooFar distance)

/-- Gives a distance to the jump that starts at `start`. -/
def setJump (code : Code κ) (start distance : Nat) : Code κ :=
  { code with
    bytes := (code.bytes.setIfInBounds (start + 1) (highByte distance)).setIfInBounds
      (start + 2) (lowByte distance) }

/-- Lets the jump that starts at `start` go to the end of the code. -/
def patchJump (code : Code κ) (start : Nat) : Except EncodeError (Code κ) :=
  match code.jumpDistance start with
  | .ok distance => .ok (code.setJump start distance)
  | .error e => .error e

/-- The index of the next constant, if there is room for it. -/
def nextConstant (code : Code κ) : Except EncodeError Nat :=
  if code.constants.size < maxConstants then .ok code.constants.size
  else .error .tooManyConstants

/-- The code with one more constant. -/
def pushConstant (code : Code κ) (value : κ) : Code κ :=
  { code with constants := code.constants.push value }

/-- Adds a constant and gives its index. -/
def addConstant (code : Code κ) (value : κ) : Except EncodeError (Nat × Code κ) :=
  match code.nextConstant with
  | .ok index => .ok (index, code.pushConstant value)
  | .error e => .error e

end Code

end Resumable
