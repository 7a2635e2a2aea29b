import Resumable.Bytecode.Code

/-!
Reading instructions back from bytes.
-/

namespace Resumable

/-- An instruction at its place in the code, with the bytes of its operand. -/
structure Instruction where
  offset : Nat
  op : Op
  operands : List UInt8

namespace Instruction

/-- The operand as a number, the high byte first. -/
def operand? (i : Instruction) : Option Nat :=
  match i.operands with
  | [a] => some a.toNat
  | [high, low] => some (256 * high.toNat + low.toNat)
  | _ => none

/-- The number of bytes of the instruction. -/
def length (i : Instruction) : Nat :=
  1 + i.operands.length

end Instruction

/-- Why bytes are no instruction. -/
inductive DecodeError where
  | unknown (byte : UInt8) (offset : Nat)
  | truncated (offset : Nat)
  | outside (offset : Nat)

/-- The wording of a failure to read an instruction. -/
def DecodeError.message : DecodeError → String
  | unknown byte offset => Op.unknownByte byte ++ " at offset " ++ toString offset
  | truncated offset => "truncated instruction at offset " ++ toString offset
  | outside offset => "no instruction at offset " ++ toString offset

namespace Code

variable {κ : Type}

/-- The byte at an offset. -/
def byteAt? (code : Code κ) (offset : Nat) : Option Nat :=
  code.bytes[offset]?.map UInt8.toNat

/-- The number in the two bytes at an offset. -/
def wordAt? (code : Code κ) (offset : Nat) : Option Nat := do
  let high ← code.byteAt? offset
  let low ← code.byteAt? (offset + 1)
  return 256 * high + low

/-- The instruction at an offset. -/
def decodeAt (code : Code κ) (offset : Nat) : Except DecodeError Instruction :=
  match code.bytes[offset]? with
  | none => .error (.outside offset)
  | some byte =>
    match Op.ofByte? byte with
    | none => .error (.unknown byte offset)
    | some op =>
      if code.bytes.size < offset + 1 + op.width then .error (.truncated offset)
      else
        .ok ⟨offset, op, (code.bytes.extract (offset + 1) (offset + 1 + op.width)).toList⟩

/-- The instructions from an offset on, at most `bound` of them; those before are given with the
latest first. -/
def decodeFrom (code : Code κ) :
    (bound offset : Nat) → List Instruction → Except DecodeError (List Instruction)
  | 0, _, done => .ok done.reverse
  | bound + 1, offset, done =>
    if offset < code.bytes.size then
      match code.decodeAt offset with
      | .ok i => decodeFrom code bound (offset + i.length) (i :: done)
      | .error e => .error e
    else .ok done.reverse

/-- All instructions, in order. There are no more of them than bytes. -/
def instructions (code : Code κ) : Except DecodeError (List Instruction) :=
  code.decodeFrom code.bytes.size 0 []

/-- The line of the byte at an offset, zero if it has none. -/
def lineAt (code : Code κ) (offset : Nat) : Nat :=
  code.lines[offset]?.getD 0

end Code

end Resumable
