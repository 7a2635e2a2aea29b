import Resumable.Bytecode.Listing
import Resumable.Document

/-!
Code as a document: its instructions, the texts of its constants, and the functions among them.
-/

namespace Resumable

/-- An instruction as a document. -/
def Instruction.outline (line : Nat) (i : Instruction) : Document :=
  let fields :=
    [("line", .ofNat line), ("offset", .ofNat i.offset), ("opcode", .ofString i.op.name)]
  .record (fields ++ (i.operand?.map fun n => ("operand", Document.ofNat n)).toList)

/-- The instructions of code as documents, or one document for bytes that are none. -/
def Code.outlineInstructions (code : Code Value) : List Document :=
  match code.instructions with
  | .ok is => is.map fun i => i.outline (code.lineAt i.offset)
  | .error e => [.record [("error", .ofString e.message)]]

/-- Code as a document, given the documents of the functions in it. The fields are in the order of
their names. -/
def Code.outlineOver (cells : Array Value) (name : String) (functions : List Document)
    (code : Code Value) : Document :=
  let constants := code.constants.toList.map fun v => Document.ofString (v.renderOver cells)
  let inner := if functions.isEmpty then [] else [("functions", Document.list functions)]
  .record
    ([("arity", .ofNat code.arity), ("bytecode", .list code.outlineInstructions),
        ("constants", .list constants)] ++ inner ++
      [("locals", .ofNat code.localCount), ("name", .ofString name)])

mutual

/-- Code under a name as a document. -/
def Code.outline (cells : Array Value) (name : String) : Code Value → Document
  | ⟨own, params, selfName, localCount, captures, bytes, ⟨constants⟩, lines⟩ =>
    Code.outlineOver cells name (outlineConstants cells name 0 constants)
      ⟨own, params, selfName, localCount, captures, bytes, ⟨constants⟩, lines⟩

/-- The functions among constants as documents; the first constant has the given index. -/
def outlineConstants (cells : Array Value) (name : String) (index : Nat) :
    List Value → List Document
  | [] => []
  | v :: vs => v.outline cells name index ++ outlineConstants cells name (index + 1) vs

/-- A constant as a document, if it is a function. -/
def Value.outline (cells : Array Value) (name : String) (index : Nat) : Value → List Document
  | .code _ c => [c.outline cells (Code.nestedName name index c)]
  | _ => []

end

end Resumable
