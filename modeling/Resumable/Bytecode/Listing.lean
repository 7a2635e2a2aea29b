import Resumable.Bytecode.Decode
import Resumable.Text.Lines
import Resumable.Value.Render

/-!
Listings of code: a header, one line per instruction, and the functions among the constants after
it, each under a name of its own.
-/

namespace Resumable

/-- What a listing shows beside the operand: the target of a jump, or the constant. -/
def Instruction.remark (cells : Array Value) (constants : Array Value) (i : Instruction) :
    String :=
  match i.operand? with
  | none => ""
  | some n =>
    if i.op.isJump then " -> " ++ Text.zeroPad 4 (i.offset + n)
    else if i.op.takesConstant then
      match constants[n]? with
      | some v => " ; " ++ v.renderOver cells
      | none => ""
    else ""

/-- One line of a listing. The number of the source line is shown where it changes. -/
def Instruction.listing (cells : Array Value) (constants : Array Value) (line lastLine : Option Nat)
    (i : Instruction) : String :=
  let lineColumn := if line == lastLine then "   |" else Text.padLeft 4 (toString (line.getD 0))
  Text.zeroPad 4 i.offset ++ " " ++ lineColumn ++ " " ++ Text.padRight 20 i.op.name ++ " " ++
    " ".intercalate (i.operands.map fun b => toString b.toNat) ++
    i.remark cells constants ++ "\n"

namespace Code

/-- The lines of a listing from an offset on, at most `bound` of them. It ends at bytes that are no
instruction. -/
def listingFrom (cells : Array Value) (code : Code Value) :
    (bound offset : Nat) → (lastLine : Option Nat) → (text : String) → String
  | 0, _, _, text => text
  | bound + 1, offset, lastLine, text =>
    if offset < code.bytes.size then
      match code.decodeAt offset with
      | .ok i =>
        let line := code.lines[offset]?
        listingFrom cells code bound (offset + i.length) line
          (text ++ i.listing cells code.constants line lastLine)
      | .error e => text ++ Text.zeroPad 4 offset ++ "      <" ++ e.message ++ ">\n"
    else text

/-- The listing of a code object without the functions in it. -/
def ownListing (cells : Array Value) (name : String) (code : Code Value) : String :=
  "== " ++ name ++ " (arity " ++ toString code.arity ++ ", locals " ++
    toString code.localCount ++ ", constants " ++ toString code.constants.size ++ ") ==\n" ++
    code.listingFrom cells code.bytes.size 0 none ""

/-- The name of the function that is constant `index` of the code called `name`. -/
def nestedName (name : String) (index : Nat) (code : Code Value) : String :=
  match code.name with
  | some own => own.name ++ "#" ++ toString index
  | none => name ++ "#lambda_" ++ toString index

/-- The functions among the constants, with their indexes. -/
def functions (code : Code Value) : List (Nat × Code Value) :=
  code.constants.toList.zipIdx.filterMap fun (v, index) =>
    match v with
    | .code _ c => some (index, c)
    | _ => none

end Code

mutual

/-- The listing of a code object under a name, with the functions in it. -/
def Code.listing (cells : Array Value) (name : String) : Code Value → String
  | ⟨own, params, selfName, localCount, captures, bytes, ⟨constants⟩, lines⟩ =>
    Code.ownListing cells name
      ⟨own, params, selfName, localCount, captures, bytes, ⟨constants⟩, lines⟩ ++
      listConstants cells name 0 constants

/-- The listings of the functions among constants, the first of which has the given index. -/
def listConstants (cells : Array Value) (name : String) (index : Nat) : List Value → String
  | [] => ""
  | v :: vs => v.listing cells name index ++ listConstants cells name (index + 1) vs

/-- The listing of a constant, if it is a function. -/
def Value.listing (cells : Array Value) (name : String) (index : Nat) : Value → String
  | .code _ c => "\n" ++ c.listing cells (Code.nestedName name index c)
  | _ => ""

end

end Resumable
