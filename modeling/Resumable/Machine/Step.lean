import Resumable.Bytecode.Decode
import Resumable.Machine.Effect

/-!
Instructions and what they do.
-/

namespace Resumable

/-- An instruction that has been fetched: its operation and operand, the offset it starts at and its
line. -/
structure Fetched where
  op : Op
  operand : Nat
  start : Nat
  line : Nat

namespace Exec

/-- Fetches the next instruction of the frame on top and moves past it. -/
def fetch : Exec Fetched := do
  let frame ← topFrame
  let code := frame.code
  let start := frame.ip
  match code.bytes[start]? with
  | none => malformed ("ip " ++ toString start ++ " past end of code")
  | some byte =>
    match Op.ofByte? byte with
    | none => malformed (Op.unknownByte byte)
    | some op =>
      if op.width > 0 ∧ code.bytes.size ≤ start + op.width then
        malformed ("truncated " ++ op.name ++ " at " ++ toString start)
      else
        let operand := match op.width with
          | 0 => 0
          | 1 => (code.byteAt? (start + 1)).getD 0
          | _ => (code.wordAt? (start + 1)).getD 0
        modifyFrame fun f => { f with ip := start + 1 + op.width }
        return { op, operand, start, line := code.lineAt start }

/-- A constant of the frame on top. -/
def constant (index : Nat) : Exec Value := do
  let value := match (← get).thread.frames.back? with
    | some frame => frame.code.constants[index]?
    | none => none
  match value with
  | some v => return v
  | none => malformed ("constant " ++ toString index ++ " out of range")

/-- A constant that must be a symbol. -/
def symbolConstant (index : Nat) : Exec Symbol := do
  match ← constant index with
  | .symbol s => return s
  | v => malformed ("expected symbol constant, found " ++ v.typeName)

/-- Goes on at another instruction of the frame on top. -/
def jumpTo (offset : Nat) : Exec Unit :=
  modifyFrame fun f => { f with ip := offset }

/-- Returns from the frame on top. If it was the last one of a call, the value is the outcome of that
call. -/
def returnValue : Exec (Option Value) := do
  let v ← pop
  match (← get).thread.frames.back? with
  | none => malformed "return without frame"
  | some frame =>
    modifyThread fun t =>
      { t with frames := t.frames.pop, stack := t.stack.shrink frame.base }
    if frame.boundary then uninstall
    let base ← baseDepth
    if (← get).thread.frames.size ≤ base then
      return some v
    else
      push v
      return none

/-- Puts the value of a local slot on the stack. -/
def loadLocal (slot : Nat) : Exec Unit := do
  match (← topFrame).locals[slot]? with
  | some v => push v
  | none => malformed ("local slot " ++ toString slot ++ " out of range")

end Exec

/-- Slots with a new value in one of them; slots that are missing are added. -/
def setSlot (locals : Array Value) (slot : Nat) (v : Value) : Array Value :=
  if slot < locals.size then locals.setIfInBounds slot v
  else (locals ++ Array.replicate (slot - locals.size) Value.none).push v

/-- Fields with one more, which takes the place of an earlier one of the same name. -/
def setField (fields : List (Symbol × Value)) (name : Symbol) (v : Value) :
    List (Symbol × Value) :=
  Env.define fields name v

namespace Exec

/-- Takes a value from the stack to a local slot. -/
def storeLocal (slot : Nat) : Exec Unit := do
  let v ← pop
  modifyFrame fun f => { f with locals := setSlot f.locals slot v }

/-- Puts the value of a captured name on the stack. -/
def loadCaptured (index : Nat) : Exec Unit := do
  let name ← symbolConstant index
  match Env.get? (← topFrame).env name with
  | some v => push v
  | none => fail (.undefinedVariable name.name)

/-- Takes a value from the stack to a captured name, for the frame on top alone. -/
def storeCaptured (index : Nat) : Exec Unit := do
  let name ← symbolConstant index
  let v ← pop
  match Env.set? (← topFrame).env name v with
  | some env => modifyFrame fun f => { f with env }
  | none => fail (.undefinedVariable name.name)

/-- Puts the value of a global variable on the stack. -/
def loadGlobal (index : Nat) : Exec Unit := do
  let name ← symbolConstant index
  match (← get).world.globals.get? name with
  | some v => push v
  | none => fail (.undefinedVariable name.name)

/-- Takes a value from the stack to a global variable. -/
def storeGlobal (index : Nat) : Exec Unit := do
  let name ← symbolConstant index
  let v ← pop
  modify fun m => { m with world := { m.world with globals := m.world.globals.set name v } }

/-- Puts a function made from a constant on the stack. -/
def lambda (index : Nat) : Exec Unit := do
  match ← constant index with
  | .code _ code => push (← makeClosure code)
  | v => malformed ("lambda operand is " ++ v.typeName ++ ", not code")

/-- The fields given by names and values in turn. -/
def fieldsOf (fields : List (Symbol × Value)) : List Value → Exec (List (Symbol × Value))
  | .symbol name :: v :: rest => fieldsOf (setField fields name v) rest
  | key :: _ :: _ => malformed ("record key is " ++ key.typeName ++ ", not symbol")
  | _ => return fields

/-- Puts a record made from names and values on the stack. -/
def buildRecord (count : Nat) : Exec Unit := do
  let fields ← fieldsOf [] (← popMany (2 * count))
  push (.record fields)

/-- Replaces a record on the stack by one of its fields. -/
def getField (index : Nat) : Exec Unit := do
  let name ← symbolConstant index
  match ← pop with
  | .record fields =>
    match Env.get? fields name with
    | some v => push v
    | none => fail (.typeError ("record has no field '" ++ name.name ++ "'"))
  | v => fail (.typeError ("cannot read field '" ++ name.name ++ "' of " ++ v.typeName))

/-- The clauses given by effects and functions in turn; those before are given with the latest
first. -/
def clausesOf (done : List (Effect × Value)) : List Value → Exec (List (Effect × Value))
  | .effect e :: clause :: rest => clausesOf ((e, clause) :: done) rest
  | v :: _ :: _ =>
    fail (.typeError ("handler clause expects an effect, got " ++ v.typeName))
  | _ => return done.reverse

/-- Puts a handler made from effects and functions on the stack. -/
def makeHandler (count : Nat) : Exec Unit := do
  let clauses ← clausesOf [] (← popMany (2 * count))
  push (.handler (← draw) clauses)

/-- Runs the function on the stack under the handler below it. -/
def handle : Exec Unit := do
  let body ← pop
  match ← pop with
  | .handler _ clauses => install clauses body
  | v => malformed ("handle expects a handler, got " ++ v.typeName)

/-- Calls the value on the stack with the values below it. -/
def callTop (count line : Nat) (tail : Bool) : Exec Unit := do
  let callee ← pop
  let args ← popMany count
  call callee args line tail

/-- Executes an instruction. The result is the value of the call in progress if it has come to its
end. -/
def execute (i : Fetched) : Exec (Option Value) := do
  match i.op with
  | .ret => returnValue
  | .call => callTop i.operand i.line false; return none
  | .tailCall => callTop i.operand i.line true; return none
  | .jump => jumpTo (i.start + i.operand); return none
  | .jumpIfFalse =>
    let test ← pop
    unless test.isTruthy do jumpTo (i.start + i.operand)
    return none
  | .constant | .constantWide => push (← constant i.operand); return none
  | .pushNone => push .none; return none
  | .pop => let _ ← pop; return none
  | .loadLocal | .loadLocalWide => loadLocal i.operand; return none
  | .storeLocal | .storeLocalWide => storeLocal i.operand; return none
  | .loadCaptured | .loadCapturedWide => loadCaptured i.operand; return none
  | .storeCaptured | .storeCapturedWide => storeCaptured i.operand; return none
  | .loadGlobal | .loadGlobalWide => loadGlobal i.operand; return none
  | .storeGlobal | .storeGlobalWide => storeGlobal i.operand; return none
  | .lambda | .lambdaWide => lambda i.operand; return none
  | .buildList => push (.list (← popMany i.operand)); return none
  | .buildTuple => push (.tuple (← popMany i.operand)); return none
  | .buildRecord => buildRecord i.operand; return none
  | .getField | .getFieldWide => getField i.operand; return none
  | .makeHandler => makeHandler i.operand; return none
  | .handle => handle; return none

end Exec

end Resumable
