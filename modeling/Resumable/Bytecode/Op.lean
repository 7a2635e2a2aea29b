/-!
Operations of the machine and their bytes. An instruction is the byte of an operation followed by
an operand of zero, one or two bytes; the width of the operand depends on the operation alone.
-/

namespace Resumable

/-- The operations. Those whose operand is an index have a second form with a wide operand. -/
inductive Op where
  | ret
  | call
  | tailCall
  | jump
  | jumpIfFalse
  | constant
  | constantWide
  | pushNone
  | pop
  | loadLocal
  | loadLocalWide
  | storeLocal
  | storeLocalWide
  | loadCaptured
  | loadCapturedWide
  | storeCaptured
  | storeCapturedWide
  | loadGlobal
  | loadGlobalWide
  | storeGlobal
  | storeGlobalWide
  | lambda
  | lambdaWide
  | buildList
  | buildTuple
  | buildRecord
  | getField
  | getFieldWide
  | makeHandler
  | handle
deriving DecidableEq, Repr

namespace Op

/-- All operations in the order of their bytes. -/
def all : List Op :=
  [ret, call, tailCall, jump, jumpIfFalse, constant, constantWide, pushNone, pop,
    loadLocal, loadLocalWide, storeLocal, storeLocalWide,
    loadCaptured, loadCapturedWide, storeCaptured, storeCapturedWide,
    loadGlobal, loadGlobalWide, storeGlobal, storeGlobalWide, lambda, lambdaWide,
    buildList, buildTuple, buildRecord, getField, getFieldWide, makeHandler, handle]

/-- The byte of an operation. -/
def toByte : Op → UInt8
  | ret => 0x00
  | call => 0x01
  | tailCall => 0x02
  | jump => 0x03
  | jumpIfFalse => 0x04
  | constant => 0x10
  | constantWide => 0x11
  | pushNone => 0x12
  | pop => 0x13
  | loadLocal => 0x20
  | loadLocalWide => 0x21
  | storeLocal => 0x22
  | storeLocalWide => 0x23
  | loadCaptured => 0x30
  | loadCapturedWide => 0x31
  | storeCaptured => 0x32
  | storeCapturedWide => 0x33
  | loadGlobal => 0x40
  | loadGlobalWide => 0x41
  | storeGlobal => 0x42
  | storeGlobalWide => 0x43
  | lambda => 0x50
  | lambdaWide => 0x51
  | buildList => 0x60
  | buildTuple => 0x61
  | buildRecord => 0x62
  | getField => 0x63
  | getFieldWide => 0x64
  | makeHandler => 0x70
  | handle => 0x71

/-- The operation of a byte. -/
def ofByte? (byte : UInt8) : Option Op :=
  match byte.toNat with
  | 0x00 => some ret
  | 0x01 => some call
  | 0x02 => some tailCall
  | 0x03 => some jump
  | 0x04 => some jumpIfFalse
  | 0x10 => some constant
  | 0x11 => some constantWide
  | 0x12 => some pushNone
  | 0x13 => some pop
  | 0x20 => some loadLocal
  | 0x21 => some loadLocalWide
  | 0x22 => some storeLocal
  | 0x23 => some storeLocalWide
  | 0x30 => some loadCaptured
  | 0x31 => some loadCapturedWide
  | 0x32 => some storeCaptured
  | 0x33 => some storeCapturedWide
  | 0x40 => some loadGlobal
  | 0x41 => some loadGlobalWide
  | 0x42 => some storeGlobal
  | 0x43 => some storeGlobalWide
  | 0x50 => some lambda
  | 0x51 => some lambdaWide
  | 0x60 => some buildList
  | 0x61 => some buildTuple
  | 0x62 => some buildRecord
  | 0x63 => some getField
  | 0x64 => some getFieldWide
  | 0x70 => some makeHandler
  | 0x71 => some handle
  | _ => none

/-- The name of an operation in listings. -/
def name : Op → String
  | ret => "RETURN"
  | call => "CALL"
  | tailCall => "TAIL_CALL"
  | jump => "JUMP"
  | jumpIfFalse => "JUMP_IF_FALSE"
  | constant => "CONSTANT"
  | constantWide => "CONSTANT_WIDE"
  | pushNone => "PUSH_NONE"
  | pop => "POP"
  | loadLocal => "LOAD_LOCAL"
  | loadLocalWide => "LOAD_LOCAL_WIDE"
  | storeLocal => "STORE_LOCAL"
  | storeLocalWide => "STORE_LOCAL_WIDE"
  | loadCaptured => "LOAD_DYNAMIC"
  | loadCapturedWide => "LOAD_DYNAMIC_WIDE"
  | storeCaptured => "STORE_DYNAMIC"
  | storeCapturedWide => "STORE_DYNAMIC_WIDE"
  | loadGlobal => "LOAD_GLOBAL"
  | loadGlobalWide => "LOAD_GLOBAL_WIDE"
  | storeGlobal => "STORE_GLOBAL"
  | storeGlobalWide => "STORE_GLOBAL_WIDE"
  | lambda => "LAMBDA"
  | lambdaWide => "LAMBDA_WIDE"
  | buildList => "BUILD_LIST"
  | buildTuple => "BUILD_TUPLE"
  | buildRecord => "BUILD_RECORD"
  | getField => "GET_FIELD"
  | getFieldWide => "GET_FIELD_WIDE"
  | makeHandler => "MAKE_HANDLER"
  | handle => "HANDLE"

/-- The operation with the given name. -/
def ofName? (text : String) : Option Op :=
  all.find? fun op => op.name == text

/-- The number of bytes of the operand. -/
def width : Op → Nat
  | ret | pushNone | pop | handle => 0
  | call | tailCall | constant | loadLocal | storeLocal | loadCaptured | storeCaptured
  | loadGlobal | storeGlobal | lambda | buildList | buildTuple | buildRecord | getField
  | makeHandler => 1
  | jump | jumpIfFalse | constantWide | loadLocalWide | storeLocalWide | loadCapturedWide
  | storeCapturedWide | loadGlobalWide | storeGlobalWide | lambdaWide | getFieldWide => 2

/-- The same operation with a wide operand. -/
def wide? : Op → Option Op
  | constant => some constantWide
  | loadLocal => some loadLocalWide
  | storeLocal => some storeLocalWide
  | loadCaptured => some loadCapturedWide
  | storeCaptured => some storeCapturedWide
  | loadGlobal => some loadGlobalWide
  | storeGlobal => some storeGlobalWide
  | lambda => some lambdaWide
  | getField => some getFieldWide
  | _ => none

/-- Whether the operand is the index of a constant. -/
def takesConstant : Op → Bool
  | constant | constantWide | loadCaptured | loadCapturedWide | storeCaptured
  | storeCapturedWide | loadGlobal | loadGlobalWide | storeGlobal | storeGlobalWide | lambda
  | lambdaWide | getField | getFieldWide => true
  | _ => false

/-- Whether the operation is a jump. -/
def isJump : Op → Bool
  | jump | jumpIfFalse => true
  | _ => false

/-- The complaint about a byte that is no operation. -/
def unknownByte (byte : UInt8) : String :=
  let digits := Nat.toDigits 16 byte.toNat
  "invalid opcode 0x" ++ String.ofList (List.replicate (2 - digits.length) '0' ++ digits)

end Op

end Resumable
