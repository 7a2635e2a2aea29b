import Resumable.Proofs.Bytecode.Verifier

/-!
Code whose tail calls are written as plain calls, also in the functions among its constants. The
instructions stand where they stood, with the operands and lines that they had.
-/

namespace Resumable

/-- A plain call in the place of a tail call. -/
def Op.untailed : Op → Op
  | tailCall => call
  | op => op

/-- The bytes of instructions with plain calls in the place of tail calls. The first `skip` bytes are
what is left of the operand of an instruction. -/
def untailBytes : (skip : Nat) → List UInt8 → List UInt8
  | _, [] => []
  | skip + 1, byte :: bytes => byte :: untailBytes skip bytes
  | 0, byte :: bytes =>
    match Op.ofByte? byte with
    | some op => op.untailed.toByte :: untailBytes op.width bytes
    | none => byte :: untailBytes 0 bytes

mutual

/-- Code with plain calls in the place of tail calls, to any depth of nesting. -/
def Code.untailed : Code Value → Code Value
  | ⟨name, params, selfName, localCount, captures, bytes, constants, lines⟩ =>
    ⟨name, params, selfName, localCount, captures, (untailBytes 0 bytes.toList).toArray,
      untailConstants constants, lines⟩

/-- A constant with plain calls in the place of tail calls, if it is code. -/
def Value.untailed : Value → Value
  | .code id f => .code id f.untailed
  | v => v

/-- Constants with plain calls in the place of tail calls. -/
def untailConstants : Array Value → Array Value
  | ⟨constants⟩ => ⟨untailAll constants⟩

/-- Constants in a list with plain calls in the place of tail calls. -/
def untailAll : List Value → List Value
  | [] => []
  | v :: vs => v.untailed :: untailAll vs

end

namespace Op

@[simp]
theorem width_untailed (op : Op) : op.untailed.width = op.width := by
  cases op <;> rfl

theorem untailed_of_ne {op : Op} (hop : op ≠ .tailCall) : op.untailed = op := by
  cases op <;> first | rfl | exact absurd rfl hop

end Op

theorem untailAll_eq_map (vs : List Value) : untailAll vs = vs.map Value.untailed := by
  induction vs with
  | nil => rfl
  | cons v vs ih => rw [untailAll, ih, List.map_cons]

theorem untailBytes_cons {byte : UInt8} {op : Op} (hop : Op.ofByte? byte = some op)
    (bytes : List UInt8) :
    untailBytes 0 (byte :: bytes) = op.untailed.toByte :: untailBytes op.width bytes := by
  rw [untailBytes, hop]

/-- An operand stays as it is. -/
theorem getElem?_untailBytes {skip i : Nat} (hi : i < skip) (bytes : List UInt8) :
    (untailBytes skip bytes)[i]? = bytes[i]? := by
  induction bytes generalizing skip i with
  | nil => cases skip <;> rfl
  | cons byte bytes ih =>
    obtain ⟨skip, rfl⟩ : ∃ n, skip = n + 1 := ⟨skip - 1, by omega⟩
    cases i with
    | zero => rfl
    | succ i => exact ih (by omega)

theorem drop_untailBytes (skip : Nat) (bytes : List UInt8) :
    (untailBytes skip bytes).drop skip = untailBytes 0 (bytes.drop skip) := by
  induction skip generalizing bytes with
  | zero => rfl
  | succ skip ih =>
    cases bytes with
    | nil => rfl
    | cons byte bytes => exact ih bytes

namespace Code

variable {code : Code Value} {κ : Kind}

@[simp]
theorem name_untailed (code : Code Value) : code.untailed.name = code.name := by
  cases code
  rfl

@[simp]
theorem params_untailed (code : Code Value) : code.untailed.params = code.params := by
  cases code
  rfl

@[simp]
theorem selfName_untailed (code : Code Value) : code.untailed.selfName = code.selfName := by
  cases code
  rfl

@[simp]
theorem localCount_untailed (code : Code Value) : code.untailed.localCount = code.localCount := by
  cases code
  rfl

@[simp]
theorem captures_untailed (code : Code Value) : code.untailed.captures = code.captures := by
  cases code
  rfl

@[simp]
theorem lines_untailed (code : Code Value) : code.untailed.lines = code.lines := by
  cases code
  rfl

theorem bytes_untailed (code : Code Value) :
    code.untailed.bytes.toList = untailBytes 0 code.bytes.toList := by
  cases code
  rfl

theorem constants_untailed (code : Code Value) (i : Nat) :
    code.untailed.constants[i]? = code.constants[i]?.map Value.untailed := by
  obtain ⟨name, params, selfName, localCount, captures, bytes, ⟨constants⟩, lines⟩ := code
  simp [untailed, untailConstants, untailAll_eq_map]

/-- What stands from the start of an instruction on. -/
theorem At.bytes_eq {offset operand line : Nat} {op : Op} (hat : code.At offset op operand line) :
    ∃ bytes, code.bytes.toList.drop offset = op.toByte :: bytes := by
  have hbyte := hat.opcode
  rw [← Array.getElem?_toList] at hbyte
  obtain ⟨hlt, hbyte⟩ := List.getElem?_eq_some_iff.1 hbyte
  exact ⟨_, (List.drop_eq_getElem_cons hlt).trans (by rw [hbyte])⟩

/-- The bytes from the start of an instruction on are changed as if nothing stood before. -/
theorem Starts.bytes_untailed {offset : Nat} (hstarts : code.Starts 0 offset) :
    code.untailed.bytes.toList.drop offset = untailBytes 0 (code.bytes.toList.drop offset) := by
  induction hstarts with
  | first => exact Code.bytes_untailed code
  | @next offset operand line op _ hat ih =>
    obtain ⟨bytes, hbytes⟩ := hat.bytes_eq
    have hmore : ∀ l : List UInt8, l.drop (offset + 1 + op.width) =
        ((l.drop offset).drop 1).drop op.width := by
      intro l
      rw [List.drop_drop, List.drop_drop, Nat.add_assoc]
    rw [hmore, hmore, ih, hbytes, untailBytes_cons (Op.ofByte?_toByte op)]
    exact drop_untailBytes op.width bytes

/-- An instruction stands where it stood. -/
theorem At.untailed {offset operand line : Nat} {op : Op} (hat : code.At offset op operand line)
    (hstarts : code.Starts 0 offset) : code.untailed.At offset op.untailed operand line := by
  obtain ⟨bytes, hbytes⟩ := hat.bytes_eq
  have hchanged := hstarts.bytes_untailed
  rw [hbytes, untailBytes_cons (Op.ofByte?_toByte op)] at hchanged
  have hsame : ∀ i, i < op.width → code.untailed.byteAt? (offset + 1 + i) =
      code.byteAt? (offset + 1 + i) := by
    intro i hi
    have hget : ∀ l : List UInt8, l[offset + 1 + i]? = (l.drop offset)[i + 1]? := by
      intro l
      rw [List.getElem?_drop]
      congr 1
      omega
    rw [byteAt?, byteAt?, ← Array.getElem?_toList, ← Array.getElem?_toList, hget, hget, hchanged,
      hbytes, List.getElem?_cons_succ, List.getElem?_cons_succ, getElem?_untailBytes hi]
  refine ⟨?_, ?_, by rw [lines_untailed]; exact hat.line⟩
  · rw [← Array.getElem?_toList, ← Nat.add_zero offset, ← List.getElem?_drop, hchanged]
    rfl
  · rw [← hat.operand, operandAt?, operandAt?, Op.width_untailed]
    split
    · rfl
    next hwidth => exact hsame 0 (by omega)
    next hzero hone =>
      have hwidth := Op.width_eq_two hzero hone
      have hfirst := hsame 0 (by omega)
      have hsecond := hsame 1 (by omega)
      rw [Nat.add_zero] at hfirst
      rw [wordAt?, wordAt?, hfirst, hsecond]

/-- What a typing says of an offset from which on nothing is left to do but to return. -/
theorem WellTyped.returns {H : Typing} {last offset : Nat} {kinds : List Kind}
    (htyped : code.WellTyped κ H last) (hlast : offset ≤ last) (hkinds : H offset = some kinds)
    (hreturns : code.Returns offset) : kinds = [.value] ∧ code.untailed.Returns offset := by
  have hstarts : ∀ {o kinds}, o ≤ last → H o = some kinds → code.Starts 0 o :=
    fun hle h => htyped.typed.starts _ _ (Nat.zero_le _) hle h
  induction hreturns generalizing kinds with
  | @ret offset line hat =>
    obtain ⟨op, operand, line', hat', ⟨_, _, hone⟩ | ⟨_, hchecked, _⟩⟩ :=
      htyped.instruction hlast hkinds
    · exact ⟨hone, .ret (hat.untailed (hstarts hlast hkinds))⟩
    · cases hchecked with
      | straight hat'' hstraight =>
        obtain ⟨rfl, _⟩ := hat.unique hat''
        cases hstraight
      | jump hat'' => exact absurd (hat.unique hat'').1 nofun
      | branch hat'' => exact absurd (hat.unique hat'').1 nofun
  | @jump offset operand line hat _ ih =>
    obtain ⟨op, operand', line', hat', ⟨_, hret, _⟩ | ⟨_, hchecked, _⟩⟩ :=
      htyped.instruction hlast hkinds
    · obtain ⟨rfl, _⟩ := hat.unique hat'
      cases hret
    · cases hchecked with
      | straight hat'' hstraight =>
        obtain ⟨rfl, _⟩ := hat.unique hat''
        cases hstraight
      | jump hat'' _ htarget hreach =>
        obtain ⟨_, rfl⟩ := hat.unique hat''
        obtain ⟨hone, hnext⟩ := ih hreach htarget
        exact ⟨hone, .jump (hat.untailed (hstarts hlast hkinds)) hnext⟩
      | branch hat'' => exact absurd (hat.unique hat'').1 nofun

end Code

end Resumable
