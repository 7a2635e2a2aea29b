import Mathlib.Tactic.Common
import Resumable.Bytecode.Decode

/-!
Where instructions stand in code. An instruction stands at an offset if the bytes there are those of
its operation and of its operand and the line table gives its line. Writing an instruction places it
at the old end of the code; nothing that stands before is moved.
-/

namespace Resumable

namespace Op

@[simp]
theorem ofByte?_toByte (op : Op) : ofByte? op.toByte = some op := by
  cases op <;> rfl

theorem width_le_two (op : Op) : op.width ≤ 2 := by
  cases op <;> decide

theorem width_eq_two {op : Op} (hzero : op.width ≠ 0) (hone : op.width ≠ 1) : op.width = 2 := by
  have hle := op.width_le_two
  omega

theorem width_of_wide? {op wide : Op} (hwide : op.wide? = some wide) :
    op.width = 1 ∧ wide.width = 2 := by
  cases op <;> cases hwide <;> exact ⟨rfl, rfl⟩

end Op

namespace Code

variable {κ : Type} {code code' : Code κ}

/-- The operand that `op` has when it stands at an offset. -/
def operandAt? (code : Code κ) (op : Op) (offset : Nat) : Option Nat :=
  match op.width with
  | 0 => some 0
  | 1 => code.byteAt? (offset + 1)
  | _ => code.wordAt? (offset + 1)

/-- The instruction `op operand` stands at an offset and was written for `line`. -/
structure At (code : Code κ) (offset : Nat) (op : Op) (operand line : Nat) : Prop where
  opcode : code.bytes[offset]? = some op.toByte
  operand : code.operandAt? op offset = some operand
  line : code.lines[offset]? = some line

/-- The instruction on an index stands at an offset in one of its two forms and ends before `next`. -/
inductive Indexed (code : Code κ) (offset : Nat) (op : Op) (index line : Nat) : Nat → Prop
  | narrow (hnarrow : op.width = 1) (hat : code.At offset op index line) :
    Indexed code offset op index line (offset + 2)
  | wide {wide : Op} (hwide : op.wide? = some wide) (hat : code.At offset wide index line) :
    Indexed code offset op index line (offset + 3)

/-- The line table has an entry for every byte. -/
def Lined (code : Code κ) : Prop :=
  code.lines.size = code.bytes.size

/-- Two code objects agree on the bytes from `first` up to `last` and on their lines. -/
def AgreesOn (code code' : Code κ) (first last : Nat) : Prop :=
  ∀ i, first ≤ i → i < last →
    code'.bytes[i]? = code.bytes[i]? ∧ code'.lines[i]? = code.lines[i]?

theorem AgreesOn.trans {code'' : Code κ} {first last : Nat}
    (hagree : code.AgreesOn code' first last) (hagree' : code'.AgreesOn code'' first last) :
    code.AgreesOn code'' first last := by
  intro i hfirst hlast
  obtain ⟨hbytes, hlines⟩ := hagree i hfirst hlast
  obtain ⟨hbytes', hlines'⟩ := hagree' i hfirst hlast
  exact ⟨hbytes'.trans hbytes, hlines'.trans hlines⟩

theorem AgreesOn.mono {first last first' last' : Nat} (hagree : code.AgreesOn code' first last)
    (hfirst : first ≤ first') (hlast : last' ≤ last) : code.AgreesOn code' first' last' := by
  intro i hfrom hto
  exact hagree i (by omega) (by omega)

/-- An instruction stays where it is in any code that agrees on its bytes. -/
theorem At.of_agreesOn {offset operand line : Nat} {op : Op}
    (hat : code.At offset op operand line)
    (hagree : code.AgreesOn code' offset (offset + 1 + op.width)) :
    code'.At offset op operand line := by
  obtain ⟨hbyte, hline⟩ := hagree offset (by omega) (by omega)
  refine ⟨hbyte.trans hat.opcode, ?_, hline.trans hat.line⟩
  have hoperand := hat.operand
  unfold operandAt? at hoperand ⊢
  split at hoperand
  · exact hoperand
  next hwidth =>
    obtain ⟨hfirst, _⟩ := hagree (offset + 1) (by omega) (by omega)
    simpa only [byteAt?, hfirst] using hoperand
  next hzero hone =>
    have hwidth := Op.width_eq_two hzero hone
    obtain ⟨hfirst, _⟩ := hagree (offset + 1) (by omega) (by omega)
    obtain ⟨hsecond, _⟩ := hagree (offset + 1 + 1) (by omega) (by omega)
    simpa only [wordAt?, byteAt?, hfirst, hsecond] using hoperand

theorem Indexed.of_agreesOn {offset index line next : Nat} {op : Op}
    (hat : code.Indexed offset op index line next) (hagree : code.AgreesOn code' offset next) :
    code'.Indexed offset op index line next := by
  cases hat with
  | narrow hnarrow hat => exact .narrow hnarrow (hat.of_agreesOn (by simpa [hnarrow] using hagree))
  | wide hwide hat =>
    have hwidth := (Op.width_of_wide? hwide).2
    exact .wide hwide (hat.of_agreesOn (by simpa [hwidth] using hagree))

/-- The bytes of an instruction that stands somewhere are all in the code. -/
theorem At.end_le_size {offset operand line : Nat} {op : Op}
    (hat : code.At offset op operand line) : offset + 1 + op.width ≤ code.size := by
  have hfirst : offset < code.bytes.size := by
    by_contra hnot
    have hop := hat.opcode
    rw [Array.getElem?_eq_none (by omega)] at hop
    cases hop
  have hoperand := hat.operand
  unfold operandAt? at hoperand
  unfold Code.size
  split at hoperand
  next hwidth => omega
  next hwidth =>
    by_contra hnot
    rw [byteAt?, Array.getElem?_eq_none (by omega)] at hoperand
    cases hoperand
  next hzero hone =>
    have hwidth := Op.width_eq_two hzero hone
    by_contra hnot
    simp only [wordAt?, byteAt?] at hoperand
    rw [Array.getElem?_eq_none (i := offset + 1 + 1) (by omega)] at hoperand
    cases h : code.bytes[offset + 1]? <;> simp [h] at hoperand

/-- Decoding gives back the instruction that stands at an offset. -/
theorem At.decodeAt_eq {offset operand line : Nat} {op : Op}
    (hat : code.At offset op operand line) :
    ∃ operands, code.decodeAt offset = .ok ⟨offset, op, operands⟩ ∧
      operands.length = op.width ∧
      (Instruction.operand? ⟨offset, op, operands⟩).getD 0 = operand := by
  have hend := hat.end_le_size
  unfold Code.size at hend
  refine ⟨(code.bytes.extract (offset + 1) (offset + 1 + op.width)).toList, ?_, ?_, ?_⟩
  · rw [decodeAt, hat.opcode]
    simp only [Op.ofByte?_toByte]
    rw [if_neg (by omega)]
  · simp only [Array.length_toList, Array.size_extract]
    omega
  · have hoperand := hat.operand
    unfold operandAt? at hoperand
    split at hoperand
    next hwidth =>
      have hnil : (code.bytes.extract (offset + 1) (offset + 1 + 0)).toList = [] := by simp
      rw [hwidth, hnil]
      simpa [Instruction.operand?] using hoperand
    next hwidth =>
      have hbyte : offset + 1 < code.bytes.size := by omega
      have hone : (code.bytes.extract (offset + 1) (offset + 1 + 1)).toList =
          [code.bytes[offset + 1]] := by
        apply List.ext_getElem
        · simp; omega
        · intro i hleft hright
          simp only [List.length_singleton] at hright
          obtain rfl : i = 0 := by omega
          simp
      rw [hwidth, hone]
      simpa [Instruction.operand?, byteAt?, hbyte] using hoperand
    next hzero hone =>
      have hwidth := Op.width_eq_two hzero hone
      have hbyte : offset + 1 + 1 < code.bytes.size := by omega
      have htwo : (code.bytes.extract (offset + 1) (offset + 1 + 2)).toList =
          [code.bytes[offset + 1], code.bytes[offset + 1 + 1]] := by
        apply List.ext_getElem
        · simp; omega
        · intro i hleft hright
          simp only [List.length_cons, List.length_nil] at hright
          obtain rfl | rfl : i = 0 ∨ i = 1 := by omega
          · simp
          · simp
      rw [hwidth, htwo]
      have hbyte' : offset + 1 < code.bytes.size := by omega
      simpa [Instruction.operand?, wordAt?, byteAt?, hbyte, hbyte'] using hoperand

/-! Writing places an instruction at the old end and keeps everything before it. -/

/-- What is written behind a code object leaves its bytes and lines in place. -/
structure Grows (code code' : Code κ) : Prop where
  size_le : code.size ≤ code'.size
  agrees : code.AgreesOn code' 0 code.size
  lined : code.Lined → code'.Lined

theorem Grows.refl (code : Code κ) : code.Grows code :=
  ⟨Nat.le_refl _, fun _ _ _ => ⟨rfl, rfl⟩, id⟩

theorem Grows.trans {code'' : Code κ} (hgrows : code.Grows code') (hgrows' : code'.Grows code'') :
    code.Grows code'' :=
  ⟨Nat.le_trans hgrows.size_le hgrows'.size_le,
    hgrows.agrees.trans (hgrows'.agrees.mono (Nat.le_refl _) hgrows.size_le),
    fun hlined => hgrows'.lined (hgrows.lined hlined)⟩

@[simp]
theorem size_writeByte (code : Code κ) (byte : UInt8) (line : Nat) :
    (code.writeByte byte line).size = code.size + 1 := by
  simp [size, writeByte]

theorem Lined.writeByte (hlined : code.Lined) (byte : UInt8) (line : Nat) :
    (code.writeByte byte line).Lined := by
  simpa [Lined, Code.writeByte] using hlined

theorem writeByte_grows (hlined : code.Lined) (byte : UInt8) (line : Nat) :
    code.Grows (code.writeByte byte line) := by
  refine ⟨by simp, ?_, fun _ => hlined.writeByte byte line⟩
  intro i _ hlast
  unfold size at hlast
  have hline : i < code.lines.size := by rw [hlined]; exact hlast
  simp [writeByte, Array.getElem?_push, Nat.ne_of_lt hlast, Nat.ne_of_lt hline]

@[simp]
theorem size_write (code : Code κ) (op : Op) (line : Nat) :
    (code.write op line).size = code.size + 1 := by
  simp [write]

@[simp]
theorem size_writeNarrow (code : Code κ) (op : Op) (operand : UInt8) (line : Nat) :
    (code.writeNarrow op operand line).size = code.size + 2 := by
  simp [writeNarrow]

@[simp]
theorem size_writeWide (code : Code κ) (op : Op) (operand : UInt16) (line : Nat) :
    (code.writeWide op operand line).size = code.size + 3 := by
  simp [writeWide]

theorem write_grows (hlined : code.Lined) (op : Op) (line : Nat) :
    code.Grows (code.write op line) :=
  writeByte_grows hlined op.toByte line

theorem writeNarrow_grows (hlined : code.Lined) (op : Op) (operand : UInt8) (line : Nat) :
    code.Grows (code.writeNarrow op operand line) := by
  have hfirst := write_grows hlined op line
  exact hfirst.trans (writeByte_grows (hfirst.lined hlined) operand line)

theorem writeWide_grows (hlined : code.Lined) (op : Op) (operand : UInt16) (line : Nat) :
    code.Grows (code.writeWide op operand line) := by
  have hfirst := write_grows hlined op line
  have hsecond := writeByte_grows (hfirst.lined hlined) (highByte operand.toNat) line
  have hthird := writeByte_grows (hsecond.lined (hfirst.lined hlined)) (lowByte operand.toNat) line
  exact (hfirst.trans hsecond).trans hthird

theorem write_at (hlined : code.Lined) {op : Op} (hwidth : op.width = 0) (line : Nat) :
    (code.write op line).At code.size op 0 line := by
  unfold Lined at hlined
  refine ⟨?_, ?_, ?_⟩
  · simp [write, writeByte, size]
  · simp [operandAt?, hwidth]
  · simp [write, writeByte, size, ← hlined]

theorem bytes_writeNarrow (code : Code κ) (op : Op) (operand : UInt8) (line : Nat) :
    (code.writeNarrow op operand line).bytes = code.bytes ++ #[op.toByte, operand] := by
  apply Array.ext'
  simp [writeNarrow, write, writeByte]

theorem bytes_writeWide (code : Code κ) (op : Op) (operand : UInt16) (line : Nat) :
    (code.writeWide op operand line).bytes =
      code.bytes ++ #[op.toByte, highByte operand.toNat, lowByte operand.toNat] := by
  apply Array.ext'
  simp [writeWide, write, writeByte]

theorem writeNarrow_at (hlined : code.Lined) {op : Op} (hwidth : op.width = 1) (operand : UInt8)
    (line : Nat) :
    (code.writeNarrow op operand line).At code.size op operand.toNat line := by
  unfold Lined at hlined
  refine ⟨?_, ?_, ?_⟩
  · simp [bytes_writeNarrow, size]
  · simp [operandAt?, hwidth, byteAt?, bytes_writeNarrow, size]
  · have hlines : (code.writeNarrow op operand line).lines = (code.lines.push line).push line := rfl
    rw [hlines, size, ← hlined, Array.getElem?_push, if_neg (by simp), Array.getElem?_push,
      if_pos rfl]

/-- Two bytes hold every number below 65536. -/
theorem highByte_lowByte {n : Nat} (hn : n < 65536) :
    256 * (highByte n).toNat + (lowByte n).toNat = n := by
  simp only [highByte, lowByte, UInt8.toNat_ofNat']
  omega

theorem writeWide_at (hlined : code.Lined) {op : Op} (hwidth : op.width = 2) (operand : UInt16)
    (line : Nat) :
    (code.writeWide op operand line).At code.size op operand.toNat line := by
  unfold Lined at hlined
  refine ⟨?_, ?_, ?_⟩
  · simp [bytes_writeWide, size]
  · have hword := highByte_lowByte (n := operand.toNat) operand.toNat_lt
    have hsecond : (code.bytes ++ #[op.toByte, highByte operand.toNat,
        lowByte operand.toNat])[code.bytes.size + 1 + 1]? = some (lowByte operand.toNat) := by
      rw [Array.getElem?_append_right (by omega), Nat.add_assoc, Nat.add_sub_cancel_left]
      rfl
    simp only [operandAt?, hwidth, wordAt?, byteAt?, bytes_writeWide, size, hsecond]
    simpa using hword
  · have hlines : (code.writeWide op operand line).lines =
        ((code.lines.push line).push line).push line := rfl
    rw [hlines, size, ← hlined, Array.getElem?_push, if_neg (by simp; omega), Array.getElem?_push,
      if_neg (by simp), Array.getElem?_push, if_pos rfl]

/-- An operation on an index, written in the form that the index needs. -/
theorem writeForm_indexed (hlined : code.Lined) {op : Op} {index : Nat} {form : IndexForm}
    (hwidth : op.width = 1) (hform : op.formFor index = .ok form) (line : Nat) :
    code.Grows (code.writeForm form index line) ∧
      (code.writeForm form index line).Indexed code.size op index line
        (code.writeForm form index line).size := by
  unfold Op.formFor at hform
  split at hform
  next hnarrow =>
    cases hform
    refine ⟨writeNarrow_grows hlined _ _ _, ?_⟩
    have hat := writeNarrow_at hlined hwidth (UInt8.ofNat index) line
    rw [UInt8.toNat_ofNat_of_lt' hnarrow] at hat
    have hindexed := Indexed.narrow hwidth hat
    simpa [writeForm] using hindexed
  next hnarrow =>
    split at hform
    next hbound =>
      split at hform
      next wide hwide =>
        cases hform
        refine ⟨writeWide_grows hlined _ _ _, ?_⟩
        have hat := writeWide_at hlined (Op.width_of_wide? hwide).2 (UInt16.ofNat index) line
        rw [UInt16.toNat_ofNat_of_lt' hbound] at hat
        have hindexed := Indexed.wide hwide hat
        simpa [writeForm] using hindexed
      next => cases hform
    next => cases hform

@[simp]
theorem size_setJump (code : Code κ) (start distance : Nat) :
    (code.setJump start distance).size = code.size := by
  simp [size, setJump]

theorem Lined.setJump (hlined : code.Lined) (start distance : Nat) :
    (code.setJump start distance).Lined := by
  simpa [Lined, Code.setJump] using hlined

/-- Completing a jump changes nothing but its operand. -/
theorem setJump_agreesOn (code : Code κ) {start first last : Nat} (distance : Nat)
    (houtside : last ≤ start + 1 ∨ start + 3 ≤ first) :
    code.AgreesOn (code.setJump start distance) first last := by
  intro i hfirst hlast
  refine ⟨?_, rfl⟩
  simp only [setJump]
  rw [Array.getElem?_setIfInBounds_ne (by omega), Array.getElem?_setIfInBounds_ne (by omega)]

theorem setJump_at {op : Op} {operand line start distance : Nat} (hwidth : op.width = 2)
    (hat : code.At start op operand line) (hdistance : distance < 65536) :
    (code.setJump start distance).At start op distance line := by
  have hend := hat.end_le_size
  unfold size at hend
  refine ⟨?_, ?_, hat.line⟩
  · have hkeep : code.AgreesOn (code.setJump start distance) start (start + 1) :=
      setJump_agreesOn code distance (Or.inl (Nat.le_refl _))
    exact (hkeep start (Nat.le_refl _) (by omega)).1.trans hat.opcode
  · have hword := highByte_lowByte hdistance
    have hhigh : ((code.setJump start distance).bytes)[start + 1]? = some (highByte distance) := by
      simp only [setJump]
      rw [Array.getElem?_setIfInBounds_ne (by omega), Array.getElem?_setIfInBounds_self_of_lt (by omega)]
    have hlow : ((code.setJump start distance).bytes)[start + 1 + 1]? = some (lowByte distance) := by
      simp only [setJump]
      rw [Array.getElem?_setIfInBounds_self_of_lt (by simp; omega)]
    simpa [operandAt?, hwidth, wordAt?, byteAt?, hhigh, hlow] using hword

end Code

end Resumable
