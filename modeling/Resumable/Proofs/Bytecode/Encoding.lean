import Mathlib.Algebra.Order.Ring.Int
import Resumable.Compile
import Resumable.Proofs.Action
import Resumable.Proofs.Bytecode.Placement

/-!
Writing instructions and reading them back. A sequence of write operations asks for a list of
instructions; reading the code gives that list, with every jump as it was last aimed. Bytes that can
be read are those that writing the instructions gives.
-/

namespace Resumable

/-- The operation that stands in the code for an operation on an index, if it has a form that is
wide enough. -/
def Op.onIndex? (op : Op) (index : Nat) : Option Op :=
  if index ≤ 255 then some op
  else if index ≤ 65535 then op.wide?
  else none

/-- How an operation on an index is written, and which operation then stands in the code. -/
inductive Op.InForm (op : Op) (index : Nat) : Prop
  | narrow (hindex : index ≤ 255) (hform : op.formFor index = .ok (.narrow op))
    (hop : op.onIndex? index = some op)
  | wide {wide : Op} (hindex : index ≤ 65535) (hwide : op.wide? = some wide)
    (hform : op.formFor index = .ok (.wide wide)) (hop : op.onIndex? index = some wide)
  | refused (hform : op.formFor index = .error (.operandTooWide index))
    (hop : op.onIndex? index = none)

theorem Op.inForm (op : Op) (index : Nat) : op.InForm index := by
  by_cases hnarrow : index ≤ 255
  · exact .narrow hnarrow (if_pos (by omega)) (if_pos hnarrow)
  · have hop : op.onIndex? index = if index ≤ 65535 then op.wide? else none := if_neg hnarrow
    have hlarge : ¬ index < 256 := by omega
    by_cases hbound : index ≤ 65535
    · have hfits : index < 65536 := by omega
      rw [if_pos hbound] at hop
      cases hwide : op.wide? with
      | some wide =>
        exact .wide hbound hwide (by rw [formFor, if_neg hlarge, if_pos hfits, hwide]) (hop.trans hwide)
      | none =>
        exact .refused (by rw [formFor, if_neg hlarge, if_pos hfits, hwide]) (hop.trans hwide)
    · have hfits : ¬ index < 65536 := by omega
      rw [if_neg hbound] at hop
      exact .refused (by rw [formFor, if_neg hlarge, if_neg hfits]) hop

/-- An instruction that has been asked for, with its place. -/
structure Written where
  offset : Nat
  op : Op
  operand : Option Nat

namespace Written

/-- The number of bytes that instructions take. -/
def extent (is : List Written) : Nat :=
  (is.map fun i => 1 + i.op.width).sum

/-- One more instruction, behind the others. -/
def append (is : List Written) (op : Op) (operand : Option Nat) : List Written :=
  is ++ [⟨extent is, op, operand⟩]

/-- The instruction with another operand, if it is the one that starts at `start`. -/
def aimAt (start operand : Nat) (i : Written) : Written :=
  if i.offset = start then { i with operand := some operand } else i

end Written

/-- An operation that writes to code. -/
inductive Writing where
  | plain (op : Op) (line : Nat)
  | narrow (op : Op) (operand : UInt8) (line : Nat)
  | wide (op : Op) (operand : UInt16) (line : Nat)
  | indexed (op : Op) (index line : Nat)
  | jump (op : Op) (line : Nat)
  | patch (start : Nat)
  | constant (value : Value)
  | symbol (name : Symbol)

namespace Writing

/-- What an operation does to code. -/
def perform (code : Code Value) : Writing → Except EncodeError (Code Value)
  | plain op line => .ok (code.write op line)
  | narrow op operand line => .ok (code.writeNarrow op operand line)
  | wide op operand line => .ok (code.writeWide op operand line)
  | indexed op index line => code.writeIndexed op index line
  | jump op line => .ok (code.writeJump op line)
  | patch start => code.patchJump start
  | constant value => (code.addConstant value).map Prod.snd
  | symbol name => (code.addSymbol name).map Prod.snd

/-- The code after an operation, which is left as it was by one that fails. -/
def after (w : Writing) (code : Code Value) : Code Value :=
  match w.perform code with
  | .ok code => code
  | .error _ => code

/-- The instructions that have been asked for after an operation. Only an index that has no form and
a jump that is too far ask for nothing. -/
def record (is : List Written) : Writing → List Written
  | plain op _ => Written.append is op none
  | narrow op operand _ => Written.append is op (some operand.toNat)
  | wide op operand _ => Written.append is op (some operand.toNat)
  | indexed op index _ =>
    match op.onIndex? index with
    | some op => Written.append is op (some index)
    | none => is
  | jump op _ => Written.append is op (some 65535)
  | patch start =>
    let distance := Written.extent is - start
    if distance ≤ 65535 then is.map (Written.aimAt start distance) else is
  | constant _ | symbol _ => is

/-- An operation is written with an operand of its width, and what is patched is an instruction with
a wide operand, as jumps are. -/
def Fits (is : List Written) : Writing → Prop
  | plain op _ => op.width = 0
  | narrow op _ _ | indexed op _ _ => op.width = 1
  | wide op _ _ | jump op _ => op.width = 2
  | patch start => ∃ i ∈ is, i.offset = start ∧ i.op.width = 2
  | constant _ | symbol _ => True

/-- A sequence of operations on empty code asks for instructions and leads to code. -/
inductive Makes : List Writing → List Written → Code Value → Prop
  | nothing : Makes [] [] {}
  | next {ws : List Writing} {is : List Written} {code : Code Value} {w : Writing}
    (hbefore : Makes ws is code) (hfits : w.Fits is) :
    Makes (ws ++ [w]) (w.record is) (w.after code)

end Writing

/-- The instruction as it would have been asked for. -/
def Instruction.written (i : Instruction) : Written :=
  ⟨i.offset, i.op, i.operand?⟩

/-- The operation that writes an instruction. -/
def Instruction.writing (line : Nat) (i : Instruction) : Writing :=
  match i.operands with
  | [] => .plain i.op line
  | [operand] => .narrow i.op operand line
  | high :: low :: _ => .wide i.op (UInt16.ofNat (256 * high.toNat + low.toNat)) line

namespace Code

variable {code code' : Code Value} {is : List Written}

/-- Instructions stand in code one behind the other, from `first` to its end. -/
def Holds (code : Code Value) (first : Nat) : List Written → Prop
  | [] => first = code.size
  | i :: is =>
    i.offset = first ∧ (i.operand = none ↔ i.op.width = 0) ∧
      (∃ line, code.At first i.op (i.operand.getD 0) line) ∧
      Holds code (first + 1 + i.op.width) is

theorem Holds.size_eq {first : Nat} (hholds : code.Holds first is) :
    code.size = first + Written.extent is := by
  induction is generalizing first with
  | nil => exact hholds.symm
  | cons i is ih =>
    obtain ⟨_, _, _, hrest⟩ := hholds
    rw [ih hrest, Written.extent, Written.extent, List.map_cons, List.sum_cons]
    omega

theorem Holds.offset_ge {first : Nat} (hholds : code.Holds first is) {i : Written} (hi : i ∈ is) :
    first ≤ i.offset := by
  induction is generalizing first with
  | nil => cases hi
  | cons j is ih =>
    obtain ⟨rfl, _, _, hrest⟩ := hholds
    obtain rfl | hi := List.mem_cons.1 hi
    · exact Nat.le_refl _
    · have hlater := ih hrest hi
      omega

/-- Instructions stay where they are when more is written behind them. -/
theorem Holds.of_grows {first : Nat} (hholds : code.Holds first is) (hgrows : code.Grows code')
    {op : Op} {operand : Option Nat} {line : Nat} (hoperand : operand = none ↔ op.width = 0)
    (hat : code'.At code.size op (operand.getD 0) line)
    (hsize : code'.size = code.size + 1 + op.width) :
    code'.Holds first (is ++ [⟨code.size, op, operand⟩]) := by
  induction is generalizing first with
  | nil =>
    obtain rfl : first = code.size := hholds
    exact ⟨rfl, hoperand, ⟨line, hat⟩, hsize.symm⟩
  | cons i is ih =>
    obtain ⟨hoffset, hnone, ⟨line', hat'⟩, hrest⟩ := hholds
    have hkept := hgrows.agrees.mono (Nat.zero_le first) hat'.end_le_size
    exact ⟨hoffset, hnone, ⟨line', hat'.of_agreesOn hkept⟩, ih hrest⟩

/-- Instructions behind a jump are not changed when the jump is completed. -/
theorem Holds.setJump_behind {first start : Nat} (hholds : code.Holds first is) (distance : Nat)
    (hbehind : start + 3 ≤ first) :
    (code.setJump start distance).Holds first (is.map (Written.aimAt start distance)) := by
  induction is generalizing first with
  | nil => exact hholds.trans (size_setJump code start distance).symm
  | cons i is ih =>
    obtain ⟨rfl, hnone, ⟨line, hat⟩, hrest⟩ := hholds
    have hkept : code.AgreesOn (code.setJump start distance) i.offset
        (i.offset + 1 + i.op.width) := setJump_agreesOn code distance (Or.inr hbehind)
    rw [List.map_cons, Written.aimAt, if_neg (by omega)]
    exact ⟨rfl, hnone, ⟨line, hat.of_agreesOn hkept⟩, ih hrest (by omega)⟩

/-- Completing a jump changes its operand and no other instruction. -/
theorem Holds.setJump {first start distance : Nat} (hholds : code.Holds first is)
    (hstart : ∃ i ∈ is, i.offset = start ∧ i.op.width = 2) (hdistance : distance < 65536) :
    (code.setJump start distance).Holds first (is.map (Written.aimAt start distance)) := by
  induction is generalizing first with
  | nil => obtain ⟨_, hi, _⟩ := hstart; cases hi
  | cons i is ih =>
    obtain ⟨rfl, hnone, ⟨line, hat⟩, hrest⟩ := hholds
    obtain ⟨j, hj, hoffset, hwidth⟩ := hstart
    obtain rfl | hj := List.mem_cons.1 hj
    · -- the jump itself: its operand is replaced, and the rest stands behind it
      subst hoffset
      rw [List.map_cons, Written.aimAt, if_pos rfl]
      refine ⟨rfl, by simp [hwidth], ⟨line, setJump_at hwidth hat hdistance⟩, ?_⟩
      exact hrest.setJump_behind distance (by omega)
    · -- an instruction before the jump ends before the operand of the jump
      have hlater := hrest.offset_ge hj
      have hkept : code.AgreesOn (code.setJump start distance) i.offset
          (i.offset + 1 + i.op.width) := setJump_agreesOn code distance (Or.inl (by omega))
      rw [List.map_cons, Written.aimAt, if_neg (by omega)]
      exact ⟨rfl, hnone, ⟨line, hat.of_agreesOn hkept⟩, ih hrest ⟨j, hj, hoffset, hwidth⟩⟩

/-- Decoding gives back the operand that stands in the code, or none if there is none. -/
theorem At.decodeAt_written {i : Written} {line : Nat}
    (hat : code.At i.offset i.op (i.operand.getD 0) line)
    (hnone : i.operand = none ↔ i.op.width = 0) :
    ∃ i', code.decodeAt i.offset = .ok i' ∧ i'.written = i ∧ i'.length = 1 + i.op.width := by
  obtain ⟨offset, op, operand⟩ := i
  obtain ⟨operands, hdecode, hlength, hoperand⟩ := hat.decodeAt_eq
  refine ⟨_, hdecode, ?_, by simp [Instruction.length, hlength]⟩
  have hsome : ∀ n, operand = some n → Instruction.operand? ⟨offset, op, operands⟩ = some n := by
    rintro n rfl
    have hpos : op.width ≠ 0 := fun hzero => nomatch hnone.2 hzero
    have hle := op.width_le_two
    match operands, hlength, hoperand with
    | [], hlength, _ => exact absurd hlength.symm hpos
    | [_], _, hoperand => exact congrArg some hoperand
    | [_, _], _, hoperand => exact congrArg some hoperand
    | _ :: _ :: _ :: _, hlength, _ =>
      simp only [List.length_cons] at hlength
      omega
  cases operand with
  | some n => simp only [Instruction.written, hsome n rfl]
  | none =>
    obtain rfl : operands = [] := List.eq_nil_of_length_eq_zero (hlength.trans (hnone.1 rfl))
    rfl

/-- Reading gives the instructions that stand in code, in order. -/
theorem Holds.decodeFrom {first : Nat} (hholds : code.Holds first is) (bound : Nat)
    (hbound : is.length ≤ bound) (done : List Instruction) :
    ∃ is', code.decodeFrom bound first done = .ok (done.reverse ++ is') ∧
      is'.map Instruction.written = is := by
  induction is generalizing first bound done with
  | nil =>
    obtain rfl : first = code.size := hholds
    refine ⟨[], ?_, rfl⟩
    cases bound with
    | zero => simp [Code.decodeFrom]
    | succ bound => simp [Code.decodeFrom, size]
  | cons i is ih =>
    obtain ⟨rfl, hnone, ⟨line, hat⟩, hrest⟩ := hholds
    obtain ⟨i', hdecode, hwritten, hlength⟩ := hat.decodeAt_written hnone
    obtain ⟨bound, rfl⟩ : ∃ n, bound = n + 1 := ⟨bound - 1, by simp at hbound; omega⟩
    rw [Nat.add_assoc, ← hlength] at hrest
    obtain ⟨is', hread, hmap⟩ := ih hrest bound (by simpa using hbound) (i' :: done)
    refine ⟨i' :: is', ?_, by rw [List.map_cons, hwritten, hmap]⟩
    have hinside := hat.end_le_size
    unfold size at hinside
    rw [Code.decodeFrom, if_pos (by omega), hdecode]
    simpa using hread

theorem length_le_extent (is : List Written) : is.length ≤ Written.extent is := by
  induction is with
  | nil => exact Nat.le_refl _
  | cons i is ih =>
    rw [Written.extent, List.map_cons, List.sum_cons, List.length_cons]
    unfold Written.extent at ih
    omega

/-- Only bytes and lines tell which instructions stand in code. -/
theorem Holds.congr {first : Nat} (hholds : code.Holds first is) (hbytes : code'.bytes = code.bytes)
    (hlines : code'.lines = code.lines) : code'.Holds first is := by
  induction is generalizing first with
  | nil =>
    obtain rfl : first = code.size := hholds
    exact (congrArg Array.size hbytes).symm
  | cons i is ih =>
    obtain ⟨hoffset, hnone, ⟨line, hat⟩, hrest⟩ := hholds
    have hsame : code.AgreesOn code' first (first + 1 + i.op.width) :=
      fun _ _ _ => ⟨by rw [hbytes], by rw [hlines]⟩
    exact ⟨hoffset, hnone, ⟨line, hat.of_agreesOn hsame⟩, ih hrest⟩

/-- An instruction that is written at the end stands behind the others. -/
theorem Holds.append (hholds : code.Holds 0 is) (hgrows : code.Grows code') {op : Op}
    {operand : Option Nat} {line : Nat} (hoperand : operand = none ↔ op.width = 0)
    (hat : code'.At code.size op (operand.getD 0) line)
    (hsize : code'.size = code.size + 1 + op.width) :
    code'.Holds 0 (Written.append is op operand) := by
  have hplaced := hholds.of_grows hgrows hoperand hat hsize
  rwa [hholds.size_eq, Nat.zero_add] at hplaced

/-- Code in which instructions stand from its start on, with a line for every byte. -/
structure Encodes (code : Code Value) (is : List Written) : Prop where
  holds : code.Holds 0 is
  lined : code.Lined

namespace Encodes

theorem grows (hencodes : code.Encodes is) (hgrows : code.Grows code') {op : Op}
    {operand : Option Nat} {line : Nat} (hoperand : operand = none ↔ op.width = 0)
    (hat : code'.At code.size op (operand.getD 0) line)
    (hsize : code'.size = code.size + 1 + op.width) :
    code'.Encodes (Written.append is op operand) :=
  ⟨hencodes.holds.append hgrows hoperand hat hsize, hgrows.lined hencodes.lined⟩

theorem write (hencodes : code.Encodes is) {op : Op} (hwidth : op.width = 0) (line : Nat) :
    (code.write op line).Encodes (Written.append is op none) :=
  hencodes.grows (write_grows hencodes.lined op line) (by simp [hwidth])
    (write_at hencodes.lined hwidth line) (by simp [hwidth])

theorem writeNarrow (hencodes : code.Encodes is) {op : Op} (hwidth : op.width = 1) (operand : UInt8)
    (line : Nat) :
    (code.writeNarrow op operand line).Encodes (Written.append is op (some operand.toNat)) :=
  hencodes.grows (writeNarrow_grows hencodes.lined op operand line) (by simp [hwidth])
    (writeNarrow_at hencodes.lined hwidth operand line) (by simp [hwidth])

theorem writeWide (hencodes : code.Encodes is) {op : Op} (hwidth : op.width = 2) (operand : UInt16)
    (line : Nat) :
    (code.writeWide op operand line).Encodes (Written.append is op (some operand.toNat)) :=
  hencodes.grows (writeWide_grows hencodes.lined op operand line) (by simp [hwidth])
    (writeWide_at hencodes.lined hwidth operand line) (by simp [hwidth])

/-- An operation on an index stands in the narrow form if the index fits in it. -/
theorem writeIndexed (hencodes : code.Encodes is) {op : Op} (hwidth : op.width = 1)
    (index line : Nat) :
    ((Writing.indexed op index line).after code).Encodes
      ((Writing.indexed op index line).record is) := by
  simp only [Writing.after, Writing.perform, Writing.record, Code.writeIndexed]
  cases op.inForm index with
  | narrow hindex hform hop =>
    rw [hform, hop]
    have hwritten := hencodes.writeNarrow hwidth (UInt8.ofNat index) line
    rwa [UInt8.toNat_ofNat_of_lt' (Nat.lt_succ_of_le hindex)] at hwritten
  | wide hindex hwide hform hop =>
    rw [hform, hop]
    have hwritten := hencodes.writeWide (Op.width_of_wide? hwide).2 (UInt16.ofNat index) line
    rwa [UInt16.toNat_ofNat_of_lt' (Nat.lt_succ_of_le hindex)] at hwritten
  | refused hform hop =>
    rw [hform, hop]
    exact hencodes

/-- A jump that reaches the end of the code is aimed there. -/
theorem patchJump (hencodes : code.Encodes is) {start : Nat}
    (hstart : ∃ i ∈ is, i.offset = start ∧ i.op.width = 2) :
    ((Writing.patch start).after code).Encodes ((Writing.patch start).record is) := by
  have hsize := hencodes.holds.size_eq
  rw [Nat.zero_add, size] at hsize
  simp only [Writing.after, Writing.perform, Writing.record, Code.patchJump, jumpDistance, ← hsize]
  by_cases hdistance : code.bytes.size - start < 65536
  · rw [if_pos hdistance, if_pos (by omega)]
    exact ⟨hencodes.holds.setJump hstart hdistance, hencodes.lined.setJump _ _⟩
  · rw [if_neg hdistance, if_neg (by omega)]
    exact hencodes

theorem congr (hencodes : code.Encodes is) (hbytes : code'.bytes = code.bytes)
    (hlines : code'.lines = code.lines) : code'.Encodes is :=
  ⟨hencodes.holds.congr hbytes hlines, by
    have hlined := hencodes.lined
    unfold Lined at hlined ⊢
    rwa [hbytes, hlines]⟩

theorem addConstant (hencodes : code.Encodes is) (value : Value) :
    ((Writing.constant value).after code).Encodes is := by
  simp only [Writing.after, Writing.perform, Code.addConstant]
  cases code.nextConstant with
  | ok index => exact hencodes.congr rfl rfl
  | error e => exact hencodes

theorem addSymbol (hencodes : code.Encodes is) (symbol : Symbol) :
    ((Writing.symbol symbol).after code).Encodes is := by
  simp only [Writing.after, Writing.perform, Code.addSymbol]
  cases code.symbolIndex? symbol with
  | some index => exact hencodes
  | none => exact hencodes.addConstant (.symbol symbol)

/-- What one operation writes. -/
theorem after (hencodes : code.Encodes is) {w : Writing} (hfits : w.Fits is) :
    (w.after code).Encodes (w.record is) := by
  cases w with
  | plain op line => exact hencodes.write hfits line
  | narrow op operand line => exact hencodes.writeNarrow hfits operand line
  | wide op operand line => exact hencodes.writeWide hfits operand line
  | indexed op index line => exact hencodes.writeIndexed hfits index line
  | jump op line => exact hencodes.writeWide hfits 65535 line
  | patch start => exact hencodes.patchJump hfits
  | constant value => exact hencodes.addConstant value
  | symbol symbol => exact hencodes.addSymbol symbol

/-- Reading the code gives the instructions. -/
theorem instructions (hencodes : code.Encodes is) :
    ∃ is', code.instructions = .ok is' ∧ is'.map Instruction.written = is := by
  have hsize := hencodes.holds.size_eq
  rw [Nat.zero_add, size] at hsize
  have hbound : is.length ≤ code.bytes.size := hsize ▸ length_le_extent is
  obtain ⟨is', hread, hmap⟩ := hencodes.holds.decodeFrom code.bytes.size hbound []
  exact ⟨is', hread, hmap⟩

end Encodes

end Code

/-- What a sequence of operations writes. -/
theorem Writing.Makes.encodes {ws : List Writing} {is : List Written} {code : Code Value}
    (hmakes : Makes ws is code) : code.Encodes is := by
  induction hmakes with
  | nothing => exact ⟨rfl, rfl⟩
  | next _ hfits ih => exact ih.after hfits

namespace Op

/-- Every byte that stands for an operation is the byte of that operation. -/
theorem toByte_of_ofByte? {byte : UInt8} {op : Op} (hop : ofByte? byte = some op) :
    op.toByte = byte := by
  unfold ofByte? at hop
  split at hop <;> cases hop <;> (apply UInt8.toNat_inj.1; simp_all [toByte])

end Op

namespace Code

variable {code : Code Value}

/-- An instruction that is read consists of the bytes that stand in the code. -/
theorem decodeAt_eq_ok {offset : Nat} {i : Instruction} (hdecode : code.decodeAt offset = .ok i) :
    i.offset = offset ∧ i.operands.length = i.op.width ∧
      code.bytes.toList.drop offset =
        i.op.toByte :: i.operands ++ code.bytes.toList.drop (offset + i.length) := by
  unfold decodeAt at hdecode
  split at hdecode
  next => cases hdecode
  next byte hbyte =>
    split at hdecode
    next => cases hdecode
    next op hop =>
      split at hdecode
      next => cases hdecode
      next hinside =>
        cases hdecode
        have hlength : ((code.bytes.extract (offset + 1) (offset + 1 + op.width)).toList).length =
            op.width := by
          simp only [Array.length_toList, Array.size_extract]
          omega
        refine ⟨rfl, hlength, ?_⟩
        rw [← Array.getElem?_toList] at hbyte
        obtain ⟨hlt, hbyte⟩ := List.getElem?_eq_some_iff.1 hbyte
        have hmore : code.bytes.toList.drop (offset + (1 + op.width)) =
            (code.bytes.toList.drop (offset + 1)).drop op.width := by
          rw [List.drop_drop]
          congr 1
          omega
        rw [List.drop_eq_getElem_cons hlt, hbyte, Op.toByte_of_ofByte? hop, Instruction.length,
          hlength, hmore, Array.toList_extract, List.extract_eq_take_drop,
          Nat.add_sub_cancel_left, List.cons_append, List.take_append_drop]

end Code

namespace Instruction

variable {i : Instruction} {code : Code Value} {is : List Written}

/-- An instruction with an operand of the right width can be written. -/
theorem writing_fits (hlength : i.operands.length = i.op.width) (line : Nat) :
    (i.writing line).Fits is := by
  obtain ⟨offset, op, operands⟩ := i
  have hle := op.width_le_two
  match operands, hlength with
  | [], hlength => exact hlength.symm
  | [_], hlength => exact hlength.symm
  | [_, _], hlength => exact hlength.symm
  | _ :: _ :: _ :: _, hlength =>
    simp only [List.length_cons] at hlength
    omega

theorem word_toNat (high low : UInt8) :
    (UInt16.ofNat (256 * high.toNat + low.toNat)).toNat = 256 * high.toNat + low.toNat := by
  have hhigh := high.toNat_lt
  have hlow := low.toNat_lt
  exact UInt16.toNat_ofNat_of_lt' (by simp only [UInt16.size]; omega)

theorem writing_record (hlength : i.operands.length = i.op.width) (line : Nat) :
    (i.writing line).record is = Written.append is i.op i.operand? := by
  obtain ⟨offset, op, operands⟩ := i
  have hle := op.width_le_two
  match operands, hlength with
  | [], _ => rfl
  | [_], _ => rfl
  | [high, low], _ => simp only [writing, Writing.record, operand?, word_toNat]
  | _ :: _ :: _ :: _, hlength =>
    simp only [List.length_cons] at hlength
    omega

/-- Writing an instruction that was read adds the bytes that were read. -/
theorem bytes_writing (hlength : i.operands.length = i.op.width) (line : Nat) :
    ((i.writing line).after code).bytes.toList =
      code.bytes.toList ++ i.op.toByte :: i.operands := by
  obtain ⟨offset, op, operands⟩ := i
  have hle := op.width_le_two
  match operands, hlength with
  | [], _ => simp [writing, Writing.after, Writing.perform, Code.write, Code.writeByte]
  | [operand], _ => simp [writing, Writing.after, Writing.perform, Code.bytes_writeNarrow]
  | [high, low], _ =>
    have hlow := low.toNat_lt
    have hbytes : Code.highByte (256 * high.toNat + low.toNat) = high ∧
        Code.lowByte (256 * high.toNat + low.toNat) = low := by
      constructor
      · apply UInt8.toNat_inj.1
        have hhigh := high.toNat_lt
        rw [Code.highByte, UInt8.toNat_ofNat']
        omega
      · apply UInt8.toNat_inj.1
        rw [Code.lowByte, UInt8.toNat_ofNat']
        omega
    simp only [writing, Writing.after, Writing.perform, Code.bytes_writeWide, word_toNat, hbytes,
      Array.toList_append]
  | _ :: _ :: _ :: _, hlength =>
    simp only [List.length_cons] at hlength
    omega

end Instruction

namespace Code

variable {code code' : Code Value}

/-- What is read from an offset on, written behind what was read before, makes up all bytes. -/
theorem decodeFrom_rewritten {line bound offset : Nat} {done is : List Instruction}
    (hmakes : Writing.Makes (done.reverse.map (·.writing line))
      (done.reverse.map (·.written)) code')
    (hbytes : code'.bytes.toList ++ code.bytes.toList.drop offset = code.bytes.toList)
    (hsize : code'.size = offset) (hbound : code.size ≤ offset + bound)
    (hread : code.decodeFrom bound offset done = .ok is) :
    ∃ code'', Writing.Makes (is.map (·.writing line)) (is.map (·.written)) code'' ∧
      code''.bytes = code.bytes := by
  have hend : ∀ {c : Code Value}, c.bytes.toList ++ code.bytes.toList.drop c.size =
      code.bytes.toList → code.size ≤ c.size → c.bytes = code.bytes := by
    intro c happend hle
    rw [List.drop_eq_nil_of_le (by simpa [size] using hle), List.append_nil] at happend
    exact Array.ext' happend
  induction bound generalizing offset done code' with
  | zero =>
    obtain rfl : done.reverse = is := Except.ok.inj hread
    subst hsize
    exact ⟨code', hmakes, hend hbytes hbound⟩
  | succ bound ih =>
    rw [decodeFrom] at hread
    split at hread
    next hinside =>
      split at hread
      next i hdecode =>
        obtain ⟨rfl, hlength, hdrop⟩ := decodeAt_eq_ok hdecode
        have hnext : Writing.Makes ((i :: done).reverse.map (·.writing line))
            ((i :: done).reverse.map (·.written)) ((i.writing line).after code') := by
          have hextent := hmakes.encodes.holds.size_eq
          rw [Nat.zero_add, hsize] at hextent
          have hmore := hmakes.next (i.writing_fits hlength line)
          rw [i.writing_record hlength line, Written.append, ← hextent] at hmore
          rw [List.reverse_cons, List.map_append, List.map_append]
          exact hmore
        have hwritten : ((i.writing line).after code').bytes.toList =
            code'.bytes.toList ++ i.op.toByte :: i.operands := i.bytes_writing hlength line
        refine ih hnext ?_ ?_ ?_ hread
        · rw [hwritten, List.append_assoc, ← hdrop, hbytes]
        · have hcount := congrArg List.length hwritten
          rw [List.length_append, List.length_cons, Array.length_toList,
            Array.length_toList] at hcount
          unfold size at hsize ⊢
          rw [hcount, hsize, Instruction.length]
          omega
        · have hpos : 0 < i.length := by
            rw [Instruction.length]
            omega
          omega
      next => cases hread
    next houtside =>
      obtain rfl : done.reverse = is := Except.ok.inj hread
      subst hsize
      exact ⟨code', hmakes, hend hbytes (Nat.le_of_not_lt houtside)⟩

/-- Bytes that can be read are those that writing the instructions gives. -/
theorem instructions_rewritten {is : List Instruction} (hread : code.instructions = .ok is)
    (line : Nat) :
    ∃ code', Writing.Makes (is.map (·.writing line)) (is.map (·.written)) code' ∧
      code'.bytes = code.bytes := by
  have hnothing : Writing.Makes (([] : List Instruction).reverse.map (·.writing line))
      (([] : List Instruction).reverse.map (·.written)) {} := .nothing
  exact decodeFrom_rewritten hnothing rfl rfl (Nat.le_add_left _ _) hread

end Code

namespace Compile

/-- The code being written after an action of the compiler, whether it succeeds or not. -/
def codeAfter {α : Type} (x : Compile α) (s : CompileState) : Code Value :=
  match x s with
  | .ok _ s | .error _ s => s.code

/-- An operation as the compiler performs it on the code being written; what cannot be written is
reported for `line`. -/
def perform (line : Nat) : Writing → Compile Unit
  | .plain op line => emitOp op line
  | .narrow op operand line => write fun code => code.writeNarrow op operand line
  | .wide op operand line => write fun code => code.writeWide op operand line
  | .indexed op index line => emitIndexed op index line
  | .jump op line => discard (emitJump op line)
  | .patch start => patch start line
  | .constant value => discard (addConstant value line)
  | .symbol name => discard (addSymbol name line)

theorem codeAfter_report (problem : CompileProblem) (line : Nat) (s : CompileState) :
    codeAfter (report problem line) s = s.code := by
  unfold codeAfter report
  cases problem.isFatal <;> rfl

theorem codeAfter_discard {α : Type} (x : Compile α) (s : CompileState) :
    codeAfter (discard x) s = codeAfter x s := by
  have hmap : discard x = (x >>= fun _ => pure ()) := rfl
  unfold codeAfter
  cases hx : x s with
  | ok a s' => rw [hmap, bind_of_ok hx]; rfl
  | error e s' => rw [hmap, bind_of_error hx]

theorem codeAfter_addConstant (value : Value) (line : Nat) (s : CompileState) :
    codeAfter (addConstant value line) s = (Writing.constant value).after s.code := by
  simp only [codeAfter, addConstant, bind_get_run, Writing.after, Writing.perform, Code.addConstant]
  cases s.code.nextConstant <;> rfl

/-- The compiler does to the code being written what the operations do, also where they fail. -/
theorem codeAfter_perform (line : Nat) (w : Writing) (s : CompileState) :
    codeAfter (perform line w) s = w.after s.code := by
  cases w with
  | plain op line => rfl
  | narrow op operand line => rfl
  | wide op operand line => rfl
  | jump op line => rfl
  | indexed op index line =>
    simp only [perform, emitIndexed, Writing.after, Writing.perform, Code.writeIndexed]
    cases op.formFor index with
    | ok form => rfl
    | error e => exact codeAfter_report (.encoding e) line s
  | patch start =>
    simp only [perform, patch, codeAfter, bind_get_run, Writing.after, Writing.perform,
      Code.patchJump]
    cases s.code.jumpDistance start with
    | ok distance => rfl
    | error e => exact codeAfter_report (.encoding e) line s
  | constant value =>
    rw [perform, codeAfter_discard, codeAfter_addConstant]
  | symbol name =>
    rw [perform, codeAfter_discard]
    simp only [addSymbol, codeAfter, bind_get_run, Writing.after, Writing.perform, Code.addSymbol]
    cases s.code.symbolIndex? name with
    | some index => rfl
    | none => exact codeAfter_addConstant (.symbol name) line s

end Compile

/-- Reading gives back what has been written: every instruction in order, at its offset, with its
operand, in the narrow form exactly if its index fits in it, and every jump as it was aimed last.
There is a line for every byte, and an operation that fails leaves the code as it was. Writing what
is read from any bytes gives these bytes again. -/
theorem Code.reads_what_is_written {ws : List Writing} {is : List Written} {code : Code Value}
    (hmakes : Writing.Makes ws is code) :
    (∃ is', code.instructions = .ok is' ∧ is'.map Instruction.written = is) ∧
      code.lines.size = code.bytes.size ∧
      (∀ (s : CompileState) (line : Nat) (w : Writing) (e : EncodeError),
        w.perform s.code = .error e → Compile.codeAfter (Compile.perform line w) s = s.code) ∧
      ∀ (code' : Code Value) (is' : List Instruction), code'.instructions = .ok is' →
        ∀ line, ∃ code'', Writing.Makes (is'.map (·.writing line)) (is'.map (·.written)) code'' ∧
          code''.bytes = code'.bytes := by
  have hencodes := hmakes.encodes
  refine ⟨hencodes.instructions, hencodes.lined, ?_, ?_⟩
  · intro s line w e hfails
    rw [Compile.codeAfter_perform, Writing.after, hfails]
  · intro code' is' hread line
    exact Code.instructions_rewritten hread line

/-- A jump over a wide constant, aimed once what it jumps over has been written. -/
theorem Code.reads_what_is_written_jump :
    ∃ code, Writing.Makes
        [.jump .jump 1, .indexed .constant 300 2, .indexed .call 300 2, .plain .pop 2, .patch 0]
        [⟨0, .jump, some 7⟩, ⟨3, .constantWide, some 300⟩, ⟨6, .pop, none⟩] code ∧
      code.bytes = #[0x03, 0, 7, 0x11, 1, 44, 0x13] ∧
      ∃ is, code.instructions = .ok is ∧ is.map Instruction.written =
        [⟨0, .jump, some 7⟩, ⟨3, .constantWide, some 300⟩, ⟨6, .pop, none⟩] := by
  have hmakes := Writing.Makes.nothing
    |>.next (w := .jump .jump 1) rfl
    |>.next (w := .indexed .constant 300 2) rfl
    |>.next (w := .indexed .call 300 2) rfl
    |>.next (w := .plain .pop 2) rfl
    |>.next (w := .patch 0) ⟨⟨0, .jump, some 65535⟩, .head _, rfl, rfl⟩
  exact ⟨_, hmakes, by decide, (Code.reads_what_is_written hmakes).1⟩

end Resumable
