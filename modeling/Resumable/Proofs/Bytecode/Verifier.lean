import Resumable.Proofs.Bytecode.Typing

/-!
What a verifier of code objects checks: the heights of the operand stack, the targets of jumps, and
that operands refer to what their operations need. Sound code passes.
-/

namespace Resumable

namespace Op

/-- The number of operands that an operation takes from the stack. -/
def takes (op : Op) (operand : Nat) : Nat :=
  match op.narrow with
  | ret | pop | jumpIfFalse | storeLocal | storeCaptured | storeGlobal | getField => 1
  | call | tailCall => operand + 1
  | buildList | buildTuple => operand
  | buildRecord | makeHandler => 2 * operand
  | handle => 2
  | _ => 0

/-- The number of operands that an operation leaves on the stack. -/
def leaves (op : Op) : Nat :=
  match op.narrow with
  | ret | pop | jump | jumpIfFalse | storeLocal | storeCaptured | storeGlobal => 0
  | _ => 1

/-- Whether the instruction that stands behind may be the next. -/
def goesOn : Op → Bool
  | ret | jump => false
  | _ => true

/-- Whether the operand is the slot of a local. -/
def takesSlot (op : Op) : Bool :=
  op.narrow = loadLocal ∨ op.narrow = storeLocal

/-- Whether the operand is the index of a symbol that must be captured. -/
def takesCaptured (op : Op) : Bool :=
  op.narrow = loadCaptured ∨ op.narrow = storeCaptured

/-- Whether the operand is the index of a symbol. -/
def takesSymbol (op : Op) : Bool :=
  op.takesCaptured ∨ op.narrow = loadGlobal ∨ op.narrow = storeGlobal ∨ op.narrow = getField

/-- Whether the operand is the index of code. -/
def takesCode (op : Op) : Bool :=
  op.narrow = lambda

theorem takesConstant_narrow (op : Op) : op.takesConstant = op.narrow.takesConstant := by
  cases op <;> rfl

theorem isJump_narrow (op : Op) : op.isJump = op.narrow.isJump := by
  cases op <;> rfl

end Op

/-- The operand of an instruction, zero if it has none. -/
def Instruction.argument (i : Instruction) : Nat :=
  i.operand?.getD 0

namespace Code

/-- One code object is among the constants of another, or among those of such a code object, and so
on. -/
inductive Nests (code : Code Value) : Code Value → Prop
  | self : Nests code code
  | inner {f g : Code Value} {id : Nat} (hf : Nests code f) (hg : Value.code id g ∈ f.constants) :
    Nests code g

/-- The operand of an instruction refers to what the operation needs. -/
structure Fits (code : Code Value) (op : Op) (operand : Nat) : Prop where
  constants : op.takesConstant = true → operand < code.constants.size
  symbols : op.takesSymbol = true → ∃ s, code.constants[operand]? = some (.symbol s)
  codes : op.takesCode = true → ∃ id f, code.constants[operand]? = some (.code id f)
  locals : op.takesSlot = true → operand < code.localCount
  captured : op.takesCaptured = true →
    ∃ s, code.constants[operand]? = some (.symbol s) ∧ code.Captures s

/-- An instruction finds the operands that it takes, and the heights fit wherever it leads. -/
structure Accepts (code : Code Value) (is : List Instruction) (height : Nat → Nat)
    (i : Instruction) : Prop where
  fits : code.Fits i.op i.argument
  enough : i.op.takes i.argument ≤ height i.offset
  next : i.op.goesOn = true → ∃ j ∈ is, j.offset = i.offset + i.length ∧
    height j.offset + i.op.takes i.argument = height i.offset + i.op.leaves
  jumps : i.op.isJump = true → ∃ j ∈ is, j.offset = i.offset + i.argument ∧ i.offset < j.offset ∧
    height j.offset + i.op.takes i.argument = height i.offset + i.op.leaves
  returns : i.op = .ret → height i.offset = 1

/-- The code decodes to the given instructions, the operand stack has a definite height before each
of them, none at the start, and every instruction is accepted. There is room for the parameters and
for the function itself, and every function among the constants finds what it captures. -/
structure Verified (code : Code Value) (is : List Instruction) (height : Nat → Nat) : Prop where
  decodes : code.instructions = .ok is
  lined : code.lines.size = code.bytes.size
  entry : ∃ i ∈ is, i.offset = 0 ∧ height i.offset = 0
  accepts : ∀ i ∈ is, code.Accepts is height i
  room : code.params.length + code.selfName.toList.length ≤ code.localCount
  supplied : ∀ id f, Value.code id f ∈ code.constants → ∀ c ∈ f.captures, code.CanSupply c

variable {κ : Kind} {code : Code Value}

theorem lt_size_of_constant {i : Nat} {v : Value} (hconstant : code.constants[i]? = some v) :
    i < code.constants.size := by
  by_contra hnot
  rw [Array.getElem?_eq_none (by omega)] at hconstant
  cases hconstant

theorem Straight.fits {op : Op} {operand : Nat} {takes leaves : List Kind}
    (hstraight : code.Straight κ op.narrow operand takes leaves) : code.Fits op operand := by
  have hconstants := Op.takesConstant_narrow op
  generalize hnarrow : op.narrow = narrow at hstraight hconstants
  cases hstraight with
  | literal hconstant | key hconstant | loadGlobal hconstant | storeGlobal hconstant
  | getField hconstant | lambda hconstant | loadCaptured hconstant _ | storeCaptured hconstant _ =>
    have hlt := lt_size_of_constant hconstant
    constructor <;> simp_all [Op.takesSymbol, Op.takesCaptured, Op.takesCode, Op.takesSlot]
  | _ =>
    constructor <;>
      simp_all [Op.takesConstant, Op.takesSymbol, Op.takesCaptured, Op.takesCode, Op.takesSlot]

theorem Straight.heights {op : Op} {operand : Nat} {takes leaves : List Kind}
    (hstraight : code.Straight κ op.narrow operand takes leaves) :
    takes.length = op.takes operand ∧ leaves.length = op.leaves ∧ op.isJump = false ∧
      op ≠ .ret := by
  have hjump := Op.isJump_narrow op
  have hret : op = .ret → op.narrow = .ret := by rintro rfl; rfl
  generalize hnarrow : op.narrow = narrow at hstraight hjump hret
  cases hstraight <;>
    simp_all [Op.takes, Op.leaves, Op.isJump, Nat.mul_comm]

/-- The bytes at an offset are those of one instruction only. -/
theorem At.unique {offset operand operand' line line' : Nat} {op op' : Op}
    (h : code.At offset op operand line) (h' : code.At offset op' operand' line') :
    op' = op ∧ operand' = operand := by
  have hop : op' = op := by
    have hbyte := h.opcode.symm.trans h'.opcode
    have hsame := congrArg (fun b => b.bind Op.ofByte?) hbyte
    simpa using hsame.symm
  subst hop
  have hoperand := h.operand.symm.trans h'.operand
  exact ⟨rfl, (Option.some.inj hoperand).symm⟩

theorem Starts.le {a c : Nat} (hstarts : code.Starts a c) : a ≤ c := by
  induction hstarts with
  | first => exact Nat.le_refl _
  | next _ _ ih => omega

/-- The first of the instructions that are read from an offset on. -/
theorem Starts.head {a c operand line : Nat} {op : Op} (hat : code.At a op operand line)
    (hstarts : code.Starts a c) : c = a ∨ code.Starts (a + 1 + op.width) c := by
  induction hstarts with
  | first => exact Or.inl rfl
  | next hbefore hat' ih =>
    obtain rfl | ih := ih
    · obtain ⟨rfl, _⟩ := hat.unique hat'
      exact Or.inr .first
    · exact Or.inr (.next ih hat')

/-- What stands at an offset of a typing that covers the whole code. -/
theorem WellTyped.instruction {H : Typing} {last offset : Nat} {kinds : List Kind}
    (htyped : code.WellTyped κ H last) (hlast : offset ≤ last) (hkinds : H offset = some kinds) :
    ∃ op operand line, code.At offset op operand line ∧
      (offset = last ∧ op = .ret ∧ kinds = [.value] ∨
        offset < last ∧ code.Checked κ H last offset kinds ∧
          ∃ kinds', H (offset + 1 + op.width) = some kinds' ∧ offset + 1 + op.width ≤ last) := by
  obtain rfl | hlt := Nat.eq_or_lt_of_le hlast
  · obtain ⟨line, hret⟩ := htyped.ret
    refine ⟨.ret, 0, line, hret, Or.inl ⟨rfl, rfl, ?_⟩⟩
    exact Option.some.inj (hkinds.symm.trans htyped.typed.stop)
  · have hchecked := htyped.typed.checked offset kinds (Nat.zero_le _) hlt hkinds
    cases id hchecked with
    | straight hat _ _ hnext hend => exact ⟨_, _, _, hat, Or.inr ⟨hlt, hchecked, _, hnext, hend⟩⟩
    | jump hat _ _ _ hnext hend => exact ⟨_, _, _, hat, Or.inr ⟨hlt, hchecked, _, hnext, hend⟩⟩
    | branch hat _ _ _ hnext hend => exact ⟨_, _, _, hat, Or.inr ⟨hlt, hchecked, _, hnext, hend⟩⟩

/-- An instruction that is read at a typed offset. -/
def ReadAt (code : Code Value) (H : Typing) (last : Nat) (i : Instruction) : Prop :=
  i.offset ≤ last ∧ (∃ kinds, H i.offset = some kinds) ∧
    ∀ op operand line, code.At i.offset op operand line →
      i.op = op ∧ i.argument = operand ∧ i.length = 1 + op.width

theorem At.readAt {H : Typing} {last offset operand line : Nat} {op : Op} {kinds : List Kind}
    (hat : code.At offset op operand line) (hlast : offset ≤ last) (hkinds : H offset = some kinds) :
    ∃ i, code.decodeAt offset = .ok i ∧ i.offset = offset ∧ i.length = 1 + op.width ∧
      code.ReadAt H last i := by
  obtain ⟨operands, hdecode, hlength, hoperand⟩ := hat.decodeAt_eq
  refine ⟨_, hdecode, rfl, by simp [Instruction.length, hlength], hlast, ⟨kinds, hkinds⟩, ?_⟩
  intro op' operand' line' hat'
  obtain ⟨rfl, rfl⟩ := hat.unique hat'
  exact ⟨rfl, hoperand, by simp [Instruction.length, hlength]⟩

/-- Reading from a typed offset on gives an instruction at every offset where one starts. -/
theorem WellTyped.decodeFrom {H : Typing} {last : Nat} (htyped : code.WellTyped κ H last)
    (bound : Nat) {offset : Nat} (hbound : code.size ≤ offset + bound) (done : List Instruction)
    (hoffset : offset = code.size ∨ offset ≤ last ∧ ∃ kinds, H offset = some kinds) :
    ∃ is, code.decodeFrom bound offset done = .ok (done.reverse ++ is) ∧
      (∀ i ∈ is, code.ReadAt H last i) ∧
      ∀ o, offset ≤ last → o ≤ last → code.Starts offset o → ∃ i ∈ is, i.offset = o := by
  have hsize := htyped.size_eq
  induction bound generalizing offset done with
  | zero =>
    refine ⟨[], by simp [Code.decodeFrom], nofun, ?_⟩
    intro o hle
    omega
  | succ bound ih =>
    obtain hend | ⟨hlast, kinds, hkinds⟩ := hoffset
    · refine ⟨[], ?_, nofun, ?_⟩
      · rw [Code.decodeFrom, if_neg (by unfold size at hend; omega)]
        simp
      · intro o hle
        omega
    · obtain ⟨op, operand, line, hat, hnext⟩ := htyped.instruction hlast hkinds
      obtain ⟨i, hdecode, hi, hlength, hread⟩ := hat.readAt hlast hkinds
      have hgo : offset + i.length = code.size ∨
          offset + i.length ≤ last ∧ ∃ kinds, H (offset + i.length) = some kinds := by
        rw [hlength, ← Nat.add_assoc]
        obtain ⟨rfl, rfl, _⟩ | ⟨_, _, kinds', hkinds', hle⟩ := hnext
        · exact Or.inl hsize.symm
        · exact Or.inr ⟨hle, kinds', hkinds'⟩
      obtain ⟨is, hrest, hreads, hall⟩ := ih (by omega) (i :: done) hgo
      refine ⟨i :: is, ?_, ?_, ?_⟩
      · rw [Code.decodeFrom, if_pos (by unfold size at hsize; omega), hdecode]
        simp only [hrest]
        simp
      · intro j hmem
        obtain rfl | hmem := List.mem_cons.1 hmem
        · exact hread
        · exact hreads j hmem
      · intro o _ ho hstarts
        obtain rfl | hstarts := hstarts.head hat
        · exact ⟨i, by simp, hi⟩
        · have hlt : offset + 1 + op.width ≤ last := by
            have hbehind := hstarts.le
            obtain ⟨rfl, _, _⟩ | ⟨_, _, _, _, hle⟩ := hnext
            · omega
            · exact hle
          rw [hlength, ← Nat.add_assoc] at hall
          obtain ⟨j, hmem, hj⟩ := hall o hlt ho hstarts
          exact ⟨j, by simp [hmem], hj⟩

/-- Jumps and returns refer to nothing. -/
theorem fits_of_not_refers {op : Op} {operand : Nat}
    (hop : op = .ret ∨ op = .jump ∨ op = .jumpIfFalse) : code.Fits op operand := by
  obtain rfl | rfl | rfl := hop
  · exact ⟨nofun, nofun, nofun, nofun, nofun⟩
  · exact ⟨nofun, nofun, nofun, nofun, nofun⟩
  · exact ⟨nofun, nofun, nofun, nofun, nofun⟩

/-- The heights that a typing gives, and the instructions that stand at its offsets. -/
structure Heights (H : Typing) (last : Nat) (is : List Instruction) (height : Nat → Nat) :
    Prop where
  eq : ∀ o kinds, H o = some kinds → height o = kinds.length
  there : ∀ o kinds, o ≤ last → H o = some kinds → ∃ i ∈ is, i.offset = o

theorem Heights.target {H : Typing} {last o : Nat} {is : List Instruction} {height : Nat → Nat}
    {kinds : List Kind} (hheights : Heights H last is height) (hle : o ≤ last)
    (hkinds : H o = some kinds) : ∃ j ∈ is, j.offset = o ∧ height j.offset = kinds.length := by
  obtain ⟨j, hmem, rfl⟩ := hheights.there o kinds hle hkinds
  exact ⟨j, hmem, rfl, hheights.eq _ _ hkinds⟩

theorem Checked.accepts {H : Typing} {last : Nat} {is : List Instruction} {height : Nat → Nat}
    {i : Instruction} {kinds : List Kind} (hheights : Heights H last is height)
    (hchecked : code.Checked κ H last i.offset kinds) (hread : code.ReadAt H last i)
    (hhere : height i.offset = kinds.length) : code.Accepts is height i := by
  obtain ⟨_, _, hread⟩ := hread
  cases hchecked with
  | straight hat hstraight _ hnext hlast =>
    obtain ⟨rfl, rfl, hlength⟩ := hread _ _ _ hat
    obtain ⟨htakes, hleaves, hjump, hret⟩ := hstraight.heights
    rw [List.length_append, htakes] at hhere
    refine ⟨hstraight.fits, by omega, ?_, by simp [hjump], by simp [hret]⟩
    intro _
    obtain ⟨j, hmem, hj, hheight⟩ := hheights.target hlast hnext
    rw [List.length_append, hleaves] at hheight
    exact ⟨j, hmem, by omega, by omega⟩
  | jump hat hpos htarget hreach hnext hlast =>
    obtain ⟨hop, rfl, hlength⟩ := hread _ _ _ hat
    obtain ⟨j, hmem, hj, hheight⟩ := hheights.target hreach htarget
    refine ⟨fits_of_not_refers (by simp [hop]), ?_, ?_, ?_, ?_⟩ <;> rw [hop]
    · exact Nat.zero_le _
    · nofun
    · intro _
      exact ⟨j, hmem, hj, by omega, by rw [hhere, hheight]; rfl⟩
    · nofun
  | branch hat hpos htarget hreach hnext hlast =>
    obtain ⟨hop, rfl, hlength⟩ := hread _ _ _ hat
    obtain ⟨j, hmem, hj, hheight⟩ := hheights.target hreach htarget
    obtain ⟨j', hmem', hj', hheight'⟩ := hheights.target hlast hnext
    rw [List.length_append, List.length_singleton] at hhere
    refine ⟨fits_of_not_refers (by simp [hop]), ?_, ?_, ?_, ?_⟩ <;> rw [hop]
    · rw [hhere]
      exact Nat.le_add_left _ _
    · intro _
      exact ⟨j', hmem', by rw [hj', hlength]; rfl, by rw [hhere, hheight']; rfl⟩
    · intro _
      exact ⟨j, hmem, hj, by omega, by rw [hhere, hheight]; rfl⟩
    · nofun

/-- Sound code passes the verifier: the heights are the numbers of operands of its typing. -/
theorem Sound.verified (hsound : code.Sound κ) : ∃ is height, code.Verified is height := by
  cases hsound with
  | @intro _ H last htyped hsupplied _ =>
    have hbody := htyped.typed
    obtain ⟨is, hdecode, hreads, hall⟩ :=
      htyped.decodeFrom code.size (Nat.le_add_left _ _) [] (Or.inr ⟨Nat.zero_le _, _, hbody.start⟩)
    obtain ⟨height, hheights⟩ : ∃ height, Heights H last is height := by
      refine ⟨fun o => ((H o).map List.length).getD 0, fun o kinds hkinds => by simp [hkinds], ?_⟩
      intro o kinds hle hkinds
      exact hall o (Nat.zero_le _) hle (hbody.starts o kinds (Nat.zero_le _) hle hkinds)
    refine ⟨is, height, hdecode, htyped.lined, hheights.target (Nat.zero_le _) hbody.start, ?_,
      htyped.room, hsupplied⟩
    intro i hmem
    have hread := hreads i hmem
    obtain ⟨hle, ⟨kinds, hkinds⟩, hsame⟩ := hread
    have hhere := hheights.eq _ _ hkinds
    obtain ⟨op, operand, line, hat, hend | ⟨_, hchecked, _⟩⟩ := htyped.instruction hle hkinds
    · obtain ⟨hop, _, _⟩ := hsame op operand line hat
      obtain ⟨_, rfl, rfl⟩ := hend
      refine ⟨fits_of_not_refers (by simp [hop]), ?_, ?_, ?_, ?_⟩ <;> rw [hop]
      · exact Nat.le_of_eq hhere.symm
      · nofun
      · nofun
      · exact fun _ => hhere
    · exact hchecked.accepts hheights (hreads i hmem) hhere

/-- Every code object in sound code is sound. -/
theorem Sound.nests (hsound : code.Sound κ) {f : Code Value} (hnests : code.Nests f) :
    f.Sound κ := by
  induction hnests with
  | self => exact hsound
  | inner _ hg ih =>
    cases ih with
    | intro _ _ hnested => exact hnested _ _ hg

end Code

end Resumable
