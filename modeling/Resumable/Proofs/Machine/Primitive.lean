import Resumable.Proofs.Action
import Resumable.Proofs.Bytecode.Placement
import Resumable.Proofs.Machine.Activation

/-!
What the basic actions of a machine do to a thread that shows activations.
-/

namespace Resumable

theorem modify_concat {α : Type} (as : List α) (a : α) (f : α → α) :
    (as ++ [a]).modify as.length f = as ++ [f a] := by
  induction as with
  | nil => rfl
  | cons b as ih => simp [ih]

namespace Exec

variable (m : Machine) (acts pre : List Activation) (a : Activation) (extra : List Value)

@[simp]
theorem modifyThread_run (f : Thread → Thread) :
    modifyThread f m = .ok () { m with thread := f m.thread } :=
  rfl

@[simp]
theorem push_showing (v : Value) :
    push v (m.showing acts extra) = .ok () (m.showing acts (extra ++ [v])) := by
  simp [push, Machine.showing, Thread.showing]

@[simp]
theorem pop_showing (v : Value) :
    pop (m.showing acts (extra ++ [v])) = .ok v (m.showing acts extra) := by
  simp only [pop, bind_get_run, Machine.showing_thread, Thread.showing_stack, List.back?_toArray,
    ← List.append_assoc, List.getLast?_concat]
  rw [bind_of_ok (modifyThread_run _ _), pure_run]
  simp [Machine.showing, Thread.showing]

theorem popMany_showing {vs : List Value} {n : Nat} (hlength : vs.length = n) :
    popMany n (m.showing acts (extra ++ vs)) = .ok vs (m.showing acts extra) := by
  have hsize : (m.showing acts (extra ++ vs)).thread.stack.size =
      (stackOf acts ++ extra).length + n := by
    simp [hlength]
    omega
  simp only [popMany, bind_get_run, hsize]
  rw [if_neg (by omega), bind_get_run, bind_of_ok (modifyThread_run _ _), pure_run]
  have hvalues : ((stackOf acts ++ (extra ++ vs)).toArray.extract
      ((stackOf acts ++ extra).length + n - n) ((stackOf acts ++ extra).length + n)).toList = vs := by
    rw [Nat.add_sub_cancel, ← List.append_assoc, ← hlength]
    generalize stackOf acts ++ extra = below
    simp
  have hrest : (stackOf acts ++ (extra ++ vs)).toArray.shrink
      ((stackOf acts ++ extra).length + n - n) = (stackOf acts ++ extra).toArray := by
    rw [Nat.add_sub_cancel, ← List.append_assoc]
    generalize stackOf acts ++ extra = below
    simp
  simp only [Machine.showing, Thread.showing, hvalues, hrest]

@[simp]
theorem topFrame_showing :
    topFrame (m.showing (pre ++ [a]) extra) =
      .ok (a.frame (heightOf pre)) (m.showing (pre ++ [a]) extra) := by
  simp [topFrame, bind_get_run]

/-- A change of the frame on top that is a change of its activation. -/
theorem modifyFrame_showing {f : Frame Value → Frame Value} {a' : Activation}
    (hframe : f (a.frame (heightOf pre)) = a'.frame (heightOf pre))
    (hhandler : a'.handler = a.handler) (hoperands : a'.operands = a.operands) :
    modifyFrame f (m.showing (pre ++ [a]) extra) = .ok () (m.showing (pre ++ [a']) extra) := by
  have hsegment : a'.segment = a.segment := by
    simp [Activation.segment, Activation.mark, hhandler, hoperands]
  have hinstalled : ∀ depth height, a'.installed depth height = a.installed depth height := by
    simp [Activation.installed, hhandler]
  simp only [modifyFrame, modifyThread_run, Machine.showing, Thread.showing, stackOf_append,
    stackOf_cons, stackOf_nil, handlersFrom_append, handlersFrom_cons, handlersFrom_nil, hsegment,
    hinstalled]
  have hmodify := modify_concat (framesFrom 0 pre) (a.frame (heightOf pre)) f
  rw [length_framesFrom, hframe] at hmodify
  simp only [framesFrom_append, framesFrom_cons, framesFrom_nil, Nat.zero_add, List.size_toArray,
    List.length_append, length_framesFrom, List.length_singleton, Nat.add_sub_cancel,
    List.modify_toArray, hmodify]

/-- The number of frames below the innermost call of a thread. -/
def baseOf (levels : List Level) : Nat :=
  match levels with
  | level :: _ => level.depth
  | [] => 0

@[simp]
theorem baseDepth_run : baseDepth m = .ok (baseOf m.thread.levels) m := by
  simp only [baseDepth, bind_get_run, baseOf]
  cases m.thread.levels <;> rfl

@[simp]
theorem draw_run :
    draw m = .ok m.world.draw.1 { m with world := m.world.draw.2 } :=
  rfl

/-- Acting on the shared state leaves the thread alone. -/
theorem act_run {α : Type} (action : Act α) :
    act action m = match action m.world with
      | .ok x world => .ok x { m with world }
      | .error e world => .error (.error e) { m with world } :=
  rfl

theorem jumpTo_showing (offset : Nat) :
    jumpTo offset (m.showing (pre ++ [a]) extra) =
      .ok () (m.showing (pre ++ [{ a with ip := offset }]) extra) :=
  modifyFrame_showing m pre a extra rfl rfl rfl

theorem fetch_showing {op : Op} {operand line : Nat} (hat : a.code.At a.ip op operand line) :
    fetch (m.showing (pre ++ [a]) extra) =
      .ok { op, operand, start := a.ip, line }
        (m.showing (pre ++ [{ a with ip := a.ip + 1 + op.width }]) extra) := by
  have hend := hat.end_le_size
  unfold Code.size at hend
  obtain ⟨f, hf⟩ : ∃ f, f = a.frame (heightOf pre) := ⟨_, rfl⟩
  have hcode : f.code = a.code := by rw [hf]; rfl
  have hip : f.ip = a.ip := by rw [hf]; rfl
  have hbyte : f.code.bytes[f.ip]? = some op.toByte := by rw [hcode, hip]; exact hat.opcode
  have hline : f.code.lineAt f.ip = line := by simp [hcode, hip, Code.lineAt, hat.line]
  rw [fetch, bind_of_ok (topFrame_showing m pre a extra), ← hf]
  simp only [hbyte, Op.ofByte?_toByte]
  rw [if_neg (by rw [hcode, hip]; omega), hip]
  have hmove := jumpTo_showing m pre a extra (a.ip + 1 + op.width)
  unfold jumpTo at hmove
  rw [bind_of_ok hmove, pure_run, ← hip, hline]
  refine congrArg (fun n => EStateM.Result.ok (Fetched.mk op n f.ip line) _) ?_
  have hoperand := hat.operand
  have hle := op.width_le_two
  obtain hwidth | hwidth | hwidth : op.width = 0 ∨ op.width = 1 ∨ op.width = 2 := by omega
  all_goals
    rw [Code.operandAt?, hwidth] at hoperand
    rw [hwidth, hcode, hip]
  · exact Option.some.inj hoperand
  · exact congrArg (Option.getD · 0) hoperand
  · exact congrArg (Option.getD · 0) hoperand

variable {m pre a extra} in
/-- What has been fetched is the instruction at which the last activation is. -/
theorem fetched_inv {op : Op} {operand line : Nat} {i : Fetched} {s : Machine}
    (hfetch : fetch (m.showing (pre ++ [a]) extra) = .ok i s) (hat : a.code.At a.ip op operand line) :
    i = { op, operand, start := a.ip, line } ∧
      s = m.showing (pre ++ [{ a with ip := a.ip + 1 + op.width }]) extra := by
  rw [fetch_showing m pre a extra hat] at hfetch
  cases hfetch
  exact ⟨rfl, rfl⟩

theorem constant_showing {index : Nat} {v : Value} (hconstant : a.code.constants[index]? = some v) :
    constant index (m.showing (pre ++ [a]) extra) = .ok v (m.showing (pre ++ [a]) extra) := by
  simp [constant, bind_get_run, Activation.frame, hconstant]

theorem symbolConstant_showing {index : Nat} {s : Symbol}
    (hconstant : a.code.constants[index]? = some (.symbol s)) :
    symbolConstant index (m.showing (pre ++ [a]) extra) =
      .ok s (m.showing (pre ++ [a]) extra) := by
  rw [symbolConstant, bind_of_ok (constant_showing m pre a extra hconstant)]
  rfl

end Exec

end Resumable
