import Resumable.Proofs.Bytecode.Encoding
import Resumable.Proofs.Bytecode.Verifier
import Resumable.Proofs.Machine.Positions

/-!
Fetching agrees with decoding. A machine fetches what stands in the code where its frame on top goes
on, exactly if it can be decoded, and sound code is only ever executed where one of its instructions
starts.
-/

namespace Resumable

namespace Code

variable {code : Code Value}

/-- Reading the operand of an instruction from the code gives the number that its bytes make. -/
theorem operand_of_decodeAt {offset : Nat} {i : Instruction}
    (hdecode : code.decodeAt offset = .ok i) :
    (match i.op.width with
      | 0 => 0
      | 1 => (code.byteAt? (offset + 1)).getD 0
      | _ => (code.wordAt? (offset + 1)).getD 0) = i.argument := by
  obtain ⟨rfl, hlength, hbytes⟩ := decodeAt_eq_ok hdecode
  have hbyte : ∀ n b, (i.op.toByte :: i.operands)[n]? = some b →
      code.bytes[i.offset + n]? = some b := by
    intro n b hget
    rw [← Array.getElem?_toList, ← List.getElem?_drop, hbytes,
      List.getElem?_append_left (List.getElem?_eq_some_iff.1 hget).1]
    exact hget
  obtain ⟨offset, op, operands⟩ := i
  have hle := op.width_le_two
  match operands, hlength with
  | [], hlength => rw [← hlength]; rfl
  | [a], hlength =>
    rw [← hlength]
    simp [Instruction.argument, Instruction.operand?, byteAt?, hbyte 1 a rfl]
  | [a, b], hlength =>
    rw [← hlength]
    simp [Instruction.argument, Instruction.operand?, wordAt?, byteAt?, hbyte 1 a rfl,
      hbyte 2 b rfl]
  | _ :: _ :: _ :: _, hlength =>
    simp only [List.length_cons] at hlength
    omega

/-- All instructions that are read are those that stand at their offsets. -/
theorem mem_decodeFrom {bound offset : Nat} {done is : List Instruction} {i : Instruction}
    (hread : code.decodeFrom bound offset done = .ok is) (hmem : i ∈ is) :
    i ∈ done ∨ code.decodeAt i.offset = .ok i := by
  induction bound generalizing offset done with
  | zero =>
    cases hread
    exact Or.inl (List.mem_reverse.1 hmem)
  | succ bound ih =>
    rw [decodeFrom] at hread
    split at hread
    next =>
      cases hdecode : code.decodeAt offset with
      | error e => rw [hdecode] at hread; cases hread
      | ok j =>
        rw [hdecode] at hread
        obtain hdone | hthere := ih hread
        · obtain rfl | hdone := List.mem_cons.1 hdone
          · rw [(decodeAt_eq_ok hdecode).1]
            exact Or.inr hdecode
          · exact Or.inl hdone
        · exact Or.inr hthere
    next =>
      cases hread
      exact Or.inl (List.mem_reverse.1 hmem)

theorem decodeAt_of_mem_instructions {is : List Instruction} {i : Instruction}
    (hinstructions : code.instructions = .ok is) (hmem : i ∈ is) :
    code.decodeAt i.offset = .ok i := by
  obtain hnil | hdecode := mem_decodeFrom hinstructions hmem
  · cases hnil
  · exact hdecode

/-- An offset is that of one of the instructions that the code is made of. -/
def Lists (code : Code Value) (offset : Nat) : Prop :=
  ∃ is, code.instructions = .ok is ∧ ∃ i ∈ is, i.offset = offset

/-- What is typed is made of instructions that start at all offsets with kinds. -/
theorem WellTyped.lists {κ : Kind} {H : Typing} {last offset : Nat} {kinds : List Kind}
    (htyped : code.WellTyped κ H last) (hlast : offset ≤ last) (hkinds : H offset = some kinds) :
    code.Lists offset := by
  have hbody := htyped.typed
  obtain ⟨is, hdecode, _, hall⟩ :=
    htyped.decodeFrom code.size (Nat.le_add_left _ _) [] (Or.inr ⟨Nat.zero_le _, _, hbody.start⟩)
  exact ⟨is, hdecode, hall offset (Nat.zero_le _) hlast
    (hbody.starts offset kinds (Nat.zero_le _) hlast hkinds)⟩

end Code

/-- The thread whose frame on top goes on at another offset. -/
def Thread.at (t : Thread) (ip : Nat) : Thread :=
  { t with frames := t.frames.modify (t.frames.size - 1) fun f => { f with ip } }

namespace Exec

variable {m : Machine} {f : Frame Value}

/-- An instruction that can be decoded is fetched. -/
theorem fetch_of_decodeAt {i : Instruction} (hframe : m.thread.frames.back? = some f)
    (hdecode : f.code.decodeAt f.ip = .ok i) :
    fetch m = .ok ⟨i.op, i.argument, f.ip, f.code.lineAt f.ip⟩
      { m with thread := m.thread.at (f.ip + i.length) } := by
  have htop : topFrame m = .ok f m := by
    simp [topFrame, bind_get_run, hframe]
  have hoperand := Code.operand_of_decodeAt hdecode
  obtain ⟨_, hlength, _⟩ := Code.decodeAt_eq_ok hdecode
  rw [fetch, bind_of_ok htop]
  unfold Code.decodeAt at hdecode
  cases hbyte : f.code.bytes[f.ip]? with
  | none => simp [hbyte] at hdecode
  | some byte =>
    cases hop : Op.ofByte? byte with
    | none => simp [hbyte, hop] at hdecode
    | some op =>
      by_cases hend : f.code.bytes.size < f.ip + 1 + op.width
      · simp [hbyte, hop, hend] at hdecode
      · simp only [hbyte, hop, if_neg hend] at hdecode
        have hsame : i.op = op := by cases hdecode; rfl
        rw [hsame] at hoperand hlength
        simp only [hop]
        rw [if_neg (by omega), Instruction.length, hlength, ← Nat.add_assoc, hsame]
        exact congrArg (fun n => EStateM.Result.ok (Fetched.mk op n f.ip (f.code.lineAt f.ip)) _)
          hoperand

/-- Where no instruction can be decoded, none is fetched, and nothing changes. -/
theorem fetch_of_not_decodeAt {e : DecodeError} (hframe : m.thread.frames.back? = some f)
    (hdecode : f.code.decodeAt f.ip = .error e) :
    ∃ detail, fetch m = .error (.error (.invalidBytecode detail)) m := by
  have htop : topFrame m = .ok f m := by
    simp [topFrame, bind_get_run, hframe]
  rw [fetch, bind_of_ok htop]
  unfold Code.decodeAt at hdecode
  cases hbyte : f.code.bytes[f.ip]? with
  | none => exact ⟨_, rfl⟩
  | some byte =>
    cases hop : Op.ofByte? byte with
    | none =>
      simp only [hop]
      exact ⟨_, rfl⟩
    | some op =>
      by_cases hend : f.code.bytes.size < f.ip + 1 + op.width
      · have hinside := (Array.getElem?_eq_some_iff.1 hbyte).1
        simp only [hop]
        rw [if_pos (by omega)]
        exact ⟨_, rfl⟩
      · simp [hbyte, hop, hend] at hdecode

end Exec

/-- An activation of sound code goes on at an instruction of its code. -/
theorem Activation.Shape.lists {κ : Kind} {awaited : List Kind} {a : Activation}
    (hshape : a.Shape κ awaited) : a.code.Lists a.ip := by
  obtain ⟨H, last, kinds, htyped, hlast, hip, _⟩ := hshape.typed
  exact htyped.lists hlast hip

/-- A frame that goes on at an instruction of its code. -/
def Frame.OnTrack (f : Frame Value) : Prop :=
  f.code.Lists f.ip

theorem onTrack_framesFrom {acts : List Activation} (hacts : ∀ a ∈ acts, a.code.Lists a.ip)
    (height : Nat) : ∀ f ∈ framesFrom height acts, f.OnTrack := by
  intro f hf
  obtain ⟨i, hget⟩ := List.getElem?_of_mem hf
  obtain ⟨below, b, above, rfl, _, rfl⟩ := framesFrom_locate hget
  exact hacts b (by simp)

variable {κ : Kind}

theorem Suspended.lists {acts : List Activation} {levels : List Level}
    (hacts : Suspended κ acts levels) : ∀ a ∈ acts, a.code.Lists a.ip :=
  fun a ha => (hacts.sound.1 a ha).shape.lists

theorem Underway.lists {phase : Phase} {above : List Activation} {extra : List Value}
    (hunderway : Underway κ phase above extra) : ∀ a ∈ above, a.code.Lists a.ip := by
  cases hunderway with
  | made => nofun
  | given => nofun
  | entered _ hpre ha =>
    intro b hb
    obtain hb | hb := List.mem_append.1 hb
    · exact (hpre b hb).shape.lists
    · rw [List.mem_singleton.1 hb]
      exact ha.shape.lists

/-- A thread that shows activations at instructions of their code has such frames only. -/
theorem Thread.onTrack_of_shows {t : Thread} {acts : List Activation} {extra : List Value}
    (hshows : t = t.showing acts extra) (hacts : ∀ a ∈ acts, a.code.Lists a.ip) :
    ∀ f ∈ t.frames, f.OnTrack := by
  intro f hf
  rw [hshows, Thread.showing_frames, List.mem_toArray] at hf
  exact onTrack_framesFrom hacts 0 f hf

theorem Value.Sound.continuation_onTrack {id : Nat} {k : Continuation Value}
    (hsound : (continuation id k).Sound κ) : ∀ f ∈ k.frames, f.OnTrack := by
  obtain ⟨b, above, rfl, _, hacts⟩ := hsound.shape
  intro f hf
  rw [Continuation.ofActs, List.mem_toArray] at hf
  exact onTrack_framesFrom (fun a ha => (hacts a ha).lists) 0 f hf

namespace Machine

/-- A frame of a thread, or of a suspended computation that is held, to any depth. -/
def HasFrame (m : Machine) (f : Frame Value) : Prop :=
  (∃ t ∈ m.threads, f ∈ t.frames) ∨
    ∃ root id k, m.Holds root ∧ Value.Within (.continuation id k) root ∧ f ∈ k.frames

/-- All frames of a sound machine go on at instructions of their code. -/
theorem Sound.onTrack {m : Machine} {f : Frame Value} (hm : m.Sound κ) (hf : m.HasFrame f) :
    f.OnTrack := by
  obtain ⟨t, ht, hf⟩ | ⟨root, id, k, hholds, hwithin, hf⟩ := hf
  · obtain rfl | ht := List.mem_cons.1 ht
    · obtain ⟨_, hbelow, _, _, hunderway, hshows⟩ := hm.thread
      refine Thread.onTrack_of_shows hshows ?_ f hf
      intro a ha
      obtain ha | ha := List.mem_append.1 ha
      · exact hbelow.lists a ha
      · exact hunderway.lists a ha
    · obtain ⟨w, hw, rfl⟩ := List.mem_map.1 ht
      obtain ⟨_, hacts, hshows⟩ := hm.waiting w hw
      exact Thread.onTrack_of_shows hshows hacts.lists f hf
  · exact ((hm.holds hholds).within hwithin).continuation_onTrack f hf

end Machine

end Resumable
