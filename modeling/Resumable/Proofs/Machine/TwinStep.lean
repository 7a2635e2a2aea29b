import Resumable.Proofs.Machine.TwinCall
import Resumable.Proofs.Machine.TwinLocal

/-!
Every instruction does the same in two threads whose uppermost activations are twins.
-/

namespace Resumable

variable {κ : Kind} {ρ : Pairing} {ids : Nat → Nat → Prop} {R : Value → Value → Prop}
  {pairs : List (Value × Value)}

namespace Exec.Concur

variable {s s' m m' : Machine} {low low' pre pre' : List Activation} {a a' : Activation} {tells : Prop}

/-- The last activations go on with the values that an instruction leaves. -/
theorem goesOn {start : List Activation} {leaves : List Kind}
    (hm : Machine.Beside (twinning κ ρ) s s' m m')
    (hpre : List.Forall₂ (Activation.Twins κ ρ.ids (Value.Twins κ ρ) [.value]) pre pre')
    (ha : a.Twins κ ρ.ids (Value.Twins κ ρ) leaves a') (pairs : List (Value × Value))
    (hpairs : List.Forall₂ (κ.Joins ρ.ids (Value.Twins κ ρ)) leaves pairs) :
    Concur κ ρ s s' low low' start tells (none : Option Value)
      (.ok none (m.showing (low ++ pre ++ [a]) (pairs.map Prod.fst)))
      (.ok none (m'.showing (low' ++ pre' ++ [a']) (pairs.map Prod.snd))) := by
  rw [← List.append_nil (pairs.map Prod.fst), ← List.append_nil (pairs.map Prod.snd),
    ← Machine.showing_pushAll, ← Machine.showing_pushAll, List.append_assoc, List.append_assoc]
  exact .entered hm hpre (ha.pushAll pairs hpairs)

theorem fails {start : List Activation} (hm : Machine.Beside (twinning κ ρ) s s' m m')
    (e : RuntimeError) :
    Concur κ ρ s s' low low' start tells (none : Option Value)
      (.error (.error e) (m.showing (low ++ pre ++ [a]) []))
      (.error (.error e) (m'.showing (low' ++ pre' ++ [a']) [])) := by
  rw [List.append_assoc, List.append_assoc]
  exact failure hm _ _ e

/-- A handler is installed. -/
theorem install {start mid mid' : List Activation} {clauses clauses' : List (Effect × Value)}
    {body body' : Value} (hm : Machine.Beside (twinning κ ρ) s s' m m')
    (hmid : List.Forall₂ (Activation.Twins κ ρ.ids (Value.Twins κ ρ) [.value]) mid mid')
    (hclauses : ClausesTwin κ ρ.ids (Value.Twins κ ρ) clauses clauses')
    (hbody : body.Twins κ ρ body') :
    Concur κ ρ s s' low low' start tells ()
      (Exec.install clauses body (m.showing (low ++ mid) []))
      (Exec.install clauses' body' (m'.showing (low' ++ mid') [])) := by
  have hrefuse : Concur κ ρ s s' low low' start tells ()
      (.error (.error (.typeError
        ("handled body must be a zero-argument function, got " ++ body.typeName)))
        (m.showing (low ++ mid) []))
      (.error (.error (.typeError
        ("handled body must be a zero-argument function, got " ++ body'.typeName)))
        (m'.showing (low' ++ mid') [])) := by
    rw [Likeness.typeName_eq (L := twinning κ ρ) hbody]
    exact failure hm mid mid' _
  cases body with
  | closure id f env =>
    obtain ⟨id', env', rfl, _⟩ := hbody.closure_inv
    by_cases harity : f.arity = 0
    · obtain ⟨_, detail, n, herror, hworld, hretains⟩ | ⟨_, hok⟩ :=
        install_showing m (low ++ mid) clauses id f env harity <;>
      obtain ⟨_, detail', n', herror', hworld', hretains'⟩ | ⟨_, hok'⟩ :=
        install_showing m' (low' ++ mid') clauses' id' f env' harity
      · rw [herror, herror']
        refine refused ⟨?_, hretains.waiting.trans hm.waiting, hretains'.waiting.trans hm.waiting',
          hretains.levels.trans hm.levels, hretains'.levels.trans hm.levels'⟩ hretains.extends.prefix
          hretains'.extends.prefix
        rw [hworld, hworld']
        exact hm.world
      · rw [herror, hok']
        exact left
      · rw [hok, herror']
        exact right
      · rw [hok, hok', List.append_assoc, List.append_assoc]
        exact .entered hm.relabeled hmid (Activation.twins_enter hbody .nil (.some hclauses))
    · have hrun : ∀ (n : Machine) (clauses : List (Effect × Value)) (id : Nat)
          (env : List (Symbol × Value)),
          Exec.install clauses (.closure id f env) n = .error (.error (.typeError
            ("handled body must be a zero-argument function, got " ++
              (Value.closure id f env).typeName))) n := by
        intro n clauses id env
        simp only [Exec.install, if_neg harity]
        rfl
      rw [hrun, hrun]
      exact hrefuse
  | _ => cases hbody.unfold.alike <;> exact hrefuse

/-- Each instruction without jump. -/
theorem straight {op : Op} {operand : Nat} {takes leaves : List Kind}
    (hm : Machine.Beside (twinning κ ρ) s s' m m') (hlow : Unseen s.thread.levels low)
    (hlow' : Unseen s'.thread.levels low')
    (hpre : List.Forall₂ (Activation.Twins κ ρ.ids (Value.Twins κ ρ) [.value]) pre pre')
    (ha : a.Twins κ ρ.ids (Value.Twins κ ρ) leaves a') (hκ : κ = .value ∨ κ = .clause)
    (hstraight : a.code.Straight κ op operand takes leaves)
    (hpairs : List.Forall₂ (κ.Joins ρ.ids (Value.Twins κ ρ)) takes pairs)
    (hdrop : op = .tailCall → ∀ callee args, pairs.map Prod.fst = args ++ [callee] →
      Resumes callee args (m.showing (low ++ (pre ++ [a])) []) →
      (baseOf s.thread.levels < (low ++ pre).length ↔
        baseOf s'.thread.levels < (low' ++ pre').length))
    (htells : (op = .call ∨ op = .tailCall) → ∀ callee args, pairs.map Prod.fst = args ++ [callee] →
      Invokes ρ.tells callee args (m.showing (low ++ (pre ++ [a])) []) → tells) (start line : Nat) :
    Concur κ ρ s s' low low' (pre ++ [a]) tells none
      (execute { op, operand, start, line } (m.showing (low ++ pre ++ [a]) (pairs.map Prod.fst)))
      (execute { op, operand, start, line }
        (m'.showing (low' ++ pre' ++ [a']) (pairs.map Prod.snd))) := by
  by_cases hop : op ≠ .call ∧ op ≠ .tailCall ∧ op ≠ .handle
  · have hstays : StayWithin κ (twinning κ ρ) m m' (low ++ pre) (low' ++ pre') a a' leaves _ _ :=
      stays_within Value.twins_closure hm.world ha.bare hκ hstraight hpairs hop start line
    generalize execute _ (m.showing (low ++ pre ++ [a]) (pairs.map Prod.fst)) = r at hstays ⊢
    generalize execute _ (m'.showing (low' ++ pre' ++ [a']) (pairs.map Prod.snd)) = r' at hstays ⊢
    cases hstays with
    | goesOn hw hb hhandler hhandler' hpairs =>
      refine goesOn (hm.withWorld hw) hpre (hb.guarded ?_) _ hpairs
      rw [hhandler, hhandler']
      exact ha.handler
    | fails e => exact fails hm e
  cases hstraight with
  | call =>
    obtain ⟨args, args', callee, callee', hfst, hsnd, hlength, hlength', hargs, hcallee⟩ :=
      joins_call hpairs
    rw [hfst, hsnd, ← List.nil_append (args ++ [callee]), ← List.nil_append (args' ++ [callee'])]
    refine andThen none ?_
    rw [callTop_showing m _ [] line hlength, callTop_showing m' _ [] line hlength',
      List.append_assoc, List.append_assoc]
    exact call hm hlow hlow' (List.rel_append hpre (.cons ha .nil)) hcallee hargs line
      (htells (Or.inl rfl) callee args hfst)
  | tailCall =>
    obtain ⟨args, args', callee, callee', hfst, hsnd, hlength, hlength', hargs, hcallee⟩ :=
      joins_call hpairs
    rw [hfst, hsnd, ← List.nil_append (args ++ [callee]), ← List.nil_append (args' ++ [callee'])]
    refine andThen none ?_
    rw [callTop_showing m _ [] line hlength, callTop_showing m' _ [] line hlength',
      List.append_assoc, List.append_assoc]
    exact callTail hm hlow hlow' hpre ha hcallee hargs (hdrop rfl callee args hfst) line
      (htells (Or.inr rfl) callee args hfst)
  | handle =>
    obtain ⟨_, _, ⟨id, id', clauses, clauses', rfl, _, hclauses⟩, hrest, rfl⟩ :=
      List.forall₂_cons_left_iff.1 hpairs
    obtain ⟨p, hp, rfl⟩ := forall₂_singleton_left hrest
    simp only [List.map_cons, List.map_nil]
    rw [← List.nil_append [Value.handler id clauses, p.1],
      ← List.nil_append [Value.handler id' clauses', p.2], execute_handle, execute_handle,
      List.append_assoc, List.append_assoc]
    exact andThen none (install hm (List.rel_append hpre (.cons ha .nil)) hclauses hp)
  | _ => exact absurd (by decide) hop

end Exec.Concur

namespace Machine

variable {s s' m m' : Machine} {low low' pre pre' : List Activation} {a a' : Activation}

/-- The next instruction of a machine is a call, which is made in the state `s`. -/
structure Calling (m : Machine) (i : Fetched) (callee : Value) (args : List Value) (s : Machine) :
    Prop where
  call : i.op = .call ∨ i.op = .tailCall
  operands : ∃ m₁ m₂, Exec.fetch m = .ok i m₁ ∧ Exec.pop m₁ = .ok callee m₂ ∧
    Exec.popMany i.operand m₂ = .ok args s

/-- The operands of a call are on top of the last activation. -/
theorem calling_showing (m : Machine) (pre : List Activation) {op : Op} {operand line : Nat}
    {ops args : List Value} {callee : Value} (hat : a.code.At a.ip op operand line)
    (hop : op.narrow = .call ∨ op.narrow = .tailCall) (hoperands : a.operands = ops ++ (args ++ [callee]))
    (hlength : args.length = operand) :
    (m.showing (pre ++ [a]) []).Calling { op, operand, start := a.ip, line } callee args
      (m.showing (pre ++ [{ a with ip := a.ip + 1 + op.width, operands := ops }]) []) := by
  have hfetch := Exec.fetch_showing m pre a [] hat
  rw [showing_fetched (a.ip + 1 + op.width) hoperands] at hfetch
  refine ⟨?_, _, _, hfetch, Exec.pop_showing m _ args callee, Exec.popMany_showing m _ [] hlength⟩
  exact hop.imp Op.eq_call_of_narrow Op.eq_tailCall_of_narrow

/-- The number of arguments is the operand of a call. -/
theorem length_of_call {op : Op} {operand : Nat} {takes leaves : List Kind} {args : List Value}
    {callee : Value} (hop : op.narrow = .call ∨ op.narrow = .tailCall)
    (hstraight : a.code.Straight κ op.narrow operand takes leaves)
    (hpairs : List.Forall₂ (κ.Joins ids R) takes pairs) (hfst : pairs.map Prod.fst = args ++ [callee]) :
    args.length = operand := by
  have htakes : takes = List.replicate operand .value ++ [.value] := by
    obtain hcall | htail := hop
    · rw [hcall] at hstraight
      cases hstraight
      rfl
    · rw [htail] at hstraight
      cases hstraight
      rfl
  have hsize := (List.Forall₂.length_eq hpairs).symm
  have hsize' := congrArg List.length hfst
  simp [htakes] at hsize hsize'
  omega

/-- A call does with its operands what calling comes to. -/
theorem Calling.execute {i : Fetched} {callee : Value} {args : List Value}
    (hcalling : m.Calling i callee args s) :
    ∃ m₁, Exec.fetch m = .ok i m₁ ∧ Exec.execute i m₁ =
      Exec.withValue none (Exec.call callee args i.line (decide (i.op = .tailCall)) s) := by
  obtain ⟨m₁, m₂, hfetch, hcallee, hargs⟩ := hcalling.operands
  have hcall : ∀ tail, Exec.callTop i.operand i.line tail m₁ =
      Exec.call callee args i.line tail s := by
    intro tail
    rw [Exec.callTop, bind_of_ok hcallee, bind_of_ok hargs]
  refine ⟨m₁, hfetch, ?_⟩
  rw [← hcall, ← Exec.andThen_run]
  obtain ⟨op, operand, start, line⟩ := i
  obtain rfl | rfl := hcalling.call
  · rfl
  · rfl

/-- The operands of a call are on the stacks of the last twins. If it is in tail position, there is
nothing left to do afterwards but to return. -/
theorem Calling.twins {i : Fetched} {callee : Value} {args : List Value}
    (hcalling : (m.showing (low ++ [a]) []).Calling i callee args s)
    (ha : a.Twins κ ρ.ids (Value.Twins κ ρ) [] a') (m' : Machine) (low' : List Activation) :
    ∃ b b' callee' args', s = m.showing (low ++ [b]) [] ∧
      b.Twins κ ρ.ids (Value.Twins κ ρ) [.value] b' ∧ b.handler = a.handler ∧
      (i.op = .tailCall → b.code.Returns b.ip) ∧ callee.Twins κ ρ callee' ∧
      List.Forall₂ (Value.Twins κ ρ) args args' ∧
      (m'.showing (low' ++ [a']) []).Calling i callee' args' (m'.showing (low' ++ [b']) []) := by
  have hop := hcalling.call
  obtain ⟨m₁, m₂, hfetch, hcallee, hargs⟩ := hcalling.operands
  cases ha.next with
  | ret hat => simp [(Exec.fetched_inv hfetch hat).1] at hop
  | jump hat => simp [(Exec.fetched_inv hfetch hat).1] at hop
  | branch hat => simp [(Exec.fetched_inv hfetch hat).1] at hop
  | @straight op operand line takes leaves ops ops' pairs hat hstraight htail hoperands hoperands' hpairs
      hnext =>
    obtain ⟨rfl, rfl⟩ := Exec.fetched_inv hfetch hat
    have hkinds : takes = List.replicate operand .value ++ [.value] ∧ leaves = [.value] := by
      obtain rfl | rfl := hop <;> cases hstraight <;> exact ⟨rfl, rfl⟩
    obtain ⟨rfl, rfl⟩ := hkinds
    obtain ⟨vs, vs', v, v', hfst, hsnd, hlength, hlength', hvs, hv⟩ := joins_call hpairs
    rw [hfst] at hoperands
    rw [hsnd] at hoperands'
    rw [showing_fetched _ hoperands, Exec.pop_showing] at hcallee
    cases hcallee
    have hmany := Exec.popMany_showing m (low ++ [{ a with
      ip := a.ip + 1 + op.width, operands := ops }]) [] hlength
    rw [List.nil_append] at hmany
    rw [hmany] at hargs
    cases hargs
    have hat' : a'.code.At a'.ip op operand line := by
      rw [ha.code, ha.ip]
      exact hat
    have hfetch' := Exec.fetch_showing m' low' a' [] hat'
    rw [ha.ip, showing_fetched (a.ip + 1 + op.width) hoperands'] at hfetch'
    have hmany' := Exec.popMany_showing m' (low' ++ [{ a' with
      ip := a.ip + 1 + op.width, operands := ops' }]) [] hlength'
    rw [List.nil_append] at hmany'
    refine ⟨_, _, v', vs', rfl, hnext, rfl, ?_, hv, hvs, hop, _, _, hfetch', Exec.pop_showing _ _ _ _,
      hmany'⟩
    rintro rfl
    exact htail rfl

/-- What an instruction does in two threads: the last activations return, or the instruction does the
same in both. -/
inductive ExecutesBeside (κ : Kind) (ρ : Pairing) (s s' : Machine) (low low' pre pre' : List Activation)
    (tells : Prop) (m m' : Machine) :
    EStateM.Result Stop Machine (Option Value) → EStateM.Result Stop Machine (Option Value) → Prop
  | returns {v v' : Value} (hv : v.Twins κ ρ v') :
    ExecutesBeside κ ρ s s' low low' pre pre' tells m m'
      (if (low ++ pre).length ≤ Exec.baseOf m.thread.levels then .ok (some v) (m.showing (low ++ pre) [])
        else .ok none (m.showing (low ++ pre) [v]))
      (if (low' ++ pre').length ≤ Exec.baseOf m'.thread.levels then
          .ok (some v') (m'.showing (low' ++ pre') [])
        else .ok none (m'.showing (low' ++ pre') [v']))
  | concur {r r' : EStateM.Result Stop Machine (Option Value)} {b : Activation}
    (hr : Exec.Concur κ ρ s s' low low' (pre ++ [b]) tells none r r') :
    ExecutesBeside κ ρ s s' low low' pre pre' tells m m' r r'

/-- Twins fetch the same instruction, which does the same in both threads. -/
theorem executes_beside (hm : Machine.Beside (twinning κ ρ) s s' m m')
    (hlow : Unseen s.thread.levels low) (hlow' : Unseen s'.thread.levels low')
    (hpre : List.Forall₂ (Activation.Twins κ ρ.ids (Value.Twins κ ρ) [.value]) pre pre')
    (ha : a.Twins κ ρ.ids (Value.Twins κ ρ) [] a') (hκ : κ = .value ∨ κ = .clause)
    (hdrop : ∀ i callee args x, (m.showing (low ++ pre ++ [a]) []).Calling i callee args x →
      i.op = .tailCall → Exec.Resumes callee args x →
      (Exec.baseOf s.thread.levels < (low ++ pre).length ↔
        Exec.baseOf s'.thread.levels < (low' ++ pre').length))
    {level : Level} {levels : List Level} (hlevels : m.thread.levels = level :: levels)
    (hphase : level.phase = .running) :
    ∃ i m₁ m₁', Exec.fetch (m.showing (low ++ pre ++ [a]) []) = .ok i m₁ ∧
      Exec.fetch (m'.showing (low' ++ pre' ++ [a']) []) = .ok i m₁' ∧
      ExecutesBeside κ ρ s s' low low' pre pre'
        ((m.showing (low ++ pre ++ [a]) []).Invokes ρ.tells) m m'
        (Exec.execute i m₁) (Exec.execute i m₁') := by
  have hfetches : ∀ {op : Op} {operand line : Nat}, a.code.At a.ip op operand line →
      Exec.fetch (m.showing (low ++ pre ++ [a]) []) = .ok { op, operand, start := a.ip, line }
        (m.showing (low ++ pre ++ [{ a with ip := a.ip + 1 + op.width }]) []) ∧
      Exec.fetch (m'.showing (low' ++ pre' ++ [a']) []) = .ok { op, operand, start := a.ip, line }
        (m'.showing (low' ++ pre' ++ [{ a' with ip := a.ip + 1 + op.width }]) []) := by
    intro op operand line hat
    have hat' : a'.code.At a'.ip op operand line := by
      rw [ha.code, ha.ip]
      exact hat
    have hfetch' := Exec.fetch_showing m' (low' ++ pre') a' [] hat'
    rw [ha.ip] at hfetch'
    exact ⟨Exec.fetch_showing m (low ++ pre) a [] hat, hfetch'⟩
  cases ha.next with
  | @ret line v v' hat hoperands hoperands' hv =>
    obtain ⟨hfetch, hfetch'⟩ := hfetches hat
    refine ⟨_, _, _, hfetch, hfetch', ?_⟩
    have hone : a.operands = [] ++ [v] := hoperands
    have hone' : a'.operands = [] ++ [v'] := hoperands'
    rw [showing_fetched (a.ip + 1 + Op.ret.width) hone, showing_fetched (a.ip + 1 + Op.ret.width) hone',
      Exec.execute_ret, ← List.nil_append [v], ← List.nil_append [v'], Exec.returnValue_showing,
      Exec.returnValue_showing]
    exact .returns hv
  | @straight op operand line takes leaves ops ops' pairs hat hstraight htail hoperands hoperands' hpairs
      hnext =>
    obtain ⟨hfetch, hfetch'⟩ := hfetches hat
    refine ⟨_, _, _, hfetch, hfetch', ?_⟩
    have hcalling : op.narrow = .call ∨ op.narrow = .tailCall → ∀ {callee args},
        pairs.map Prod.fst = args ++ [callee] → (m.showing (low ++ pre ++ [a]) []).Calling
          { op, operand, start := a.ip, line } callee args
          (m.showing (low ++ pre ++ [{ a with ip := a.ip + 1 + op.width, operands := ops }]) []) := by
      intro hcall callee args hfst
      exact calling_showing m (low ++ pre) hat hcall (hfst ▸ hoperands)
        (length_of_call hcall hstraight hpairs hfst)
    rw [showing_fetched (a.ip + 1 + op.width) hoperands,
      showing_fetched (a.ip + 1 + op.width) hoperands', Exec.execute_narrow]
    refine .concur (Exec.Concur.straight hm hlow hlow' hpre hnext hκ hstraight hpairs ?_ ?_ a.ip line)
    · intro htailCall callee args hfst hresumes
      rw [← List.append_assoc] at hresumes
      exact hdrop _ callee args _ (hcalling (Or.inr htailCall) hfst)
        (Op.eq_tailCall_of_narrow htailCall) hresumes
    · intro hcall callee args hfst hinvokes
      obtain ⟨hop, m₁, m₂, hfetch, hcallee, hargs⟩ := hcalling hcall hfst
      rw [← List.append_assoc] at hinvokes
      exact .instruction hlevels hphase hfetch hop hcallee hargs hinvokes
  | @jump operand line hat htarget =>
    obtain ⟨hfetch, hfetch'⟩ := hfetches hat
    refine ⟨_, _, _, hfetch, hfetch', ?_⟩
    rw [Exec.execute_jump, Exec.execute_jump]
    exact .concur (b := a) (Exec.Concur.goesOn hm hpre htarget [] .nil)
  | @branch operand line ops ops' v v' hat hoperands hoperands' hv htarget hnext =>
    obtain ⟨hfetch, hfetch'⟩ := hfetches hat
    refine ⟨_, _, _, hfetch, hfetch', ?_⟩
    rw [showing_fetched (a.ip + 1 + Op.jumpIfFalse.width) hoperands,
      showing_fetched (a.ip + 1 + Op.jumpIfFalse.width) hoperands', ← List.nil_append [v],
      ← List.nil_append [v'], Exec.execute_jumpIfFalse, Exec.execute_jumpIfFalse, Likeness.isTruthy_eq (L := twinning κ ρ) hv]
    refine .concur (b := a) ?_
    split
    · exact Exec.Concur.goesOn hm hpre hnext [] .nil
    · exact Exec.Concur.goesOn hm hpre htarget [] .nil

end Machine

end Resumable
