import Resumable.Proofs.Machine.Suspension

/-!
What one instruction does to the activations of the call that executes it. It works on the last of
them and leaves those below alone, unless that one returns or a clause answers an effect. Clauses are
functions of two parameters here.
-/

namespace Resumable

/-- How an instruction changes the activations of a call. The last one goes on, or a function takes its
place, with others on top or none; it returns; a clause takes the place of all from a boundary on; or
a suspended computation takes the place of the last one, which has finished. -/
inductive Turn : List Activation → List Activation → Prop
  | grows {pre more : List Activation} {a a' : Activation} (hhandler : a'.handler = a.handler) :
    Turn (pre ++ [a]) (pre ++ a' :: more)
  | returns {pre : List Activation} {a : Activation} : Turn (pre ++ [a]) pre
  | answers {pre above : List Activation} {b c : Activation} (hb : b.handler.isSome = true)
    (hc : c.handler = none) : Turn (pre ++ b :: above) (pre ++ [c])
  | resumes {pre above : List Activation} {a b : Activation} (ha : a.handler = none)
    (hne : pre ≠ []) (hb : b.handler.isSome = true) : Turn (pre ++ [a]) (pre ++ b :: above)

/-- It does not matter how far the last activation has come. -/
theorem Turn.of_last {pre acts : List Activation} {a a' : Activation}
    (hturn : Turn (pre ++ [a']) acts) (hhandler : a'.handler = a.handler) :
    Turn (pre ++ [a]) acts := by
  generalize hstart : pre ++ [a'] = start at hturn
  cases hturn with
  | grows hsame =>
    obtain ⟨rfl, hlast⟩ := List.append_inj' hstart rfl
    cases hlast
    exact .grows (hsame.trans hhandler)
  | returns =>
    obtain ⟨rfl, _⟩ := List.append_inj' hstart rfl
    exact .returns
  | @answers pre' above b c hb hc =>
    obtain rfl | ⟨rest, x, rfl⟩ := List.eq_nil_or_concat' above
    · obtain ⟨rfl, hlast⟩ := List.append_inj' hstart rfl
      cases hlast
      exact .answers (hhandler ▸ hb) hc
    · rw [← List.cons_append, ← List.append_assoc] at hstart
      obtain ⟨rfl, _⟩ := List.append_inj' hstart rfl
      rw [List.append_assoc, List.cons_append]
      exact .answers hb hc
  | resumes hnone hne hb =>
    obtain ⟨rfl, hlast⟩ := List.append_inj' hstart rfl
    cases hlast
    exact .resumes (hhandler ▸ hnone) hne hb

namespace Machine

/-- Where an instruction leads a call with the activations `acts` above `below`: it goes on, or it makes
another call from there, or it waits for a task there. -/
inductive Goes (m : Machine) (below acts : List Activation) (m' : Machine) : Prop
  | on {acts' : List Activation} {extra : List Value} (hturn : Turn acts acts')
    (hwaiting : m'.waiting = m.waiting) (hlevels : m'.thread.levels = m.thread.levels)
    (hshows : m'.thread = m'.thread.showing (below ++ acts') extra)
  | called {acts' : List Activation} {inner : Level} (hturn : Turn acts acts')
    (hwaiting : m'.waiting = m.waiting) (hlevels : m'.thread.levels = inner :: m.thread.levels)
    (hdepth : inner.depth = (below ++ acts').length)
    (hshows : m'.thread = m'.thread.showing (below ++ acts') [])
  | spawned {pre : List Activation} {a a' : Activation} {id : Int} {t : Thread}
    (hacts : acts = pre ++ [a]) (hhandler : a'.handler = a.handler)
    (hwaiting : m'.waiting = (id, t) :: m.waiting) (hlevels : t.levels = m.thread.levels)
    (hshows : t = t.showing (below ++ (pre ++ [a'])) [])

variable {m n m' : Machine} {below pre acts acts' : List Activation} {a a' : Activation}
  {level : Level} {levels : List Level}

theorem Goes.of_last (hgoes : m.Goes below (pre ++ [a']) m') (hhandler : a'.handler = a.handler) :
    m.Goes below (pre ++ [a]) m' := by
  cases hgoes with
  | on hturn hwaiting hlevels hshows => exact .on (hturn.of_last hhandler) hwaiting hlevels hshows
  | called hturn hwaiting hlevels hdepth hshows =>
    exact .called (hturn.of_last hhandler) hwaiting hlevels hdepth hshows
  | spawned hacts hsame hwaiting hlevels hshows =>
    obtain ⟨rfl, hlast⟩ := List.append_inj' hacts rfl
    cases hlast
    exact .spawned rfl (hsame.trans hhandler) hwaiting hlevels hshows

/-- The start may differ in values. -/
theorem Goes.trans_left (hgoes : n.Goes below acts m') (hwaiting : n.waiting = m.waiting)
    (hlevels : n.thread.levels = m.thread.levels) : m.Goes below acts m' := by
  cases hgoes with
  | on hturn hwaiting' hlevels' hshows =>
    exact .on hturn (hwaiting'.trans hwaiting) (hlevels'.trans hlevels) hshows
  | called hturn hwaiting' hlevels' hdepth hshows =>
    exact .called hturn (hwaiting'.trans hwaiting) (hlevels'.trans (congrArg _ hlevels)) hdepth hshows
  | spawned hacts hhandler hwaiting' hlevels' hshows =>
    exact .spawned hacts hhandler (hwaiting'.trans (congrArg _ hwaiting)) (hlevels'.trans hlevels)
      hshows

theorem goes_showing (hturn : Turn acts acts') (extra : List Value) :
    m.Goes below acts (m.showing (below ++ acts') extra) :=
  .on hturn rfl rfl rfl

/-- The last activation goes on. -/
theorem goes_on (hhandler : a'.handler = a.handler) (extra : List Value) :
    m.Goes below (pre ++ [a]) (m.showing (below ++ (pre ++ [a'])) extra) :=
  goes_showing (.grows hhandler) extra

/-- What a function has asked for is done. -/
theorem grant_goes {line : Nat} {reply : Reply}
    (hrun : Exec.grant line reply (m.showing (below ++ (pre ++ [a])) []) = .ok () m') :
    m.Goes below (pre ++ [a]) m' := by
  have hstays : Turn (pre ++ [a]) (pre ++ [a]) := .grows rfl
  cases reply with
  | value v =>
    rw [Exec.grant, Exec.push_showing] at hrun
    cases hrun
    exact goes_on rfl _
  | call mode callee args =>
    cases mode with
    | pass =>
      cases hrun
      exact .called hstays rfl rfl (by simp) rfl
    | «catch» =>
      cases hrun
      exact .called hstays rfl rfl (by simp) rfl
  | spawn callee =>
    cases hrun
    exact .spawned rfl rfl rfl rfl rfl
  | depth =>
    rw [Exec.grant, bind_get_run, Exec.push_showing] at hrun
    cases hrun
    exact goes_on rfl _

/-- A suspended computation goes on above the activations that are left. -/
theorem resume_goes {id : Nat} {k : Continuation Value} {v : Value}
    (hk : (Value.continuation id k).Sound .clause)
    (hturn : ∀ b above, k = .ofActs (b :: above) → b.handler.isSome = true → ∀ label,
      Turn acts (acts' ++ b.relabel label :: above))
    (hrun : Exec.resume k v (m.showing (below ++ acts') []) = .ok () m') :
    m.Goes below acts m' := by
  obtain ⟨b, above, clauses, label, rfl, hb, _⟩ := hk.acts
  obtain ⟨_, detail, herror⟩ | ⟨_, hok⟩ :=
    Exec.resume_showing m (below ++ acts') above b clauses label hb v
  · rw [herror] at hrun
    cases hrun
  · rw [hok, List.append_assoc] at hrun
    cases hrun
    exact .on (hturn b above rfl (by rw [hb]; rfl) _) rfl rfl rfl

/-- What a call comes to is done, given where raising an effect leads. -/
theorem transfer_goes {line : Nat} {tail : Bool} {t : Transfer}
    (hbase : Exec.baseOf m.thread.levels = below.length) (ht : t.Sound .clause)
    {raise : Effect → Value → Exec Unit}
    (hraise : ∀ effect payload, raise effect payload (m.showing (below ++ (pre ++ [a])) []) =
      .ok () m' → m.Goes below (pre ++ [a]) m')
    (hrun : Exec.transferWith raise line tail t (m.showing (below ++ (pre ++ [a])) []) = .ok () m') :
    m.Goes below (pre ++ [a]) m' := by
  cases ht with
  | returned hv =>
    rw [Exec.transferWith, Exec.push_showing] at hrun
    cases hrun
    exact goes_on rfl _
  | requested hreply => exact grant_goes hrun
  | @enter id code env args hclosure hargs =>
    cases tail with
    | true =>
      simp only [Exec.transferWith, if_true] at hrun
      rw [← List.append_assoc, Exec.replaceFrame_showing, List.append_assoc] at hrun
      cases hrun
      refine goes_on ?_ _
      rfl
    | false =>
      simp only [Exec.transferWith, Bool.false_eq_true, if_false] at hrun
      obtain ⟨_, detail, herror⟩ | ⟨_, hok⟩ :=
        Exec.pushFrame_showing m (below ++ (pre ++ [a])) (.closure id code env) code env args
      · rw [herror] at hrun
        cases hrun
      · rw [hok, List.append_assoc, List.append_assoc] at hrun
        cases hrun
        exact goes_showing (.grows rfl) _
  | raise hpayload => exact hraise _ _ hrun
  | @resume id k v hk hv =>
    have hdrop := Exec.dropFinished_showing m (below ++ pre) a [] tail
    rw [List.append_assoc, List.length_append, hbase] at hdrop
    rw [Exec.transferWith] at hrun
    split at hdrop
    next hfinished =>
      rw [bind_of_ok hdrop] at hrun
      have hne : pre ≠ [] := List.length_pos_iff.1 (by omega)
      exact resume_goes hk (fun b above _ hb label => .resumes hfinished.2.1 hne
        (by simpa [Activation.relabel] using hb)) hrun
    next =>
      rw [bind_of_ok hdrop] at hrun
      refine resume_goes hk (fun b above _ _ label => ?_) hrun
      rw [List.append_assoc]
      exact .grows rfl

/-- An effect is raised. -/
theorem Ready.raise_goes (hready : m.Ready .clause below level levels)
    (hsound : ∀ b ∈ acts, b.Sound .clause [.value]) {line : Nat} {effect : Effect} {payload : Value}
    (hrun : Exec.raise line effect payload (m.showing (below ++ acts) []) = .ok () m') :
    m.Goes below acts m' := by
  rw [Exec.raise, bind_get_run] at hrun
  cases hbound : (m.showing (below ++ acts) []).thread.handlers.size with
  | zero =>
    rw [hbound] at hrun
    cases hrun
  | succ bound =>
    rw [hbound, Exec.raiseWithin_succ] at hrun
    simp only [showing_thread, Thread.showing_handlers, Thread.showing_levels] at hrun
    cases hfind : findHandler (handlersFrom 0 0 (below ++ acts)).toArray
        (Exec.baseOf m.thread.levels) effect (handlersFrom 0 0 (below ++ acts)).toArray.size with
    | none =>
      rw [hfind] at hrun
      cases hrun
    | some found =>
      obtain ⟨index, h, clause⟩ := found
      obtain ⟨below', b, above, hacts, hb, hplace, hindex, hbase, hclause⟩ :=
        findHandler_locate hfind
      obtain ⟨pre, rfl, rfl⟩ := hready.split hacts hbase
      have hcapture := Exec.capture_showing m (below ++ pre) above b h.clauses h.label hb
      rw [← hplace, ← hindex, ← hacts] at hcapture
      obtain ⟨⟨id, code, env, rfl, harity⟩, _⟩ := (hsound b (by simp)).clause hb hclause
      rw [hfind] at hrun
      simp only [Exec.clauseArgs, Value.arity?, harity] at hrun
      rw [bind_of_ok hcapture, bind_of_ok (Exec.draw_run _), if_neg (by simp),
        bind_of_ok (Exec.apply_clause _ harity payload _)] at hrun
      simp only [Exec.transferWith, Bool.false_eq_true, if_false] at hrun
      obtain ⟨_, detail, herror⟩ | ⟨_, hok⟩ :=
        Exec.pushFrame_showing m.drawn (below ++ pre) (.closure id code env) code env
          [payload, .continuation m.world.draw.1 (.ofActs (b :: above))]
      · have hfail := hrun.symm.trans herror
        cases hfail
      · have hdone := hrun.symm.trans hok
        rw [List.append_assoc] at hdone
        cases hdone
        exact .on (.answers (by rw [hb]; rfl) rfl) rfl rfl rfl

/-- A value is called. -/
theorem Ready.call_goes (hready : m.Ready .clause below level levels)
    (hsound : ∀ b ∈ pre ++ [a], b.Sound .clause [.value]) {callee : Value} {args : List Value}
    (hcallee : callee.Sound .clause) (hargs : ∀ v ∈ args, v.Sound .clause) {line : Nat} {tail : Bool}
    (hrun : Exec.call callee args line tail (m.showing (below ++ (pre ++ [a])) []) = .ok () m') :
    m.Goes below (pre ++ [a]) m' := by
  rw [Exec.call, bind_eq_ok] at hrun
  obtain ⟨t, s, happly, hrun⟩ := hrun
  have happlies := Exec.apply_applies (m.showing (below ++ (pre ++ [a])) []) hready.world hcallee hargs
  obtain ⟨t', w, hok, hw, ht, _⟩ | ⟨e, w, herror, _⟩ := happlies
  · rw [happly] at hok
    cases hok
    have hready' : { m with world := w }.Ready .clause below level levels :=
      hready.congr hw rfl rfl
    have hbase : Exec.baseOf m.thread.levels = below.length := by
      rw [hready.calls, Exec.baseOf, hready.above.depth]
    have hgoes : { m with world := w }.Goes below (pre ++ [a]) m' :=
      transfer_goes hbase ht (fun effect payload hraise => hready'.raise_goes hsound hraise) hrun
    exact hgoes.trans_left rfl rfl
  · rw [happly] at herror
    cases herror

/-- A handler is installed. -/
theorem install_goes {clauses : List (Effect × Value)} {body : Value}
    (hrun : Exec.install clauses body (m.showing (below ++ (pre ++ [a])) []) = .ok () m') :
    m.Goes below (pre ++ [a]) m' := by
  cases body with
  | closure id code env =>
    by_cases harity : code.arity = 0
    · obtain ⟨_, detail, n, herror, _⟩ | ⟨_, hok⟩ :=
        Exec.install_showing m (below ++ (pre ++ [a])) clauses id code env harity
      · rw [herror] at hrun
        cases hrun
      · rw [hok, List.append_assoc, List.append_assoc] at hrun
        cases hrun
        exact .on (.grows rfl) rfl rfl rfl
    · simp only [Exec.install, if_neg harity] at hrun
      cases hrun
  | _ => cases hrun

/-- An action after which an instruction is done. -/
theorem done_of_andThen {x : Exec Unit} (hrun : (do x; return none : Exec (Option Value)) n = .ok none m') :
    x n = .ok () m' := by
  obtain ⟨_, s, hx, hrest⟩ := bind_eq_ok.1 hrun
  cases hrest
  exact hx

/-- Each instruction without jump. -/
theorem Ready.straight_goes {op : Op} {operand : Nat} {takes leaves : List Kind} {vs : List Value}
    (hready : m.Ready .clause below level levels) (hpre : ∀ b ∈ pre, b.Sound .clause [.value])
    (ha : a.Sound .clause leaves) (hstraight : a.code.Straight .clause op operand takes leaves)
    (hfits : List.Forall₂ Kind.Fits takes vs) (hvs : ∀ v ∈ vs, v.Sound .clause) {start line : Nat}
    (hrun : Exec.execute { op, operand, start, line } (m.showing (below ++ pre ++ [a]) vs) =
      .ok none m') : m.Goes below (pre ++ [a]) m' := by
  have hcall : ∀ {tail : Bool}, takes = List.replicate operand .value ++ [.value] →
      leaves = [.value] → Exec.callTop operand line tail (m.showing (below ++ pre ++ [a]) vs) =
        .ok () m' → m.Goes below (pre ++ [a]) m' := by
    rintro tail rfl rfl hrun
    obtain ⟨args, callee, rfl, hargs, _⟩ := forall₂_concat_left hfits
    rw [← List.nil_append (args ++ [callee]),
      Exec.callTop_showing m _ [] line (fits_replicate hargs) callee tail, List.append_assoc] at hrun
    exact hready.call_goes (List.forall_mem_append.2 ⟨hpre, by simpa using ha⟩) (hvs callee (by simp))
      (fun v hv => hvs v (by simp [hv])) hrun
  by_cases hop : op ≠ .call ∧ op ≠ .tailCall ∧ op ≠ .handle
  · have hstays : StaysOn .clause m (below ++ pre) a op leaves _ :=
      stays_on hready.world ha hstraight hfits hvs hop start line
    rw [hrun] at hstays
    cases hstays with
    | goesOn _ _ hhandler _ _ =>
      rw [List.append_assoc]
      exact Goes.trans_left (goes_on hhandler _) rfl rfl
  cases hstraight with
  | call => exact hcall rfl rfl (done_of_andThen hrun)
  | tailCall => exact hcall rfl rfl (done_of_andThen hrun)
  | handle =>
    obtain ⟨handler, _, ⟨id, clauses, rfl⟩, hrest, rfl⟩ := List.forall₂_cons_left_iff.1 hfits
    obtain ⟨body, _, rfl⟩ := forall₂_singleton_left hrest
    rw [← List.nil_append [Value.handler id clauses, body], Exec.execute_handle,
      List.append_assoc] at hrun
    exact install_goes (done_of_andThen hrun)
  | _ => exact absurd (by decide) hop

/-- What an instruction does to the call that executes it and goes on. -/
theorem Ready.step_goes {i : Fetched} {s : Machine} (hready : m.Ready .clause below level levels)
    (hpre : ∀ b ∈ pre, b.Sound .clause [.value]) (ha : a.Sound .clause [])
    (hfetch : Exec.fetch (m.showing (below ++ (pre ++ [a])) []) = .ok i s)
    (hrun : Exec.execute i s = .ok none m') : m.Goes below (pre ++ [a]) m' := by
  rw [← List.append_assoc] at hfetch
  cases ha.next with
  | @ret line v hat hoperands =>
    obtain ⟨rfl, rfl⟩ := Exec.fetched_inv hfetch hat
    have hone : a.operands = [] ++ [v] := hoperands
    rw [showing_fetched _ hone, Exec.execute_ret, ← List.nil_append [v], Exec.returnValue_showing]
      at hrun
    split at hrun
    next => cases hrun
    next =>
      cases hrun
      exact goes_showing .returns _
  | @straight op operand line takes leaves ops vs hat hstraight _ hoperands hfits hnext =>
    obtain ⟨rfl, rfl⟩ := Exec.fetched_inv hfetch hat
    have hvs : ∀ v ∈ vs, v.Sound .clause :=
      fun v hv => ha.parts v (by simp [Activation.parts, hoperands, hv])
    rw [showing_fetched _ hoperands, Exec.execute_narrow] at hrun
    exact (hready.straight_goes hpre hnext hstraight hfits hvs hrun).of_last rfl
  | jump hat =>
    obtain ⟨rfl, rfl⟩ := Exec.fetched_inv hfetch hat
    rw [Exec.execute_jump, List.append_assoc] at hrun
    cases hrun
    refine goes_on ?_ _
    rfl
  | @branch operand line ops v hat hoperands =>
    obtain ⟨rfl, rfl⟩ := Exec.fetched_inv hfetch hat
    rw [showing_fetched _ hoperands, ← List.nil_append [v], Exec.execute_jumpIfFalse,
      List.append_assoc] at hrun
    cases hrun
    refine goes_on ?_ _
    split <;> rfl

end Machine

end Resumable
