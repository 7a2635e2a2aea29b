import Resumable.Proofs.Library.Unlined
import Resumable.Proofs.Machine.Likeness

/-!
Calls and effects without lines. Calls of values that are equal without their lines come to the same,
frames are put in the same places, and suspended computations are cut off and resumed alike.
-/

namespace Resumable

theorem sameValues_iff {vs vs' : List Value} :
    List.Forall₂ Likeness.unlined.rel vs vs' ↔ SameValues vs vs' :=
  forall₂_iff_map_eq Value.unlined

theorem Code.unlined_eq_iff {code code' : Code Value} :
    code.unlined = code'.unlined ↔
      code.name = code'.name ∧ code.params = code'.params ∧ code.selfName = code'.selfName ∧
      code.localCount = code'.localCount ∧ code.captures = code'.captures ∧
      code.bytes = code'.bytes ∧
      code.constants.map Value.unlined = code'.constants.map Value.unlined ∧
      code.lines.map (fun _ => 0) = code'.lines.map fun _ => 0 := by
  rw [unlined_eq, unlined_eq, Code.mk.injEq]

theorem Frame.unlined_eq_iff {f f' : Frame Value} :
    f.unlined = f'.unlined ↔
      f.code.unlined = f'.code.unlined ∧ unlinedEnv f.env = unlinedEnv f'.env ∧
      f.locals.map Value.unlined = f'.locals.map Value.unlined ∧ f.ip = f'.ip ∧
      f.base = f'.base ∧ f.boundary = f'.boundary := by
  rw [unlined_eq, unlined_eq, Frame.mk.injEq]

/-- The frame of a function without lines is the frame of the function without lines. -/
theorem Frame.unlined_enter (closure : Value) (code : Code Value) (env : List (Symbol × Value))
    (args : List Value) (base : Nat) (boundary : Bool) :
    (Frame.enter closure code env args base boundary).unlined =
      Frame.enter closure.unlined code.unlined (unlinedEnv env) (args.map Value.unlined) base
        boundary := by
  have hnone : Value.none.unlined = .none := rfl
  simp only [unlined_eq, enter, Code.localCount_unlined, Code.selfName_unlined,
    Code.params_unlined, List.length_map]
  cases code.selfName <;>
    simp [hnone, List.map_toArray]

namespace Exec

variable {v v' : Value} {args args' : List Value}

theorem unlines_act {α : Type} {R : α → α → Prop} {a b : Act α} (hab : Act.Unlines R a b) :
    Unlines R (act a) (act b) := by
  intro m m' hm
  obtain ⟨hworld, hrest⟩ := Machine.unlined_eq_iff.1 hm
  have hends := hab _ _ hworld
  unfold act
  generalize a m.world = r at hends
  generalize b m'.world = r' at hends
  cases hends with
  | ok hvalue hw => exact .ok hvalue (Machine.unlined_eq_iff.2 ⟨hw, hrest⟩)
  | error hroot hw => exact .error (congrArg Stop.error hroot) (Machine.unlined_eq_iff.2 ⟨hw, hrest⟩)

/-- A refusal names the type of a value, which does not depend on lines. -/
theorem unlines_refuse {α β : Type} {R : α → β → Prop} (hv : SameValue v v')
    (complaint : String → RuntimeError) :
    Unlines R (fail (complaint v.typeName)) (fail (complaint v'.typeName)) := by
  rw [Likeness.typeName_eq (L := .unlined) hv]
  exact unlines_fail _

theorem unlines_applied (hcallee : SameValue v v') (hargs : SameValues args args') :
    Unlines (Transfer.Related .unlined) (applied v args) (applied v' args') := by
  refine unlines_draw.bind fun {id _} hid => ?_
  subst hid
  refine actAlike_pure (.returned ?_)
  exact Likeness.unlined.applied rfl hcallee (sameValues_iff.2 hargs)

theorem unlines_withArity (hcallee : SameValue v v') (hargs : SameValues args args')
    (name : String) (arity : Nat) {full full' : Exec Transfer}
    (hfull : Unlines (Transfer.Related .unlined) full full') :
    Unlines (Transfer.Related .unlined) (withArity v name arity args full)
      (withArity v' name arity args' full') := by
  have hlength : args.length = args'.length := by simpa using congrArg List.length hargs
  simp only [withArity, hlength]
  split
  · exact unlines_applied hcallee hargs
  · split
    · exact unlines_fail _
    · exact hfull

/-- Calls of values that are equal without their lines come to the same, before the machine acts on
them. -/
theorem unlines_apply (hcallee : SameValue v v') (hargs : SameValues args args') :
    Unlines (Transfer.Related .unlined) (apply v args) (apply v' args') := by
  obtain ⟨hcallee, hargs⟩ :=
    Likeness.unapply_related (L := .unlined) hcallee (sameValues_iff.2 hargs)
  unfold apply
  generalize v.unapply args = f at hcallee hargs
  generalize v'.unapply args' = f' at hcallee hargs
  obtain ⟨f, args⟩ := f
  obtain ⟨f', args'⟩ := f'
  simp only at hcallee hargs
  have hview := Value.alike_of_unlined hcallee
  have hrefuse := unlines_refuse (R := Transfer.Related .unlined) hcallee
    fun type => .notCallable (type ++ " is not callable")
  cases f with
  | closure id f env =>
    cases hview with
    | flat hflat => cases hflat
    | closure hid hname hparams =>
      obtain rfl := hid
      simp only [hname, Code.arity, hparams]
      exact unlines_withArity hcallee (sameValues_iff.1 hargs) _ _
        (actAlike_pure (.enter hcallee hargs))
  | native id name arity function =>
    cases hview with
    | flat hflat => cases hflat
    | native =>
      have hsame := sameValues_iff.1 hargs
      refine unlines_withArity hcallee hsame name arity ?_
      refine (unlines_act (function.unlines_invoke name hsame)).bind fun hreply => ?_
      cases hreply with
      | value hv => exact actAlike_pure (.returned hv)
      | call hcallee hargs => exact actAlike_pure (.requested (.call hcallee hargs))
      | spawn hcallee => exact actAlike_pure (.requested (.spawn hcallee))
      | depth => exact actAlike_pure (.requested .depth)
  | effect e =>
    cases hview with
    | flat hflat => cases hflat
    | @effect _ e heffect =>
      obtain rfl := heffect.eq
      have hsame := sameValues_iff.1 hargs
      cases hargs with
      | nil => exact unlines_withArity hcallee hsame e.name _ (actAlike_pure (.raise heffect rfl))
      | cons hpayload hmore =>
        cases hmore with
        | nil => exact actAlike_pure (.raise heffect hpayload)
        | cons => exact unlines_withArity hcallee hsame e.name _ (actAlike_pure (.raise heffect rfl))
  | continuation id k =>
    cases hview with
    | flat hflat => cases hflat
    | continuation =>
      have hsame := sameValues_iff.1 hargs
      cases hargs with
      | nil =>
        exact unlines_withArity hcallee hsame "continuation" _ (actAlike_pure (.resume hcallee rfl))
      | cons hv hmore =>
        cases hmore with
        | nil => exact actAlike_pure (.resume hcallee hv)
        | cons =>
          exact unlines_withArity hcallee hsame "continuation" _ (actAlike_pure (.resume hcallee rfl))
  | _ => cases hview <;> exact hrefuse

theorem stack_size {m m' : Machine} (hm : m.unlined = m'.unlined) :
    m.thread.stack.size = m'.thread.stack.size := by
  simpa [Machine.unlined, Thread.unlined] using congrArg (fun m => m.thread.stack.size) hm

theorem limits_eq {m m' : Machine} (hm : m.unlined = m'.unlined) :
    m.thread.limits = m'.thread.limits :=
  congrArg (fun m => m.thread.limits) hm

/-- Functions that are equal without their lines get frames that are. -/
theorem unlined_enter_congr {id id' : Nat} {code code' : Code Value}
    {env env' : List (Symbol × Value)}
    (hclosure : SameValue (.closure id code env) (.closure id' code' env'))
    (hargs : SameValues args args') (base : Nat) (boundary : Bool) :
    (Frame.enter (.closure id code env) code env args base boundary).unlined =
      (Frame.enter (.closure id' code' env') code' env' args' base boundary).unlined := by
  have hparts := hclosure
  simp only [SameValue, Value.unlined_closure, Value.closure.injEq] at hparts
  obtain ⟨_, hcode, henv⟩ := hparts
  rw [Frame.unlined_enter, Frame.unlined_enter, hclosure, hcode, henv, hargs]

theorem unlines_pushFrame {id id' : Nat} {code code' : Code Value} {env env' : List (Symbol × Value)}
    (hclosure : SameValue (.closure id code env) (.closure id' code' env'))
    (hargs : SameValues args args') (boundary : Bool) :
    Unlines (fun _ _ => True) (pushFrame (.closure id code env) code env args boundary)
      (pushFrame (.closure id' code' env') code' env' args' boundary) := by
  refine actAlike_get.bind fun {m m'} hm => ?_
  refine actAlike_get.bind fun {m₁ m₁'} hm₁ => ?_
  simp only [limits_eq hm, frames_size hm₁]
  split
  · exact unlines_fail _
  · refine actAlike_get.bind fun {m₂ m₂'} hm₂ => ?_
    simp only [stack_size hm₂]
    split
    · exact unlines_fail _
    · refine unlines_modifyThread fun t t' ht => ?_
      obtain ⟨hframes, hstack, hrest⟩ := Thread.unlined_eq_iff.1 ht
      have hsize : t.stack.size = t'.stack.size := by simpa using congrArg Array.size hstack
      refine Thread.unlined_eq_iff.2 ⟨?_, hstack, hrest⟩
      simp only [Array.map_push, hframes, hsize, unlined_enter_congr hclosure hargs]

theorem unlines_replaceFrame {id id' : Nat} {code code' : Code Value}
    {env env' : List (Symbol × Value)}
    (hclosure : SameValue (.closure id code env) (.closure id' code' env'))
    (hargs : SameValues args args') :
    Unlines (fun _ _ => True) (replaceFrame (.closure id code env) code env args)
      (replaceFrame (.closure id' code' env') code' env' args') := by
  refine actAlike_get.bind fun {m m'} hm => ?_
  have hrel := top_frames hm
  generalize m.thread.frames.back? = top at hrel
  generalize m'.thread.frames.back? = top' at hrel
  cases hrel with
  | none => exact unlines_malformed _
  | @some f f' hf =>
    obtain ⟨_, _, _, _, hbase, hboundary⟩ := Frame.unlined_eq_iff.1 hf
    refine unlines_modifyThread fun t t' ht => ?_
    obtain ⟨hframes, hstack, hrest⟩ := Thread.unlined_eq_iff.1 ht
    refine Thread.unlined_eq_iff.2 ⟨?_, ?_, hrest⟩
    · simp only [Array.map_push, Array.map_pop, hframes, hbase, hboundary,
        unlined_enter_congr hclosure hargs]
    · simp only [map_shrink, hstack, hbase]

theorem unlines_capturedBindings {f f' : Frame Value} (hf : f.unlined = f'.unlined)
    (captures : List Capture) {env env' : List (Symbol × Value)}
    (henv : unlinedEnv env = unlinedEnv env') :
    Unlines (fun env env' => unlinedEnv env = unlinedEnv env') (capturedBindings f env captures)
      (capturedBindings f' env' captures) := by
  induction captures generalizing env env' with
  | nil => exact actAlike_pure henv
  | cons c captures ih =>
    obtain ⟨_, hbound, hlocals, _⟩ := Frame.unlined_eq_iff.1 hf
    have hnext : ∀ {v v' : Value}, SameValue v v' →
        Unlines (fun env env' => unlinedEnv env = unlinedEnv env')
          (capturedBindings f (Env.define env c.name v) captures)
          (capturedBindings f' (Env.define env' c.name v') captures) := fun hv =>
      ih (env_related_iff.1 (Env.Related.define (L := .unlined) (env_related_iff.2 henv) c.name hv))
    simp only [capturedBindings]
    cases c.source with
    | slot n =>
      have hfound : Option.Rel SameValue f.locals[n]? f'.locals[n]? := by
        refine (optionRel_iff_map_eq Value.unlined).2 ?_
        simpa only [Array.getElem?_map] using congrArg (·[n]?) hlocals
      simp only []
      generalize f.locals[n]? = found at hfound ⊢
      generalize f'.locals[n]? = found' at hfound ⊢
      cases hfound with
      | none => exact unlines_malformed _
      | some hv => exact hnext hv
    | enclosing =>
      have hfound := Env.Related.get? (L := .unlined) (env_related_iff.2 hbound) c.name
      simp only []
      generalize Env.get? f.env c.name = found at hfound ⊢
      generalize Env.get? f'.env c.name = found' at hfound ⊢
      cases hfound with
      | none => exact unlines_malformed _
      | some hv => exact hnext hv

theorem unlines_makeClosure {code code' : Code Value} (hcode : code.unlined = code'.unlined) :
    Unlines SameValue (makeClosure code) (makeClosure code') := by
  refine actAlike_get.bind fun {m m'} hm => ?_
  have hrel := top_frames hm
  generalize m.thread.frames.back? = top at hrel
  generalize m'.thread.frames.back? = top' at hrel
  cases hrel with
  | none => exact unlines_malformed _
  | some hf =>
    simp only [(Code.unlined_eq_iff.1 hcode).2.2.2.2.1]
    refine (unlines_capturedBindings hf _ rfl).bind fun {env env'} henv => ?_
    refine unlines_draw.bind fun {id _} hid => ?_
    subst hid
    refine actAlike_pure ?_
    simp only [SameValue, Value.unlined_closure, hcode, henv]

end Exec

end Resumable
