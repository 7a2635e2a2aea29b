import Mathlib.Data.List.Induction
import Resumable.Proofs.Machine.UnlinedEffect

/-!
Instructions without lines. The bytes that are fetched are the same, and what an instruction does does
not depend on its line.
-/

namespace Resumable

/-- Instructions that differ at most in their lines. -/
structure Fetched.Same (i i' : Fetched) : Prop where
  op : i.op = i'.op
  operand : i.operand = i'.operand
  start : i.start = i'.start

namespace Exec

variable {v v' : Value}

theorem unlines_fetch : Unlines Fetched.Same fetch fetch := by
  refine unlines_topFrame.bind fun {f f'} hf => ?_
  obtain ⟨hcode, _, _, hip, _⟩ := Frame.unlined_eq_iff.1 hf
  have hbytes : f.code.bytes = f'.code.bytes := (Code.unlined_eq_iff.1 hcode).2.2.2.2.2.1
  simp only [hip, hbytes, Code.byteAt?, Code.wordAt?]
  cases f'.code.bytes[f'.ip]? with
  | none => exact unlines_malformed _
  | some byte =>
    simp only []
    cases Op.ofByte? byte with
    | none => exact unlines_malformed _
    | some op =>
      simp only []
      split
      · exact unlines_malformed _
      · refine ActAlike.bind (unlines_modifyFrame fun x y hxy => ?_) fun _ =>
          actAlike_pure ⟨rfl, rfl, rfl⟩
        obtain ⟨hcode, henv, hlocals, _, hrest⟩ := Frame.unlined_eq_iff.1 hxy
        exact Frame.unlined_eq_iff.2 ⟨hcode, henv, hlocals, rfl, hrest⟩

theorem unlines_constant (index : Nat) : Unlines SameValue (constant index) (constant index) := by
  refine actAlike_get.bind fun {m m'} hm => ?_
  have hrel := top_frames hm
  generalize m.thread.frames.back? = top at hrel
  generalize m'.thread.frames.back? = top' at hrel
  cases hrel with
  | none => exact unlines_malformed _
  | @some f f' hf =>
    obtain ⟨hcode, _⟩ := Frame.unlined_eq_iff.1 hf
    have hconstants := (Code.unlined_eq_iff.1 hcode).2.2.2.2.2.2.1
    have hvalue : Option.Rel SameValue f.code.constants[index]? f'.code.constants[index]? := by
      refine (optionRel_iff_map_eq Value.unlined).2 ?_
      simpa only [Array.getElem?_map] using congrArg (·[index]?) hconstants
    simp only []
    generalize f.code.constants[index]? = found at hvalue
    generalize f'.code.constants[index]? = found' at hvalue
    cases hvalue with
    | none => exact unlines_malformed _
    | some hv => exact actAlike_pure hv

theorem unlines_symbolConstant (index : Nat) :
    Unlines Eq (symbolConstant index) (symbolConstant index) := by
  refine (unlines_constant index).bind fun {v v'} hv => ?_
  cases Value.alike_of_unlined hv with
  | flat hflat => cases v <;> first | exact actAlike_pure rfl | exact unlines_malformed _
  | _ => exact unlines_malformed _

theorem unlines_jumpTo (offset : Nat) : Unlines (fun _ _ => True) (jumpTo offset) (jumpTo offset) := by
  refine unlines_modifyFrame fun x y hxy => ?_
  obtain ⟨hcode, henv, hlocals, _, hrest⟩ := Frame.unlined_eq_iff.1 hxy
  exact Frame.unlined_eq_iff.2 ⟨hcode, henv, hlocals, rfl, hrest⟩

theorem unlines_returnValue : Unlines (Option.Rel SameValue) returnValue returnValue := by
  refine unlines_pop.bind fun {v v'} hv => ?_
  refine actAlike_get.bind fun {m m'} hm => ?_
  have hrel := top_frames hm
  generalize m.thread.frames.back? = top at hrel
  generalize m'.thread.frames.back? = top' at hrel
  cases hrel with
  | none => exact unlines_malformed _
  | @some f f' hf =>
    obtain ⟨_, _, _, _, hbase, hboundary⟩ := Frame.unlined_eq_iff.1 hf
    have hend : Unlines (Option.Rel SameValue)
        (do
          let base ← baseDepth
          if (← get).thread.frames.size ≤ base then return some v
          else
            push v
            return none)
        (do
          let base ← baseDepth
          if (← get).thread.frames.size ≤ base then return some v'
          else
            push v'
            return none) := by
      refine unlines_baseDepth.bind fun {base _} hbase => ?_
      subst hbase
      refine actAlike_get.bind fun {m m'} hm => ?_
      rw [frames_size hm]
      split
      · exact actAlike_pure (.some hv)
      · exact (unlines_push hv).bind fun _ => actAlike_pure .none
    refine ActAlike.bind (unlines_modifyThread fun t t' ht => ?_) fun _ => ?_
    · obtain ⟨hframes, hstack, hrest⟩ := Thread.unlined_eq_iff.1 ht
      refine Thread.unlined_eq_iff.2 ⟨?_, ?_, hrest⟩
      · simp only [Array.map_pop, hframes]
      · simp only [map_shrink, hstack, hbase]
    · simp only [hboundary]
      split
      · exact unlines_uninstall.bind fun _ => hend
      · exact hend

theorem unlines_loadLocal (slot : Nat) :
    Unlines (fun _ _ => True) (loadLocal slot) (loadLocal slot) := by
  refine unlines_topFrame.bind fun {f f'} hf => ?_
  obtain ⟨_, _, hlocals, _⟩ := Frame.unlined_eq_iff.1 hf
  have hvalue : Option.Rel SameValue f.locals[slot]? f'.locals[slot]? := by
    refine (optionRel_iff_map_eq Value.unlined).2 ?_
    simpa only [Array.getElem?_map] using congrArg (·[slot]?) hlocals
  generalize f.locals[slot]? = found at hvalue
  generalize f'.locals[slot]? = found' at hvalue
  cases hvalue with
  | none => exact unlines_malformed _
  | some hv => exact unlines_push hv

theorem unlines_storeLocal (slot : Nat) :
    Unlines (fun _ _ => True) (storeLocal slot) (storeLocal slot) := by
  refine unlines_pop.bind fun {v v'} hv => ?_
  refine unlines_modifyFrame fun x y hxy => ?_
  obtain ⟨hcode, henv, hlocals, hrest⟩ := Frame.unlined_eq_iff.1 hxy
  refine Frame.unlined_eq_iff.2 ⟨hcode, henv, ?_, hrest⟩
  have hrelated : List.Forall₂ Likeness.unlined.rel x.locals.toList y.locals.toList :=
    sameValues_iff.2 (by simpa using congrArg Array.toList hlocals)
  have hset := setSlot_related hrelated slot hv
  exact Array.toList_inj.1 (by simpa using sameValues_iff.1 hset)

theorem unlines_loadCaptured (index : Nat) :
    Unlines (fun _ _ => True) (loadCaptured index) (loadCaptured index) := by
  refine (unlines_symbolConstant index).bind fun {name _} hname => ?_
  subst hname
  refine unlines_topFrame.bind fun {f f'} hf => ?_
  obtain ⟨_, henv, _⟩ := Frame.unlined_eq_iff.1 hf
  have hvalue : Option.Rel SameValue (Env.get? f.env name) (Env.get? f'.env name) :=
    Env.Related.get? (L := .unlined) (env_related_iff.2 henv) name
  generalize Env.get? f.env name = found at hvalue
  generalize Env.get? f'.env name = found' at hvalue
  cases hvalue with
  | none => exact unlines_fail _
  | some hv => exact unlines_push hv

theorem unlines_storeCaptured (index : Nat) :
    Unlines (fun _ _ => True) (storeCaptured index) (storeCaptured index) := by
  refine (unlines_symbolConstant index).bind fun {name _} hname => ?_
  subst hname
  refine unlines_pop.bind fun {v v'} hv => ?_
  refine unlines_topFrame.bind fun {f f'} hf => ?_
  obtain ⟨_, henv, _⟩ := Frame.unlined_eq_iff.1 hf
  have hset := Env.Related.set? (L := .unlined) (env_related_iff.2 henv) name hv
  generalize Env.set? f.env name v = found at hset
  generalize Env.set? f'.env name v' = found' at hset
  cases hset with
  | none => exact unlines_fail _
  | some hbound =>
    refine unlines_modifyFrame fun x y hxy => ?_
    obtain ⟨hcode, _, hrest⟩ := Frame.unlined_eq_iff.1 hxy
    exact Frame.unlined_eq_iff.2 ⟨hcode, env_related_iff.1 hbound, hrest⟩

end Exec

namespace Globals

theorem get?_unlined (g : Globals) (name : Symbol) :
    g.unlined.get? name = (g.get? name).map Value.unlined := by
  simp only [get?, unlined, Array.getElem?_map]
  cases g.slots[name.id]? with
  | none => rfl
  | some slot => rfl

theorem unlined_set (g : Globals) (name : Symbol) (v : Value) :
    (g.set name v).unlined = g.unlined.set name v.unlined := by
  simp only [set, unlined, Array.size_map]
  split
  · simp only [Array.map_setIfInBounds, Option.map_some]
  · simp only [Array.map_push, Array.map_append, Array.map_replicate, Option.map_some,
      Option.map_none]

end Globals

namespace Exec

variable {v v' : Value}

theorem unlines_loadGlobal (index : Nat) :
    Unlines (fun _ _ => True) (loadGlobal index) (loadGlobal index) := by
  refine (unlines_symbolConstant index).bind fun {name _} hname => ?_
  subst hname
  refine actAlike_get.bind fun {m m'} hm => ?_
  have hvalue : Option.Rel SameValue (m.world.globals.get? name) (m'.world.globals.get? name) := by
    refine (optionRel_iff_map_eq Value.unlined).2 ?_
    rw [← Globals.get?_unlined, ← Globals.get?_unlined]
    exact congrArg (fun m => m.world.globals.get? name) hm
  generalize m.world.globals.get? name = found at hvalue
  generalize m'.world.globals.get? name = found' at hvalue
  cases hvalue with
  | none => exact unlines_fail _
  | some hv => exact unlines_push hv

theorem unlines_storeGlobal (index : Nat) :
    Unlines (fun _ _ => True) (storeGlobal index) (storeGlobal index) := by
  refine (unlines_symbolConstant index).bind fun {name _} hname => ?_
  subst hname
  refine unlines_pop.bind fun {v v'} hv => ?_
  refine actAlike_modify fun {m m'} hm => ?_
  obtain ⟨hworld, hrest⟩ := Machine.unlined_eq_iff.1 hm
  obtain ⟨hglobals, hmore⟩ := World.unlined_eq_iff.1 hworld
  refine Machine.unlined_eq_iff.2 ⟨World.unlined_eq_iff.2 ⟨?_, hmore⟩, hrest⟩
  rw [Globals.unlined_set, Globals.unlined_set, hglobals, hv]

theorem unlines_lambda (index : Nat) :
    Unlines (fun _ _ => True) (lambda index) (lambda index) := by
  refine (unlines_constant index).bind fun {v v'} hv => ?_
  have hrefuse := unlines_refuse (R := fun _ _ : Unit => True) hv
    fun type => .invalidBytecode ("lambda operand is " ++ type ++ ", not code")
  cases v with
  | code id f =>
    cases v' with
    | code id' f' =>
      simp only [SameValue, Value.unlined_code, Value.code.injEq] at hv
      exact (unlines_makeClosure hv.2).bind fun hclosure => unlines_push hclosure
    | _ => simp [SameValue, Value.unlined] at hv
  | _ => cases Value.alike_of_unlined hv <;> exact hrefuse

theorem unlines_fieldsOf {fields fields' : List (Symbol × Value)} {vs vs' : List Value}
    (hfields : Env.Related Likeness.unlined.rel fields fields')
    (hvs : List.Forall₂ Likeness.unlined.rel vs vs') :
    Unlines (Env.Related Likeness.unlined.rel) (fieldsOf fields vs) (fieldsOf fields' vs') := by
  match vs, vs', hvs with
  | [], [], .nil => exact actAlike_pure hfields
  | [v], [v'], .cons _ .nil => cases v <;> cases v' <;> exact actAlike_pure hfields
  | key :: v :: vs, key' :: v' :: vs', .cons hkey (.cons hv hvs) =>
    have hrefuse := unlines_refuse (R := Env.Related Likeness.unlined.rel) hkey
      fun type => .invalidBytecode ("record key is " ++ type ++ ", not symbol")
    cases Likeness.unlined.view hkey with
    | flat hflat =>
      cases key with
      | symbol name =>
        have hset : Env.Related Likeness.unlined.rel (setField fields name v)
            (setField fields' name v') := hfields.define name hv
        have hrest := unlines_fieldsOf hset hvs
        exact hrest
      | _ => exact hrefuse
    | _ => exact hrefuse

theorem unlines_buildRecord (count : Nat) :
    Unlines (fun _ _ => True) (buildRecord count) (buildRecord count) := by
  refine (unlines_popMany _).bind fun hvs => ?_
  refine (unlines_fieldsOf .nil (sameValues_iff.2 hvs)).bind fun hfields => ?_
  exact unlines_push (Likeness.record hfields)

theorem unlines_getField (index : Nat) :
    Unlines (fun _ _ => True) (getField index) (getField index) := by
  refine (unlines_symbolConstant index).bind fun {name _} hname => ?_
  subst hname
  refine unlines_pop.bind fun {v v'} hv => ?_
  have hrefuse := unlines_refuse (R := fun _ _ : Unit => True) hv
    fun type => .typeError ("cannot read field '" ++ name.name ++ "' of " ++ type)
  cases Value.alike_of_unlined hv with
  | @record fields fields' hfields =>
    have hvalue : Option.Rel SameValue (Env.get? fields name) (Env.get? fields' name) :=
      Env.Related.get? (L := .unlined) hfields name
    simp only []
    generalize Env.get? fields name = found at hvalue
    generalize Env.get? fields' name = found' at hvalue
    cases hvalue with
    | none => exact unlines_fail _
    | some hv => exact unlines_push hv
  | flat hflat => cases v <;> first | exact hrefuse | cases hflat
  | _ => exact hrefuse

theorem unlines_clausesOf {done done' : List (Effect × Value)} {vs vs' : List Value}
    (hdone : unlinedEnv done = unlinedEnv done')
    (hvs : List.Forall₂ Likeness.unlined.rel vs vs') :
    Unlines (fun cs cs' => unlinedEnv cs = unlinedEnv cs') (clausesOf done vs)
      (clausesOf done' vs') := by
  have hreverse : ∀ {done done' : List (Effect × Value)}, unlinedEnv done = unlinedEnv done' →
      unlinedEnv done.reverse = unlinedEnv done'.reverse := by
    intro done done' hdone
    simp only [unlinedEnv, List.map_reverse] at hdone ⊢
    rw [hdone]
  induction vs using List.twoStepInduction generalizing done done' vs' with
  | nil =>
    cases hvs
    exact actAlike_pure (hreverse hdone)
  | singleton v =>
    obtain ⟨v', _, rfl⟩ := forall₂_singleton_left hvs
    cases v <;> cases v' <;> exact actAlike_pure (hreverse hdone)
  | cons_cons key clause rest ih =>
    obtain ⟨key', _, hkey, hmore, rfl⟩ := List.forall₂_cons_left_iff.1 hvs
    obtain ⟨clause', rest', hclause, hrest, rfl⟩ := List.forall₂_cons_left_iff.1 hmore
    have hrefuse := unlines_refuse
      (R := fun cs cs' : List (Effect × Value) => unlinedEnv cs = unlinedEnv cs') hkey
      fun type => .typeError ("handler clause expects an effect, got " ++ type)
    cases Likeness.unlined.view hkey with
    | flat hflat => cases key <;> first | exact hrefuse | cases hflat
    | @effect _ e heffect =>
      obtain rfl := heffect.eq
      have hcons : unlinedEnv ((e, clause) :: done) = unlinedEnv ((e, clause') :: done') :=
        congrArg₂ (fun v done => (e, v) :: done) hclause hdone
      have hunlines := ih hcons hrest
      exact hunlines
    | _ => exact hrefuse

theorem unlines_makeHandler (count : Nat) :
    Unlines (fun _ _ => True) (makeHandler count) (makeHandler count) := by
  refine (unlines_popMany _).bind fun hvs => ?_
  refine (unlines_clausesOf rfl (sameValues_iff.2 hvs)).bind fun {cs cs'} hclauses => ?_
  refine unlines_draw.bind fun {id _} hid => ?_
  subst hid
  refine unlines_push ?_
  simp only [SameValue, Value.unlined_handler, hclauses]

theorem unlines_handle : Unlines (fun _ _ => True) handle handle := by
  refine unlines_pop.bind fun hbody => ?_
  refine unlines_pop.bind fun {v v'} hv => ?_
  have hrefuse := unlines_refuse (R := fun _ _ : Unit => True) hv
    fun type => .invalidBytecode ("handle expects a handler, got " ++ type)
  cases v with
  | handler id clauses =>
    cases v' with
    | handler id' clauses' =>
      simp only [SameValue, Value.unlined_handler, Value.handler.injEq] at hv
      exact unlines_install hv.2 hbody
    | _ => simp [SameValue, Value.unlined] at hv
  | _ => cases Value.alike_of_unlined hv <;> exact hrefuse

theorem unlines_callTop (count line line' : Nat) (tail : Bool) :
    Unlines (fun _ _ => True) (callTop count line tail) (callTop count line' tail) := by
  refine unlines_pop.bind fun hcallee => ?_
  refine (unlines_popMany _).bind fun hargs => ?_
  exact unlines_call hcallee hargs _ _ _

/-- Instructions do alike, whatever their lines. -/
theorem unlines_execute {i i' : Fetched} (hi : i.Same i') :
    Unlines (Option.Rel SameValue) (execute i) (execute i') := by
  obtain ⟨op, operand, start, line⟩ := i
  obtain ⟨op', operand', start', line'⟩ := i'
  obtain ⟨rfl, rfl, rfl⟩ := hi
  have hnone : ∀ {x y : Exec Unit}, Unlines (fun _ _ => True) x y →
      Unlines (Option.Rel SameValue) (do x; return none) (do y; return none) :=
    fun h => h.bind fun _ => actAlike_pure .none
  cases op with
  | ret => exact unlines_returnValue
  | call => exact hnone (unlines_callTop _ _ _ _)
  | tailCall => exact hnone (unlines_callTop _ _ _ _)
  | jump => exact hnone (unlines_jumpTo _)
  | jumpIfFalse =>
    refine unlines_pop.bind fun {v v'} hv => ?_
    rw [Likeness.isTruthy_eq (L := .unlined) hv]
    split
    · exact actAlike_pure .none
    · exact hnone (unlines_jumpTo _)
  | constant | constantWide =>
    exact (unlines_constant _).bind fun hv => hnone (unlines_push hv)
  | pushNone => exact hnone (unlines_push rfl)
  | pop => exact unlines_pop.bind fun _ => actAlike_pure .none
  | loadLocal | loadLocalWide => exact hnone (unlines_loadLocal _)
  | storeLocal | storeLocalWide => exact hnone (unlines_storeLocal _)
  | loadCaptured | loadCapturedWide => exact hnone (unlines_loadCaptured _)
  | storeCaptured | storeCapturedWide => exact hnone (unlines_storeCaptured _)
  | loadGlobal | loadGlobalWide => exact hnone (unlines_loadGlobal _)
  | storeGlobal | storeGlobalWide => exact hnone (unlines_storeGlobal _)
  | lambda | lambdaWide => exact hnone (unlines_lambda _)
  | buildList =>
    exact (unlines_popMany _).bind fun hvs =>
      hnone (unlines_push (Likeness.list (sameValues_iff.2 hvs)))
  | buildTuple =>
    exact (unlines_popMany _).bind fun hvs =>
      hnone (unlines_push (Likeness.tuple (sameValues_iff.2 hvs)))
  | buildRecord => exact hnone (unlines_buildRecord _)
  | getField | getFieldWide => exact hnone (unlines_getField _)
  | makeHandler => exact hnone (unlines_makeHandler _)
  | handle => exact hnone unlines_handle

end Exec

end Resumable
