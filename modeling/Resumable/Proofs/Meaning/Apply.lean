import Resumable.Proofs.Library.Sound
import Resumable.Proofs.Meaning.Means

/-!
Applying a value comes to the same as applying what the value means.
-/

namespace Resumable

namespace Meaning

/-- What a call of a value comes to, and what a call of what it means comes to. -/
inductive Application.Means (μ : Memory) : Application → Transfer → Prop
  | returned {v v' : Value} (hv : Meaning.Means μ v v') : Means μ (.returned v) (.returned v')
  | spawn {task task' : Value} (htask : Meaning.Means μ task task') :
    Means μ (.spawn task) (.requested (.spawn task'))
  | enter {id : Nat} {f f' : Code Value} {env env' : List (Symbol × Value)} {args args' : List Value}
    (hcallee : Meaning.Means μ (.closure id f env) (.closure id f' env'))
    (hargs : List.Forall₂ (Meaning.Means μ) args args') (hlength : args.length = f.arity) :
    Means μ (.enter id (.closure id f env) args) (.enter (.closure id f' env') f' env' args')
  | raise {effect : Effect} {payload payload' : Value} (hpayload : Meaning.Means μ payload payload') :
    Means μ (.raise effect payload) (.raise effect payload')
  | resume {id : Nat} {k k' : Continuation Value} {v v' : Value}
    (hk : Meaning.Means μ (.continuation id k) (.continuation id k'))
    (hv : Meaning.Means μ v v') : Means μ (.resume id v) (.resume k' v')

/-- Two applications come to the same, and what they do to the shared states is the same. No number is
given back. -/
inductive Applies (μ : Memory) (w : World) (m : Machine) :
    EStateM.Result RuntimeError World Application → EStateM.Result Stop Machine Transfer → Prop
  | ok {t : Application} {t' : Transfer} {w₁ w₁' : World} (ht : t.Means μ t')
    (hw : w₁.Related (meaning μ) w₁') (honward : w.Onward w₁) :
    Applies μ w m (.ok t w₁) (.ok t' { m with world := w₁' })
  | error {e : RuntimeError} {w₁ w₁' : World} (hw : w₁.Related (meaning μ) w₁')
    (honward : w.Onward w₁) :
    Applies μ w m (.error e w₁) (.error (.error e) { m with world := w₁' })

variable {μ : Memory} {w : World} {m : Machine} {callee callee' : Value} {args args' : List Value}

theorem draw_onward (w : World) : w.Onward w.draw.2 :=
  .of_tasks rfl (Nat.le_succ _)

theorem withArity_applies (hw : w.Related (meaning μ) m.world) (hcallee : Means μ callee callee')
    (hargs : List.Forall₂ (Means μ) args args') (name : String) {arity : Nat}
    {full : Act Application} {full' : Exec Transfer}
    (hfull : args.length = arity → Applies μ w m (full w) (full' m)) :
    Applies μ w m (Application.withArity callee name arity args full w)
      (Exec.withArity callee' name arity args' full' m) := by
  rw [Application.withArity, Exec.withArity, ← hargs.length_eq]
  by_cases hfew : args.length < arity
  · obtain ⟨hid, hdrawn⟩ := hw.draw_eq rfl
    have hrun : Application.applied callee args w =
        .ok (.returned (.applied w.draw.1 callee args)) w.draw.2 := rfl
    have hrun' : Exec.applied callee' args' m =
        .ok (.returned (.applied m.world.draw.1 callee' args')) { m with world := m.world.draw.2 } :=
      rfl
    rw [if_pos hfew, if_pos hfew, hrun, hrun', hid]
    exact .ok (.returned ((meaning μ).applied rfl hcallee hargs)) hdrawn (draw_onward w)
  · rw [if_neg hfew, if_neg hfew]
    by_cases hmany : arity < args.length
    · rw [if_pos hmany, if_pos hmany]
      exact .error hw (.refl w)
    · rw [if_neg hmany, if_neg hmany]
      exact hfull (by omega)

/-- A function of the machine that asks for nothing but a task. -/
theorem ofReply_applies {f : Native} (hf : ∀ h, f ≠ .hook h) (name : String)
    (hw : w.Related (meaning μ) m.world) (hargs : List.Forall₂ (Means μ) args args') :
    Applies μ w m ((f.invoke name args >>= Application.ofReply) w)
      (Exec.ofReply m (f.invoke name args' m.world)) := by
  have hagree := Native.invoke_related (L := meaning μ) f name (Or.inl rfl) hw hargs
  have honward := Native.invoke_onward (f := f) (fun h heq => (hf h heq : False)) name args w
  generalize hr : f.invoke name args w = r at hagree honward
  generalize f.invoke name args' m.world = r' at hagree
  cases hagree with
  | ok hreply hw =>
    rw [bind_of_ok hr]
    cases hreply with
    | value hv => exact .ok (.returned hv) hw honward
    | spawn hcallee => exact .ok (.spawn hcallee) hw honward
    | call =>
      obtain ⟨h, heq⟩ := Native.mayReply_of_invoke hr
      exact absurd heq (hf h)
    | depth => exact absurd (Native.mayReply_of_invoke hr) (hf _)
  | error hw =>
    rw [bind_of_error hr]
    exact .error hw honward

/-- Calls of a value, before anything else is done, come to what calls of its meaning come to. -/
theorem apply_applies (hw : w.Related (meaning μ) m.world) (hcallee : Means μ callee callee')
    (hargs : List.Forall₂ (Means μ) args args') :
    Applies μ w m (Application.apply callee args w) (Exec.apply callee' args' m) := by
  obtain ⟨hcallee, hargs⟩ := Likeness.unapply_related (L := meaning μ) hcallee hargs
  unfold Application.apply Application.applyTo Exec.apply
  generalize callee.unapply args = f at hcallee hargs
  generalize callee'.unapply args' = f' at hcallee hargs
  obtain ⟨f, args⟩ := f
  obtain ⟨f', args'⟩ := f'
  simp only at hcallee hargs
  have hview := hcallee.unfold.alike
  have hinner := hcallee.unfold.inner
  have hrefuse : Applies μ w m
      (.error (.notCallable (f.typeName ++ " is not callable")) w)
      (.error (.error (.notCallable (f'.typeName ++ " is not callable"))) m) := by
    rw [Likeness.typeName_eq (L := meaning μ) hcallee]
    exact .error hw (.refl w)
  cases f with
  | closure id f env =>
    cases hview with
    | flat hflat => cases hflat
    | closure hid hname hparams =>
      obtain rfl := hid
      simp only [hname, Code.arity, hparams]
      exact withArity_applies hw hcallee hargs _ fun hlength =>
        .ok (.enter hcallee hargs hlength) hw (.refl w)
  | native id name arity function =>
    cases hview with
    | flat hflat => cases hflat
    | native =>
      refine withArity_applies hw hcallee hargs name fun _ => ?_
      have happlies := ofReply_applies hinner name hw hargs
      rw [← Exec.native_run] at happlies
      exact happlies
  | effect e =>
    cases hview with
    | flat hflat => cases hflat
    | @effect _ e heffect =>
      obtain rfl := heffect.eq
      cases hargs with
      | nil => exact withArity_applies hw hcallee .nil e.name fun hlength => by cases hlength
      | cons hpayload hmore =>
        cases hmore with
        | nil => exact .ok (.raise hpayload) hw (.refl w)
        | cons hsecond hmore =>
          exact withArity_applies hw hcallee (.cons hpayload (.cons hsecond hmore)) e.name
            fun hlength => by cases hlength
  | continuation id k =>
    cases hview with
    | flat hflat => cases hflat
    | continuation hid =>
      obtain rfl := hid
      cases hargs with
      | nil => exact withArity_applies hw hcallee .nil "continuation" fun hlength => by cases hlength
      | cons hv hmore =>
        cases hmore with
        | nil => exact .ok (.resume hcallee hv) hw (.refl w)
        | cons hsecond hmore =>
          exact withArity_applies hw hcallee (.cons hv (.cons hsecond hmore)) "continuation"
            fun hlength => by cases hlength
  | _ => cases hview <;> exact hrefuse

end Meaning

end Resumable
