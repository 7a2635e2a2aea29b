import Resumable.Proofs.Machine.Sound
import Resumable.Proofs.Meaning.Locals

/-!
What is there at the start of a function, of a choice and of a handled body. The parameters have the
first slots, and the name of the function itself has the next.
-/

namespace Resumable

namespace Activation

variable {closure : Value} {f : Code Value} {env : Env Value} {args : List Value}
  {bound : Option (List (Effect × Value) × Nat)}

theorem getElem?_enter {i : Nat} (hlength : args.length = f.params.length) (hi : i < args.length) :
    (enter closure f env args bound).locals[i]? = args[i]? := by
  have hslot : (args.toArray ++ Array.replicate (max f.localCount args.length - args.length)
      Value.none)[i]? = args[i]? := by
    rw [Array.getElem?_append_left (by simpa using hi), List.getElem?_toArray]
  simp only [enter, Frame.enter]
  cases f.selfName with
  | none => exact hslot
  | some n => rw [Array.getElem?_setIfInBounds_ne (by omega), hslot]

theorem getElem?_enter_self {n : Symbol} (hself : f.selfName = some n)
    (hroom : f.params.length < f.localCount) :
    (enter closure f env args bound).locals[f.params.length]? = some closure := by
  have hsize := size_locals_enter closure f env args bound
  simp only [enter, Frame.enter, hself, Array.size_setIfInBounds] at hsize ⊢
  rw [Array.getElem?_setIfInBounds_self_of_lt]
  omega

/-- A function that has no name for itself does not see itself. -/
theorem locals_enter_congr (hself : f.selfName = none) (closure' : Value) :
    (enter closure f env args bound).locals = (enter closure' f env args bound).locals := by
  simp only [enter, Frame.enter, hself]

end Activation

namespace Lexical

variable {Γ : Lexical} {f : Code Value}

@[simp]
theorem outer_bodyOf : (Γ.bodyOf f).outer = Γ.locals :: Γ.outer :=
  outer_declaredAll _ _

theorem length_locals_bodyOf :
    (Γ.bodyOf f).locals.length = f.params.length + f.selfName.toList.length := by
  rw [bodyOf, length_declaredAll, List.length_append]
  simp [entered]

/-- The locals at the start of a function of two parameters without a name. -/
theorem locals_bodyOf_two {s t : Symbol} (hparams : f.params = [s, t]) (hself : f.selfName = none) :
    (Γ.bodyOf f).locals = [⟨t, 1, 1⟩, ⟨s, 1, 0⟩] := by
  rw [bodyOf, hparams, hself]
  rfl

end Lexical

namespace Meaning

variable {μ : Memory} {G : Ground} {Γ : Lexical} {f : Code Value} {env : Env Value}

/-- Every slot at the start of a function holds a value that means something. -/
theorem stocked_enter {callee closure : Value} {args args' : List Value}
    {bound : Option (List (Effect × Value) × Nat)} (hcallee : Means μ callee closure)
    (hargs : List.Forall₂ (Means μ) args args') (i : Nat) (w : Value)
    (hw : (Activation.enter closure f env args' bound).locals[i]? = some w) :
    ∃ v, Means μ v w := by
  have hslots := getElem?_locals_related
    (@enter_locals_related (meaning μ) callee closure f f env env args args' bound bound
      rfl rfl rfl hcallee hargs) i
  rw [hw] at hslots
  generalize (Activation.enter callee f env args bound).locals[i]? = found at hslots
  cases hslots with
  | some hrel => exact ⟨_, hrel⟩

theorem stocked_enter_of_unnamed {closure : Value} {args args' : List Value}
    {bound : Option (List (Effect × Value) × Nat)} (hself : f.selfName = none)
    (hargs : List.Forall₂ (Means μ) args args') (i : Nat) (w : Value)
    (hw : (Activation.enter closure f env args' bound).locals[i]? = some w) :
    ∃ v, Means μ v w := by
  rw [Activation.locals_enter_congr hself .none] at hw
  exact stocked_enter ((meaning μ).flat rfl) hargs i w hw

/-- The slots at the start of a function. -/
theorem FunctionIn.holds {F : Function} {callee closure : Value} {args args' : List Value}
    {bound : Option (List (Effect × Value) × Nat)} (h : FunctionIn (Means μ) G Γ F f env)
    (hcallee : Means μ callee closure) (hargs : List.Forall₂ (Means μ) args args')
    (hlength : args.length = F.params.length) :
    Holds (Means μ) G none f (Γ.bodyOf f) (Activation.enter closure f env args' bound).locals
      (F.locals callee args) := by
  have hlength' : args'.length = f.params.length := by rw [h.params, ← hlength, hargs.length_eq]
  have hstart : Holds (Means μ) G none f Γ.entered
      (Activation.enter closure f env args' bound).locals [] := by
    refine ⟨Nat.zero_le _, ?_, trivial, .nil, stocked_enter hcallee hargs, nofun, nofun, nofun⟩
    rw [Activation.size_locals_enter]
    exact Nat.le_max_left _ _
  have hvalues : F.locals callee args =
      ((f.params ++ f.selfName.toList).zip (args ++ f.selfName.toList.map fun _ => callee)).reverse := by
    rw [List.zip_append (by rw [h.params, hlength]), List.reverse_append, Function.locals, h.params,
      h.selfName]
    cases F.selfName <;> rfl
  rw [hvalues, ← List.append_nil (List.reverse _)]
  refine hstart.bind_all ?_ h.shown ?_ ?_
  · rw [List.length_append, List.length_append, List.length_map, h.params, hlength]
  · rw [← Lexical.bodyOf, Lexical.length_locals_bodyOf]
    exact h.room
  · intro i v hv
    rw [show Γ.entered.locals.length + i = i by simp [Lexical.entered]]
    obtain hi | hi := Nat.lt_or_ge i args.length
    · rw [List.getElem?_append_left hi] at hv
      have hrel := Likeness.getElem?_related hargs i
      rw [hv] at hrel
      rw [Activation.getElem?_enter hlength' (by rw [← hargs.length_eq]; exact hi)]
      generalize args'[i]? = found at hrel
      cases hrel with
      | some hrel => exact ⟨_, rfl, hrel⟩
    · rw [List.getElem?_append_right hi] at hv
      have hroom := h.room
      cases hself : f.selfName with
      | none =>
        rw [hself] at hv
        cases hv
      | some n =>
        rw [hself] at hv hroom
        obtain ⟨hlt, rfl⟩ := List.getElem?_eq_some_iff.1 hv
        simp only [Option.toList_some, List.map_cons, List.map_nil, List.length_singleton] at hlt hroom
        obtain rfl : i = f.params.length := by rw [h.params, ← hlength]; omega
        refine ⟨closure, Activation.getElem?_enter_self hself (by omega), ?_⟩
        simpa using hcallee

/-- The slots where a choice is made. -/
theorem ChoiceIn.holds {p : PathFunction} {r : Raised} {effect : Effect} {closure payload k : Value}
    {bound : Option (List (Effect × Value) × Nat)}
    (h : ChoiceIn (Means μ) G Γ p r.choice effect f env) (hpayload : Means μ r.payload payload)
    (hk : Means μ r.k k) :
    Holds (Means μ) G (some (r, p)) f (Γ.bodyOf f)
      (Activation.enter closure f env [payload, k] bound).locals [] := by
  obtain ⟨s, t, hs, ht, hparams⟩ := h.params
  have hlocals : (Γ.bodyOf f).locals = [⟨t, 1, 1⟩, ⟨s, 1, 0⟩] :=
    Lexical.locals_bodyOf_two hparams h.selfName
  have hbased : Based G p (Γ.bodyOf f).locals := h.tries.based
  have hslot : ∀ i, i < 2 → (Activation.enter closure f env [payload, k] bound).locals[i]? =
      [payload, k][i]? := fun i hi =>
    Activation.getElem?_enter (by rw [hparams]; rfl) hi
  refine ⟨?_, ?_, ?_, ?_, stocked_enter_of_unnamed h.selfName (.cons hpayload (.cons hk .nil)), ?_,
    ?_, ?_⟩
  · rw [hlocals]
    exact h.room
  · rw [Activation.size_locals_enter]
    exact Nat.le_max_left _ _
  · rw [hlocals]
    exact ⟨rfl, rfl, trivial⟩
  · rw [hbased.shown_eq]
    exact .nil
  · rintro _ _ ⟨⟩
    exact ⟨_, hbased, List.suffix_refl _⟩
  · rintro _ _ ⟨⟩
    exact ⟨payload, hslot 0 (by omega), hpayload⟩
  · rintro _ _ ⟨⟩
    exact ⟨k, hslot 1 (by omega), hk⟩

/-- The slots at the start of a handled body. -/
theorem holds_body {closure : Value} {bound : Option (List (Effect × Value) × Nat)}
    (hparams : f.params = []) (hself : f.selfName = none) :
    Holds (Means μ) G none f (Γ.bodyOf f) (Activation.enter closure f env [] bound).locals [] := by
  have hlocals : (Γ.bodyOf f).locals = [] := by
    rw [Lexical.bodyOf, hparams, hself]
    rfl
  refine ⟨?_, ?_, ?_, ?_, stocked_enter_of_unnamed hself .nil, by simp, by simp, by simp⟩
  · rw [hlocals]
    exact Nat.zero_le _
  · rw [Activation.size_locals_enter]
    exact Nat.le_max_left _ _
  · rw [hlocals]
    trivial
  · rw [hlocals]
    exact .nil

end Meaning

end Resumable
