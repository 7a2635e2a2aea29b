import Resumable.Proofs.Library.Sound
import Resumable.Proofs.Value.Likeness

/-!
Functions of the library cannot tell values apart that look the same: from related arguments and
shared states they come to related results, and to the same failures.
-/

namespace Resumable

variable {L : Likeness}

theorem OutcomesRelated.bind {α α' β β' : Type} {R : α → α' → Prop} {Q : β → β' → Prop}
    {x : Except RuntimeError α} {x' : Except RuntimeError α'} {f : α → Except RuntimeError β}
    {f' : α' → Except RuntimeError β'} (hx : OutcomesRelated R x x')
    (hf : ∀ a a', R a a' → OutcomesRelated Q (f a) (f' a')) :
    OutcomesRelated Q (x >>= f) (x' >>= f') := by
  cases x with
  | ok a =>
    cases x' with
    | ok a' => exact hf a a' hx
    | error e => exact hx.elim
  | error e =>
    cases x' with
    | ok a' => exact hx.elim
    | error e' => exact hx

theorem OutcomesRelated.of_eq {α : Type} {x x' : Except RuntimeError α} (hsame : x' = x) :
    OutcomesRelated Eq x x' := by
  subst hsame
  cases x' <;> rfl

namespace Value

variable {v v' w w' : Value}

theorem expectInt_related (function : String) (hv : L.rel v v') :
    OutcomesRelated Eq (v.expectInt function) (v'.expectInt function) := by
  cases L.view hv with
  | flat => exact .of_eq rfl
  | _ => rfl

theorem expectStr_related (function : String) (hv : L.rel v v') :
    OutcomesRelated Eq (v.expectStr function) (v'.expectStr function) := by
  cases L.view hv with
  | flat => exact .of_eq rfl
  | _ => rfl

theorem expectNumber_related (function : String) (hv : L.rel v v') :
    OutcomesRelated Eq (v.expectNumber function) (v'.expectNumber function) := by
  cases L.view hv with
  | flat => exact .of_eq rfl
  | _ => rfl

theorem expectItems_related (function : String) (hv : L.rel v v') :
    OutcomesRelated (List.Forall₂ L.rel) (v.expectItems function) (v'.expectItems function) := by
  cases L.view hv with
  | list hitems => exact hitems
  | tuple hitems => exact hitems
  | flat hflat => cases v <;> first | rfl | cases hflat
  | _ => rfl

theorem compare_eq (hv : L.rel v v') (hw : L.rel w w') : v'.compare w' = v.compare w := by
  cases L.view hv with
  | flat =>
    cases L.view hw with
    | flat => rfl
    | _ => cases v <;> rfl
  | _ =>
    cases L.view hw with
    | flat => cases w <;> rfl
    | _ => rfl

end Value

namespace Library

variable {v v' w w' : Value}

theorem numbers_eq (op : Arithmetic) (hv : L.rel v v') (hw : L.rel w w') :
    op.numbers v' w' = op.numbers v w := by
  cases L.view hv with
  | flat =>
    cases L.view hw with
    | flat => rfl
    | _ => cases v <;> rfl
  | _ =>
    cases L.view hw with
    | flat => cases w <;> rfl
    | _ => rfl

theorem numbers_related (op : Arithmetic) (hv : L.rel v v') (hw : L.rel w w') :
    OutcomesRelated L.rel (op.numbers v w) (op.numbers v' w') := by
  rw [numbers_eq op hv hw]
  unfold Arithmetic.numbers
  split
  next a b =>
    cases op.ints a b with
    | ok n => exact L.flat rfl
    | error e => rfl
  next => exact L.flat rfl
  next => exact L.flat rfl
  next => exact L.flat rfl
  next => rfl

/-- A sum is one of numbers unless it joins two texts or two lists. -/
theorem values_related (op : Arithmetic) (hv : L.rel v v') (hw : L.rel w w') :
    OutcomesRelated L.rel (op.values v w) (op.values v' w') := by
  have hnumbers := numbers_related op hv hw
  cases op with
  | add =>
    cases L.view hv with
    | list hitems =>
      cases L.view hw with
      | list hitems' => exact L.list (List.rel_append hitems hitems')
      | flat hflat => cases w <;> first | exact hnumbers | cases hflat
      | _ => exact hnumbers
    | flat hflat =>
      cases L.view hw with
      | flat hflat' =>
        cases v <;> first | exact hnumbers | cases hflat
        cases w <;> first | exact hnumbers | exact L.flat (v := .str _) rfl
      | _ => cases v <;> first | exact hnumbers | cases hflat
    | _ =>
      cases L.view hw with
      | flat => cases w <;> exact hnumbers
      | _ => exact hnumbers
  | _ => exact hnumbers

theorem onInts_related (op : Arithmetic) (hv : L.rel v v') (hw : L.rel w w') :
    OutcomesRelated L.rel (op.onInts v w) (op.onInts v' w') := by
  refine (Value.expectInt_related _ hv).bind fun a _ h => ?_
  refine (Value.expectInt_related _ hw).bind fun b _ h' => ?_
  subst h h'
  exact (OutcomesRelated.of_eq rfl).bind fun n _ _ => by subst_vars; exact L.flat rfl

theorem test_related (test : Comparison) (hv : L.rel v v') (hw : L.rel w w') :
    OutcomesRelated L.rel ((v.compare w).map fun o => .bool (test.holds o))
      ((v'.compare w').map fun o => .bool (test.holds o)) := by
  rw [Value.compare_eq hv hw]
  cases v.compare w with
  | ok o => exact L.flat rfl
  | error e => rfl

theorem negate_related (hv : L.rel v v') : OutcomesRelated L.rel (negate v) (negate v') := by
  cases L.view hv with
  | flat => cases v <;> first | exact L.flat rfl | rfl
  | _ => rfl

theorem length_related (hv : L.rel v v') : OutcomesRelated L.rel (length v) (length v') := by
  cases L.view hv with
  | flat => cases v <;> first | exact L.flat rfl | rfl
  | list hitems =>
    simp only [length, hitems.length_eq]
    exact L.flat rfl
  | tuple hitems =>
    simp only [length, hitems.length_eq]
    exact L.flat rfl
  | record hfields =>
    simp only [length, hfields.length_eq]
    exact L.flat rfl
  | _ => rfl

theorem item_related {items items' : List Value} (hitems : List.Forall₂ L.rel items items')
    (index : Int64) :
    OutcomesRelated L.rel
      (do let i ← checkIndex index items.length; return items[i]?.getD .none)
      (do let i ← checkIndex index items'.length; return items'[i]?.getD .none) := by
  rw [hitems.length_eq]
  refine (OutcomesRelated.of_eq rfl).bind fun i _ h => ?_
  subst h
  exact Likeness.getD_related (Likeness.getElem?_related hitems i)

theorem get_related (hv : L.rel v v') (hw : L.rel w w') :
    OutcomesRelated L.rel (get v w) (get v' w') := by
  refine (Value.expectInt_related _ hw).bind fun index _ h => ?_
  subst h
  cases L.view hv with
  | list hitems => exact item_related hitems index
  | tuple hitems => exact item_related hitems index
  | flat hflat =>
    cases v with
    | str s =>
      refine (OutcomesRelated.of_eq rfl).bind fun i _ h => ?_
      subst h
      cases s.toList[i]? <;> exact L.flat rfl
    | _ => first | rfl | cases hflat
  | _ => rfl

theorem push_related (hv : L.rel v v') (hw : L.rel w w') :
    OutcomesRelated L.rel (push v w) (push v' w') :=
  (Value.expectItems_related _ hv).bind fun _ _ hitems =>
    L.list (List.rel_append hitems (.cons hw .nil))

theorem head_related (hv : L.rel v v') : OutcomesRelated L.rel (head v) (head v') := by
  refine (Value.expectItems_related _ hv).bind fun items items' hitems => ?_
  cases hitems with
  | nil => rfl
  | cons hfirst _ => exact hfirst

theorem tail_related (hv : L.rel v v') : OutcomesRelated L.rel (tail v) (tail v') := by
  refine (Value.expectItems_related _ hv).bind fun items items' hitems => ?_
  cases hitems with
  | nil => rfl
  | cons _ hrest => exact L.list hrest

/-- Lists of data without parts. -/
theorem map_related {α : Type} {f : α → Value} (hsimple : ∀ a, (f a).isSimple = true) (as : List α) :
    L.rel (.list (as.map f)) (.list (as.map f)) := by
  refine L.list ?_
  induction as with
  | nil => exact .nil
  | cons a as ih => exact .cons (L.flat (hsimple a)) ih

theorem range_related (hv : L.rel v v') (hw : L.rel w w') :
    OutcomesRelated L.rel (range v w) (range v' w') := by
  refine (Value.expectInt_related _ hv).bind fun a _ h => ?_
  refine (Value.expectInt_related _ hw).bind fun b _ h' => ?_
  subst h h'
  exact map_related (fun _ => rfl) _

theorem fieldOf_related (hv : L.rel v v') (hw : L.rel w w') :
    OutcomesRelated L.rel (fieldOf v w) (fieldOf v' w') := by
  refine (Value.expectStr_related _ hw).bind fun name _ h => ?_
  subst h
  cases L.view hv with
  | record hfields =>
    clear hv
    simp only []
    induction hfields with
    | nil => rfl
    | @cons f f' fields fields' hfirst _ ih =>
      simp only [List.find?_cons, ← hfirst.1]
      cases f.1.name == name with
      | true => exact hfirst.2
      | false => exact ih
  | flat hflat => cases v <;> first | rfl | cases hflat
  | _ => rfl

theorem sqrt_related (hv : L.rel v v') : OutcomesRelated L.rel (sqrt v) (sqrt v') :=
  (Value.expectNumber_related _ hv).bind fun _ _ h => h ▸ L.flat rfl

theorem absolute_related (hv : L.rel v v') : OutcomesRelated L.rel (absolute v) (absolute v') := by
  cases L.view hv with
  | flat => cases v <;> first | exact L.flat rfl | rfl
  | _ => rfl

theorem rounded_related (function : String) (round : Number.Dyadic → Int) (hv : L.rel v v') :
    OutcomesRelated L.rel (rounded function round v) (rounded function round v') := by
  cases L.view hv with
  | flat => cases v <;> first | exact L.flat rfl | rfl
  | _ => rfl

theorem pow_related (hv : L.rel v v') (hw : L.rel w w') :
    OutcomesRelated L.rel (pow v w) (pow v' w') := by
  have hfloats : OutcomesRelated L.rel
      (do
        let base ← v.expectNumber "pow"
        let exponent ← w.expectNumber "pow"
        return .float (base.pow exponent))
      (do
        let base ← v'.expectNumber "pow"
        let exponent ← w'.expectNumber "pow"
        return .float (base.pow exponent)) := by
    refine (Value.expectNumber_related _ hv).bind fun x _ h => ?_
    refine (Value.expectNumber_related _ hw).bind fun y _ h' => ?_
    subst h h'
    exact L.flat rfl
  cases L.view hv with
  | flat =>
    cases L.view hw with
    | flat =>
      cases v <;> first | exact hfloats | skip
      cases w <;> first | exact hfloats | skip
      simp only [pow]
      split
      · exact L.flat rfl
      · exact hfloats
    | _ => cases v <;> exact hfloats
  | _ => exact hfloats

theorem mapText_related (function : String) (f : String → String) (hv : L.rel v v') :
    OutcomesRelated L.rel (mapText function f v) (mapText function f v') :=
  (Value.expectStr_related _ hv).bind fun _ _ h => h ▸ L.flat rfl

theorem split_related (hv : L.rel v v') (hw : L.rel w w') :
    OutcomesRelated L.rel (split v w) (split v' w') := by
  refine (Value.expectStr_related _ hv).bind fun s _ h => ?_
  refine (Value.expectStr_related _ hw).bind fun separator _ h' => ?_
  subst h h'
  split
  · rfl
  · exact map_related (fun _ => rfl) _

theorem contains_related (hv : L.rel v v') (hw : L.rel w w') :
    OutcomesRelated L.rel (contains v w) (contains v' w') := by
  refine (Value.expectStr_related _ hv).bind fun s _ h => ?_
  refine (Value.expectStr_related _ hw).bind fun key _ h' => ?_
  subst h h'
  exact L.flat rfl

theorem pick_related (function : String) (keep : Float → Float → Bool) (hv : L.rel v v')
    (hw : L.rel w w') :
    OutcomesRelated L.rel (pick function keep v w) (pick function keep v' w') := by
  refine (Value.expectNumber_related _ hv).bind fun x _ h => ?_
  refine (Value.expectNumber_related _ hw).bind fun y _ h' => ?_
  subst h h'
  change L.rel (if keep x y = true then v else w) (if keep x y = true then v' else w')
  split
  · exact hv
  · exact hw

end Library

/-- Replies with related values. -/
inductive Reply.Related (L : Likeness) : Reply → Reply → Prop
  | value {v v' : Value} (hv : L.rel v v') : Related L (.value v) (.value v')
  | call {mode : CallMode} {callee callee' : Value} {args args' : List Value}
    (hcallee : L.rel callee callee') (hargs : List.Forall₂ L.rel args args') :
    Related L (.call mode callee args) (.call mode callee' args')
  | spawn {callee callee' : Value} (hcallee : L.rel callee callee') :
    Related L (.spawn callee) (.spawn callee')
  | depth : Related L .depth .depth

namespace Act

/-- What two calls of a function come to: related replies or the same failure, and related shared
states. -/
inductive Agree (L : Likeness) : EStateM.Result RuntimeError World Reply →
    EStateM.Result RuntimeError World Reply → Prop
  | ok {reply reply' : Reply} {w w' : World} (hreply : reply.Related L reply')
    (hw : w.Related L w') : Agree L (.ok reply w) (.ok reply' w')
  | error {e : RuntimeError} {w w' : World} (hw : w.Related L w') :
    Agree L (.error e w) (.error e w')

variable {w w' : World} {v v' u u' : Value} {args args' : List Value}

theorem agree_plain (hw : w.Related L w') {v : Value} (hsimple : v.isSimple = true) :
    Agree L (.ok (.value v) w) (.ok (.value v) w') :=
  .ok (.value (L.flat hsimple)) hw

theorem agree_ofExcept {x x' : Except RuntimeError Value} (hw : w.Related L w')
    (hx : OutcomesRelated L.rel x x') : Agree L (ofExcept x w) (ofExcept x' w') := by
  cases x with
  | ok v =>
    cases x' with
    | ok v' => exact .ok (.value hx) hw
    | error e => exact hx.elim
  | error e =>
    cases x' with
    | ok v' => exact hx.elim
    | error e' =>
      obtain rfl : e' = e := hx
      exact .error hw

theorem text_run (v : Value) (w : World) : text v w = .ok (w.render v) w :=
  rfl

theorem agree_makeCell (hw : w.Related L w') (hv : L.rel v v') :
    Agree L (makeCell v w) (makeCell v' w') := by
  have hsize : w'.cells.size = w.cells.size := by
    have hlength := hw.cells.length_eq
    simpa using hlength.symm
  simp only [makeCell, modifyGet_run, World.newCell, hsize]
  refine .ok (.value (L.flat rfl)) ⟨hw.globals, ?_, hw.supply, hw.output,
    fun hwhole => (hw.rest hwhole).congr rfl rfl⟩
  simp only [Array.toList_push]
  exact List.rel_append hw.cells (.cons hv .nil)

theorem agree_contentOf (hw : w.Related L w') (hv : L.rel v v') :
    Agree L (contentOf v w) (contentOf v' w') := by
  cases L.view hv with
  | flat hflat =>
    cases v with
    | cell id =>
      have hcontent := Likeness.getD_related (Likeness.getElem?_related hw.cells id)
      rw [Array.getElem?_toList, Array.getElem?_toList] at hcontent
      exact .ok (.value hcontent) hw
    | _ => exact .error hw
  | _ => exact .error hw

theorem forall₂_set {R : Value → Value → Prop} {xs ys : List Value} (hrel : List.Forall₂ R xs ys)
    (hv : R v v') (i : Nat) : List.Forall₂ R (xs.set i v) (ys.set i v') := by
  induction hrel generalizing i with
  | nil => exact .nil
  | cons hfirst hrest ih =>
    cases i with
    | zero => exact .cons hv hrest
    | succ i => exact .cons hfirst (ih i)

theorem agree_setContent (hw : w.Related L w') (hv : L.rel v v') (hu : L.rel u u') :
    Agree L (setContent v u w) (setContent v' u' w') := by
  cases L.view hv with
  | flat hflat =>
    cases v with
    | cell id =>
      simp only [setContent]
      rw [bind_of_ok (modify_run _ _), bind_of_ok (modify_run _ _)]
      refine .ok (.value (L.flat rfl)) ⟨hw.globals, ?_, hw.supply, hw.output,
        fun hwhole => (hw.rest hwhole).congr rfl rfl⟩
      simp only [Array.toList_setIfInBounds]
      exact forall₂_set hw.cells hu id
    | _ => exact .error hw
  | _ => exact .error hw

theorem agree_makeEffect (hw : w.Related L w') (hv : L.rel v v') :
    Agree L (makeEffect v w) (makeEffect v' w') := by
  cases L.view hv with
  | flat hflat =>
    cases v with
    | str name =>
      obtain ⟨hid, hdrawn⟩ := hw.draw
      have hrun : ∀ w : World, makeEffect (.str name) w =
          .ok (.value (.effect ⟨w.draw.1, name⟩)) w.draw.2 := fun _ => rfl
      rw [hrun, hrun]
      exact .ok (.value (L.effect ⟨hid, rfl⟩)) hdrawn
    | _ => exact .error hw
  | _ => exact .error hw

theorem agree_printLine (hw : w.Related L w') (hv : L.rel v v') :
    Agree L (printLine v w) (printLine v' w') := by
  have hrun : ∀ (v : Value) (w : World), printLine v w =
      .ok (.value .none) { w with output := w.output ++ (w.render v ++ "\n") } := fun _ _ => rfl
  rw [hrun, hrun, hw.render_eq hv]
  exact .ok (.value (L.flat rfl)) ⟨hw.globals, hw.cells, hw.supply, L.append _ hw.output,
    fun hwhole => (hw.rest hwhole).congr rfl rfl⟩

theorem agree_spawnTask (hw : w.Related L w') (hv : L.rel v v') :
    Agree L (spawnTask v w) (spawnTask v' w') := by
  simp only [spawnTask, Likeness.arity?_eq hv, Likeness.typeName_eq hv]
  cases v.arity? with
  | some n => exact .ok (.spawn hv) hw
  | none => exact .error hw

/-- Taking the result of a task. -/
theorem take?_related (hw : w.Related L w') (hwhole : L.whole = true) (id : Int) :
    Option.Rel (OutcomesRelated L.rel) (w.tasks.take? id).1 (w'.tasks.take? id).1 ∧
      World.Related L { w with tasks := (w.tasks.take? id).2 }
        { w' with tasks := (w'.tasks.take? id).2 } := by
  have hlookup : Option.Rel (OutcomesRelated L.rel) (w.tasks.results.lookup id)
      (w'.tasks.results.lookup id) := by
    have hresults := (hw.rest hwhole).results
    generalize w.tasks.results = results at hresults
    generalize w'.tasks.results = results' at hresults
    induction hresults with
    | nil => exact .none
    | @cons r r' _ _ hfirst _ ih =>
      obtain ⟨i, result⟩ := r
      obtain ⟨i', result'⟩ := r'
      obtain ⟨hid, hresult⟩ := hfirst
      obtain rfl : i' = i := hid
      simp only [List.lookup_cons]
      cases id == i' with
      | true => exact .some hresult
      | false => exact ih
  have hfilter : List.Forall₂ (fun r r' => r'.1 = r.1 ∧ OutcomesRelated L.rel r.2 r'.2)
      (w.tasks.results.filter fun r => r.1 != id) (w'.tasks.results.filter fun r => r.1 != id) := by
    have hresults := (hw.rest hwhole).results
    generalize w.tasks.results = results at hresults
    generalize w'.tasks.results = results' at hresults
    induction hresults with
    | nil => exact .nil
    | @cons r r' _ _ hfirst _ ih =>
      simp only [List.filter_cons, hfirst.1]
      split
      · exact .cons hfirst ih
      · exact ih
  simp only [Tasks.take?]
  generalize w.tasks.results.lookup id = x at hlookup
  generalize w'.tasks.results.lookup id = y at hlookup
  cases hlookup with
  | none => exact ⟨.none, hw⟩
  | some hresult =>
    exact ⟨.some hresult, hw.globals, hw.cells, hw.supply, hw.output, fun _ =>
      ⟨hfilter, (hw.rest hwhole).count, (hw.rest hwhole).symbols, (hw.rest hwhole).clock⟩⟩

theorem agree_joinTask (hw : w.Related L w') (hwhole : L.whole = true) (hv : L.rel v v') :
    Agree L (joinTask v w) (joinTask v' w') := by
  cases L.view hv with
  | flat hflat =>
    cases v with
    | int id =>
      obtain ⟨htaken, hrest⟩ := take?_related hw hwhole id.toInt
      rw [joinTask_run, joinTask_run]
      generalize (w.tasks.take? id.toInt).1 = x at htaken
      generalize (w'.tasks.take? id.toInt).1 = y at htaken
      cases htaken with
      | none => exact .error hrest
      | @some result result' hresult =>
        cases result with
        | ok u =>
          cases result' with
          | ok u' => exact .ok (.value hresult) hrest
          | error e => exact hresult.elim
        | error e =>
          cases result' with
          | ok u' => exact hresult.elim
          | error e' =>
            obtain rfl : e' = e := hresult
            exact .error hrest
    | _ => exact .error hw
  | _ => exact .error hw

theorem agree_sleepFor (hw : w.Related L w') (hwhole : L.whole = true) (hv : L.rel v v') :
    Agree L (sleepFor v w) (sleepFor v' w') := by
  cases L.view hv with
  | flat hflat =>
    cases v with
    | int ms =>
      have hrun : ∀ w : World, sleepFor (.int ms) w =
          if ms < 0 then .error (.typeError "sleep expects ms >= 0") w
          else .ok (.value .none) { w with clock := w.clock + ms.toInt.toNat } :=
        fun w => ite_run _ _ _ w
      rw [hrun, hrun]
      split
      · exact .error hw
      · obtain ⟨hresults, hcount, hsymbols, hclock⟩ := hw.rest hwhole
        refine .ok (.value (L.flat rfl)) ⟨hw.globals, hw.cells, hw.supply, hw.output, fun _ =>
          ⟨hresults, hcount, hsymbols, ?_⟩⟩
        simp only [hclock]
    | _ => exact .error hw
  | _ => exact .error hw

theorem agree_ofHook (name : String) (h : Hook) (hw : w.Related L w')
    (hargs : List.Forall₂ L.rel args args') :
    Agree L (ofHook name h args w) (ofHook name h args' w') := by
  have hwrong : Agree L (.error (.arityMismatch name 1 args.length) w)
      (.error (.arityMismatch name 1 args'.length) w') := by
    rw [hargs.length_eq]
    exact .error hw
  cases h with
  | collect => exact .ok (.value (L.tuple hargs)) hw
  | callBack =>
    cases hargs with
    | nil => exact hwrong
    | cons hcallee hrest => exact .ok (.call hcallee hrest) hw
  | attempt =>
    cases hargs with
    | nil => exact hwrong
    | cons hcallee hrest => exact .ok (.call hcallee hrest) hw
  | depth => exact .ok .depth hw
  | fail =>
    cases hargs with
    | nil => exact .error hw
    | @cons v v' _ _ hfirst _ =>
      simp only [ofHook]
      rw [bind_of_ok (text_run v w), bind_of_ok (text_run v' w'), hw.render_eq hfirst]
      exact .error hw
  | failLocated => exact .error hw

end Act

/-- A function of the machine comes to the same for arguments that look the same, unless it depends on
tasks or time that need not be the same. -/
theorem Native.invoke_related {w w' : World} {args args' : List Value} (f : Native) (name : String)
    (htimed : L.whole = true ∨ f.isTimed = false) (hw : w.Related L w')
    (hargs : List.Forall₂ L.rel args args') :
    Act.Agree L (f.invoke name args w) (f.invoke name args' w') := by
  have hwrong : Act.Agree L (.error (.arityMismatch name 0 args.length) w)
      (.error (.arityMismatch name 0 args'.length) w') := by
    rw [hargs.length_eq]
    exact .error hw
  match args, args', hargs with
  | [], [], .nil =>
    cases f with
    | now =>
      have hrun : ∀ w : World, now.invoke name [] w =
          .ok (.value (.int (Int64.ofNat w.clock))) w := fun _ => rfl
      rw [hrun, hrun, (hw.rest (htimed.resolve_right Bool.noConfusion)).clock]
      exact Act.agree_plain hw rfl
    | hook h => exact Act.agree_ofHook name h hw .nil
    | _ => exact hwrong
  | [v], [v'], .cons hv .nil =>
    cases f with
    | negate => exact Act.agree_ofExcept hw (Library.negate_related hv)
    | invert =>
      simp only [invoke, Likeness.isTruthy_eq hv]
      exact Act.agree_plain hw rfl
    | length => exact Act.agree_ofExcept hw (Library.length_related hv)
    | head => exact Act.agree_ofExcept hw (Library.head_related hv)
    | tail => exact Act.agree_ofExcept hw (Library.tail_related hv)
    | render =>
      have hrun : ∀ (v : Value) (w : World), render.invoke name [v] w =
          .ok (.value (.str (w.render v))) w := fun _ _ => rfl
      rw [hrun, hrun, hw.render_eq hv]
      exact Act.agree_plain hw rfl
    | typeOf =>
      simp only [invoke, Likeness.typeName_eq hv]
      exact Act.agree_plain hw rfl
    | newCell => exact Act.agree_makeCell hw hv
    | readCell => exact Act.agree_contentOf hw hv
    | newEffect => exact Act.agree_makeEffect hw hv
    | panicWith =>
      have hrun : ∀ (v : Value) (w : World), panicWith.invoke name [v] w =
          .error (.panicked (w.render v)) w := fun _ _ => rfl
      rw [hrun, hrun, hw.render_eq hv]
      exact .error hw
    | print => exact Act.agree_printLine hw hv
    | spawn => exact Act.agree_spawnTask hw hv
    | join => exact Act.agree_joinTask hw (htimed.resolve_right Bool.noConfusion) hv
    | sqrt => exact Act.agree_ofExcept hw (Library.sqrt_related hv)
    | absolute => exact Act.agree_ofExcept hw (Library.absolute_related hv)
    | floor => exact Act.agree_ofExcept hw (Library.rounded_related _ _ hv)
    | ceil => exact Act.agree_ofExcept hw (Library.rounded_related _ _ hv)
    | upper => exact Act.agree_ofExcept hw (Library.mapText_related _ _ hv)
    | lower => exact Act.agree_ofExcept hw (Library.mapText_related _ _ hv)
    | trim => exact Act.agree_ofExcept hw (Library.mapText_related _ _ hv)
    | sleep => exact Act.agree_sleepFor hw (htimed.resolve_right Bool.noConfusion) hv
    | hook h => exact Act.agree_ofHook name h hw (.cons hv .nil)
    | _ => exact hwrong
  | [a, b], [a', b'], .cons ha (.cons hb .nil) =>
    cases f with
    | intArithmetic op => exact Act.agree_ofExcept hw (Library.onInts_related op ha hb)
    | arithmetic op => exact Act.agree_ofExcept hw (Library.values_related op ha hb)
    | equal =>
      simp only [invoke, Likeness.equals_eq ha hb]
      exact Act.agree_plain hw rfl
    | different =>
      simp only [invoke, Likeness.equals_eq ha hb]
      exact Act.agree_plain hw rfl
    | compare test => exact Act.agree_ofExcept hw (Library.test_related test ha hb)
    | get => exact Act.agree_ofExcept hw (Library.get_related ha hb)
    | push => exact Act.agree_ofExcept hw (Library.push_related ha hb)
    | range => exact Act.agree_ofExcept hw (Library.range_related ha hb)
    | fieldOf => exact Act.agree_ofExcept hw (Library.fieldOf_related ha hb)
    | writeCell => exact Act.agree_setContent hw ha hb
    | pow => exact Act.agree_ofExcept hw (Library.pow_related ha hb)
    | smaller => exact Act.agree_ofExcept hw (Library.pick_related _ _ ha hb)
    | larger => exact Act.agree_ofExcept hw (Library.pick_related _ _ ha hb)
    | concat =>
      have hrun : ∀ (a b : Value) (w : World), concat.invoke name [a, b] w =
          .ok (.value (.str (w.render a ++ w.render b))) w := fun _ _ _ => rfl
      rw [hrun, hrun, hw.render_eq ha, hw.render_eq hb]
      exact Act.agree_plain hw rfl
    | split => exact Act.agree_ofExcept hw (Library.split_related ha hb)
    | contains => exact Act.agree_ofExcept hw (Library.contains_related ha hb)
    | hook h => exact Act.agree_ofHook name h hw (.cons ha (.cons hb .nil))
    | _ => exact hwrong
  | _ :: _ :: _ :: _, _ :: _ :: _ :: _, .cons ha (.cons hb (.cons hc hrest)) =>
    cases f with
    | hook h => exact Act.agree_ofHook name h hw (.cons ha (.cons hb (.cons hc hrest)))
    | _ => exact hwrong

/-- A reply that asks for no call in the same thread and for nothing about it. -/
def Reply.Plain : Reply → Prop
  | .value _ | .spawn _ => True
  | .call _ _ _ | .depth => False

/-- A reply, if there is one, that is a value. -/
def Act.RepliesValue : EStateM.Result RuntimeError World Reply → Prop
  | .ok (.value _) _ | .error _ _ => True
  | .ok _ _ => False

namespace Act

variable (v : Value) (w : World)

theorem repliesValue_ofExcept (result : Except RuntimeError Value) :
    RepliesValue (ofExcept result w) := by
  cases result <;> trivial

theorem repliesValue_contentOf : RepliesValue (contentOf v w) := by
  cases v <;> trivial

theorem repliesValue_setContent (content : Value) : RepliesValue (setContent v content w) := by
  cases v <;> trivial

theorem repliesValue_makeEffect : RepliesValue (makeEffect v w) := by
  unfold makeEffect
  cases v.expectStr "new_effect" <;> trivial

theorem repliesValue_joinTask : RepliesValue (joinTask v w) := by
  unfold joinTask
  cases v.expectInt "join" with
  | error e => trivial
  | ok id =>
    simp only [bind, EStateM.bind, modifyGet_run]
    generalize (w.tasks.take? id.toInt).1 = result
    rcases result with _ | _ | _ <;> trivial

theorem repliesValue_sleepFor : RepliesValue (sleepFor v w) := by
  unfold sleepFor
  cases v.expectInt "sleep" with
  | error e => trivial
  | ok ms =>
    simp only []
    split <;> trivial

end Act

namespace Native

variable {f : Native} {name : String} {args : List Value} {reply : Reply} {w w' : World}

/-- Only functions of an embedding ask for calls, and only one function asks for a task. -/
theorem invoke_repliesValue (hhook : ∀ h, f ≠ .hook h) (hspawn : f ≠ .spawn) (name : String)
    (args : List Value) (w : World) : Act.RepliesValue (f.invoke name args w) := by
  unfold invoke
  split
  all_goals first
    | trivial
    | exact absurd rfl (hhook _)
    | exact absurd rfl hspawn
    | exact Act.repliesValue_ofExcept w _
    | exact Act.repliesValue_contentOf _ w
    | exact Act.repliesValue_setContent _ w _
    | exact Act.repliesValue_makeEffect _ w
    | exact Act.repliesValue_joinTask _ w
    | exact Act.repliesValue_sleepFor _ w

theorem invoke_hook (h : Hook) : (hook h).invoke name args = Act.ofHook name h args := by
  simp only [invoke]

/-- What a function may reply. -/
def MayReply (f : Native) : Reply → Prop
  | .value _ => True
  | .spawn _ => f = .spawn
  | .depth => f = .hook .depth
  | .call _ _ _ => ∃ h, f = .hook h

theorem mayReply_of_invoke (hinvoke : f.invoke name args w = .ok reply w') : f.MayReply reply := by
  by_cases hhook : ∃ h, f = .hook h
  · obtain ⟨h, rfl⟩ := hhook
    rw [invoke_hook] at hinvoke
    cases h <;> cases args <;> cases hinvoke <;> first | trivial | rfl | exact ⟨_, rfl⟩
  by_cases hspawn : f = .spawn
  · subst hspawn
    match args, hinvoke with
    | [v], hinvoke =>
      have hrun : spawn.invoke name [v] w = Act.spawnTask v w := rfl
      rw [hrun, Act.spawnTask] at hinvoke
      generalize v.arity? = arity at hinvoke
      cases arity <;> cases hinvoke
      rfl
    | [], hinvoke => cases hinvoke
    | _ :: _ :: _, hinvoke => cases hinvoke
  have hvalue := invoke_repliesValue (fun h hf => hhook ⟨h, hf⟩) hspawn name args w
  rw [hinvoke] at hvalue
  cases reply <;> trivial

end Native

end Resumable
