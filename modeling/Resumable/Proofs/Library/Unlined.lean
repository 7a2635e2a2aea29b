import Resumable.Proofs.Library.Likeness
import Resumable.Proofs.Library.Local
import Resumable.Proofs.Machine.Unlined

/-!
Functions of the library on shared states without lines. They cannot tell values apart that are equal
without their lines. The one that waits for a task may come to failures of which only the roots are
the same.
-/

namespace Resumable

/-- The two actions come to the same but for lines. -/
def Act.Unlines {α : Type} (R : α → α → Prop) (x y : Act α) : Prop :=
  ActAlike (fun e e' => e.root = e'.root) (fun w w' => w.unlined = w'.unlined) R x y

namespace Tasks

variable {tasks tasks' : Tasks}

theorem lookup_unlined (tasks : Tasks) (id : Int) :
    tasks.unlined.results.lookup id = (tasks.results.lookup id).map unlinedResult := by
  obtain ⟨count, results⟩ := tasks
  simp only [unlined]
  induction results with
  | nil => rfl
  | cons r results ih =>
    obtain ⟨id', result⟩ := r
    simp only [List.map_cons, List.lookup_cons]
    cases id == id' with
    | true => rfl
    | false => exact ih

/-- What is taken is the same without lines, and so is what stays. -/
theorem take?_unlined (hsame : tasks.unlined = tasks'.unlined) (id : Int) :
    Option.Rel (fun r r' => unlinedResult r = unlinedResult r') (tasks.take? id).1
        (tasks'.take? id).1 ∧
      (tasks.take? id).2.unlined = (tasks'.take? id).2.unlined := by
  have hfound := congrArg (fun tasks => tasks.results.lookup id) hsame
  simp only [lookup_unlined] at hfound
  have hrel := (optionRel_iff_map_eq unlinedResult).2 hfound
  have hrest := congrArg (fun tasks => tasks.results.filter fun r => r.1 != id) hsame
  have hcount := congrArg Tasks.count hsame
  simp only [unlined, List.filter_map, Function.comp_def] at hrest hcount
  unfold take?
  generalize tasks.results.lookup id = found at hrel
  generalize tasks'.results.lookup id = found' at hrel
  cases hrel with
  | none => exact ⟨.none, hsame⟩
  | some hresult => exact ⟨.some hresult, by simp only [unlined, hrest, hcount]⟩

end Tasks

namespace World

variable {w w' : World}

/-- Shared states without global variables and tasks are related. -/
theorem related_of_unlined (hsame : w.unlined = w'.unlined) :
    (w.within {}).Related .unlined (w'.within {}) := by
  obtain ⟨_, hcells, hsupply, _, houtput, hclock⟩ := unlined_eq_iff.1 hsame
  refine ⟨fun _ => .none, (forall₂_iff_map_eq Value.unlined).2 ?_, congrArg Supply.objects hsupply,
    houtput, fun _ => ⟨.nil, rfl, (congrArg Supply.symbols hsupply).symm, hclock.symm⟩⟩
  simpa [within] using congrArg Array.toList hcells

theorem unlined_of_related {outer outer' : World} (hrelated : w.Related .unlined w')
    (houter : outer.unlined = outer'.unlined) :
    (w.within outer).unlined = (w'.within outer').unlined := by
  obtain ⟨hglobals, _, _, htasks, _, _⟩ := unlined_eq_iff.1 houter
  obtain ⟨_, _, hsymbols, hclock⟩ := hrelated.rest rfl
  have hsupply : w.supply = w'.supply := congrArg₂ Supply.mk hsymbols.symm hrelated.supply
  refine unlined_eq_iff.2 ⟨hglobals, ?_, hsupply, htasks, hrelated.output, hclock.symm⟩
  have hcells := (forall₂_iff_map_eq Value.unlined).1 hrelated.cells
  exact Array.toList_inj.1 (by simpa [within] using hcells)

end World

namespace Act

theorem unlines_joinTask {v v' : Value} (hv : SameValue v v') :
    Unlines (Reply.Related .unlined) (joinTask v) (joinTask v') := by
  intro w w' hw
  cases Value.alike_of_unlined hv with
  | flat hflat =>
    cases v with
    | int id =>
      obtain ⟨hglobals, hcells, hsupply, htasks, hrest⟩ := World.unlined_eq_iff.1 hw
      obtain ⟨htaken, hleft⟩ := Tasks.take?_unlined htasks id.toInt
      have hw' : World.unlined { w with tasks := (w.tasks.take? id.toInt).2 } =
          World.unlined { w' with tasks := (w'.tasks.take? id.toInt).2 } :=
        World.unlined_eq_iff.2 ⟨hglobals, hcells, hsupply, hleft, hrest⟩
      rw [joinTask_run, joinTask_run]
      generalize (w.tasks.take? id.toInt).1 = found at htaken
      generalize (w'.tasks.take? id.toInt).1 = found' at htaken
      cases htaken with
      | none => exact .error rfl hw'
      | @some result result' hresult =>
        cases result with
        | ok u =>
          cases result' with
          | ok u' => exact .ok (.value (Except.ok.inj hresult)) hw'
          | error e' => cases hresult
        | error e =>
          cases result' with
          | ok u' => cases hresult
          | error e' => exact .error (Except.error.inj hresult) hw'
    | _ => exact .error rfl hw
  | _ => exact .error rfl hw

end Act

/-- Functions of the machine come to the same but for lines. -/
theorem Native.unlines_invoke (f : Native) (name : String) {args args' : List Value}
    (hargs : SameValues args args') :
    Act.Unlines (Reply.Related .unlined) (f.invoke name args) (f.invoke name args') := by
  intro w w' hw
  by_cases hf : f = .join
  · subst hf
    have hlength : args.length = args'.length := by
      simpa only [List.length_map] using congrArg List.length hargs
    match args, args', hlength with
    | [v], [v'], _ => exact Act.unlines_joinTask (List.cons.inj hargs).1 w w' hw
    | [], [], _ => exact .error rfl hw
    | _ :: _ :: _, _ :: _ :: _, hlength =>
      simp only [invoke, hlength]
      exact .error rfl hw
  · have hagree := f.invoke_related name (Or.inl rfl) (World.related_of_unlined hw)
      ((forall₂_iff_map_eq Value.unlined).2 hargs)
    have hrun : ∀ (w : World) (args : List Value), f.invoke name args w =
        resultWithin w (f.invoke name args (w.within {})) := by
      intro w args
      rw [← invoke_local hf name args (w.within {}) w]
      rfl
    rw [hrun, hrun w']
    generalize f.invoke name args (w.within {}) = r at hagree
    generalize f.invoke name args' (w'.within {}) = r' at hagree
    cases hagree with
    | ok hreply hrelated => exact .ok hreply (World.unlined_of_related hrelated hw)
    | error hrelated => exact .error rfl (World.unlined_of_related hrelated hw)

end Resumable
