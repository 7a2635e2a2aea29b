import Resumable.Proofs.Machine.UnlinedCall

/-!
Effects without lines. Handlers are found, and suspended computations cut off and put back, by
positions and effects alone, which do not depend on lines.
-/

namespace Resumable

theorem Installed.unlined_eq_iff {h h' : Installed Value} :
    h.unlined = h'.unlined ↔
      unlinedEnv h.clauses = unlinedEnv h'.clauses ∧ h.depth = h'.depth ∧ h.height = h'.height ∧
      h.label = h'.label := by
  rw [unlined_eq, unlined_eq, Installed.mk.injEq]

theorem Continuation.unlined_eq_iff {k k' : Continuation Value} :
    k.unlined = k'.unlined ↔
      k.frames.map Frame.unlined = k'.frames.map Frame.unlined ∧
      k.stack.map Value.unlined = k'.stack.map Value.unlined ∧
      k.handlers.map Installed.unlined = k'.handlers.map Installed.unlined := by
  rw [unlined_eq, unlined_eq, Continuation.mk.injEq]

theorem Clauses.find?_unlined (clauses : List (Effect × Value)) (effect : Effect) :
    Clauses.find? (unlinedEnv clauses) effect =
      (Clauses.find? clauses effect).map Value.unlined := by
  simp only [Clauses.find?, unlinedEnv, List.find?_map, Option.map_map, Function.comp_def]

/-- A handler is found by effects and positions. -/
theorem findHandler_unlined (handlers : Array (Installed Value)) (base : Nat) (effect : Effect)
    (n : Nat) :
    findHandler (handlers.map Installed.unlined) base effect n =
      (findHandler handlers base effect n).map fun r => (r.1, r.2.1.unlined, r.2.2.unlined) := by
  induction n with
  | zero => rfl
  | succ n ih =>
    simp only [findHandler, Array.getElem?_map]
    cases handlers[n]? with
    | none => exact ih
    | some h =>
      have hdepth : h.unlined.depth = h.depth := by rw [Installed.unlined_eq]
      have hclauses : h.unlined.clauses = unlinedEnv h.clauses := by rw [Installed.unlined_eq]
      simp only [Option.map_some, hdepth, hclauses, Clauses.find?_unlined]
      split
      · exact ih
      · cases Clauses.find? h.clauses effect with
        | none => simpa only [Option.map_none] using ih
        | some clause => rfl

namespace Continuation

variable (k : Continuation Value)

theorem fits_unlined (depth height : Nat) : k.unlined.fits depth height = k.fits depth height := by
  simp only [fits, unlined_eq, Frame.unlined_eq, Installed.unlined_eq, Array.all_map,
    Function.comp_def]

theorem unlined_relative (depth height : Nat) :
    (k.relative depth height).unlined = k.unlined.relative depth height := by
  simp only [relative, unlined_eq, Array.map_map, Function.comp_def, Frame.unlined_eq,
    Installed.unlined_eq]

theorem unlined_placed (depth height label : Nat) :
    (k.placed depth height label).unlined = k.unlined.placed depth height label := by
  have hmodify : ∀ hs : Array (Installed Value),
      (hs.modify 0 fun h => { h with label }).map Installed.unlined =
        (hs.map Installed.unlined).modify 0 fun h => { h with label } := by
    intro hs
    refine Array.ext_getElem? fun i => ?_
    simp only [Array.getElem?_map, Array.getElem?_modify]
    split
    · cases hs[i]? <;> simp [Installed.unlined_eq]
    · rfl
  simp only [placed, unlined_eq, hmodify, Array.map_map, Function.comp_def, Frame.unlined_eq,
    Installed.unlined_eq]

end Continuation

namespace Thread

variable (t : Thread)

theorem unlined_partAbove (index : Nat) (h : Installed Value) :
    (t.partAbove index h).unlined = t.unlined.partAbove index h.unlined := by
  simp only [partAbove, unlined, Continuation.unlined_eq, Array.map_extract, Array.size_map,
    Installed.unlined_eq]

theorem unlined_cutAt (index : Nat) (h : Installed Value) :
    (t.cutAt index h).unlined = t.unlined.cutAt index h.unlined := by
  simp only [cutAt, unlined, map_shrink, Installed.unlined_eq]

theorem unlined_extend (k : Continuation Value) (label : Nat) :
    (t.extend k label).unlined = t.unlined.extend k.unlined label := by
  have hlabel : (Value.label label).unlined = .label label := rfl
  simp only [extend, unlined, Array.size_map, ← Continuation.unlined_placed]
  simp only [Continuation.unlined_eq, Array.map_append, Array.map_push, hlabel]

end Thread

namespace Exec

variable {v v' : Value} {args args' : List Value}

theorem unlines_thread : Unlines (fun t t' => t.unlined = t'.unlined) thread thread :=
  actAlike_get.bind fun hm => actAlike_pure (congrArg Machine.thread hm)

/-- What a handler cuts off is the same without lines. -/
theorem unlines_capture (index : Nat) {h h' : Installed Value} (hh : h.unlined = h'.unlined) :
    Unlines (fun k k' => k.unlined = k'.unlined) (capture index h) (capture index h') := by
  refine unlines_thread.bind fun {t t'} ht => ?_
  obtain ⟨_, hdepth, hheight, _⟩ := Installed.unlined_eq_iff.1 hh
  have hpart : (t.partAbove index h).unlined = (t'.partAbove index h').unlined := by
    rw [Thread.unlined_partAbove, Thread.unlined_partAbove, ht, hh]
  have hfits : (t.partAbove index h).fits h.depth h.height =
      (t'.partAbove index h').fits h'.depth h'.height := by
    rw [← Continuation.fits_unlined, hpart, Continuation.fits_unlined, hdepth, hheight]
  obtain ⟨hframes, hstack, _⟩ := Thread.unlined_eq_iff.1 ht
  have hcount : t.frames.size = t'.frames.size := by simpa using congrArg Array.size hframes
  have hsize : t.stack.size = t'.stack.size := by simpa using congrArg Array.size hstack
  simp only [hcount, hsize, hdepth, hheight] at hfits ⊢
  rw [hfits]
  split
  · refine ActAlike.bind (unlines_modifyThread fun t t' ht => ?_) fun _ => actAlike_pure ?_
    · rw [Thread.unlined_cutAt, Thread.unlined_cutAt, ht, hh]
    · rw [Continuation.unlined_relative, Continuation.unlined_relative, hpart]
  · exact actAlike_throw rfl

theorem unlines_tooDeep (limit : Nat) {α : Type} {R : α → α → Prop} :
    Unlines R (tooDeep limit) (tooDeep limit) :=
  unlines_fail _

theorem unlines_resume {k k' : Continuation Value} (hk : k.unlined = k'.unlined)
    (hv : SameValue v v') : Unlines (fun _ _ => True) (resume k v) (resume k' v') := by
  have hcount : k.frames.size = k'.frames.size := by
    simpa using congrArg Array.size (Continuation.unlined_eq_iff.1 hk).1
  refine actAlike_get.bind fun {m m'} hm => ?_
  refine actAlike_get.bind fun {m₁ m₁'} hm₁ => ?_
  simp only [limits_eq hm, frames_size hm₁, hcount]
  split
  · exact unlines_tooDeep _
  · refine unlines_drawLabel.bind fun {label _} hlabel => ?_
    subst hlabel
    refine ActAlike.bind (unlines_modifyThread fun t t' ht => ?_) fun _ => unlines_push hv
    rw [Thread.unlined_extend, Thread.unlined_extend, ht, hk]

theorem unlines_dropFinished (tail : Bool) :
    Unlines (fun _ _ => True) (dropFinished tail) (dropFinished tail) := by
  refine unlines_baseDepth.bind fun {base _} hbase => ?_
  subst hbase
  refine actAlike_get.bind fun {m m'} hm => ?_
  have hrel := top_frames hm
  generalize m.thread.frames.back? = top at hrel
  generalize m'.thread.frames.back? = top' at hrel
  cases hrel with
  | none => exact actAlike_pure trivial
  | @some f f' hf =>
    obtain ⟨_, _, _, _, hbase, hboundary⟩ := Frame.unlined_eq_iff.1 hf
    refine actAlike_get.bind fun {m₁ m₁'} hm₁ => ?_
    simp only [frames_size hm₁, hboundary]
    split
    · refine unlines_modifyThread fun t t' ht => ?_
      obtain ⟨hframes, hstack, hrest⟩ := Thread.unlined_eq_iff.1 ht
      refine Thread.unlined_eq_iff.2 ⟨?_, ?_, hrest⟩
      · simp only [Array.map_pop, hframes]
      · simp only [map_shrink, hstack, hbase]
    · exact actAlike_pure trivial

theorem unlines_install {clauses clauses' : List (Effect × Value)}
    (hclauses : unlinedEnv clauses = unlinedEnv clauses') (hv : SameValue v v') :
    Unlines (fun _ _ => True) (install clauses v) (install clauses' v') := by
  have hrefuse := unlines_refuse (R := fun _ _ : Unit => True) hv
    fun type => .typeError ("handled body must be a zero-argument function, got " ++ type)
  cases v with
  | closure id code env =>
    cases Value.alike_of_unlined hv with
    | flat hflat => cases hflat
    | @closure _ _ _ code' _ env' hid hname hparams =>
      have harity : code'.arity = code.arity := congrArg List.length hparams
      unfold install
      by_cases hzero : code.arity = 0
      · simp only [harity, hzero, ↓reduceIte]
        refine unlines_drawLabel.bind fun {label _} hlabel => ?_
        subst hlabel
        refine ActAlike.bind (unlines_modifyThread fun t t' ht => ?_) fun _ =>
          unlines_pushFrame hv rfl true
        obtain ⟨hframes, hstack, hhandlers, hrest⟩ := Thread.unlined_eq_iff.1 ht
        have hcount : t.frames.size = t'.frames.size := by
          simpa using congrArg Array.size hframes
        have hsize : t.stack.size = t'.stack.size := by simpa using congrArg Array.size hstack
        refine Thread.unlined_eq_iff.2 ⟨hframes, ?_, ?_, hrest⟩
        · simp only [Array.map_push, hstack]
        · simp only [Array.map_push, hhandlers, Installed.unlined_eq, hclauses, hcount, hsize]
      · simpa only [harity, hzero, ↓reduceIte] using hrefuse
  | _ => cases Value.alike_of_unlined hv <;> exact hrefuse

theorem unlines_uninstall : Unlines (fun _ _ => True) uninstall uninstall := by
  refine unlines_modifyThread fun t t' ht => ?_
  obtain ⟨hframes, hstack, hhandlers, hrest⟩ := Thread.unlined_eq_iff.1 ht
  have hcount : t.frames.size = t'.frames.size := by simpa using congrArg Array.size hframes
  have hback : Option.Rel (fun h h' => h.unlined = h'.unlined) t.handlers.back?
      t'.handlers.back? := by
    refine (optionRel_iff_map_eq Installed.unlined).2 ?_
    rw [← Array.back?_map, ← Array.back?_map, hhandlers]
  generalize t.handlers.back? = last at hback
  generalize t'.handlers.back? = last' at hback
  cases hback with
  | none => exact ht
  | @some h h' hh =>
    obtain ⟨_, hdepth, hheight, _⟩ := Installed.unlined_eq_iff.1 hh
    simp only [hdepth, hcount]
    split
    · refine Thread.unlined_eq_iff.2 ⟨hframes, ?_, ?_, hrest⟩
      · simp only [map_shrink, hstack, hheight]
      · simp only [Array.map_pop, hhandlers]
    · exact ht

theorem unlines_grant {reply reply' : Reply} (hreply : reply.Related .unlined reply')
    (line line' : Nat) : Unlines (fun _ _ => True) (grant line reply) (grant line' reply') := by
  cases hreply with
  | value hv => exact unlines_push hv
  | @call mode _ _ _ _ hcallee hargs =>
    cases mode with
    | pass => exact unlines_beginCall hcallee (sameValues_iff.1 hargs) _ _ _
    | «catch» =>
      refine actAlike_get.bind fun {m m'} hm => ?_
      rw [frames_size hm]
      exact unlines_beginCall hcallee (sameValues_iff.1 hargs) _ _ _
  | spawn hcallee => exact unlines_beginTask hcallee
  | depth =>
    refine actAlike_get.bind fun {m m'} hm => ?_
    rw [frames_size hm]
    exact unlines_push rfl

theorem unlines_transferWith {raise raise' : Effect → Value → Exec Unit}
    (hraise : ∀ effect {v v'}, SameValue v v' →
      Unlines (fun _ _ => True) (raise effect v) (raise' effect v'))
    (line line' : Nat) (tail : Bool) {t t' : Transfer} (ht : t.Related .unlined t') :
    Unlines (fun _ _ => True) (transferWith raise line tail t)
      (transferWith raise' line' tail t') := by
  cases ht with
  | returned hv => exact unlines_push hv
  | requested hreply => exact unlines_grant hreply _ _
  | enter hclosure hargs =>
    cases tail with
    | true => exact unlines_replaceFrame hclosure (sameValues_iff.1 hargs)
    | false => exact unlines_pushFrame hclosure (sameValues_iff.1 hargs) false
  | raise heffect hpayload =>
    obtain rfl := heffect.eq
    exact hraise _ hpayload
  | @resume id id' k k' v v' hk hv =>
    refine (unlines_dropFinished tail).bind fun _ => unlines_resume ?_ hv
    have hparts : (Value.continuation id k).unlined = (Value.continuation id' k').unlined := hk
    rw [Value.unlined_continuation, Value.unlined_continuation] at hparts
    exact (Value.continuation.inj hparts).2

/-- Effects are raised alike, however many handlers there are. -/
theorem unlines_raiseWithin (line line' bound : Nat) (effect : Effect) (hv : SameValue v v') :
    Unlines (fun _ _ => True) (raiseWithin line bound effect v)
      (raiseWithin line' bound effect v') := by
  induction bound generalizing effect v v' with
  | zero => exact unlines_fail _
  | succ bound ih =>
    refine unlines_baseDepth.bind fun {base _} hbase => ?_
    subst hbase
    refine actAlike_get.bind fun {m m'} hm => ?_
    have hhandlers : m.thread.handlers.map Installed.unlined =
        m'.thread.handlers.map Installed.unlined := congrArg (fun m => m.thread.handlers) hm
    have hsize : m.thread.handlers.size = m'.thread.handlers.size := by
      simpa using congrArg Array.size hhandlers
    have hfound : Option.Rel (fun r r' => (r.1, r.2.1.unlined, r.2.2.unlined) =
          (r'.1, r'.2.1.unlined, r'.2.2.unlined))
        (findHandler m.thread.handlers base effect m.thread.handlers.size)
        (findHandler m'.thread.handlers base effect m'.thread.handlers.size) := by
      refine (optionRel_iff_map_eq
        (fun r : Nat × Installed Value × Value => (r.1, r.2.1.unlined, r.2.2.unlined))).2 ?_
      rw [← findHandler_unlined, ← findHandler_unlined, hhandlers, hsize]
    simp only []
    generalize findHandler m.thread.handlers base effect m.thread.handlers.size = found at hfound
    generalize findHandler m'.thread.handlers base effect m'.thread.handlers.size = found'
      at hfound
    cases hfound with
    | none => exact unlines_fail _
    | @some r r' hr =>
      obtain ⟨index, h, clause⟩ := r
      obtain ⟨index', h', clause'⟩ := r'
      simp only [Prod.mk.injEq] at hr
      obtain ⟨rfl, hh, hclause⟩ := hr
      refine (unlines_capture index hh).bind fun {k k'} hk => ?_
      refine unlines_draw.bind fun {id _} hid => ?_
      subst hid
      have hk : SameValue (.continuation id k) (.continuation id k') := by
        simpa only [SameValue, Value.unlined_continuation, Value.continuation.injEq, true_and] using hk
      rw [Likeness.arity?_eq (L := .unlined) hclause]
      have hargs : SameValues (if clause.arity? = some 1 then [v] else [v, .continuation id k])
          (if clause.arity? = some 1 then [v'] else [v', .continuation id k']) := by
        split
        · simp only [SameValues, List.map_cons, List.map_nil, hv]
        · simp only [SameValues, List.map_cons, List.map_nil, hv, hk]
      refine (unlines_apply hclause hargs).bind fun ht => ?_
      exact unlines_transferWith (fun effect _ _ hv => ih effect hv) _ _ _ ht

theorem unlines_raise (line line' : Nat) (effect : Effect) (hv : SameValue v v') :
    Unlines (fun _ _ => True) (raise line effect v) (raise line' effect v') := by
  refine actAlike_get.bind fun {m m'} hm => ?_
  have hsize : m.thread.handlers.size = m'.thread.handlers.size := by
    simpa [Machine.unlined, Thread.unlined] using congrArg (fun m => m.thread.handlers.size) hm
  rw [hsize]
  exact unlines_raiseWithin _ _ _ effect hv

/-- Calls do alike, whatever lines they are made at. -/
theorem unlines_call (hcallee : SameValue v v') (hargs : SameValues args args') (line line' : Nat)
    (tail : Bool) :
    Unlines (fun _ _ => True) (call v args line tail) (call v' args' line' tail) :=
  (unlines_apply hcallee hargs).bind fun ht =>
    unlines_transferWith (fun effect _ _ hv => unlines_raise _ _ effect hv) _ _ _ ht

end Exec

end Resumable
