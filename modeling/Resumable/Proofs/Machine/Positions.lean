import Resumable.Proofs.Machine.Invariant

/-!
The positions that a machine records fit each other: handlers name boundary frames and labels on the
stack, boundary frames have a handler each, and the operands of frames lie one above the other. This
holds of threads, and of suspended computations relative to their label.
-/

namespace Resumable

/-- Frames, values and handlers whose positions fit each other. -/
structure PositionsFit (frames : Array (Frame Value)) (stack : Array Value)
    (handlers : Array (Installed Value)) : Prop where
  increasing : ∀ (i j : Nat) (h h' : Installed Value), i < j → handlers[i]? = some h →
    handlers[j]? = some h' → h.depth < h'.depth
  boundary : ∀ (i : Nat) (h : Installed Value), handlers[i]? = some h →
    ∃ f, frames[h.depth]? = some f ∧ f.boundary = true ∧ f.base = h.height + 1 ∧
      stack[h.height]? = some (.label h.label)
  handled : ∀ (d : Nat) (f : Frame Value), frames[d]? = some f → f.boundary = true →
    ∃! i : Nat, ∃ h : Installed Value, handlers[i]? = some h ∧ h.depth = d
  ordered : ∀ (i j : Nat) (f f' : Frame Value), i ≤ j → frames[i]? = some f → frames[j]? = some f' →
    f.base ≤ f'.base
  within : ∀ (i : Nat) (f : Frame Value), frames[i]? = some f → f.base ≤ stack.size

/-- A suspended computation whose positions fit each other once its label is put below its values.
Its first frame is the boundary of its first handler. -/
def Continuation.PositionsFit (k : Continuation Value) : Prop :=
  ∃ f h, k.frames[0]? = some f ∧ f.boundary = true ∧ f.base = 1 ∧ k.handlers[0]? = some h ∧
    h.depth = 0 ∧ h.height = 0 ∧
    Resumable.PositionsFit k.frames (#[.label h.label] ++ k.stack) k.handlers

/-- Every frame belongs to an activation. -/
theorem framesFrom_locate {height i : Nat} {acts : List Activation} {f : Frame Value}
    (hget : (framesFrom height acts)[i]? = some f) :
    ∃ below b above, acts = below ++ b :: above ∧ below.length = i ∧
      f = b.frame (height + heightOf below) := by
  induction acts generalizing height i with
  | nil => cases hget
  | cons a acts ih =>
    cases i with
    | zero =>
      cases hget
      exact ⟨[], a, acts, rfl, rfl, rfl⟩
    | succ i =>
      obtain ⟨below, b, above, rfl, rfl, rfl⟩ := ih hget
      refine ⟨a :: below, b, above, rfl, rfl, ?_⟩
      rw [heightOf_cons, Nat.add_assoc]

section

variable {acts below below' above above' : List Activation} {b b' : Activation}

theorem getElem?_framesFrom (below above : List Activation) (b : Activation) :
    (framesFrom 0 (below ++ b :: above))[below.length]? = some (b.frame (heightOf below)) := by
  have hlength : below.length = (framesFrom 0 below).length := by simp
  rw [framesFrom_append, List.getElem?_append_right (by omega), hlength]
  simp

theorem getElem?_stackOf {clauses : List (Effect × Value)} {label : Nat}
    (hb : b.handler = some (clauses, label)) (below above : List Activation) (extra : List Value) :
    (stackOf (below ++ b :: above) ++ extra)[heightOf below]? = some (.label label) := by
  have hlength : heightOf below = (stackOf below).length := rfl
  rw [stackOf_append, List.append_assoc, List.getElem?_append_right (by omega), hlength]
  simp [Activation.segment, Activation.mark_eq hb]

theorem getElem?_handlersFrom {clauses : List (Effect × Value)} {label : Nat}
    (hb : b.handler = some (clauses, label)) (below above : List Activation) :
    (handlersFrom 0 0 (below ++ b :: above))[(handlersFrom 0 0 below).length]? =
      some ⟨clauses, below.length, heightOf below, label⟩ := by
  rw [handlersFrom_append, List.getElem?_append_right (by omega)]
  simp [Activation.installed_eq hb]

/-- Of two places in a list of activations the one further up has the other below it. -/
theorem split_of_length_lt (hsame : below ++ b :: above = below' ++ b' :: above')
    (hlt : below.length < below'.length) : ∃ between, below' = below ++ b :: between := by
  obtain ⟨rest, rfl, hrest⟩ | ⟨rest, rfl, _⟩ := List.append_eq_append_iff.1 hsame
  · cases rest with
    | nil => simp at hlt
    | cons c rest =>
      cases hrest
      exact ⟨rest, rfl⟩
  · rw [List.length_append] at hlt
    omega

theorem split_of_length_eq (hsame : below ++ b :: above = below' ++ b' :: above')
    (heq : below.length = below'.length) : below = below' ∧ b = b' := by
  obtain ⟨rfl, hrest⟩ := List.append_inj hsame heq
  cases hrest
  exact ⟨rfl, rfl⟩

/-- The positions that a list of activations shows fit each other. -/
theorem positionsFit_showing (acts : List Activation) (extra : List Value) :
    PositionsFit (framesFrom 0 acts).toArray (stackOf acts ++ extra).toArray
      (handlersFrom 0 0 acts).toArray := by
  have hincreasing : ∀ (i j : Nat) (h h' : Installed Value), i < j →
      (handlersFrom 0 0 acts)[i]? = some h → (handlersFrom 0 0 acts)[j]? = some h' →
      h.depth < h'.depth := by
    intro i j h h' hlt hi hj
    obtain ⟨below, b, above, hacts, hb, hdepth, _, rfl⟩ := handlersFrom_locate hi
    obtain ⟨below', b', above', hacts', hb', hdepth', _, rfl⟩ := handlersFrom_locate hj
    rw [hacts] at hacts'
    by_contra hnot
    obtain heq | hless : below'.length = below.length ∨ below'.length < below.length := by omega
    · obtain ⟨rfl, _⟩ := split_of_length_eq hacts' heq.symm
      omega
    · obtain ⟨between, rfl⟩ := split_of_length_lt hacts'.symm hless
      rw [handlersFrom_append, List.length_append] at hlt
      omega
  refine ⟨?_, ?_, ?_, ?_, ?_⟩
  · simpa using hincreasing
  · intro i h hi
    rw [List.getElem?_toArray] at hi
    obtain ⟨below, b, above, rfl, hb, hdepth, hheight, _⟩ := handlersFrom_locate hi
    rw [Nat.zero_add] at hdepth hheight
    refine ⟨b.frame (heightOf below), ?_, ?_, ?_, ?_⟩
    · rw [List.getElem?_toArray, hdepth]
      exact getElem?_framesFrom below above b
    · simp [Activation.frame, hb]
    · simp [Activation.frame, Activation.mark_eq hb, hheight]
    · rw [List.getElem?_toArray, hheight]
      exact getElem?_stackOf hb below above extra
  · intro d f hf hboundary
    rw [List.getElem?_toArray] at hf
    obtain ⟨below, b, above, rfl, rfl, rfl⟩ := framesFrom_locate hf
    obtain ⟨⟨clauses, label⟩, hb⟩ := Option.isSome_iff_exists.1 hboundary
    have hentry := getElem?_handlersFrom hb below above
    refine ⟨(handlersFrom 0 0 below).length, ⟨_, by simpa using hentry, rfl⟩, ?_⟩
    rintro j ⟨h, hj, hdepth⟩
    rw [List.getElem?_toArray] at hj
    obtain hlt | heq | hgt := Nat.lt_trichotomy j (handlersFrom 0 0 below).length
    · have hless := hincreasing _ _ _ _ hlt hj hentry
      simp only [hdepth] at hless
      omega
    · exact heq
    · have hless := hincreasing _ _ _ _ hgt hentry hj
      simp only [hdepth] at hless
      omega
  · intro i j f f' hle hi hj
    rw [List.getElem?_toArray] at hi hj
    obtain ⟨below, b, above, hacts, rfl, rfl⟩ := framesFrom_locate hi
    obtain ⟨below', b', above', hacts', rfl, rfl⟩ := framesFrom_locate hj
    rw [hacts] at hacts'
    obtain heq | hlt := Nat.eq_or_lt_of_le hle
    · obtain ⟨rfl, rfl⟩ := split_of_length_eq hacts' heq
      exact Nat.le_refl _
    · obtain ⟨between, rfl⟩ := split_of_length_lt hacts' hlt
      simp only [Activation.frame, heightOf_append, heightOf_cons, Activation.segment,
        List.length_append]
      omega
  · intro i f hi
    rw [List.getElem?_toArray] at hi
    obtain ⟨below, b, above, rfl, _, rfl⟩ := framesFrom_locate hi
    simp only [Activation.frame, List.size_toArray, List.length_append, length_stackOf,
      heightOf_append, heightOf_cons, Activation.segment]
    omega

/-- The positions in a suspended computation fit each other. -/
theorem positionsFit_ofActs {b : Activation} {above : List Activation}
    (hb : b.handler.isSome = true) : (Continuation.ofActs (b :: above)).PositionsFit := by
  obtain ⟨⟨clauses, label⟩, hb⟩ := Option.isSome_iff_exists.1 hb
  have hstack : #[Value.label label] ++ (stackOf (b :: above)).tail.toArray =
      (stackOf (b :: above) ++ []).toArray := by
    simp [Activation.segment, Activation.mark_eq hb]
  refine ⟨b.frame 0, ⟨clauses, 0, 0, label⟩, rfl, ?_, ?_, ?_, rfl, rfl, ?_⟩
  · simp [Activation.frame, hb]
  · simp [Activation.frame, Activation.mark_eq hb]
  · simp [Continuation.ofActs, Activation.installed_eq hb]
  · simp only [Continuation.ofActs, hstack]
    exact positionsFit_showing (b :: above) []

end

/-- A value is another one, or is held by it to any depth. -/
inductive Value.Within (v : Value) : Value → Prop
  | refl : Within v v
  | part {part whole : Value} (hwithin : Within v part) (hpart : part ∈ whole.parts) :
    Within v whole

/-- The values of a call that is about to be made. -/
def Level.parts (level : Level) : List Value :=
  match level.phase with
  | .made callee args => callee :: args
  | _ => []

/-- The values that a thread holds. -/
def Thread.parts (t : Thread) : List Value :=
  t.frames.toList.flatMap Frame.parts ++ t.stack.toList ++
    t.handlers.toList.flatMap (fun h => h.clauses.map Prod.snd) ++ t.levels.flatMap Level.parts

/-- A value of a global variable, in a cell or of a task that has ended. -/
def World.Holds (w : World) (v : Value) : Prop :=
  (∃ s, w.globals.get? s = some v) ∨ v ∈ w.cells ∨ ∃ id, (id, .ok v) ∈ w.tasks.results

namespace Machine

/-- The thread that runs and those that wait. -/
def threads (m : Machine) : List Thread :=
  m.thread :: m.waiting.map Prod.snd

/-- A value in the shared state or in a thread. -/
def Holds (m : Machine) (v : Value) : Prop :=
  m.world.Holds v ∨ ∃ t ∈ m.threads, v ∈ t.parts

/-- A machine whose threads record positions that fit, and so do all suspended computations that it
holds, to any depth. -/
structure PositionsFit (m : Machine) : Prop where
  threads : ∀ t ∈ m.threads, Resumable.PositionsFit t.frames t.stack t.handlers
  suspended : ∀ root id k, m.Holds root → Value.Within (.continuation id k) root → k.PositionsFit

end Machine

variable {κ : Kind}

theorem Value.Sound.within {v root : Value} (hroot : root.Sound κ) (hwithin : v.Within root) :
    v.Sound κ := by
  induction hwithin with
  | refl => exact hroot
  | part _ hpart ih => exact ih (hroot.part hpart)

theorem Value.Sound.continuation_fits {id : Nat} {k : Continuation Value}
    (hsound : (continuation id k).Sound κ) : k.PositionsFit := by
  obtain ⟨b, above, rfl, hb, _⟩ := hsound.shape
  exact positionsFit_ofActs hb

theorem World.Sound.holds {w : World} {v : Value} (hworld : w.Sound κ) (hholds : w.Holds v) :
    v.Sound κ := by
  obtain ⟨s, hget⟩ | hcell | ⟨id, hresult⟩ := hholds
  · exact hworld.globals s v hget
  · exact hworld.cells v hcell
  · exact hworld.results id v hresult

theorem Suspended.sound {acts : List Activation} {levels : List Level}
    (hacts : Suspended κ acts levels) :
    (∀ a ∈ acts, a.Sound κ [.value]) ∧ ∀ level ∈ levels, level.parts = [] := by
  induction hacts with
  | nil => simp
  | cons _ _ _ hsound _ hwaits ih =>
    refine ⟨?_, ?_⟩
    · intro a ha
      obtain ha | ha := List.mem_append.1 ha
      · exact ih.1 a ha
      · exact hsound a ha
    · intro level hlevel
      obtain rfl | hlevel := List.mem_cons.1 hlevel
      · obtain ⟨hphase, _⟩ | ⟨hphase, _⟩ := hwaits <;> simp [Level.parts, hphase]
      · exact ih.2 level hlevel

theorem Underway.sound {phase : Phase} {above : List Activation} {extra : List Value}
    (hunderway : Underway κ phase above extra) :
    (∀ a ∈ above, ∀ v ∈ a.parts, v.Sound κ) ∧ (∀ v ∈ extra, v.Sound κ) ∧
      ∀ level : Level, level.phase = phase → ∀ v ∈ level.parts, v.Sound κ := by
  cases hunderway with
  | made hcallee hargs =>
    refine ⟨by simp, by simp, ?_⟩
    intro level hphase v hv
    simp only [Level.parts, hphase, List.mem_cons] at hv
    obtain rfl | hv := hv
    · exact hcallee
    · exact hargs v hv
  | given hv =>
    refine ⟨by simp, by simpa using hv, ?_⟩
    intro level hphase
    simp [Level.parts, hphase]
  | entered hphase hpre ha =>
    refine ⟨?_, by simp, ?_⟩
    · intro b hb
      obtain hb | hb := List.mem_append.1 hb
      · exact (hpre b hb).parts
      · rw [List.mem_singleton.1 hb]
        exact ha.parts
    · rintro level rfl
      obtain hphase | hphase := hphase <;> simp [Level.parts, hphase]

/-- The values in a thread that shows sound activations are sound. -/
theorem Thread.parts_sound {t : Thread} {acts : List Activation} {extra : List Value}
    (hshows : t = t.showing acts extra) (hacts : ∀ a ∈ acts, ∀ v ∈ a.parts, v.Sound κ)
    (hextra : ∀ v ∈ extra, v.Sound κ) (hlevels : ∀ level ∈ t.levels, ∀ v ∈ level.parts, v.Sound κ) :
    ∀ v ∈ t.parts, v.Sound κ := by
  intro v hv
  rw [hshows] at hv
  simp only [parts, showing_frames, showing_stack, showing_handlers, showing_levels,
    List.mem_append, mem_parts_framesFrom, mem_parts_handlersFrom, mem_stackOf] at hv
  obtain ((⟨a, ha, hv⟩ | ⟨a, ha, hmark | hv⟩ | hv) | ⟨a, ha, hv⟩) | hv := hv
  · exact hacts a ha v (List.mem_append_left _ (List.mem_append_left _ (List.mem_append.2 hv)))
  · exact Value.sound_of_mem_mark hmark
  · exact hacts a ha v (by simp [Activation.parts, hv])
  · exact hextra v hv
  · exact hacts a ha v (List.mem_append_right _ hv)
  · obtain ⟨level, hlevel, hv⟩ := List.mem_flatMap.1 hv
    exact hlevels level hlevel v hv

/-- What a thread that waits shows. -/
theorem Thread.Waits.parts_sound {t : Thread} (hwaits : t.Waits κ) :
    (∃ acts extra, t = t.showing acts extra) ∧ ∀ v ∈ t.parts, v.Sound κ := by
  obtain ⟨hlevels, hacts, hshows⟩ := hwaits
  obtain ⟨hsound, hmade⟩ := hacts.sound
  refine ⟨⟨_, _, hshows⟩, Thread.parts_sound hshows (fun a ha => (hsound a ha).parts) (by simp) ?_⟩
  rw [hlevels]
  intro level hlevel
  simp [hmade level hlevel]

/-- What a thread that runs shows. -/
theorem Thread.Runs.parts_sound {t : Thread} (hruns : t.Runs κ) :
    (∃ acts extra, t = t.showing acts extra) ∧ ∀ v ∈ t.parts, v.Sound κ := by
  obtain ⟨hlevels, hbelow, _, _, hunderway, hshows⟩ := hruns
  obtain ⟨hsound, hmade⟩ := hbelow.sound
  obtain ⟨habove, hextra, hcall⟩ := hunderway.sound
  refine ⟨⟨_, _, hshows⟩, Thread.parts_sound hshows ?_ hextra ?_⟩
  · intro a ha
    obtain ha | ha := List.mem_append.1 ha
    · exact (hsound a ha).parts
    · exact habove a ha
  · rw [hlevels]
    intro level hlevel
    obtain rfl | hlevel := List.mem_cons.1 hlevel
    · exact hcall _ rfl
    · simp [hmade level hlevel]

/-- What the threads of a sound machine show. -/
theorem Machine.Sound.threads {m : Machine} (hm : m.Sound κ) :
    ∀ t ∈ m.threads, (∃ acts extra, t = t.showing acts extra) ∧ ∀ v ∈ t.parts, v.Sound κ := by
  intro t ht
  obtain rfl | ht := List.mem_cons.1 ht
  · exact hm.thread.parts_sound
  · obtain ⟨w, hw, rfl⟩ := List.mem_map.1 ht
    exact (hm.waiting w hw).parts_sound

/-- The values that a sound machine holds are sound. -/
theorem Machine.Sound.holds {m : Machine} {v : Value} (hm : m.Sound κ) (hholds : m.Holds v) :
    v.Sound κ := by
  obtain hworld | ⟨t, ht, hpart⟩ := hholds
  · exact hm.world.holds hworld
  · exact (hm.threads t ht).2 v hpart

/-- The positions in a sound machine fit. -/
theorem Machine.Sound.fits {m : Machine} (hm : m.Sound κ) : m.PositionsFit := by
  refine ⟨?_, ?_⟩
  · intro t ht
    obtain ⟨⟨acts, extra, hshows⟩, _⟩ := hm.threads t ht
    rw [hshows]
    exact positionsFit_showing acts extra
  · intro root id k hholds hwithin
    exact ((hm.holds hholds).within hwithin).continuation_fits

end Resumable
