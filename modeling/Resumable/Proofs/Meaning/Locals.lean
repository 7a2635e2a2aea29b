import Resumable.Proofs.Meaning.Means

/-!
The locals of an activation, as slots and as bindings of names.
-/

namespace Resumable

theorem getElem?_setSlot {slots : Array Value} {n : Nat} (hn : n < slots.size) (w : Value) (i : Nat) :
    (setSlot slots n w)[i]? = if n = i then some w else slots[i]? := by
  rw [setSlot, if_pos hn, Array.getElem?_setIfInBounds]
  grind

theorem size_setSlot {slots : Array Value} {n : Nat} (hn : n < slots.size) (w : Value) :
    (setSlot slots n w).size = slots.size := by
  rw [setSlot, if_pos hn, Array.size_setIfInBounds]

theorem slotIn_congr {locals : List Local} {s t : Symbol} (hsame : (s == t) = true) :
    slotIn locals s = slotIn locals t := by
  rw [Symbol.beq_iff] at hsame
  simp only [slotIn, BEq.beq, hsame]

/-- Locals above others have higher slots. -/
theorem DenseSlots.length_le_slot {new locals : List Local} (h : DenseSlots (new ++ locals)) {l : Local}
    (hl : l ∈ new) : locals.length ≤ l.slot := by
  induction new with
  | nil => cases hl
  | cons l' new ih =>
    obtain ⟨hslot, hrest⟩ := h
    obtain rfl | hl := List.mem_cons.1 hl
    · have hend : l.slot = (new ++ locals).length := hslot
      simp [hend]
    · exact ih hrest hl

namespace Meaning

theorem binds_eq (bindings : Env Value) (s : Symbol) :
    binds bindings s = (Env.get? bindings s).isSome := by
  rw [Bool.eq_iff_iff, Env.isSome_get?_iff]
  rfl

/-- A write gives its value to the name if it is bound, and leaves other names alone. -/
theorem get?_assign (s t : Symbol) (v : Value) (bindings : Env Value) :
    Env.get? (assign s v bindings) t =
      if (s == t) = true then (Env.get? bindings t).map fun _ => v else Env.get? bindings t := by
  induction bindings with
  | nil => simp [assign, Env.get?]
  | cons b bindings ih =>
    rw [assign]
    by_cases hb : (b.1 == s) = true
    · rw [if_pos hb, Env.get?_cons, Env.get?_cons]
      simp only [Symbol.beq_iff] at hb ⊢
      grind
    · rw [if_neg hb, Env.get?_cons, Env.get?_cons, ih]
      simp only [Symbol.beq_iff] at hb ⊢
      grind

theorem binds_assign (s t : Symbol) (v : Value) (bindings : Env Value) :
    binds (assign s v bindings) t = binds bindings t := by
  rw [binds_eq, binds_eq, get?_assign]
  split
  · simp
  · rfl

section Shown

variable {G : Ground} {P : Local → Symbol × Value → Prop} {locals : List Local} {env : Env Value}
  {s : Symbol}

/-- A name that programs can mention is found among the locals if and only if it is bound. -/
theorem find?_shown (hname : ∀ l b, P l b → b.1 = l.name)
    (hshown : List.Forall₂ P (G.shown locals) env) (hs : G.shows s = true) :
    Option.Rel P (locals.find? fun l => l.name == s) (env.find? fun b => b.1 == s) := by
  induction locals generalizing env with
  | nil =>
    cases hshown
    exact .none
  | cons l locals ih =>
    cases hl : G.shows l.name with
    | false =>
      have hne : (l.name == s) = false := by
        by_contra hsame
        rw [Bool.not_eq_false] at hsame
        rw [Ground.shows_congr hsame, hs] at hl
        cases hl
      rw [Ground.shown_cons_hidden hl] at hshown
      rw [List.find?_cons_of_neg (by simp [hne])]
      exact ih hshown
    | true =>
      rw [Ground.shown_cons hl] at hshown
      obtain ⟨b, env', hb, hrest, rfl⟩ := List.forall₂_cons_left_iff.1 hshown
      rw [List.find?_cons, List.find?_cons, hname l b hb]
      cases l.name == s with
      | true => exact .some hb
      | false => exact ih hrest

end Shown

/-- The value of a local that is written to is in its slot, and those of the others are where they
were. -/
theorem assigned {R : Value → Value → Prop} {G : Ground} {ls : List Local} {slots : Array Value}
    {locals : Env Value} {s : Symbol} {n : Nat} {v w : Value} (hsize : n < slots.size)
    (hdense : DenseSlots ls) (hs : G.shows s = true) (hslot : slotIn ls s = some n) (hrel : R v w)
    (hshown : List.Forall₂ (fun l b => b.1 = l.name ∧ ∃ w, slots[l.slot]? = some w ∧ R b.2 w)
      (G.shown ls) locals) :
    List.Forall₂
      (fun l b => b.1 = l.name ∧ ∃ u, (setSlot slots n w)[l.slot]? = some u ∧ R b.2 u)
      (G.shown ls) (assign s v locals) := by
  induction ls generalizing locals with
  | nil => cases hslot
  | cons l ls ih =>
    obtain ⟨hl, hdense⟩ := hdense
    have hcons : slotIn (l :: ls) s = if (l.name == s) = true then some l.slot else slotIn ls s := by
      rw [slotIn, List.find?_cons]
      split
      next h => simp [h]
      next h => simp [h, slotIn]
    rw [hcons] at hslot
    cases hshows : G.shows l.name with
    | false =>
      have hne : (l.name == s) = false := by
        by_contra hsame
        rw [Bool.not_eq_false] at hsame
        rw [Ground.shows_congr hsame, hs] at hshows
        cases hshows
      rw [if_neg (by simp [hne])] at hslot
      rw [Ground.shown_cons_hidden hshows] at hshown ⊢
      exact ih hdense hslot hshown
    | true =>
      rw [Ground.shown_cons hshows] at hshown ⊢
      obtain ⟨b, locals, ⟨hname, u, hu, hb⟩, hrest, rfl⟩ := List.forall₂_cons_left_iff.1 hshown
      rw [assign, hname]
      split at hslot
      next hsame =>
        cases hslot
        rw [if_pos hsame]
        refine .cons ⟨rfl, w, by rw [getElem?_setSlot hsize, if_pos rfl], hrel⟩ ?_
        have hlt : ∀ l' ∈ G.shown ls, l'.slot < l.slot := fun l' hl' => by
          have := hdense.slot_lt (List.mem_filter.1 hl').1
          omega
        refine ((List.forall₂_and_left _ _).2 ⟨hlt, hrest⟩).imp ?_
        rintro l' b' ⟨hlt, hname', u', hu', hb'⟩
        exact ⟨hname', u', by rw [getElem?_setSlot hsize, if_neg (by omega), hu'], hb'⟩
      next hne =>
        have hlt := slotIn_lt hdense hslot
        rw [if_neg hne]
        exact .cons ⟨hname, u, by rw [getElem?_setSlot hsize, if_neg (by omega), hu], hb⟩
          (ih hdense hslot hrest)

namespace Holds

variable {R : Value → Value → Prop} {G : Ground} {choosing : Choosing} {code : Code Value}
  {Γ Γ' : Lexical} {slots : Array Value} {locals : Env Value} {s : Symbol} {n : Nat} {v w : Value}

theorem lt_size (h : Holds R G choosing code Γ slots locals) (hn : n < Γ.locals.length) :
    n < slots.size :=
  Nat.lt_of_lt_of_le hn (Nat.le_trans h.room h.size)

/-- The value of a local is in its slot. -/
theorem get?_slot (h : Holds R G choosing code Γ slots locals) (hs : G.shows s = true)
    (hslot : slotIn Γ.locals s = some n) :
    ∃ v w, Env.get? locals s = some v ∧ slots[n]? = some w ∧ R v w := by
  have hfind := find?_shown (fun _ _ hp => hp.1) h.shown hs
  obtain ⟨l, hl, rfl⟩ := Option.map_eq_some_iff.1 hslot
  rw [hl] at hfind
  generalize hb : List.find? _ locals = found at hfind
  cases hfind with
  | @some _ b hp =>
    obtain ⟨_, w, hw, hrel⟩ := hp
    exact ⟨b.2, w, by rw [Env.get?, hb]; rfl, hw, hrel⟩

/-- What has no slot is no local. -/
theorem get?_none (h : Holds R G choosing code Γ slots locals) (hs : G.shows s = true)
    (hslot : slotIn Γ.locals s = none) : Env.get? locals s = none := by
  have hfind := find?_shown (fun _ _ hp => hp.1) h.shown hs
  rw [Option.map_eq_none_iff.1 hslot] at hfind
  generalize hb : List.find? _ locals = found at hfind
  cases hfind with
  | none => rw [Env.get?, hb]; rfl

theorem binds_eq (h : Holds R G choosing code Γ slots locals) (hs : G.shows s = true) :
    binds locals s = (slotIn Γ.locals s).isSome := by
  rw [Meaning.binds_eq]
  cases hslot : slotIn Γ.locals s with
  | none => rw [h.get?_none hs hslot]; rfl
  | some n =>
    obtain ⟨v, w, hv, -⟩ := h.get?_slot hs hslot
    rw [hv]
    rfl

/-- Slots that no visible local has can be written to. -/
theorem write_free (h : Holds R G choosing code Γ slots locals) (hn : Γ.locals.length ≤ n)
    (hroom : n < code.localCount) (hrel : R v w) :
    Holds R G choosing code Γ (setSlot slots n w) locals := by
  have hsize : n < slots.size := Nat.lt_of_lt_of_le hroom h.size
  have hkept : ∀ (i : Nat) u, i < Γ.locals.length → slots[i]? = some u →
      (setSlot slots n w)[i]? = some u := by
    intro i u hi hu
    rw [getElem?_setSlot hsize, if_neg (by omega), hu]
  have hbase : ∀ r p, choosing = some (r, p) → 1 < Γ.locals.length := by
    intro r p hchoosing
    obtain ⟨base, hbase, hsuffix⟩ := h.based r p hchoosing
    have hle := hsuffix.length_le
    rw [hbase.length_eq] at hle
    exact hle
  refine ⟨h.room, by rw [size_setSlot hsize]; exact h.size, h.dense, ?_, ?_, h.based, ?_, ?_⟩
  · have hlt : ∀ l ∈ G.shown Γ.locals, l.slot < Γ.locals.length := fun l hl =>
      h.dense.slot_lt (List.mem_filter.1 hl).1
    refine ((List.forall₂_and_left _ _).2 ⟨hlt, h.shown⟩).imp ?_
    rintro l b ⟨hl, hname, u, hu, hb⟩
    exact ⟨hname, u, hkept _ u hl hu, hb⟩
  · intro i u hu
    rw [getElem?_setSlot hsize] at hu
    split at hu
    · cases hu
      exact ⟨v, hrel⟩
    · exact h.stocked i u hu
  · intro r p hchoosing
    obtain ⟨u, hu, hpayload⟩ := h.payload r p hchoosing
    have := hbase r p hchoosing
    exact ⟨u, hkept 0 u (by omega) hu, hpayload⟩
  · intro r p hchoosing
    obtain ⟨u, hu, hk⟩ := h.k r p hchoosing
    exact ⟨u, hkept 1 u (hbase r p hchoosing) hu, hk⟩

/-- One more local is visible, with the value that its slot holds. -/
theorem bind (h : Holds R G choosing code Γ slots locals) (hs : G.shows s = true)
    (hroom : Γ.locals.length < code.localCount) (hw : slots[Γ.locals.length]? = some w)
    (hrel : R v w) : Holds R G choosing code (Γ.declared s) slots ((s, v) :: locals) := by
  refine ⟨hroom, h.size, ⟨rfl, h.dense⟩, ?_, h.stocked, ?_, h.payload, h.k⟩
  · rw [Lexical.declared, Ground.shown_cons hs]
    exact .cons ⟨rfl, w, hw, hrel⟩ h.shown
  · intro r p hchoosing
    obtain ⟨base, hbase, hsuffix⟩ := h.based r p hchoosing
    exact ⟨base, hbase, hsuffix.trans (List.suffix_cons _ _)⟩

/-- One more local is visible, which programs cannot mention. -/
theorem bind_hidden (h : Holds R G choosing code Γ slots locals) (hs : G.shows s = false)
    (hroom : Γ.locals.length < code.localCount) :
    Holds R G choosing code (Γ.declared s) slots locals := by
  refine ⟨hroom, h.size, ⟨rfl, h.dense⟩, ?_, h.stocked, ?_, h.payload, h.k⟩
  · rw [Lexical.declared, Ground.shown_cons_hidden hs]
    exact h.shown
  · intro r p hchoosing
    obtain ⟨base, hbase, hsuffix⟩ := h.based r p hchoosing
    exact ⟨base, hbase, hsuffix.trans (List.suffix_cons _ _)⟩

/-- The depth of the current scope and the locals of the functions around do not matter. -/
theorem congr (h : Holds R G choosing code Γ slots locals) (hlocals : Γ'.locals = Γ.locals) :
    Holds R G choosing code Γ' slots locals := by
  refine ⟨?_, h.size, ?_, ?_, h.stocked, ?_, h.payload, h.k⟩ <;> rw [hlocals]
  · exact h.room
  · exact h.dense
  · exact h.shown
  · exact h.based

/-- A declaration. -/
theorem declare (h : Holds R G choosing code Γ slots locals) (hs : G.shows s = true)
    (hroom : Γ.locals.length < code.localCount) (hrel : R v w) :
    Holds R G choosing code (Γ.declared s) (setSlot slots Γ.locals.length w)
      ((s, v) :: locals) := by
  refine (h.write_free (Nat.le_refl _) hroom hrel).bind hs hroom ?_ hrel
  rw [getElem?_setSlot (Nat.lt_of_lt_of_le hroom h.size), if_pos rfl]

/-- More locals are visible, with the values that their slots hold. -/
theorem bind_all (h : Holds R G choosing code Γ slots locals) {symbols : List Symbol}
    {values : List Value} (hlength : values.length = symbols.length)
    (hshown : ∀ t ∈ symbols, G.shows t = true)
    (hroom : (Γ.declaredAll symbols).locals.length ≤ code.localCount)
    (hslots : ∀ i v, values[i]? = some v →
      ∃ w, slots[Γ.locals.length + i]? = some w ∧ R v w) :
    Holds R G choosing code (Γ.declaredAll symbols) slots
      ((symbols.zip values).reverse ++ locals) := by
  induction symbols generalizing Γ locals values with
  | nil => exact h
  | cons t symbols ih =>
    obtain ⟨v, values, rfl⟩ := List.exists_cons_of_length_eq_add_one hlength
    obtain ⟨ht, hshown⟩ := List.forall_mem_cons.1 hshown
    have hlt : Γ.locals.length < code.localCount := by
      rw [Lexical.length_declaredAll, List.length_cons] at hroom
      omega
    obtain ⟨w, hw, hrel⟩ := hslots 0 v rfl
    have hrest := ih (h.bind ht hlt hw hrel) (Nat.succ.inj hlength) hshown hroom fun i u hu => by
      have hnext := hslots (i + 1) u hu
      rwa [← Nat.add_assoc, Nat.add_right_comm] at hnext
    rwa [List.zip_cons_cons, List.reverse_cons, List.append_assoc]

/-- Names that are passed over are bound to whatever is in their slots. -/
theorem pass_all (h : Holds R G choosing code Γ slots locals) (symbols : List Symbol)
    (hshown : ∀ t ∈ symbols, G.shows t = true)
    (hroom : (Γ.declaredAll symbols).locals.length ≤ code.localCount) :
    ∃ fill : List Value, fill.length = symbols.length ∧
      Holds R G choosing code (Γ.declaredAll symbols) slots
        ((symbols.zip fill).reverse ++ locals) := by
  have hstocked : ∀ i, ∃ v, i < symbols.length → ∃ w, slots[Γ.locals.length + i]? = some w ∧ R v w := by
    intro i
    by_cases hi : i < symbols.length
    · have hslot : Γ.locals.length + i < slots.size := by
        have := h.size
        rw [Lexical.length_declaredAll] at hroom
        omega
      obtain ⟨v, hv⟩ := h.stocked _ _ (Array.getElem?_eq_getElem hslot)
      exact ⟨v, fun _ => ⟨_, Array.getElem?_eq_getElem hslot, hv⟩⟩
    · exact ⟨.none, fun hlt => absurd hlt hi⟩
  choose value hvalue using hstocked
  refine ⟨(List.range symbols.length).map value, by simp, h.bind_all (by simp) hshown hroom ?_⟩
  intro i v hv
  rw [List.getElem?_map, Option.map_eq_some_iff] at hv
  obtain ⟨j, hj, rfl⟩ := hv
  obtain ⟨hlt, rfl⟩ := List.getElem?_eq_some_iff.1 hj
  rw [List.getElem_range]
  exact hvalue i (by simpa using hlt)

/-- A write goes to the slot of the local of that name, and to no other. -/
theorem assign (h : Holds R G choosing code Γ slots locals) (hs : G.shows s = true)
    (hslot : slotIn Γ.locals s = some n) (hrel : R v w) :
    Holds R G choosing code Γ (setSlot slots n w) (Meaning.assign s v locals) := by
  have hsize : n < slots.size := h.lt_size (slotIn_lt h.dense hslot)
  have hbase : ∀ r p, choosing = some (r, p) → 2 ≤ n := by
    intro r p hchoosing
    obtain ⟨base, hbase, new, hnew⟩ := h.based r p hchoosing
    have hdense := h.dense
    obtain ⟨l, hl, rfl⟩ := Option.map_eq_some_iff.1 hslot
    have hname := List.find?_some hl
    have hmem := List.mem_of_find?_eq_some hl
    rw [← hnew] at hdense hmem
    obtain hmem | hmem := List.mem_append.1 hmem
    · have hle := hdense.length_le_slot hmem
      rwa [hbase.length_eq] at hle
    · have hhidden := hbase.hidden l hmem
      rw [Ground.shows_congr hname, hs] at hhidden
      cases hhidden
  refine ⟨h.room, by rw [size_setSlot hsize]; exact h.size, h.dense,
    assigned hsize h.dense hs hslot hrel h.shown, ?_, h.based, ?_, ?_⟩
  · intro i u hu
    rw [getElem?_setSlot hsize] at hu
    split at hu
    · cases hu
      exact ⟨v, hrel⟩
    · exact h.stocked i u hu
  · intro r p hchoosing
    obtain ⟨u, hu, hpayload⟩ := h.payload r p hchoosing
    have := hbase r p hchoosing
    exact ⟨u, by rw [getElem?_setSlot hsize, if_neg (by omega), hu], hpayload⟩
  · intro r p hchoosing
    obtain ⟨u, hu, hk⟩ := h.k r p hchoosing
    have := hbase r p hchoosing
    exact ⟨u, by rw [getElem?_setSlot hsize, if_neg (by omega), hu], hk⟩

/-- At the end of a scope its locals are gone. -/
theorem leave (h : Holds R G choosing code Γ' slots locals) (hgrows : Γ.opened.Grows Γ')
    (hbased : ∀ r p, choosing = some (r, p) → ∃ base, Based G p base ∧ base <:+ Γ.locals) :
    Holds R G choosing code Γ slots
      (locals.drop (locals.length - (G.shown Γ.locals).length)) := by
  obtain ⟨new, hnew, -⟩ := hgrows.locals
  have hlocals : Γ'.locals = new ++ Γ.locals := hnew
  have hshown := h.shown
  have hroom := h.room
  rw [hlocals, Ground.shown_append] at hshown
  rw [hlocals, List.length_append] at hroom
  refine ⟨Nat.le_trans (Nat.le_add_left _ _) hroom, h.size, h.dense.suffix ⟨new, hlocals.symm⟩, ?_,
    h.stocked, hbased, h.payload, h.k⟩
  have hlength := hshown.length_eq
  rw [List.length_append] at hlength
  have hgone := List.forall₂_drop (G.shown new).length hshown
  rw [List.drop_left] at hgone
  rw [show locals.length - (G.shown Γ.locals).length = (G.shown new).length by omega]
  exact hgone

end Holds

namespace Copied

variable {R : Value → Value → Prop} {G : Ground} {code : Code Value} {Γ Γ' : Lexical}
  {env env' captured : Env Value} {s : Symbol} {v w : Value}

/-- What a function captures is taken from the functions around, whatever it declares itself. -/
theorem congr (h : Copied R G code Γ env captured) (houter : Γ'.outer = Γ.outer) :
    Copied R G code Γ' env captured :=
  ⟨h.bound, fun t ht => by rw [Lexical.isOuter, houter]; exact h.outer t ht, h.values⟩

/-- A write to a captured name. -/
theorem store (h : Copied R G code Γ env captured) (hset : Env.set? env s w = some env')
    (hrel : R v w) : Copied R G code Γ env' (assign s v captured) := by
  refine ⟨?_, ?_, ?_⟩
  · intro t ht
    rw [Env.get?_set? hset]
    split
    · exact ⟨w, rfl⟩
    · exact h.bound t ht
  · intro t ht
    rw [binds_assign]
    exact h.outer t ht
  · intro t u ht hcaptures hu
    rw [Env.get?_set? hset] at hu
    obtain ⟨u', hu'⟩ := h.bound t hcaptures
    obtain ⟨v', hv', hrel'⟩ := h.values t u' ht hcaptures hu'
    rw [get?_assign, hv']
    split at hu
    next hsame =>
      cases hu
      exact ⟨v, by rw [if_pos hsame]; rfl, hrel⟩
    next hne =>
      rw [hu'] at hu
      cases hu
      exact ⟨v', if_neg hne, hrel'⟩

end Copied

end Meaning

end Resumable
