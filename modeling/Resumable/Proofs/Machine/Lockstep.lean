import Resumable.Proofs.Machine.TailCall

/-!
Every instruction does the same in two machines that run the same program, one with tail calls and the
other with plain calls in their place.
-/

namespace Resumable

/-- Names and values in turn, on two stacks. -/
theorem keyed_of_related {fields : List (Symbol × Value)} {vs : List Value}
    (h : List.Forall₂ Value.Untails (Exec.keyed fields) vs) :
    ∃ fields', vs = Exec.keyed fields' ∧ fields'.length = fields.length ∧
      Env.Related Value.Untails fields fields' := by
  induction fields generalizing vs with
  | nil =>
    cases h
    exact ⟨[], rfl, rfl, .nil⟩
  | cons f fields ih =>
    obtain ⟨key, _, hkey, hvalue, rfl⟩ := List.forall₂_cons_left_iff.1 h
    obtain ⟨v, rest, hv, hrest, rfl⟩ := List.forall₂_cons_left_iff.1 hvalue
    obtain ⟨fields', rfl, hlength, hfields⟩ := ih hrest
    cases hkey.unfold.alike
    exact ⟨(f.1, v) :: fields', rfl, by simp [hlength], .cons ⟨rfl, hv⟩ hfields⟩

/-- Effects and clauses in turn, on two stacks. -/
theorem pairs_of_related {pairs : List (Value × Value)} {vs : List Value}
    (h : List.Forall₂ Value.Untails (pairs.flatMap fun p => [p.1, p.2]) vs) :
    ∃ pairs' : List (Value × Value), vs = pairs'.flatMap (fun p => [p.1, p.2]) ∧
      List.Forall₂ (fun p p' => p.1.Untails p'.1 ∧ p.2.Untails p'.2) pairs pairs' := by
  induction pairs generalizing vs with
  | nil =>
    cases h
    exact ⟨[], rfl, .nil⟩
  | cons p pairs ih =>
    obtain ⟨key, _, hkey, hclause, rfl⟩ := List.forall₂_cons_left_iff.1 h
    obtain ⟨v, rest, hv, hrest, rfl⟩ := List.forall₂_cons_left_iff.1 hclause
    obtain ⟨pairs', rfl, hpairs⟩ := ih hrest
    exact ⟨(key, v) :: pairs', rfl, .cons ⟨hkey, hv⟩ hpairs⟩

namespace Meets

variable {m m' : Machine} {pre pre' : List Activation} {a a' : Activation}

/-- The last activations go on with the values that an instruction leaves. -/
theorem goesOn {b b' : Activation} {vs vs' : List Value} (hm : m.Coupled m')
    (habreast : Abreast pre a pre' a') (hmirrors : b.Mirrors Value.Untails b')
    (hb : b.handler = a.handler) (hb' : b'.handler = a'.handler)
    (hvs : List.Forall₂ Value.Untails vs vs') :
    Meets (none : Option Value) (.ok none (m.showing (pre ++ [b]) vs))
      (.ok none (m'.showing (pre' ++ [b']) vs')) := by
  rw [← List.append_nil vs, ← List.append_nil vs', ← Machine.showing_pushAll,
    ← Machine.showing_pushAll]
  exact .paired (.running hm (habreast.update (hmirrors.pushAll hvs) hb hb'))

theorem goesOn_value {v v' : Value} (hm : m.Coupled m') (habreast : Abreast pre a pre' a')
    (hv : v.Untails v') :
    Meets (none : Option Value) (.ok none (m.showing (pre ++ [a]) [v]))
      (.ok none (m'.showing (pre' ++ [a']) [v'])) :=
  goesOn hm habreast habreast.mirrors rfl rfl (.cons hv .nil)

/-- A handler is installed. -/
theorem install {acts acts' : List Activation} {clauses clauses' : List (Effect × Value)}
    {body body' : Value} (hm : m.Coupled m') (hacts : Spread Value.Untails acts acts')
    (hclauses : ClausesRelated Eq Value.Untails clauses clauses') (hbody : body.Untails body') :
    Meets () (Exec.install clauses body (m.showing acts []))
      (Exec.install clauses' body' (m'.showing acts' [])) := by
  have hrefuse : Meets ()
      (.error (.error (.typeError
        ("handled body must be a zero-argument function, got " ++ body.typeName)))
        (m.showing acts []))
      (.error (.error (.typeError
        ("handled body must be a zero-argument function, got " ++ body'.typeName)))
        (m'.showing acts' [])) := by
    rw [Likeness.typeName_eq (L := untailing) hbody]
    exact .failed (hm.showing acts acts' [] [])
  cases body with
  | closure id f env =>
    cases hbody.unfold.alike with
    | flat hflat => cases hflat
    | @closure _ _ _ f' _ env' hid hname hparams =>
    obtain rfl := hid
    have harity' : f'.arity = f.arity := by rw [Code.arity, Code.arity, hparams]
    by_cases harity : f.arity = 0
    · obtain ⟨_, detail, s', herror, _, hretains⟩ | ⟨hroom, hok⟩ :=
        Exec.install_showing m' acts' clauses' id f' env' (harity'.trans harity)
      · rw [herror]
        obtain ⟨hwaiting, level, hlevels, hlevel⟩ := hm.single'
        exact .overflow ⟨hretains.waiting.trans hwaiting, level, hretains.levels.trans hlevels, hlevel⟩
      · obtain ⟨hfull, _⟩ | ⟨_, hok'⟩ := Exec.install_showing m acts clauses id f env harity
        · obtain ⟨hlength, hheight⟩ := hacts.size_le
          refine absurd (hm.full hlength hheight ?_ hfull) hroom
          rfl
        · rw [hok, hok', hm.label]
          refine .paired (.running hm.relabeled ⟨⟨acts', [], by simp, hacts, List.forall_mem_nil _, ?_⟩,
            mirrors_enter hbody .nil⟩)
          exact .cons ⟨hclauses, rfl⟩ .nil
    · have hrun : ∀ (s : Machine) (clauses : List (Effect × Value)) (f : Code Value) env,
          f.arity ≠ 0 → Exec.install clauses (.closure id f env) s = .error (.error (.typeError
            ("handled body must be a zero-argument function, got " ++
              (Value.closure id f env).typeName))) s := by
        intro s clauses f env hf
        simp only [Exec.install, if_neg hf]
        rfl
      rw [hrun _ _ _ _ harity, hrun _ _ _ _ (harity' ▸ harity)]
      exact hrefuse
  | _ => cases hbody.unfold.alike <;> exact hrefuse

/-- An instruction that neither calls nor installs a handler. -/
theorem stays {op : Op} {operand : Nat} {takes leaves : List Kind} {vs vs' : List Value}
    (hm : m.Coupled m') (habreast : Abreast pre a pre' a') (ha : a.Sound .value leaves)
    (hstraight : a.code.Straight .value op operand takes leaves)
    (hfits : List.Forall₂ Kind.Fits takes vs) (hvs : List.Forall₂ Value.Untails vs vs')
    (hop : op ≠ .call ∧ op ≠ .tailCall ∧ op ≠ .handle) (start line : Nat) :
    Meets none (Exec.execute { op, operand, start, line } (m.showing (pre ++ [a]) vs))
      (Exec.execute { op, operand, start, line } (m'.showing (pre' ++ [a']) vs')) := by
  have hcode := habreast.mirrors.code
  cases hstraight with
  | @literal i v hconstant hliteral =>
    cases hfits
    cases hvs
    have hflat : v.isFlat = true := by cases v <;> first | rfl | cases hliteral
    rw [Exec.execute_constant m pre a [] start line hconstant,
      Exec.execute_constant m' pre' a' [] start line (hcode.constant hflat hconstant)]
    have hsimple : v.isSimple = true := by cases v <;> first | rfl | cases hliteral
    exact goesOn_value hm habreast (untailing.flat hsimple)
  | @key i s hconstant =>
    cases hfits
    cases hvs
    rw [Exec.execute_constant m pre a [] start line hconstant,
      Exec.execute_constant m' pre' a' [] start line (hcode.constant rfl hconstant)]
    exact goesOn_value hm habreast (Value.untails_symbol s)
  | pushNone =>
    cases hfits
    cases hvs
    rw [Exec.execute_pushNone, Exec.execute_pushNone]
    exact goesOn_value hm habreast (untailing.flat rfl)
  | pop =>
    obtain ⟨v, _, rfl⟩ := forall₂_singleton_left hfits
    obtain ⟨v', hv, rfl⟩ := forall₂_singleton_left hvs
    rw [← List.nil_append [v], ← List.nil_append [v'], Exec.execute_pop,
      Exec.execute_pop]
    exact goesOn hm habreast habreast.mirrors rfl rfl .nil
  | loadLocal hroom =>
    cases hfits
    cases hvs
    have hlocal : operand < a.locals.size := Nat.lt_of_lt_of_le hroom ha.shape.locals
    have hrel := getElem?_locals_related (L := untailing) habreast.mirrors.locals operand
    rw [Array.getElem?_eq_getElem hlocal] at hrel
    generalize hlocal' : a'.locals[operand]? = found at hrel
    cases hrel with
    | some hv =>
      rw [Exec.execute_loadLocal m pre a [] start line (Array.getElem?_eq_getElem hlocal),
        Exec.execute_loadLocal m' pre' a' [] start line hlocal']
      exact goesOn_value hm habreast hv
  | storeLocal hroom =>
    obtain ⟨v, _, rfl⟩ := forall₂_singleton_left hfits
    obtain ⟨v', hv, rfl⟩ := forall₂_singleton_left hvs
    obtain ⟨_, henv, hlocals, hip, hoperands⟩ := habreast.mirrors
    rw [← List.nil_append [v], ← List.nil_append [v'], Exec.execute_storeLocal,
      Exec.execute_storeLocal]
    exact goesOn hm habreast ⟨hcode, henv,
      setSlot_related (L := untailing) hlocals operand hv, hip, hoperands⟩ rfl rfl .nil
  | @loadCaptured _ s hconstant hcaptures =>
    cases hfits
    cases hvs
    obtain ⟨v, hv⟩ := ha.shape.captured hcaptures
    have hrel := Env.Related.get? (L := untailing) habreast.mirrors.env s
    rw [hv] at hrel
    generalize hget : Env.get? a'.env s = found at hrel
    cases hrel with
    | some hrel =>
      rw [Exec.execute_loadCaptured m pre a [] start line hconstant hv,
        Exec.execute_loadCaptured m' pre' a' [] start line (hcode.constant rfl hconstant) hget]
      exact goesOn_value hm habreast hrel
  | @storeCaptured _ s hconstant hcaptures =>
    obtain ⟨v, _, rfl⟩ := forall₂_singleton_left hfits
    obtain ⟨v', hv, rfl⟩ := forall₂_singleton_left hvs
    obtain ⟨w, hw⟩ := ha.shape.captured hcaptures
    obtain ⟨env, henv⟩ := Env.set?_of_bound (Option.isSome_iff_exists.2 ⟨w, hw⟩) v
    have hrel := Env.Related.set? (L := untailing) habreast.mirrors.env s hv
    rw [henv] at hrel
    generalize henv' : Env.set? a'.env s v' = found at hrel
    cases hrel with
    | some hrel =>
      obtain ⟨_, _, hlocals, hip, hoperands⟩ := habreast.mirrors
      rw [← List.nil_append [v], ← List.nil_append [v'],
        Exec.execute_storeCaptured m pre a [] start line v hconstant henv,
        Exec.execute_storeCaptured m' pre' a' [] start line v' (hcode.constant rfl hconstant) henv']
      exact goesOn hm habreast ⟨hcode, hrel, hlocals, hip, hoperands⟩ rfl rfl .nil
  | @loadGlobal _ s hconstant =>
    cases hfits
    cases hvs
    rw [Exec.execute_loadGlobal m pre a [] start line hconstant,
      Exec.execute_loadGlobal m' pre' a' [] start line (hcode.constant rfl hconstant)]
    have hrel := hm.world.globals s
    generalize m.world.globals.get? s = found at hrel
    generalize m'.world.globals.get? s = found' at hrel
    cases hrel with
    | some hv => exact goesOn_value hm habreast hv
    | none => exact .failed (hm.showing _ _ _ _)
  | @storeGlobal _ s hconstant =>
    obtain ⟨v, _, rfl⟩ := forall₂_singleton_left hfits
    obtain ⟨v', hv, rfl⟩ := forall₂_singleton_left hvs
    rw [← List.nil_append [v], ← List.nil_append [v'],
      Exec.execute_storeGlobal m pre a [] start line v hconstant,
      Exec.execute_storeGlobal m' pre' a' [] start line v' (hcode.constant rfl hconstant)]
    exact goesOn (hm.withWorld (hm.world.setGlobal s hv)) habreast habreast.mirrors rfl rfl .nil
  | @lambda _ id f k hconstant hsupplied hkind =>
    cases hfits
    cases hvs
    obtain ⟨env, hbound, _⟩ := Machine.sound_lambda ha hconstant hsupplied m.world.draw.1
    obtain ⟨f', hconstant', hf⟩ := hcode.nested hconstant
    obtain ⟨env', hbound', henv⟩ := Activation.bindAll_related (L := untailing) habreast.mirrors.env
      habreast.mirrors.locals .nil hbound
    rw [← hf.captures_eq] at hbound'
    obtain ⟨hid, hdrawn⟩ := hm.world.draw_eq rfl
    rw [Exec.execute_lambda m pre a [] start line hconstant hbound,
      Exec.execute_lambda m' pre' a' [] start line hconstant' hbound', hid]
    exact goesOn_value (hm.withWorld hdrawn) habreast
      (.fold ⟨.closure rfl hf.name_eq hf.params_eq, hf, henv⟩)
  | call => exact absurd rfl hop.1
  | tailCall => exact absurd rfl hop.2.1
  | buildList =>
    have hlength := Machine.fits_replicate hfits
    rw [← List.nil_append vs, ← List.nil_append vs',
      Exec.execute_buildList m _ [] start line hlength,
      Exec.execute_buildList m' _ [] start line (hvs.length_eq.symm.trans hlength)]
    exact goesOn_value hm habreast (untailing.list hvs)
  | buildTuple =>
    have hlength := Machine.fits_replicate hfits
    rw [← List.nil_append vs, ← List.nil_append vs',
      Exec.execute_buildTuple m _ [] start line hlength,
      Exec.execute_buildTuple m' _ [] start line (hvs.length_eq.symm.trans hlength)]
    exact goesOn_value hm habreast (untailing.tuple hvs)
  | buildRecord =>
    obtain ⟨fields, rfl, rfl⟩ := Machine.fits_keyed hfits
    obtain ⟨fields', rfl, hlength, hfields⟩ := keyed_of_related hvs
    rw [← List.nil_append (Exec.keyed fields), ← List.nil_append (Exec.keyed fields'),
      Exec.execute_buildRecord, ← hlength, Exec.execute_buildRecord]
    exact goesOn_value hm habreast (untailing.record (keyed_related (L := untailing) hfields .nil))
  | @getField _ s hconstant =>
    obtain ⟨v, _, rfl⟩ := forall₂_singleton_left hfits
    obtain ⟨v', hv, rfl⟩ := forall₂_singleton_left hvs
    rw [← List.nil_append [v], ← List.nil_append [v'],
      Exec.execute_getField m pre a [] start line v hconstant,
      Exec.execute_getField m' pre' a' [] start line v' (hcode.constant rfl hconstant)]
    obtain ⟨w, w', hw, hw', hrel⟩ | ⟨e, he, he'⟩ := (project_related (L := untailing) hv s).inv
    · rw [hw, hw']
      exact goesOn_value hm habreast hrel
    · rw [he, he']
      exact .failed (hm.showing _ _ _ _)
  | makeHandler =>
    obtain ⟨pairs, hlength, rfl, _⟩ := Machine.fits_clauses hfits
    obtain ⟨pairs', rfl, hpairs⟩ := pairs_of_related hvs
    rw [← List.nil_append (pairs.flatMap _), ← List.nil_append (pairs'.flatMap _),
      Exec.execute_makeHandler m _ [] start line pairs hlength,
      Exec.execute_makeHandler m' _ [] start line pairs' (hpairs.length_eq.symm.trans hlength)]
    obtain ⟨hid, hdrawn⟩ := hm.world.draw_eq rfl
    obtain ⟨clauses, clauses', hc, hc', hrel⟩ | ⟨e, he, he'⟩ :=
      (clausesFrom_related (L := untailing) hpairs).inv
    · rw [hc, hc', hid]
      exact goesOn_value (hm.withWorld hdrawn) habreast
        (.fold ⟨.handler rfl hrel.length_eq.symm, hrel⟩)
    · rw [he, he']
      exact .failed (hm.showing _ _ _ _)
  | handle => exact absurd rfl hop.2.2

/-- Each instruction without jump. -/
theorem straight {op op' : Op} {operand : Nat} {takes leaves : List Kind} {vs vs' : List Value}
    (hm : m.Coupled m') (habreast : Abreast pre a pre' a') (ha : a.Sound .value leaves)
    (hground : Grounded .value (pre ++ [a]))
    (hstraight : a.code.Straight .value op operand takes leaves)
    (hfits : List.Forall₂ Kind.Fits takes vs) (hvs : List.Forall₂ Value.Untails vs vs')
    (hop : op' = op ∨ op = .tailCall ∧ op' = .call)
    (htail : op = .tailCall → a.Idle ∧ a.operands = [] ∧ a'.Idle) (start line : Nat) :
    Meets none (Exec.execute { op, operand, start, line } (m.showing (pre ++ [a]) vs))
      (Exec.execute { op := op', operand, start, line } (m'.showing (pre' ++ [a']) vs')) := by
  by_cases hother : op ≠ .call ∧ op ≠ .tailCall ∧ op ≠ .handle
  · obtain rfl : op' = op := hop.resolve_right fun h => hother.2.1 h.1
    exact stays hm habreast ha hstraight hfits hvs hother start line
  have hsame : op ≠ .tailCall → op' = op := fun h => hop.resolve_right fun h' => h h'.1
  cases hstraight with
  | call =>
    obtain ⟨args, callee, rfl, hargs, _⟩ := forall₂_concat_left hfits
    obtain ⟨args', callee', rfl, hrel, hcallee⟩ := forall₂_concat_left hvs
    have hlength := Machine.fits_replicate hargs
    rw [hsame (by decide), ← List.nil_append (args ++ [callee]), ← List.nil_append (args' ++ [callee'])]
    refine andNone ?_
    rw [Exec.callTop_showing m _ [] line hlength,
      Exec.callTop_showing m' _ [] line (hrel.length_eq.symm.trans hlength),
      ← List.append_nil (pre' ++ [a'])]
    exact call hm habreast.spread hground (by simp) .nil hcallee hrel line
  | tailCall =>
    obtain ⟨args, callee, rfl, hargs, _⟩ := forall₂_concat_left hfits
    obtain ⟨args', callee', rfl, hrel, hcallee⟩ := forall₂_concat_left hvs
    have hlength := Machine.fits_replicate hargs
    have hlength' := hrel.length_eq.symm.trans hlength
    obtain ⟨hidle, hoperands, hidle'⟩ := htail rfl
    rw [← List.nil_append (args ++ [callee]), ← List.nil_append (args' ++ [callee'])]
    obtain rfl | ⟨_, rfl⟩ := hop
    · refine andNone ?_
      rw [Exec.callTop_showing m _ [] line hlength, Exec.callTop_showing m' _ [] line hlength']
      exact callTail hm habreast hground hidle hoperands hidle' hcallee hrel line true
    · refine andNone ?_
      rw [Exec.callTop_showing m _ [] line hlength, Exec.callTop_showing m' _ [] line hlength']
      exact callTail hm habreast hground hidle hoperands hidle' hcallee hrel line false
  | handle =>
    obtain ⟨handler, _, ⟨id, clauses, rfl⟩, hrest, rfl⟩ := List.forall₂_cons_left_iff.1 hfits
    obtain ⟨body, _, rfl⟩ := forall₂_singleton_left hrest
    obtain ⟨handler', _, hhandler, hrest, rfl⟩ := List.forall₂_cons_left_iff.1 hvs
    obtain ⟨body', hbody, rfl⟩ := forall₂_singleton_left hrest
    cases hhandler.unfold.alike with
    | flat hflat => cases hflat
    | @handler _ id' _ clauses' _ _ =>
    rw [hsame (by decide), ← List.nil_append [Value.handler id clauses, body],
      ← List.nil_append [Value.handler id' clauses', body'], Exec.execute_handle, Exec.execute_handle]
    exact andNone (install hm habreast.spread hhandler.unfold.inner hbody)
  | _ => exact absurd (by decide) hother

end Meets

end Resumable
