import Resumable.Proofs.Compile.Verified
import Resumable.Proofs.Expr.Hygiene
import Resumable.Proofs.Expr.Surface

/-!
How names are resolved in compiled code. Where a name is mentioned in a program, the instruction on it
finds the variable that the name refers to by the places where names are declared.
-/

namespace Resumable

namespace Names.Coherent

variable {names : Names} {supply : Supply}

/-- Symbols are the same exactly if their names are. -/
theorem beq_eq (hnames : names.Coherent supply) {x y : String} {s t : Symbol}
    (hx : names.find? x = some s) (hy : names.find? y = some t) : (s == t) = (x == y) := by
  refine Bool.eq_iff_iff.2 ⟨fun hid => ?_, fun hname => ?_⟩
  · exact beq_iff_eq.2 (hnames.distinct x y s t hx hy (Symbol.beq_iff.1 hid))
  · obtain rfl := beq_iff_eq.1 hname
    rw [Option.some.inj (hx.symm.trans hy)]
    exact Symbol.beq_iff.2 rfl

theorem contains_eq (hnames : names.Coherent supply) {xs : List String} {symbols : List Symbol}
    (hxs : List.Forall₂ (fun x symbol => names.find? x = some symbol) xs symbols) {y : String}
    {t : Symbol} (hy : names.find? y = some t) : symbols.contains t = xs.contains y := by
  induction hxs with
  | nil => rfl
  | cons hx _ ih => rw [List.contains_cons, List.contains_cons, hnames.beq_eq hy hx, ih]

end Names.Coherent

namespace Lexical

/-- The locals that are visible, those of the functions around behind those of the function. -/
def visible (Γ : Lexical) : List Local :=
  Γ.locals ++ Γ.outer.flatten

theorem isGlobal_opened (Γ : Lexical) : Γ.opened.isGlobal = false := by
  simp [isGlobal, opened]

/-- The visible locals are the ones of the given names, and each has a slot of its own in its
function. -/
structure Shows (names : Names) (Γ : Lexical) (B : Bindings) : Prop where
  visible : List.Forall₂ (fun l b => names.find? b.1 = some l.name) Γ.visible B
  dense : ∀ locals ∈ Γ.locals :: Γ.outer, DenseSlots locals

namespace Shows

variable {names : Names} {Γ : Lexical} {B : Bindings}

theorem empty : Shows names {} [] :=
  ⟨.nil, by simp [DenseSlots]⟩

theorem opened (h : Γ.Shows names B) : Γ.opened.Shows names B :=
  ⟨h.visible, h.dense⟩

theorem entered (h : Γ.Shows names B) : Γ.entered.Shows names B :=
  ⟨h.visible, List.forall_mem_cons.2 ⟨trivial, h.dense⟩⟩

theorem declared (h : Γ.Shows names B) {x : String} {symbol : Symbol}
    (hx : names.find? x = some symbol) (line : Nat) :
    (Γ.declared symbol).Shows names ((x, line) :: B) := by
  obtain ⟨hlocals, houter⟩ := List.forall_mem_cons.1 h.dense
  exact ⟨.cons hx h.visible, List.forall_mem_cons.2 ⟨⟨rfl, hlocals⟩, houter⟩⟩

theorem declaredAll (h : Γ.Shows names B) {xs : List String} {symbols : List Symbol}
    (hxs : List.Forall₂ (fun x symbol => names.find? x = some symbol) xs symbols) (line : Nat) :
    (Γ.declaredAll symbols).Shows names ((xs.map fun x => (x, line)).reverse ++ B) := by
  induction hxs generalizing Γ B with
  | nil => exact h
  | @cons x symbol xs symbols hx _ ih =>
    rw [List.map_cons, List.reverse_cons, List.append_assoc]
    exact ih (h.declared hx line)

/-- The variable of a name is at the place of its binder. -/
theorem position (h : Γ.Shows names B) {supply : Supply} (hnames : names.Coherent supply) {x : String}
    {symbol : Symbol} (hx : names.find? x = some symbol) :
    (Γ.visible.findIdx? fun l => l.name == symbol) = B.findIdx? fun b => b.1 == x := by
  obtain ⟨hvisible, -⟩ := h
  generalize Γ.visible = locals at hvisible
  induction hvisible with
  | nil => rfl
  | cons hfirst _ ih => rw [List.findIdx?_cons, List.findIdx?_cons, hnames.beq_eq hfirst hx, ih]

end Shows

end Lexical

theorem Code.Nests.trans {code f g : Code Value} (h : code.Nests f) (h' : f.Nests g) : code.Nests g := by
  induction h' with
  | self => exact h
  | inner _ hg ih => exact .inner ih hg

/-- In the code or in a function in it, an instruction accesses the variable of a name that is mentioned:
the one at the place of its binder among what is visible. -/
inductive Use.Accessed (o : CompileOptions) (names : Names) (code : Code Value) (u : Use) : Prop
  | intro {f : Code Value} {Γ : Lexical} {symbol : Symbol} {ops : AccessOps} {a b : Nat}
    (hnests : code.Nests f) (hshows : Γ.Shows names u.visible)
    (hname : names.find? u.name = some symbol)
    (hposition : (Γ.visible.findIdx? fun l => l.name == symbol) =
      u.visible.findIdx? fun b => b.1 == u.name)
    (hops : ops = .loads ∨ ops = .stores)
    (haccess : f.Access Γ ops symbol a (o.shown u.line) b) : Use.Accessed o names code u

theorem Use.Accessed.nests {o : CompileOptions} {names : Names} {code f : Code Value} {u : Use}
    (h : u.Accessed o names f) (hf : code.Nests f) : u.Accessed o names code := by
  obtain ⟨hnests, hshows, hname, hposition, hops, haccess⟩ := h
  exact ⟨hf.trans hnests, hshows, hname, hposition, hops, haccess⟩

/-- Code from one place in a function to another adds names to those that are visible, and accesses the
names that are mentioned. -/
structure Resolves (o : CompileOptions) (names : Names) (code : Code Value) (Γ : Lexical) (B : Bindings)
    (added : Bindings) (us : List Use) (Γ' : Lexical) : Prop where
  isGlobal : Γ'.isGlobal = Γ.isGlobal
  shows : Γ'.Shows names (B.after Γ.isGlobal added)
  accessed : ∀ u ∈ us, u.Accessed o names code

section Resolves

variable {o : CompileOptions} {names : Names} {supply : Supply} {code : Code Value} {Γ Γ' : Lexical}
  {B added : Bindings} {us : List Use}

namespace Resolves

theorem none (h : Γ.Shows names B) : Resolves o names code Γ B [] [] Γ :=
  ⟨rfl, by rwa [Bindings.after_nil], by simp⟩

theorem trans {Γ'' : Lexical} {added' : Bindings} {us' : List Use}
    (h : Resolves o names code Γ B added us Γ')
    (h' : Resolves o names code Γ' (B.after Γ.isGlobal added) added' us' Γ'') :
    Resolves o names code Γ B (added ++ added') (us ++ us') Γ'' := by
  refine ⟨h'.isGlobal.trans h.isGlobal, ?_, List.forall_mem_append.2 ⟨h.accessed, h'.accessed⟩⟩
  rw [Bindings.after_append, ← h.isGlobal]
  exact h.isGlobal ▸ h'.shows

/-- Nothing else is declared. -/
theorem andUses {Γ'' : Lexical} {us' : List Use} (h : Resolves o names code Γ B added us Γ')
    (h' : Resolves o names code Γ' (B.after Γ.isGlobal added) [] us' Γ'') :
    Resolves o names code Γ B added (us ++ us') Γ'' := by
  have hall := h.trans h'
  rwa [List.append_nil] at hall

/-- Nothing else is mentioned. -/
theorem andAdds {Γ'' : Lexical} {added' : Bindings} (h : Resolves o names code Γ B added us Γ')
    (h' : Resolves o names code Γ' (B.after Γ.isGlobal added) added' [] Γ'') :
    Resolves o names code Γ B (added ++ added') us Γ'' := by
  have hall := h.trans h'
  rwa [List.append_nil] at hall

theorem access (hnames : names.Coherent supply) (h : Γ.Shows names B) {x : String} {symbol : Symbol}
    (hx : names.find? x = some symbol) {ops : AccessOps} (hops : ops = .loads ∨ ops = .stores)
    {a b line : Nat} (haccess : code.Access Γ ops symbol a (o.shown line) b) :
    Resolves o names code Γ B [] [⟨x, line, B⟩] Γ := by
  refine ⟨rfl, by rwa [Bindings.after_nil], List.forall_mem_singleton.2 ?_⟩
  exact .intro .self h hx (h.position hnames hx) hops haccess

/-- What is declared in a scope of its own is not seen behind it. -/
theorem block {Γ' : Lexical} (h : Γ.Shows names B)
    (hbody : Resolves o names code Γ.opened B added us Γ') : Resolves o names code Γ B [] us Γ :=
  ⟨rfl, by rwa [Bindings.after_nil], hbody.accessed⟩

theorem declareGlobal (h : Γ.Shows names B) (hglobal : Γ.isGlobal = true) {x : String}
    {line : Nat} : Resolves o names code Γ B [(x, line)] [] Γ :=
  ⟨rfl, by rwa [hglobal], by simp⟩

theorem declareLocal (h : Γ.Shows names B) (hlocal : Γ.isGlobal = false) {x : String}
    {symbol : Symbol} (hx : names.find? x = some symbol) {line : Nat} :
    Resolves o names code Γ B [(x, line)] [] (Γ.declared symbol) :=
  ⟨rfl, by rw [hlocal]; exact h.declared hx line, by simp⟩

/-- A function that is made shows nothing to what comes after it. -/
theorem function (h : Γ.Shows names B) {f : Code Value} {i id : Nat}
    (hus : ∀ u ∈ us, u.Accessed o names f) (hconstant : code.constants[i]? = some (.code id f)) :
    Resolves o names code Γ B [] us Γ := by
  refine ⟨rfl, by rwa [Bindings.after_nil], fun u hu => (hus u hu).nests ?_⟩
  exact .inner .self (Array.mem_of_getElem? hconstant)

end Resolves

/-- What is visible at the start of the body of a function. -/
theorem FunctionHeader.shows (hnames : names.Coherent supply) (h : Γ.Shows names B) {f : Code Value}
    {self : Option String} {params : List String} (hheader : FunctionHeader names code Γ self params f)
    (line : Nat) : (Γ.bodyOf f).Shows names (B.within line self params) := by
  have hself : List.Forall₂ (fun x symbol => names.find? x = some symbol)
      (self.filter fun x => !params.contains x).toList f.selfName.toList := by
    rw [hheader.selfName_eq, hheader.name_eq]
    cases self with
    | none => exact .nil
    | some x =>
      obtain ⟨symbol, hx⟩ := Option.isSome_iff_exists.1 (hheader.name_known x rfl)
      have hcontains := hnames.contains_eq hheader.params_eq hx
      rw [Option.bind_some, hx, selfNameOf, hcontains, Option.filter_some]
      cases params.contains x with
      | true => exact .nil
      | false => exact .cons hx .nil
  have hall := h.entered.declaredAll (List.rel_append hheader.params_eq hself) line
  have hown : ∀ own : Option String, own.toList.reverse = own.toList := by rintro (_ | _) <;> rfl
  rwa [← List.map_reverse, List.reverse_append, hown] at hall

mutual

/-- The code of an expression resolves what is mentioned in it. -/
theorem Layout.resolves {code : Code Value} {Γ Γ' : Lexical} {tail : Bool} {e : Expr} {a b : Nat}
    {B : Bindings} (hnames : names.Coherent supply) :
    Layout o names code Γ tail e a Γ' b → Γ.Shows names B →
      Resolves o names code Γ B e.adds (e.uses Γ.isGlobal B) Γ'
  | .nothing _, h => .none h
  | .literal (e := e) hliteral _ _, h => by
    cases e <;> cases hliteral <;> exact .none h
  | .name hname haccess, h => .access hnames h hname (Or.inl rfl) haccess
  | .call hargs hcallee _, h => by
    have hfirst := hargs.resolves hnames h
    have hlast := hcallee.resolves hnames hfirst.shows
    rw [hfirst.isGlobal] at hlast
    exact hfirst.trans hlast
  | .condElse htest _ _ htrue _ _ hfalse, h => by
    have hfirst := htest.resolves hnames h
    have hsecond := htrue.resolves hnames hfirst.shows
    rw [hfirst.isGlobal] at hsecond
    have hboth := hfirst.trans hsecond
    have hthird := hfalse.resolves hnames hboth.shows
    rw [hboth.isGlobal] at hthird
    simpa [Expr.adds, Expr.uses] using hboth.trans hthird
  | .condOnly htest _ _ htrue _ _ _, h => by
    have hfirst := htest.resolves hnames h
    have hsecond := htrue.resolves hnames hfirst.shows
    rw [hfirst.isGlobal] at hsecond
    simpa [Expr.adds, Expr.uses] using hfirst.trans hsecond
  | .lambda hfunction hconstant _, h => .function h (hfunction.resolves hnames h _) hconstant
  | .blockEmpty _, h => .none h
  | .block hbody, h => by
    have hinside := hbody.resolves hnames h.opened
    rw [Lexical.isGlobal_opened] at hinside
    exact .block h hinside
  | .declareGlobal hvalue hglobal hname _ _ _, h => by
    have hbefore := hvalue.resolves hnames h
    exact hbefore.andAdds (.declareGlobal hbefore.shows hglobal)
  | .declareLocal hvalue hlocal hname hroom _ _, h => by
    have hbefore := hvalue.resolves hnames h
    exact hbefore.andAdds (.declareLocal hbefore.shows hlocal hname)
  | .assign hvalue hname haccess _, h => by
    have hbefore := hvalue.resolves hnames h
    exact hbefore.andUses (.access hnames hbefore.shows hname (Or.inr rfl) haccess)
  | .list hitems _, h | .tuple hitems _, h => hitems.resolves hnames h
  | .record hfields _, h => hfields.resolves hnames h
  | .field htarget _ _ _, h => by
    have hbefore := htarget.resolves hnames h
    exact hbefore
  | .handled hpairs _ hfunction hconstant _ _, h => by
    have hbefore := hpairs.resolves hnames h
    have hinside := hfunction.resolves hnames hbefore.shows 0
    exact hbefore.andUses (.function hbefore.shows hinside hconstant)

theorem LayoutAll.resolves {code : Code Value} {Γ Γ' : Lexical} {es : List Expr} {a b : Nat}
    {B : Bindings} (hnames : names.Coherent supply) :
    LayoutAll o names code Γ es a Γ' b → Γ.Shows names B →
      Resolves o names code Γ B (addsAll es) (usesAll Γ.isGlobal B es) Γ'
  | .nil, h => .none h
  | .cons hfirst hrest, h => by
    have hbefore := hfirst.resolves hnames h
    have hafter := hrest.resolves hnames hbefore.shows
    rw [hbefore.isGlobal] at hafter
    exact hbefore.trans hafter

theorem LayoutStatements.resolves {code : Code Value} {Γ Γ' : Lexical} {tail : Bool}
    {es : List Expr} {a b : Nat} {B : Bindings} (hnames : names.Coherent supply) :
    LayoutStatements o names code Γ tail es a Γ' b → Γ.Shows names B →
      Resolves o names code Γ B (addsAll es) (usesAll Γ.isGlobal B es) Γ'
  | .last hlast, h => by
    rw [addsAll, addsAll, List.append_nil, usesAll, usesAll, List.append_nil]
    exact hlast.resolves hnames h
  | .cons hfirst _ hrest, h => by
    have hbefore := hfirst.resolves hnames h
    have hafter := hrest.resolves hnames hbefore.shows
    rw [hbefore.isGlobal] at hafter
    exact hbefore.trans hafter

theorem LayoutFields.resolves {code : Code Value} {Γ Γ' : Lexical} {line : Nat}
    {fields : List (String × Expr)} {a b : Nat} {B : Bindings} (hnames : names.Coherent supply) :
    LayoutFields o names code Γ line fields a Γ' b → Γ.Shows names B →
      Resolves o names code Γ B (addsFields fields) (usesFields Γ.isGlobal B fields) Γ'
  | .nil, h => .none h
  | .cons _ _ _ hvalue hrest, h => by
    have hbefore := hvalue.resolves hnames h
    have hafter := hrest.resolves hnames hbefore.shows
    rw [hbefore.isGlobal] at hafter
    exact hbefore.trans hafter

theorem LayoutPairs.resolves {code : Code Value} {Γ Γ' : Lexical} {pairs : List (Expr × Expr)}
    {a b : Nat} {B : Bindings} (hnames : names.Coherent supply) :
    LayoutPairs o names code Γ pairs a Γ' b → Γ.Shows names B →
      Resolves o names code Γ B (addsPairs pairs) (usesPairs Γ.isGlobal B pairs) Γ'
  | .nil, h => .none h
  | .cons heffect hfunction hrest, h => by
    have hfirst := heffect.resolves hnames h
    have hsecond := hfunction.resolves hnames hfirst.shows
    rw [hfirst.isGlobal] at hsecond
    have hboth := hfirst.trans hsecond
    have hafter := hrest.resolves hnames hboth.shows
    rw [hboth.isGlobal] at hafter
    simpa [addsPairs, usesPairs] using hboth.trans hafter

/-- The code of a function accesses what is mentioned in its body. -/
theorem LayoutFunction.resolves {code : Code Value} {Γ : Lexical} {line : Nat} {self : Option String}
    {params : List String} {body : Expr} {f : Code Value} {B : Bindings}
    (hnames : names.Coherent supply) : LayoutFunction o names code Γ line self params body f →
      Γ.Shows names B → ∀ line', ∀ u ∈ body.uses false (B.within line' self params),
        u.Accessed o names f
  | .intro hheader hbody _ _, h => fun line' => by
    have hinside := hbody.resolves hnames (hheader.shows hnames h line')
    rw [Lexical.isGlobal_bodyOf] at hinside
    exact hinside.accessed

end

end Resolves

namespace Program

/-- In the code of a program that has been lowered, what is mentioned in it is accessed. -/
theorem emit_accesses {o : CompileOptions} {names : Names} {supply : Supply} {program : Program}
    {code : Code Value} (hnames : names.Coherent supply)
    (hemit : (program.emit o names supply).1 = .ok code) :
    ∀ u ∈ program.uses, u.Accessed o (program.emit o names supply).2.1 code := by
  rcases hresult : program.emit o names supply with ⟨result, names', supply'⟩
  rw [hresult] at hemit
  obtain rfl : result = .ok code := hemit
  have hall : ∀ e ∈ program, e.Every fun _ => True := fun e _ =>
    Expr.every_of_within e fun _ _ => trivial
  obtain ⟨hlayout, hcoherent, -⟩ := emit_layoutProgram hall hresult
  obtain ⟨Γ', n, line, -, -, ⟨rfl, -⟩ | ⟨last, -, -, hbody⟩⟩ := hlayout.body
  · simp [uses, usesAll]
  · exact (hbody.resolves (hcoherent hnames) .empty).accessed

/-- A name that is mentioned refers to a declaration in the program, or to a global variable. -/
theorem mem_binders_of_binder {program : Program} {u : Use} (hu : u ∈ program.uses) {line : Nat}
    (hbinder : u.binder = some line) : (u.name, line) ∈ program.binders := by
  have hinside : ∀ e ∈ program, ∀ b ∈ e.binders, b ∈ program.binders :=
    fun e he b hb => List.mem_flatMap.2 ⟨e, he, hb⟩
  have hvisible : ∀ b ∈ u.visible, b ∈ program.binders :=
    usesAll_visible (fun e he b hb => hinside e he b (Expr.mem_binders_of_adds hb))
      (fun e he => Expr.showsOnly_of_binders (hinside e he)) (by simp) u hu
  obtain ⟨⟨x, line'⟩, hfind, rfl⟩ := Option.map_eq_some_iff.1 hbinder
  have hname := List.find?_some hfind
  obtain rfl : x = u.name := by simpa using hname
  exact hvisible _ (List.mem_of_find?_eq_some hfind)

/-- A program is lowered without capturing names. -/
structure Hygienic (program lowered : Program) : Prop where
  forms : LoweredAll program lowered
  /-- Each name that is made up is declared once. -/
  distinct : (Expr.reservedOf lowered.binders).Nodup
  /-- Wherever it is mentioned, it refers to that declaration. -/
  made : ∀ u ∈ lowered.uses, Reserved u.name →
    ∃ line, u.binder = some line ∧ (u.name, line) ∈ lowered.binders
  /-- All other names are mentioned where they were, and refer to what they did. -/
  kept : ∀ r : Reference, ¬ Reserved r.name →
    (r ∈ lowered.uses.map Use.reference ↔ r ∈ program.uses.map Use.reference)
  /-- The compiler resolves names to what they refer to. -/
  accessed : ∀ (o : CompileOptions) (names : Names) (supply : Supply) (code : Code Value),
    names.Coherent supply → (lowered.emit o names supply).1 = .ok code →
      ∀ u ∈ lowered.uses, u.Accessed o (lowered.emit o names supply).2.1 code

/-- Handlers are lowered without capturing names, in whatever way they stand in each other. The lines of
the program that is read only tell places apart: they may be any others, say all different ones. -/
theorem lowering_hygienic {source : String} {read program lowered : Program}
    (hread : ofSource source = .ok read) (hlines : program.map Expr.unlined = read.map Expr.unlined)
    (hlower : program.lower = .ok lowered) : program.Hygienic lowered := by
  have hwords := worded_of_unlined (ofSource_worded hread) hlines
  have hkept := uses_kept hwords hlower
  refine ⟨loweredAll hlower, nodup_reservedOf_binders hwords hlower, fun u hu hname => ?_,
    fun r hr => ?_, fun o names supply code hnames hemit => emit_accesses hnames hemit⟩
  · obtain ⟨line, hline⟩ := Option.isSome_iff_exists.1 (hkept.made u hu hname)
    exact ⟨line, hline, mem_binders_of_binder hu hline⟩
  · simp only [List.mem_map]
    constructor
    · rintro ⟨u, hu, rfl⟩
      exact hkept.old u hu hr
    · rintro ⟨u, hu, rfl⟩
      exact hkept.kept u hu

/-- Handlers in the body, in the guard and in a clause of another, which declare names again. -/
def nested : String :=
  "var x = 1; handle handle A(x) with \x7b io.B(x, k) => k(x) \x7d with \x7b " ++
    "A(x, k) if handle x with \x7b B(y) => y == x \x7d => k(handle x with \x7b A(k) => k \x7d) \x7d"

theorem lowering_hygienic_nested : ∃ read lowered, ofSource nested = .ok read ∧
    read.lower = .ok lowered ∧ read.Hygienic lowered := by
  have hok : ((ofSource nested).toOption.bind fun read => read.lower.toOption).isSome = true := by
    decide +kernel
  cases hread : ofSource nested with
  | error failure =>
    rw [hread] at hok
    cases hok
  | ok read =>
    cases hlower : read.lower with
    | error errors => simp [hread, hlower, Except.toOption] at hok
    | ok lowered => exact ⟨read, lowered, rfl, hlower, lowering_hygienic hread rfl hlower⟩

end Program

end Resumable
