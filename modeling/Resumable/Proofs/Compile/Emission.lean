import Resumable.Proofs.Action
import Resumable.Proofs.Compile.Layout
import Resumable.Proofs.Symbol

/-!
The compiler writes what `Layout` describes. Every step of the compiler only adds: to the code, to its
constants, to the names, to the captures of the functions around, and to the errors. A step therefore
settles a part of the finished code once and for all, except for the jumps that it has left open.
-/

namespace Resumable

/-- What a code object says of its function, its slots and its captures. -/
def Code.header {κ : Type} (code : Code κ) :
    Option Symbol × List Symbol × Option Symbol × Nat × List Capture :=
  (code.name, code.params, code.selfName, code.localCount, code.captures)

namespace CompileState

/-- The line table is complete and the scopes are in order. -/
structure WellFormed (s : CompileState) : Prop where
  lined : s.code.Lined
  scopes : s.scopes.Sound

/-- Compiling has gone on from one state to another. -/
structure Advances (s s' : CompileState) : Prop where
  wellFormed : s'.WellFormed
  errors : s'.errors = [] → s.errors = []
  names : ∀ name symbol, s.names.find? name = some symbol → s'.names.find? name = some symbol
  coherent : s.names.Coherent s.supply → s'.names.Coherent s'.supply
  objects : s.supply.objects ≤ s'.supply.objects
  grows : s.code.Grows s'.code
  constants : ∀ (i : Nat) (v : Value), s.code.constants[i]? = some v → s'.code.constants[i]? = some v
  header : s'.code.header = s.code.header
  lexical : s.scopes.lexical.Grows s'.scopes.lexical
  peak : s.scopes.current.peak ≤ s'.scopes.current.peak
  captures : s.scopes.current.captures ⊆ s'.scopes.current.captures
  outer : s.scopes.OuterGrows s'.scopes

theorem Advances.refl {s : CompileState} (hs : s.WellFormed) : s.Advances s where
  wellFormed := hs
  errors := id
  names := fun _ _ h => h
  coherent := id
  objects := Nat.le_refl _
  grows := .refl _
  constants := fun _ _ h => h
  header := rfl
  lexical := .refl _
  peak := Nat.le_refl _
  captures := List.Subset.refl _
  outer := .refl _

theorem Advances.trans {s s' s'' : CompileState} (h : s.Advances s') (h' : s'.Advances s'') :
    s.Advances s'' where
  wellFormed := h'.wellFormed
  errors := fun hclean => h.errors (h'.errors hclean)
  names := fun name symbol hname => h'.names name symbol (h.names name symbol hname)
  coherent := fun hnames => h'.coherent (h.coherent hnames)
  objects := Nat.le_trans h.objects h'.objects
  grows := h.grows.trans h'.grows
  constants := fun i v hv => h'.constants i v (h.constants i v hv)
  header := h'.header.trans h.header
  lexical := h.lexical.trans h'.lexical
  peak := Nat.le_trans h.peak h'.peak
  captures := List.Subset.trans h.captures h'.captures
  outer := h.outer.trans h'.outer

/-- The finished code has, from offset `first` on, what has been written so far, and the finished
table has the names. -/
structure Settles (s : CompileState) (first : Nat) (names : Names) (code : Code Value) : Prop where
  agrees : s.code.AgreesOn code first s.code.size
  constants : ∀ (i : Nat) (v : Value), s.code.constants[i]? = some v → code.constants[i]? = some v
  peak : s.scopes.current.peak ≤ code.localCount
  captures : s.scopes.current.captures ⊆ code.captures
  names : ∀ name symbol, s.names.find? name = some symbol → names.find? name = some symbol

theorem Settles.back {s s' : CompileState} {first : Nat} {names : Names} {code : Code Value}
    (hsettles : s'.Settles first names code) (hadvances : s.Advances s') :
    s.Settles first names code where
  agrees := by
    have hearlier := hadvances.grows.agrees
    have hlater := hsettles.agrees
    exact (hearlier.mono (Nat.zero_le _) (Nat.le_refl _)).trans
      (hlater.mono (Nat.le_refl _) hadvances.grows.size_le)
  constants := fun i v hv => hsettles.constants i v (hadvances.constants i v hv)
  peak := Nat.le_trans hadvances.peak hsettles.peak
  captures := List.Subset.trans hadvances.captures hsettles.captures
  names := fun name symbol hname => hsettles.names name symbol (hadvances.names name symbol hname)

theorem Settles.later {s : CompileState} {first first' : Nat} {names : Names} {code : Code Value}
    (hsettles : s.Settles first names code) (hfirst : first ≤ first') :
    s.Settles first' names code :=
  { hsettles with agrees := hsettles.agrees.mono hfirst (Nat.le_refl _) }

theorem Settles.at {s : CompileState} {first offset operand line : Nat} {op : Op} {names : Names}
    {code : Code Value} (hsettles : s.Settles first names code) (hfirst : first ≤ offset)
    (hat : s.code.At offset op operand line) : code.At offset op operand line :=
  hat.of_agreesOn (hsettles.agrees.mono hfirst hat.end_le_size)

end CompileState

open CompileState

/-- A symbol is that of a name. A function is laid out for a place in the code, with a body that has
the property `P`, and so are the functions in it. -/
def ConstantLaidOut (P : Expr → Prop) (o : CompileOptions) (names : Names) (code : Code Value) :
    Value → Prop
  | .code _ f =>
    (∃ Γ line name params body, P body ∧ LayoutFunction o names code Γ line name params body f) ∧
      FunctionsLaidOut P o names f
  | .symbol s => ∃ name, names.find? name = some s
  | _ => True

/-- Compiling has gone on and, if there are no errors, has written what `layout` says of the finished
code; all constants that it has added are laid out. -/
structure Emits (P : Expr → Prop) (o : CompileOptions) (s s' : CompileState)
    (layout : Names → Code Value → Prop) : Prop where
  advances : s.Advances s'
  laidOut : s'.errors = [] → ∀ names code, s'.Settles s.code.size names code → layout names code
  constants : s'.errors = [] → ∀ names code, s'.Settles s.code.size names code →
    ∀ (i : Nat) (v : Value), s'.code.constants[i]? = some v →
      s.code.constants[i]? = some v ∨ ConstantLaidOut P o names code v

namespace Emits

variable {P : Expr → Prop} {o : CompileOptions} {s s₁ s₂ : CompileState} {layout layout' : Names → Code Value → Prop}

theorem seq (h : Emits P o s s₁ layout) (h' : Emits P o s₁ s₂ layout') :
    Emits P o s s₂ fun names code => layout names code ∧ layout' names code where
  advances := h.advances.trans h'.advances
  laidOut := by
    intro hclean names code hsettles
    have hfirst := h.laidOut (h'.advances.errors hclean) names code (hsettles.back h'.advances)
    have hsecond := h'.laidOut hclean names code (hsettles.later h.advances.grows.size_le)
    exact ⟨hfirst, hsecond⟩
  constants := by
    intro hclean names code hsettles i v hv
    obtain hv | hlaid :=
      h'.constants hclean names code (hsettles.later h.advances.grows.size_le) i v hv
    · exact h.constants (h'.advances.errors hclean) names code (hsettles.back h'.advances) i v hv
    · exact Or.inr hlaid

theorem imp (h : Emits P o s s₁ layout)
    (himp : ∀ names code, layout names code → layout' names code) : Emits P o s s₁ layout' where
  advances := h.advances
  laidOut := fun hclean names code hsettles => himp names code (h.laidOut hclean names code hsettles)
  constants := h.constants

/-- A step that adds no constant. -/
theorem of_advances (hadvances : s.Advances s₁)
    (hconstants : s₁.code.constants = s.code.constants)
    (hlaidOut : s₁.errors = [] → ∀ names code, s₁.Settles s.code.size names code →
      layout names code) : Emits P o s s₁ layout where
  advances := hadvances
  laidOut := hlaidOut
  constants := fun _ _ _ _ i v hv => Or.inl (by rw [← hconstants]; exact hv)

end Emits

namespace Compile

variable {P : Expr → Prop} {o : CompileOptions} {s s' : CompileState}

/-- Writing to the code, without a new constant. -/
theorem advances_write (hs : s.WellFormed) {code : Code Value} (hgrows : s.code.Grows code)
    (hconstants : code.constants = s.code.constants) (hheader : code.header = s.code.header) :
    s.Advances { s with code } :=
  { Advances.refl hs with
    wellFormed := ⟨hgrows.lined hs.lined, hs.scopes⟩
    grows := hgrows
    constants := fun i v hv => by rw [hconstants]; exact hv
    header := hheader }

/-- Collecting an error leaves everything else alone. -/
theorem report_emits (hs : s.WellFormed) {problem : CompileProblem} {line : Nat} {u : Unit}
    (hrun : report problem line s = .ok u s') :
    Emits P o s s' (fun _ _ => False) ∧ s'.code = s.code ∧ s'.scopes = s.scopes := by
  unfold report at hrun
  split at hrun
  · cases hrun
  · cases hrun
    refine ⟨.of_advances ?_ rfl (by simp), rfl, rfl⟩
    exact { Advances.refl hs with errors := by simp, wellFormed := ⟨hs.lined, hs.scopes⟩ }

theorem emitOp_emits (hs : s.WellFormed) {op : Op} (hwidth : op.width = 0) {line : Nat} {u : Unit}
    (hrun : emitOp op line s = .ok u s') :
    Emits P o s s' (fun _ code => code.At s.code.size op 0 line) ∧
      s'.code.size = s.code.size + 1 ∧ s'.scopes = s.scopes := by
  cases hrun
  refine ⟨?_, by simp, rfl⟩
  have hgrows := Code.write_grows hs.lined op line
  refine .of_advances (advances_write hs hgrows rfl rfl) rfl ?_
  intro _ names code hsettles
  exact hsettles.at (Nat.le_refl _) (Code.write_at hs.lined hwidth line)

@[simp]
theorem writeForm_constants (code : Code Value) (form : IndexForm) (index line : Nat) :
    (code.writeForm form index line).constants = code.constants := by
  cases form <;> rfl

@[simp]
theorem writeForm_header (code : Code Value) (form : IndexForm) (index line : Nat) :
    (code.writeForm form index line).header = code.header := by
  cases form <;> rfl

theorem emitIndexed_emits (hs : s.WellFormed) {op : Op} (hwidth : op.width = 1)
    {index line : Nat} {u : Unit} (hrun : emitIndexed op index line s = .ok u s') :
    Emits P o s s' (fun _ code => code.Indexed s.code.size op index line s'.code.size) ∧
      s'.scopes = s.scopes := by
  unfold emitIndexed at hrun
  cases hform : op.formFor index with
  | ok form =>
    simp only [hform] at hrun
    cases hrun
    refine ⟨?_, rfl⟩
    obtain ⟨hgrows, hindexed⟩ := Code.writeForm_indexed hs.lined hwidth hform line
    refine .of_advances (advances_write hs hgrows (by simp) (by simp)) (by simp) ?_
    intro _ names code hsettles
    exact hindexed.of_agreesOn hsettles.agrees
  | error e =>
    simp only [hform] at hrun
    obtain ⟨hreported, _, hscopes⟩ := report_emits (P := P) (o := o) hs hrun
    exact ⟨hreported.imp fun _ _ hfalse => hfalse.elim, hscopes⟩

theorem emitCount_emits (hs : s.WellFormed) {op : Op} (hwidth : op.width = 1) {count line : Nat}
    {what : String} {u : Unit} (hrun : emitCount op count what line s = .ok u s') :
    Emits P o s s' (fun _ code => code.At s.code.size op count line) ∧
      s'.code.size = s.code.size + 2 ∧ s'.scopes = s.scopes := by
  unfold emitCount at hrun
  split at hrun
  next hcount =>
    cases hrun
    refine ⟨?_, by simp, rfl⟩
    have hgrows := Code.writeNarrow_grows hs.lined op (UInt8.ofNat count) line
    refine .of_advances (advances_write hs hgrows rfl rfl) rfl ?_
    intro _ names code hsettles
    have hat := Code.writeNarrow_at hs.lined hwidth (UInt8.ofNat count) line
    rw [UInt8.toNat_ofNat_of_lt' hcount] at hat
    exact hsettles.at (Nat.le_refl _) hat
  next hcount =>
    obtain ⟨_, s₁, hreport, hwrite⟩ := bind_eq_ok.1 hrun
    obtain ⟨hreported, hcode, hscopes⟩ := report_emits (P := P) (o := o) hs hreport
    cases hwrite
    have hs₁ := hreported.advances.wellFormed
    have hgrows := Code.writeNarrow_grows hs₁.lined op 255 line
    have hwritten : Emits P o s₁ _ fun _ _ => True :=
      .of_advances (advances_write hs₁ hgrows rfl rfl) rfl fun _ _ _ _ => trivial
    refine ⟨(hreported.seq hwritten).imp ?_, by simp [hcode], hscopes⟩
    rintro names code ⟨hfalse, _⟩
    exact hfalse.elim

/-- An interned name keeps its symbol. -/
theorem intern_emits (hs : s.WellFormed) {name : String} {symbol : Symbol}
    (hrun : intern name s = .ok symbol s') :
    Emits P o s s' (fun names _ => names.find? name = some symbol) ∧ s'.code = s.code ∧
      s'.scopes = s.scopes ∧ s'.names.find? name = some symbol := by
  have hinterned := Names.intern_spec s.names s.supply name
  simp only [intern, modifyGet_run] at hrun
  cases hrun
  have hadvances : s.Advances { s with
      names := (s.names.intern s.supply name).2.1
      supply := (s.names.intern s.supply name).2.2 } :=
    { Advances.refl hs with
      wellFormed := ⟨hs.lined, hs.scopes⟩
      names := hinterned.keeps
      coherent := hinterned.coherent
      objects := Nat.le_of_eq hinterned.objects.symm }
  refine ⟨.of_advances hadvances rfl ?_, rfl, rfl, hinterned.find_eq⟩
  intro _ names code hsettles
  exact hsettles.names name _ hinterned.find_eq

theorem addConstant_emits (hs : s.WellFormed) {value : Value} {line index : Nat}
    (hvalue : s.errors = [] → ∀ names code, s.Settles s.code.size names code →
      ConstantLaidOut P o names code value)
    (hrun : addConstant value line s = .ok index s') :
    Emits P o s s' (fun _ code => code.constants[index]? = some value) ∧
      s'.code.size = s.code.size ∧ s'.scopes = s.scopes := by
  simp only [addConstant, bind_get_run] at hrun
  cases hnext : s.code.nextConstant with
  | ok index' =>
    simp only [hnext] at hrun
    cases hrun
    unfold Code.nextConstant at hnext
    split at hnext
    · cases hnext
      have hadvances : s.Advances { s with code := s.code.pushConstant value } := by
        refine
          { Advances.refl hs with
            wellFormed := ⟨hs.lined, hs.scopes⟩
            grows := ⟨Nat.le_refl _, fun _ _ _ => ⟨rfl, rfl⟩, id⟩
            constants := ?_ }
        intro i v hv
        have hlt : i < s.code.constants.size := by
          by_contra hnot
          rw [Array.getElem?_eq_none (by omega)] at hv
          cases hv
        simpa [Code.pushConstant, Array.getElem?_push, Nat.ne_of_lt hlt] using hv
      refine ⟨⟨hadvances, ?_, ?_⟩, rfl, rfl⟩
      · intro _ names code hsettles
        exact hsettles.constants _ value (by simp [Code.pushConstant])
      · intro hclean names code hsettles i v hv
        simp only [Code.pushConstant, Array.getElem?_push] at hv
        split at hv
        · cases hv
          exact Or.inr (hvalue hclean names code (hsettles.back hadvances))
        · exact Or.inl hv
    · cases hnext
  | error e =>
    simp only [hnext] at hrun
    cases hrun

theorem addSymbol_emits (hs : s.WellFormed) {name : String} {symbol : Symbol} {line index : Nat}
    (hname : s.names.find? name = some symbol)
    (hrun : addSymbol symbol line s = .ok index s') :
    Emits P o s s' (fun _ code => code.HasSymbol index symbol) ∧
      s'.code.size = s.code.size ∧ s'.scopes = s.scopes := by
  simp only [addSymbol, bind_get_run] at hrun
  cases hfind : s.code.symbolIndex? symbol with
  | some found =>
    simp only [hfind] at hrun
    cases hrun
    refine ⟨.of_advances (.refl hs) rfl ?_, rfl, rfl⟩
    intro _ names code hsettles
    obtain ⟨hlt, hsame, _⟩ := Array.findIdx?_eq_some_iff_getElem.1 hfind
    split at hsame
    next s₁ hconstant =>
      exact ⟨s₁, hsettles.constants index _ (by simp [hlt, hconstant]), hsame⟩
    next => cases hsame
  | none =>
    simp only [hfind] at hrun
    have hknown : ∀ names code, s.Settles s.code.size names code →
        ConstantLaidOut P o names code (.symbol symbol) :=
      fun _ _ hsettles => ⟨name, hsettles.names name symbol hname⟩
    obtain ⟨hemits, hsize, hscopes⟩ :=
      addConstant_emits (P := P) (o := o) hs (fun _ names code => hknown names code) hrun
    refine ⟨hemits.imp ?_, hsize, hscopes⟩
    intro names code hconstant
    exact ⟨symbol, hconstant, by simp [BEq.beq]⟩

theorem emitConstant_emits (hs : s.WellFormed) {value : Value} {line : Nat} {u : Unit}
    (hvalue : ∀ names code, s.Settles s.code.size names code → ConstantLaidOut P o names code value)
    (hrun : emitConstant value line s = .ok u s') :
    Emits P o s s' (fun _ code => ∃ i, code.constants[i]? = some value ∧
        code.Indexed s.code.size .constant i line s'.code.size) ∧ s'.scopes = s.scopes := by
  obtain ⟨index, s₁, hadd, hwrite⟩ := bind_eq_ok.1 hrun
  obtain ⟨hconstant, hsize, hscopes⟩ :=
    addConstant_emits (P := P) (o := o) hs (fun _ names code => hvalue names code) hadd
  obtain ⟨hindexed, hscopes'⟩ :=
    emitIndexed_emits (P := P) (o := o) hconstant.advances.wellFormed rfl hwrite
  refine ⟨(hconstant.seq hindexed).imp ?_, hscopes'.trans hscopes⟩
  rintro names code ⟨hvalue, hat⟩
  rw [hsize] at hat
  exact ⟨index, hvalue, hat⟩

theorem emitSymbol_emits (hs : s.WellFormed) {op : Op} (hwidth : op.width = 1) {name : String}
    {symbol : Symbol} {line : Nat} {u : Unit} (hname : s.names.find? name = some symbol) (hrun : emitSymbol op symbol line s = .ok u s') :
    Emits P o s s' (fun _ code => ∃ i, code.HasSymbol i symbol ∧
        code.Indexed s.code.size op i line s'.code.size) ∧ s'.scopes = s.scopes := by
  obtain ⟨index, s₁, hadd, hwrite⟩ := bind_eq_ok.1 hrun
  obtain ⟨hsymbol, hsize, hscopes⟩ := addSymbol_emits (P := P) (o := o) hs hname hadd
  obtain ⟨hindexed, hscopes'⟩ :=
    emitIndexed_emits (P := P) (o := o) hsymbol.advances.wellFormed hwidth hwrite
  refine ⟨(hsymbol.seq hindexed).imp ?_, hscopes'.trans hscopes⟩
  rintro names code ⟨hhas, hat⟩
  rw [hsize] at hat
  exact ⟨index, hhas, hat⟩

/-- What looking a name up tells of the finished code. -/
structure Reference (Γ : Lexical) (symbol : Symbol) (found : Variable) (code : Code Value) :
    Prop where
  lookup : Γ.lookup symbol = found
  captured : found = .captured → code.Captures symbol
  slot : ∀ n, found = .slot n → n < code.localCount

theorem resolve_emits (hs : s.WellFormed) {symbol : Symbol} {found : Variable}
    (hrun : resolve symbol s = .ok found s') :
    Emits P o s s' (fun _ code => Reference s.scopes.lexical symbol found code) ∧
      s'.code = s.code ∧ s'.scopes.lexical = s.scopes.lexical := by
  have hresolved := Scopes.resolve_spec hs.scopes symbol
  simp only [resolve, modifyGet_run] at hrun
  cases hrun
  refine ⟨.of_advances ?_ rfl ?_, rfl, hresolved.lexical_eq⟩
  · exact
      { Advances.refl hs with
        wellFormed := ⟨hs.lined, hresolved.sound⟩
        lexical := by simpa only [hresolved.lexical_eq] using Lexical.Grows.refl _
        peak := Nat.le_of_eq hresolved.grows.peak.symm
        captures := hresolved.grows.captures
        outer := hresolved.outerGrows }
  · intro _ names code hsettles
    refine ⟨hresolved.found_eq.symm, ?_, ?_⟩
    · intro hcaptured
      obtain ⟨c, hmem, hname⟩ := hresolved.recorded hcaptured
      exact ⟨c, hsettles.captures hmem, hname⟩
    · intro n hn
      have hlookup := hresolved.found_eq
      rw [hn] at hlookup
      unfold Lexical.lookup at hlookup
      split at hlookup
      next slot hslot =>
        cases hlookup
        have hlt := slotIn_lt hs.scopes.current.dense hslot
        have hroom := hs.scopes.current.length_le_peak
        have hpeak := hsettles.peak
        have hsame := hresolved.grows.peak
        simp only at hpeak
        omega
      next => split at hlookup <;> cases hlookup

theorem access_emits (hs : s.WellFormed) (Γ : Lexical) (ops : AccessOps)
    (hslot : ops.slot.width = 1) (hcaptured : ops.captured.width = 1)
    (hglobal : ops.global.width = 1) {name : String} {symbol : Symbol} {found : Variable}
    {line : Nat} {u : Unit} (hname : s.names.find? name = some symbol)
    (hrun : (match found with
      | .slot n => emitIndexed ops.slot n line
      | .captured => emitSymbol ops.captured symbol line
      | .global => emitSymbol ops.global symbol line) s = .ok u s') :
    Emits P o s s' (fun _ code => Reference Γ symbol found code →
        code.Access Γ ops symbol s.code.size line s'.code.size) ∧ s'.scopes = s.scopes := by
  cases found with
  | slot n =>
    obtain ⟨hemits, hscopes⟩ := emitIndexed_emits (P := P) (o := o) hs hslot hrun
    refine ⟨hemits.imp ?_, hscopes⟩
    intro names code hat href
    exact .slot href.lookup (href.slot n rfl) hat
  | captured =>
    obtain ⟨hemits, hscopes⟩ := emitSymbol_emits (P := P) (o := o) hs hcaptured hname hrun
    refine ⟨hemits.imp ?_, hscopes⟩
    rintro names code ⟨i, hsymbol, hat⟩ href
    exact .captured href.lookup (href.captured rfl) hsymbol hat
  | global =>
    obtain ⟨hemits, hscopes⟩ := emitSymbol_emits (P := P) (o := o) hs hglobal hname hrun
    refine ⟨hemits.imp ?_, hscopes⟩
    rintro names code ⟨i, hsymbol, hat⟩ href
    exact .global href.lookup hsymbol hat

theorem load_emits (hs : s.WellFormed) {name : String} {line : Nat} {u : Unit}
    (hrun : load name line s = .ok u s') :
    Emits P o s s' (fun names code => ∃ symbol, names.find? name = some symbol ∧
        code.Access s.scopes.lexical .loads symbol s.code.size line s'.code.size) ∧
      s'.scopes.lexical = s.scopes.lexical := by
  unfold load at hrun
  rw [bind_eq_ok] at hrun
  obtain ⟨symbol, s₁, hintern, hrun⟩ := hrun
  rw [bind_eq_ok] at hrun
  obtain ⟨found, s₂, hresolve, hrun⟩ := hrun
  obtain ⟨hname, hcode₁, hscopes₁, hfound⟩ := intern_emits (P := P) (o := o) hs hintern
  obtain ⟨href, hcode₂, hlexical⟩ := resolve_emits (P := P) (o := o) hname.advances.wellFormed hresolve
  have haccess :=
    access_emits (P := P) (o := o) href.advances.wellFormed s.scopes.lexical .loads rfl rfl rfl
      (href.advances.names _ _ hfound) hrun
  refine ⟨((hname.seq href).seq haccess.1).imp ?_, ?_⟩
  · rintro names code ⟨⟨hfind, href⟩, hat⟩
    rw [hscopes₁] at href
    rw [hcode₂, hcode₁] at hat
    exact ⟨symbol, hfind, hat href⟩
  · rw [haccess.2, hlexical, hscopes₁]

theorem store_emits (hs : s.WellFormed) {name : String} {line : Nat} {u : Unit}
    (hrun : store name line s = .ok u s') :
    Emits P o s s' (fun names code => ∃ symbol c, names.find? name = some symbol ∧
        code.Access s.scopes.lexical .stores symbol s.code.size line c ∧
        code.At c .pushNone 0 line ∧ s'.code.size = c + 1) ∧
      s'.scopes.lexical = s.scopes.lexical := by
  unfold store at hrun
  rw [bind_eq_ok] at hrun
  obtain ⟨symbol, s₁, hintern, hrun⟩ := hrun
  rw [bind_eq_ok] at hrun
  obtain ⟨found, s₂, hresolve, hrun⟩ := hrun
  have hsplit : ∃ s₃, (match found with
      | .slot n => emitIndexed .storeLocal n line
      | .captured => emitSymbol .storeCaptured symbol line
      | .global => emitSymbol .storeGlobal symbol line) s₂ = .ok () s₃ ∧
        emitOp .pushNone line s₃ = .ok u s' := by
    cases found with
    | slot n => obtain ⟨_, s₃, hstore, hrun⟩ := bind_eq_ok.1 hrun; exact ⟨s₃, hstore, hrun⟩
    | captured => obtain ⟨_, s₃, hstore, hrun⟩ := bind_eq_ok.1 hrun; exact ⟨s₃, hstore, hrun⟩
    | global => obtain ⟨_, s₃, hstore, hrun⟩ := bind_eq_ok.1 hrun; exact ⟨s₃, hstore, hrun⟩
  obtain ⟨s₃, hstore, hrun⟩ := hsplit
  obtain ⟨hname, hcode₁, hscopes₁, hfound⟩ := intern_emits (P := P) (o := o) hs hintern
  obtain ⟨href, hcode₂, hlexical⟩ := resolve_emits (P := P) (o := o) hname.advances.wellFormed hresolve
  have haccess :=
    access_emits (P := P) (o := o) href.advances.wellFormed s.scopes.lexical .stores rfl rfl rfl
      (href.advances.names _ _ hfound) hstore
  obtain ⟨hnone, hsize, hscopes₄⟩ := emitOp_emits (P := P) (o := o) haccess.1.advances.wellFormed rfl hrun
  refine ⟨(((hname.seq href).seq haccess.1).seq hnone).imp ?_, ?_⟩
  · rintro names code ⟨⟨⟨hfind, href⟩, hat⟩, hnone⟩
    rw [hscopes₁] at href
    rw [hcode₂, hcode₁] at hat
    exact ⟨symbol, s₃.code.size, hfind, hat href, hnone, hsize⟩
  · rw [hscopes₄, haccess.2, hlexical, hscopes₁]

theorem isGlobal_lexical (s : Scopes) : s.lexical.isGlobal = s.isGlobal := by
  simp [Lexical.isGlobal, Scopes.isGlobal, Scopes.lexical]

/-- A local is declared in the next slot, for which there is room in the finished code. -/
theorem declare_emits (hs : s.WellFormed) {symbol : Symbol} {slot : Nat}
    (hrun : declare symbol s = .ok (.ok slot) s') :
    Emits P o s s' (fun _ code => s.scopes.lexical.locals.length < code.localCount) ∧
      slot = s.scopes.lexical.locals.length ∧ s'.code = s.code ∧
      s'.scopes.lexical = s.scopes.lexical.declared symbol := by
  simp only [declare, modifyGet_run] at hrun
  cases hdeclare : s.scopes.declare symbol with
  | error problem =>
    simp only [hdeclare] at hrun
    cases hrun
  | ok result =>
    obtain ⟨slot', scopes⟩ := result
    simp only [hdeclare] at hrun
    cases hrun
    have hdeclared := Scopes.declare_spec hs.scopes hdeclare
    refine ⟨.of_advances ?_ rfl ?_, hdeclared.slot_eq, rfl, hdeclared.lexical_eq⟩
    · exact
        { Advances.refl hs with
          wellFormed := ⟨hs.lined, hdeclared.sound⟩
          lexical := by
            simp only [hdeclared.lexical_eq]
            exact Lexical.grows_declared _ _
          peak := hdeclared.peak_le
          captures := by simp only [hdeclared.captures]; exact List.Subset.refl _
          outer := by
            simp only [Scopes.OuterGrows, hdeclared.outer]
            exact Scopes.OuterGrows.refl _ }
    · intro _ names code hsettles
      have hpeak := hsettles.peak
      have hlt := hdeclared.slot_lt
      have hslot := hdeclared.slot_eq
      simp only at hpeak
      omega

/-- A failed declaration changes nothing. -/
theorem declare_error {symbol : Symbol} {problem : CompileProblem}
    (hrun : declare symbol s = .ok (.error problem) s') : s' = s := by
  simp only [declare, modifyGet_run] at hrun
  cases hdeclare : s.scopes.declare symbol with
  | error problem' =>
    simp only [hdeclare] at hrun
    cases hrun
    rfl
  | ok result =>
    obtain ⟨slot, scopes⟩ := result
    simp only [hdeclare] at hrun
    cases hrun

/-- The instruction that binds a name to a value stands at an offset and ends before the last
argument; afterwards the names `Γ'` are visible. -/
inductive Binding (code : Code Value) (Γ : Lexical) (symbol : Symbol) (offset line : Nat) :
    Lexical → Nat → Prop
  | global {i next : Nat} (hglobal : Γ.isGlobal = true) (hsymbol : code.HasSymbol i symbol)
    (hat : code.Indexed offset .storeGlobal i line next) : Binding code Γ symbol offset line Γ next
  | local {next : Nat} (hlocal : Γ.isGlobal = false) (hroom : Γ.locals.length < code.localCount)
    (hat : code.Indexed offset .storeLocal Γ.locals.length line next) :
    Binding code Γ symbol offset line (Γ.declared symbol) next

theorem bind_emits (hs : s.WellFormed) {name : String} {line : Nat} {u : Unit}
    (hrun : Compile.bind name line s = .ok u s') :
    Emits P o s s' (fun names code => ∃ symbol c, names.find? name = some symbol ∧
        Binding code s.scopes.lexical symbol s.code.size line s'.scopes.lexical c ∧
        code.At c .pushNone 0 line ∧ s'.code.size = c + 1) := by
  unfold Compile.bind at hrun
  rw [bind_eq_ok] at hrun
  obtain ⟨symbol, s₁, hintern, hrun⟩ := hrun
  obtain ⟨hname, hcode₁, hscopes₁, hfound⟩ := intern_emits (P := P) (o := o) hs hintern
  have hs₁ := hname.advances.wellFormed
  rw [bind_get_run, ← isGlobal_lexical, hscopes₁] at hrun
  cases hglobal : s.scopes.lexical.isGlobal with
  | true =>
    rw [if_pos hglobal, bind_eq_ok] at hrun
    obtain ⟨_, s₂, hstore, hrun⟩ := hrun
    obtain ⟨hstored, hscopes₂⟩ := emitSymbol_emits (P := P) (o := o) hs₁ rfl hfound hstore
    obtain ⟨hnone, hsize, hscopes₃⟩ := emitOp_emits (P := P) (o := o) hstored.advances.wellFormed rfl hrun
    refine ((hname.seq hstored).seq hnone).imp ?_
    rintro names code ⟨⟨hfind, i, hsymbol, hat⟩, hnone⟩
    rw [hcode₁] at hat
    rw [hscopes₃, hscopes₂, hscopes₁]
    exact ⟨symbol, s₂.code.size, hfind, .global hglobal hsymbol hat, hnone, hsize⟩
  | false =>
    rw [if_neg (by simp [hglobal]), bind_eq_ok] at hrun
    obtain ⟨result, s₂, hdeclare, hrun⟩ := hrun
    cases result with
    | ok slot =>
      obtain ⟨hdeclared, hslot, hcode₂, hlexical⟩ := declare_emits (P := P) (o := o) hs₁ hdeclare
      simp only at hrun
      rw [bind_eq_ok] at hrun
      obtain ⟨_, s₃, hstore, hrun⟩ := hrun
      obtain ⟨hstored, hscopes₃⟩ :=
        emitIndexed_emits (P := P) (o := o) hdeclared.advances.wellFormed rfl hstore
      obtain ⟨hnone, hsize, hscopes₄⟩ := emitOp_emits (P := P) (o := o) hstored.advances.wellFormed rfl hrun
      refine (((hname.seq hdeclared).seq hstored).seq hnone).imp ?_
      rintro names code ⟨⟨⟨hfind, hroom⟩, hat⟩, hnone⟩
      rw [hcode₂, hcode₁, hslot, hscopes₁] at hat
      rw [hscopes₁] at hroom
      rw [hscopes₄, hscopes₃, hlexical, hscopes₁]
      exact ⟨symbol, s₃.code.size, hfind, .local hglobal hroom hat, hnone, hsize⟩
    | error problem =>
      obtain rfl := declare_error hdeclare
      simp only [bind_eq_ok] at hrun
      obtain ⟨_, s₃, hreport, _, s₄, hpop, hrun⟩ := hrun
      obtain ⟨hreported, _, _⟩ := report_emits (P := P) (o := o) hs₁ hreport
      obtain ⟨hpopped, _, _⟩ := emitOp_emits (P := P) (o := o) hreported.advances.wellFormed rfl hpop
      obtain ⟨hnone, _, _⟩ := emitOp_emits (P := P) (o := o) hpopped.advances.wellFormed rfl hrun
      have hrest := hpopped.seq hnone
      refine ((hname.seq hreported).seq hrest).imp ?_
      rintro names code ⟨⟨_, hfalse⟩, _⟩
      exact hfalse.elim

end Compile

end Resumable
