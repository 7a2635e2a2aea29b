import Resumable.Proofs.Compile.Emission

/-!
Compiling scopes and functions. A function is written to a code object of its own while the functions
around wait; all that happens to them in the meantime is that they capture more.
-/

namespace Resumable

open CompileState

namespace Compile

variable {P : Expr → Prop} {o : CompileOptions} {s s' : CompileState}

/-- What is compiled in a scope of its own leaves the names as they were. -/
theorem scoped_emits (hs : s.WellFormed) {s₁ : CompileState}
    {layout : Names → Code Value → Prop}
    (hbody : Emits P o { s with scopes := s.scopes.openScope } s₁ layout) :
    Emits P o s { s₁ with scopes := s₁.scopes.closeScope.2 } layout ∧
      s₁.scopes.closeScope.2.lexical = s.scopes.lexical := by
  have hgrows : s.scopes.lexical.opened.Grows s₁.scopes.lexical := hbody.advances.lexical
  have hlexical := Scopes.lexical_closeScope hs.scopes hgrows
  have hsound := hs.scopes.closeScope hbody.advances.wellFormed.scopes hgrows
  refine ⟨⟨?_, ?_, ?_⟩, hlexical⟩
  · exact
      { hbody.advances with
        wellFormed := ⟨hbody.advances.wellFormed.lined, hsound⟩
        lexical := by simp only [hlexical]; exact Lexical.Grows.refl _ }
  · intro hclean names code hsettles
    exact hbody.laidOut hclean names code { hsettles with }
  · intro hclean names code hsettles
    exact hbody.constants hclean names code { hsettles with }

theorem mustDeclare_emits (hs : s.WellFormed) {symbol : Symbol} {line : Nat} {u : Unit}
    (hrun : mustDeclare symbol line s = .ok u s') :
    Emits P o s s' (fun _ _ => True) ∧ s'.code = s.code ∧
      s'.scopes.lexical = s.scopes.lexical.declared symbol := by
  unfold mustDeclare at hrun
  rw [bind_eq_ok] at hrun
  obtain ⟨result, s₁, hdeclare, hrun⟩ := hrun
  cases result with
  | ok slot =>
    cases hrun
    obtain ⟨hdeclared, _, hcode, hlexical⟩ := declare_emits (P := P) (o := o) hs hdeclare
    exact ⟨hdeclared.imp fun _ _ _ => trivial, hcode, hlexical⟩
  | error problem => cases hrun

/-- Without errors, the parameters are the first locals of a function, in order. -/
theorem declareParams_emits {line : Nat} (params : List String) {s : CompileState}
    (hs : s.WellFormed) {done result : List Symbol}
    (hrun : declareParams line done params s = .ok result s') :
    Emits P o s s' (fun names _ => ∃ symbols, result = done.reverse ++ symbols ∧
        s'.scopes.lexical = s.scopes.lexical.declaredAll symbols ∧
        List.Forall₂ (fun param symbol => names.find? param = some symbol) params symbols) ∧
      s'.code = s.code := by
  induction params generalizing s done with
  | nil =>
    cases hrun
    refine ⟨.of_advances (.refl hs) rfl ?_, rfl⟩
    intro _ names code _
    exact ⟨[], by simp, rfl, .nil⟩
  | cons param params ih =>
    rw [declareParams, bind_eq_ok] at hrun
    obtain ⟨symbol, s₁, hintern, hrun⟩ := hrun
    obtain ⟨hname, hcode₁, hscopes₁, _⟩ := intern_emits (P := P) (o := o) hs hintern
    have hs₁ := hname.advances.wellFormed
    split at hrun
    · rw [bind_eq_ok] at hrun
      obtain ⟨_, s₂, hreport, hrun⟩ := hrun
      rw [bind_eq_ok] at hrun
      obtain ⟨placeholder, s₃, hintern', hrun⟩ := hrun
      rw [bind_eq_ok] at hrun
      obtain ⟨_, s₄, hdeclare, hrun⟩ := hrun
      obtain ⟨hreported, hcode₂, _⟩ := report_emits (P := P) (o := o) hs₁ hreport
      obtain ⟨hname', hcode₃, _, _⟩ := intern_emits (P := P) (o := o) hreported.advances.wellFormed hintern'
      obtain ⟨hdeclared, hcode₄, _⟩ :=
        mustDeclare_emits (P := P) (o := o) hname'.advances.wellFormed hdeclare
      obtain ⟨hrest, hcode⟩ := ih hdeclared.advances.wellFormed hrun
      refine ⟨(hname.seq (hreported.seq (hname'.seq (hdeclared.seq hrest)))).imp ?_, ?_⟩
      · rintro names code ⟨_, hfalse, _⟩
        exact hfalse.elim
      · rw [hcode, hcode₄, hcode₃, hcode₂, hcode₁]
    · rw [bind_eq_ok] at hrun
      obtain ⟨declaration, s₂, hdeclare, hrun⟩ := hrun
      cases declaration with
      | ok slot =>
        obtain ⟨hdeclared, _, hcode₂, hlexical⟩ := declare_emits (P := P) (o := o) hs₁ hdeclare
        obtain ⟨hrest, hcode⟩ := ih hdeclared.advances.wellFormed hrun
        refine ⟨((hname.seq hdeclared).seq hrest).imp ?_, ?_⟩
        · rintro names code ⟨⟨hfind, _⟩, symbols, hresult, hall, hparams⟩
          refine ⟨symbol :: symbols, by simp [hresult], ?_, .cons hfind hparams⟩
          rw [hall, hlexical, hscopes₁]
          rfl
        · rw [hcode, hcode₂, hcode₁]
      | error problem =>
        obtain rfl := declare_error hdeclare
        obtain ⟨_, s₃, hreport, hrun⟩ := bind_eq_ok.1 hrun
        obtain ⟨hreported, hcode₂, _⟩ := report_emits (P := P) (o := o) hs₁ hreport
        obtain ⟨hrest, hcode⟩ := ih hreported.advances.wellFormed hrun
        refine ⟨((hname.seq hreported).seq hrest).imp ?_, ?_⟩
        · rintro names code ⟨⟨_, hfalse⟩, _⟩
          exact hfalse.elim
        · rw [hcode, hcode₂, hcode₁]

theorem declareSelf_emits (hs : s.WellFormed) {line : Nat} {name selfName : Option Symbol}
    {params : List Symbol} (hrun : declareSelf line name params s = .ok selfName s') :
    Emits P o s s' (fun _ _ => True) ∧ s'.code = s.code ∧ selfName = selfNameOf name params ∧
      s'.scopes.lexical = s.scopes.lexical.declaredAll selfName.toList := by
  have hnothing : Emits P o s s fun _ _ => True :=
    .of_advances (.refl hs) rfl fun _ _ _ _ => trivial
  cases name with
  | none =>
    cases hrun
    exact ⟨hnothing, rfl, rfl, rfl⟩
  | some n =>
    simp only [declareSelf] at hrun
    cases hparams : params.contains n with
    | true =>
      rw [if_pos hparams] at hrun
      cases hrun
      exact ⟨hnothing, rfl, by rw [selfNameOf, if_pos hparams], rfl⟩
    | false =>
      rw [if_neg (by simp [hparams]), bind_eq_ok] at hrun
      obtain ⟨_, s₁, hdeclare, hrun⟩ := hrun
      cases hrun
      obtain ⟨hdeclared, hcode, hlexical⟩ := mustDeclare_emits (P := P) (o := o) hs hdeclare
      refine ⟨hdeclared, hcode, ?_, hlexical⟩
      rw [selfNameOf, if_neg (by simp [hparams])]

/-- The state in which the body of a function is compiled, before its parameters. -/
def functionStart (s : CompileState) : CompileState :=
  { s with code := {}, scopes := s.scopes.openFunction }

/-- The state after a function whose body has led to `inner`. -/
def functionEnd (enclosing : Code Value) (inner : CompileState) : CompileState :=
  { inner with
    scopes := inner.scopes.closeFunction.2
    supply := inner.supply.draw.2
    code := enclosing }

/-- The code of a function whose body has led to `inner`. -/
def functionCode (inner : CompileState) (name : Option Symbol) (params : List Symbol)
    (selfName : Option Symbol) : Code Value :=
  { inner.code with
    name, params, selfName
    localCount := inner.scopes.closeFunction.1.1
    captures := inner.scopes.closeFunction.1.2 }

theorem wellFormed_functionStart (hs : s.WellFormed) : (functionStart s).WellFormed :=
  ⟨rfl, hs.scopes.openFunction⟩

/-- Compiling a function leaves the code around as it is and, of the scopes, only adds captures. What
the function captures can be taken from the function around. -/
theorem functionEnd_spec {inner : CompileState} (hs : s.WellFormed)
    (hinner : (functionStart s).Advances inner) :
    s.Advances (functionEnd s.code inner) ∧
      (functionEnd s.code inner).scopes.lexical = s.scopes.lexical ∧
      inner.scopes.closeFunction.1 = (inner.scopes.current.peak, inner.scopes.current.captures) ∧
      ∀ c ∈ inner.scopes.current.captures,
        (functionEnd s.code inner).scopes.current.Supplies c := by
  have houter : List.Forall₂ FunctionScope.Grows (s.scopes.current :: s.scopes.outer)
      inner.scopes.outer := hinner.outer
  have hsound := hinner.wellFormed.scopes
  unfold functionEnd Scopes.closeFunction
  cases hfunctions : inner.scopes.outer with
  | nil =>
    rw [hfunctions] at houter
    cases houter
  | cons f fs =>
    rw [hfunctions] at houter
    obtain ⟨hcurrent, hrest⟩ := List.forall₂_cons.1 houter
    have hlinked := hsound.linked
    rw [hfunctions] at hlinked
    have hlexical : Scopes.lexical ⟨f, fs⟩ = s.scopes.lexical := by
      have hgrows : s.scopes.OuterGrows ⟨f, fs⟩ := hrest
      have hsame := hgrows.locals
      simp only at hsame
      simp only [Scopes.lexical, hcurrent.locals, hcurrent.depth, hsame]
    refine ⟨?_, hlexical, rfl, hlinked.1⟩
    exact
      { wellFormed := by
          refine ⟨hs.lined, hsound.outer f (by simp [hfunctions]), ?_, hlinked.2⟩
          intro g hmem
          exact hsound.outer g (by simp [hfunctions, hmem])
        errors := hinner.errors
        names := hinner.names
        coherent := fun hnames => (hinner.coherent hnames).mono (Nat.le_refl _)
        objects := Nat.le_succ_of_le hinner.objects
        grows := .refl _
        constants := fun _ _ hv => hv
        header := rfl
        lexical := by simp only [hlexical]; exact Lexical.Grows.refl _
        peak := Nat.le_of_eq hcurrent.peak.symm
        captures := hcurrent.captures
        outer := hrest }

/-- A function scope that the finished code has room for supplies what the finished code supplies. -/
theorem supplies_of_settles (hs : s.WellFormed) {first : Nat} {names : Names} {code : Code Value}
    (hsettles : s.Settles first names code) {c : Capture}
    (hsupplies : s.scopes.current.Supplies c) : s.scopes.lexical.Supplies code c := by
  unfold FunctionScope.Supplies at hsupplies
  unfold Lexical.Supplies
  cases hsource : c.source with
  | slot n =>
    rw [hsource] at hsupplies
    have hlt := slotIn_lt hs.scopes.current.dense hsupplies
    have hroom := hs.scopes.current.length_le_peak
    have hpeak := hsettles.peak
    exact ⟨hsupplies, by omega⟩
  | enclosing =>
    rw [hsource] at hsupplies
    obtain ⟨hnone, d, hmem, hname⟩ := hsupplies
    exact ⟨hnone, d, hsettles.captures hmem, hname⟩

/-- The name of a function is interned before everything else of it. -/
theorem internName_emits (hs : s.WellFormed) {name : Option String} {symbol : Option Symbol}
    (hrun : internName name s = .ok symbol s') :
    Emits P o s s' (fun names _ => symbol = name.bind names.find? ∧
        ∀ n, name = some n → (names.find? n).isSome) ∧
      s'.code = s.code ∧ s'.scopes = s.scopes := by
  cases name with
  | none =>
    cases hrun
    refine ⟨.of_advances (.refl hs) rfl ?_, rfl, rfl⟩
    intro _ names code _
    exact ⟨rfl, nofun⟩
  | some n =>
    rw [internName, map_eq_pure_bind, bind_eq_ok] at hrun
    obtain ⟨found, s₁, hintern, hrun⟩ := hrun
    cases hrun
    obtain ⟨hname, hcode, hscopes, _⟩ := intern_emits (P := P) (o := o) hs hintern
    refine ⟨hname.imp ?_, hcode, hscopes⟩
    rintro names _ hfind
    refine ⟨by simp [hfind], ?_⟩
    rintro n' ⟨⟩
    simp [hfind]

/-- The steps of compiling a function. -/
theorem emitFunction_steps {line : Nat} {name : Option String} {params : List String}
    {body : Compile Unit} {u : Unit} (hrun : emitFunction line name params body s = .ok u s') :
    ∃ symbol s₁ symbols s₂ selfName s₃ s₄ s₅ i s₆,
      internName name s = .ok symbol s₁ ∧
      declareParams line [] params (functionStart s₁) = .ok symbols s₂ ∧
      declareSelf line symbol symbols s₂ = .ok selfName s₃ ∧
      body s₃ = .ok () s₄ ∧ emitOp .ret line s₄ = .ok () s₅ ∧
      addConstant (.code s₅.supply.draw.1 (functionCode s₅ symbol symbols selfName)) line
        (functionEnd s₁.code s₅) = .ok i s₆ ∧
      emitIndexed .lambda i line s₆ = .ok u s' := by
  obtain ⟨symbol, s₁, hintern, hrun⟩ := bind_eq_ok.1 hrun
  obtain ⟨_, _, hfresh, hrun⟩ := bind_eq_ok.1 hrun
  cases hfresh
  obtain ⟨_, _, hopen, hrun⟩ := bind_eq_ok.1 hrun
  cases hopen
  obtain ⟨symbols, s₂, hparams, hrun⟩ := bind_eq_ok.1 hrun
  obtain ⟨selfName, s₃, hself, hrun⟩ := bind_eq_ok.1 hrun
  obtain ⟨_, s₄, hinner, hrun⟩ := bind_eq_ok.1 hrun
  obtain ⟨_, s₅, hret, hrun⟩ := bind_eq_ok.1 hrun
  obtain ⟨_, _, hclose, hrun⟩ := bind_eq_ok.1 hrun
  cases hclose
  obtain ⟨i, s₆, hadd, hrun⟩ := bind_eq_ok.1 hrun
  exact ⟨symbol, s₁, symbols, s₂, selfName, s₃, s₄, s₅, i, s₆, hintern, hparams, hself, hinner,
    hret, hadd, hrun⟩

/-- Whatever compiles an expression in tail position on a sound state leaves its layout. -/
def BodyEmits (P : Expr → Prop) (o : CompileOptions) (body : Compile Unit) (e : Expr) : Prop :=
  ∀ s s', s.WellFormed → body s = .ok () s' →
    Emits P o s s' fun names code =>
      Layout o names code s.scopes.lexical true e s.code.size s'.scopes.lexical s'.code.size

/-- From its parameters to its end, a function is laid out in its own code. -/
theorem function_emits (hs : s.WellFormed) {s₂ s₃ s₄ s₅ : CompileState} {line : Nat}
    {symbol selfName : Option Symbol} {params : List String} {symbols : List Symbol}
    {body : Compile Unit} {e : Expr} (hbody : BodyEmits P o body e)
    (hparams : declareParams line [] params (functionStart s) = .ok symbols s₂)
    (hself : declareSelf line symbol symbols s₂ = .ok selfName s₃)
    (hinner : body s₃ = .ok () s₄) (hret : emitOp .ret line s₄ = .ok () s₅) :
    Emits P o (functionStart s) s₅ (fun names f =>
        List.Forall₂ (fun param symbol => names.find? param = some symbol) params symbols ∧
        s₃.scopes.lexical = s.scopes.lexical.entered.declaredAll (symbols ++ selfName.toList) ∧
        Layout o names f s₃.scopes.lexical true e 0 s₄.scopes.lexical s₄.code.size ∧
        f.At s₄.code.size .ret 0 line) ∧
      selfName = selfNameOf symbol symbols ∧ s₅.code.size = s₄.code.size + 1 ∧
      s₃.scopes.lexical.Grows s₅.scopes.lexical := by
  obtain ⟨hdeclared, hcode₂⟩ := declareParams_emits (P := P) (o := o) params (wellFormed_functionStart hs) hparams
  obtain ⟨hselfDeclared, hcode₃, hselfName, hlexical₃⟩ :=
    declareSelf_emits (P := P) (o := o) hdeclared.advances.wellFormed hself
  have hemitted := hbody s₃ s₄ hselfDeclared.advances.wellFormed hinner
  obtain ⟨hreturned, hsize, hscopes⟩ := emitOp_emits (P := P) (o := o) hemitted.advances.wellFormed rfl hret
  refine ⟨(((hdeclared.seq hselfDeclared).seq hemitted).seq hreturned).imp ?_, hselfName, hsize, ?_⟩
  · rintro names f ⟨⟨⟨⟨new, hnew, hlexical₂, hall⟩, _⟩, hlayout⟩, hat⟩
    simp only [List.reverse_nil, List.nil_append] at hnew
    subst hnew
    have hempty : s₃.code.size = 0 := by rw [hcode₃, hcode₂]; rfl
    rw [hempty] at hlayout
    refine ⟨hall, ?_, hlayout, hat⟩
    rw [hlexical₃, hlexical₂, Lexical.declaredAll, Lexical.declaredAll, ← List.foldl_append]
    rfl
  · rw [hscopes]
    exact hemitted.advances.lexical

/-- The finished code of a function keeps all that was written for it. -/
theorem settles_functionCode {inner : CompileState} {names : Names} {name selfName : Option Symbol}
    {params : List Symbol}
    (hclose : inner.scopes.closeFunction.1 =
      (inner.scopes.current.peak, inner.scopes.current.captures))
    (hnames : ∀ name symbol, inner.names.find? name = some symbol →
      names.find? name = some symbol) :
    inner.Settles 0 names (functionCode inner name params selfName) where
  agrees := fun _ _ _ => ⟨rfl, rfl⟩
  constants := fun _ _ hv => hv
  peak := by simp only [functionCode, hclose]; exact Nat.le_refl _
  captures := by simp only [functionCode, hclose]; exact List.Subset.refl _
  names := hnames

theorem functionsLaidOut_of_constants {names : Names} {f : Code Value}
    (hconstants : ∀ (i : Nat) (v : Value), f.constants[i]? = some v → ConstantLaidOut P o names f v) :
    FunctionsLaidOut P o names f := by
  have hmember : ∀ id g, Value.code id g ∈ f.constants → ConstantLaidOut P o names f (.code id g) := by
    intro id g hmem
    obtain ⟨i, hi⟩ := Array.mem_iff_getElem?.1 hmem
    exact hconstants i _ hi
  refine .intro ?_ (fun id g hmem => (hmember id g hmem).1) (fun id g hmem => (hmember id g hmem).2)
  intro s hmem
  obtain ⟨i, hi⟩ := Array.mem_iff_getElem?.1 hmem
  exact hconstants i _ hi

theorem emitFunction_emits (hs : s.WellFormed) {line : Nat} {name : Option String}
    {params : List String} {body : Compile Unit} {e : Expr} {u : Unit}
    (hbody : BodyEmits P o body e) (he : P e)
    (hrun : emitFunction line name params body s = .ok u s') :
    Emits P o s s' (fun names code => ∃ i id f,
        LayoutFunction o names code s.scopes.lexical line name params e f ∧
        code.constants[i]? = some (.code id f) ∧
        code.Indexed s.code.size .lambda i line s'.code.size) ∧
      s'.scopes.lexical = s.scopes.lexical := by
  obtain ⟨symbol, s₁, symbols, s₂, selfName, s₃, s₄, s₅, i, s₆, hintern, hparams, hself, hinner,
    hret, hadd, hlambda⟩ := emitFunction_steps hrun
  obtain ⟨hname, hcode₁, hscopes₁⟩ := internName_emits (P := P) (o := o) hs hintern
  have hs₁ := hname.advances.wellFormed
  obtain ⟨hfunction, hselfName, hsize, hgrows⟩ :=
    function_emits hs₁ hbody hparams hself hinner hret
  obtain ⟨hend, hlexical, hclose, hsupplies⟩ := functionEnd_spec hs₁ hfunction.advances
  have hreturned : Emits P o s₁ (functionEnd s₁.code s₅) fun _ _ => True :=
    .of_advances hend rfl fun _ _ _ _ => trivial
  have hbefore := hname.seq hreturned
  have hsound := hfunction.advances.wellFormed
  have hsame : (functionEnd s₁.code s₅).code.size = s.code.size := by rw [← hcode₁]; rfl
  -- What the function looks like only depends on what is settled of the code around.
  have hlaidOut : s₅.errors = [] → ∀ names code,
      (functionEnd s₁.code s₅).Settles s.code.size names code →
      LayoutFunction o names code s.scopes.lexical line name params e
          (functionCode s₅ symbol symbols selfName) ∧
        FunctionsLaidOut P o names (functionCode s₅ symbol symbols selfName) := by
    intro hclean names code hsettles
    have hinside : s₅.Settles 0 names (functionCode s₅ symbol symbols selfName) :=
      settles_functionCode hclose hsettles.names
    obtain ⟨⟨hnameEq, hnameKnown⟩, _⟩ := hbefore.laidOut hclean names code hsettles
    obtain ⟨hparamsEq, hstart, hlayout, hat⟩ := hfunction.laidOut hclean names _ hinside
    have hconstants := hfunction.constants hclean names _ hinside
    have hroom : symbols.length + selfName.toList.length ≤ s₅.scopes.current.peak := by
      obtain ⟨new, hnew, _⟩ := hgrows.locals
      have hlength := congrArg List.length hnew
      have hpeak := hsound.scopes.current.length_le_peak
      rw [hstart, List.length_append, Lexical.length_declaredAll] at hlength
      simp only [Scopes.lexical, Lexical.entered, List.length_nil, List.length_append] at hlength
      omega
    have hcaptures : ∀ c ∈ s₅.scopes.current.captures, s.scopes.lexical.Supplies code c := by
      intro c hmem
      have hgiven := supplies_of_settles hend.wellFormed hsettles (hsupplies c hmem)
      rwa [hlexical, hscopes₁] at hgiven
    have hheader : FunctionHeader names code s.scopes.lexical name params
        (functionCode s₅ symbol symbols selfName) :=
      { name_eq := hnameEq
        name_known := hnameKnown
        params_eq := hparamsEq
        selfName_eq := hselfName
        room := by simpa only [functionCode, hclose] using hroom
        captures := by simpa only [functionCode, hclose] using hcaptures
        distinct := by simpa only [functionCode, hclose] using hsound.scopes.current.distinct
        lined := hsound.lined }
    rw [hstart, hscopes₁] at hlayout
    refine ⟨.intro hheader hlayout hat hsize, functionsLaidOut_of_constants ?_⟩
    intro j v hv
    obtain hnone | hlaid := hconstants j v hv
    · simp [functionStart] at hnone
    · exact hlaid
  obtain ⟨hadded, hsize₆, hscopes₆⟩ := by
    refine addConstant_emits (P := P) (o := o) hend.wellFormed ?_ hadd
    intro hclean names code hsettles
    rw [hsame] at hsettles
    obtain ⟨hplace, hnested⟩ := hlaidOut hclean names code hsettles
    exact ⟨⟨_, _, _, _, _, he, hplace⟩, hnested⟩
  obtain ⟨hindexed, hscopes'⟩ := emitIndexed_emits (P := P) (o := o) hadded.advances.wellFormed rfl hlambda
  have hafter := hadded.seq hindexed
  refine ⟨⟨hbefore.advances.trans hafter.advances, ?_, ?_⟩, ?_⟩
  · intro hclean names code hsettles
    have hclean₅ : s₅.errors = [] := hafter.advances.errors hclean
    obtain ⟨hconstant, hat⟩ := hafter.laidOut hclean names code (hsettles.later (by omega))
    have hfunction := (hlaidOut hclean₅ names code (hsettles.back hafter.advances)).1
    rw [hsize₆, hsame] at hat
    exact ⟨i, _, _, hfunction, hconstant, hat⟩
  · exact (hbefore.seq hafter).constants
  · rw [hscopes', hscopes₆, hlexical, hscopes₁]

end Compile

end Resumable
