import Resumable.Proofs.Compile.Emission.Branch
import Resumable.Proofs.Compile.Emission.Function
import Resumable.Proofs.Expr.Every

/-!
Every program that compiles is laid out: the induction over expressions, one lemma for each form.
-/

namespace Resumable

open CompileState Compile

variable {P : Expr → Prop} {o : CompileOptions} {s s' : CompileState}

/-- Compiling an expression leaves its layout. -/
def ExprEmits (P : Expr → Prop) (o : CompileOptions) (tail : Bool) (e : Expr) : Prop :=
  e.Every P → ∀ s s', s.WellFormed → e.emit o tail s = .ok () s' →
    Emits P o s s' fun names code =>
      Layout o names code s.scopes.lexical tail e s.code.size s'.scopes.lexical s'.code.size

/-- Compiling expressions whose values are all kept leaves their layout. -/
def AllEmits (P : Expr → Prop) (o : CompileOptions) (es : List Expr) : Prop :=
  (∀ e ∈ es, e.Every P) → ∀ s s', s.WellFormed → emitAll o es s = .ok () s' →
    Emits P o s s' fun names code =>
      LayoutAll o names code s.scopes.lexical es s.code.size s'.scopes.lexical s'.code.size

/-- Compiling expressions of which the last is kept leaves their layout. -/
def StatementsEmit (P : Expr → Prop) (o : CompileOptions) (tail : Bool) (es : List Expr) : Prop :=
  (∀ e ∈ es, e.Every P) → es ≠ [] → ∀ s s', s.WellFormed → emitStatements o tail es s = .ok () s' →
    Emits P o s s' fun names code =>
      LayoutStatements o names code s.scopes.lexical tail es s.code.size s'.scopes.lexical
        s'.code.size

/-- Compiling the fields of a record leaves their layout. -/
def FieldsEmit (P : Expr → Prop) (o : CompileOptions) (line : Nat) (fields : List (String × Expr)) : Prop :=
  (∀ f ∈ fields, f.2.Every P) → ∀ s s', s.WellFormed → emitFields o line fields s = .ok () s' →
    Emits P o s s' fun names code =>
      LayoutFields o names code s.scopes.lexical line fields s.code.size s'.scopes.lexical
        s'.code.size

/-- Compiling the clauses of a handler leaves their layout. -/
def PairsEmit (P : Expr → Prop) (o : CompileOptions) (pairs : List (Expr × Expr)) : Prop :=
  (∀ p ∈ pairs, p.1.Every P ∧ p.2.Every P) → ∀ s s', s.WellFormed → emitPairs o pairs s = .ok () s' →
    Emits P o s s' fun names code =>
      LayoutPairs o names code s.scopes.lexical pairs s.code.size s'.scopes.lexical s'.code.size

-- The equations of the compiler, once for all the forms below.
attribute [local simp] Expr.emit

theorem exprEmits_nothing (tail : Bool) (line : Nat) : ExprEmits P o tail (.nothing line) := by
  intro hevery s s' hs hrun
  rw [Expr.emit] at hrun
  obtain ⟨hnone, hsize, hscopes⟩ := emitOp_emits (P := P) (o := o) hs rfl hrun
  refine hnone.imp ?_
  intro names code hat
  rw [hsize, hscopes]
  exact .nothing hat

theorem exprEmits_literal {tail : Bool} {e : Expr} {v : Value} (hliteral : e.literal? = some v)
    (hplain : ∀ names code, ConstantLaidOut P o names code v)
    (hemit : e.emit o tail = emitConstant v (o.shown e.line)) : ExprEmits P o tail e := by
  intro hevery s s' hs hrun
  rw [hemit] at hrun
  obtain ⟨hconstant, hscopes⟩ := emitConstant_emits (P := P) (o := o) hs
    (fun names code _ => hplain names code) hrun
  refine hconstant.imp ?_
  rintro names code ⟨i, hvalue, hat⟩
  rw [hscopes]
  exact .literal hliteral hvalue hat

theorem exprEmits_name (tail : Bool) (line : Nat) (name : String) :
    ExprEmits P o tail (.name line name) := by
  intro hevery s s' hs hrun
  rw [Expr.emit] at hrun
  obtain ⟨hload, hlexical⟩ := load_emits (P := P) (o := o) hs hrun
  refine hload.imp ?_
  rintro names code ⟨symbol, hname, haccess⟩
  rw [hlexical]
  exact .name hname haccess

theorem exprEmits_call (tail : Bool) (line : Nat) {callee : Expr} {args : List Expr}
    (hargs : AllEmits P o args) (hcallee : ExprEmits P o false callee) :
    ExprEmits P o tail (.call line callee args) := by
  intro hevery s s' hs hrun
  rw [Expr.emit, bind_eq_ok] at hrun
  obtain ⟨_, s₁, hrunArgs, hrun⟩ := hrun
  rw [bind_eq_ok] at hrun
  obtain ⟨_, s₂, hrunCallee, hrun⟩ := hrun
  have hargs := hargs (fun e hmem => hevery.part (by simp [Expr.parts, hmem])) s s₁ hs hrunArgs
  have hcallee := hcallee (hevery.part (by simp [Expr.parts])) s₁ s₂ hargs.advances.wellFormed hrunCallee
  have hwidth : (if tail then Op.tailCall else Op.call).width = 1 := by cases tail <;> rfl
  obtain ⟨hcall, hsize, hscopes⟩ :=
    emitCount_emits (P := P) (o := o) hcallee.advances.wellFormed hwidth hrun
  refine ((hargs.seq hcallee).seq hcall).imp ?_
  rintro names code ⟨⟨hargs, hcallee⟩, hat⟩
  rw [hsize, hscopes]
  exact .call hargs hcallee hat

theorem exprEmits_cond (tail : Bool) (line : Nat) {test whenTrue : Expr} {whenFalse : Option Expr}
    (htest : ExprEmits P o false test) (htrue : ExprEmits P o tail whenTrue)
    (hfalse : match whenFalse with
      | some e => ExprEmits P o tail e
      | none => True) :
    ExprEmits P o tail (.cond line test whenTrue whenFalse) := by
  intro hevery s s' hs hrun
  rw [Expr.emit, bind_eq_ok] at hrun
  obtain ⟨_, s₁, hrunTest, hrun⟩ := hrun
  rw [bind_eq_ok] at hrun
  obtain ⟨toElse, s₂, hopenElse, hrun⟩ := hrun
  rw [bind_eq_ok] at hrun
  obtain ⟨_, s₃, hrunTrue, hrun⟩ := hrun
  rw [bind_eq_ok] at hrun
  obtain ⟨toEnd, s₄, hopenEnd, hrun⟩ := hrun
  rw [bind_eq_ok] at hrun
  obtain ⟨_, s₅, hpatchElse, hrun⟩ := hrun
  have htest := htest (hevery.part (by simp [Expr.parts])) s s₁ hs hrunTest
  have hjumpElse := emitJump_opened htest.advances.wellFormed rfl hopenElse
  have htrue := htrue (hevery.part (by simp [Expr.parts])) s₂ s₃ hjumpElse.advances.wellFormed hrunTrue
  have hjumpEnd := emitJump_opened htrue.advances.wellFormed rfl hopenEnd
  have hthere := patch_patches hpatchElse
  have hs₅ := (hthere.advances
    (hjumpElse.advances.trans (htrue.advances.trans hjumpEnd.advances))
    (Nat.le_of_eq hjumpElse.start_eq.symm)).wellFormed
  have hsize₂ := hjumpElse.size
  have hsize₃ := htrue.advances.grows.size_le
  have hsize₅ : s₅.code.size = s₃.code.size + 3 := hthere.size.trans hjumpEnd.size
  have hscopes₅ : s₅.scopes = s₃.scopes := hthere.scopes.trans hjumpEnd.scopes
  cases whenFalse with
  | some e =>
    simp only [bind_eq_ok] at hrun
    obtain ⟨_, s₆, hrunFalse, hpatchEnd⟩ := hrun
    have hfalse := hfalse (hevery.part (by simp [Expr.parts])) s₅ s₆ hs₅ hrunFalse
    have hend := patch_patches hpatchEnd
    have hsize₆ := hfalse.advances.grows.size_le
    refine (cond_emits htest hopenElse htrue hopenEnd hpatchElse hfalse hpatchEnd).imp ?_
    rintro names code ⟨htest, htrue, hfalse, hatElse, hatEnd⟩
    rw [hjumpElse.scopes, hsize₂] at htrue
    rw [hscopes₅, hsize₅] at hfalse
    rw [hend.scopes, hend.size]
    exact .condElse htest hatElse (by rw [hjumpEnd.size]; omega) htrue hatEnd (by omega) hfalse
  | none =>
    simp only [bind_eq_ok] at hrun
    obtain ⟨_, s₆, hrunNone, hpatchEnd⟩ := hrun
    obtain ⟨hnone, hsize₆, hscopes₆⟩ := emitOp_emits (P := P) (o := o) hs₅ rfl hrunNone
    have hend := patch_patches hpatchEnd
    refine (cond_emits htest hopenElse htrue hopenEnd hpatchElse hnone hpatchEnd).imp ?_
    rintro names code ⟨htest, htrue, hnone, hatElse, hatEnd⟩
    have hlast : s'.code.size = s₃.code.size + 4 := by rw [hend.size, hsize₆, hsize₅]
    rw [hjumpElse.scopes, hsize₂] at htrue
    rw [hsize₅] at hnone
    rw [hend.scopes, hscopes₆, hscopes₅, hlast]
    exact .condOnly htest hatElse (by rw [hjumpEnd.size]; omega) htrue hatEnd (by omega) hnone

theorem exprEmits_lambda (tail : Bool) (line : Nat) (name : Option String) (params : List String)
    {body : Expr} (hbody : ExprEmits P o true body) :
    ExprEmits P o tail (.lambda line name params body) := by
  intro hevery s s' hs hrun
  rw [Expr.emit] at hrun
  have hinside : body.Every P := hevery.part (by simp [Expr.parts])
  obtain ⟨hfunction, hlexical⟩ := emitFunction_emits hs (hbody hinside) hinside.here hrun
  refine hfunction.imp ?_
  rintro names code ⟨i, id, f, hlayout, hconstant, hat⟩
  rw [hlexical]
  exact .lambda hlayout hconstant hat

theorem exprEmits_block (tail : Bool) (line : Nat) {body : List Expr}
    (hbody : match body with
      | [] => True
      | e :: es => StatementsEmit P o tail (e :: es)) :
    ExprEmits P o tail (.block line body) := by
  intro hevery s s' hs hrun
  have hopen : CompileState.WellFormed { s with scopes := s.scopes.openScope } :=
    ⟨hs.lined, hs.scopes.openScope⟩
  rw [Expr.emit, bind_eq_ok] at hrun
  obtain ⟨_, _, hstart, hrun⟩ := hrun
  cases hstart
  cases body with
  | nil =>
    simp only [bind_eq_ok] at hrun
    obtain ⟨_, s₁, hrunNone, hclose⟩ := hrun
    cases hclose
    obtain ⟨hnone, hsize, _⟩ := emitOp_emits (P := P) (o := o) hopen rfl hrunNone
    obtain ⟨hscoped, hlexical⟩ := scoped_emits hs hnone
    refine hscoped.imp ?_
    intro names code hat
    rw [hlexical, hsize]
    exact .blockEmpty hat
  | cons e es =>
    simp only [bind_eq_ok] at hrun
    obtain ⟨_, s₁, hrunBody, hclose⟩ := hrun
    cases hclose
    have hstatements := hbody (fun e hmem => hevery.part hmem) (by simp) _ s₁ hopen hrunBody
    obtain ⟨hscoped, hlexical⟩ := scoped_emits hs hstatements
    refine hscoped.imp ?_
    intro names code hlayout
    rw [hlexical]
    exact .block hlayout

theorem exprEmits_declare (tail : Bool) (line : Nat) (name : String) {value : Expr}
    (hvalue : ExprEmits P o false value) : ExprEmits P o tail (.declare line name value) := by
  intro hevery s s' hs hrun
  rw [Expr.emit, bind_eq_ok] at hrun
  obtain ⟨_, s₁, hrunValue, hrun⟩ := hrun
  have hvalue := hvalue (hevery.part (by simp [Expr.parts])) s s₁ hs hrunValue
  have hbind := bind_emits (P := P) (o := o) hvalue.advances.wellFormed hrun
  refine (hvalue.seq hbind).imp ?_
  rintro names code ⟨hlayout, symbol, c, hname, hbinding, hnone, hsize⟩
  rw [hsize]
  generalize s'.scopes.lexical = Γ' at hbinding
  cases hbinding with
  | global hglobal hsymbol hat => exact .declareGlobal hlayout hglobal hname hsymbol hat hnone
  | «local» hlocal hroom hat => exact .declareLocal hlayout hlocal hname hroom hat hnone

theorem exprEmits_assign (tail : Bool) (line : Nat) (name : String) {value : Expr}
    (hvalue : ExprEmits P o false value) : ExprEmits P o tail (.assign line name value) := by
  intro hevery s s' hs hrun
  rw [Expr.emit, bind_eq_ok] at hrun
  obtain ⟨_, s₁, hrunValue, hrun⟩ := hrun
  have hvalue := hvalue (hevery.part (by simp [Expr.parts])) s s₁ hs hrunValue
  obtain ⟨hstore, hlexical⟩ := store_emits (P := P) (o := o) hvalue.advances.wellFormed hrun
  refine (hvalue.seq hstore).imp ?_
  rintro names code ⟨hlayout, symbol, c, hname, haccess, hnone, hsize⟩
  rw [hsize, hlexical]
  exact .assign hlayout hname haccess hnone

theorem exprEmits_list (tail : Bool) (line : Nat) {items : List Expr} (hitems : AllEmits P o items) :
    ExprEmits P o tail (.list line items) := by
  intro hevery s s' hs hrun
  rw [Expr.emit, bind_eq_ok] at hrun
  obtain ⟨_, s₁, hrunItems, hrun⟩ := hrun
  have hitems := hitems (fun e hmem => hevery.part hmem) s s₁ hs hrunItems
  obtain ⟨hbuild, hsize, hscopes⟩ := emitCount_emits (P := P) (o := o) hitems.advances.wellFormed rfl hrun
  refine (hitems.seq hbuild).imp ?_
  rintro names code ⟨hlayout, hat⟩
  rw [hsize, hscopes]
  exact .list hlayout hat

theorem exprEmits_tuple (tail : Bool) (line : Nat) {items : List Expr}
    (hitems : AllEmits P o items) : ExprEmits P o tail (.tuple line items) := by
  intro hevery s s' hs hrun
  rw [Expr.emit, bind_eq_ok] at hrun
  obtain ⟨_, s₁, hrunItems, hrun⟩ := hrun
  have hitems := hitems (fun e hmem => hevery.part hmem) s s₁ hs hrunItems
  obtain ⟨hbuild, hsize, hscopes⟩ := emitCount_emits (P := P) (o := o) hitems.advances.wellFormed rfl hrun
  refine (hitems.seq hbuild).imp ?_
  rintro names code ⟨hlayout, hat⟩
  rw [hsize, hscopes]
  exact .tuple hlayout hat

theorem exprEmits_record (tail : Bool) (line : Nat) {fields : List (String × Expr)}
    (hfields : FieldsEmit P o (o.shown line) fields) : ExprEmits P o tail (.record line fields) := by
  intro hevery s s' hs hrun
  rw [Expr.emit, bind_eq_ok] at hrun
  obtain ⟨_, s₁, hrunFields, hrun⟩ := hrun
  have hfields :=
    hfields (fun f hmem => hevery.part (List.mem_map.2 ⟨f, hmem, rfl⟩)) s s₁ hs hrunFields
  obtain ⟨hbuild, hsize, hscopes⟩ := emitCount_emits (P := P) (o := o) hfields.advances.wellFormed rfl hrun
  refine (hfields.seq hbuild).imp ?_
  rintro names code ⟨hlayout, hat⟩
  rw [hsize, hscopes]
  exact .record hlayout hat

theorem exprEmits_field (tail : Bool) (line : Nat) (name : String) {target : Expr}
    (htarget : ExprEmits P o false target) : ExprEmits P o tail (.field line target name) := by
  intro hevery s s' hs hrun
  rw [Expr.emit, bind_eq_ok] at hrun
  obtain ⟨_, s₁, hrunTarget, hrun⟩ := hrun
  rw [bind_eq_ok] at hrun
  obtain ⟨symbol, s₂, hintern, hrun⟩ := hrun
  have htarget := htarget (hevery.part (by simp [Expr.parts])) s s₁ hs hrunTarget
  obtain ⟨hname, hcode, hscopes, hfound⟩ :=
    intern_emits (P := P) (o := o) htarget.advances.wellFormed hintern
  obtain ⟨hget, hscopes'⟩ :=
    emitSymbol_emits (P := P) (o := o) hname.advances.wellFormed rfl hfound hrun
  refine ((htarget.seq hname).seq hget).imp ?_
  rintro names code ⟨⟨hlayout, hfind⟩, i, hsymbol, hat⟩
  rw [hcode] at hat
  rw [hscopes', hscopes]
  exact .field hlayout hfind hsymbol hat

theorem exprEmits_handled (tail : Bool) (line : Nat) {clauses : List (Expr × Expr)} {body : Expr}
    (hclauses : PairsEmit P o clauses) (hbody : ExprEmits P o true body) :
    ExprEmits P o tail (.handled line clauses body) := by
  intro hevery s s' hs hrun
  rw [Expr.emit, bind_eq_ok] at hrun
  obtain ⟨_, s₁, hrunClauses, hrun⟩ := hrun
  rw [bind_eq_ok] at hrun
  obtain ⟨_, s₂, hrunMake, hrun⟩ := hrun
  rw [bind_eq_ok] at hrun
  obtain ⟨_, s₃, hrunBody, hrun⟩ := hrun
  have hinside : body.Every P := hevery.part (by simp [Expr.parts])
  have hclauses := hclauses (fun p hmem => hevery.pair hmem) s s₁ hs hrunClauses
  obtain ⟨hmake, hsize₂, hscopes₂⟩ :=
    emitCount_emits (P := P) (o := o) hclauses.advances.wellFormed rfl hrunMake
  obtain ⟨hfunction, hlexical⟩ :=
    emitFunction_emits hmake.advances.wellFormed (hbody hinside) hinside.here hrunBody
  obtain ⟨hhandle, hsize, hscopes⟩ := emitOp_emits (P := P) (o := o) hfunction.advances.wellFormed rfl hrun
  refine (((hclauses.seq hmake).seq hfunction).seq hhandle).imp ?_
  rintro names code ⟨⟨⟨hlayout, hatMake⟩, i, id, f, hbody, hconstant, hatBody⟩, hat⟩
  rw [hscopes₂] at hbody
  rw [hsize₂] at hatBody
  rw [hsize, hscopes, hlexical, hscopes₂]
  exact .handled hlayout hatMake hbody hconstant hatBody hat

theorem allEmits_cons {e : Expr} {es : List Expr} (hfirst : ExprEmits P o false e)
    (hrest : AllEmits P o es) : AllEmits P o (e :: es) := by
  intro hevery s s' hs hrun
  rw [emitAll, bind_eq_ok] at hrun
  obtain ⟨_, s₁, hrunFirst, hrun⟩ := hrun
  have hfirst := hfirst (hevery e (by simp)) s s₁ hs hrunFirst
  have hrest := hrest (fun e' hmem => hevery e' (by simp [hmem])) s₁ s' hfirst.advances.wellFormed hrun
  refine (hfirst.seq hrest).imp ?_
  rintro names code ⟨hlayout, hlayouts⟩
  exact .cons hlayout hlayouts

theorem statementsEmit_last {tail : Bool} {e : Expr} (hlast : ExprEmits P o tail e) :
    StatementsEmit P o tail [e] := by
  intro hevery _ s s' hs hrun
  simp only [emitStatements, List.isEmpty_nil, if_true] at hrun
  refine (hlast (hevery e (by simp)) s s' hs hrun).imp ?_
  intro names code hlayout
  exact .last hlayout

theorem statementsEmit_cons {tail : Bool} {e : Expr} {es : List Expr} (hes : es ≠ [])
    (hfirst : ExprEmits P o false e) (hrest : StatementsEmit P o tail es) :
    StatementsEmit P o tail (e :: es) := by
  intro hevery _ s s' hs hrun
  rw [emitStatements, if_neg (by simpa using hes), bind_eq_ok] at hrun
  obtain ⟨_, s₁, hrunFirst, hrun⟩ := hrun
  rw [bind_eq_ok] at hrun
  obtain ⟨_, s₂, hrunPop, hrun⟩ := hrun
  have hfirst := hfirst (hevery e (by simp)) s s₁ hs hrunFirst
  obtain ⟨hpop, hsize, hscopes⟩ := emitOp_emits (P := P) (o := o) hfirst.advances.wellFormed rfl hrunPop
  have hrest := hrest (fun e' hmem => hevery e' (by simp [hmem])) hes s₂ s' hpop.advances.wellFormed hrun
  refine ((hfirst.seq hpop).seq hrest).imp ?_
  rintro names code ⟨⟨hlayout, hat⟩, hlayouts⟩
  rw [hsize, hscopes] at hlayouts
  exact .cons hlayout hat hlayouts

theorem fieldsEmit_cons {line : Nat} {name : String} {e : Expr} {fields : List (String × Expr)}
    (hfirst : ExprEmits P o false e) (hrest : FieldsEmit P o line fields) :
    FieldsEmit P o line ((name, e) :: fields) := by
  intro hevery s s' hs hrun
  rw [emitFields, bind_eq_ok] at hrun
  obtain ⟨symbol, s₁, hintern, hrun⟩ := hrun
  rw [bind_eq_ok] at hrun
  obtain ⟨_, s₂, hrunName, hrun⟩ := hrun
  rw [bind_eq_ok] at hrun
  obtain ⟨_, s₃, hrunFirst, hrun⟩ := hrun
  obtain ⟨hname, hcode, hscopes₁, hfound⟩ := intern_emits (P := P) (o := o) hs hintern
  have hknown : ∀ names code, s₁.Settles s₁.code.size names code →
      ConstantLaidOut P o names code (.symbol symbol) :=
    fun _ _ hsettles => ⟨name, hsettles.names name symbol hfound⟩
  obtain ⟨hsymbol, hscopes₂⟩ :=
    emitConstant_emits (P := P) (o := o) hname.advances.wellFormed hknown hrunName
  have hfirst := hfirst (hevery (name, e) (by simp)) s₂ s₃ hsymbol.advances.wellFormed hrunFirst
  have hrest := hrest (fun f hmem => hevery f (by simp [hmem])) s₃ s' hfirst.advances.wellFormed hrun
  refine (((hname.seq hsymbol).seq hfirst).seq hrest).imp ?_
  rintro names code ⟨⟨⟨hfind, i, hconstant, hat⟩, hlayout⟩, hlayouts⟩
  rw [hcode] at hat
  rw [hscopes₂, hscopes₁] at hlayout
  exact .cons hfind hconstant hat hlayout hlayouts

theorem pairsEmit_cons {effect function : Expr} {pairs : List (Expr × Expr)}
    (heffect : ExprEmits P o false effect) (hfunction : ExprEmits P o false function)
    (hrest : PairsEmit P o pairs) : PairsEmit P o ((effect, function) :: pairs) := by
  intro hevery s s' hs hrun
  rw [emitPairs, bind_eq_ok] at hrun
  obtain ⟨_, s₁, hrunEffect, hrun⟩ := hrun
  rw [bind_eq_ok] at hrun
  obtain ⟨_, s₂, hrunFunction, hrun⟩ := hrun
  obtain ⟨hinEffect, hinFunction⟩ := hevery (effect, function) (by simp)
  have heffect := heffect hinEffect s s₁ hs hrunEffect
  have hfunction := hfunction hinFunction s₁ s₂ heffect.advances.wellFormed hrunFunction
  have hrest := hrest (fun p hmem => hevery p (by simp [hmem])) s₂ s' hfunction.advances.wellFormed hrun
  refine ((heffect.seq hfunction).seq hrest).imp ?_
  rintro names code ⟨⟨hlayout, hlayout'⟩, hlayouts⟩
  exact .cons hlayout hlayout' hlayouts

/-- Compiling lays out every expression, and every list of them. -/
theorem emit_emits (P : Expr → Prop) (o : CompileOptions) :
    (∀ tail e, ExprEmits P o tail e) ∧ (∀ pairs, PairsEmit P o pairs) ∧
      (∀ line fields, FieldsEmit P o line fields) ∧ (∀ tail es, StatementsEmit P o tail es) ∧
      ∀ es, AllEmits P o es := by
  refine Expr.emit.mutual_induct o (ExprEmits P o) (PairsEmit P o) (FieldsEmit P o) (StatementsEmit P o)
    (AllEmits P o) ?nothing ?bool ?int ?float ?str ?name ?call ?cond ?lambda ?block ?declare ?assign
    ?list ?tuple ?record ?field ?handle ?handled ?noStatement ?last ?statement ?noExpr ?expr
    ?noField ?field' ?noPair ?pair
  case nothing => exact exprEmits_nothing
  case bool =>
    intro tail line b
    exact exprEmits_literal rfl (fun _ _ => trivial) (by rw [Expr.emit, Expr.line])
  case int =>
    intro tail line n
    exact exprEmits_literal rfl (fun _ _ => trivial) (by rw [Expr.emit, Expr.line])
  case float =>
    intro tail line x
    exact exprEmits_literal rfl (fun _ _ => trivial) (by rw [Expr.emit, Expr.line])
  case str =>
    intro tail line text
    exact exprEmits_literal rfl (fun _ _ => trivial) (by rw [Expr.emit, Expr.line])
  case name => exact exprEmits_name
  case call => exact fun tail line _ _ => exprEmits_call tail line
  case cond => exact fun tail line _ _ _ => exprEmits_cond tail line
  case lambda => exact fun tail line name params _ => exprEmits_lambda tail line name params
  case block => exact fun tail line _ => exprEmits_block tail line
  case declare => exact fun tail line name _ => exprEmits_declare tail line name
  case assign => exact fun tail line name _ => exprEmits_assign tail line name
  case list => exact fun tail line _ => exprEmits_list tail line
  case tuple => exact fun tail line _ => exprEmits_tuple tail line
  case record => exact fun tail line _ => exprEmits_record tail line
  case field => exact fun tail line _ name => exprEmits_field tail line name
  case handle =>
    intro tail line body clauses _ s s' _ hrun
    rw [Expr.emit] at hrun
    cases hrun
  case handled => exact fun tail line _ _ => exprEmits_handled tail line
  case noStatement => exact fun tail _ hne => absurd rfl hne
  case last =>
    intro tail e es hes hlast
    rw [List.isEmpty_iff.1 hes]
    exact statementsEmit_last hlast
  case statement =>
    intro tail e es hes hfirst hrest
    exact statementsEmit_cons (by simpa using hes) hfirst hrest
  case noExpr =>
    intro _ s s' hs hrun
    rw [emitAll] at hrun
    cases hrun
    exact .of_advances (.refl hs) rfl fun _ _ _ _ => .nil
  case expr => exact fun e es => allEmits_cons
  case noField =>
    intro line _ s s' hs hrun
    rw [emitFields] at hrun
    cases hrun
    exact .of_advances (.refl hs) rfl fun _ _ _ _ => .nil
  case field' => exact fun line name e fields => fieldsEmit_cons
  case noPair =>
    intro _ s s' hs hrun
    rw [emitPairs] at hrun
    cases hrun
    exact .of_advances (.refl hs) rfl fun _ _ _ _ => .nil
  case pair => exact fun effect function pairs => pairsEmit_cons

namespace Program

/-- The body of a program ends with its only return. -/
theorem emitBody_emits {program : Program} (hevery : ∀ e ∈ program, e.Every P) (hs : s.WellFormed)
    {u : Unit}
    (hrun : program.emitBody o s = .ok u s') :
    Emits P o s s' (fun names code => ∃ n line, code.At n .ret 0 line ∧ s'.code.size = n + 1 ∧
      ((program = [] ∧ n = s.code.size + 1 ∧ code.At s.code.size .pushNone 0 0 ∧ line = 0) ∨
        ∃ last, program.getLast? = some last ∧ line = o.shown last.line ∧
          LayoutStatements o names code s.scopes.lexical true program s.code.size
            s'.scopes.lexical n)) := by
  unfold emitBody at hrun
  cases hlast : program.getLast? with
  | none =>
    simp only [hlast, bind_eq_ok] at hrun
    obtain ⟨_, s₁, hrunNone, hrunRet⟩ := hrun
    obtain ⟨hnone, hsize₁, _⟩ := emitOp_emits (P := P) (o := o) hs rfl hrunNone
    obtain ⟨hret, hsize, _⟩ := emitOp_emits (P := P) (o := o) hnone.advances.wellFormed rfl hrunRet
    refine (hnone.seq hret).imp ?_
    rintro names code ⟨hatNone, hatRet⟩
    exact ⟨s₁.code.size, 0, hatRet, hsize,
      Or.inl ⟨List.getLast?_eq_none_iff.1 hlast, hsize₁, hatNone, rfl⟩⟩
  | some last =>
    simp only [hlast, bind_eq_ok] at hrun
    obtain ⟨_, s₁, hrunBody, hrunRet⟩ := hrun
    have hne : program ≠ [] := by
      rintro rfl
      cases hlast
    have hbody := (emit_emits P o).2.2.2.1 true program hevery hne s s₁ hs hrunBody
    obtain ⟨hret, hsize, hscopes⟩ := emitOp_emits (P := P) (o := o) hbody.advances.wellFormed rfl hrunRet
    refine (hbody.seq hret).imp ?_
    rintro names code ⟨hlayout, hatRet⟩
    rw [hscopes]
    exact ⟨s₁.code.size, o.shown last.line, hatRet, hsize, Or.inr ⟨last, rfl, rfl, hlayout⟩⟩

/-- A program that compiles is laid out in its code, and its names stay coherent. -/
theorem emit_layoutProgram {program : Program} (hevery : ∀ e ∈ program, e.Every P)
    {names names' : Names} {supply supply' : Supply} {code : Code Value}
    (hemit : program.emit o names supply = (.ok code, names', supply')) :
    LayoutProgram P o names' program code ∧ (names.Coherent supply → names'.Coherent supply') ∧
      supply.objects ≤ supply'.objects ∧
      ∀ name symbol, names.find? name = some symbol → names'.find? name = some symbol := by
  unfold emit at hemit
  have hstart : CompileState.WellFormed { names, supply } :=
    ⟨rfl, ⟨⟨trivial, Nat.le_refl _, nofun, .nil⟩, nofun, rfl⟩⟩
  cases hrun : program.emitBody o { names, supply } with
  | error fatal s => simp [hrun] at hemit
  | ok u s =>
    simp only [hrun, Prod.mk.injEq] at hemit
    obtain ⟨hcode, rfl, rfl⟩ := hemit
    cases herrors : s.errors with
    | cons problem problems => simp [herrors] at hcode
    | nil =>
      simp only [herrors, List.isEmpty_nil, if_true, Except.ok.injEq] at hcode
      subst hcode
      have hbody := emitBody_emits (o := o) hevery hstart hrun
      have hheader : s.code.header = (none, [], none, 0, []) := hbody.advances.header
      simp only [Code.header, Prod.mk.injEq] at hheader
      obtain ⟨_, hparams, hself, _, hcaptures⟩ := hheader
      have hnone : s.scopes.outer = [] := by
        have houter := hbody.advances.outer
        cases hfunctions : s.scopes.outer with
        | nil => rfl
        | cons f fs =>
          rw [Scopes.OuterGrows, hfunctions] at houter
          cases houter
      have hlinked : s.scopes.current.captures = [] := by
        have hlinked := hbody.advances.wellFormed.scopes.linked
        rwa [hnone] at hlinked
      have hsettles : s.Settles 0 s.names { s.code with localCount := s.scopes.peak } :=
        { agrees := fun _ _ _ => ⟨rfl, rfl⟩
          constants := fun _ _ hv => hv
          peak := Nat.le_refl _
          captures := by simp [hlinked]
          names := fun _ _ hname => hname }
      obtain ⟨n, line, hat, hsize, hform⟩ := hbody.laidOut herrors _ _ hsettles
      refine ⟨?_, hbody.advances.coherent, hbody.advances.objects, hbody.advances.names⟩
      refine
        { params := hparams
          selfName := hself
          captures := hcaptures
          lined := hbody.advances.wellFormed.lined
          functions := functionsLaidOut_of_constants ?_
          body := ⟨s.scopes.lexical, n, line, hat, hsize, hform⟩ }
      intro i v hv
      obtain hnothing | hlaid := hbody.constants herrors _ _ hsettles i v hv
      · simp at hnothing
      · exact hlaid

end Program

end Resumable
