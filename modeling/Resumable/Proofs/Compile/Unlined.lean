import Resumable.Compile
import Resumable.Proofs.Action
import Resumable.Proofs.Value.Unlined

/-!
Compiling with and without lines. Both take the same steps: where the one comes to code, the other
comes to that code without its lines, and where the one reports an error, the other reports the same
problem.
-/

namespace Resumable

/-- What compiling without lines has produced when compiling with lines has produced the other. -/
structure CompileState.Unlines (s s' : CompileState) : Prop where
  names : s'.names = s.names
  supply : s'.supply = s.supply
  scopes : s'.scopes = s.scopes
  code : s'.code = s.code.unlined
  problems : s'.errors.map CompileError.problem = s.errors.map CompileError.problem

namespace Compile

/-- The second action does without lines what the first does with lines. -/
def Unlines {α : Type} (R : α → α → Prop) (x y : Compile α) : Prop :=
  ActAlike (fun e e' => e'.problem = e.problem) CompileState.Unlines R x y

variable {α : Type}

theorem unlines_report (problem : CompileProblem) (line line' : Nat) :
    Unlines (fun _ _ => True) (report problem line) (report problem line') := by
  unfold report
  split
  · exact actAlike_throw rfl
  · refine actAlike_modify fun hs => ⟨hs.names, hs.supply, hs.scopes, hs.code, ?_⟩
    simp only [List.map_cons, hs.problems]

theorem unlines_intern (name : String) : Unlines Eq (intern name) (intern name) := by
  refine actAlike_modifyGet fun hs => ?_
  obtain ⟨hnames, hsupply, hscopes, hcode, hproblems⟩ := hs
  rw [hnames, hsupply]
  exact ⟨rfl, rfl, rfl, hscopes, hcode, hproblems⟩

theorem unlines_resolve (symbol : Symbol) : Unlines Eq (resolve symbol) (resolve symbol) := by
  refine actAlike_modifyGet fun hs => ?_
  obtain ⟨hnames, hsupply, hscopes, hcode, hproblems⟩ := hs
  rw [hscopes]
  exact ⟨rfl, hnames, hsupply, rfl, hcode, hproblems⟩

theorem unlines_scope (f : Scopes → Scopes) : Unlines (fun _ _ => True) (scope f) (scope f) :=
  actAlike_modify fun hs =>
    ⟨hs.names, hs.supply, congrArg f hs.scopes, hs.code, hs.problems⟩

theorem unlines_declare (symbol : Symbol) : Unlines Eq (declare symbol) (declare symbol) := by
  refine actAlike_modifyGet fun {s s'} hs => ?_
  obtain ⟨hnames, hsupply, hscopes, hcode, hproblems⟩ := hs
  rw [hscopes]
  cases s.scopes.declare symbol with
  | ok found => exact ⟨rfl, hnames, hsupply, rfl, hcode, hproblems⟩
  | error problem => exact ⟨rfl, hnames, hsupply, hscopes, hcode, hproblems⟩

/-- What is written with lines on the one side is written without them on the other. -/
theorem unlines_write {f g : Code Value → Code Value}
    (hsame : ∀ code, g code.unlined = (f code).unlined) :
    Unlines (fun _ _ => True) (write f) (write g) := by
  refine actAlike_modify fun hs => ⟨hs.names, hs.supply, hs.scopes, ?_, hs.problems⟩
  simp only [hs.code, hsame]

end Compile

namespace Code

variable (code : Code Value)

theorem unlined_empty : ({} : Code Value).unlined = {} := by
  simp [unlined_eq]

theorem unlined_writeByte (byte : UInt8) (line : Nat) :
    (code.writeByte byte line).unlined = code.unlined.writeByte byte 0 := by
  simp [unlined_eq, writeByte]

theorem unlined_write (op : Op) (line : Nat) :
    (code.write op line).unlined = code.unlined.write op 0 :=
  code.unlined_writeByte _ _

theorem unlined_writeNarrow (op : Op) (operand : UInt8) (line : Nat) :
    (code.writeNarrow op operand line).unlined = code.unlined.writeNarrow op operand 0 := by
  simp only [writeNarrow, unlined_writeByte, unlined_write]

theorem unlined_writeWide (op : Op) (operand : UInt16) (line : Nat) :
    (code.writeWide op operand line).unlined = code.unlined.writeWide op operand 0 := by
  simp only [writeWide, unlined_writeByte, unlined_write]

theorem unlined_writeForm (form : IndexForm) (index line : Nat) :
    (code.writeForm form index line).unlined = code.unlined.writeForm form index 0 := by
  cases form with
  | narrow op => exact code.unlined_writeNarrow _ _ _
  | wide op => exact code.unlined_writeWide _ _ _

theorem unlined_setJump (start distance : Nat) :
    (code.setJump start distance).unlined = code.unlined.setJump start distance := by
  simp only [unlined_eq, setJump]

theorem unlined_pushConstant (v : Value) :
    (code.pushConstant v).unlined = code.unlined.pushConstant v.unlined := by
  simp [unlined_eq, pushConstant]

theorem symbolIndex?_unlined (symbol : Symbol) :
    code.unlined.symbolIndex? symbol = code.symbolIndex? symbol := by
  simp only [symbolIndex?, constants_unlined, Array.findIdx?_map]
  congr 1
  funext v
  cases v <;> rfl

theorem nextConstant_unlined : code.unlined.nextConstant = code.nextConstant := by
  simp only [nextConstant, constants_unlined, Array.size_map]

theorem jumpDistance_unlined (start : Nat) :
    code.unlined.jumpDistance start = code.jumpDistance start := by
  simp only [jumpDistance, bytes_unlined]

end Code

namespace Compile

theorem unlines_emitOp (op : Op) (line : Nat) :
    Unlines (fun _ _ => True) (emitOp op line) (emitOp op 0) :=
  unlines_write fun code => (code.unlined_write op line).symm

theorem unlines_emitIndexed (op : Op) (index line : Nat) :
    Unlines (fun _ _ => True) (emitIndexed op index line) (emitIndexed op index 0) := by
  unfold emitIndexed
  cases op.formFor index with
  | ok form => exact unlines_write fun code => (code.unlined_writeForm form index line).symm
  | error e => exact unlines_report _ _ _

theorem unlines_addConstant (v : Value) (line : Nat) :
    Unlines Eq (addConstant v line) (addConstant v.unlined 0) := by
  refine actAlike_get.bind fun {s s'} hs => ?_
  rw [hs.code, Code.nextConstant_unlined]
  cases s.code.nextConstant with
  | ok index =>
    refine (unlines_write fun code => (code.unlined_pushConstant v).symm).bind fun _ => ?_
    exact actAlike_pure rfl
  | error e => exact actAlike_throw rfl

theorem unlines_addSymbol (symbol : Symbol) (line : Nat) :
    Unlines Eq (addSymbol symbol line) (addSymbol symbol 0) := by
  refine actAlike_get.bind fun {s s'} hs => ?_
  rw [hs.code, Code.symbolIndex?_unlined]
  cases s.code.symbolIndex? symbol with
  | some index => exact actAlike_pure rfl
  | none => exact unlines_addConstant (.symbol symbol) line

theorem unlines_emitConstant (v : Value) (line : Nat) :
    Unlines (fun _ _ => True) (emitConstant v line) (emitConstant v.unlined 0) := by
  refine (unlines_addConstant v line).bind fun hindex => ?_
  subst hindex
  exact unlines_emitIndexed _ _ _

theorem unlines_emitSymbol (op : Op) (symbol : Symbol) (line : Nat) :
    Unlines (fun _ _ => True) (emitSymbol op symbol line) (emitSymbol op symbol 0) := by
  refine (unlines_addSymbol symbol line).bind fun hindex => ?_
  subst hindex
  exact unlines_emitIndexed _ _ _

theorem unlines_emitCount (op : Op) (count : Nat) (what : String) (line : Nat) :
    Unlines (fun _ _ => True) (emitCount op count what line) (emitCount op count what 0) := by
  unfold emitCount
  split
  · exact unlines_write fun code => (code.unlined_writeNarrow _ _ line).symm
  · refine (unlines_report _ _ _).bind fun _ => ?_
    exact unlines_write fun code => (code.unlined_writeNarrow _ _ line).symm

theorem unlines_emitJump (op : Op) (line : Nat) : Unlines Eq (emitJump op line) (emitJump op 0) := by
  refine actAlike_modifyGet fun hs => ?_
  refine ⟨?_, hs.names, hs.supply, hs.scopes, ?_, hs.problems⟩
  · rw [hs.code, Code.size, Code.size, Code.bytes_unlined]
  · simp only [hs.code, Code.writeJump, Code.unlined_writeWide]

theorem unlines_patch (start line : Nat) :
    Unlines (fun _ _ => True) (patch start line) (patch start 0) := by
  refine actAlike_get.bind fun {s s'} hs => ?_
  rw [hs.code, Code.jumpDistance_unlined]
  cases s.code.jumpDistance start with
  | ok distance => exact unlines_write fun code => (code.unlined_setJump start distance).symm
  | error e => exact unlines_report _ _ _

theorem unlines_mustDeclare (symbol : Symbol) (line : Nat) :
    Unlines (fun _ _ => True) (mustDeclare symbol line) (mustDeclare symbol 0) := by
  refine (unlines_declare symbol).bind fun {found _} hfound => ?_
  subst hfound
  cases found with
  | ok slot => exact actAlike_pure trivial
  | error problem => exact actAlike_throw rfl

theorem unlines_load (name : String) (line : Nat) :
    Unlines (fun _ _ => True) (load name line) (load name 0) := by
  refine (unlines_intern name).bind fun {symbol _} hsymbol => ?_
  subst hsymbol
  refine (unlines_resolve symbol).bind fun {found _} hfound => ?_
  subst hfound
  cases found with
  | slot n => exact unlines_emitIndexed _ _ _
  | captured => exact unlines_emitSymbol _ _ _
  | global => exact unlines_emitSymbol _ _ _

theorem unlines_store (name : String) (line : Nat) :
    Unlines (fun _ _ => True) (store name line) (store name 0) := by
  refine (unlines_intern name).bind fun {symbol _} hsymbol => ?_
  subst hsymbol
  refine (unlines_resolve symbol).bind fun {found _} hfound => ?_
  subst hfound
  have hnone := unlines_emitOp .pushNone line
  cases found with
  | slot n => exact (unlines_emitIndexed _ _ _).bind fun _ => hnone
  | captured => exact (unlines_emitSymbol _ _ _).bind fun _ => hnone
  | global => exact (unlines_emitSymbol _ _ _).bind fun _ => hnone

theorem unlines_bind (name : String) (line : Nat) :
    Unlines (fun _ _ => True) (Compile.bind name line) (Compile.bind name 0) := by
  refine (unlines_intern name).bind fun {symbol _} hsymbol => ?_
  subst hsymbol
  refine actAlike_get.bind fun {s s'} hs => ?_
  have hnone := unlines_emitOp .pushNone line
  rw [hs.scopes]
  split
  · exact (unlines_emitSymbol _ _ _).bind fun _ => hnone
  · refine (unlines_declare symbol).bind fun {found _} hfound => ?_
    subst hfound
    cases found with
    | ok slot => exact (unlines_emitIndexed _ _ _).bind fun _ => hnone
    | error problem =>
      refine (unlines_report _ _ _).bind fun _ => ?_
      exact (unlines_emitOp _ _).bind fun _ => hnone

theorem unlines_declareParams (line : Nat) (done : List Symbol) (params : List String) :
    Unlines Eq (declareParams line done params) (declareParams 0 done params) := by
  induction params generalizing done with
  | nil => exact actAlike_pure rfl
  | cons param params ih =>
    refine (unlines_intern param).bind fun {symbol _} hsymbol => ?_
    subst hsymbol
    split
    · refine (unlines_report _ _ _).bind fun _ => ?_
      refine (unlines_intern _).bind fun {placeholder _} hplaceholder => ?_
      subst hplaceholder
      exact (unlines_mustDeclare _ _).bind fun _ => ih _
    · refine (unlines_declare symbol).bind fun {found _} hfound => ?_
      subst hfound
      cases found with
      | ok slot => exact ih _
      | error problem => exact (unlines_report _ _ _).bind fun _ => ih _

theorem unlines_declareSelf (line : Nat) (name : Option Symbol) (params : List Symbol) :
    Unlines Eq (declareSelf line name params) (declareSelf 0 name params) := by
  cases name with
  | none => exact actAlike_pure rfl
  | some n =>
    unfold declareSelf
    simp only []
    split
    · exact actAlike_pure rfl
    · exact (unlines_mustDeclare _ _).bind fun _ => actAlike_pure rfl

theorem unlines_internName (name : Option String) : Unlines Eq (internName name) (internName name) := by
  cases name with
  | none => exact actAlike_pure rfl
  | some name =>
    rw [internName, map_eq_pure_bind]
    refine (unlines_intern name).bind fun {symbol _} hsymbol => ?_
    subst hsymbol
    exact actAlike_pure rfl

/-- A function whose body is compiled alike is compiled alike. -/
theorem unlines_emitFunction (line : Nat) (name : Option String) (params : List String)
    {body body' : Compile Unit} (hbody : Unlines (fun _ _ => True) body body') :
    Unlines (fun _ _ => True) (emitFunction line name params body)
      (emitFunction 0 name params body') := by
  refine (unlines_internName name).bind fun {name _} hname => ?_
  subst hname
  have hopen : Unlines (fun code code' => code' = code.unlined)
      (modifyGet fun s => (s.code, { s with code := {} }))
      (modifyGet fun s => (s.code, { s with code := {} })) :=
    actAlike_modifyGet fun hs => ⟨hs.code, hs.names, hs.supply, hs.scopes, Code.unlined_empty.symm, hs.problems⟩
  refine hopen.bind fun {enclosing _} henclosing => ?_
  subst henclosing
  refine (unlines_scope _).bind fun _ => ?_
  refine (unlines_declareParams line [] params).bind fun {params _} hparams => ?_
  subst hparams
  refine (unlines_declareSelf line name params).bind fun {selfName _} hself => ?_
  subst hself
  refine hbody.bind fun _ => ?_
  refine (unlines_emitOp .ret line).bind fun _ => ?_
  refine ActAlike.bind (R := fun v v' : Value => v' = v.unlined) ?_ fun {function _} hfunction => ?_
  · refine actAlike_modifyGet fun hs => ?_
    obtain ⟨hnames, hsupply, hscopes, hcode, hproblems⟩ := hs
    rw [hsupply, hscopes, hcode]
    refine ⟨?_, hnames, rfl, rfl, rfl, hproblems⟩
    simp only [Value.unlined_code, Code.unlined_eq]
  · subst hfunction
    refine (unlines_addConstant function line).bind fun hindex => ?_
    subst hindex
    exact unlines_emitIndexed _ _ _

end Compile

open Compile

/-- Options without lines. -/
def CompileOptions.unlined : CompileOptions :=
  { recordLines := false }

mutual

theorem Expr.unlines_emit (tail : Bool) (e : Expr) :
    Unlines (fun _ _ => True) (e.emit {} tail) (e.emit .unlined tail) := by
  match e with
  | .nothing line => exact unlines_emitOp _ _
  | .bool line b => exact unlines_emitConstant (.bool b) _
  | .int line n => exact unlines_emitConstant (.int n) _
  | .float line x => exact unlines_emitConstant (.float x) _
  | .str line s => exact unlines_emitConstant (.str s) _
  | .name line name => exact unlines_load _ _
  | .call line callee args =>
    refine (unlines_emitAll args).bind fun _ => ?_
    exact (callee.unlines_emit false).bind fun _ => unlines_emitCount _ _ _ _
  | .cond line test whenTrue whenFalse =>
    simp only [Expr.emit]
    refine (test.unlines_emit false).bind fun _ => ?_
    refine (unlines_emitJump _ _).bind fun {toElse _} hjump => ?_
    subst hjump
    refine (whenTrue.unlines_emit tail).bind fun _ => ?_
    refine (unlines_emitJump _ _).bind fun {toEnd _} hjump => ?_
    subst hjump
    refine (unlines_patch _ _).bind fun _ => ?_
    match whenFalse with
    | some e => exact (e.unlines_emit tail).bind fun _ => unlines_patch _ _
    | none => exact (unlines_emitOp _ _).bind fun _ => unlines_patch _ _
  | .lambda line name params body => exact unlines_emitFunction _ _ _ (body.unlines_emit true)
  | .block line [] =>
    refine (unlines_scope _).bind fun _ => ?_
    exact (unlines_emitOp _ _).bind fun _ => unlines_scope _
  | .block line (e :: es) =>
    refine (unlines_scope _).bind fun _ => ?_
    exact (unlines_emitStatements tail (e :: es)).bind fun _ => unlines_scope _
  | .declare line name value =>
    exact (value.unlines_emit false).bind fun _ => unlines_bind _ _
  | .assign line name value =>
    exact (value.unlines_emit false).bind fun _ => unlines_store _ _
  | .list line items =>
    exact (unlines_emitAll items).bind fun _ => unlines_emitCount _ _ _ _
  | .tuple line items =>
    exact (unlines_emitAll items).bind fun _ => unlines_emitCount _ _ _ _
  | .record line fields =>
    exact (unlines_emitFields _ fields).bind fun _ => unlines_emitCount _ _ _ _
  | .field line target name =>
    refine (target.unlines_emit false).bind fun _ => ?_
    refine (unlines_intern name).bind fun {symbol _} hsymbol => ?_
    subst hsymbol
    exact unlines_emitSymbol _ _ _
  | .handle line body clauses => exact actAlike_throw rfl
  | .handled line clauses body =>
    refine (unlines_emitPairs clauses).bind fun _ => ?_
    refine (unlines_emitCount _ _ _ _).bind fun _ => ?_
    refine (unlines_emitFunction _ _ _ (body.unlines_emit true)).bind fun _ => ?_
    exact unlines_emitOp _ _

theorem unlines_emitAll (es : List Expr) :
    Unlines (fun _ _ => True) (emitAll {} es) (emitAll .unlined es) := by
  match es with
  | [] => exact actAlike_pure trivial
  | e :: es => exact (e.unlines_emit false).bind fun _ => unlines_emitAll es

theorem unlines_emitStatements (tail : Bool) (es : List Expr) :
    Unlines (fun _ _ => True) (emitStatements {} tail es) (emitStatements .unlined tail es) := by
  match es with
  | [] => exact actAlike_pure trivial
  | e :: es =>
    unfold emitStatements
    split
    · exact e.unlines_emit tail
    · refine (e.unlines_emit false).bind fun _ => ?_
      exact (unlines_emitOp _ _).bind fun _ => unlines_emitStatements tail es

theorem unlines_emitFields (line : Nat) (fields : List (String × Expr)) :
    Unlines (fun _ _ => True) (emitFields {} line fields) (emitFields .unlined 0 fields) := by
  match fields with
  | [] => exact actAlike_pure trivial
  | (name, e) :: fields =>
    refine (unlines_intern name).bind fun {symbol _} hsymbol => ?_
    subst hsymbol
    refine (unlines_emitConstant (.symbol symbol) line).bind fun _ => ?_
    exact (e.unlines_emit false).bind fun _ => unlines_emitFields line fields

theorem unlines_emitPairs (pairs : List (Expr × Expr)) :
    Unlines (fun _ _ => True) (emitPairs {} pairs) (emitPairs .unlined pairs) := by
  match pairs with
  | [] => exact actAlike_pure trivial
  | (effect, function) :: pairs =>
    refine (effect.unlines_emit false).bind fun _ => ?_
    exact (function.unlines_emit false).bind fun _ => unlines_emitPairs pairs

end

/-- What a program comes to without lines when it comes to the other with lines: the same code but for
the lines, or the same problems in the same order. -/
inductive ResultUnlines : Except (List CompileError) (Code Value) →
    Except (List CompileError) (Code Value) → Prop
  | ok (code : Code Value) : ResultUnlines (.ok code) (.ok code.unlined)
  | error {errors errors' : List CompileError}
    (hproblems : errors'.map CompileError.problem = errors.map CompileError.problem) :
    ResultUnlines (.error errors) (.error errors')

namespace Program

theorem unlines_emitBody (program : Program) :
    Unlines (fun _ _ => True) (program.emitBody {}) (program.emitBody .unlined) := by
  unfold emitBody
  cases program.getLast? with
  | none => exact (unlines_emitOp _ _).bind fun _ => unlines_emitOp _ _
  | some last =>
    exact (unlines_emitStatements true program).bind fun _ => unlines_emitOp _ _

theorem unlines_emit (program : Program) (names : Names) (supply : Supply) :
    (program.emit .unlined names supply).2 = (program.emit {} names supply).2 ∧
      ResultUnlines (program.emit {} names supply).1 (program.emit .unlined names supply).1 := by
  have hstart : CompileState.Unlines { names, supply } { names, supply } :=
    ⟨rfl, rfl, rfl, Code.unlined_empty.symm, rfl⟩
  have hends := program.unlines_emitBody _ _ hstart
  unfold emit
  generalize program.emitBody {} { names, supply } = r at hends
  generalize program.emitBody .unlined { names, supply } = r' at hends
  cases hends with
  | @ok _ _ s s' _ hs =>
    obtain ⟨hnames, hsupply, hscopes, hcode, hproblems⟩ := hs
    have hempty : s'.errors.isEmpty = s.errors.isEmpty := by
      rw [← List.isEmpty_map, hproblems, List.isEmpty_map]
    simp only [hnames, hsupply, hempty, true_and]
    split
    · have hsame : { s'.code with localCount := s'.scopes.peak } =
          Code.unlined { s.code with localCount := s.scopes.peak } := by
        simp only [hscopes, hcode, Code.unlined_eq]
      rw [hsame]
      exact .ok _
    · exact .error (by rw [List.map_reverse, List.map_reverse, hproblems])
  | @error fatal fatal' s s' hfatal hs =>
    refine ⟨by simp only [hs.names, hs.supply], .error ?_⟩
    simp only [List.map_reverse, List.map_cons, hfatal, hs.problems]

/-- A program compiles without lines if it does so with lines, to the same code but for the lines. If
it does not, the problems are the same and in the same order. The names and numbers that are
left are the same. -/
theorem unlines_compile (program : Program) (names : Names) (supply : Supply) :
    (program.compile .unlined names supply).2 = (program.compile {} names supply).2 ∧
      ResultUnlines (program.compile {} names supply).1
        (program.compile .unlined names supply).1 := by
  unfold compile
  cases program.lower with
  | ok lowered => exact lowered.unlines_emit names supply
  | error errors => exact ⟨rfl, .error rfl⟩

end Program

end Resumable
