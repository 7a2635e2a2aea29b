import Resumable.Compile
import Resumable.Proofs.Bytecode.Placement
import Resumable.Proofs.Compile.Lexical

/-!
What compiled code looks like. The relation `Layout` says, for each form of expression, which
instructions stand where in the finished code of a function and which names are visible before and
after. It mentions neither the order in which the compiler works nor what it has to correct later, so
that statements about compiled code are proved from it and not from the compiler.
-/

namespace Resumable

/-- The value that a literal stands for. -/
def Expr.literal? : Expr → Option Value
  | .bool _ b => some (.bool b)
  | .int _ n => some (.int n)
  | .float _ x => some (.float x)
  | .str _ s => some (.str s)
  | _ => none

/-- The operations on a variable, by the place where it is. -/
structure AccessOps where
  slot : Op
  captured : Op
  global : Op

namespace AccessOps

/-- The operations that put the value of a variable on the stack. -/
def loads : AccessOps :=
  ⟨.loadLocal, .loadCaptured, .loadGlobal⟩

/-- The operations that take a value from the stack to a variable. -/
def stores : AccessOps :=
  ⟨.storeLocal, .storeCaptured, .storeGlobal⟩

end AccessOps

namespace Code

/-- The constant at an index is a symbol with the number of `symbol`. -/
def HasSymbol (code : Code Value) (index : Nat) (symbol : Symbol) : Prop :=
  ∃ s, code.constants[index]? = some (.symbol s) ∧ (s == symbol) = true

/-- The code captures a name. -/
def Captures (code : Code Value) (name : Symbol) : Prop :=
  ∃ c ∈ code.captures, (c.name == name) = true

/-- The instruction on a variable stands at an offset and ends before the last argument. -/
inductive Access (code : Code Value) (Γ : Lexical) (ops : AccessOps) (symbol : Symbol)
    (offset line : Nat) : Nat → Prop
  | slot {n next : Nat} (hlookup : Γ.lookup symbol = .slot n) (hroom : n < code.localCount)
    (hat : code.Indexed offset ops.slot n line next) :
    Access code Γ ops symbol offset line next
  | captured {i next : Nat} (hlookup : Γ.lookup symbol = .captured)
    (hcaptures : code.Captures symbol) (hsymbol : code.HasSymbol i symbol)
    (hat : code.Indexed offset ops.captured i line next) :
    Access code Γ ops symbol offset line next
  | global {i next : Nat} (hlookup : Γ.lookup symbol = .global)
    (hsymbol : code.HasSymbol i symbol) (hat : code.Indexed offset ops.global i line next) :
    Access code Γ ops symbol offset line next

end Code

/-- What a captured name is taken from is there, in a function with the given code. -/
def Lexical.Supplies (Γ : Lexical) (code : Code Value) (c : Capture) : Prop :=
  match c.source with
  | .slot n => slotIn Γ.locals c.name = some n ∧ n < code.localCount
  | .enclosing => slotIn Γ.locals c.name = none ∧ code.Captures c.name

/-- The name by which a function calls itself: its own, unless a parameter has it. -/
def selfNameOf (name : Option Symbol) (params : List Symbol) : Option Symbol :=
  match name with
  | some n => if params.contains n then none else some n
  | none => none

/-- The parts of a function that do not depend on the form of its body. -/
structure FunctionHeader (names : Names) (code : Code Value) (Γ : Lexical) (name : Option String)
    (params : List String) (f : Code Value) : Prop where
  name_eq : f.name = name.bind names.find?
  name_known : ∀ n, name = some n → (names.find? n).isSome
  params_eq : List.Forall₂ (fun param symbol => names.find? param = some symbol) params f.params
  selfName_eq : f.selfName = selfNameOf f.name f.params
  room : f.params.length + f.selfName.toList.length ≤ f.localCount
  captures : ∀ c ∈ f.captures, Γ.Supplies code c
  distinct : f.captures.Pairwise fun c d => (c.name == d.name) = false
  lined : f.Lined

/-- The names that are visible at the start of the body of a function. -/
def Lexical.bodyOf (Γ : Lexical) (f : Code Value) : Lexical :=
  Γ.entered.declaredAll (f.params ++ f.selfName.toList)

@[simp]
theorem Lexical.isGlobal_bodyOf {Γ : Lexical} {f : Code Value} : (Γ.bodyOf f).isGlobal = false := by
  simp [isGlobal, bodyOf, entered]

mutual

/-- The code of an expression stands from an offset up to another; `tail` tells whether its value is
the value of the function. -/
inductive Layout (o : CompileOptions) (names : Names) :
    Code Value → Lexical → Bool → Expr → Nat → Lexical → Nat → Prop
  | nothing {code : Code Value} {Γ : Lexical} {tail : Bool} {line a : Nat}
    (hat : code.At a .pushNone 0 (o.shown line)) :
    Layout o names code Γ tail (.nothing line) a Γ (a + 1)
  | literal {code : Code Value} {Γ : Lexical} {tail : Bool} {e : Expr} {v : Value} {i a b : Nat}
    (hliteral : e.literal? = some v) (hconstant : code.constants[i]? = some v)
    (hat : code.Indexed a .constant i (o.shown e.line) b) :
    Layout o names code Γ tail e a Γ b
  | name {code : Code Value} {Γ : Lexical} {tail : Bool} {line a b : Nat} {name : String}
    {symbol : Symbol} (hname : names.find? name = some symbol)
    (haccess : code.Access Γ .loads symbol a (o.shown line) b) :
    Layout o names code Γ tail (.name line name) a Γ b
  | call {code : Code Value} {Γ Γ₁ Γ₂ : Lexical} {tail : Bool} {line a b c : Nat} {callee : Expr}
    {args : List Expr} (hargs : LayoutAll o names code Γ args a Γ₁ b)
    (hcallee : Layout o names code Γ₁ false callee b Γ₂ c)
    (hat : code.At c (if tail then .tailCall else .call) args.length (o.shown line)) :
    Layout o names code Γ tail (.call line callee args) a Γ₂ (c + 2)
  | condElse {code : Code Value} {Γ Γ₁ Γ₂ Γ₃ : Lexical} {tail : Bool} {line a b c d m n : Nat}
    {test whenTrue whenFalse : Expr} (htest : Layout o names code Γ false test a Γ₁ b)
    (hatElse : code.At b .jumpIfFalse m (o.shown line)) (hm : b + m = c + 3)
    (htrue : Layout o names code Γ₁ tail whenTrue (b + 3) Γ₂ c)
    (hatEnd : code.At c .jump n (o.shown line)) (hn : c + n = d)
    (hfalse : Layout o names code Γ₂ tail whenFalse (c + 3) Γ₃ d) :
    Layout o names code Γ tail (.cond line test whenTrue (some whenFalse)) a Γ₃ d
  | condOnly {code : Code Value} {Γ Γ₁ Γ₂ : Lexical} {tail : Bool} {line a b c m n : Nat}
    {test whenTrue : Expr} (htest : Layout o names code Γ false test a Γ₁ b)
    (hatElse : code.At b .jumpIfFalse m (o.shown line)) (hm : b + m = c + 3)
    (htrue : Layout o names code Γ₁ tail whenTrue (b + 3) Γ₂ c)
    (hatEnd : code.At c .jump n (o.shown line)) (hn : c + n = c + 4)
    (hfalse : code.At (c + 3) .pushNone 0 (o.shown line)) :
    Layout o names code Γ tail (.cond line test whenTrue none) a Γ₂ (c + 4)
  | lambda {code f : Code Value} {Γ : Lexical} {tail : Bool} {line a b i id : Nat}
    {name : Option String} {params : List String} {body : Expr}
    (hfunction : LayoutFunction o names code Γ (o.shown line) name params body f)
    (hconstant : code.constants[i]? = some (.code id f))
    (hat : code.Indexed a .lambda i (o.shown line) b) :
    Layout o names code Γ tail (.lambda line name params body) a Γ b
  | blockEmpty {code : Code Value} {Γ : Lexical} {tail : Bool} {line a : Nat}
    (hat : code.At a .pushNone 0 (o.shown line)) :
    Layout o names code Γ tail (.block line []) a Γ (a + 1)
  | block {code : Code Value} {Γ Γ' : Lexical} {tail : Bool} {line a b : Nat} {body : List Expr}
    (hbody : LayoutStatements o names code Γ.opened tail body a Γ' b) :
    Layout o names code Γ tail (.block line body) a Γ b
  | declareGlobal {code : Code Value} {Γ Γ₁ : Lexical} {tail : Bool} {line a b c i : Nat}
    {name : String} {symbol : Symbol} {value : Expr}
    (hvalue : Layout o names code Γ false value a Γ₁ b) (hglobal : Γ₁.isGlobal = true)
    (hname : names.find? name = some symbol) (hsymbol : code.HasSymbol i symbol)
    (hat : code.Indexed b .storeGlobal i (o.shown line) c)
    (hnone : code.At c .pushNone 0 (o.shown line)) :
    Layout o names code Γ tail (.declare line name value) a Γ₁ (c + 1)
  | declareLocal {code : Code Value} {Γ Γ₁ : Lexical} {tail : Bool} {line a b c : Nat}
    {name : String} {symbol : Symbol} {value : Expr}
    (hvalue : Layout o names code Γ false value a Γ₁ b) (hlocal : Γ₁.isGlobal = false)
    (hname : names.find? name = some symbol) (hroom : Γ₁.locals.length < code.localCount)
    (hat : code.Indexed b .storeLocal Γ₁.locals.length (o.shown line) c)
    (hnone : code.At c .pushNone 0 (o.shown line)) :
    Layout o names code Γ tail (.declare line name value) a (Γ₁.declared symbol) (c + 1)
  | assign {code : Code Value} {Γ Γ₁ : Lexical} {tail : Bool} {line a b c : Nat}
    {name : String} {symbol : Symbol} {value : Expr}
    (hvalue : Layout o names code Γ false value a Γ₁ b)
    (hname : names.find? name = some symbol)
    (haccess : code.Access Γ₁ .stores symbol b (o.shown line) c)
    (hnone : code.At c .pushNone 0 (o.shown line)) :
    Layout o names code Γ tail (.assign line name value) a Γ₁ (c + 1)
  | list {code : Code Value} {Γ Γ₁ : Lexical} {tail : Bool} {line a b : Nat} {items : List Expr}
    (hitems : LayoutAll o names code Γ items a Γ₁ b)
    (hat : code.At b .buildList items.length (o.shown line)) :
    Layout o names code Γ tail (.list line items) a Γ₁ (b + 2)
  | tuple {code : Code Value} {Γ Γ₁ : Lexical} {tail : Bool} {line a b : Nat} {items : List Expr}
    (hitems : LayoutAll o names code Γ items a Γ₁ b)
    (hat : code.At b .buildTuple items.length (o.shown line)) :
    Layout o names code Γ tail (.tuple line items) a Γ₁ (b + 2)
  | record {code : Code Value} {Γ Γ₁ : Lexical} {tail : Bool} {line a b : Nat}
    {fields : List (String × Expr)}
    (hfields : LayoutFields o names code Γ (o.shown line) fields a Γ₁ b)
    (hat : code.At b .buildRecord fields.length (o.shown line)) :
    Layout o names code Γ tail (.record line fields) a Γ₁ (b + 2)
  | field {code : Code Value} {Γ Γ₁ : Lexical} {tail : Bool} {line a b c i : Nat} {target : Expr}
    {name : String} {symbol : Symbol} (htarget : Layout o names code Γ false target a Γ₁ b)
    (hname : names.find? name = some symbol) (hsymbol : code.HasSymbol i symbol)
    (hat : code.Indexed b .getField i (o.shown line) c) :
    Layout o names code Γ tail (.field line target name) a Γ₁ c
  | handled {code f : Code Value} {Γ Γ₁ : Lexical} {tail : Bool} {line a b c i id : Nat}
    {clauses : List (Expr × Expr)} {body : Expr}
    (hclauses : LayoutPairs o names code Γ clauses a Γ₁ b)
    (hatMake : code.At b .makeHandler clauses.length (o.shown line))
    (hfunction : LayoutFunction o names code Γ₁ (o.shown line) none [] body f)
    (hconstant : code.constants[i]? = some (.code id f))
    (hatBody : code.Indexed (b + 2) .lambda i (o.shown line) c)
    (hat : code.At c .handle 0 (o.shown line)) :
    Layout o names code Γ tail (.handled line clauses body) a Γ₁ (c + 1)

/-- The code of expressions whose values are all kept. -/
inductive LayoutAll (o : CompileOptions) (names : Names) :
    Code Value → Lexical → List Expr → Nat → Lexical → Nat → Prop
  | nil {code : Code Value} {Γ : Lexical} {a : Nat} : LayoutAll o names code Γ [] a Γ a
  | cons {code : Code Value} {Γ Γ₁ Γ₂ : Lexical} {a b c : Nat} {e : Expr} {es : List Expr}
    (hfirst : Layout o names code Γ false e a Γ₁ b)
    (hrest : LayoutAll o names code Γ₁ es b Γ₂ c) :
    LayoutAll o names code Γ (e :: es) a Γ₂ c

/-- The code of expressions of which only the last value is kept. -/
inductive LayoutStatements (o : CompileOptions) (names : Names) :
    Code Value → Lexical → Bool → List Expr → Nat → Lexical → Nat → Prop
  | last {code : Code Value} {Γ Γ₁ : Lexical} {tail : Bool} {a b : Nat} {e : Expr}
    (hlast : Layout o names code Γ tail e a Γ₁ b) :
    LayoutStatements o names code Γ tail [e] a Γ₁ b
  | cons {code : Code Value} {Γ Γ₁ Γ₂ : Lexical} {tail : Bool} {a b c : Nat} {e : Expr}
    {es : List Expr} (hfirst : Layout o names code Γ false e a Γ₁ b)
    (hat : code.At b .pop 0 (o.shown e.line))
    (hrest : LayoutStatements o names code Γ₁ tail es (b + 1) Γ₂ c) :
    LayoutStatements o names code Γ tail (e :: es) a Γ₂ c

/-- The code of the fields of a record. -/
inductive LayoutFields (o : CompileOptions) (names : Names) :
    Code Value → Lexical → Nat → List (String × Expr) → Nat → Lexical → Nat → Prop
  | nil {code : Code Value} {Γ : Lexical} {line a : Nat} :
    LayoutFields o names code Γ line [] a Γ a
  | cons {code : Code Value} {Γ Γ₁ Γ₂ : Lexical} {line a b c d i : Nat} {name : String}
    {symbol : Symbol} {e : Expr} {fields : List (String × Expr)}
    (hname : names.find? name = some symbol)
    (hsymbol : code.constants[i]? = some (.symbol symbol))
    (hat : code.Indexed a .constant i line b)
    (hvalue : Layout o names code Γ false e b Γ₁ c)
    (hrest : LayoutFields o names code Γ₁ line fields c Γ₂ d) :
    LayoutFields o names code Γ line ((name, e) :: fields) a Γ₂ d

/-- The code of pairs of an effect and its function. -/
inductive LayoutPairs (o : CompileOptions) (names : Names) :
    Code Value → Lexical → List (Expr × Expr) → Nat → Lexical → Nat → Prop
  | nil {code : Code Value} {Γ : Lexical} {a : Nat} : LayoutPairs o names code Γ [] a Γ a
  | cons {code : Code Value} {Γ Γ₁ Γ₂ Γ₃ : Lexical} {a b c d : Nat} {effect function : Expr}
    {pairs : List (Expr × Expr)} (heffect : Layout o names code Γ false effect a Γ₁ b)
    (hfunction : Layout o names code Γ₁ false function b Γ₂ c)
    (hrest : LayoutPairs o names code Γ₂ pairs c Γ₃ d) :
    LayoutPairs o names code Γ ((effect, function) :: pairs) a Γ₃ d

/-- The code `f` of a function that stands in `code` at a place with the given names. -/
inductive LayoutFunction (o : CompileOptions) (names : Names) :
    Code Value → Lexical → Nat → Option String → List String → Expr → Code Value → Prop
  | intro {code f : Code Value} {Γ Γ' : Lexical} {line n : Nat} {name : Option String}
    {params : List String} {body : Expr}
    (hheader : FunctionHeader names code Γ name params f)
    (hbody : Layout o names f (Γ.bodyOf f) true body 0 Γ' n)
    (hret : f.At n .ret 0 line) (hsize : f.size = n + 1) :
    LayoutFunction o names code Γ line name params body f

end

/-- Every symbol among the constants of the code is that of a name. Every function among them is laid
out for a place in it, with a body that has the property `P`, and so are the functions in that
function. -/
inductive FunctionsLaidOut (P : Expr → Prop) (o : CompileOptions) (names : Names) :
    Code Value → Prop
  | intro {code : Code Value}
    (hsymbols : ∀ s, Value.symbol s ∈ code.constants → ∃ name, names.find? name = some s)
    (hplace : ∀ id f, Value.code id f ∈ code.constants →
      ∃ Γ line name params body, P body ∧ LayoutFunction o names code Γ line name params body f)
    (hnested : ∀ id f, Value.code id f ∈ code.constants → FunctionsLaidOut P o names f) :
    FunctionsLaidOut P o names code

/-- The code of a whole program, whose functions have bodies with the property `P`. -/
structure LayoutProgram (P : Expr → Prop) (o : CompileOptions) (names : Names) (program : Program)
    (code : Code Value) : Prop where
  params : code.params = []
  selfName : code.selfName = none
  captures : code.captures = []
  lined : code.Lined
  functions : FunctionsLaidOut P o names code
  body : ∃ Γ' n line, code.At n .ret 0 line ∧ code.size = n + 1 ∧
    ((program = [] ∧ n = 1 ∧ code.At 0 .pushNone 0 0 ∧ line = 0) ∨
      ∃ last, program.getLast? = some last ∧ line = o.shown last.line ∧
        LayoutStatements o names code {} true program 0 Γ' n)

end Resumable
