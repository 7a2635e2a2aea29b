import Resumable.Proofs.Expr.Every
import Resumable.Proofs.Expr.Grouping

/-!
What expressions are lowered to. All forms but that of a handler are kept. A handler becomes a block that
binds the effect of each path to a name of its own, around the handled body with one function for each
path, whose body tries the clauses for that path one after the other.
-/

namespace Resumable

namespace Expr

/-- Handlers that are written. -/
def isHandle : Expr → Bool
  | handle _ _ _ => true
  | _ => false

/-- Expressions that have no others inside. -/
def isAtom : Expr → Bool
  | nothing _ | bool _ _ | int _ _ | float _ _ | str _ _ | name _ _ => true
  | _ => false

end Expr

/-- The function for a path: the number in its names, the first of its clauses, and its body. -/
structure PathFunction where
  number : Nat
  head : Clause Expr
  body : Expr

namespace PathFunction

/-- The name that the effect is bound to. -/
def effect (p : PathFunction) : String :=
  "$eff" ++ toString p.number

/-- The name of the payload. -/
def arg (p : PathFunction) : String :=
  "$arg" ++ toString p.number

/-- The name of the continuation. -/
def k (p : PathFunction) : String :=
  "$k" ++ toString p.number

/-- The binding of the effect. -/
def binding (p : PathFunction) (line : Nat) : Expr :=
  .declare line p.effect p.head.effect

/-- The clause that is compiled. -/
def clause (p : PathFunction) (line : Nat) : Expr × Expr :=
  (.name line p.effect, .lambda line none [p.arg, p.k] p.body)

end PathFunction

/-- The parts of a clause that are lowered. -/
def Clause.loweredParts (c : Clause Expr) : List Expr :=
  c.guard.toList ++ [c.body]

/-- A clause with a body that has been lowered. -/
def Clause.lowered (c : Clause Expr) (body : Expr) : LoweredClause :=
  ⟨c.param, c.resume, c.line, body⟩

mutual

/-- What an expression is lowered to. -/
inductive Expr.Lowered : Expr → Expr → Prop
  | atom {e : Expr} (hatom : e.isAtom = true) : Expr.Lowered e e
  | call {line : Nat} {callee callee' : Expr} {args args' : List Expr}
    (hcallee : Expr.Lowered callee callee') (hargs : LoweredAll args args') :
    Expr.Lowered (.call line callee args) (.call line callee' args')
  | condElse {line : Nat} {test test' whenTrue whenTrue' whenFalse whenFalse' : Expr}
    (htest : Expr.Lowered test test') (htrue : Expr.Lowered whenTrue whenTrue')
    (hfalse : Expr.Lowered whenFalse whenFalse') :
    Expr.Lowered (.cond line test whenTrue (some whenFalse))
      (.cond line test' whenTrue' (some whenFalse'))
  | condOnly {line : Nat} {test test' whenTrue whenTrue' : Expr} (htest : Expr.Lowered test test')
    (htrue : Expr.Lowered whenTrue whenTrue') :
    Expr.Lowered (.cond line test whenTrue none) (.cond line test' whenTrue' none)
  | lambda {line : Nat} {name : Option String} {params : List String} {body body' : Expr}
    (hbody : Expr.Lowered body body') :
    Expr.Lowered (.lambda line name params body) (.lambda line name params body')
  | block {line : Nat} {body body' : List Expr} (hbody : LoweredAll body body') :
    Expr.Lowered (.block line body) (.block line body')
  | declare {line : Nat} {name : String} {value value' : Expr} (hvalue : Expr.Lowered value value') :
    Expr.Lowered (.declare line name value) (.declare line name value')
  | assign {line : Nat} {name : String} {value value' : Expr} (hvalue : Expr.Lowered value value') :
    Expr.Lowered (.assign line name value) (.assign line name value')
  | list {line : Nat} {items items' : List Expr} (hitems : LoweredAll items items') :
    Expr.Lowered (.list line items) (.list line items')
  | tuple {line : Nat} {items items' : List Expr} (hitems : LoweredAll items items') :
    Expr.Lowered (.tuple line items) (.tuple line items')
  | record {line : Nat} {fields fields' : List (String × Expr)}
    (hfields : LoweredFields fields fields') :
    Expr.Lowered (.record line fields) (.record line fields')
  | field {line : Nat} {name : String} {target target' : Expr}
    (htarget : Expr.Lowered target target') :
    Expr.Lowered (.field line target name) (.field line target' name)
  | handle {line : Nat} {body body' : Expr} {clauses : List (Clause Expr)} {ps : List PathFunction}
    (hbody : Expr.Lowered body body') (hpaths : ∀ c ∈ clauses, c.effect.path?.isSome = true)
    (hheads : ps.map PathFunction.head = firstClauses clauses)
    (hnumbers : ps.Pairwise fun p q => p.number < q.number)
    (hbodies : ∀ p ∈ ps, TriesLowered line p.effect p.arg p.k (clausesFor p.head.path clauses)
      (clausesFor p.head.path clauses) p.body) :
    Expr.Lowered (.handle line body clauses)
      (.block line (ps.map (·.binding line) ++ [.handled line (ps.map (·.clause line)) body']))
  | handled {line : Nat} {body body' : Expr} {pairs pairs' : List (Expr × Expr)}
    (hpairs : LoweredPairs pairs pairs') (hbody : Expr.Lowered body body') :
    Expr.Lowered (.handled line pairs body) (.handled line pairs' body')

/-- What expressions in a row are lowered to. -/
inductive LoweredAll : List Expr → List Expr → Prop
  | nil : LoweredAll [] []
  | cons {e e' : Expr} {es es' : List Expr} (hfirst : Expr.Lowered e e')
    (hrest : LoweredAll es es') : LoweredAll (e :: es) (e' :: es')

/-- What the fields of a record are lowered to. -/
inductive LoweredFields : List (String × Expr) → List (String × Expr) → Prop
  | nil : LoweredFields [] []
  | cons {name : String} {e e' : Expr} {fields fields' : List (String × Expr)}
    (hfirst : Expr.Lowered e e') (hrest : LoweredFields fields fields') :
    LoweredFields ((name, e) :: fields) ((name, e') :: fields')

/-- What pairs of an effect and its function are lowered to. -/
inductive LoweredPairs : List (Expr × Expr) → List (Expr × Expr) → Prop
  | nil : LoweredPairs [] []
  | cons {effect effect' function function' : Expr} {pairs pairs' : List (Expr × Expr)}
    (heffect : Expr.Lowered effect effect') (hfunction : Expr.Lowered function function')
    (hrest : LoweredPairs pairs pairs') :
    LoweredPairs ((effect, function) :: pairs) ((effect', function') :: pairs')

/-- What trying some of the clauses for a path is lowered to. When all of them have been tried, the
clause without a guard among `all` applies, if there is one; otherwise the effect is raised again. -/
inductive TriesLowered : (line : Nat) → (effect arg k : String) → (all rest : List (Clause Expr)) →
    Expr → Prop
  | catchAll {line : Nat} {effect arg k : String} {all : List (Clause Expr)} {c : Clause Expr}
    {body : Expr} (hfind : all.find? (fun c => c.guard.isNone) = some c)
    (hbody : Expr.Lowered c.body body) :
    TriesLowered line effect arg k all [] ((c.lowered body).bound arg k)
  | again {line : Nat} {effect arg k : String} {all : List (Clause Expr)}
    (hfind : all.find? (fun c => c.guard.isNone) = none) :
    TriesLowered line effect arg k all [] (raiseAgain line effect arg k)
  | guarded {line : Nat} {effect arg k : String} {all rest : List (Clause Expr)} {c : Clause Expr}
    {guard guard' body next : Expr} (hsome : c.guard = some guard)
    (hguard : Expr.Lowered guard guard') (hbody : Expr.Lowered c.body body)
    (hrest : TriesLowered line effect arg k all rest next) :
    TriesLowered line effect arg k all (c :: rest)
      (.cond c.line ((c.lowered body).test guard' arg) ((c.lowered body).bound arg k) (some next))
  | unguarded {line : Nat} {effect arg k : String} {all rest : List (Clause Expr)} {c : Clause Expr}
    {next : Expr} (hnone : c.guard = none) (hrest : TriesLowered line effect arg k all rest next) :
    TriesLowered line effect arg k all (c :: rest) next

end

end Resumable
