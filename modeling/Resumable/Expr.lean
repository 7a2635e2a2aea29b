/-!
Expressions of the language. Each node carries the line it was written on.
-/

namespace Resumable

/-- A clause of a handler: for the effect `effect` with payload `param`, if `guard` holds, `body`
with the continuation bound to `resume`. -/
structure Clause (ε : Type) where
  effect : ε
  param : String
  resume : Option String
  guard : Option ε
  body : ε
  line : Nat

/-- An expression. A `handle` node is what programs write; handlers that are ready to be compiled are
`handled` nodes, which pair each effect with one clause function. -/
inductive Expr where
  | nothing (line : Nat)
  | bool (line : Nat) (value : Bool)
  | int (line : Nat) (value : Int64)
  | float (line : Nat) (value : Float)
  | str (line : Nat) (value : String)
  | name (line : Nat) (name : String)
  | call (line : Nat) (callee : Expr) (args : List Expr)
  | cond (line : Nat) (test whenTrue : Expr) (whenFalse : Option Expr)
  | lambda (line : Nat) (name : Option String) (params : List String) (body : Expr)
  | block (line : Nat) (body : List Expr)
  | declare (line : Nat) (name : String) (value : Expr)
  | assign (line : Nat) (name : String) (value : Expr)
  | list (line : Nat) (items : List Expr)
  | tuple (line : Nat) (items : List Expr)
  | record (line : Nat) (fields : List (String × Expr))
  | field (line : Nat) (target : Expr) (name : String)
  | handle (line : Nat) (body : Expr) (clauses : List (Clause Expr))
  | handled (line : Nat) (clauses : List (Expr × Expr)) (body : Expr)

/-- A program is evaluated expression by expression. -/
abbrev Program := List Expr

namespace Expr

/-- The line of an expression. -/
def line : Expr → Nat
  | nothing line | bool line _ | int line _ | float line _ | str line _ | name line _
  | call line _ _ | cond line _ _ _ | lambda line _ _ _ | block line _ | declare line _ _
  | assign line _ _ | list line _ | tuple line _ | record line _ | field line _ _
  | handle line _ _ | handled line _ _ => line

/-- What messages call the expression. -/
def kind : Expr → String
  | nothing _ => "none"
  | bool _ _ => "bool"
  | int _ _ => "int"
  | float _ _ => "float"
  | str _ _ => "string"
  | name _ _ => "identifier"
  | call _ _ _ => "call"
  | cond _ _ _ _ => "if"
  | lambda _ _ _ _ => "lambda"
  | block _ _ => "block"
  | declare _ _ _ => "var"
  | assign _ _ _ => "assignment"
  | list _ _ => "list"
  | tuple _ _ => "tuple"
  | record _ _ => "record"
  | field _ _ _ => "field"
  | handle _ _ _ => "handle"
  | handled _ _ _ => "with-handler"

/-- A call of the function with the given name, as operators are. -/
def callOf (line : Nat) (function : String) (args : List Expr) : Expr :=
  call line (name line function) args

/-- The text of a dotted path of names; other expressions are no path. -/
def path? : Expr → Option String
  | name _ text => some text
  | field _ target text => target.path?.map fun start => start ++ "." ++ text
  | _ => none

end Expr

end Resumable
