import Resumable.Bytecode.Code
import Resumable.Number.Dyadic

/-!
Values of running programs. Data is compared by content; functions, continuations, effects,
handlers, code and cells have an identity, a number that no other object shares. Cells refer to a
store that belongs to the machine.
-/

namespace Resumable

/-- Arithmetic on two numbers. -/
inductive Arithmetic where
  | add
  | sub
  | mul
  | div
  | rem
deriving DecidableEq, Repr

/-- Tests of the order of two values. -/
inductive Comparison where
  | less
  | atMost
  | greater
  | atLeast
deriving DecidableEq, Repr

/-- Functions that an embedding may add to a machine: to collect arguments in a tuple, to call back
into the machine, to call back and catch a failure, to tell the number of frames, and to fail
without or with a line. -/
inductive Hook where
  | collect
  | callBack
  | attempt
  | depth
  | fail
  | failLocated
deriving DecidableEq, Repr

/-- Functions provided by the machine. -/
inductive Native where
  | intArithmetic (op : Arithmetic)
  | arithmetic (op : Arithmetic)
  | equal
  | different
  | compare (test : Comparison)
  | negate
  | invert
  | length
  | get
  | push
  | head
  | tail
  | range
  | fieldOf
  | render
  | typeOf
  | newCell
  | readCell
  | writeCell
  | newEffect
  | panicWith
  | print
  | spawn
  | join
  | sqrt
  | absolute
  | floor
  | ceil
  | pow
  | smaller
  | larger
  | concat
  | upper
  | lower
  | trim
  | split
  | contains
  | now
  | sleep
  | hook (h : Hook)
deriving DecidableEq, Repr

/-- An effect; effects of the same name are different. -/
structure Effect where
  id : Nat
  name : String

instance : BEq Effect :=
  ⟨fun a b => a.id == b.id⟩

/-- The bindings that a function captured, with values of type `ν`. -/
abbrev Env (ν : Type) := List (Symbol × ν)

namespace Env

variable {ν : Type}

/-- The value of a name. -/
def get? (env : Env ν) (name : Symbol) : Option ν :=
  (env.find? fun b => b.1 == name).map Prod.snd

/-- Gives a new value to a name that is bound. -/
def set? (env : Env ν) (name : Symbol) (value : ν) : Option (Env ν) :=
  if env.any fun b => b.1 == name then
    some (env.map fun b => if b.1 == name then (b.1, value) else b)
  else none

/-- Binds a name, replacing an earlier binding. -/
def define (env : Env ν) (name : Symbol) (value : ν) : Env ν :=
  match env.set? name value with
  | some env => env
  | none => env ++ [(name, value)]

end Env

/-- An activation of a function. Its operands start at height `base` of the value stack; a frame
that is a `boundary` belongs to an installed handler. -/
structure Frame (ν : Type) where
  code : Code ν
  env : List (Symbol × ν)
  locals : Array ν
  ip : Nat := 0
  base : Nat
  boundary : Bool

/-- The clauses of a handler. -/
abbrev Clauses (ν : Type) := List (Effect × ν)

/-- The first clause for an effect. -/
def Clauses.find? {ν : Type} (clauses : Clauses ν) (effect : Effect) : Option ν :=
  (List.find? (fun c => c.1 == effect) clauses).map Prod.snd

/-- A handler in force: its boundary frame is the one at index `depth`, and its label stands at
index `height` of the value stack. -/
structure Installed (ν : Type) where
  clauses : List (Effect × ν)
  depth : Nat
  height : Nat
  label : Nat

/-- A suspended part of a computation: the frames, values and handlers from the boundary of a handler
on. Depths are relative to the boundary frame and heights to the label. -/
structure Continuation (ν : Type) where
  frames : Array (Frame ν)
  stack : Array ν
  handlers : Array (Installed ν)

/-- A value. -/
inductive Value where
  | none
  | bool (b : Bool)
  | int (n : Int64)
  | float (x : Float)
  | str (s : String)
  | symbol (s : Symbol)
  | list (items : List Value)
  | tuple (items : List Value)
  | record (fields : List (Symbol × Value))
  | closure (id : Nat) (code : Code Value) (env : List (Symbol × Value))
  | native (id : Nat) (name : String) (arity : Nat) (function : Native)
  | applied (id : Nat) (callee : Value) (bound : List Value)
  | continuation (id : Nat) (k : Continuation Value)
  | effect (e : Effect)
  | handler (id : Nat) (clauses : List (Effect × Value))
  | code (id : Nat) (code : Code Value)
  | cell (id : Nat)
  | label (n : Nat)

instance : Inhabited Value :=
  ⟨.none⟩

namespace Value

/-- The name of the type of a value. -/
def typeName : Value → String
  | none => "none"
  | bool _ => "bool"
  | int _ => "int"
  | float _ => "float"
  | str _ => "string"
  | symbol _ => "symbol"
  | list _ => "list"
  | tuple _ => "tuple"
  | record _ => "record"
  | closure _ _ _ => "closure"
  | native _ _ _ _ => "native"
  | applied _ _ _ => "partial"
  | continuation _ _ => "continuation"
  | effect _ => "effect"
  | handler _ _ => "handler"
  | code _ _ => "code"
  | cell _ => "cell"
  | label _ => "label"

/-- Every value counts as true but `none` and `false`. -/
def isTruthy : Value → Bool
  | none | bool false => false
  | _ => true

/-- Whether the value is `none`. -/
def isNone : Value → Bool
  | none => true
  | _ => false

/-- The number of arguments that a callable value still takes. -/
def arity? : Value → Option Nat
  | closure _ c _ => some c.arity
  | native _ _ arity _ => some arity
  | applied _ callee bound => some (callee.arity?.getD 0 - bound.length)
  | continuation _ _ | effect _ => some 1
  | _ => Option.none

/-- The items of a list or tuple. -/
def items? : Value → Option (List Value)
  | list items | tuple items => some items
  | _ => Option.none

/-- The function under all applications to some of its arguments, and these arguments followed by
`args`. -/
def unapply : Value → List Value → Value × List Value
  | applied _ callee bound, args => callee.unapply (bound ++ args)
  | v, args => (v, args)

mutual

/-- Equality of values: by content for data, by identity for everything else. -/
def same : Value → Value → Bool
  | none, none => true
  | bool a, bool b => a == b
  | int a, int b => a == b
  | float a, float b => a == b
  | str a, str b => a == b
  | symbol a, symbol b => a == b
  | list a, list b => sameAll a b
  | tuple a, tuple b => sameAll a b
  | record a, record b => sameFields a b
  | closure a _ _, closure b _ _ => a == b
  | native a _ _ _, native b _ _ _ => a == b
  | applied a _ _, applied b _ _ => a == b
  | continuation a _, continuation b _ => a == b
  | effect a, effect b => a == b
  | handler a _, handler b _ => a == b
  | code a _, code b _ => a == b
  | cell a, cell b => a == b
  | label a, label b => a == b
  | _, _ => false

/-- Equality of items in order. -/
def sameAll : List Value → List Value → Bool
  | [], [] => true
  | a :: as, b :: bs => a.same b && sameAll as bs
  | _, _ => false

/-- Equality of fields in order. -/
def sameFields : List (Symbol × Value) → List (Symbol × Value) → Bool
  | [], [] => true
  | (s, a) :: as, (t, b) :: bs => s == t && a.same b && sameFields as bs
  | _, _ => false

end

/-- Equality as programs see it: whole numbers and floating point numbers are compared as numbers. -/
def equals : Value → Value → Bool
  | int n, float x | float x, int n => Number.ofInt n == x
  | a, b => a.same b

end Value

end Resumable
