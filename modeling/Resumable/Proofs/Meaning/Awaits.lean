import Resumable.Proofs.Meaning.Names

/-!
Where the code of a program stands while it is evaluated. The code of an expression is that of what it
is lowered to; what is to be done with a value is the code from the place where the value is there up to
the end of the function.
-/

namespace Resumable.Meaning

/-- The code of an expression that a program writes. -/
def Laid (G : Ground) (code : Code Value) (Γ : Lexical) (tail : Bool) (e : Expr) (a : Nat)
    (Γ' : Lexical) (b : Nat) : Prop :=
  e.Named G.written ∧ ∃ e', e.Lowered e' ∧
    Layout G.reading.options G.reading.names code Γ tail e' a Γ' b

/-- The code of expressions whose values are all kept. -/
def LaidAll (G : Ground) (code : Code Value) (Γ : Lexical) (es : List Expr) (a : Nat)
    (Γ' : Lexical) (b : Nat) : Prop :=
  (∀ e ∈ es, e.Named G.written) ∧ ∃ es', LoweredAll es es' ∧
    LayoutAll G.reading.options G.reading.names code Γ es' a Γ' b

/-- The code of expressions of which only the last value is kept. -/
def LaidStatements (G : Ground) (code : Code Value) (Γ : Lexical) (tail : Bool) (es : List Expr)
    (a : Nat) (Γ' : Lexical) (b : Nat) : Prop :=
  (∀ e ∈ es, e.Named G.written) ∧ ∃ es', LoweredAll es es' ∧
    LayoutStatements G.reading.options G.reading.names code Γ tail es' a Γ' b

/-- The code of the fields of a record. -/
def LaidFields (G : Ground) (code : Code Value) (Γ : Lexical) (line : Nat)
    (fields : List (String × Expr)) (a : Nat) (Γ' : Lexical) (b : Nat) : Prop :=
  (∀ f ∈ fields, f.2.Named G.written) ∧ ∃ fields', LoweredFields fields fields' ∧
    LayoutFields G.reading.options G.reading.names code Γ line fields' a Γ' b

/-- The names in a clause are written by the program. -/
structure ClauseNamed (G : Ground) (c : Clause Expr) : Prop where
  param : G.written c.param
  resume : ∀ r ∈ c.resume, G.written r
  guard : ∀ g ∈ c.guard, g.Named G.written
  body : c.body.Named G.written

/-- The names of the function for a path are none that the program writes. -/
structure Own (G : Ground) (p : PathFunction) : Prop where
  effect : ¬ G.written p.effect
  arg : ¬ G.written p.arg
  k : ¬ G.written p.k

/-- The payload and the continuation are the first locals of a function for a path. -/
def Based (G : Ground) (p : PathFunction) (locals : List Local) : Prop :=
  Own G p ∧ ∃ s t, G.reading.names.find? p.arg = some s ∧ G.reading.names.find? p.k = some t ∧
    locals = [⟨t, 1, 1⟩, ⟨s, 1, 0⟩]

namespace Based

variable {G : Ground} {p : PathFunction} {locals : List Local}

theorem length_eq (h : Based G p locals) : locals.length = 2 := by
  obtain ⟨_, _, _, _, _, rfl⟩ := h
  rfl

/-- Programs cannot mention these locals. -/
theorem hidden (h : Based G p locals) : ∀ l ∈ locals, G.shows l.name = false := by
  obtain ⟨hown, s, t, hs, ht, rfl⟩ := h
  simp only [List.mem_cons, List.not_mem_nil, or_false]
  rintro l (rfl | rfl)
  · exact Ground.not_shows hown.k ht
  · exact Ground.not_shows hown.arg hs

theorem shown_eq (h : Based G p locals) : G.shown locals = [] :=
  List.filter_eq_nil_iff.2 fun l hl => by simp [h.hidden l hl]

end Based

/-- The code that tries some of the clauses for a path, up to the end of the function. -/
structure LaidTries (G : Ground) (code : Code Value) (Γ : Lexical) (p : PathFunction) (choice : Choice)
    (rest : List (Clause Expr)) (a : Nat) : Prop where
  reading : choice.reading = G.reading
  based : Based G p Γ.locals
  inside : Γ.isGlobal = false
  effect : ∀ s, G.reading.names.find? p.effect = some s → Γ.isOuter s = true
  named : ∀ c ∈ choice.clauses, ClauseNamed G c
  known : ∀ c ∈ rest, c ∈ choice.clauses
  laid : ∃ e' Γ' b line, TriesLowered choice.line p.effect p.arg p.k choice.clauses rest e' ∧
    Layout G.reading.options G.reading.names code Γ true e' a Γ' b ∧ code.At b .ret 0 line

/-- The code that does something with a number of values. -/
inductive Concludes (G : Ground) (code : Code Value) (tail : Bool) :
    Work → Nat → Lexical → Nat → Lexical → Nat → Prop
  | call {Γ : Lexical} {a n line : Nat}
    (hat : code.At a (if tail then .tailCall else .call) n (G.reading.shown line)) :
    Concludes G code tail (.call line) (n + 1) Γ a Γ (a + 2)
  | list {Γ : Lexical} {a n line : Nat} (hat : code.At a .buildList n line) :
    Concludes G code tail .list n Γ a Γ (a + 2)
  | tuple {Γ : Lexical} {a n line : Nat} (hat : code.At a .buildTuple n line) :
    Concludes G code tail .tuple n Γ a Γ (a + 2)
  | field {Γ : Lexical} {a b i line : Nat} {name : String} {s : Symbol}
    (hname : G.reading.names.find? name = some s) (hsymbol : code.HasSymbol i s)
    (hat : code.Indexed a .getField i (G.reading.shown line) b) :
    Concludes G code tail (.field line name) 1 Γ a Γ b
  | declareGlobal {Γ : Lexical} {a b i line : Nat} {name : String} {s : Symbol}
    (hglobal : Γ.isGlobal = true) (hname : G.reading.names.find? name = some s)
    (hsymbol : code.HasSymbol i s) (hat : code.Indexed a .storeGlobal i line b)
    (hnone : code.At b .pushNone 0 line) :
    Concludes G code tail (.declare name) 1 Γ a Γ (b + 1)
  | declareLocal {Γ : Lexical} {a b line : Nat} {name : String} {s : Symbol}
    (hwritten : G.written name) (hlocal : Γ.isGlobal = false)
    (hname : G.reading.names.find? name = some s) (hroom : Γ.locals.length < code.localCount)
    (hat : code.Indexed a .storeLocal Γ.locals.length line b)
    (hnone : code.At b .pushNone 0 line) :
    Concludes G code tail (.declare name) 1 Γ a (Γ.declared s) (b + 1)
  | assign {Γ : Lexical} {a b line : Nat} {name : String} {s : Symbol}
    (hwritten : G.written name) (hname : G.reading.names.find? name = some s)
    (haccess : code.Access Γ .stores s a line b) (hnone : code.At b .pushNone 0 line) :
    Concludes G code tail (.assign name) 1 Γ a Γ (b + 1)

/-- The choice that an activation makes, with the function for the path of its clauses. -/
abbrev Choosing := Option (Raised × PathFunction)

/-- What is to be done with a value once it is there: the code from some place on does what the contexts
say, up to the end of the function. -/
inductive Awaits (G : Ground) (code : Code Value) (isProgram : Bool) (choosing : Choosing) :
    Lexical → Nat → List Context → Prop
  | ret {Γ : Lexical} {a line : Nat} (hglobal : Γ.isGlobal = isProgram)
    (hat : code.At a .ret 0 line) : Awaits G code isProgram choosing Γ a []
  | jump {Γ : Lexical} {a n line : Nat} {cs : List Context} (hat : code.At a .jump n line)
    (hrest : Awaits G code isProgram choosing Γ (a + n) cs) : Awaits G code isProgram choosing Γ a cs
  | passing {Γ Γ' : Lexical} {a : Nat} {names : List String} {cs : List Context}
    (hwritten : ∀ name ∈ names, G.written name) (hpasses : Lexical.Passes G code names Γ Γ')
    (hrest : Awaits G code isProgram choosing Γ' a cs) :
    Awaits G code isProgram choosing Γ a (.passing names :: cs)
  | operands {Γ Γ₁ Γ₂ : Lexical} {a b c : Nat} {work : Work} {done : List Value} {rest : List Expr}
    {cs : List Context} (hlaid : LaidAll G code Γ rest a Γ₁ b)
    (hconcludes : Concludes G code (cs.all Context.isTransparent) work
      (done.length + 1 + rest.length) Γ₁ b Γ₂ c)
    (hrest : Awaits G code isProgram choosing Γ₂ c cs) :
    Awaits G code isProgram choosing Γ a (.operands work done rest :: cs)
  | fields {Γ Γ₁ : Lexical} {a b line : Nat} {done : List (Symbol × Value)} {name : Symbol}
    {rest : List (String × Expr)} {cs : List Context}
    (hlaid : LaidFields G code Γ line rest a Γ₁ b)
    (hat : code.At b .buildRecord (done.length + 1 + rest.length) line)
    (hrest : Awaits G code isProgram choosing Γ₁ (b + 2) cs) :
    Awaits G code isProgram choosing Γ a (.fields done name rest :: cs)
  | testElse {Γ Γ₁ Γ₂ : Lexical} {a c d m n line : Nat} {whenTrue whenFalse : Expr}
    {cs : List Context} (hat : code.At a .jumpIfFalse m line) (hm : a + m = c + 3)
    (htrue : Laid G code Γ (cs.all Context.isTransparent) whenTrue (a + 3) Γ₁ c)
    (hend : code.At c .jump n line) (hn : c + n = d)
    (hfalse : Laid G code Γ₁ (cs.all Context.isTransparent) whenFalse (c + 3) Γ₂ d)
    (hrest : Awaits G code isProgram choosing Γ₂ d cs) :
    Awaits G code isProgram choosing Γ a (.test whenTrue (some whenFalse) :: cs)
  | testOnly {Γ Γ₁ : Lexical} {a c m n line : Nat} {whenTrue : Expr} {cs : List Context}
    (hat : code.At a .jumpIfFalse m line) (hm : a + m = c + 3)
    (htrue : Laid G code Γ (cs.all Context.isTransparent) whenTrue (a + 3) Γ₁ c)
    (hend : code.At c .jump n line) (hn : c + n = c + 4) (hnone : code.At (c + 3) .pushNone 0 line)
    (hrest : Awaits G code isProgram choosing Γ₁ (c + 4) cs) :
    Awaits G code isProgram choosing Γ a (.test whenTrue none :: cs)
  | statements {Γ Γ₁ : Lexical} {a b line : Nat} {rest : List Expr} {cs : List Context}
    (hat : code.At a .pop 0 line)
    (hlaid : LaidStatements G code Γ (cs.all Context.isTransparent) rest (a + 1) Γ₁ b)
    (hrest : Awaits G code isProgram choosing Γ₁ b cs) :
    Awaits G code isProgram choosing Γ a (.statements rest :: cs)
  | scope {Γ Γ₁ : Lexical} {a size : Nat} {cs : List Context} (hgrows : Γ.opened.Grows Γ₁)
    (hsize : size = (G.shown Γ.locals).length)
    (hbased : ∀ r p, choosing = some (r, p) → ∃ base, Based G p base ∧ base <:+ Γ.locals)
    (hrest : Awaits G code isProgram choosing Γ a cs) :
    Awaits G code isProgram choosing Γ₁ a (.scope size :: cs)
  | guard {Γ Γ₁ : Lexical} {a d m n line : Nat} {r : Raised} {p : PathFunction} {c : Clause Expr}
    {body' : Expr} {rest : List (Clause Expr)} (hchoosing : choosing = some (r, p))
    (hprogram : isProgram = false) (hgrows : Γ.opened.Grows Γ₁)
    (hat : code.At a .jumpIfFalse m line) (hm : a + m = d + 3) (hmem : c ∈ r.choice.clauses)
    (hbody : c.body.Lowered body')
    (hbound : Layout G.reading.options G.reading.names code Γ true
      ((c.lowered body').bound p.arg p.k) (a + 3) Γ d)
    (hend : code.At d .jump n line) (hret : ∃ line, code.At (d + n) .ret 0 line)
    (hrest : LaidTries G code Γ p r.choice rest (d + 3)) :
    Awaits G code isProgram choosing Γ₁ a [.guard r c rest]
  | answer {Γ : Lexical} {a b line line' : Nat} {r : Raised} {p : PathFunction} {t : Symbol}
    (hchoosing : choosing = some (r, p)) (hbased : Based G p Γ.locals)
    (hglobal : Γ.isGlobal = isProgram) (hname : G.reading.names.find? p.k = some t)
    (hload : code.Access Γ .loads t a line b) (hat : code.At b .tailCall 1 line)
    (hret : code.At (b + 2) .ret 0 line') :
    Awaits G code isProgram choosing Γ a [.answer line r.k]

/-- The code from some place on does what is to be done next. -/
inductive Stands (G : Ground) (code : Code Value) (isProgram : Bool) (choosing : Choosing) :
    Lexical → Nat → List Context → Control → Prop
  | eval {Γ Γ₁ : Lexical} {a b : Nat} {e : Expr} {cs : List Context}
    (hlaid : Laid G code Γ (cs.all Context.isTransparent) e a Γ₁ b)
    (hrest : Awaits G code isProgram choosing Γ₁ b cs) :
    Stands G code isProgram choosing Γ a cs (.eval e)
  | run {Γ Γ₁ : Lexical} {a b : Nat} {es : List Expr} {cs : List Context}
    (hlaid : LaidStatements G code Γ (cs.all Context.isTransparent) es a Γ₁ b)
    (hrest : Awaits G code isProgram choosing Γ₁ b cs) :
    Stands G code isProgram choosing Γ a cs (.run es)
  | runNone {Γ : Lexical} {a line : Nat} {cs : List Context} (hat : code.At a .pushNone 0 line)
    (hrest : Awaits G code isProgram choosing Γ (a + 1) cs) :
    Stands G code isProgram choosing Γ a cs (.run [])
  | give {Γ : Lexical} {a : Nat} {cs : List Context} {v : Value}
    (hrest : Awaits G code isProgram choosing Γ a cs) :
    Stands G code isProgram choosing Γ a cs (.give v)
  | call {Γ : Lexical} {a line : Nat} {cs : List Context} {callee : Value} {args : List Value}
    (hat : code.At a (if cs.all Context.isTransparent then .tailCall else .call) args.length line)
    (hrest : Awaits G code isProgram choosing Γ (a + 2) cs) :
    Stands G code isProgram choosing Γ a cs (.call line callee args)

variable {G : Ground} {code : Code Value} {Γ Γ' : Lexical} {tail : Bool} {a b : Nat}

theorem Laid.passes {e : Expr} (h : Laid G code Γ tail e a Γ' b) :
    Lexical.Passes G code e.declares Γ Γ' := by
  obtain ⟨_, e', hlowered, hlayout⟩ := h
  rw [← hlowered.declares_eq]
  exact hlayout.passes

theorem LaidAll.grows {es : List Expr} (h : LaidAll G code Γ es a Γ' b) : Γ.Grows Γ' := by
  obtain ⟨_, es', _, hlayout⟩ := h
  exact hlayout.passes.grows

theorem LaidFields.grows {line : Nat} {fields : List (String × Expr)}
    (h : LaidFields G code Γ line fields a Γ' b) : Γ.Grows Γ' := by
  obtain ⟨_, fields', _, hlayout⟩ := h
  exact hlayout.passes.grows

theorem LaidStatements.grows {es : List Expr} (h : LaidStatements G code Γ tail es a Γ' b) :
    Γ.Grows Γ' := by
  obtain ⟨_, es', _, hlayout⟩ := h
  exact LayoutStatements.grows hlayout

theorem Concludes.grows {work : Work} {n : Nat} (h : Concludes G code tail work n Γ a Γ' b) :
    Γ.Grows Γ' := by
  cases h with
  | declareLocal => exact Lexical.grows_declared _ _
  | _ => exact .refl _

end Resumable.Meaning

namespace Resumable

/-- A scope is the outermost one as long as it lasts. -/
theorem Lexical.Grows.isGlobal_eq {Γ Γ' : Lexical} (h : Γ.Grows Γ') : Γ'.isGlobal = Γ.isGlobal := by
  rw [isGlobal, isGlobal, h.depth, h.outer]

theorem Lexical.Grows.inner {Γ Γ' : Lexical} (h : Γ.opened.Grows Γ') : Γ'.isGlobal = false := by
  rw [h.isGlobal_eq]
  simp [Lexical.isGlobal, Lexical.opened]

namespace Meaning

variable {G : Ground} {code : Code Value} {Γ : Lexical} {a : Nat} {isProgram : Bool}
  {choosing : Choosing} {cs : List Context}

/-- Declarations are global where no scope of the program is open. -/
theorem Awaits.isGlobal_eq (h : Awaits G code isProgram choosing Γ a cs) :
    Γ.isGlobal = (isProgram && !cs.any Context.isScope) := by
  induction h with
  | ret hglobal => simpa using hglobal
  | jump _ _ ih => exact ih
  | passing _ hpasses _ ih => rwa [← hpasses.grows.isGlobal_eq]
  | operands hlaid hconcludes _ ih =>
    rwa [← hlaid.grows.isGlobal_eq, ← hconcludes.grows.isGlobal_eq]
  | fields hlaid _ _ ih => rwa [← hlaid.grows.isGlobal_eq]
  | testElse _ _ htrue _ _ hfalse _ ih =>
    rwa [← htrue.passes.grows.isGlobal_eq, ← hfalse.passes.grows.isGlobal_eq]
  | testOnly _ _ htrue _ _ _ _ ih => rwa [← htrue.passes.grows.isGlobal_eq]
  | statements _ hlaid _ ih => rwa [← hlaid.grows.isGlobal_eq]
  | scope hgrows _ _ _ _ => simp [hgrows.inner, Context.isScope]
  | guard _ hprogram hgrows _ _ _ _ _ _ _ _ => simp [hgrows.inner, hprogram]
  | answer _ _ hglobal _ _ _ _ => simpa [Context.isScope] using hglobal

end Meaning

end Resumable
