import Resumable.Expr
import Resumable.Proofs.Token.Spelling

/-!
Writing expressions down. Surface expressions are those that have a concrete syntax. They are written with
parentheses around every part that is not a single lexeme.
-/

namespace Resumable

/-- The marks of the operators that call the function of their name. -/
def Mark.isOperator : Mark → Bool
  | .plus | .minus | .star | .slash | .percent | .doubleEqual | .bangEqual | .less | .lessEqual
  | .greater | .greaterEqual => true
  | _ => false

/-- The operator with the given name. -/
def Mark.ofOperator? : String → Option Mark
  | "+" => some .plus
  | "-" => some .minus
  | "*" => some .star
  | "/" => some .slash
  | "%" => some .percent
  | "==" => some .doubleEqual
  | "!=" => some .bangEqual
  | "<" => some .less
  | "<=" => some .lessEqual
  | ">" => some .greater
  | ">=" => some .greaterEqual
  | _ => none

theorem Mark.ofOperator?_spelling {m : Mark} (h : m.isOperator = true) :
    Mark.ofOperator? m.spelling = some m := by
  cases m <;> first | rfl | cases h

/-- Dotted paths of names. -/
inductive Expr.IsPath : Expr → Prop
  | name {line : Nat} {x : String} : Name x.toList → IsPath (.name line x)
  | field {line : Nat} {target : Expr} {x : String} : IsPath target → Name x.toList →
      IsPath (.field line target x)

/-- What is asked of the parts of a clause that are not read as expressions: the effect is a path, and the
bound names are names. -/
structure Clause.Headed (c : Clause Expr) : Prop where
  effect : c.effect.IsPath
  param : Name c.param.toList
  resume : ∀ x ∈ c.resume, Name x.toList

/-- The expressions that can be written. Names are words that are no keywords. Operators and `not` are
calls of the function of their name. A function has a name exactly if it is declared directly. -/
inductive Expr.Surface : Expr → Prop
  | nothing {line : Nat} : Surface (.nothing line)
  | bool {line : Nat} {b : Bool} : Surface (.bool line b)
  | int {line : Nat} {n : Int64} : n ≠ Int64.minValue → Surface (.int line n)
  | str {line : Nat} {s : String} : Surface (.str line s)
  | name {line : Nat} {x : String} : Name x.toList → Surface (.name line x)
  | call {line : Nat} {callee : Expr} {args : List Expr} : Surface callee →
      (∀ e ∈ args, Surface e) → Surface (.call line callee args)
  | operator {line line' : Nat} {m : Mark} {left right : Expr} : m.isOperator = true →
      Surface left → Surface right →
      Surface (.call line (.name line' m.spelling) [left, right])
  | negation {line line' : Nat} {e : Expr} : Surface e →
      Surface (.call line (.name line' "not") [e])
  | condElse {line : Nat} {test whenTrue whenFalse : Expr} : Surface test → Surface whenTrue →
      Surface whenFalse → Surface (.cond line test whenTrue (some whenFalse))
  | condOnly {line : Nat} {test whenTrue : Expr} : Surface test → Surface whenTrue →
      Surface (.cond line test whenTrue none)
  | lambda {line : Nat} {params : List String} {body : Expr} :
      (∀ x ∈ params, Name x.toList) → Surface body → Surface (.lambda line none params body)
  | block {line : Nat} {body : List Expr} : (∀ e ∈ body, Surface e) → Surface (.block line body)
  | declare {line : Nat} {x : String} {value : Expr} : Name x.toList → Surface value →
      Surface (.declare line x value)
  | declareFunction {line line' : Nat} {x : String} {params : List String} {body : Expr} :
      Name x.toList → (∀ y ∈ params, Name y.toList) → Surface body →
      Surface (.declare line x (.lambda line' (some x) params body))
  | assign {line : Nat} {x : String} {value : Expr} : Name x.toList → Surface value →
      Surface (.assign line x value)
  | list {line : Nat} {items : List Expr} : (∀ e ∈ items, Surface e) → Surface (.list line items)
  | tuple {line : Nat} {items : List Expr} : (∀ e ∈ items, Surface e) → Surface (.tuple line items)
  | record {line : Nat} {fields : List (String × Expr)} : (∀ f ∈ fields, Name f.1.toList) →
      (∀ f ∈ fields, Surface f.2) → Surface (.record line fields)
  | field {line : Nat} {target : Expr} {x : String} : Surface target → Name x.toList →
      Surface (.field line target x)
  | handle {line : Nat} {body : Expr} {clauses : List (Clause Expr)} : Surface body →
      (∀ c ∈ clauses, c.Headed) → (∀ c ∈ clauses, Surface c.body) →
      (∀ c ∈ clauses, ∀ guard ∈ c.guard, Surface guard) → Surface (.handle line body clauses)

section Printing

/-- Items with commas between them. -/
def commas (items : List (List Lexeme)) : List Lexeme :=
  List.intercalate [.mark .comma] items

/-- Statements with semicolons between them. -/
def semicolons (items : List (List Lexeme)) : List Lexeme :=
  List.intercalate [.mark .semicolon] items

/-- Lexemes in a pair of marks. -/
def between (left right : Mark) (ls : List Lexeme) : List Lexeme :=
  .mark left :: (ls ++ [.mark right])

theorem between_append (left right : Mark) (ls rest : List Lexeme) :
    between left right ls ++ rest = .mark left :: (ls ++ .mark right :: rest) := by
  simp [between]

/-- A part of an expression, in parentheses if it is not a single lexeme. -/
def asPart (single : Bool) (ls : List Lexeme) : List Lexeme :=
  if single then ls else between .openParen .closeParen ls

namespace Expr

/-- Expressions that are written as one lexeme. -/
def isSingle : Expr → Bool
  | nothing _ | bool _ _ | str _ _ | name _ _ => true
  | int _ n => 0 ≤ n
  | _ => false

/-- Whether an expression is a function with a name. -/
def isNamedLambda : Expr → Bool
  | lambda _ (some _) _ _ => true
  | _ => false

/-- The text of an expression that is a name. -/
def name? : Expr → Option String
  | name _ x => some x
  | _ => none

/-- A path, with its dots. -/
def pathLexemes : Expr → List Lexeme
  | name _ x => [.word x]
  | field _ target x => pathLexemes target ++ [.mark .dot, .word x]
  | _ => []

end Expr

/-- A call, given the callee and the arguments as they are written as parts, and the name that is called
if the callee is a name. -/
def callLexemes (name : Option String) (callee : List Lexeme) (args : List (List Lexeme)) :
    List Lexeme :=
  match name, args with
  | some f, [left, right] =>
    match Mark.ofOperator? f with
    | some m => left ++ .mark m :: right
    | none => callee ++ between .openParen .closeParen (commas args)
  | some "not", [e] => .keyword .negate :: e
  | _, _ => callee ++ between .openParen .closeParen (commas args)

/-- The items of a tuple. A comma follows the first, which tells the tuple from an expression in
parentheses. -/
def tupleItems : List (List Lexeme) → List Lexeme
  | [] => []
  | first :: rest => first ++ .mark .comma :: commas rest

/-- The names that a clause binds. -/
def boundLexemes (param : String) : (resume : Option String) → List Lexeme
  | some x => between .openParen .closeParen [.word param, .mark .comma, .word x]
  | none => between .openParen .closeParen [.word param]

mutual

/-- An expression as it is written, without parentheses around it. -/
def Expr.lexemes : Expr → List Lexeme
  | .nothing _ => [.keyword .nothing]
  | .bool _ b => [.keyword (if b then .yes else .no)]
  | .int _ n => if 0 ≤ n then [.int n] else [.mark .minus, .int (-n)]
  | .str _ s => [.str s]
  | .name _ x => [.word x]
  | .call _ callee args =>
    callLexemes callee.name? (asPart callee.isSingle callee.lexemes) (operands args)
  | .cond _ test whenTrue whenFalse =>
    .keyword .when :: (asPart test.isSingle test.lexemes ++ .mark .colon ::
      (asPart whenTrue.isSingle whenTrue.lexemes ++ match whenFalse with
        | some e => .keyword .otherwise :: .mark .colon :: asPart e.isSingle e.lexemes
        | none => []))
  | .lambda _ _ params body =>
    between .pipe .pipe (commas (params.map fun x => [.word x])) ++
      asPart body.isSingle body.lexemes
  | .block _ body => between .openCurly .closeCurly (semicolons (operands body))
  | .declare _ x value =>
    .keyword .var :: .word x :: .mark .equal ::
      asPart (value.isSingle || value.isNamedLambda) value.lexemes
  | .assign _ x value =>
    .word x :: .mark .equal :: asPart value.isSingle value.lexemes
  | .list _ items => between .openSquare .closeSquare (commas (operands items))
  | .tuple _ items => between .openParen .closeParen (tupleItems (operands items))
  | .record _ fields =>
    .keyword .record :: between .openCurly .closeCurly (commas (fieldLexemes fields))
  | .field _ target x =>
    asPart target.isSingle target.lexemes ++ [.mark .dot, .word x]
  | .handle _ body clauses =>
    .keyword .handle :: (asPart body.isSingle body.lexemes ++
      .keyword .withClauses :: between .openCurly .closeCurly (commas (clauseLexemes clauses)))
  | .float _ _ | .handled _ _ _ => []

/-- Expressions as they are written as parts of others. -/
def operands : List Expr → List (List Lexeme)
  | [] => []
  | e :: es => asPart e.isSingle e.lexemes :: operands es

/-- The fields of a record as they are written. -/
def fieldLexemes : List (String × Expr) → List (List Lexeme)
  | [] => []
  | (x, e) :: fields =>
    (.word x :: .mark .colon :: asPart e.isSingle e.lexemes) ::
      fieldLexemes fields

/-- The clauses of a handler as they are written. -/
def clauseLexemes : List (Clause Expr) → List (List Lexeme)
  | [] => []
  | ⟨effect, param, resume, guard, body, _⟩ :: clauses =>
    (effect.pathLexemes ++ (boundLexemes param resume ++
      ((match guard with
        | some e => .keyword .when :: asPart e.isSingle e.lexemes
        | none => []) ++
      .mark .fatArrow :: asPart body.isSingle body.lexemes))) ::
      clauseLexemes clauses

end

/-- An expression as it is written as a part of another. -/
def Expr.operand (e : Expr) : List Lexeme :=
  asPart e.isSingle e.lexemes

/-- A field of a record as it is written. -/
def fieldLexeme (f : String × Expr) : List Lexeme :=
  .word f.1 :: .mark .colon :: f.2.operand

/-- The guard of a clause as it is written. -/
def guardLexemes : Option Expr → List Lexeme
  | some e => .keyword .when :: e.operand
  | none => []

/-- A clause as it is written. -/
def Clause.lexemes (c : Clause Expr) : List Lexeme :=
  c.effect.pathLexemes ++ (boundLexemes c.param c.resume ++
    (guardLexemes c.guard ++ .mark .fatArrow :: c.body.operand))

@[simp]
theorem operands_eq_map (es : List Expr) : operands es = es.map Expr.operand := by
  induction es with
  | nil => rw [operands, List.map_nil]
  | cons e es ih => rw [operands, ih, List.map_cons, Expr.operand]

@[simp]
theorem fieldLexemes_eq_map (fields : List (String × Expr)) :
    fieldLexemes fields = fields.map fieldLexeme := by
  induction fields with
  | nil => rw [fieldLexemes, List.map_nil]
  | cons f fields ih => rw [fieldLexemes, ih, List.map_cons, fieldLexeme, Expr.operand]

@[simp]
theorem clauseLexemes_eq_map (clauses : List (Clause Expr)) :
    clauseLexemes clauses = clauses.map Clause.lexemes := by
  induction clauses with
  | nil => rw [clauseLexemes, List.map_nil]
  | cons c clauses ih =>
    obtain ⟨effect, param, resume, guard, body, line⟩ := c
    cases guard <;> simp [clauseLexemes, ih, Clause.lexemes, guardLexemes, Expr.operand]

/-- The parameters of a function between bars, and its body. -/
def lambdaLexemes (params : List String) (body : Expr) : List Lexeme :=
  between .pipe .pipe (commas (params.map fun x => [.word x])) ++ body.operand

namespace Expr

variable (line : Nat)

attribute [local simp] lexemes operand

theorem lexemes_negative {n : Int64} (hn : ¬ 0 ≤ n) :
    (int line n).lexemes = [.mark .minus, .int (-n)] := by
  simp [hn]

theorem lexemes_operator {m : Mark} (hm : m.isOperator = true) (line' : Nat) (left right : Expr) :
    (call line (name line' m.spelling) [left, right]).lexemes =
      left.operand ++ .mark m :: right.operand := by
  simp [name?, callLexemes, Mark.ofOperator?_spelling hm]

theorem lexemes_negation (line' : Nat) (e : Expr) :
    (call line (name line' "not") [e]).lexemes = .keyword .negate :: e.operand := by
  simp [name?, callLexemes]

theorem lexemes_condOnly (test whenTrue : Expr) :
    (cond line test whenTrue none).lexemes =
      .keyword .when :: (test.operand ++ .mark .colon :: whenTrue.operand) := by
  simp

theorem lexemes_condElse (test whenTrue whenFalse : Expr) :
    (cond line test whenTrue (some whenFalse)).lexemes =
      .keyword .when :: (test.operand ++ .mark .colon ::
        (whenTrue.operand ++ .keyword .otherwise :: .mark .colon :: whenFalse.operand)) := by
  simp

theorem lexemes_lambda (name : Option String) (params : List String) (body : Expr) :
    (lambda line name params body).lexemes = lambdaLexemes params body := by
  simp [lambdaLexemes]

theorem lexemes_block (body : List Expr) : (block line body).lexemes =
    between .openCurly .closeCurly (semicolons (body.map operand)) := by
  simp

theorem lexemes_declare (x : String) {value : Expr} (hvalue : value.isNamedLambda = false) :
    (declare line x value).lexemes = .keyword .var :: .word x :: .mark .equal :: value.operand := by
  simp [hvalue]

theorem lexemes_declareFunction (line' : Nat) (x : String) (params : List String) (body : Expr) :
    (declare line x (lambda line' (some x) params body)).lexemes =
      .keyword .var :: .word x :: .mark .equal :: lambdaLexemes params body := by
  simp [isNamedLambda, asPart, lambdaLexemes]

theorem lexemes_assign (x : String) (value : Expr) :
    (assign line x value).lexemes = .word x :: .mark .equal :: value.operand := by
  simp

theorem lexemes_list (items : List Expr) : (list line items).lexemes =
    between .openSquare .closeSquare (commas (items.map operand)) := by
  simp

theorem lexemes_tuple (items : List Expr) : (tuple line items).lexemes =
    between .openParen .closeParen (tupleItems (items.map operand)) := by
  simp

theorem lexemes_record (fields : List (String × Expr)) : (record line fields).lexemes =
    .keyword .record :: between .openCurly .closeCurly (commas (fields.map fieldLexeme)) := by
  simp

theorem lexemes_field (target : Expr) (x : String) :
    (field line target x).lexemes = target.operand ++ [.mark .dot, .word x] := by
  simp

theorem lexemes_handle (body : Expr) (clauses : List (Clause Expr)) :
    (handle line body clauses).lexemes =
      .keyword .handle :: (body.operand ++ .keyword .withClauses ::
        between .openCurly .closeCurly (commas (clauses.map Clause.lexemes))) := by
  simp

end Expr

section Surface

variable {e : Expr}

theorem isNamedLambda_of_surface (h : e.Surface) : e.isNamedLambda = false := by
  cases h <;> rfl

/-- A name is no operator, since operators are not made of letters. -/
theorem not_operator_of_name {f : String} (h : Name f.toList) :
    Mark.ofOperator? f = none ∧ f ≠ "not" := by
  constructor
  · unfold Mark.ofOperator?
    split
    case h_12 => rfl
    all_goals
      obtain ⟨hopens, _, _⟩ := h
      cases hopens
  · rintro rfl
    obtain ⟨_, _, hkeyword⟩ := h
    exact hkeyword .negate rfl

theorem name_of_surface {f : String} (h : e.Surface) (hf : e.name? = some f) : Name f.toList := by
  cases h <;> cases hf
  assumption

/-- A call is written as a call, unless an operator is called, which no name is. -/
theorem lexemes_call (line : Nat) (h : e.Surface) (args : List Expr) :
    (Expr.call line e args).lexemes =
      e.operand ++ between .openParen .closeParen (commas (args.map Expr.operand)) := by
  rw [Expr.lexemes, operands_eq_map]
  unfold callLexemes
  split
  next f left right hname hargs =>
    rw [(not_operator_of_name (name_of_surface h hname)).1, hargs]
    rfl
  next e hname _ => exact absurd rfl (not_operator_of_name (name_of_surface h hname)).2
  next => rfl

end Surface

/-- The ways to write a program: its expressions with semicolons between them, each bare or as a part. -/
def Program.Written (program : Program) (ls : List Lexeme) : Prop :=
  ∃ xs : List (Expr × List Lexeme), xs.map Prod.fst = program ∧
    (∀ x ∈ xs, x.2 = x.1.lexemes ∨ x.2 = x.1.operand) ∧ ls = semicolons (xs.map Prod.snd)

/-- The text of a program. -/
def Program.print (program : Program) : String :=
  String.ofList (Lexeme.spellAll (semicolons (program.map Expr.lexemes)))

end Printing

section Writable

/-- Lexemes that can all be written down. -/
def WritableAll (ls : List Lexeme) : Prop :=
  ∀ l ∈ ls, l.Writable

@[simp]
theorem writableAll_nil : WritableAll [] :=
  nofun

@[simp]
theorem writableAll_cons {l : Lexeme} {ls : List Lexeme} :
    WritableAll (l :: ls) ↔ l.Writable ∧ WritableAll ls :=
  List.forall_mem_cons

@[simp]
theorem writableAll_append {ls ls' : List Lexeme} :
    WritableAll (ls ++ ls') ↔ WritableAll ls ∧ WritableAll ls' :=
  List.forall_mem_append

@[simp]
theorem writable_mark (m : Mark) : (Lexeme.mark m).Writable :=
  trivial

@[simp]
theorem writable_keyword (w : Keyword) : (Lexeme.keyword w).Writable :=
  trivial

@[simp]
theorem writable_word (x : String) : (Lexeme.word x).Writable ↔ Name x.toList :=
  Iff.rfl

@[simp]
theorem writableAll_between (left right : Mark) (ls : List Lexeme) :
    WritableAll (between left right ls) ↔ WritableAll ls := by
  simp [between]

@[simp]
theorem writableAll_operand (e : Expr) : WritableAll e.operand ↔ WritableAll e.lexemes := by
  rw [Expr.operand, asPart]
  split <;> simp

theorem writableAll_intercalate {m : Mark} {items : List (List Lexeme)}
    (h : ∀ item ∈ items, WritableAll item) : WritableAll (List.intercalate [.mark m] items) := by
  induction items with
  | nil => exact nofun
  | cons item items ih =>
    obtain ⟨hitem, hitems⟩ := List.forall_mem_cons.1 h
    cases items with
    | nil => simpa [List.intercalate] using hitem
    | cons next items =>
      have hsplit : List.intercalate [Lexeme.mark m] (item :: next :: items) =
          item ++ .mark m :: List.intercalate [.mark m] (next :: items) := by
        simp [List.intercalate]
      rw [hsplit]
      exact writableAll_append.2 ⟨hitem, writableAll_cons.2 ⟨writable_mark m, ih hitems⟩⟩

theorem writableAll_map {α : Type} {m : Mark} {write : α → List Lexeme} {xs : List α}
    (h : ∀ x ∈ xs, WritableAll (write x)) :
    WritableAll (List.intercalate [.mark m] (xs.map write)) := by
  refine writableAll_intercalate fun item hitem => ?_
  obtain ⟨x, hx, rfl⟩ := List.mem_map.1 hitem
  exact h x hx

theorem writable_path {effect : Expr} (h : effect.IsPath) : WritableAll effect.pathLexemes := by
  induction h with
  | name hx => simpa [Expr.pathLexemes] using hx
  | field _ hx ih => simp [Expr.pathLexemes, ih, hx]

/-- All numbers but the least have a negative. -/
theorem toInt_neg_of_ne_minValue {n : Int64} (hmin : n ≠ Int64.minValue) :
    (-n).toInt = -n.toInt := by
  have hne : n.toInt ≠ Int64.minValue.toInt := fun h => hmin (Int64.toInt_inj.1 h)
  have hlower := n.le_toInt
  have hupper := n.toInt_lt
  rw [Int64.toInt_neg, Int.bmod_def]
  simp only [Int64.toInt_minValue] at hne
  omega

theorem neg_nonneg_of_ne_minValue {n : Int64} (hn : ¬ 0 ≤ n) (hmin : n ≠ Int64.minValue) :
    0 ≤ -n := by
  rw [Int64.le_iff_toInt_le, Int64.toInt_zero] at hn ⊢
  rw [toInt_neg_of_ne_minValue hmin]
  omega

theorem writable_lambda {params : List String} {body : Expr} (hparams : ∀ x ∈ params, Name x.toList)
    (hbody : WritableAll body.lexemes) : WritableAll (lambdaLexemes params body) := by
  have hnames : WritableAll (commas (params.map fun x => [.word x])) :=
    writableAll_map fun x hx => by simpa using hparams x hx
  simp [lambdaLexemes, hnames, hbody]

theorem writable_clause {c : Clause Expr} (hc : c.Headed) (hbody : WritableAll c.body.lexemes)
    (hguard : ∀ guard ∈ c.guard, WritableAll guard.lexemes) : WritableAll c.lexemes := by
  obtain ⟨effect, param, resume, guard, body, line⟩ := c
  have hbound : WritableAll (boundLexemes param resume) := by
    cases resume with
    | none => simpa [boundLexemes] using hc.param
    | some x => simpa [boundLexemes] using ⟨hc.param, hc.resume x rfl⟩
  have hguard : WritableAll (guardLexemes guard) := by
    cases guard with
    | none => exact writableAll_nil
    | some guard => simpa [guardLexemes] using hguard guard rfl
  simpa [Clause.lexemes, hbound, hguard] using ⟨writable_path hc.effect, hbody⟩

/-- Surface expressions are written with lexemes that can be written down. -/
theorem writable_of_surface {e : Expr} (h : e.Surface) : WritableAll e.lexemes := by
  induction h with
  | nothing | bool => simp [Expr.lexemes]
  | str => simp [Expr.lexemes, Lexeme.Writable]
  | name hx => simpa [Expr.lexemes] using hx
  | @int line n hmin =>
    by_cases hn : 0 ≤ n
    · simp [Expr.lexemes, Lexeme.Writable, hn]
    · simp [Expr.lexemes_negative line hn, Lexeme.Writable, neg_nonneg_of_ne_minValue hn hmin]
  | @call line callee args hcallee _ ih ihargs =>
    have hargs : WritableAll (commas (args.map Expr.operand)) := writableAll_map fun e he => by
      simpa using ihargs e he
    simp [lexemes_call line hcallee, ih, hargs]
  | operator hm _ _ ihleft ihright => simp [Expr.lexemes_operator _ hm, ihleft, ihright]
  | negation _ ih => simp [Expr.lexemes_negation, ih]
  | condElse _ _ _ ihtest ihyes ihno => simp [Expr.lexemes_condElse, ihtest, ihyes, ihno]
  | condOnly _ _ ihtest ihyes => simp [Expr.lexemes_condOnly, ihtest, ihyes]
  | lambda hparams _ ih =>
    rw [Expr.lexemes_lambda]
    exact writable_lambda hparams ih
  | @block line body _ ih =>
    have hbody : WritableAll (semicolons (body.map Expr.operand)) := writableAll_map fun e he => by
      simpa using ih e he
    simp [Expr.lexemes_block, hbody]
  | declare hx hvalue ih =>
    simp [Expr.lexemes_declare _ _ (isNamedLambda_of_surface hvalue), hx, ih]
  | declareFunction hx hparams _ ih =>
    simp [Expr.lexemes_declareFunction, hx, writable_lambda hparams ih]
  | assign hx _ ih => simp [Expr.lexemes_assign, hx, ih]
  | @list line items _ ih =>
    have hitems : WritableAll (commas (items.map Expr.operand)) := writableAll_map fun e he => by
      simpa using ih e he
    simp [Expr.lexemes_list, hitems]
  | @tuple line items _ ih =>
    have hitems : WritableAll (tupleItems (items.map Expr.operand)) := by
      cases items with
      | nil => exact writableAll_nil
      | cons first items =>
        obtain ⟨hfirst, hitems⟩ := List.forall_mem_cons.1 ih
        have hrest : WritableAll (commas (items.map Expr.operand)) := writableAll_map fun e he => by
          simpa using hitems e he
        simp [tupleItems, hfirst, hrest]
    simp [Expr.lexemes_tuple, hitems]
  | @record line fields hnames _ ih =>
    have hfields : WritableAll (commas (fields.map fieldLexeme)) := writableAll_map fun f hf => by
      simpa [fieldLexeme] using ⟨hnames f hf, ih f hf⟩
    simp [Expr.lexemes_record, hfields]
  | field _ hx ih => simp [Expr.lexemes_field, ih, hx]
  | @handle line body clauses _ hheads _ _ ihbody ihbodies ihguards =>
    have hclauses : WritableAll (commas (clauses.map Clause.lexemes)) := writableAll_map
      fun c hc => writable_clause (hheads c hc) (ihbodies c hc) (ihguards c hc)
    simp [Expr.lexemes_handle, ihbody, hclauses]

end Writable

mutual

/-- An expression without its line numbers. -/
def Expr.unlined : Expr → Expr
  | .nothing _ => .nothing 0
  | .bool _ b => .bool 0 b
  | .int _ n => .int 0 n
  | .float _ x => .float 0 x
  | .str _ s => .str 0 s
  | .name _ x => .name 0 x
  | .call _ callee args => .call 0 callee.unlined (unlinedAll args)
  | .cond _ test whenTrue whenFalse =>
    .cond 0 test.unlined whenTrue.unlined (match whenFalse with
      | some e => some e.unlined
      | none => none)
  | .lambda _ name params body => .lambda 0 name params body.unlined
  | .block _ body => .block 0 (unlinedAll body)
  | .declare _ x value => .declare 0 x value.unlined
  | .assign _ x value => .assign 0 x value.unlined
  | .list _ items => .list 0 (unlinedAll items)
  | .tuple _ items => .tuple 0 (unlinedAll items)
  | .record _ fields => .record 0 (unlinedFields fields)
  | .field _ target x => .field 0 target.unlined x
  | .handle _ body clauses => .handle 0 body.unlined (unlinedClauses clauses)
  | .handled _ clauses body => .handled 0 (unlinedPairs clauses) body.unlined

/-- Expressions without their line numbers. -/
def unlinedAll : List Expr → List Expr
  | [] => []
  | e :: es => e.unlined :: unlinedAll es

/-- Fields without their line numbers. -/
def unlinedFields : List (String × Expr) → List (String × Expr)
  | [] => []
  | (x, e) :: fields => (x, e.unlined) :: unlinedFields fields

/-- Pairs of an effect and its function without their line numbers. -/
def unlinedPairs : List (Expr × Expr) → List (Expr × Expr)
  | [] => []
  | (effect, function) :: pairs => (effect.unlined, function.unlined) :: unlinedPairs pairs

/-- Clauses without their line numbers. -/
def unlinedClauses : List (Clause Expr) → List (Clause Expr)
  | [] => []
  | ⟨effect, param, resume, guard, body, _⟩ :: clauses =>
    { effect := effect.unlined, param, resume
      guard := match guard with
        | some e => some e.unlined
        | none => none
      body := body.unlined, line := 0 } :: unlinedClauses clauses

end

/-- A field without its line numbers. -/
def unlinedField (f : String × Expr) : String × Expr :=
  (f.1, f.2.unlined)

/-- A clause without its line numbers. -/
def Clause.unlined (c : Clause Expr) : Clause Expr :=
  { effect := c.effect.unlined, param := c.param, resume := c.resume
    guard := c.guard.map Expr.unlined, body := c.body.unlined, line := 0 }

@[simp]
theorem unlinedAll_eq_map (es : List Expr) : unlinedAll es = es.map Expr.unlined := by
  induction es with
  | nil => rw [unlinedAll, List.map_nil]
  | cons e es ih => rw [unlinedAll, ih, List.map_cons]

@[simp]
theorem unlinedFields_eq_map (fields : List (String × Expr)) :
    unlinedFields fields = fields.map unlinedField := by
  induction fields with
  | nil => rw [unlinedFields, List.map_nil]
  | cons f fields ih => rw [unlinedFields, ih, List.map_cons, unlinedField]

@[simp]
theorem unlinedClauses_eq_map (clauses : List (Clause Expr)) :
    unlinedClauses clauses = clauses.map Clause.unlined := by
  induction clauses with
  | nil => rw [unlinedClauses, List.map_nil]
  | cons c clauses ih =>
    obtain ⟨effect, param, resume, guard, body, line⟩ := c
    cases guard <;> simp [unlinedClauses, ih, Clause.unlined]

namespace Expr

variable (line : Nat)

attribute [local simp] unlined

@[simp]
theorem unlined_call (callee : Expr) (args : List Expr) :
    (call line callee args).unlined = call 0 callee.unlined (args.map unlined) := by
  simp

@[simp]
theorem unlined_callOf (function : String) (args : List Expr) :
    (callOf line function args).unlined = callOf 0 function (args.map unlined) := by
  simp [callOf]

@[simp]
theorem unlined_cond (test whenTrue : Expr) (whenFalse : Option Expr) :
    (cond line test whenTrue whenFalse).unlined =
      cond 0 test.unlined whenTrue.unlined (whenFalse.map unlined) := by
  cases whenFalse <;> simp

@[simp]
theorem unlined_block (body : List Expr) :
    (block line body).unlined = block 0 (body.map unlined) := by
  simp

@[simp]
theorem unlined_list (items : List Expr) :
    (list line items).unlined = list 0 (items.map unlined) := by
  simp

@[simp]
theorem unlined_tuple (items : List Expr) :
    (tuple line items).unlined = tuple 0 (items.map unlined) := by
  simp

@[simp]
theorem unlined_record (fields : List (String × Expr)) :
    (record line fields).unlined = record 0 (fields.map unlinedField) := by
  simp

@[simp]
theorem unlined_handle (body : Expr) (clauses : List (Clause Expr)) :
    (handle line body clauses).unlined = handle 0 body.unlined (clauses.map Clause.unlined) := by
  simp

end Expr

end Resumable
