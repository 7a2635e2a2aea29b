import Resumable.Expr
import Resumable.Token.Scan

/-!
Reading programs from tokens. Reading goes down the grammar, one function for each construct, and
collects errors: after an error the rest of the statement is passed over. All functions take a
measure that bounds their depth and their loops; it is computed from the number of tokens, and
running out of it is an outcome of its own.
-/

namespace Resumable

/-- What is still to be read, and the errors recorded so far, the latest first. -/
structure ReadState where
  tokens : List Token
  errors : List SyntaxError := []

/-- Why reading stops before an expression is complete. -/
inductive ReadStop where
  | error (e : SyntaxError)
  | exhausted

/-- Reading takes tokens from the front; also a failure leaves the tokens where it occurred. -/
abbrev Read := EStateM ReadStop ReadState

namespace Read

/-- The token at the front. -/
def current : Read Token := do
  match (← get).tokens with
  | token :: _ => return token
  | [] => return ⟨.ending, 0, 0⟩

/-- Whether a token satisfying `p` is at the front. -/
def sees (p : Lexeme → Bool) : Read Bool := do
  return p (← current).lexeme

/-- Whether the second token is the given mark. -/
def seesSecond (m : Mark) : Read Bool := do
  match (← get).tokens with
  | _ :: second :: _ => return second.lexeme.isMark m
  | _ => return false

/-- Takes the token at the front; the end of the input stays there. -/
def take : Read Token := do
  let token ← current
  unless token.lexeme.isEnding do
    modify fun s => { s with tokens := s.tokens.tail }
  return token

/-- Takes the token at the front if it is the given mark. -/
def accept (m : Mark) : Read Bool := do
  if ← sees (Lexeme.isMark m) then
    let _ ← take
    return true
  else return false

/-- Takes the token at the front if it is the given keyword. -/
def acceptKeyword (k : Keyword) : Read Bool := do
  if ← sees (Lexeme.isKeyword k) then
    let _ ← take
    return true
  else return false

/-- The complaint that something else was expected at the front. -/
def unexpected (what : String) : Read SyntaxError := do
  let token ← current
  return ⟨.expected what token.lexeme.describe, token.line, token.column⟩

/-- Stops because something else was expected at the front. -/
def refuse {α : Type} (what : String) : Read α := do
  throw (.error (← unexpected what))

/-- Takes the given mark or stops. -/
def expect (m : Mark) (what : String) : Read Unit := do
  unless ← accept m do
    refuse what

/-- Takes the given keyword or stops. -/
def expectKeyword (k : Keyword) (what : String) : Read Unit := do
  unless ← acceptKeyword k do
    refuse what

/-- Takes a name or stops. -/
def expectName (what : String) : Read String := do
  match (← current).lexeme with
  | .word name =>
    let _ ← take
    return name
  | _ => refuse what

/-- Keeps an error and goes on. -/
def record (e : SyntaxError) : Read Unit :=
  modify fun s => { s with errors := e :: s.errors }

/-- The tokens from which to go on after an error: those after the next semicolon outside all
brackets opened since, or those from a closing brace there. -/
def resync (depth : Nat) : List Token → List Token
  | [] => []
  | token :: rest =>
    match token.lexeme with
    | .ending => token :: rest
    | .mark m =>
      if depth = 0 ∧ m = .semicolon then rest
      else if depth = 0 ∧ m = .closeCurly then token :: rest
      else if m = .openCurly ∨ m = .openParen ∨ m = .openSquare then resync (depth + 1) rest
      else if m = .closeCurly ∨ m = .closeParen ∨ m = .closeSquare then resync (depth - 1) rest
      else resync depth rest
    | _ => resync depth rest

/-- Records an error and passes over the rest of the statement. -/
def recover (e : SyntaxError) : Read Unit := do
  record e
  modify fun s => { s with tokens := resync 0 s.tokens }

/-- Reads with `p` and hands back the error that stopped it, if any. -/
def attempt {α : Type} (p : Read α) : Read (Except SyntaxError α) := fun s =>
  match p s with
  | .ok a s' => .ok (.ok a) s'
  | .error (.error e) s' => .ok (.error e) s'
  | .error .exhausted s' => .error .exhausted s'

/-- Statements up to a token satisfying `isEnd` or to the end of the input. A statement that is not
followed by a semicolon or the end is an error. -/
def statements (expr : Read Expr) (isEnd : Lexeme → Bool) :
    (bound : Nat) → List Expr → Read (List Expr)
  | 0, _ => throw .exhausted
  | bound + 1, done => do
    if ← sees fun l => isEnd l || l.isEnding then
      return done.reverse
    match ← attempt expr with
    | .ok e =>
      if ← accept .semicolon then statements expr isEnd bound (e :: done)
      else if ← sees isEnd then statements expr isEnd bound (e :: done)
      else
        recover (← unexpected "';'")
        statements expr isEnd bound (e :: done)
    | .error e =>
      recover e
      statements expr isEnd bound done

/-- Items separated by commas up to the mark `close`, which stays; a last comma may stand before
it. -/
def items {α : Type} (item : Read α) (close : Mark) : (bound : Nat) → List α → Read (List α)
  | 0, _ => throw .exhausted
  | bound + 1, done => do
    if ← sees (Lexeme.isMark close) then
      return done.reverse
    let x ← item
    if ← accept .comma then items item close bound (x :: done)
    else return (x :: done).reverse

/-- Items separated by commas and the mark that closes them. -/
def enclosed {α : Type} (item : Read α) (close : Mark) (what : String) (bound : Nat) :
    Read (List α) := do
  let xs ← items item close bound []
  expect close what
  return xs

/-- Names separated by commas, at least one. -/
def parameters : (bound : Nat) → List String → Read (List String)
  | 0, _ => throw .exhausted
  | bound + 1, done => do
    let name ← expectName "parameter name"
    if ← accept .comma then parameters bound (name :: done)
    else return (name :: done).reverse

/-- A function, whose opening bar is at the front. -/
def lambda (expr : Read Expr) (bound : Nat) (name : Option String) : Read Expr := do
  let line := (← take).line
  let params ←
    if ← sees (Lexeme.isMark .pipe) then pure []
    else parameters bound []
  expect .pipe "'|' after parameters"
  let body ← expr
  return .lambda line name params body

/-- A declaration. A function that is declared directly takes the name. -/
def declaration (expr : Read Expr) (bound : Nat) : Read Expr := do
  let line := (← take).line
  let name ← expectName "variable name"
  expect .equal "'='"
  let value ←
    if ← sees (Lexeme.isMark .pipe) then lambda expr bound (some name)
    else expr
  return .declare line name value

/-- The declaration of an effect, which makes a new one under the name. -/
def effect : Read Expr := do
  let line := (← take).line
  let name ← expectName "effect name"
  return .declare line name (.callOf line "new_effect" [.str line name])

/-- A conditional. -/
def conditional (expr : Read Expr) : Read Expr := do
  let line := (← take).line
  let test ← expr
  expect .colon "':' after condition"
  let whenTrue ← expr
  if ← acceptKeyword .otherwise then
    expect .colon "':' after else"
    let whenFalse ← expr
    return .cond line test whenTrue (some whenFalse)
  else return .cond line test whenTrue none

/-- The rest of a dotted path that starts with `start`. -/
def path (line : Nat) : (bound : Nat) → (start : Expr) → Read Expr
  | 0, _ => throw .exhausted
  | bound + 1, start => do
    if ← accept .dot then
      let name ← expectName "identifier after '.'"
      path line bound (.field line start name)
    else return start

/-- A clause of a handler. -/
def clause (expr : Read Expr) (bound : Nat) : Read (Clause Expr) := do
  let line := (← current).line
  let start ← expectName "effect name"
  let effect ← path line bound (.name line start)
  expect .openParen "'(' after effect"
  let param ← expectName "payload name"
  let resume ←
    if ← accept .comma then some <$> expectName "continuation name"
    else pure none
  expect .closeParen "')'"
  let guard ←
    if ← acceptKeyword .when then some <$> expr
    else pure none
  expect .fatArrow "'=>'"
  let body ← expr
  return { effect, param, resume, guard, body, line }

/-- A handler with its clauses. -/
def handler (expr : Read Expr) (bound : Nat) : Read Expr := do
  let line := (← take).line
  let body ← expr
  expectKeyword .withClauses "'with'"
  expect .openCurly "'\x7b' before handler clauses"
  let clauses ← enclosed (clause expr bound) .closeCurly "'\x7d' after handler clauses" bound
  return .handle line body clauses

/-- A field of a record. -/
def recordField (expr : Read Expr) : Read (String × Expr) := do
  let name ← expectName "field name"
  expect .colon "':' after field name"
  let value ← expr
  return (name, value)

/-- A record. -/
def recordLiteral (expr : Read Expr) (bound : Nat) : Read Expr := do
  let line := (← take).line
  expect .openCurly "'\x7b' after record"
  let fields ← enclosed (recordField expr) .closeCurly "'\x7d' after record fields" bound
  return .record line fields

/-- An expression in parentheses, or a tuple. A comma makes the difference. -/
def parenthesized (expr : Read Expr) (bound : Nat) : Read Expr := do
  let line := (← take).line
  if ← accept .closeParen then
    return .tuple line []
  let first ← expr
  if ← accept .closeParen then
    return first
  expect .comma "',' or ')'"
  let rest ← enclosed expr .closeParen "')' after tuple" bound
  return .tuple line (first :: rest)

/-- A block of statements. -/
def block (expr : Read Expr) (bound : Nat) : Read Expr := do
  let line := (← take).line
  let body ← statements expr (Lexeme.isMark .closeCurly) bound []
  expect .closeCurly "'\x7d' after block"
  return .block line body

/-- A list. -/
def listLiteral (expr : Read Expr) (bound : Nat) : Read Expr := do
  let line := (← take).line
  let xs ← enclosed expr .closeSquare "']' after list" bound
  return .list line xs

/-- Takes the token at the front, which makes the given expression. -/
def literal (e : Expr) : Read Expr := do
  let _ ← take
  return e

/-- An expression without operators around it. -/
def primary (expr : Read Expr) (bound : Nat) : Read Expr := do
  let token ← current
  let line := token.line
  match token.lexeme with
  | .int n => literal (.int line n)
  | .float x => literal (.float line x)
  | .str s => literal (.str line s)
  | .word name => literal (.name line name)
  | .keyword .yes => literal (.bool line true)
  | .keyword .no => literal (.bool line false)
  | .keyword .nothing => literal (.nothing line)
  | .keyword .record => recordLiteral expr bound
  | .keyword .when | .keyword .handle | .mark .pipe => expr
  | .mark .openParen => parenthesized expr bound
  | .mark .openSquare => listLiteral expr bound
  | .mark .openCurly => block expr bound
  | _ => refuse "expression"

/-- The calls, fields and indexes that follow an expression. -/
def postfixes (expr : Read Expr) : (bound : Nat) → (subject : Expr) → Read Expr
  | 0, _ => throw .exhausted
  | bound + 1, subject => do
    let line := (← current).line
    if ← accept .openParen then
      let args ← enclosed expr .closeParen "')' after arguments" bound
      postfixes expr bound (.call line subject args)
    else if ← accept .dot then
      let name ← expectName "field name after '.'"
      postfixes expr bound (.field line subject name)
    else if ← accept .openSquare then
      let index ← expr
      expect .closeSquare "']' after index"
      postfixes expr bound (.callOf line "get" [subject, index])
    else return subject

/-- The negative of an expression; a number is negated at once. -/
def negated (line : Nat) : Expr → Expr
  | .int _ n => .int line (-n)
  | .float _ x => .float line (-x)
  | e => .callOf line "neg" [e]

/-- An expression with the signs before it and what follows it. -/
def unary (expr : Read Expr) : (bound : Nat) → Read Expr
  | 0 => throw .exhausted
  | bound + 1 => do
    let line := (← current).line
    if ← accept .minus then
      return negated line (← unary expr bound)
    else if ← acceptKeyword .negate then
      return .callOf line "not" [← unary expr bound]
    else
      let subject ← primary expr bound
      postfixes expr bound subject

end Read

/-- Operators between two operands. -/
inductive Operator where
  | either
  | both
  | function (name : String)

namespace Operator

/-- The operator of a lexeme, with its precedence; operators of a greater precedence bind tighter. -/
def ofLexeme? : Lexeme → Option (Nat × Operator)
  | .keyword .either => some (60, .either)
  | .keyword .both => some (80, .both)
  | .mark .doubleEqual => some (100, .function "==")
  | .mark .bangEqual => some (100, .function "!=")
  | .mark .less => some (100, .function "<")
  | .mark .lessEqual => some (100, .function "<=")
  | .mark .greater => some (100, .function ">")
  | .mark .greaterEqual => some (100, .function ">=")
  | .mark .plus => some (200, .function "+")
  | .mark .minus => some (200, .function "-")
  | .mark .star => some (300, .function "*")
  | .mark .slash => some (300, .function "/")
  | .mark .percent => some (300, .function "%")
  | _ => none

/-- The expression for an operator and its operands. The logical operators are conditionals, since
their right operand is not always evaluated; the others call the function of their name. -/
def join (line : Nat) (left right : Expr) : Operator → Expr
  | both => .cond line left right (some (.bool line false))
  | either => .cond line left (.bool line true) (some right)
  | function name => .callOf line name [left, right]

end Operator

namespace Read

/-- Goes on from an expression with the operators of a precedence above `least`, and their right
operands. The right operand of an operator goes on with the operators of a precedence above its own. -/
def climb (operand : Read Expr) : (bound : Nat) → (least : Nat) → (left : Expr) → Read Expr
  | 0, _, _ => throw .exhausted
  | bound + 1, least, left => do
    let token ← current
    match Operator.ofLexeme? token.lexeme with
    | some (precedence, op) =>
      if precedence ≤ least then return left
      let _ ← take
      let first ← operand
      let right ← climb operand bound precedence first
      climb operand bound least (op.join token.line left right)
    | none => return left

/-- Operands joined by operators of a precedence above `least`. -/
def binary (operand : Read Expr) (bound least : Nat) : Read Expr := do
  let left ← operand
  climb operand bound least left

/-- An expression. -/
def expr : (bound : Nat) → Read Expr
  | 0 => throw .exhausted
  | bound + 1 => do
    let token ← current
    let operators := binary (unary (expr bound) bound) bound 0
    match token.lexeme with
    | .keyword .var => declaration (expr bound) bound
    | .keyword .effect => effect
    | .keyword .handle => handler (expr bound) bound
    | .keyword .when => conditional (expr bound)
    | .mark .pipe => lambda (expr bound) bound none
    | .word name =>
      if ← seesSecond .equal then
        let _ ← take
        let _ ← take
        let value ← expr bound
        return .assign token.line name value
      else operators
    | _ => operators

end Read

/-- What reading some tokens comes to. -/
inductive ReadResult where
  | program (p : Program)
  | faulty (errors : List SyntaxError)
  | unending

/-- Reads a program from tokens, with loops and depth bounded by `bound`. -/
def Program.readWithin (bound : Nat) (tokens : List Token) : ReadResult :=
  match Read.statements (Read.expr bound) Lexeme.isEnding bound [] ⟨tokens, []⟩ with
  | .ok body s => if s.errors.isEmpty then .program body else .faulty s.errors.reverse
  | .error _ _ => .unending

/-- Reads a program from tokens. An expression may pass through the grammar twice before it takes a
token, so twice the number of tokens bounds both depth and loops. -/
def Program.ofTokens (tokens : List Token) : ReadResult :=
  Program.readWithin (2 * tokens.length + 2) tokens

/-- Reads a program from a source text. The errors of both scanning and reading are reported, in the
order of their positions when reading found some. -/
def Program.ofSource (source : String) : Except SourceFailure Program :=
  let scan := Scan.ofSource source
  match Program.ofTokens scan.tokens with
  | .program p => if scan.errors.isEmpty then .ok p else .error (.malformed scan.errors)
  | .faulty errors => .error (.malformed ((scan.errors ++ errors).mergeSort SyntaxError.notAfter))
  | .unending => .error .unending

end Resumable
