import Resumable.Diagnostic
import Resumable.Number.Decimal
import Resumable.Text.Letters
import Resumable.Token

/-!
Scanning a source text. The text is cut into pieces; a piece is a token, a stretch to be skipped or
a stretch with something wrong in it. What a piece is depends on its characters alone; positions
are counted beside it, one character at a time.
-/

namespace Resumable

/-- A place in the source text. -/
structure Position where
  line : Nat := 1
  column : Nat := 1

/-- The place after one more character. -/
def Position.after (p : Position) (c : Char) : Position :=
  if c = '\n' then ⟨p.line + 1, 1⟩ else ⟨p.line, p.column + 1⟩

/-- The place after the given characters. -/
def Position.over (p : Position) (cs : List Char) : Position :=
  cs.foldl Position.after p

/-- A piece of the source text: the number of characters after its first one, the lexeme it makes,
and the problems in it, each with the number of characters before the place to blame. -/
structure Piece where
  extra : Nat := 0
  lexeme : Option Lexeme := none
  problems : List (Nat × SyntaxProblem) := []

namespace Piece

/-- A piece of one character that makes a mark. -/
def ofMark (m : Mark) : Piece :=
  { lexeme := some (.mark m) }

/-- A piece of two characters that makes a mark. -/
def ofLongMark (m : Mark) : Piece :=
  { extra := 1, lexeme := some (.mark m) }

/-- A mark that is longer if the next character is an equals sign. -/
def withEqual (short long : Mark) : List Char → Piece
  | '=' :: _ => ofLongMark long
  | _ => ofMark short

/-- The character that an escape stands for. -/
def escaped? : Char → Option Char
  | 'n' => some '\n'
  | 't' => some '\t'
  | 'r' => some '\r'
  | '"' => some '"'
  | '\\' => some '\\'
  | _ => none

/-- The rest of a string after its opening quote. So far `count` characters have been read since;
`text` is the text they make and `problems` what was wrong with them, both the latest first. -/
def stringFrom (count : Nat) (text : List Char) (problems : List (Nat × SyntaxProblem)) :
    List Char → Piece
  | [] => { extra := count, problems := ((0, .openString) :: problems).reverse }
  | ['\\'] => { extra := count + 1, problems := ((0, .openString) :: problems).reverse }
  | '\\' :: c :: rest =>
    match escaped? c with
    | some e => stringFrom (count + 2) (e :: text) problems rest
    | none => stringFrom (count + 2) text ((count + 3, .unknownEscape c) :: problems) rest
  | c :: rest =>
    if c = '"' then
      { extra := count + 1
        lexeme := some (.str (String.ofList text.reverse))
        problems := problems.reverse }
    else stringFrom (count + 1) (c :: text) problems rest

/-- Digits and the underscores between them. -/
def isDigitOrGap (c : Char) : Bool :=
  c.isDigit || c == '_'

/-- The characters after a point that starts a fractional part. A point that no digit follows is
left for what comes next. -/
def fraction? : List Char → Option (List Char)
  | '.' :: c :: rest => if c.isDigit then some ((c :: rest).takeWhile Char.isDigit) else none
  | _ => none

/-- A number that starts with the digit `c`. -/
def number (c : Char) (cs : List Char) : Piece :=
  let body := cs.takeWhile isDigitOrGap
  let whole := c :: body.filter (· != '_')
  match fraction? (cs.dropWhile isDigitOrGap) with
  | some digits =>
    { extra := body.length + 1 + digits.length
      lexeme := some (.float (Number.floatOfDigits whole digits)) }
  | none =>
    match Number.intOfDigits? whole with
    | some n => { extra := body.length, lexeme := some (.int n) }
    | none => { extra := body.length, problems := [(0, .hugeInteger (String.ofList whole))] }

/-- A keyword or a name that starts with `c`. -/
def word (c : Char) (cs : List Char) : Piece :=
  let body := cs.takeWhile Text.continuesWord
  let name := String.ofList (c :: body)
  { extra := body.length
    lexeme := some (match Keyword.ofWord? name with
      | some k => .keyword k
      | none => .word name) }

/-- A comment up to the end of its line, or a division sign. -/
def slash : List Char → Piece
  | '/' :: rest => { extra := 1 + (rest.takeWhile (· != '\n')).length }
  | _ => ofMark .slash

/-- A mark that starts with `c`, or a character that has no place in a source text. -/
def sign (c : Char) (cs : List Char) : Piece :=
  match c with
  | '(' => ofMark .openParen
  | ')' => ofMark .closeParen
  | '\x7b' => ofMark .openCurly
  | '\x7d' => ofMark .closeCurly
  | '[' => ofMark .openSquare
  | ']' => ofMark .closeSquare
  | ',' => ofMark .comma
  | ';' => ofMark .semicolon
  | ':' => ofMark .colon
  | '.' => ofMark .dot
  | '|' => ofMark .pipe
  | '+' => ofMark .plus
  | '-' => ofMark .minus
  | '*' => ofMark .star
  | '%' => ofMark .percent
  | '<' => withEqual .less .lessEqual cs
  | '>' => withEqual .greater .greaterEqual cs
  | '=' =>
    match cs with
    | '>' :: _ => ofLongMark .fatArrow
    | _ => withEqual .equal .doubleEqual cs
  | '!' =>
    match cs with
    | '=' :: _ => ofLongMark .bangEqual
    | _ => { problems := [(0, .strayCharacter '!')] }
  | c => { problems := [(0, .strayCharacter c)] }

/-- The characters that separate tokens. -/
def isGap (c : Char) : Bool :=
  c == ' ' || c == '\t' || c == '\r' || c == '\n'

/-- The piece that starts with `c` and goes on in `cs`. -/
def start (c : Char) (cs : List Char) : Piece :=
  if isGap c then {}
  else if c = '/' then slash cs
  else if c = '"' then stringFrom 0 [] [] cs
  else if c.isDigit then number c cs
  else if Text.opensWord c then word c cs
  else sign c cs

end Piece

/-- The tokens of a text, in order, and the errors found on the way. -/
structure Scan where
  tokens : List Token
  errors : List SyntaxError

/-- Scans the characters that follow, of which the first `skip` belong to a piece already read. The
tokens and errors so far are given with the latest first. -/
def Scan.follow (tokens : List Token) (errors : List SyntaxError) (p : Position) :
    (skip : Nat) → List Char → Scan
  | _, [] => ⟨(⟨.ending, p.line, p.column⟩ :: tokens).reverse, errors.reverse⟩
  | skip + 1, c :: cs => Scan.follow tokens errors (p.after c) skip cs
  | 0, c :: cs =>
    let piece := Piece.start c cs
    let tokens := match piece.lexeme with
      | some lexeme => ⟨lexeme, p.line, p.column⟩ :: tokens
      | none => tokens
    let errors := piece.problems.foldl (fun errors (count, problem) =>
      let place := p.over ((c :: cs).take count)
      ⟨problem, place.line, place.column⟩ :: errors) errors
    Scan.follow tokens errors (p.after c) piece.extra cs

/-- Scans a source text. The last token is always the end of the input. -/
def Scan.ofSource (source : String) : Scan :=
  Scan.follow [] [] {} 0 source.toList

end Resumable
