import Resumable.Number.Shortest
import Resumable.Text.Quoted

/-!
Tokens of the source text and their descriptions.
-/

namespace Resumable

/-- Words with a fixed meaning. -/
inductive Keyword where
  | var
  | when
  | otherwise
  | effect
  | handle
  | withClauses
  | yes
  | no
  | nothing
  | record
  | both
  | either
  | negate
deriving DecidableEq, Repr

namespace Keyword

/-- All keywords. -/
def all : List Keyword :=
  [var, when, otherwise, effect, handle, withClauses, yes, no, nothing, record, both, either,
    negate]

/-- How the keyword is written. -/
def spelling : Keyword → String
  | var => "var"
  | when => "if"
  | otherwise => "else"
  | effect => "effect"
  | handle => "handle"
  | withClauses => "with"
  | yes => "true"
  | no => "false"
  | nothing => "none"
  | record => "record"
  | both => "and"
  | either => "or"
  | negate => "not"

/-- What messages call the keyword. -/
def label : Keyword → String
  | var => "Var"
  | when => "If"
  | otherwise => "Else"
  | effect => "Effect"
  | handle => "Handle"
  | withClauses => "With"
  | yes => "True"
  | no => "False"
  | nothing => "None"
  | record => "Record"
  | both => "And"
  | either => "Or"
  | negate => "Not"

/-- The keyword with the given spelling. -/
def ofWord? (word : String) : Option Keyword :=
  all.find? fun k => k.spelling == word

end Keyword

/-- Punctuation and operator signs. -/
inductive Mark where
  | openParen
  | closeParen
  | openCurly
  | closeCurly
  | openSquare
  | closeSquare
  | comma
  | semicolon
  | colon
  | dot
  | pipe
  | fatArrow
  | equal
  | doubleEqual
  | bangEqual
  | less
  | lessEqual
  | greater
  | greaterEqual
  | plus
  | minus
  | star
  | slash
  | percent
deriving DecidableEq, Repr

namespace Mark

/-- How the mark is written. -/
def spelling : Mark → String
  | openParen => "("
  | closeParen => ")"
  | openCurly => "\x7b"
  | closeCurly => "\x7d"
  | openSquare => "["
  | closeSquare => "]"
  | comma => ","
  | semicolon => ";"
  | colon => ":"
  | dot => "."
  | pipe => "|"
  | fatArrow => "=>"
  | equal => "="
  | doubleEqual => "=="
  | bangEqual => "!="
  | less => "<"
  | lessEqual => "<="
  | greater => ">"
  | greaterEqual => ">="
  | plus => "+"
  | minus => "-"
  | star => "*"
  | slash => "/"
  | percent => "%"

/-- What messages call the mark. -/
def label : Mark → String
  | openParen => "LeftParen"
  | closeParen => "RightParen"
  | openCurly => "LeftCurly"
  | closeCurly => "RightCurly"
  | openSquare => "LeftSquare"
  | closeSquare => "RightSquare"
  | comma => "Comma"
  | semicolon => "Semicolon"
  | colon => "Colon"
  | dot => "Dot"
  | pipe => "Pipe"
  | fatArrow => "FatArrow"
  | equal => "Equal"
  | doubleEqual => "DoubleEqual"
  | bangEqual => "BangEqual"
  | less => "Less"
  | lessEqual => "LessEqual"
  | greater => "Greater"
  | greaterEqual => "GreaterEqual"
  | plus => "Plus"
  | minus => "Minus"
  | star => "Star"
  | slash => "Slash"
  | percent => "Percent"

end Mark

/-- What a token stands for. The end of the input is a lexeme of its own. -/
inductive Lexeme where
  | int (n : Int64)
  | float (x : Float)
  | str (s : String)
  | word (name : String)
  | keyword (k : Keyword)
  | mark (m : Mark)
  | ending

namespace Lexeme

/-- The kind of the lexeme. -/
def label : Lexeme → String
  | int _ => "Int"
  | float _ => "Float"
  | str _ => "Str"
  | word _ => "Ident"
  | keyword k => k.label
  | mark m => m.label
  | ending => "Eof"

/-- The text that belongs to the lexeme, for those that differ in more than their kind. -/
def text? : Lexeme → Option String
  | int n => some (toString n)
  | float x => some (Number.floatText x)
  | str s => some s
  | word name => some name
  | _ => none

/-- What messages say was found. -/
def describe : Lexeme → String
  | int n => toString n
  | float x => Number.floatText x
  | str s => Text.quote s
  | word name => name
  | ending => "end of input"
  | other => other.label

/-- Whether the lexeme is the given mark. -/
def isMark (m : Mark) : Lexeme → Bool
  | mark m' => m' == m
  | _ => false

/-- Whether the lexeme is the given keyword. -/
def isKeyword (k : Keyword) : Lexeme → Bool
  | keyword k' => k' == k
  | _ => false

/-- Whether the input ends here. -/
def isEnding : Lexeme → Bool
  | ending => true
  | _ => false

end Lexeme

/-- A lexeme with the line and column of its first character, both counted from one. -/
structure Token where
  lexeme : Lexeme
  line : Nat
  column : Nat

end Resumable
