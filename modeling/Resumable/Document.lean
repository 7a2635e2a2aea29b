/-!
Documents of null, truth values, numbers, texts, lists and objects, and how they are written: on one
line, or indented by two blanks a level. A text is a list of code points, since a document may hold
half of a surrogate pair, which is no character.
-/

namespace Resumable

/-- A document. Numbers are kept as they are written. -/
inductive Document where
  | null
  | bool (b : Bool)
  | number (literal : String)
  | text (points : List Nat)
  | list (items : List Document)
  | object (fields : List (List Nat × Document))

namespace Document

/-- The code points of a text. -/
def pointsOf (s : String) : List Nat :=
  s.toList.map Char.toNat

/-- A text as a document. -/
def ofString (s : String) : Document :=
  text (pointsOf s)

/-- A natural number as a document. -/
def ofNat (n : Nat) : Document :=
  number (toString n)

/-- A number that may be missing. -/
def ofNat? (n : Option Nat) : Document :=
  (n.map ofNat).getD null

/-- An object with the given fields in order. -/
def record (fields : List (String × Document)) : Document :=
  object (fields.map fun f => (pointsOf f.1, f.2))

/-- An escape by the number of a code point below `2 ^ 16`. -/
def hexEscape (point : Nat) : List Char :=
  let digits := Nat.toDigits 16 point
  '\\' :: 'u' :: (List.replicate (4 - digits.length) '0' ++ digits)

/-- One code point of a written text. Quotes, backslashes and control characters are escaped, and so
is half of a surrogate pair. -/
def writePoint (point : Nat) : List Char :=
  if point = 0x22 then ['\\', '"']
  else if point = 0x5c then ['\\', '\\']
  else if point = 0x08 then ['\\', 'b']
  else if point = 0x09 then ['\\', 't']
  else if point = 0x0a then ['\\', 'n']
  else if point = 0x0c then ['\\', 'f']
  else if point = 0x0d then ['\\', 'r']
  else if point < 0x20 ∨ 0xd800 ≤ point ∧ point < 0xe000 then hexEscape point
  else [Char.ofNat point]

/-- A written text, between quotes. -/
def writeText (points : List Nat) : String :=
  String.ofList ('"' :: (points.flatMap writePoint ++ ['"']))

mutual

/-- The document on one line without blanks. -/
def compact : Document → String
  | null => "null"
  | bool b => if b then "true" else "false"
  | number literal => literal
  | text points => writeText points
  | list items => "[" ++ ",".intercalate (compactItems items) ++ "]"
  | object fields => "\x7b" ++ ",".intercalate (compactFields fields) ++ "\x7d"

/-- The items of a list, each on one line. -/
def compactItems : List Document → List String
  | [] => []
  | d :: ds => d.compact :: compactItems ds

/-- The fields of an object, each on one line. -/
def compactFields : List (List Nat × Document) → List String
  | [] => []
  | (key, d) :: fields => (writeText key ++ ":" ++ d.compact) :: compactFields fields

end

/-- The start of a line at a level of nesting. -/
def newLine (level : Nat) : String :=
  "\n" ++ String.ofList (List.replicate (2 * level) ' ')

/-- Parts between brackets, each on lines of its own one level further in. -/
def bracketed (opening closing : String) (level : Nat) (parts : List String) : String :=
  if parts.isEmpty then opening ++ closing
  else
    opening ++ newLine (level + 1) ++ ("," ++ newLine (level + 1)).intercalate parts ++
      newLine level ++ closing

mutual

/-- The document over several lines; those after the first start at the given level. -/
def indented (level : Nat) : Document → String
  | list items => bracketed "[" "]" level (indentedItems (level + 1) items)
  | object fields => bracketed "\x7b" "\x7d" level (indentedFields (level + 1) fields)
  | d => d.compact

/-- The items of a list over several lines. -/
def indentedItems (level : Nat) : List Document → List String
  | [] => []
  | d :: ds => d.indented level :: indentedItems level ds

/-- The fields of an object over several lines. -/
def indentedFields (level : Nat) : List (List Nat × Document) → List String
  | [] => []
  | (key, d) :: fields =>
    (writeText key ++ ": " ++ d.indented level) :: indentedFields level fields

end

end Document

end Resumable
