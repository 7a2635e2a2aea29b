import Resumable.Document

/-!
Reading documents. The reader is strict: no trailing commas, no comments, no leading zeros, and
nothing but blanks after the document.
-/

namespace Resumable

namespace Document

/-- The characters that may stand between the parts of a document. -/
def isGap (c : Char) : Bool :=
  c == ' ' || c == '\n' || c == '\t' || c == '\r'

/-- The characters from the next part on. -/
def skipGap (cs : List Char) : List Char :=
  cs.dropWhile isGap

/-- The value of a hexadecimal digit. -/
def hexDigit? (c : Char) : Option Nat :=
  if '0' ≤ c ∧ c ≤ '9' then some (c.toNat - 48)
  else if 'a' ≤ c ∧ c ≤ 'f' then some (c.toNat - 87)
  else if 'A' ≤ c ∧ c ≤ 'F' then some (c.toNat - 55)
  else none

/-- The number with four hexadecimal digits. -/
def hexUnit? (a b c d : Char) : Option Nat := do
  return 4096 * (← hexDigit? a) + 256 * (← hexDigit? b) + 16 * (← hexDigit? c) + (← hexDigit? d)

/-- Whether a code point is the first half of a surrogate pair. -/
def isHighHalf (point : Nat) : Bool :=
  decide (0xd800 ≤ point) && decide (point < 0xdc00)

/-- Whether a code point is the second half of a surrogate pair. -/
def isLowHalf (point : Nat) : Bool :=
  decide (0xdc00 ≤ point) && decide (point < 0xe000)

/-- One more code point of a text whose points so far are given with the latest first. Two halves of
a surrogate pair in a row are one code point. -/
def addPoint (done : List Nat) (point : Nat) : List Nat :=
  match done with
  | high :: rest =>
    if isHighHalf high && isLowHalf point then
      (0x10000 + 0x400 * (high - 0xd800) + (point - 0xdc00)) :: rest
    else point :: done
  | [] => [point]

/-- What an escape of one letter stands for. -/
def escape? (c : Char) : Option Nat :=
  if c == '"' || c == '\\' || c == '/' then some c.toNat
  else if c == 'b' then some 0x08
  else if c == 'f' then some 0x0c
  else if c == 'n' then some 0x0a
  else if c == 'r' then some 0x0d
  else if c == 't' then some 0x09
  else none

/-- Reads a text up to its closing quote; the points before are given with the latest first. -/
def readText (done : List Nat) : List Char → Option (List Nat × List Char)
  | '"' :: cs => some (done.reverse, cs)
  | '\\' :: 'u' :: a :: b :: c :: d :: cs =>
    match hexUnit? a b c d with
    | some point => readText (addPoint done point) cs
    | none => none
  | '\\' :: c :: cs =>
    match escape? c with
    | some point => readText (point :: done) cs
    | none => none
  | c :: cs => if c.toNat < 0x20 then none else readText (c.toNat :: done) cs
  | [] => none

/-- Reads digits, of which there must be one at least. -/
def readDigits (cs : List Char) : Option (List Char × List Char) :=
  let digits := cs.takeWhile Char.isDigit
  if digits.isEmpty then none else some (digits, cs.dropWhile Char.isDigit)

/-- Reads the digits before the point: a zero stands alone. -/
def readWhole : List Char → Option (List Char × List Char)
  | '0' :: cs => some (['0'], cs)
  | cs => readDigits cs

/-- Reads the fraction of a number, if there is one. -/
def readFraction : List Char → Option (List Char × List Char)
  | '.' :: cs => (readDigits cs).map fun (digits, rest) => ('.' :: digits, rest)
  | cs => some ([], cs)

/-- Reads the exponent of a number, if there is one. -/
def readScale : List Char → Option (List Char × List Char)
  | c :: cs =>
    if c == 'e' || c == 'E' then
      match cs with
      | '+' :: cs => (readDigits cs).map fun (digits, rest) => (c :: '+' :: digits, rest)
      | '-' :: cs => (readDigits cs).map fun (digits, rest) => (c :: '-' :: digits, rest)
      | cs => (readDigits cs).map fun (digits, rest) => (c :: digits, rest)
    else some ([], c :: cs)
  | [] => some ([], [])

/-- Reads a number. -/
def readNumber (cs : List Char) : Option (Document × List Char) := do
  let (sign, cs) := match cs with
    | '-' :: cs => (['-'], cs)
    | cs => ([], cs)
  let (whole, cs) ← readWhole cs
  let (fraction, cs) ← readFraction cs
  let (scale, cs) ← readScale cs
  return (number (String.ofList (sign ++ whole ++ fraction ++ scale)), cs)

mutual

/-- Reads a document with at most `fuel` steps into its structure. -/
def readValue : (fuel : Nat) → List Char → Option (Document × List Char)
  | 0, _ => none
  | fuel + 1, cs =>
    match skipGap cs with
    | 'n' :: 'u' :: 'l' :: 'l' :: cs => some (null, cs)
    | 't' :: 'r' :: 'u' :: 'e' :: cs => some (bool true, cs)
    | 'f' :: 'a' :: 'l' :: 's' :: 'e' :: cs => some (bool false, cs)
    | '"' :: cs => (readText [] cs).map fun (points, rest) => (text points, rest)
    | '[' :: cs =>
      match skipGap cs with
      | ']' :: cs => some (list [], cs)
      | cs => readItems fuel [] cs
    | '\x7b' :: cs =>
      match skipGap cs with
      | '\x7d' :: cs => some (object [], cs)
      | cs => readFields fuel [] cs
    | cs => readNumber cs

/-- Reads the items of a list up to its end; those before are given with the latest first. -/
def readItems : (fuel : Nat) → List Document → List Char → Option (Document × List Char)
  | 0, _, _ => none
  | fuel + 1, done, cs =>
    match readValue fuel cs with
    | none => none
    | some (item, cs) =>
      match skipGap cs with
      | ',' :: cs => readItems fuel (item :: done) cs
      | ']' :: cs => some (list (item :: done).reverse, cs)
      | _ => none

/-- Reads the fields of an object up to its end; those before are given with the latest first. -/
def readFields : (fuel : Nat) → List (List Nat × Document) → List Char →
    Option (Document × List Char)
  | 0, _, _ => none
  | fuel + 1, done, cs =>
    match skipGap cs with
    | '"' :: cs =>
      match readText [] cs with
      | none => none
      | some (key, cs) =>
        match skipGap cs with
        | ':' :: cs =>
          match readValue fuel cs with
          | none => none
          | some (value, cs) =>
            match skipGap cs with
            | ',' :: cs => readFields fuel ((key, value) :: done) cs
            | '\x7d' :: cs => some (object ((key, value) :: done).reverse, cs)
            | _ => none
        | _ => none
    | _ => none

end

/-- The document with the given text. Each bracket takes two steps of the reader. -/
def ofText? (s : String) : Option Document :=
  let cs := s.toList
  match readValue (2 * cs.length + 2) cs with
  | some (d, rest) => if (skipGap rest).isEmpty then some d else none
  | none => none

/-- A text without halves of surrogate pairs. -/
def characters? (points : List Nat) : Option String :=
  if points.any fun p => isHighHalf p || isLowHalf p then none
  else some (String.ofList (points.map Char.ofNat))

/-- The text that a document is. -/
def string? : Document → Option String
  | text points => characters? points
  | _ => none

/-- The truth value that a document is. -/
def bool? : Document → Option Bool
  | bool b => some b
  | _ => none

/-- The count that a document is: a number without sign, fraction and exponent, of at most 64
bits. -/
def count? : Document → Option Nat
  | number literal =>
    if literal.toList.all Char.isDigit then
      let n := literal.toList.foldl (fun n c => 10 * n + (c.toNat - 48)) 0
      if n < 0x10000000000000000 then some n else none
    else none
  | _ => none

/-- What a document is, unless it is null. -/
def optional? {α : Type} (read : Document → Option α) : Document → Option (Option α)
  | null => some none
  | d => (read d).map some

/-- The fields of a structure whose fields are `known`. An object may have other fields, but each
known one at most once; a list gives the fields in order and may leave out the last ones. -/
def fields? (known : List String) : Document → Option (List (String × Document))
  | object fields => do
    let named ← fields.mapM fun f => (characters? f.1).map fun key => (key, f.2)
    if known.all fun k => decide ((named.countP fun f => f.1 == k) ≤ 1) then some named
    else none
  | list items => if items.length ≤ known.length then some (known.zip items) else none
  | _ => none

/-- One field of a structure, with the value that it has if it is missing. -/
def fieldOr {α : Type} (fields : List (String × Document)) (name : String)
    (read : Document → Option α) (missing : α) : Option α :=
  match fields.lookup name with
  | some d => read d
  | none => some missing

end Document

end Resumable
