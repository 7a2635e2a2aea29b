/-!
Lines of a text and columns of fixed width.
-/

namespace Resumable.Text

/-- The line without a carriage return at its end. -/
def dropReturn (line : List Char) : List Char :=
  match line.reverse with
  | '\r' :: rest => rest.reverse
  | _ => line

/-- Lines of the characters that follow; `line` holds the current one, its last character first,
and `done` the finished ones, the last first. A line feed ends a line, together with a carriage
return right before it; the end of the text ends a line unless it is empty. -/
def linesFrom (done : List String) (line : List Char) : List Char → List String
  | [] => (if line.isEmpty then done else String.ofList line.reverse :: done).reverse
  | c :: rest =>
    if c = '\n' then linesFrom (String.ofList (dropReturn line.reverse) :: done) [] rest
    else linesFrom done (c :: line) rest

/-- The lines of a text, without their ends. -/
def lines (s : String) : List String :=
  linesFrom [] [] s.toList

/-- A text of `n` copies of one character. -/
def fill (c : Char) (n : Nat) : String :=
  String.ofList (List.replicate n c)

/-- The text moved right with spaces to the given width. -/
def padLeft (width : Nat) (s : String) : String :=
  fill ' ' (width - s.length) ++ s

/-- The text followed by spaces up to the given width. -/
def padRight (width : Nat) (s : String) : String :=
  s ++ fill ' ' (width - s.length)

/-- The number with leading zeros up to the given width. -/
def zeroPad (width n : Nat) : String :=
  fill '0' (width - (toString n).length) ++ toString n

end Resumable.Text
