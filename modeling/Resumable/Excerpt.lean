import Resumable.Text.Lines

/-!
Excerpts of a source text around the place of an error.
-/

namespace Resumable.Excerpt

/-- The number of lines that are shown before and after the line of the error. -/
def margin : Nat := 3

/-- A line with its number, and under it the mark of a column if there is one. -/
def row (width number : Nat) (mark : Option Nat) (line : String) : String :=
  let head := Text.padLeft width (toString number) ++ " | " ++ line ++ "\n"
  match mark with
  | some column =>
    head ++ Text.fill ' ' width ++ " | " ++ Text.fill ' ' (column - 1) ++ "^\n"
  | none => head

/-- The lines of `source` around the given one, between rules. There is no excerpt for a line that
the text does not have. -/
def around (source : String) (line : Nat) (column : Option Nat) : String :=
  let lines := Text.lines source
  if line = 0 ∨ lines.length < line then ""
  else
    let first := max (line - margin) 1
    let last := min (line + margin) lines.length
    let width := (toString last).length
    let rule := Text.fill '-' (width + 1) ++ "|--\n"
    let shown := (lines.drop (first - 1)).take (last + 1 - first)
    let rows := (shown.zipIdx first).map fun (text, number) =>
      row width number (if number = line then column else none) text
    rule ++ String.join rows ++ rule

end Resumable.Excerpt
