/-!
Searching a text for another one.
-/

namespace Resumable.Text

/-- The rest of `cs` after the characters `key`, if `cs` starts with them. -/
def after? : (key cs : List Char) → Option (List Char)
  | [], cs => some cs
  | _ :: _, [] => none
  | k :: ks, c :: cs => if k = c then after? ks cs else none

/-- Whether the characters `key` occur in a row. -/
def occursIn (key : List Char) : List Char → Bool
  | [] => key.isEmpty
  | c :: cs => (after? key (c :: cs)).isSome || occursIn key cs

/-- The pieces between the occurrences of `key`, found from left to right without overlap. The
current piece is held in `piece`, its last character first; `skip` characters still belong to the
occurrence found last. -/
def splitFrom (key : List Char) (done : List String) (piece : List Char) :
    (skip : Nat) → List Char → List String
  | _, [] => (String.ofList piece.reverse :: done).reverse
  | skip + 1, _ :: cs => splitFrom key done piece skip cs
  | 0, c :: cs =>
    if (after? key (c :: cs)).isSome then
      splitFrom key (String.ofList piece.reverse :: done) [] (key.length - 1) cs
    else splitFrom key done (c :: piece) 0 cs

/-- Whether `key` occurs in `s`; the empty text occurs everywhere. -/
def contains (s key : String) : Bool :=
  occursIn key.toList s.toList

/-- The pieces of `s` between the occurrences of the separator, which must not be empty. -/
def split (s separator : String) : List String :=
  splitFrom separator.toList [] [] 0 s.toList

end Resumable.Text
