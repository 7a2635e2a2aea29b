/-!
Interned names. A table maps names to symbols, and all tables of one family draw their numbers
from one supply, so that symbols of different tables never meet by accident.
-/

namespace Resumable

/-- An interned name. Symbols are compared by number alone; the name is carried along for show. -/
structure Symbol where
  id : Nat
  name : String

instance : BEq Symbol :=
  ⟨fun a b => a.id == b.id⟩

/-- The symbol with its number. -/
def Symbol.describe (s : Symbol) : String :=
  "Symbol(" ++ s.name ++ "#" ++ toString s.id ++ ")"

/-- The next unused numbers: those of symbols, and those of the objects that are compared by
identity. -/
structure Supply where
  symbols : Nat := 0
  objects : Nat := 0

/-- A fresh identity. -/
def Supply.draw (s : Supply) : Nat × Supply :=
  (s.objects, { s with objects := s.objects + 1 })

/-- A table of interned names, the latest first. -/
structure Names where
  entries : List (String × Symbol) := []

namespace Names

/-- The symbol of a name that is already interned. -/
def find? (names : Names) (name : String) : Option Symbol :=
  names.entries.lookup name

/-- The number of interned names. -/
def size (names : Names) : Nat :=
  names.entries.length

/-- The symbol of a name, which is entered with a fresh number if the table does not know it. -/
def intern (names : Names) (supply : Supply) (name : String) : Symbol × Names × Supply :=
  match names.find? name with
  | some symbol => (symbol, names, supply)
  | none =>
    let symbol : Symbol := ⟨supply.symbols, name⟩
    (symbol, ⟨(name, symbol) :: names.entries⟩, { supply with symbols := supply.symbols + 1 })

end Names

end Resumable
