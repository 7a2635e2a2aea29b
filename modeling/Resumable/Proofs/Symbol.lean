import Mathlib.Tactic.Common
import Resumable.Symbol

/-!
Tables of interned names. A table that has been filled by interning alone gives every name a symbol of
its own.
-/

namespace Resumable

namespace Names

variable {names : Names} {supply : Supply}

/-- Every name has a symbol of its own that carries the name, with a number that has been given
out. -/
structure Coherent (names : Names) (supply : Supply) : Prop where
  named : ∀ name symbol, names.find? name = some symbol → symbol.name = name
  drawn : ∀ name symbol, names.find? name = some symbol → symbol.id < supply.symbols
  distinct : ∀ name name' symbol symbol', names.find? name = some symbol →
    names.find? name' = some symbol' → symbol.id = symbol'.id → name = name'

theorem coherent_empty : ({} : Names).Coherent {} :=
  ⟨nofun, nofun, nofun⟩

/-- In a table, symbols of the same number are the same. -/
theorem Coherent.symbol_ext (hnames : names.Coherent supply) {name name' : String}
    {symbol symbol' : Symbol} (hname : names.find? name = some symbol)
    (hname' : names.find? name' = some symbol') (hsame : (symbol == symbol') = true) :
    symbol = symbol' := by
  have hid : symbol.id = symbol'.id := by simpa [BEq.beq] using hsame
  obtain rfl := hnames.distinct name name' symbol symbol' hname hname' hid
  rw [hname] at hname'
  exact Option.some.inj hname'

theorem Coherent.mono {supply' : Supply} (hnames : names.Coherent supply)
    (hsupply : supply.symbols ≤ supply'.symbols) : names.Coherent supply' :=
  { hnames with
    drawn := fun name symbol hname => Nat.lt_of_lt_of_le (hnames.drawn name symbol hname) hsupply }

theorem find?_cons (name other : String) (symbol : Symbol) (entries : List (String × Symbol)) :
    Names.find? ⟨(name, symbol) :: entries⟩ other =
      if other = name then some symbol else Names.find? ⟨entries⟩ other := by
  simp only [find?, List.lookup_cons]
  split
  next hsame => rw [if_pos (eq_of_beq hsame)]
  next hdifferent => rw [if_neg (by simpa using hdifferent)]

/-- What interning a name does to a table. -/
structure Interned (names : Names) (supply : Supply) (name : String)
    (result : Symbol × Names × Supply) : Prop where
  find_eq : result.2.1.find? name = some result.1
  keeps : ∀ other symbol, names.find? other = some symbol → result.2.1.find? other = some symbol
  coherent : names.Coherent supply → result.2.1.Coherent result.2.2
  symbols : supply.symbols ≤ result.2.2.symbols
  objects : result.2.2.objects = supply.objects

theorem intern_spec (names : Names) (supply : Supply) (name : String) :
    Interned names supply name (names.intern supply name) := by
  unfold intern
  cases hfind : names.find? name with
  | some symbol => exact ⟨hfind, fun _ _ h => h, id, Nat.le_refl _, rfl⟩
  | none =>
    refine ⟨by rw [find?_cons, if_pos rfl], ?_, ?_, Nat.le_succ _, rfl⟩
    · intro other symbol hother
      rw [find?_cons, if_neg]
      · exact hother
      · rintro rfl
        rw [hfind] at hother
        cases hother
    · intro hnames
      have hdrawn : ∀ other symbol, names.find? other = some symbol →
          symbol.id < supply.symbols := hnames.drawn
      refine ⟨?_, ?_, ?_⟩
      · intro other symbol hother
        rw [find?_cons] at hother
        split at hother
        next hsame =>
          cases hother
          exact hsame.symm
        next => exact hnames.named other symbol hother
      · intro other symbol hother
        rw [find?_cons] at hother
        split at hother
        next =>
          cases hother
          exact Nat.lt_succ_self _
        next => exact Nat.lt_succ_of_lt (hdrawn other symbol hother)
      · intro first second symbol symbol' hfirst hsecond hid
        rw [find?_cons] at hfirst hsecond
        split at hfirst <;> split at hsecond
        next h h' => rw [h, h']
        next =>
          cases hfirst
          have hlt := hdrawn second symbol' hsecond
          simp only at hid
          omega
        next =>
          cases hsecond
          have hlt := hdrawn first symbol hfirst
          simp only at hid
          omega
        next => exact hnames.distinct first second symbol symbol' hfirst hsecond hid

end Names

end Resumable
