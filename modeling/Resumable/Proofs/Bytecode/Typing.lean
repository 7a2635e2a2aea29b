import Resumable.Proofs.Compile.Layout

/-!
What the operands of a code object are, offset by offset. A typing gives the kinds of the operands on
the stack before each instruction. An instruction fits its kinds if they end with what it takes; what
it leaves stands before the next instruction, and before the target of a jump.
-/

namespace Resumable

/-- Kinds of operands. Besides values of the program there are the names of fields on their way into
a record, handlers that are about to be installed, and functions that are the clause of a handler. -/
inductive Kind where
  | value
  | key
  | handler
  | clause
deriving DecidableEq

namespace Op

/-- The same operation with a narrow operand. -/
def narrow : Op → Op
  | constantWide => constant
  | loadLocalWide => loadLocal
  | storeLocalWide => storeLocal
  | loadCapturedWide => loadCaptured
  | storeCapturedWide => storeCaptured
  | loadGlobalWide => loadGlobal
  | storeGlobalWide => storeGlobal
  | lambdaWide => lambda
  | getFieldWide => getField
  | op => op

theorem narrow_of_wide? {op wide : Op} (hwide : op.wide? = some wide) : wide.narrow = op := by
  cases op <;> cases hwide <;> rfl

theorem narrow_of_width_one {op : Op} (hwidth : op.width = 1) : op.narrow = op := by
  cases op <;> first | rfl | cases hwidth

theorem eq_call_of_narrow {op : Op} (hnarrow : op.narrow = call) : op = call := by
  cases op <;> first | rfl | cases hnarrow

theorem eq_tailCall_of_narrow {op : Op} (hnarrow : op.narrow = tailCall) : op = tailCall := by
  cases op <;> first | rfl | cases hnarrow

end Op

namespace Value

/-- Whether a constant stands for a literal. -/
def isLiteral : Value → Bool
  | bool _ | int _ | float _ | str _ => true
  | _ => false

end Value

theorem Expr.isLiteral_of_literal? {e : Expr} {v : Value} (hliteral : e.literal? = some v) :
    v.isLiteral = true := by
  cases e <;> cases hliteral <;> rfl

namespace Code

/-- A function made here finds what it captures. -/
def CanSupply (code : Code Value) (c : Capture) : Prop :=
  match c.source with
  | .slot n => n < code.localCount
  | .enclosing => code.Captures c.name

/-- The kinds that an operation without jump takes from the stack and leaves there, the lowest first,
with what its operand must refer to. The clauses of a handler are of kind `κ`. -/
inductive Straight (κ : Kind) (code : Code Value) : Op → Nat → List Kind → List Kind → Prop
  | literal {i : Nat} {v : Value} (hconstant : code.constants[i]? = some v)
    (hliteral : v.isLiteral = true) : Straight κ code .constant i [] [.value]
  | key {i : Nat} {s : Symbol} (hconstant : code.constants[i]? = some (.symbol s)) :
    Straight κ code .constant i [] [.key]
  | pushNone : Straight κ code .pushNone 0 [] [.value]
  | pop : Straight κ code .pop 0 [.value] []
  | loadLocal {n : Nat} (hroom : n < code.localCount) :
    Straight κ code .loadLocal n [] [.value]
  | storeLocal {n : Nat} (hroom : n < code.localCount) :
    Straight κ code .storeLocal n [.value] []
  | loadCaptured {i : Nat} {s : Symbol} (hconstant : code.constants[i]? = some (.symbol s))
    (hcaptures : code.Captures s) : Straight κ code .loadCaptured i [] [.value]
  | storeCaptured {i : Nat} {s : Symbol} (hconstant : code.constants[i]? = some (.symbol s))
    (hcaptures : code.Captures s) : Straight κ code .storeCaptured i [.value] []
  | loadGlobal {i : Nat} {s : Symbol} (hconstant : code.constants[i]? = some (.symbol s)) :
    Straight κ code .loadGlobal i [] [.value]
  | storeGlobal {i : Nat} {s : Symbol} (hconstant : code.constants[i]? = some (.symbol s)) :
    Straight κ code .storeGlobal i [.value] []
  | lambda {i id : Nat} {f : Code Value} {k : Kind}
    (hconstant : code.constants[i]? = some (.code id f))
    (hsupplied : ∀ c ∈ f.captures, code.CanSupply c)
    (hkind : k = .value ∨ k = .clause ∧ f.arity = 2) : Straight κ code .lambda i [] [k]
  | call {n : Nat} : Straight κ code .call n (List.replicate n .value ++ [.value]) [.value]
  | tailCall {n : Nat} :
    Straight κ code .tailCall n (List.replicate n .value ++ [.value]) [.value]
  | buildList {n : Nat} : Straight κ code .buildList n (List.replicate n .value) [.value]
  | buildTuple {n : Nat} : Straight κ code .buildTuple n (List.replicate n .value) [.value]
  | buildRecord {n : Nat} :
    Straight κ code .buildRecord n (List.replicate n [.key, .value]).flatten [.value]
  | getField {i : Nat} {s : Symbol} (hconstant : code.constants[i]? = some (.symbol s)) :
    Straight κ code .getField i [.value] [.value]
  | makeHandler {n : Nat} :
    Straight κ code .makeHandler n (List.replicate n [.value, κ]).flatten [.handler]
  | handle : Straight κ code .handle 0 [.handler, .value] [.value]

/-- The offsets at which instructions start, when they are read one after the other. -/
inductive Starts (code : Code Value) (first : Nat) : Nat → Prop
  | first : Starts code first first
  | next {offset operand line : Nat} {op : Op} (hbefore : Starts code first offset)
    (hat : code.At offset op operand line) : Starts code first (offset + 1 + op.width)

theorem Starts.trans {code : Code Value} {a b c : Nat} (h : code.Starts a b)
    (h' : code.Starts b c) : code.Starts a c := by
  induction h' with
  | first => exact h
  | next _ hat ih => exact .next ih hat

/-- The kinds before each instruction; nothing is said of other offsets. -/
abbrev Typing := Nat → Option (List Kind)

/-- From an offset on, nothing is left to do but to return. -/
inductive Returns (code : Code Value) : Nat → Prop
  | ret {offset line : Nat} (hat : code.At offset .ret 0 line) : Returns code offset
  | jump {offset operand line : Nat} (hat : code.At offset .jump operand line)
    (htarget : Returns code (offset + operand)) : Returns code offset

/-- The instruction at an offset fits the kinds there, and the kinds that it leads to are those of
the typing, not behind `last`. A call in tail position is followed by the return. -/
inductive Checked (κ : Kind) (code : Code Value) (H : Typing) (last offset : Nat) :
    List Kind → Prop
  | straight {op : Op} {operand line : Nat} {below takes leaves : List Kind}
    (hat : code.At offset op operand line)
    (hstraight : code.Straight κ op.narrow operand takes leaves)
    (htail : op = .tailCall → code.Returns (offset + 2))
    (hnext : H (offset + 1 + op.width) = some (below ++ leaves))
    (hlast : offset + 1 + op.width ≤ last) : Checked κ code H last offset (below ++ takes)
  | jump {operand line : Nat} {kinds kinds' : List Kind} (hat : code.At offset .jump operand line)
    (hpos : 0 < operand) (htarget : H (offset + operand) = some kinds)
    (hreach : offset + operand ≤ last) (hnext : H (offset + 3) = some kinds')
    (hlast : offset + 3 ≤ last) : Checked κ code H last offset kinds
  | branch {operand line : Nat} {below : List Kind}
    (hat : code.At offset .jumpIfFalse operand line) (hpos : 0 < operand)
    (htarget : H (offset + operand) = some below) (hreach : offset + operand ≤ last)
    (hnext : H (offset + 3) = some below) (hlast : offset + 3 ≤ last) :
    Checked κ code H last offset (below ++ [.value])

/-- Whether a typing is right only depends on what it says of the offsets ahead. -/
theorem Checked.congr {κ : Kind} {code : Code Value} {H H' : Typing} {last last' offset : Nat}
    {kinds : List Kind} (hchecked : code.Checked κ H last offset kinds)
    (hlast : last ≤ last') (hsame : ∀ o, offset < o → o ≤ last → H' o = H o) :
    code.Checked κ H' last' offset kinds := by
  cases hchecked with
  | straight hat hstraight htail hnext hend =>
    rw [← hsame _ (by omega) hend] at hnext
    exact .straight hat hstraight htail hnext (by omega)
  | jump hat hpos htarget hreach hnext hend =>
    rw [← hsame _ (by omega) hreach] at htarget
    rw [← hsame _ (by omega) hend] at hnext
    exact .jump hat hpos htarget (by omega) hnext (by omega)
  | branch hat hpos htarget hreach hnext hend =>
    rw [← hsame _ (by omega) hreach] at htarget
    rw [← hsame _ (by omega) hend] at hnext
    exact .branch hat hpos htarget (by omega) hnext (by omega)

/-- A typing is right from an offset up to another, where its kinds are `before` and `after`. -/
structure TypedBy (κ : Kind) (code : Code Value) (H : Typing) (first last : Nat)
    (before after : List Kind) : Prop where
  le : first ≤ last
  start : H first = some before
  stop : H last = some after
  starts : ∀ o kinds, first ≤ o → o ≤ last → H o = some kinds → code.Starts first o
  checked : ∀ o kinds, first ≤ o → o < last → H o = some kinds →
    code.Checked κ H last o kinds

/-- There is a typing from an offset up to another. -/
def Typed (κ : Kind) (code : Code Value) (first last : Nat) (before after : List Kind) :
    Prop :=
  ∃ H, code.TypedBy κ H first last before after

namespace Typed

variable {κ : Kind} {code : Code Value} {a b c d : Nat} {σ τ υ : List Kind}

/-- Nothing at all. -/
theorem refl (κ : Kind) (code : Code Value) (a : Nat) (σ : List Kind) :
    code.Typed κ a a σ σ := by
  refine ⟨fun _ => some σ, Nat.le_refl _, rfl, rfl, ?_, ?_⟩
  · intro o kinds hfirst hlast _
    obtain rfl : o = a := by omega
    exact .first
  · intro o kinds hfirst hlast
    omega

/-- One part after the other. -/
theorem append (h : code.Typed κ a b σ τ) (h' : code.Typed κ b c τ υ) :
    code.Typed κ a c σ υ := by
  obtain ⟨H, h⟩ := h
  obtain ⟨H', h'⟩ := h'
  have hab := h.le
  have hbc := h'.le
  have hmeet : H b = H' b := h.stop.trans h'.start.symm
  have hjoin : code.Starts a b := h.starts b τ hab (Nat.le_refl _) h.stop
  have hleft : ∀ o, o ≤ b → (if o < b then H o else H' o) = H o := by
    intro o ho
    split
    · rfl
    · obtain rfl : o = b := by omega
      exact hmeet.symm
  have hright : ∀ o, b ≤ o → (if o < b then H o else H' o) = H' o := by
    intro o ho
    rw [if_neg (by omega)]
  refine ⟨fun o => if o < b then H o else H' o, by omega, ?_, ?_, ?_, ?_⟩
  · exact (hleft a hab).trans h.start
  · exact (hright c hbc).trans h'.stop
  · intro o kinds hfirst hlast hkinds
    by_cases ho : o < b
    · rw [hleft o (by omega)] at hkinds
      exact h.starts o kinds hfirst (by omega) hkinds
    · rw [hright o (by omega)] at hkinds
      exact hjoin.trans (h'.starts o kinds (by omega) hlast hkinds)
  · intro o kinds hfirst hlast hkinds
    by_cases ho : o < b
    · rw [hleft o (by omega)] at hkinds
      exact (h.checked o kinds hfirst ho hkinds).congr hbc fun o' _ hle => hleft o' hle
    · rw [hright o (by omega)] at hkinds
      exact (h'.checked o kinds (by omega) hlast hkinds).congr (Nat.le_refl _)
        fun o' hlt _ => hright o' (by omega)

/-- One instruction without jump. -/
theorem straight {op : Op} {operand line : Nat} {takes leaves : List Kind}
    (hat : code.At a op operand line)
    (hstraight : code.Straight κ op.narrow operand takes leaves)
    (htail : op = .tailCall → code.Returns (a + 2)) (below : List Kind) :
    code.Typed κ a (a + 1 + op.width) (below ++ takes) (below ++ leaves) := by
  refine ⟨fun o => if o = a then some (below ++ takes)
    else if o = a + 1 + op.width then some (below ++ leaves) else none, by omega, ?_, ?_, ?_, ?_⟩
  · rw [if_pos rfl]
  · rw [if_neg (by omega), if_pos rfl]
  · intro o kinds hfirst hlast hkinds
    split at hkinds
    next ho =>
      subst ho
      exact .first
    next =>
      split at hkinds
      next ho =>
        subst ho
        exact .next .first hat
      next => cases hkinds
  · intro o kinds hfirst hlast hkinds
    split at hkinds
    next ho =>
      subst ho
      cases hkinds
      exact .straight hat hstraight htail (by rw [if_neg (by omega), if_pos rfl]) (Nat.le_refl _)
    next => rw [if_neg (by omega)] at hkinds; cases hkinds

/-- One instruction on an index. -/
theorem indexed {op : Op} {index line : Nat} {takes leaves : List Kind}
    (hat : code.Indexed a op index line b) (hstraight : code.Straight κ op index takes leaves)
    (hop : op ≠ .tailCall) (below : List Kind) :
    code.Typed κ a b (below ++ takes) (below ++ leaves) := by
  cases hat with
  | narrow hwidth hat =>
    rw [← Op.narrow_of_width_one hwidth] at hstraight
    have htyped := straight hat hstraight (fun h => absurd h hop) below
    rwa [hwidth] at htyped
  | @wide wide hwide hat =>
    rw [← Op.narrow_of_wide? hwide] at hstraight
    have hplain : wide = .tailCall → code.Returns (a + 2) := by
      rintro rfl
      cases (Op.width_of_wide? hwide).2
    have htyped := straight hat hstraight hplain below
    rwa [(Op.width_of_wide? hwide).2] at htyped

/-- A conditional: both ways come to the same kinds. -/
theorem cond {m n line : Nat} (htest : code.Typed κ a b σ (τ ++ [.value]))
    (hatElse : code.At b .jumpIfFalse m line) (hm : b + m = c + 3)
    (htrue : code.Typed κ (b + 3) c τ υ) (hatEnd : code.At c .jump n line) (hn : c + n = d)
    (hfalse : code.Typed κ (c + 3) d τ υ) : code.Typed κ a d σ υ := by
  obtain ⟨H₁, h₁⟩ := htest
  obtain ⟨H₂, h₂⟩ := htrue
  obtain ⟨H₃, h₃⟩ := hfalse
  have hab := h₁.le
  have hbc := h₂.le
  have hcd := h₃.le
  obtain ⟨H, hH⟩ : ∃ H : Typing, H = fun o => if o ≤ b then H₁ o else if o < b + 3 then none
    else if o ≤ c then H₂ o else if o < c + 3 then none else H₃ o := ⟨_, rfl⟩
  have hin₁ : ∀ o, o ≤ b → H o = H₁ o := by
    intro o ho
    rw [hH]
    exact if_pos ho
  have hin₂ : ∀ o, b + 3 ≤ o → o ≤ c → H o = H₂ o := by
    intro o ho ho'
    simp only [hH]
    rw [if_neg (by omega), if_neg (by omega), if_pos ho']
  have hin₃ : ∀ o, c + 3 ≤ o → H o = H₃ o := by
    intro o ho
    simp only [hH]
    rw [if_neg (by omega), if_neg (by omega), if_neg (by omega), if_neg (by omega)]
  have hgap : ∀ o kinds, H o = some kinds → o ≤ b ∨ b + 3 ≤ o ∧ o ≤ c ∨ c + 3 ≤ o := by
    intro o kinds hkinds
    simp only [hH] at hkinds
    split at hkinds
    · omega
    split at hkinds
    · cases hkinds
    split at hkinds
    · omega
    split at hkinds
    · cases hkinds
    · omega
  have hb : code.Starts a b := h₁.starts b _ hab (Nat.le_refl _) h₁.stop
  have hb' : code.Starts a (b + 3) := .next hb hatElse
  have hc : code.Starts a c := hb'.trans (h₂.starts c _ hbc (Nat.le_refl _) h₂.stop)
  have hc' : code.Starts a (c + 3) := .next hc hatEnd
  refine ⟨H, by omega, ?_, ?_, ?_, ?_⟩
  · exact (hin₁ a hab).trans h₁.start
  · exact (hin₃ d hcd).trans h₃.stop
  · intro o kinds hfirst hlast hkinds
    obtain ho | ⟨ho, ho'⟩ | ho := hgap o kinds hkinds
    · rw [hin₁ o ho] at hkinds
      exact h₁.starts o kinds hfirst ho hkinds
    · rw [hin₂ o ho ho'] at hkinds
      exact hb'.trans (h₂.starts o kinds ho ho' hkinds)
    · rw [hin₃ o ho] at hkinds
      exact hc'.trans (h₃.starts o kinds ho hlast hkinds)
  · intro o kinds hfirst hlast hkinds
    obtain ho | ⟨ho, ho'⟩ | ho := hgap o kinds hkinds
    · rw [hin₁ o ho] at hkinds
      by_cases hend : o = b
      · subst hend
        rw [h₁.stop] at hkinds
        cases hkinds
        refine .branch hatElse (by omega) ?_ (by omega) ?_ (by omega)
        · rw [hm, hin₃ _ (Nat.le_refl _)]
          exact h₃.start
        · rw [hin₂ _ (Nat.le_refl _) hbc]
          exact h₂.start
      · exact (h₁.checked o kinds hfirst (by omega) hkinds).congr (by omega)
          fun o' _ hle => hin₁ o' hle
    · rw [hin₂ o ho ho'] at hkinds
      by_cases hend : o = c
      · subst hend
        rw [h₂.stop] at hkinds
        cases hkinds
        refine .jump hatEnd (by omega) ?_ (by omega) ((hin₃ _ (Nat.le_refl _)).trans h₃.start)
          (by omega)
        rw [hn, hin₃ d hcd]
        exact h₃.stop
      · exact (h₂.checked o kinds ho (by omega) hkinds).congr (by omega)
          fun o' hlt hle => hin₂ o' (by omega) hle
    · rw [hin₃ o ho] at hkinds
      exact (h₃.checked o kinds ho hlast hkinds).congr (Nat.le_refl _)
        fun o' hlt _ => hin₃ o' (by omega)

end Typed

/-- A typing of a whole code object: it starts without operands, and its last instruction returns the
only one. -/
structure WellTyped (κ : Kind) (code : Code Value) (H : Typing) (last : Nat) : Prop where
  typed : code.TypedBy κ H 0 last [] [.value]
  ret : ∃ line, code.At last .ret 0 line
  size_eq : code.size = last + 1
  lined : code.Lined
  room : code.params.length + code.selfName.toList.length ≤ code.localCount

/-- Code that is well typed, in which every function finds what it captures and is sound itself. -/
inductive Sound (κ : Kind) : Code Value → Prop
  | intro {code : Code Value} {H : Typing} {last : Nat} (htyped : code.WellTyped κ H last)
    (hsupplied : ∀ id f, Value.code id f ∈ code.constants → ∀ c ∈ f.captures, code.CanSupply c)
    (hnested : ∀ id f, Value.code id f ∈ code.constants → Sound κ f) : Sound κ code

end Code

end Resumable
