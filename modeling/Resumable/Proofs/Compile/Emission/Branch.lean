import Resumable.Proofs.Compile.Emission

/-!
Compiling a conditional. A jump is written open and completed later, so its operand is not settled by
the step that writes it. What lies before the jump and behind it is.
-/

namespace Resumable

open CompileState

namespace Compile

variable {P : Expr → Prop} {o : CompileOptions} {s s' : CompileState}

/-- What the finished code keeps of a state, on the bytes from `first` up to `last`. -/
structure Keeps (s s' : CompileState) (first last : Nat) : Prop where
  agrees : s.code.AgreesOn s'.code first last
  size_le : s.code.size ≤ s'.code.size
  constants : ∀ (i : Nat) (v : Value), s.code.constants[i]? = some v → s'.code.constants[i]? = some v
  peak : s.scopes.current.peak ≤ s'.scopes.current.peak
  captures : s.scopes.current.captures ⊆ s'.scopes.current.captures
  names : ∀ name symbol, s.names.find? name = some symbol → s'.names.find? name = some symbol
  errors : s'.errors = [] → s.errors = []

theorem Keeps.of_advances (hadvances : s.Advances s') {first last : Nat}
    (hlast : last ≤ s.code.size) : Keeps s s' first last where
  agrees := hadvances.grows.agrees.mono (Nat.zero_le _) hlast
  size_le := hadvances.grows.size_le
  constants := hadvances.constants
  peak := hadvances.peak
  captures := hadvances.captures
  names := hadvances.names
  errors := hadvances.errors

theorem Keeps.trans {s'' : CompileState} {first last : Nat} (h : Keeps s s' first last)
    (h' : Keeps s' s'' first last) : Keeps s s'' first last where
  agrees := h.agrees.trans h'.agrees
  size_le := Nat.le_trans h.size_le h'.size_le
  constants := fun i v hv => h'.constants i v (h.constants i v hv)
  peak := Nat.le_trans h.peak h'.peak
  captures := List.Subset.trans h.captures h'.captures
  names := fun name symbol hname => h'.names name symbol (h.names name symbol hname)
  errors := fun hclean => h.errors (h'.errors hclean)

theorem Keeps.settles {first first' : Nat} {names : Names} {code : Code Value}
    (hkeeps : Keeps s s' first s.code.size) (hsettles : s'.Settles first' names code)
    (hfirst : first' ≤ first) : s.Settles first names code where
  agrees := hkeeps.agrees.trans (hsettles.agrees.mono hfirst hkeeps.size_le)
  constants := fun i v hv => hsettles.constants i v (hkeeps.constants i v hv)
  peak := Nat.le_trans hkeeps.peak hsettles.peak
  captures := List.Subset.trans hkeeps.captures hsettles.captures
  names := fun name symbol hname => hsettles.names name symbol (hkeeps.names name symbol hname)

/-- The jump at `start` has been completed; nothing else has changed. -/
structure Patches (start : Nat) (s s' : CompileState) : Prop where
  size : s'.code.size = s.code.size
  constants : s'.code.constants = s.code.constants
  header : s'.code.header = s.code.header
  lined : s.code.Lined → s'.code.Lined
  scopes : s'.scopes = s.scopes
  names : s'.names = s.names
  supply : s'.supply = s.supply
  errors : s'.errors = [] → s.errors = []
  agrees : ∀ first last, last ≤ start + 1 ∨ start + 3 ≤ first →
    s.code.AgreesOn s'.code first last
  jump : s'.errors = [] → ∀ op operand line, op.width = 2 → s.code.At start op operand line →
    s'.code.At start op (s.code.size - start) line

theorem patch_patches {start line : Nat} {u : Unit} (hrun : patch start line s = .ok u s') :
    Patches start s s' := by
  simp only [patch, bind_get_run] at hrun
  cases hdistance : s.code.jumpDistance start with
  | ok distance =>
    simp only [hdistance] at hrun
    cases hrun
    unfold Code.jumpDistance at hdistance
    simp only at hdistance
    split at hdistance
    next hlt =>
      cases hdistance
      exact
        { size := by simp
          constants := rfl
          header := rfl
          lined := fun hlined => hlined.setJump _ _
          scopes := rfl
          names := rfl
          supply := rfl
          errors := id
          agrees := fun first last houtside => Code.setJump_agreesOn _ _ houtside
          jump := fun _ op operand line hwidth hat => Code.setJump_at hwidth hat hlt }
    next => cases hdistance
  | error e =>
    simp only [hdistance, report] at hrun
    split at hrun
    · cases hrun
    · cases hrun
      exact
        { size := rfl
          constants := rfl
          header := rfl
          lined := id
          scopes := rfl
          names := rfl
          supply := rfl
          errors := by simp
          agrees := fun _ _ _ _ _ _ => ⟨rfl, rfl⟩
          jump := by simp }

theorem Patches.keeps {start first last : Nat} (hpatches : Patches start s s')
    (houtside : last ≤ start + 1 ∨ start + 3 ≤ first) : Keeps s s' first last where
  agrees := hpatches.agrees first last houtside
  size_le := Nat.le_of_eq hpatches.size.symm
  constants := fun i v hv => by rw [hpatches.constants]; exact hv
  peak := Nat.le_of_eq (by rw [hpatches.scopes])
  captures := by rw [hpatches.scopes]; exact List.Subset.refl _
  names := fun name symbol hname => by rw [hpatches.names]; exact hname
  errors := hpatches.errors

/-- Completing a jump that was written since `s`. -/
theorem Patches.advances {s₁ s₂ : CompileState} {start : Nat} (hpatches : Patches start s₁ s₂)
    (hadvances : s.Advances s₁) (hstart : s.code.size ≤ start) : s.Advances s₂ where
  wellFormed := by
    obtain ⟨hlined, hscopes⟩ := hadvances.wellFormed
    exact ⟨hpatches.lined hlined, by rw [hpatches.scopes]; exact hscopes⟩
  errors := fun hclean => hadvances.errors (hpatches.errors hclean)
  names := fun name symbol hname => by rw [hpatches.names]; exact hadvances.names name symbol hname
  coherent := by rw [hpatches.names, hpatches.supply]; exact hadvances.coherent
  objects := by rw [hpatches.supply]; exact hadvances.objects
  grows :=
    { size_le := by rw [hpatches.size]; exact hadvances.grows.size_le
      agrees := hadvances.grows.agrees.trans (hpatches.agrees _ _ (Or.inl (by omega)))
      lined := fun hlined => hpatches.lined (hadvances.grows.lined hlined) }
  constants := fun i v hv => by rw [hpatches.constants]; exact hadvances.constants i v hv
  header := hpatches.header.trans hadvances.header
  lexical := by rw [hpatches.scopes]; exact hadvances.lexical
  peak := by rw [hpatches.scopes]; exact hadvances.peak
  captures := by rw [hpatches.scopes]; exact hadvances.captures
  outer := by rw [Scopes.OuterGrows, hpatches.scopes]; exact hadvances.outer

/-- An open jump. -/
structure Opened (op : Op) (line : Nat) (start : Nat) (s s' : CompileState) : Prop where
  start_eq : start = s.code.size
  advances : s.Advances s'
  size : s'.code.size = s.code.size + 3
  constants : s'.code.constants = s.code.constants
  scopes : s'.scopes = s.scopes
  jump : s'.code.At start op 65535 line

theorem emitJump_opened (hs : s.WellFormed) {op : Op} (hwidth : op.width = 2) {line start : Nat}
    (hrun : emitJump op line s = .ok start s') : Opened op line start s s' := by
  simp only [emitJump, modifyGet_run] at hrun
  cases hrun
  exact
    { start_eq := rfl
      advances := advances_write hs (Code.writeWide_grows hs.lined op 65535 line) rfl rfl
      size := by simp [Code.writeJump]
      constants := rfl
      scopes := rfl
      jump := Code.writeWide_at hs.lined hwidth 65535 line }

/-- The two jumps of a conditional, with what stands between them. -/
theorem cond_emits {s₁ s₂ s₃ s₄ s₅ s₆ s₇ : CompileState} {line toElse toEnd : Nat} {u u' : Unit}
    {test whenTrue whenFalse : Names → Code Value → Prop} (htest : Emits P o s s₁ test)
    (hopenElse : emitJump .jumpIfFalse line s₁ = .ok toElse s₂) (htrue : Emits P o s₂ s₃ whenTrue)
    (hopenEnd : emitJump .jump line s₃ = .ok toEnd s₄)
    (hpatchElse : patch toElse line s₄ = .ok u s₅) (hfalse : Emits P o s₅ s₆ whenFalse)
    (hpatchEnd : patch toEnd line s₆ = .ok u' s₇) :
    Emits P o s s₇ fun names code =>
      test names code ∧ whenTrue names code ∧ whenFalse names code ∧
        code.At s₁.code.size .jumpIfFalse (s₄.code.size - s₁.code.size) line ∧
        code.At s₃.code.size .jump (s₆.code.size - s₃.code.size) line := by
  have hopenElse := emitJump_opened htest.advances.wellFormed rfl hopenElse
  have hopenEnd := emitJump_opened htrue.advances.wellFormed rfl hopenEnd
  have hpatchElse := patch_patches hpatchElse
  have hpatchEnd := patch_patches hpatchEnd
  obtain rfl := hopenElse.start_eq
  obtain rfl := hopenEnd.start_eq
  have hsize₁ := htest.advances.grows.size_le
  have hsize₂ := hopenElse.size
  have hsize₃ := htrue.advances.grows.size_le
  have hsize₄ := hopenEnd.size
  have hsize₅ := hpatchElse.size
  have hsize₆ := hfalse.advances.grows.size_le
  have hsize₇ := hpatchEnd.size
  -- What each of the seven states keeps up to the end, on the part that it has written.
  have hkeeps₆ : Keeps s₆ s₇ s₅.code.size s₆.code.size := hpatchEnd.keeps (Or.inr (by omega))
  have hkeeps₃ : Keeps s₃ s₇ s₂.code.size s₃.code.size :=
    ((((Keeps.of_advances hopenEnd.advances (Nat.le_refl _)).trans
      (hpatchElse.keeps (Or.inr (by omega)))).trans
      (Keeps.of_advances hfalse.advances (by omega))).trans
      (hpatchEnd.keeps (Or.inl (by omega))))
  have hkeeps₁ : Keeps s₁ s₇ s.code.size s₁.code.size :=
    (((((Keeps.of_advances hopenElse.advances (Nat.le_refl _)).trans
      (Keeps.of_advances htrue.advances (by omega))).trans
      (Keeps.of_advances hopenEnd.advances (by omega))).trans
      (hpatchElse.keeps (Or.inl (by omega)))).trans
      (Keeps.of_advances hfalse.advances (by omega))).trans
      (hpatchEnd.keeps (Or.inl (by omega)))
  have hadvances : s.Advances s₇ := by
    have hbefore := htest.advances.trans
      (hopenElse.advances.trans (htrue.advances.trans hopenEnd.advances))
    have hafter := (hpatchElse.advances hbefore (by omega)).trans hfalse.advances
    exact hpatchEnd.advances hafter (by omega)
  refine ⟨hadvances, ?_, ?_⟩
  · intro hclean names code hsettles
    have hclean₆ := hpatchEnd.errors hclean
    have hclean₅ := hfalse.advances.errors hclean₆
    refine ⟨?_, ?_, ?_, ?_, ?_⟩
    · exact htest.laidOut (hkeeps₁.errors hclean) names code
        (hkeeps₁.settles hsettles (Nat.le_refl _))
    · exact htrue.laidOut (hkeeps₃.errors hclean) names code
        (hkeeps₃.settles hsettles (by omega))
    · exact hfalse.laidOut hclean₆ names code (hkeeps₆.settles hsettles (by omega))
    · have hjump : s₄.code.At s₁.code.size .jumpIfFalse 65535 line := by
        have hkeep : Keeps s₂ s₄ s₁.code.size s₂.code.size :=
          (Keeps.of_advances htrue.advances (Nat.le_refl _)).trans
            (Keeps.of_advances hopenEnd.advances (by omega))
        exact hopenElse.jump.of_agreesOn
          (hkeep.agrees.mono (Nat.le_refl _) hopenElse.jump.end_le_size)
      have hset := hpatchElse.jump hclean₅ .jumpIfFalse 65535 line rfl hjump
      have hkeep : Keeps s₅ s₇ s₁.code.size (s₁.code.size + 1 + 2) :=
        (Keeps.of_advances hfalse.advances (by omega)).trans
          (hpatchEnd.keeps (Or.inl (by omega)))
      exact hsettles.at (by omega) (hset.of_agreesOn hkeep.agrees)
    · have hjump : s₆.code.At s₃.code.size .jump 65535 line := by
        have hkeep : Keeps s₄ s₆ s₃.code.size s₄.code.size :=
          (hpatchElse.keeps (Or.inr (by omega))).trans
            (Keeps.of_advances hfalse.advances (by omega))
        exact hopenEnd.jump.of_agreesOn
          (hkeep.agrees.mono (Nat.le_refl _) hopenEnd.jump.end_le_size)
      exact hsettles.at (by omega) (hpatchEnd.jump hclean .jump 65535 line rfl hjump)
  · intro hclean names code hsettles i v hv
    have hclean₆ := hpatchEnd.errors hclean
    rw [hpatchEnd.constants] at hv
    obtain hv | hlaid :=
      hfalse.constants hclean₆ names code (hkeeps₆.settles hsettles (by omega)) i v hv
    · rw [hpatchElse.constants, hopenEnd.constants] at hv
      obtain hv | hlaid := htrue.constants (hkeeps₃.errors hclean) names code
        (hkeeps₃.settles hsettles (by omega)) i v hv
      · rw [hopenElse.constants] at hv
        exact htest.constants (hkeeps₁.errors hclean) names code
          (hkeeps₁.settles hsettles (Nat.le_refl _)) i v hv
      · exact Or.inr hlaid
    · exact Or.inr hlaid

end Compile

end Resumable
