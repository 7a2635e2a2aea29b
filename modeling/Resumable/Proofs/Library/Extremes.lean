import Mathlib.Order.RelClasses
import Resumable.Library
import Resumable.Proofs.Number.Nearest

/-!
The smaller and the larger of two integers. Integers are compared as doubles, so two of more than 53
bits may be taken for the same, and then the first is kept. All others are told apart.
-/

namespace Resumable

namespace Number

/-- The first of two values if it is in the relation to the second, otherwise the second. -/
def prefer {α : Type} (r : α → α → Prop) [DecidableRel r] (a b : α) : α :=
  if r a b then a else b

/-- Of several values the first is taken that is in the relation to all, however they are grouped. -/
theorem prefer_assoc {α : Type} {r : α → α → Prop} [DecidableRel r] [IsTrans α r] [Std.Total r]
    (a b c : α) : prefer r (prefer r a b) c = prefer r a (prefer r b c) := by
  unfold prefer
  by_cases hab : r a b <;> by_cases hbc : r b c
  · have hac : r a c := IsTrans.trans _ _ _ hab hbc
    rw [if_pos hab, if_pos hbc, if_pos hab, if_pos hac]
  · rw [if_pos hab, if_neg hbc]
  · rw [if_neg hab, if_pos hbc, if_neg hab]
  · have hac : ¬ r a c := fun hac =>
      hab (IsTrans.trans _ _ _ hac ((Std.Total.total b c).resolve_left hbc))
    rw [if_neg hab, if_neg hbc, if_neg hac]

/-- One integer is less than another, or the same as a double. -/
def AtMost (a b : Int64) : Prop :=
  ofInt a = ofInt b ∨ a < b

instance : DecidableRel AtMost := fun a b =>
  inferInstanceAs (Decidable (ofInt a = ofInt b ∨ a < b))

/-- Doubles keep the order of integers, apart from those that they do not tell apart. -/
theorem ofInt_le_iff_atMost (a b : Int64) : ofInt a ≤ ofInt b ↔ AtMost a b := by
  rw [AtMost, ofInt_le_iff, ofInt_eq_iff, Int64.lt_iff_toInt_lt]
  constructor
  · intro h
    by_contra hnot
    have hmono : signedPlace b.toInt ≤ signedPlace a.toInt := signedPlace_mono (by omega)
    omega
  · rintro (h | h)
    · exact h.le
    · exact signedPlace_mono h.le

instance : IsTrans Int64 AtMost where
  trans a b c hab hbc := by
    rw [← ofInt_le_iff_atMost, ofInt_le_iff] at *
    exact hab.trans hbc

instance : Std.Total AtMost where
  total a b := by
    rw [← ofInt_le_iff_atMost, ← ofInt_le_iff_atMost, ofInt_le_iff, ofInt_le_iff]
    exact Int.le_total _ _

theorem AtMost.near {a b : Int64} (h : AtMost a b) : a.toInt ≤ b.toInt + 2 ^ 10 := by
  obtain heq | hlt := h
  · exact near_of_ofInt_eq heq
  · rw [Int64.lt_iff_toInt_lt] at hlt
    omega

theorem le_of_not_atMost {a b : Int64} (h : ¬ AtMost a b) : b.toInt ≤ a.toInt := by
  rw [AtMost, not_or, Int64.not_lt, Int64.le_iff_toInt_le] at h
  exact h.2

/-- The smaller of two integers, but the first of two that are the same as doubles. -/
def lesser : Int64 → Int64 → Int64 :=
  prefer AtMost

/-- The larger of two integers, but the first of two that are the same as doubles. -/
def greater : Int64 → Int64 → Int64 :=
  prefer (Function.swap AtMost)

theorem lesser_near (a b : Int64) : (lesser a b).toInt ≤ min a.toInt b.toInt + 2 ^ 10 := by
  unfold lesser prefer
  split_ifs with h
  · have hnear := h.near
    omega
  · have hle := le_of_not_atMost h
    omega

theorem greater_near (a b : Int64) : max a.toInt b.toInt ≤ (greater a b).toInt + 2 ^ 10 := by
  unfold greater prefer Function.swap
  split_ifs with h
  · have hnear := h.near
    omega
  · have hle := le_of_not_atMost h
    omega

section Apart

variable {a b : Int64} (h : ofInt a = ofInt b → a = b)

include h

theorem atMost_iff_le : AtMost a b ↔ a.toInt ≤ b.toInt := by
  rw [AtMost, ← Int64.le_iff_toInt_le, Int64.le_iff_lt_or_eq, or_comm]
  exact or_congr_right ⟨h, congrArg ofInt⟩

theorem toInt_lesser : (lesser a b).toInt = min a.toInt b.toInt := by
  unfold lesser prefer
  rw [if_congr (atMost_iff_le h) rfl rfl, apply_ite Int64.toInt, Int.min_def]

theorem toInt_greater : (greater a b).toInt = max a.toInt b.toInt := by
  unfold greater prefer Function.swap
  rw [if_congr (atMost_iff_le fun heq => (h heq.symm).symm) rfl rfl, apply_ite Int64.toInt,
    Int.max_comm, Int.max_def]

theorem lesser_comm : lesser a b = lesser b a := by
  rw [← Int64.toInt_inj, toInt_lesser h, toInt_lesser fun heq => (h heq.symm).symm, Int.min_comm]

theorem greater_comm : greater a b = greater b a := by
  rw [← Int64.toInt_inj, toInt_greater h, toInt_greater fun heq => (h heq.symm).symm, Int.max_comm]

end Apart

end Number

open Number

/-- A function that picks one of two numbers picks by the doubles of integers. -/
theorem Library.pick_of_ints {keep : Float → Float → Bool} {r : Int64 → Int64 → Prop} [DecidableRel r]
    {a b : Int64} (hkeep : keep (ofInt a) (ofInt b) = true ↔ r a b) (function : String) :
    Library.pick function keep (.int a) (.int b) = .ok (.int (prefer r a b)) := by
  have hpick : Library.pick function keep (.int a) (.int b) =
      .ok (if keep (ofInt a) (ofInt b) then .int a else .int b) := rfl
  rw [hpick, if_congr hkeep rfl rfl, prefer, apply_ite Value.int]

theorem Native.smaller_of_ints (name : String) (a b : Int64) (w : World) :
    smaller.invoke name [.int a, .int b] w = .ok (.value (.int (lesser a b))) w := by
  have hpick : Library.pick "min" (fun x y => decide (x ≤ y)) (.int a) (.int b) =
      .ok (.int (lesser a b)) :=
    Library.pick_of_ints (decide_eq_true_iff.trans (ofInt_le_iff_atMost a b)) "min"
  exact congrArg (Act.ofExcept · w) hpick

theorem Native.larger_of_ints (name : String) (a b : Int64) (w : World) :
    larger.invoke name [.int a, .int b] w = .ok (.value (.int (greater a b))) w := by
  have hpick : Library.pick "max" (fun x y => decide (y ≤ x)) (.int a) (.int b) =
      .ok (.int (greater a b)) :=
    Library.pick_of_ints (decide_eq_true_iff.trans (ofInt_le_iff_atMost b a)) "max"
  exact congrArg (Act.ofExcept · w) hpick

theorem Native.less_of_ints (name : String) (a b : Int64) (w : World) :
    (compare .less).invoke name [.int a, .int b] w = .ok (.value (.bool (decide (a < b)))) w := by
  have hless : Comparison.less.holds (if a < b then .lt else if b < a then .gt else .eq) =
      decide (a < b) := by
    split_ifs with hlt hgt
    · exact (decide_eq_true hlt).symm
    · exact (decide_eq_false hlt).symm
    · exact (decide_eq_false hlt).symm
  exact congrArg (fun test => Act.ofExcept (.ok (.bool test)) w) hless

/-- The smaller and the larger of two integers are exact, and do not depend on their order, unless the
integers are different and yet the same as doubles. Then the first is both, and it is at most 1024
away; integers of at most 53 bits are never the same. The test `<` is always exact. -/
theorem Native.extremes_of_ints (name : String) (a b : Int64) (w : World) :
    smaller.invoke name [.int a, .int b] w = .ok (.value (.int (lesser a b))) w ∧
    larger.invoke name [.int a, .int b] w = .ok (.value (.int (greater a b))) w ∧
    (compare .less).invoke name [.int a, .int b] w = .ok (.value (.bool (decide (a < b)))) w ∧
    (∀ c, lesser (lesser a b) c = lesser a (lesser b c) ∧
      greater (greater a b) c = greater a (greater b c)) ∧
    ((ofInt a = ofInt b → a = b) →
      (lesser a b).toInt = min a.toInt b.toInt ∧ (greater a b).toInt = max a.toInt b.toInt ∧
      lesser a b = lesser b a ∧ greater a b = greater b a) ∧
    ((lesser a b).toInt ≤ min a.toInt b.toInt + 2 ^ 10 ∧
      max a.toInt b.toInt ≤ (greater a b).toInt + 2 ^ 10) ∧
    (a.toInt.natAbs ≤ 2 ^ 53 → b.toInt.natAbs ≤ 2 ^ 53 → ofInt a = ofInt b → a = b) :=
  ⟨smaller_of_ints name a b w, larger_of_ints name a b w, less_of_ints name a b w,
    fun c => ⟨prefer_assoc a b c, prefer_assoc a b c⟩,
    fun h => ⟨toInt_lesser h, toInt_greater h, lesser_comm h, greater_comm h⟩,
    ⟨lesser_near a b, greater_near a b⟩, eq_of_ofInt_eq⟩

theorem Native.extremes_of_ints_small :
    (3 : Int64).toInt.natAbs ≤ 2 ^ 53 ∧ (-1 : Int64).toInt.natAbs ≤ 2 ^ 53 ∧
    smaller.invoke "min" [.int 3, .int (-1)] {} = .ok (.value (.int (-1))) {} ∧
    larger.invoke "max" [.int 3, .int (-1)] {} = .ok (.value (.int 3)) {} := by
  obtain ⟨hmin, -, -, -, hexact, -, hsmall⟩ := extremes_of_ints "min" 3 (-1) {}
  obtain ⟨-, hmax, -⟩ := extremes_of_ints "max" 3 (-1) {}
  obtain ⟨hlesser, hgreater, -, -⟩ := hexact (hsmall (by decide) (by decide))
  have hlesser : lesser 3 (-1) = -1 := Int64.toInt_inj.1 hlesser
  have hgreater : greater 3 (-1) = 3 := Int64.toInt_inj.1 hgreater
  rw [hlesser] at hmin
  rw [hgreater] at hmax
  exact ⟨by decide, by decide, hmin, hmax⟩

/-- An integer of 54 bits is kept although the second one is smaller. -/
example : lesser 9007199254740993 9007199254740992 = 9007199254740993 := by decide +kernel

end Resumable
