import Mathlib.Tactic.Common
import Resumable.Value

/-!
Looking up names in the bindings that a function captured.
-/

namespace Resumable

theorem Symbol.beq_iff {s t : Symbol} : (s == t) = true ↔ s.id = t.id := by
  simp [BEq.beq]

namespace Env

variable {ν : Type} {env env' : Env ν} {s : Symbol} {v : ν}

/-- Names with the same number have the same value. -/
theorem get?_congr {t : Symbol} (hsame : (s == t) = true) (env : Env ν) :
    env.get? s = env.get? t := by
  simp only [Symbol.beq_iff] at hsame
  simp only [get?, BEq.beq, hsame]

theorem mem_of_get? (hget : env.get? s = some v) : v ∈ env.map Prod.snd := by
  rw [get?, Option.map_eq_some_iff] at hget
  obtain ⟨b, hfind, rfl⟩ := hget
  exact List.mem_map_of_mem (List.mem_of_find?_eq_some hfind)

/-- A name is bound if there is a binding for it. -/
theorem isSome_get?_iff : (env.get? s).isSome = true ↔ (env.any fun b => b.1 == s) = true := by
  simp [get?]

theorem set?_of_bound (hbound : (env.get? s).isSome = true) (v : ν) :
    ∃ env', env.set? s v = some env' := by
  rw [isSome_get?_iff] at hbound
  exact ⟨_, if_pos hbound⟩

theorem get?_cons (b : Symbol × ν) (env : Env ν) (t : Symbol) :
    get? (b :: env) t = if (b.1 == t) = true then some b.2 else env.get? t := by
  rw [get?, List.find?_cons]
  split
  next h => simp [h]
  next h => simp [h, get?]

theorem get?_append (env env' : Env ν) (t : Symbol) :
    get? (env ++ env') t = (env.get? t).or (env'.get? t) := by
  induction env with
  | nil => rfl
  | cons b env ih =>
    rw [List.cons_append, get?_cons, get?_cons, ih]
    split <;> rfl

/-- After a write the name has the new value, and other names have theirs. -/
theorem get?_set? (hset : env.set? s v = some env') (t : Symbol) :
    env'.get? t = if (s == t) = true then some v else env.get? t := by
  rw [set?] at hset
  split at hset
  next hany =>
    cases hset
    rw [← isSome_get?_iff] at hany
    have hmap : ∀ l : Env ν, get? (l.map fun b => if b.1 == s then (b.1, v) else b) t =
        if (s == t) = true then (l.get? t).map fun _ => v else l.get? t := by
      intro l
      induction l with
      | nil => simp [get?]
      | cons b l ih =>
        rw [List.map_cons, get?_cons, get?_cons, ih]
        by_cases hs : (b.1 == s) = true
        · rw [if_pos hs]
          simp only [Symbol.beq_iff] at hs ⊢
          grind
        · rw [if_neg hs]
          simp only [Symbol.beq_iff] at hs ⊢
          grind
    rw [hmap]
    split
    next hsame =>
      obtain ⟨w, hw⟩ := Option.isSome_iff_exists.1 hany
      rw [← get?_congr hsame, hw]
      rfl
    next => rfl
  next => cases hset

theorem get?_define (env : Env ν) (s : Symbol) (v : ν) (t : Symbol) :
    (env.define s v).get? t = if (s == t) = true then some v else env.get? t := by
  rw [define]
  cases hset : env.set? s v with
  | some env' => exact get?_set? hset t
  | none =>
    have hfree : env.get? s = none := by
      rw [← Option.not_isSome_iff_eq_none]
      intro hbound
      obtain ⟨env', hset'⟩ := set?_of_bound hbound v
      rw [hset] at hset'
      cases hset'
    simp only [get?_append, get?_cons]
    split
    next hsame =>
      rw [← get?_congr hsame, hfree]
      rfl
    next => simp [get?]

/-- A write binds nothing but the new value. -/
theorem mem_of_set? (hset : env.set? s v = some env') {w : ν} (hw : w ∈ env'.map Prod.snd) :
    w = v ∨ w ∈ env.map Prod.snd := by
  rw [set?] at hset
  split at hset
  next =>
    cases hset
    simp only [List.mem_map] at hw ⊢
    obtain ⟨_, ⟨b, hb, rfl⟩, rfl⟩ := hw
    split
    next => exact Or.inl rfl
    next => exact Or.inr ⟨b, hb, rfl⟩
  next => cases hset

theorem mem_of_define {w : ν} (hw : w ∈ (env.define s v).map Prod.snd) :
    w = v ∨ w ∈ env.map Prod.snd := by
  rw [define] at hw
  cases hset : env.set? s v with
  | some env' =>
    rw [hset] at hw
    exact mem_of_set? hset hw
  | none =>
    rw [hset] at hw
    simp only [List.map_append, List.mem_append, List.map_cons, List.map_nil,
      List.mem_singleton] at hw
    exact hw.symm

end Env

end Resumable
