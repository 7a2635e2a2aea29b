import Mathlib.Algebra.Order.Ring.Int
import Mathlib.Logic.Function.Iterate
import Resumable.Proofs.Library.Prelude

/-!
What the functions of the prelude compute. Each of them calls its function once for each item, from left
to right, and needs no more than two frames besides those of the calls, however long the list is.
-/

namespace Resumable

open Meaning Library

/-- The shared state after `n` values have been made. -/
def World.drawn (w : World) (n : Nat) : World :=
  (fun w => w.draw.2)^[n] w

namespace Library

/-- Making a value changes no global variable. -/
theorem Stocked.draw {G : Ground} {w : World} (h : Stocked G w) : Stocked G w.draw.2 :=
  ⟨h.natives, h.functions⟩

end Library

/-! What calls with the items of a list come to, one after the other. A call with some arguments takes
the shared state `w` to `w'` and gives `v` if `C args w v w'`. -/

section Sequences

variable (C : List Value → World → Value → World → Prop)

/-- The items are joined to a value in turn. -/
inductive Folds : Value → List Value → World → Value → World → Prop
  | nil {a : Value} {w : World} : Folds a [] w a w
  | cons {a b v x : Value} {xs : List Value} {w w₁ w' : World} (hfirst : C [a, x] w b w₁)
    (hrest : Folds b xs w₁ v w') : Folds a (x :: xs) w v w'

/-- Each item becomes another one. -/
inductive Maps : List Value → World → List Value → World → Prop
  | nil {w : World} : Maps [] w [] w
  | cons {x y : Value} {xs ys : List Value} {w w₁ w' : World} (hfirst : C [x] w y w₁)
    (hrest : Maps xs w₁ ys w') : Maps (x :: xs) w (y :: ys) w'

/-- The items for which a truthy value is given are kept. -/
inductive Filters : List Value → World → List Value → World → Prop
  | nil {w : World} : Filters [] w [] w
  | keep {x y : Value} {xs ys : List Value} {w w₁ w' : World} (hfirst : C [x] w y w₁)
    (htruthy : y.isTruthy = true) (hrest : Filters xs w₁ ys w') : Filters (x :: xs) w (x :: ys) w'
  | drop {x y : Value} {xs ys : List Value} {w w₁ w' : World} (hfirst : C [x] w y w₁)
    (hfalsy : y.isTruthy = false) (hrest : Filters xs w₁ ys w') : Filters (x :: xs) w ys w'

variable {C} {D : List Value → World → Value → World → Prop} {xs ys : List Value} {w w' : World}

/-- Items that become others are pushed to a list in turn. -/
theorem Maps.folds (h : Maps C xs w ys w')
    (hstep : ∀ acc {x w y w'}, C [x] w y w' → D [.list acc, x] w (.list (acc ++ [y])) w')
    (acc : List Value) :
    Folds D (.list acc) xs w (.list (acc ++ ys)) w' := by
  induction h generalizing acc with
  | nil =>
    rw [List.append_nil]
    exact .nil
  | @cons x y xs ys w w₁ w' hfirst _ ih =>
    have hrest := ih (acc ++ [y])
    rw [List.append_assoc, List.singleton_append] at hrest
    exact .cons (hstep acc hfirst) hrest

/-- Items that are kept are pushed to a list in turn. -/
theorem Filters.folds (h : Filters C xs w ys w')
    (hstep : ∀ acc {x w y w'}, C [x] w y w' →
      D [.list acc, x] w (.list (if y.isTruthy then acc ++ [x] else acc)) w') (acc : List Value) :
    Folds D (.list acc) xs w (.list (acc ++ ys)) w' := by
  induction h generalizing acc with
  | nil =>
    rw [List.append_nil]
    exact .nil
  | @keep x y xs ys w w₁ w' hfirst htruthy _ ih =>
    have hrest := ih (acc ++ [x])
    have hkept := hstep acc hfirst
    rw [List.append_assoc, List.singleton_append] at hrest
    rw [if_pos htruthy] at hkept
    exact .cons hkept hrest
  | @drop x y xs ys w w₁ w' hfirst hfalsy _ ih =>
    have hdropped := hstep acc hfirst
    rw [if_neg (by rw [hfalsy]; exact Bool.false_ne_true)] at hdropped
    exact .cons hdropped (ih acc)

/-- Items that are put before a list in turn are reversed. -/
theorem folds_reverse (hstep : ∀ {acc x}, D [.list acc, x] w (.list (x :: acc)) w)
    (xs acc : List Value) : Folds D (.list acc) xs w (.list (xs.reverse ++ acc)) w := by
  induction xs generalizing acc with
  | nil => exact .nil
  | cons x xs ih =>
    rw [List.reverse_cons, List.append_assoc, List.singleton_append]
    exact .cons hstep (ih (x :: acc))

/-- Integers that are added in turn wrap around as their sum does. -/
theorem folds_add (hstep : ∀ {m n}, D [.int m, .int n] w (.int (m + n)) w) (ns : List Int64) (m : Int64) :
    Folds D (.int m) (ns.map .int) w (.int (m + Int64.ofInt (ns.map Int64.toInt).sum)) w := by
  induction ns generalizing m with
  | nil =>
    have hzero : m + Int64.ofInt ([] : List Int).sum = m := by simp
    rw [List.map_nil, List.map_nil, hzero]
    exact .nil
  | cons n ns ih =>
    have hsum : m + Int64.ofInt ((n :: ns).map Int64.toInt).sum =
        m + n + Int64.ofInt (ns.map Int64.toInt).sum := by
      rw [List.map_cons, List.sum_cons, Int64.ofInt_add, Int64.ofInt_toInt, Int64.add_assoc]
    rw [hsum]
    exact .cons hstep (ih (m + n))

end Sequences

namespace Spot

/-- A call gives the value `v` wherever there are up to `n` more frames with up to `n + 1` more values. -/
def Replies (P : Spot) (n : Nat) (callee : Value) (args : List Value) (w : World) (v : Value)
    (w' : World) : Prop :=
  ∀ above, above ≠ [] → above.length ≤ n → heightOf above ≤ n + 1 →
    P.machine.Calls (P.below ++ above) P.depth callee args w v w'

end Spot

namespace Site

variable {S : Site} {operands : List Value} {w : World} {es : List Expr} {line : Nat} {entry : Entry}
  {post : Value → World → Prop}

theorem heightOf_active (S : Site) (ip : Nat) (operands : List Value) :
    heightOf [S.active ip operands] ≤ operands.length + 1 := by
  have hmark : (S.active ip operands).mark.length ≤ 1 := by
    unfold Activation.mark
    split <;> simp
  rw [heightOf_cons, heightOf_nil, Activation.segment, List.length_append]
  change _ + operands.length + 0 ≤ _
  omega

theorem heightOf_active_of_none (hnone : S.act.handler = none) (ip : Nat) (operands : List Value) :
    heightOf [S.active ip operands] = operands.length := by
  have hmark : (S.active ip operands).mark = [] := by
    rw [Activation.mark, show (S.active ip operands).handler = none from hnone]
  rw [heightOf_cons, heightOf_nil, Activation.segment, hmark]
  rfl

/-- A function of the library gives its value at once. -/
theorem replies_library (hstocked : Stocked S.ground w) (hentry : entry ∈ entries)
    (hfree : S.vars.lookup entry.name = none) {args : List Value} {v : Value} {w' : World}
    (hlength : args.length = entry.arity)
    (hinvoke : entry.function.invoke entry.name args w = .ok (.value v) w') :
    ∃ callee, S.Denotes entry.name w callee ∧ Machine.Replies callee args w v w' := by
  obtain ⟨id, hprovides⟩ := hstocked.natives entry hentry
  exact ⟨_, Or.inr ⟨hfree, hprovides⟩, Machine.replies_native hlength hinvoke⟩

theorem yields_library (entry : Entry) (hentry : entry ∈ entries) (hfree : S.vars.lookup entry.name = none)
    (h : S.YieldsAll operands es w fun args w₁ => Stocked S.ground w₁ ∧ args.length = entry.arity ∧
      ∃ v w', entry.function.invoke entry.name args w₁ = .ok (.value v) w' ∧ post v w') :
    S.Yields operands (.callOf line entry.name es) w post := by
  refine yields_call fun ip Γ next hlayout label => ?_
  obtain ⟨args, w₁, label₁, ⟨hstocked, hlength, v, w', hinvoke, hpost⟩, hrest⟩ :=
    h ip Γ next hlayout label
  obtain ⟨callee, hdenotes, hreplies⟩ := replies_library hstocked hentry hfree hlength hinvoke
  refine ⟨args, w₁, label₁, yields_name hdenotes ⟨v, w', hpost, fun ip => hreplies.calls ?_⟩, hrest⟩
  rw [List.length_append]
  exact S.room

theorem ends_library (entry : Entry) (hentry : entry ∈ entries) (hfree : S.vars.lookup entry.name = none)
    (h : S.YieldsAll [] es w fun args w₁ => Stocked S.ground w₁ ∧ args.length = entry.arity ∧
      ∃ v w', entry.function.invoke entry.name args w₁ = .ok (.value v) w' ∧ post v w') :
    S.Ends (.callOf line entry.name es) w post := by
  refine ends_call fun ip Γ next hlayout label => ?_
  obtain ⟨args, w₁, label₁, ⟨hstocked, hlength, v, w', hinvoke, hpost⟩, hrest⟩ :=
    h ip Γ next hlayout label
  obtain ⟨callee, hdenotes, hreplies⟩ := replies_library hstocked hentry hfree hlength hinvoke
  exact ⟨args, w₁, label₁, yields_name hdenotes ⟨v, w', hpost, hreplies.tailCalls S.room⟩, hrest⟩

end Site

namespace Spot

variable {P : Spot} {G : Ground} {id : Nat} {code : Code Value} {env : Env Value} {a v f : Value}
  {bound : Option (List (Effect × Value) × Nat)} {xs : List Value} {w w' : World}

/-- A list is empty if its length is zero. Lengths are integers of 64 bits. -/
theorem equals_length_zero (hlength : xs.length < 2 ^ 63) :
    (Value.int (Int64.ofNat xs.length)).equals (.int 0) = xs.isEmpty := by
  have hzero : Int64.ofNat xs.length = 0 ↔ xs.length = 0 := by
    constructor
    · intro h
      have hint := congrArg Int64.toInt h
      rw [Int64.toInt_ofNat_of_lt hlength] at hint
      simpa using hint
    · intro h
      rw [h]
      rfl
  have hequals : (Value.int (Int64.ofNat xs.length)).equals (.int 0) =
      (Int64.ofNat xs.length == 0) := by
    simp [Value.equals, Value.same]
  rw [hequals, Bool.eq_iff_iff, beq_iff_eq, hzero, List.isEmpty_iff, List.length_eq_zero_iff]

/-- Whether a list is empty, as the prelude asks it. -/
theorem yields_isEmpty {S : Site} {x : String} {line : Nat} (hstocked : Stocked S.ground w)
    (hx : S.Denotes x w (.list xs)) (hlen : S.vars.lookup "len" = none)
    (heq : S.vars.lookup "==" = none) (hlength : xs.length < 2 ^ 63) {post : Value → World → Prop}
    (hpost : post (.bool xs.isEmpty) w) :
    S.Yields [] (.callOf line "==" [.callOf line "len" [.name line x], .int line 0]) w post := by
  refine Site.yields_library ⟨"==", 2, .equal⟩ (by simp [entries]) heq ?_
  refine Site.yieldsAll_cons (Site.yields_library ⟨"len", 1, .length⟩ (by simp [entries]) hlen ?_)
  refine Site.yieldsAll_cons (Site.yields_name hx (Site.yieldsAll_nil ?_))
  refine ⟨hstocked, rfl, _, w, rfl, ?_⟩
  refine Site.yieldsAll_cons (Site.yields_literal rfl (Site.yieldsAll_nil ?_))
  refine ⟨hstocked, rfl, _, w, rfl, ?_⟩
  rwa [equals_length_zero hlength]

/-- A call that is good for `fold`: it gives its value and leaves the library and the prelude alone. -/
def Serves (P : Spot) (G : Ground) (n : Nat) (f : Value) (args : List Value) (w : World) (v : Value)
    (w' : World) : Prop :=
  P.Replies n f args w v w' ∧ Stocked G w'

/-- What `fold` computes from the calls that it makes. -/
theorem computes_fold {C : List Value → World → Value → World → Prop}
    (hfold : Lexical.Encloses G {} [] (some "fold") Prelude.fold.params Prelude.fold.body code env)
    (hcalls : ∀ {args w v w'}, C args w v w' → P.Serves G 1 f args w v w')
    (hfolds : Folds C a xs w v w') (hstocked : Stocked G w) (hlength : xs.length < 2 ^ 63) :
    P.Computes bound id code env [f, a, .list xs] w v w' := by
  induction hfolds with
  | @nil a w =>
    refine computes hfold rfl (Site.ends_cond rfl ?_)
    exact yields_isEmpty hstocked (Or.inl rfl) rfl rfl hlength
      (Site.ends_name (Or.inl rfl) ⟨rfl, rfl⟩)
  | @cons a b v x xs w w₁ w' hfirst hrest ih =>
    obtain ⟨hreplies, hstocked₁⟩ := hcalls hfirst
    have hlater := ih hstocked₁ (Nat.lt_of_succ_lt hlength)
    refine computes hfold rfl (Site.ends_cond rfl ?_)
    refine yields_isEmpty hstocked (Or.inl rfl) rfl rfl hlength (Site.ends_call ?_)
    refine Site.yieldsAll_cons (Site.yields_name (Or.inl rfl) ?_)
    refine Site.yieldsAll_cons (Site.yields_call ?_)
    refine Site.yieldsAll_cons (Site.yields_name (Or.inl rfl) ?_)
    refine Site.yieldsAll_cons (Site.yields_library ⟨"head", 1, .head⟩ (by simp [entries]) rfl ?_)
    refine Site.yieldsAll_cons (Site.yields_name (Or.inl rfl) (Site.yieldsAll_nil ?_))
    refine ⟨hstocked, rfl, x, w, rfl, Site.yieldsAll_nil (Site.yields_name (Or.inl rfl) ?_)⟩
    refine ⟨b, w₁, ?_, ?_⟩
    · refine Site.yieldsAll_cons (Site.yields_library ⟨"tail", 1, .tail⟩ (by simp [entries]) rfl ?_)
      refine Site.yieldsAll_cons (Site.yields_name (Or.inl rfl) (Site.yieldsAll_nil ?_))
      refine ⟨hstocked₁, rfl, .list xs, w₁, rfl, Site.yieldsAll_nil ?_⟩
      exact Site.yields_name (Or.inl rfl) ⟨v, w', ⟨rfl, rfl⟩, hlater.tailCalls hfold.params_length.symm⟩
    · intro ip
      exact hreplies _ (by simp) (by simp) (Site.heightOf_active _ _ _)

/-- There is room for two more frames and three more values. -/
structure Roomy (P : Spot) : Prop where
  depth : P.below.length + 2 ≤ P.depth
  frames : P.below.length + 2 ≤ P.machine.thread.limits.maxDepth
  values : heightOf P.below + 3 ≤ P.machine.thread.limits.maxStack

/-- Above another activation. -/
def above (P : Spot) (hroomy : P.Roomy) (b : Activation) : Spot where
  machine := P.machine
  below := P.below ++ [b]
  depth := P.depth
  running := P.running
  base := by
    have hbase := P.base
    rw [List.length_append, List.length_singleton]
    omega
  room := by
    have hdepth := hroomy.depth
    rw [List.length_append, List.length_singleton]
    omega

/-- A function of the prelude is called by another one. -/
theorem replies_of_computes {args : List Value} (hroomy : P.Roomy) (hlength : args.length = code.arity)
    (h : ∀ b, heightOf [b] ≤ 2 → (P.above hroomy b).Computes none id code env args w v w') :
    P.Replies 1 (.closure id code env) args w v w' := by
  intro acts hne hcount hheight
  obtain ⟨b, rfl⟩ := List.length_eq_one_iff.1
    (Nat.le_antisymm hcount (List.length_pos_iff.2 hne))
  have hbase := P.base
  have hframes := hroomy.frames
  have hvalues := hroomy.values
  refine (h b hheight).calls hlength ?_ ?_ ?_
  · change Exec.baseOf P.machine.thread.levels < (P.below ++ [b]).length
    rw [List.length_append, List.length_singleton]
    omega
  · change (P.below ++ [b]).length < P.machine.thread.limits.maxDepth
    rw [List.length_append, List.length_singleton]
    omega
  · change heightOf (P.below ++ [b]) < P.machine.thread.limits.maxStack
    rw [heightOf_append]
    omega

/-- A call that is made while a function is called by one of the prelude. -/
theorem Replies.inside {Γ : Lexical} {ρ : List (String × Value)} {name : Option String}
    {params : List String} {body : Expr} {args given operands : List Value} {b : Activation}
    (h : P.Replies 2 f given w v w') (hroomy : P.Roomy) (hheight : heightOf [b] ≤ 2)
    (hcode : Lexical.Encloses G Γ ρ name params body code env) (hlength : args.length = params.length)
    (hoperands : operands.length ≤ 1) :
    ((P.above hroomy b).enter hcode hlength id none).Calls operands f given w v w' := by
  intro ip
  have hactive := Site.heightOf_active_of_none (S := (P.above hroomy b).enter hcode hlength id none)
    rfl ip operands
  have hcalls := h ([b] ++ [((P.above hroomy b).enter hcode hlength id none).active ip operands])
    (by simp) (by simp) (by rw [heightOf_append, hactive]; omega)
  rwa [← List.append_assoc] at hcalls

section Lambdas

variable {Γ : Lexical} {ρ : List (String × Value)} {line : Nat} {x y : Value} {ys : List Value}
  {w₁ : World}

/-- The function that `map` folds a list with. -/
theorem replies_mapping (hroomy : P.Roomy) (hcode : Lexical.Encloses G Γ ρ none ["acc", "x"]
      (.callOf line "push" [.name line "acc", .callOf line "f" [.name line "x"]]) code env)
    (hf : ρ.lookup "f" = some f) (hpush : ρ.lookup "push" = none)
    (hreplies : P.Replies 2 f [x] w y w₁) (hstocked : Stocked G w₁) :
    P.Replies 1 (.closure id code env) [.list ys, x] w (.list (ys ++ [y])) w₁ := by
  refine replies_of_computes hroomy hcode.params_length.symm fun b hheight => ?_
  refine computes hcode rfl (Site.ends_library ⟨"push", 2, .push⟩ (by simp [entries]) hpush ?_)
  refine Site.yieldsAll_cons (Site.yields_name (Or.inl rfl) ?_)
  refine Site.yieldsAll_cons (Site.yields_call ?_)
  refine Site.yieldsAll_cons (Site.yields_name (Or.inl rfl) (Site.yieldsAll_nil ?_))
  refine Site.yields_name (Or.inl hf) ⟨y, w₁, Site.yieldsAll_nil ?_, ?_⟩
  · exact ⟨hstocked, rfl, _, w₁, rfl, rfl, rfl⟩
  · exact hreplies.inside hroomy hheight hcode rfl (Nat.le_refl 1)

/-- The function that `filter` folds a list with. -/
theorem replies_filtering (hroomy : P.Roomy) (hcode : Lexical.Encloses G Γ ρ none ["acc", "x"]
      (.cond line (.callOf line "p" [.name line "x"])
        (.callOf line "push" [.name line "acc", .name line "x"]) (some (.name line "acc"))) code env)
    (hf : ρ.lookup "p" = some f) (hpush : ρ.lookup "push" = none)
    (hreplies : P.Replies 2 f [x] w y w₁) (hstocked : Stocked G w₁) :
    P.Replies 1 (.closure id code env) [.list ys, x] w
      (.list (if y.isTruthy then ys ++ [x] else ys)) w₁ := by
  refine replies_of_computes hroomy hcode.params_length.symm fun b hheight => ?_
  refine computes hcode rfl (Site.ends_cond rfl (Site.yields_call ?_))
  refine Site.yieldsAll_cons (Site.yields_name (Or.inl rfl) (Site.yieldsAll_nil ?_))
  refine Site.yields_name (Or.inl hf) ⟨y, w₁, ?_, ?_⟩
  · cases y.isTruthy with
    | true =>
      refine Site.ends_library ⟨"push", 2, .push⟩ (by simp [entries]) hpush ?_
      refine Site.yieldsAll_cons (Site.yields_name (Or.inl rfl) ?_)
      refine Site.yieldsAll_cons (Site.yields_name (Or.inl rfl) (Site.yieldsAll_nil ?_))
      exact ⟨hstocked, rfl, _, w₁, rfl, rfl, rfl⟩
    | false => exact Site.ends_name (Or.inl rfl) ⟨rfl, rfl⟩
  · exact hreplies.inside hroomy hheight hcode rfl (Nat.zero_le 1)

/-- The function that `reverse` folds a list with. -/
theorem replies_reversing (hroomy : P.Roomy) (hcode : Lexical.Encloses G Γ ρ none ["acc", "x"]
      (.callOf line "+" [.list line [.name line "x"], .name line "acc"]) code env)
    (hadd : ρ.lookup "+" = none) (hstocked : Stocked G w) :
    P.Replies 1 (.closure id code env) [.list ys, x] w (.list (x :: ys)) w := by
  refine replies_of_computes hroomy hcode.params_length.symm fun b _ => ?_
  refine computes hcode rfl (Site.ends_library ⟨"+", 2, .arithmetic .add⟩ (by simp [entries]) hadd ?_)
  refine Site.yieldsAll_cons (Site.yields_list ?_)
  refine Site.yieldsAll_cons (Site.yields_name (Or.inl rfl) (Site.yieldsAll_nil ?_))
  refine Site.yieldsAll_cons (Site.yields_name (Or.inl rfl) (Site.yieldsAll_nil ?_))
  exact ⟨hstocked, rfl, _, w, rfl, rfl, rfl⟩

/-- The function that `sum` folds a list with. -/
theorem replies_adding {m n : Int64} (hroomy : P.Roomy) (hcode : Lexical.Encloses G Γ ρ none ["a", "b"]
      (.callOf line "+" [.name line "a", .name line "b"]) code env)
    (hadd : ρ.lookup "+" = none) (hstocked : Stocked G w) :
    P.Replies 1 (.closure id code env) [.int m, .int n] w (.int (m + n)) w := by
  refine replies_of_computes hroomy hcode.params_length.symm fun b _ => ?_
  refine computes hcode rfl (Site.ends_library ⟨"+", 2, .arithmetic .add⟩ (by simp [entries]) hadd ?_)
  refine Site.yieldsAll_cons (Site.yields_name (Or.inl rfl) ?_)
  refine Site.yieldsAll_cons (Site.yields_name (Or.inl rfl) (Site.yieldsAll_nil ?_))
  exact ⟨hstocked, rfl, _, w, rfl, rfl, rfl⟩

end Lambdas

/-- Folding a list with a function that is made for it. -/
theorem ends_folding {S : Site} {line : Nat} {params : List String} {body init : Expr}
    (hstocked : Stocked S.ground w) (hfree : S.vars.lookup "fold" = none)
    (hxs : S.vars.lookup "xs" = some (.list xs)) (hlength : xs.length < 2 ^ 63)
    (hinit : ∀ operands w, S.Yields operands init w fun u w₁ => u = a ∧ w₁ = w)
    (h : ∀ code env, S.scope.Encloses S.ground S.vars none params body code env →
      Folds (S.Serves S.ground 1 (.closure w.draw.1 code env)) a xs w.draw.2 v w') :
    S.Ends (.callOf line "fold" [.lambda line none params body, init, .name line "xs"]) w
      fun u w₁ => u = v ∧ w₁ = w' := by
  obtain ⟨-, id, code, env, hfold, hprovides⟩ :=
    hstocked.functions Prelude.fold (by simp [Prelude.definitions])
  refine Site.ends_call (Site.yieldsAll_cons (Site.yields_lambda fun code' env' hcode => ?_))
  refine Site.yieldsAll_cons ((hinit _ _).mono ?_)
  rintro u w₁ ⟨rfl, rfl⟩
  refine Site.yieldsAll_cons (Site.yields_name (Or.inl hxs) (Site.yieldsAll_nil ?_))
  refine Site.yields_name (Or.inr ⟨hfree, hprovides⟩) ⟨v, w', ⟨rfl, rfl⟩, ?_⟩
  have hcomputes : S.Computes S.act.handler id code env [.closure w.draw.1 code' env', u, .list xs]
      w.draw.2 v w' :=
    computes_fold hfold (fun h => h) (h code' env' hcode) hstocked.draw hlength
  exact hcomputes.tailCalls hfold.params_length.symm

section Functions

variable {ys : List Value} {C : List Value → World → Value → World → Prop}

theorem computes_map (hroomy : P.Roomy)
    (hmap : Lexical.Encloses G {} [] (some "map") Prelude.map.params Prelude.map.body code env)
    (hcalls : ∀ {args w v w'}, C args w v w' → P.Serves G 2 f args w v w')
    (hmaps : Maps C xs w.draw.2 ys w') (hstocked : Stocked G w) (hlength : xs.length < 2 ^ 63) :
    P.Computes bound id code env [f, .list xs] w (.list ys) w' := by
  refine computes hmap rfl (ends_folding hstocked rfl rfl hlength
    (fun _ _ => Site.yields_list (Site.yieldsAll_nil ⟨rfl, rfl⟩)) fun code' env' hcode => ?_)
  refine hmaps.folds ?_ []
  intro acc x w y w₁ hfirst
  obtain ⟨hreplies, hstocked₁⟩ := hcalls hfirst
  exact ⟨replies_mapping hroomy hcode rfl rfl hreplies hstocked₁, hstocked₁⟩

theorem computes_filter (hroomy : P.Roomy)
    (hfilter : Lexical.Encloses G {} [] (some "filter") Prelude.filter.params Prelude.filter.body code env)
    (hcalls : ∀ {args w v w'}, C args w v w' → P.Serves G 2 f args w v w')
    (hfilters : Filters C xs w.draw.2 ys w') (hstocked : Stocked G w) (hlength : xs.length < 2 ^ 63) :
    P.Computes bound id code env [f, .list xs] w (.list ys) w' := by
  refine computes hfilter rfl (ends_folding hstocked rfl rfl hlength
    (fun _ _ => Site.yields_list (Site.yieldsAll_nil ⟨rfl, rfl⟩)) fun code' env' hcode => ?_)
  refine hfilters.folds ?_ []
  intro acc x w y w₁ hfirst
  obtain ⟨hreplies, hstocked₁⟩ := hcalls hfirst
  exact ⟨replies_filtering hroomy hcode rfl rfl hreplies hstocked₁, hstocked₁⟩

theorem computes_reverse (hroomy : P.Roomy)
    (hreverse : Lexical.Encloses G {} [] (some "reverse") Prelude.reverse.params Prelude.reverse.body
      code env) (hstocked : Stocked G w) (hlength : xs.length < 2 ^ 63) :
    P.Computes bound id code env [.list xs] w (.list xs.reverse) w.draw.2 := by
  refine computes hreverse rfl (ends_folding hstocked rfl rfl hlength
    (fun _ _ => Site.yields_list (Site.yieldsAll_nil ⟨rfl, rfl⟩)) fun code' env' hcode => ?_)
  have hfolds := folds_reverse (D := P.Serves G 1 (.closure w.draw.1 code' env'))
    (fun {acc x} => ⟨replies_reversing hroomy hcode rfl hstocked.draw, hstocked.draw⟩) xs []
  rwa [List.append_nil] at hfolds

theorem computes_sum {ns : List Int64} (hroomy : P.Roomy)
    (hsum : Lexical.Encloses G {} [] (some "sum") Prelude.sum.params Prelude.sum.body code env)
    (hstocked : Stocked G w) (hlength : ns.length < 2 ^ 63) :
    P.Computes bound id code env [.list (ns.map .int)] w
      (.int (Int64.ofInt (ns.map Int64.toInt).sum)) w.draw.2 := by
  refine computes hsum rfl (ends_folding hstocked rfl rfl (by rwa [List.length_map])
    (fun _ _ => Site.yields_literal rfl ⟨rfl, rfl⟩) fun code' env' hcode => ?_)
  have hfolds := folds_add (D := P.Serves G 1 (.closure w.draw.1 code' env'))
    (fun {m n} => ⟨replies_adding hroomy hcode rfl hstocked.draw, hstocked.draw⟩) ns 0
  rwa [Int64.zero_add] at hfolds

theorem computes_apply_nil
    (happly : Lexical.Encloses G {} [] (some "apply") Prelude.apply.params Prelude.apply.body code env)
    (hstocked : Stocked G w) : P.Computes bound id code env [v, .list []] w v w := by
  have hlength : ([] : List Value).length < 2 ^ 63 := Nat.two_pow_pos 63
  refine computes happly rfl (Site.ends_cond rfl ?_)
  refine yields_isEmpty hstocked (Or.inl rfl) rfl rfl hlength ?_
  exact Site.ends_name (Or.inl rfl) ⟨rfl, rfl⟩

theorem computes_apply_cons {x b : Value} {w₁ : World}
    (happly : Lexical.Encloses G {} [] (some "apply") Prelude.apply.params Prelude.apply.body code env)
    (hstocked : Stocked G w) (hstocked₁ : Stocked G w₁) (hlength : (x :: xs).length < 2 ^ 63)
    (hfirst : P.Replies 1 f [x] w b w₁)
    (hrest : P.Computes bound id code env [b, .list xs] w₁ v w') :
    P.Computes bound id code env [f, .list (x :: xs)] w v w' := by
  refine computes happly rfl (Site.ends_cond rfl ?_)
  refine yields_isEmpty hstocked (Or.inl rfl) rfl rfl hlength (Site.ends_call ?_)
  refine Site.yieldsAll_cons (Site.yields_call ?_)
  refine Site.yieldsAll_cons (Site.yields_library ⟨"head", 1, .head⟩ (by simp [entries]) rfl ?_)
  refine Site.yieldsAll_cons (Site.yields_name (Or.inl rfl) (Site.yieldsAll_nil ?_))
  refine ⟨hstocked, rfl, x, w, rfl, Site.yieldsAll_nil (Site.yields_name (Or.inl rfl) ?_)⟩
  refine ⟨b, w₁, ?_, ?_⟩
  · refine Site.yieldsAll_cons (Site.yields_library ⟨"tail", 1, .tail⟩ (by simp [entries]) rfl ?_)
    refine Site.yieldsAll_cons (Site.yields_name (Or.inl rfl) (Site.yieldsAll_nil ?_))
    refine ⟨hstocked₁, rfl, .list xs, w₁, rfl, Site.yieldsAll_nil ?_⟩
    exact Site.yields_name (Or.inl rfl) ⟨v, w', ⟨rfl, rfl⟩, hrest.tailCalls happly.params_length.symm⟩
  · intro ip
    exact hfirst _ (by simp) (by simp) (Nat.le_trans (Site.heightOf_active _ _ _) (by simp))

/-- A function with some of its arguments gives with the others what it gives with all of them. -/
theorem Replies.applied {u : Value} {given args more : List Value} {k n : Nat}
    (htakes : f.Takes u given n) (hfew : args.length ≤ n) (h : P.Replies k f (args ++ more) w v w') :
    P.Replies k (.applied id u (given ++ args)) more w v w' := by
  have hsame : Exec.apply (.applied id u (given ++ args)) more = Exec.apply f (args ++ more) := by
    rw [Exec.apply_eq_of_takes (htakes.applied hfew id), Exec.apply_eq_of_takes htakes,
      List.append_assoc]
  intro acts hne hcount hheight label line
  have hcall := h acts hne hcount hheight label line
  unfold Exec.call at hcall ⊢
  rwa [hsame]

theorem computes_apply {u : Value} {given : List Value}
    (happly : Lexical.Encloses G {} [] (some "apply") Prelude.apply.params Prelude.apply.body code env)
    (hroomy : P.Roomy) (hstocked : Stocked G w) (htakes : f.Takes u given xs.length) (hne : xs ≠ [])
    (hlength : xs.length < 2 ^ 63) (hcall : P.Serves G 1 f xs (w.drawn (xs.length - 1)) v w') :
    P.Computes bound id code env [f, .list xs] w v w' := by
  induction xs generalizing f given w with
  | nil => exact absurd rfl hne
  | cons x xs ih =>
    cases xs with
    | nil =>
      obtain ⟨hreplies, hstocked'⟩ := hcall
      exact computes_apply_cons happly hstocked hstocked' hlength hreplies
        (computes_apply_nil happly hstocked')
    | cons y ys =>
      have hdepth := hroomy.depth
      have hpartial : P.Replies 1 f [x] w (.applied w.draw.1 u (given ++ [x])) w.draw.2 := by
        intro acts _ hcount _
        refine (Machine.replies_partial htakes (by simp)).calls ?_
        rw [List.length_append]
        omega
      have hlater : (Value.applied w.draw.1 u (given ++ [x])).Takes u (given ++ [x]) (y :: ys).length :=
        htakes.applied (by simp) w.draw.1
      refine computes_apply_cons happly hstocked hstocked.draw hlength hpartial ?_
      refine ih hstocked.draw hlater nofun (Nat.lt_of_succ_lt hlength) ⟨?_, hcall.2⟩
      exact .applied htakes (by simp) hcall.1

end Functions

/-- A call of a function comes to an activation that is about to return its value, and so does a call in
tail position. On the way there are never more frames than the limit. -/
structure Answers (P : Spot) (callee : Value) (args : List Value) (w : World) (v : Value) (w' : World) :
    Prop where
  called : ∀ label line, ∃ m₁, Exec.call callee args line false
      ((P.machine.later w label).showing P.below []) = .ok () m₁ ∧
    P.machine.Finishes P.below none P.depth m₁ v w'
  tailCalled : ∀ bound, P.machine.TailCalls P.below bound P.depth callee args w v w'

/-- The value of a call is given to the activation that has made it. -/
theorem Answers.calls {callee : Value} {args : List Value} (h : P.Answers callee args w v w')
    (hbase : Exec.baseOf P.machine.thread.levels < P.below.length) :
    P.machine.Calls P.below P.depth callee args w v w' := by
  intro label line
  obtain ⟨m₁, hcall, hfinishes⟩ := h.called label line
  obtain ⟨label', hwithin⟩ := hfinishes.delivers P.running hbase
  exact ⟨m₁, label', hcall, hwithin⟩

theorem answers_of_computes {args : List Value} (hroomy : P.Roomy) (hlength : args.length = code.arity)
    (h : ∀ bound, P.Computes bound id code env args w v w') :
    P.Answers (.closure id code env) args w v w' := by
  have hframes := hroomy.frames
  have hvalues := hroomy.values
  refine ⟨fun label line => ⟨_, ?_, h none label⟩, fun bound => (h bound).tailCalls hlength⟩
  exact Machine.call_closure_of_room hlength (by omega) (by omega) line

end Spot

end Resumable
