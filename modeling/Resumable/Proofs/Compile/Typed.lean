import Resumable.Proofs.Bytecode.Typing
import Resumable.Proofs.Expr.Every
import Resumable.Proofs.Value.Env

/-!
Code that is laid out is typed: an expression leaves one value on top of whatever is on the stack.
-/

namespace Resumable

namespace Expr

/-- A function of two parameters, as the clauses of handlers are. -/
def isClause : Expr → Bool
  | lambda _ _ params _ => params.length == 2
  | _ => false

/-- All handlers in an expression have clauses of kind `κ`. -/
def ClausesAre (κ : Kind) : Expr → Prop :=
  Every fun e => ∀ line pairs body, e = .handled line pairs body →
    ∀ pair ∈ pairs, κ = .value ∨ κ = .clause ∧ pair.2.isClause = true

/-- Nothing is asked of clauses that are any values. -/
theorem clausesAre_value (e : Expr) : e.ClausesAre .value :=
  every_of_forall (fun _ _ _ _ _ _ _ => Or.inl rfl) e

end Expr

namespace Code

variable {κ : Kind} {code : Code Value}

theorem Captures.congr {s t : Symbol} (hcaptures : code.Captures t) (hsame : (s == t) = true) :
    code.Captures s := by
  obtain ⟨c, hmem, hname⟩ := hcaptures
  refine ⟨c, hmem, ?_⟩
  rw [Symbol.beq_iff] at hname hsame ⊢
  omega

theorem Access.typed_loads {Γ : Lexical} {symbol : Symbol} {a b line : Nat}
    (haccess : code.Access Γ .loads symbol a line b) (ρ : List Kind) :
    code.Typed κ a b ρ (ρ ++ [.value]) := by
  cases haccess with
  | slot _ hroom hat => simpa using Typed.indexed hat (.loadLocal hroom) nofun ρ
  | captured _ hcaptures hsymbol hat =>
    obtain ⟨s, hconstant, hsame⟩ := hsymbol
    simpa using Typed.indexed hat (.loadCaptured hconstant (hcaptures.congr hsame)) nofun ρ
  | global _ hsymbol hat =>
    obtain ⟨s, hconstant, _⟩ := hsymbol
    simpa using Typed.indexed hat (.loadGlobal hconstant) nofun ρ

theorem Access.typed_stores {Γ : Lexical} {symbol : Symbol} {a b line : Nat}
    (haccess : code.Access Γ .stores symbol a line b) (ρ : List Kind) :
    code.Typed κ a b (ρ ++ [.value]) ρ := by
  cases haccess with
  | slot _ hroom hat => simpa using Typed.indexed hat (.storeLocal hroom) nofun ρ
  | captured _ hcaptures hsymbol hat =>
    obtain ⟨s, hconstant, hsame⟩ := hsymbol
    simpa using Typed.indexed hat (.storeCaptured hconstant (hcaptures.congr hsame)) nofun ρ
  | global _ hsymbol hat =>
    obtain ⟨s, hconstant, _⟩ := hsymbol
    simpa using Typed.indexed hat (.storeGlobal hconstant) nofun ρ

theorem At.typed_pushNone {a line : Nat} (hat : code.At a .pushNone 0 line) (ρ : List Kind) :
    code.Typed κ a (a + 1) ρ (ρ ++ [.value]) := by
  simpa [Op.width] using Typed.straight hat .pushNone nofun ρ

/-- What a function captures can be supplied where it is made. -/
theorem canSupply_of_supplies {Γ : Lexical} {c : Capture} (hsupplies : Γ.Supplies code c) :
    code.CanSupply c := by
  unfold Lexical.Supplies at hsupplies
  unfold CanSupply
  cases hsource : c.source with
  | slot n =>
    rw [hsource] at hsupplies
    exact hsupplies.2
  | enclosing =>
    rw [hsource] at hsupplies
    exact hsupplies.2

end Code

open Code

variable {o : CompileOptions} {names : Names} {κ : Kind}

/-- Making a function leaves a value, and a function of two parameters is a clause. -/
theorem LayoutFunction.typed {code f : Code Value} {Γ : Lexical} {line line' a b i id : Nat}
    {name : Option String} {params : List String} {body : Expr} {k : Kind}
    (hfunction : LayoutFunction o names code Γ line name params body f)
    (hconstant : code.constants[i]? = some (.code id f))
    (hat : code.Indexed a .lambda i line' b) (hkind : k = .value ∨ k = .clause ∧ params.length = 2)
    (ρ : List Kind) : code.Typed κ a b ρ (ρ ++ [k]) := by
  cases hfunction with
  | intro hheader _ _ _ =>
    have hsupplied : ∀ c ∈ f.captures, code.CanSupply c := by
      intro c hmem
      exact canSupply_of_supplies (hheader.captures c hmem)
    have harity : f.arity = params.length := hheader.params_eq.length_eq.symm
    rw [← harity] at hkind
    simpa using Typed.indexed hat (.lambda hconstant hsupplied hkind) nofun ρ

/-- A clause is made as such. -/
theorem Layout.typed_clause {code : Code Value} {Γ Γ' : Lexical} {tail : Bool} {e : Expr} {a b : Nat}
    (hlayout : Layout o names code Γ tail e a Γ' b) (hclause : e.isClause = true) (ρ : List Kind) :
    code.Typed κ a b ρ (ρ ++ [.clause]) := by
  cases hlayout with
  | lambda hfunction hconstant hat =>
    exact hfunction.typed hconstant hat (Or.inr ⟨rfl, by simpa [Expr.isClause] using hclause⟩) ρ
  | literal hliteral => cases e <;> first | cases hclause | cases hliteral
  | _ => cases hclause

mutual

/-- An expression leaves one value. -/
theorem Layout.typed {code : Code Value} {Γ Γ' : Lexical} {tail : Bool} {e : Expr} {a b : Nat}
    (hclauses : e.ClausesAre κ) (htail : tail = true → code.Returns b) (ρ : List Kind) :
    Layout o names code Γ tail e a Γ' b → code.Typed κ a b ρ (ρ ++ [.value])
  | .nothing hat => hat.typed_pushNone ρ
  | .literal hliteral hconstant hat => by
    have hstraight : code.Straight κ .constant _ [] [.value] :=
      .literal hconstant (Expr.isLiteral_of_literal? hliteral)
    simpa using Typed.indexed hat hstraight nofun ρ
  | .name _ haccess => haccess.typed_loads ρ
  | .call hargs hcallee hat => by
    have hall := hargs.typed (fun e hmem => hclauses.part (by simp [Expr.parts, hmem])) ρ
    have hfunction := fun σ => hcallee.typed (hclauses.part (by simp [Expr.parts])) (by nofun) σ
    have hcall : ∀ n, code.Straight κ (if tail then Op.tailCall else Op.call).narrow n
        (List.replicate n .value ++ [.value]) [.value] := by
      intro n
      cases tail
      · exact .call
      · exact .tailCall
    have htailed : (if tail then Op.tailCall else Op.call) = .tailCall → tail = true := by
      cases tail <;> simp
    have hlast := Typed.straight hat (hcall _) (fun h => htail (htailed h)) ρ
    have hwidth : (if tail then Op.tailCall else Op.call).width = 1 := by cases tail <;> rfl
    rw [hwidth, ← List.append_assoc] at hlast
    exact (hall.append (hfunction _)).append hlast
  | .condElse htest hatElse hm htrue hatEnd hn hfalse =>
    .cond (htest.typed (hclauses.part (by simp [Expr.parts])) (by nofun) ρ) hatElse hm
      (htrue.typed (hclauses.part (by simp [Expr.parts]))
        (fun h => .jump hatEnd (hn ▸ htail h)) ρ) hatEnd hn
      (hfalse.typed (hclauses.part (by simp [Expr.parts])) htail ρ)
  | .condOnly htest hatElse hm htrue hatEnd hn hfalse =>
    .cond (htest.typed (hclauses.part (by simp [Expr.parts])) (by nofun) ρ) hatElse hm
      (htrue.typed (hclauses.part (by simp [Expr.parts]))
        (fun h => .jump hatEnd (hn ▸ htail h)) ρ) hatEnd hn (hfalse.typed_pushNone ρ)
  | .lambda hfunction hconstant hat => hfunction.typed hconstant hat (Or.inl rfl) ρ
  | .blockEmpty hat => hat.typed_pushNone ρ
  | .block hbody => hbody.typed (fun e hmem => hclauses.part hmem) htail ρ
  | .declareGlobal hvalue _ _ hsymbol hat hnone => by
    obtain ⟨s, hconstant, _⟩ := hsymbol
    have hstored := (Typed.indexed hat (.storeGlobal hconstant) nofun ρ : code.Typed κ _ _ _ _)
    rw [List.append_nil] at hstored
    exact ((hvalue.typed (hclauses.part (by simp [Expr.parts])) (by nofun) ρ).append hstored).append
      (hnone.typed_pushNone ρ)
  | .declareLocal hvalue _ _ hroom hat hnone => by
    have hstored := (Typed.indexed hat (.storeLocal hroom) nofun ρ : code.Typed κ _ _ _ _)
    rw [List.append_nil] at hstored
    exact ((hvalue.typed (hclauses.part (by simp [Expr.parts])) (by nofun) ρ).append hstored).append
      (hnone.typed_pushNone ρ)
  | .assign hvalue _ haccess hnone =>
    ((hvalue.typed (hclauses.part (by simp [Expr.parts])) (by nofun) ρ).append
      (haccess.typed_stores ρ)).append (hnone.typed_pushNone ρ)
  | .list hitems hat =>
    (hitems.typed (fun e hmem => hclauses.part hmem) ρ).append (Typed.straight hat .buildList nofun ρ)
  | .tuple hitems hat =>
    (hitems.typed (fun e hmem => hclauses.part hmem) ρ).append (Typed.straight hat .buildTuple nofun ρ)
  | .record hfields hat =>
    (hfields.typed
      (fun f hmem => hclauses.part (List.mem_map.2 ⟨f, hmem, rfl⟩)) ρ).append
      (Typed.straight hat .buildRecord nofun ρ)
  | .field htarget _ hsymbol hat => by
    obtain ⟨s, hconstant, _⟩ := hsymbol
    exact (htarget.typed (hclauses.part (by simp [Expr.parts])) (by nofun) ρ).append
      (Typed.indexed hat (.getField hconstant) nofun ρ)
  | .handled hpairs hatMake hfunction hconstant hatBody hat => by
    have hkind := hclauses.here _ _ _ rfl
    have hmade := (hpairs.typed (fun p hmem => hclauses.pair hmem) hkind ρ).append
      (Typed.straight hatMake .makeHandler nofun ρ)
    have hbody := hfunction.typed (κ := κ) hconstant hatBody (Or.inl rfl) (ρ ++ [.handler])
    rw [List.append_assoc] at hbody
    exact (hmade.append hbody).append (Typed.straight hat .handle nofun ρ)

/-- Expressions whose values are kept leave as many values. -/
theorem LayoutAll.typed {code : Code Value} {Γ Γ' : Lexical} {es : List Expr} {a b : Nat}
    (hclauses : ∀ e ∈ es, e.ClausesAre κ) (ρ : List Kind) :
    LayoutAll o names code Γ es a Γ' b →
      code.Typed κ a b ρ (ρ ++ List.replicate es.length .value)
  | .nil => by simpa using Typed.refl κ code a ρ
  | .cons hfirst hrest => by
    have hone := hfirst.typed (hclauses _ (by simp)) (by nofun) ρ
    have hothers := hrest.typed (fun e hmem => hclauses e (by simp [hmem])) (ρ ++ [.value])
    rw [List.append_assoc] at hothers
    exact hone.append hothers

/-- Statements leave one value. -/
theorem LayoutStatements.typed {code : Code Value} {Γ Γ' : Lexical} {tail : Bool} {es : List Expr}
    {a b : Nat} (hclauses : ∀ e ∈ es, e.ClausesAre κ) (htail : tail = true → code.Returns b)
    (ρ : List Kind) :
    LayoutStatements o names code Γ tail es a Γ' b → code.Typed κ a b ρ (ρ ++ [.value])
  | .last hlast => hlast.typed (hclauses _ (by simp)) htail ρ
  | .cons hfirst hat hrest => by
    have hone := hfirst.typed (hclauses _ (by simp)) (by nofun) ρ
    have hdropped := (Typed.straight hat .pop nofun ρ : code.Typed κ _ _ _ _)
    rw [List.append_nil] at hdropped
    exact (hone.append hdropped).append
      (hrest.typed (fun e hmem => hclauses e (by simp [hmem])) htail ρ)

/-- Fields leave their names and values in turn. -/
theorem LayoutFields.typed {code : Code Value} {Γ Γ' : Lexical} {line : Nat}
    {fields : List (String × Expr)} {a b : Nat} (hclauses : ∀ f ∈ fields, f.2.ClausesAre κ)
    (ρ : List Kind) :
    LayoutFields o names code Γ line fields a Γ' b →
      code.Typed κ a b ρ (ρ ++ (List.replicate fields.length [.key, .value]).flatten)
  | .nil => by simpa using Typed.refl κ code a ρ
  | .cons _ hconstant hat hvalue hrest => by
    have hkey := (Typed.indexed hat (.key hconstant) nofun ρ : code.Typed κ _ _ _ _)
    rw [List.append_nil] at hkey
    have hone := hvalue.typed (hclauses _ (List.mem_cons_self ..)) (by nofun) (ρ ++ [.key])
    have hothers := hrest.typed (fun f hmem => hclauses f (by simp [hmem])) (ρ ++ [.key] ++ [.value])
    have htyped := (hkey.append hone).append hothers
    simpa [List.replicate_succ] using htyped

/-- Clauses leave their effects and functions in turn. -/
theorem LayoutPairs.typed {code : Code Value} {Γ Γ' : Lexical} {pairs : List (Expr × Expr)}
    {a b : Nat} (hclauses : ∀ p ∈ pairs, p.1.ClausesAre κ ∧ p.2.ClausesAre κ)
    (hkinds : ∀ p ∈ pairs, κ = .value ∨ κ = .clause ∧ p.2.isClause = true) (ρ : List Kind) :
    LayoutPairs o names code Γ pairs a Γ' b →
      code.Typed κ a b ρ (ρ ++ (List.replicate pairs.length [.value, κ]).flatten)
  | .nil => by simpa using Typed.refl κ code a ρ
  | .cons heffect hfunction hrest => by
    obtain ⟨hinEffect, hinFunction⟩ := hclauses _ (List.mem_cons_self ..)
    have hone := heffect.typed hinEffect (by nofun) ρ
    have hothers := fun σ => hrest.typed (fun p hmem => hclauses p (by simp [hmem]))
      (fun p hmem => hkinds p (by simp [hmem])) σ
    obtain hkind | ⟨hkind, hbinary⟩ := hkinds _ (List.mem_cons_self ..)
    · have hclause := hfunction.typed hinFunction (by nofun) (ρ ++ [.value])
      simpa [List.replicate_succ, hkind] using (hone.append hclause).append (hothers _)
    · have hclause := (hfunction.typed_clause hbinary (ρ ++ [.value]) : code.Typed κ _ _ _ _)
      simpa [List.replicate_succ, hkind] using (hone.append hclause).append (hothers _)

end

/-- The code of a function is well typed. -/
theorem LayoutFunction.wellTyped {code f : Code Value} {Γ : Lexical} {line : Nat}
    {name : Option String} {params : List String} {body : Expr} (hbody : body.ClausesAre κ)
    (hfunction : LayoutFunction o names code Γ line name params body f) :
    ∃ H last, f.WellTyped κ H last := by
  cases hfunction with
  | intro hheader hlayout hret hsize =>
    obtain ⟨H, htyped⟩ := hlayout.typed hbody (fun _ => .ret hret) []
    exact ⟨H, _, htyped, ⟨_, hret⟩, hsize, hheader.lined, hheader.room⟩

theorem FunctionsLaidOut.sound {code : Code Value}
    (hfunctions : FunctionsLaidOut (Expr.ClausesAre κ) o names code) {H : Typing} {last : Nat}
    (htyped : code.WellTyped κ H last) : code.Sound κ := by
  induction hfunctions generalizing H last with
  | @intro code _ hplace hnested ih =>
    refine .intro htyped ?_ ?_
    · intro id f hmem c hcapture
      obtain ⟨Γ, line, name, params, body, _, hfunction⟩ := hplace id f hmem
      cases hfunction with
      | intro hheader _ _ _ => exact canSupply_of_supplies (hheader.captures c hcapture)
    · intro id f hmem
      obtain ⟨Γ, line, name, params, body, hbody, hfunction⟩ := hplace id f hmem
      obtain ⟨H, last, htyped⟩ := hfunction.wellTyped hbody
      exact ih id f hmem htyped

/-- The code of a program is sound, and so are all functions in it. -/
theorem LayoutProgram.sound {program : Program} {code : Code Value}
    (hlayout : LayoutProgram (Expr.ClausesAre κ) o names program code)
    (hclauses : ∀ e ∈ program, e.ClausesAre κ) : code.Sound κ := by
  obtain ⟨Γ', n, line, hret, hsize, hform⟩ := hlayout.body
  have hroom : code.params.length + code.selfName.toList.length ≤ code.localCount := by
    simp [hlayout.params, hlayout.selfName]
  have htyped : code.Typed κ 0 n [] [.value] := by
    obtain ⟨_, hn, hnone, _⟩ | ⟨last, _, _, hbody⟩ := hform
    · rw [hn]
      exact hnone.typed_pushNone []
    · exact hbody.typed hclauses (fun _ => .ret hret) []
  obtain ⟨H, htyped⟩ := htyped
  exact hlayout.functions.sound ⟨htyped, ⟨line, hret⟩, hsize, hlayout.lined, hroom⟩

end Resumable
