import Resumable.Proofs.Compile.Resolution
import Resumable.Proofs.Engine.Prelude

/-!
The modules of a new engine. Each is a record in a global variable, and a program finds every member
under its name.
-/

namespace Resumable

open Library

namespace Library.Member

/-- The name of a member. -/
def name : Member → String
  | function entry => entry.name
  | constant name _ => name

/-- What a member may have as its value. -/
def Gives : Member → Value → Prop
  | function entry, v => ∃ id, v = .native id entry.name entry.arity entry.function
  | constant _ value, v => v = value

/-- A field of a record has the symbol and a value of a member. -/
def Describes (names : Names) (member : Member) (field : Symbol × Value) : Prop :=
  names.find? member.name = some field.1 ∧ member.Gives field.2

/-- Fields that describe members of distinct names are found by name. -/
theorem get?_of_describes {names : Names} {supply : Supply} (hnames : names.Coherent supply)
    {members : List Member} {fields : List (Symbol × Value)}
    (hfields : List.Forall₂ (Describes names) members fields) (hdistinct : (members.map name).Nodup) :
    ∀ member ∈ members, ∃ s v, names.find? member.name = some s ∧ Env.get? fields s = some v ∧
      member.Gives v := by
  induction hfields with
  | nil => nofun
  | @cons first field members fields hfirst _ ih =>
    rw [List.map_cons, List.nodup_cons] at hdistinct
    refine List.forall_mem_cons.2 ⟨⟨field.1, field.2, hfirst.1, ?_, hfirst.2⟩, fun member hmember => ?_⟩
    · rw [Env.get?_cons, if_pos (Symbol.beq_iff.2 rfl)]
    · obtain ⟨s, v, hs, hfield, hgives⟩ := ih hdistinct.2 member hmember
      have hne : first.name ≠ member.name := fun heq => hdistinct.1 (heq ▸ List.mem_map_of_mem hmember)
      refine ⟨s, v, hs, ?_, hgives⟩
      rw [Env.get?_cons, hnames.beq_eq hfirst.1 hs, if_neg (by simpa using hne)]
      exact hfield

end Library.Member

namespace Engine

variable {e : Engine}

/-- The value of a field of the record in a global variable, as far as this engine knows both names. -/
def member? (e : Engine) (module name : String) : Option Value :=
  match e.get? module, e.names.find? name with
  | some (.record fields), some s => Env.get? fields s
  | _, _ => none

theorem member?_eq_some {module x : String} {v : Value} : e.member? module x = some v ↔
    ∃ fields s, e.get? module = some (.record fields) ∧ e.names.find? x = some s ∧
      Env.get? fields s = some v := by
  constructor
  · intro h
    unfold member? at h
    split at h
    next fields s hmodule hs => exact ⟨fields, s, hmodule, hs, h⟩
    next => cases h
  · rintro ⟨fields, s, hmodule, hs, hfield⟩
    rw [member?, hmodule, hs]
    exact hfield

/-- Names that are known keep their symbols. -/
theorem Installs.find? (x : String) (s : Symbol) :
    Installs (fun e => e.names.find? x = some s) fun _ => True where
  draw _ h := h
  intern e name h := (Names.intern_spec e.names e.world.supply name).keeps x s h
  define e name _ h _ := (Names.intern_spec e.names e.world.supply name).keeps x s h
  native _ _ _ := trivial
  simple _ _ := trivial
  record _ _ := trivial

/-- The names and values of the members of a module, in order. -/
theorem makeMembers_spec (members : List Member) (e : Engine) (done : List (String × Value)) :
    ∃ made, (e.makeMembers done members).1 = done.reverse ++ made ∧
      List.Forall₂ (fun member p => p.1 = member.name ∧ member.Gives p.2) members made := by
  induction members generalizing e done with
  | nil => exact ⟨[], (List.append_nil _).symm, .nil⟩
  | cons member members ih =>
    cases member with
    | constant name value =>
      obtain ⟨made, heq, hmade⟩ := ih e ((name, value) :: done)
      refine ⟨(name, value) :: made, ?_, .cons ⟨rfl, rfl⟩ hmade⟩
      simpa [makeMembers] using heq
    | function entry =>
      obtain ⟨made, heq, hmade⟩ := ih (e.makeNative entry).2 ((entry.name, (e.makeNative entry).1) :: done)
      refine ⟨(entry.name, (e.makeNative entry).1) :: made, ?_, .cons ⟨rfl, _, rfl⟩ hmade⟩
      simpa [makeMembers] using heq

/-- The fields for the members of a module, in order. -/
theorem internFields_spec {members : List Member} {made : List (String × Value)}
    (hmade : List.Forall₂ (fun member p => p.1 = member.name ∧ member.Gives p.2) members made)
    (e : Engine) (done : List (Symbol × Value)) :
    ∃ fields, (e.internFields done made).1 = done.reverse ++ fields ∧
      List.Forall₂ (Member.Describes (e.internFields done made).2.names) members fields := by
  induction hmade generalizing e done with
  | nil => exact ⟨[], (List.append_nil _).symm, .nil⟩
  | @cons member p members made hmember _ ih =>
    obtain ⟨name, value⟩ := p
    obtain ⟨rfl, hgives⟩ : name = member.name ∧ member.Gives value := hmember
    obtain ⟨fields, heq, hfields⟩ :=
      ih (e.intern member.name).2 (((e.intern member.name).1, value) :: done)
    refine ⟨((e.intern member.name).1, value) :: fields, ?_, .cons ⟨?_, hgives⟩ hfields⟩
    · simpa [internFields] using heq
    · -- The names that are interned after this one leave its symbol alone.
      have hname : (e.intern member.name).2.names.find? member.name = some (e.intern member.name).1 :=
        (Names.intern_spec e.names e.world.supply member.name).find_eq
      exact ((Installs.find? _ _).internFields hname (fun _ _ => trivial) fun _ _ => trivial).2

/-- A module that has just been installed has its members. -/
theorem member?_installModule (he : e.names.Coherent e.world.supply) {module : String × List Member}
    (hdistinct : (module.2.map Member.name).Nodup) :
    ∀ member ∈ module.2, ∃ v, (e.installModule module).member? module.1 member.name = some v ∧
      member.Gives v := by
  obtain ⟨made, hmade, hgives⟩ := makeMembers_spec module.2 e []
  obtain ⟨e₁, he₁⟩ : ∃ e₁, e₁ = (e.makeMembers [] module.2).2 := ⟨_, rfl⟩
  obtain ⟨fields, hfields, hdescribes⟩ := internFields_spec hgives e₁ []
  obtain ⟨e₂, he₂⟩ : ∃ e₂, e₂ = (e₁.internFields [] made).2 := ⟨_, rfl⟩
  rw [List.reverse_nil, List.nil_append] at hmade hfields
  rw [← he₂] at hdescribes
  have hinstall : e.installModule module = e₂.define module.1 (.record fields) := by
    rw [he₂, he₁, ← hfields, he₁, ← hmade]
    rfl
  have hnames : e₂.names.Coherent e₂.world.supply := by
    rw [he₂, he₁]
    exact (Extends.internFields made _ []).names ((Extends.makeMembers module.2 e []).names he)
  intro member hmember
  obtain ⟨s, v, hs, hfield, hvalue⟩ := Member.get?_of_describes hnames hdescribes hdistinct member hmember
  rw [hinstall]
  exact ⟨v, member?_eq_some.2 ⟨fields, s, get?_define_self e₂ module.1 _,
    (Installs.find? _ s).define _ _ _ hs trivial, hfield⟩, hvalue⟩

theorem member?_installModules {modules : List (String × List Member)}
    (he : e.names.Coherent e.world.supply) (hdistinct : (modules.map Prod.fst).Nodup)
    (hmembers : ∀ module ∈ modules, (module.2.map Member.name).Nodup)
    (hplain : ∀ module ∈ modules, ∀ member ∈ module.2, member.isPlain = true) :
    ∀ module ∈ modules, ∀ member ∈ module.2,
      ∃ v, (modules.foldl installModule e).member? module.1 member.name = some v ∧ member.Gives v := by
  induction modules generalizing e with
  | nil => nofun
  | cons first modules ih =>
    rw [List.map_cons, List.nodup_cons] at hdistinct
    have hfirst : (e.installModule first).names.Coherent (e.installModule first).world.supply :=
      (Extends.installModule e first).names he
    obtain ⟨hone, hrest⟩ := List.forall_mem_cons.1 hmembers
    obtain ⟨_, hplain⟩ := List.forall_mem_cons.1 hplain
    refine List.forall_mem_cons.2 ⟨fun member hmember => ?_, ih hfirst hdistinct.2 hrest hplain⟩
    obtain ⟨v, hv, hgives⟩ := member?_installModule he hone member hmember
    obtain ⟨fields, s, hmodule, hs, hfield⟩ := member?_eq_some.1 hv
    refine ⟨v, member?_eq_some.2 ⟨fields, s, ?_, ?_, hfield⟩, hgives⟩
    · exact (Extends.installModules modules _).keeps hfirst _ _ hdistinct.1 hmodule
    · exact (Installs.find? _ s).installModules hs hplain

/-- On a new engine, all members of the modules of the library are found. -/
theorem member?_create (limits : Limits) (clock : Nat) :
    ∀ module ∈ modules, ∀ member ∈ module.2,
      ∃ v, (create limits clock).member? module.1 member.name = some v ∧ member.Gives v := by
  unfold create installLibrary
  have hnames := (Extends.defineNatives entries { world := { clock }, thread := { limits } }).names
    Names.coherent_empty
  exact member?_installModules hnames (by decide) (by decide) modules_isPlain

end Engine

end Resumable
