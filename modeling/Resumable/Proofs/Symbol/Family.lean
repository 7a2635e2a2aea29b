import Mathlib.Data.Finset.Card
import Resumable.Proofs.Symbol

/-!
Families of tables of interned names. All tables of a family come from one table by cloning and draw
their numbers from one supply. However they are used in turn, a symbol stands for one name throughout
the family, and each table knows the names that it has interned or inherited.
-/

namespace Resumable

/-- The tables that come from one table, in the order in which they were made, and the supply that
they share. -/
structure Family where
  supply : Supply := {}
  tables : List Names := [{}]

/-- What is done with a table of a family, which is given by its place. -/
inductive Family.Use where
  | intern (table : Nat) (name : String)
  | lookup (table : Nat) (name : String)
  | clone (table : Nat)

namespace Family

/-- The symbol that a table has for a name. -/
def find? (f : Family) (table : Nat) (name : String) : Option Symbol :=
  f.tables[table]?.bind fun names => names.find? name

/-- Uses a table, which gives the symbol that was asked for. A clone comes behind all tables. -/
def perform (f : Family) : Use → Option Symbol × Family
  | .intern table name =>
    match f.tables[table]? with
    | some names =>
      let (symbol, names, supply) := names.intern f.supply name
      (some symbol, ⟨supply, f.tables.set table names⟩)
    | none => (none, f)
  | .lookup table name => (f.find? table name, f)
  | .clone table =>
    match f.tables[table]? with
    | some names => (none, { f with tables := f.tables ++ [names] })
    | none => (none, f)

/-- The family after tables have been used in turn, from a single empty table on. -/
def after (uses : List Use) : Family :=
  uses.foldl (fun f use => (f.perform use).2) {}

/-- The table and the name whose symbol is asked for. -/
def Use.asks? : Use → Option (Nat × String)
  | intern table name | lookup table name => some (table, name)
  | clone _ => none

/-- The names that each table has interned or inherited, one use later. -/
def Use.note (known : List (Finset String)) : Use → List (Finset String)
  | intern table name =>
    match known[table]? with
    | some names => known.set table (insert name names)
    | none => known
  | lookup _ _ => known
  | clone table =>
    match known[table]? with
    | some names => known ++ [names]
    | none => known

/-- The names that the tables know after they have been used in turn. -/
def known (uses : List Use) : List (Finset String) :=
  uses.foldl Use.note [∅]

theorem after_append (uses uses' : List Use) :
    after (uses ++ uses') = uses'.foldl (fun f use => (f.perform use).2) (after uses) :=
  List.foldl_append

/-- A symbol stands for one name in all tables, and it has been given out. -/
structure Coherent (f : Family) : Prop where
  drawn : ∀ {table name symbol}, f.find? table name = some symbol → symbol.id < f.supply.symbols
  distinct : ∀ {table table' name name' symbol symbol'}, f.find? table name = some symbol →
    f.find? table' name' = some symbol' → symbol.id = symbol'.id → name = name'

variable {f : Family} {table : Nat} {name : String} {symbol : Symbol}

theorem coherent_empty : ({} : Family).Coherent := by
  have hnone : ∀ {table name symbol}, ({} : Family).find? table name ≠ some symbol := by
    intro table name symbol hfind
    obtain ⟨names, hnames, hname⟩ := Option.bind_eq_some_iff.1 hfind
    cases table with
    | zero => cases hnames; cases hname
    | succ table => cases hnames
  exact ⟨fun h => absurd h hnone, fun h => absurd h hnone⟩

/-- What interning a name in a table does to what the tables know. -/
theorem find?_intern {names : Names} (hnames : f.tables[table]? = some names) (other : Nat)
    (name' : String) :
    (f.perform (.intern table name)).2.find? other name' =
      if other = table ∧ name' = name then some (names.intern f.supply name).1
      else f.find? other name' := by
  have htable : table < f.tables.length := (List.getElem?_eq_some_iff.1 hnames).1
  simp only [perform, find?, hnames]
  by_cases hother : other = table
  · subst hother
    rw [List.getElem?_set_self htable, hnames, Option.bind_some, Option.bind_some]
    by_cases hname : name' = name
    · subst hname
      rw [if_pos ⟨rfl, rfl⟩]
      exact (names.intern_spec f.supply name').find_eq
    · rw [if_neg fun h => hname h.2]
      unfold Names.intern
      cases names.find? name with
      | some symbol => rfl
      | none => exact (Names.find?_cons _ _ _ _).trans (if_neg hname)
  · rw [if_neg fun h => hother h.1, List.getElem?_set_ne (Ne.symm hother)]

theorem find?_clone {names : Names} (hnames : f.tables[table]? = some names) (other : Nat)
    (name' : String) :
    (f.perform (.clone table)).2.find? other name' =
      if other = f.tables.length then f.find? table name' else f.find? other name' := by
  simp only [perform, find?, hnames]
  by_cases hother : other = f.tables.length
  · subst hother
    rw [if_pos rfl, List.getElem?_concat_length]
  · rw [if_neg hother]
    by_cases hlt : other < f.tables.length
    · rw [List.getElem?_append_left hlt]
    · rw [List.getElem?_eq_none (by simp; omega), List.getElem?_eq_none (by omega)]

/-- A name keeps its symbol when a table is used. -/
theorem find?_perform (use : Use) (hfind : f.find? table name = some symbol) :
    (f.perform use).2.find? table name = some symbol := by
  cases use with
  | lookup table' name' => exact hfind
  | intern table' name' =>
    cases hnames : f.tables[table']? with
    | none => simpa only [perform, hnames] using hfind
    | some names =>
      rw [find?_intern hnames]
      split
      next hsame =>
        obtain ⟨rfl, rfl⟩ := hsame
        rw [find?, hnames, Option.bind_some] at hfind
        rw [Names.intern, hfind]
      next => exact hfind
  | clone table' =>
    cases hnames : f.tables[table']? with
    | none => simpa only [perform, hnames] using hfind
    | some names =>
      rw [find?_clone hnames]
      split
      next hlast =>
        subst hlast
        rw [find?, List.getElem?_eq_none (Nat.le_refl _)] at hfind
        cases hfind
      next => exact hfind

/-- A name keeps its symbol for ever. -/
theorem find?_foldl (uses : List Use) (hfind : f.find? table name = some symbol) :
    (uses.foldl (fun f use => (f.perform use).2) f).find? table name = some symbol := by
  induction uses generalizing f with
  | nil => exact hfind
  | cons use uses ih => exact ih (find?_perform use hfind)

/-- The symbol that is handed out is the one that the table has from then on. -/
theorem find?_of_answer {use : Use} (hasks : use.asks? = some (table, name))
    (hanswer : (f.perform use).1 = some symbol) :
    (f.perform use).2.find? table name = some symbol := by
  cases use with
  | clone table' => cases hasks
  | lookup table' name' =>
    cases hasks
    exact hanswer
  | intern table' name' =>
    cases hasks
    cases hnames : f.tables[table]? with
    | none =>
      simp only [perform, hnames] at hanswer
      cases hanswer
    | some names =>
      rw [find?_intern hnames, if_pos ⟨rfl, rfl⟩]
      simpa only [perform, hnames] using hanswer

/-- A name that a table knows is not given another symbol. -/
theorem answer_of_find? {use : Use} (hasks : use.asks? = some (table, name))
    (hfind : f.find? table name = some symbol) : (f.perform use).1 = some symbol := by
  cases use with
  | clone table' => cases hasks
  | lookup table' name' =>
    cases hasks
    exact hfind
  | intern table' name' =>
    cases hasks
    obtain ⟨names, hnames, hname⟩ := Option.bind_eq_some_iff.1 hfind
    simp only [perform, hnames, Names.intern, hname]

theorem symbols_le (f : Family) (use : Use) :
    f.supply.symbols ≤ (f.perform use).2.supply.symbols := by
  cases use with
  | lookup table name => exact Nat.le_refl _
  | intern table name =>
    simp only [perform]
    cases f.tables[table]? with
    | none => exact Nat.le_refl _
    | some names => exact (names.intern_spec f.supply name).symbols
  | clone table =>
    simp only [perform]
    cases f.tables[table]? <;> exact Nat.le_refl _

/-- A symbol that a table has after a use was there before, perhaps in another table, or it has just
been drawn for the name. -/
theorem find?_perform_cases {use : Use}
    (hfind : (f.perform use).2.find? table name = some symbol) :
    (∃ table', f.find? table' name = some symbol) ∨
      (∃ table', use = .intern table' name) ∧ symbol.id = f.supply.symbols ∧
        f.supply.symbols < (f.perform use).2.supply.symbols := by
  cases use with
  | lookup table' name' => exact Or.inl ⟨table, hfind⟩
  | clone table' =>
    cases hnames : f.tables[table']? with
    | none =>
      simp only [perform, hnames] at hfind
      exact Or.inl ⟨table, hfind⟩
    | some names =>
      rw [find?_clone hnames] at hfind
      split at hfind
      · exact Or.inl ⟨table', hfind⟩
      · exact Or.inl ⟨table, hfind⟩
  | intern table' name' =>
    cases hnames : f.tables[table']? with
    | none =>
      simp only [perform, hnames] at hfind
      exact Or.inl ⟨table, hfind⟩
    | some names =>
      rw [find?_intern hnames] at hfind
      split at hfind
      next hsame =>
        obtain ⟨rfl, rfl⟩ := hsame
        obtain rfl := Option.some.inj hfind
        cases hknown : names.find? name with
        | some known =>
          refine Or.inl ⟨table, ?_⟩
          rw [find?, hnames, Option.bind_some, Names.intern, hknown]
        | none =>
          refine Or.inr ⟨⟨table, rfl⟩, by rw [Names.intern, hknown], ?_⟩
          simp only [perform, hnames, Names.intern, hknown]
          exact Nat.lt_succ_self _
      next => exact Or.inl ⟨table, hfind⟩

/-- No use of a table gives one symbol to two names, in the same table or in different ones. -/
theorem Coherent.perform (hf : f.Coherent) (use : Use) : (f.perform use).2.Coherent := by
  refine ⟨?_, ?_⟩
  · intro table name symbol hfind
    obtain ⟨table', hold⟩ | ⟨_, hid, hlt⟩ := find?_perform_cases hfind
    · exact Nat.lt_of_lt_of_le (hf.drawn hold) (f.symbols_le use)
    · exact hid ▸ hlt
  · intro table table' name name' symbol symbol' hfind hfind' hsame
    obtain ⟨t, hold⟩ | ⟨⟨t, huse⟩, hid, _⟩ := find?_perform_cases hfind
    · obtain ⟨t', hold'⟩ | ⟨_, hid', _⟩ := find?_perform_cases hfind'
      · exact hf.distinct hold hold' hsame
      · have hdrawn := hf.drawn hold
        omega
    · obtain ⟨t', hold'⟩ | ⟨⟨t', huse'⟩, _, _⟩ := find?_perform_cases hfind'
      · have hdrawn := hf.drawn hold'
        omega
      · have hsame := huse.symm.trans huse'
        cases hsame
        rfl

/-- However the tables are used, a symbol stands for one name. -/
theorem coherent_after (uses : List Use) : (after uses).Coherent := by
  induction uses using List.reverseRecOn with
  | nil => exact coherent_empty
  | append_singleton uses use ih =>
    rw [after_append]
    exact ih.perform use

/-- What a table knows, as its entries show it. -/
structure Knows (names : Names) (known : Finset String) : Prop where
  nodup : (names.entries.map Prod.fst).Nodup
  keys : (names.entries.map Prod.fst).toFinset = known

theorem Knows.size_eq {names : Names} {known : Finset String} (hknows : Knows names known) :
    names.size = known.card := by
  rw [← hknows.keys, List.toFinset_card_of_nodup hknows.nodup, List.length_map]
  rfl

theorem Knows.isSome_iff {names : Names} {known : Finset String} (hknows : Knows names known)
    (name : String) : (names.find? name).isSome = true ↔ name ∈ known := by
  rw [← hknows.keys, List.mem_toFinset]
  obtain ⟨entries⟩ := names
  clear hknows
  induction entries with
  | nil => simp [Names.find?]
  | cons entry entries ih =>
    rw [Names.find?_cons, List.map_cons, List.mem_cons, ← ih]
    split
    next hsame => simp [hsame]
    next hdifferent => simp [hdifferent]

/-- A table that interns a name knows this name besides. -/
theorem Knows.intern {names : Names} {known : Finset String} (hknows : Knows names known)
    (supply : Supply) (name : String) :
    Knows (names.intern supply name).2.1 (insert name known) := by
  have hmem := hknows.isSome_iff name
  unfold Names.intern
  cases hfind : names.find? name with
  | some symbol =>
    rw [hfind] at hmem
    rwa [Finset.insert_eq_of_mem (hmem.1 rfl)]
  | none =>
    rw [hfind] at hmem
    have hnew : name ∉ known := fun h => nomatch hmem.2 h
    rw [← hknows.keys, List.mem_toFinset] at hnew
    refine ⟨List.nodup_cons.2 ⟨hnew, hknows.nodup⟩, ?_⟩
    rw [← hknows.keys]
    exact List.toFinset_cons

/-- The tables know the names that are noted for them. -/
structure Noted (f : Family) (known : List (Finset String)) : Prop where
  length_eq : known.length = f.tables.length
  knows : ∀ {table : Nat} {names : Names}, f.tables[table]? = some names →
    ∃ set : Finset String, known[table]? = some set ∧ Knows names set

variable {sets : List (Finset String)}

theorem Noted.intern (hnoted : Noted f sets) (table : Nat) (name : String) :
    Noted (f.perform (.intern table name)).2 ((Use.intern table name).note sets) := by
  cases hnames : f.tables[table]? with
  | none =>
    have hset : sets[table]? = none := by
      rw [List.getElem?_eq_none_iff] at hnames ⊢
      rw [hnoted.length_eq]
      exact hnames
    simpa only [perform, hnames, Use.note, hset] using hnoted
  | some names =>
    obtain ⟨set, hset, hknows⟩ := hnoted.knows hnames
    simp only [perform, hnames, Use.note, hset]
    refine ⟨by rw [List.length_set, List.length_set, hnoted.length_eq], ?_⟩
    intro other names' hother
    have htable := (List.getElem?_eq_some_iff.1 hnames).1
    by_cases hsame : table = other
    · subst hsame
      rw [List.getElem?_set_self htable] at hother
      obtain rfl := Option.some.inj hother
      rw [List.getElem?_set_self (by rw [hnoted.length_eq]; exact htable)]
      exact ⟨_, rfl, hknows.intern f.supply name⟩
    · rw [List.getElem?_set_ne hsame] at hother ⊢
      exact hnoted.knows hother

theorem Noted.clone (hnoted : Noted f sets) (table : Nat) :
    Noted (f.perform (.clone table)).2 ((Use.clone table).note sets) := by
  cases hnames : f.tables[table]? with
  | none =>
    have hset : sets[table]? = none := by
      rw [List.getElem?_eq_none_iff] at hnames ⊢
      rw [hnoted.length_eq]
      exact hnames
    simpa only [perform, hnames, Use.note, hset] using hnoted
  | some names =>
    obtain ⟨set, hset, hknows⟩ := hnoted.knows hnames
    simp only [perform, hnames, Use.note, hset]
    refine ⟨by rw [List.length_append, List.length_append, hnoted.length_eq]; rfl, ?_⟩
    intro other names' hother
    by_cases hold : other < f.tables.length
    · rw [List.getElem?_append_left hold] at hother
      rw [List.getElem?_append_left (by rw [hnoted.length_eq]; exact hold)]
      exact hnoted.knows hother
    · have hlast : other = f.tables.length := by
        have hlt := (List.getElem?_eq_some_iff.1 hother).1
        rw [List.length_append, List.length_singleton] at hlt
        omega
      subst hlast
      rw [List.getElem?_concat_length] at hother
      obtain rfl := Option.some.inj hother
      exact ⟨set, by rw [← hnoted.length_eq, List.getElem?_concat_length], hknows⟩

theorem noted_after (uses : List Use) : Noted (after uses) (known uses) := by
  induction uses using List.reverseRecOn with
  | nil =>
    refine ⟨rfl, ?_⟩
    intro table names hnames
    cases table with
    | zero =>
      obtain rfl := Option.some.inj hnames
      exact ⟨∅, rfl, List.nodup_nil, rfl⟩
    | succ table => cases hnames
  | append_singleton uses use ih =>
    rw [after_append, known, List.foldl_append]
    cases use with
    | lookup table name => exact ih
    | intern table name => exact ih.intern table name
    | clone table => exact ih.clone table

/-- Symbols never alias. Let `use` be a use of the family, and `later` one that comes at any time
after it, however the tables are used in between. Symbols that the two hand out, by whichever
tables, are equal only if they were asked for by the same name, and for the same name the table
answers with the same symbol for ever. A clone has the symbol that the table had for every name
known then. A table knows exactly the names that it has interned or inherited, as many as its size,
and looking a name up changes nothing. -/
theorem symbols_never_alias (before between : List Use) (use later : Use) :
    let f := after before
    let g := after (before ++ use :: between)
    (∀ (table table' : Nat) (name name' : String) (symbol symbol' : Symbol),
      use.asks? = some (table, name) → later.asks? = some (table', name') →
      (f.perform use).1 = some symbol → (g.perform later).1 = some symbol' →
      (symbol == symbol') = true → name = name') ∧
    (∀ (table : Nat) (name : String) (symbol : Symbol), use.asks? = some (table, name) →
      later.asks? = some (table, name) → (f.perform use).1 = some symbol →
      (g.perform later).1 = some symbol) ∧
    (∀ (table : Nat) (name : String) (symbol : Symbol), use = .clone table →
      f.find? table name = some symbol →
      g.find? table name = some symbol ∧ g.find? f.tables.length name = some symbol) ∧
    (∀ (table : Nat) (names : Names), f.tables[table]? = some names →
      ∃ set : Finset String, (known before)[table]? = some set ∧ names.size = set.card ∧
        ∀ name, (names.find? name).isSome = true ↔ name ∈ set) ∧
    ∀ (table : Nat) (name : String), use = .lookup table name → (f.perform use).2 = f := by
  intro f g
  have hlater : ∀ {table name symbol}, (f.perform use).2.find? table name = some symbol →
      g.find? table name = some symbol := by
    intro table name symbol hfind
    simp only [g, after_append]
    exact find?_foldl between hfind
  refine ⟨?_, ?_, ?_, ?_, ?_⟩
  · intro table table' name name' symbol symbol' hasks hasks' hanswer hanswer' hsame
    have hid : symbol.id = symbol'.id := by simpa [BEq.beq] using hsame
    have hfirst := find?_perform later (hlater (find?_of_answer hasks hanswer))
    exact ((coherent_after _).perform later).distinct hfirst (find?_of_answer hasks' hanswer') hid
  · intro table name symbol hasks hasks' hanswer
    exact answer_of_find? hasks' (hlater (find?_of_answer hasks hanswer))
  · rintro table name symbol rfl hfind
    refine ⟨hlater (find?_perform _ hfind), hlater ?_⟩
    obtain ⟨names, hnames, _⟩ := Option.bind_eq_some_iff.1 hfind
    rw [find?_clone hnames, if_pos rfl]
    exact hfind
  · intro table names hnames
    obtain ⟨set, hset, hknows⟩ := (noted_after before).knows hnames
    exact ⟨set, hset, hknows.size_eq, hknows.isSome_iff⟩
  · rintro table name rfl
    rfl

/-- A name that was interned before the table was cloned has the same symbol in the clone, also
after the table has gone on without it. -/
theorem symbols_never_alias_clone :
    (after [.intern 0 "x"]).find? 0 "x" = some ⟨0, "x"⟩ ∧
      (after [.intern 0 "x", .clone 0, .intern 0 "y"]).find? 1 "x" = some ⟨0, "x"⟩ := by
  have hknown : (after [.intern 0 "x"]).find? 0 "x" = some ⟨0, "x"⟩ := by rfl
  obtain ⟨_, _, hclone, _⟩ :=
    symbols_never_alias [.intern 0 "x"] [.intern 0 "y"] (.clone 0) (.lookup 1 "x")
  exact ⟨hknown, (hclone 0 "x" ⟨0, "x"⟩ rfl hknown).2⟩

end Family

end Resumable
