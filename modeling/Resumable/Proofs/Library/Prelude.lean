import Resumable.Proofs.Compile.Site
import Resumable.Run

/-!
The functions of the prelude as they are written, and where they are found once the prelude has run.
-/

namespace Resumable

open Meaning

/-- A name that is known is that of a global variable with the given value. -/
def Names.Provides (names : Names) (w : World) (x : String) (v : Value) : Prop :=
  ∀ s, names.find? x = some s → w.globals.get? s = some v

namespace Library

/-- A function that is written as the value of a global variable. -/
structure Definition where
  line : Nat
  name : String
  params : List String
  body : Expr

namespace Definition

/-- The declaration of the function. -/
def expr (d : Definition) : Expr :=
  .declare d.line d.name (.lambda d.line (some d.name) d.params d.body)

end Definition

namespace Prelude

def id : Definition where
  line := 2
  name := "id"
  params := ["x"]
  body := .name 2 "x"

def compose : Definition where
  line := 3
  name := "compose"
  params := ["f", "g"]
  body := .lambda 3 none ["x"] (.callOf 3 "f" [.callOf 3 "g" [.name 3 "x"]])

def fold : Definition where
  line := 4
  name := "fold"
  params := ["f", "acc", "xs"]
  body := .cond 4 (.callOf 4 "==" [.callOf 4 "len" [.name 4 "xs"], .int 4 0]) (.name 4 "acc")
    (some (.callOf 4 "fold" [.name 4 "f",
      .callOf 4 "f" [.name 4 "acc", .callOf 4 "head" [.name 4 "xs"]],
      .callOf 4 "tail" [.name 4 "xs"]]))

def map : Definition where
  line := 5
  name := "map"
  params := ["f", "xs"]
  body := .callOf 5 "fold"
    [.lambda 5 none ["acc", "x"] (.callOf 5 "push" [.name 5 "acc", .callOf 5 "f" [.name 5 "x"]]),
      .list 5 [], .name 5 "xs"]

def filter : Definition where
  line := 6
  name := "filter"
  params := ["p", "xs"]
  body := .callOf 6 "fold"
    [.lambda 6 none ["acc", "x"] (.cond 6 (.callOf 6 "p" [.name 6 "x"])
        (.callOf 6 "push" [.name 6 "acc", .name 6 "x"]) (some (.name 6 "acc"))),
      .list 6 [], .name 6 "xs"]

def reverse : Definition where
  line := 7
  name := "reverse"
  params := ["xs"]
  body := .callOf 7 "fold"
    [.lambda 7 none ["acc", "x"] (.callOf 7 "+" [.list 7 [.name 7 "x"], .name 7 "acc"]),
      .list 7 [], .name 7 "xs"]

def sum : Definition where
  line := 8
  name := "sum"
  params := ["xs"]
  body := .callOf 8 "fold"
    [.lambda 8 none ["a", "b"] (.callOf 8 "+" [.name 8 "a", .name 8 "b"]), .int 8 0, .name 8 "xs"]

def apply : Definition where
  line := 9
  name := "apply"
  params := ["f", "args"]
  body := .cond 9 (.callOf 9 "==" [.callOf 9 "len" [.name 9 "args"], .int 9 0]) (.name 9 "f")
    (some (.callOf 9 "apply" [.callOf 9 "f" [.callOf 9 "head" [.name 9 "args"]],
      .callOf 9 "tail" [.name 9 "args"]]))

/-- The functions of the prelude in order. -/
def definitions : List Definition :=
  [id, compose, fold, map, filter, reverse, sum, apply]

/-- The program that the source text of the prelude is. -/
def program : Program :=
  definitions.map Definition.expr

end Prelude

section Reading

/-- What is read from a scan. -/
def ofScan (scan : Scan) : Except SourceFailure Program :=
  match Program.ofTokens scan.tokens with
  | .program p => if scan.errors.isEmpty then .ok p else .error (.malformed scan.errors)
  | .faulty errors => .error (.malformed ((scan.errors ++ errors).mergeSort SyntaxError.notAfter))
  | .unending => .error .unending

theorem ofSource_of_toList {source : String} {cs : List Char} (hchars : source.toList = cs) :
    Program.ofSource source = ofScan (Scan.follow [] [] {} 0 cs) := by
  subst hchars
  rfl

set_option maxRecDepth 100000 in
theorem ofSource_prelude : Program.ofSource prelude = .ok Prelude.program := by
  have hchars : prelude.toList = "\n".toList.intercalate (List.map String.toList
      ["",
        "var id = |x| x;",
        "var compose = |f, g| |x| f(g(x));",
        "var fold = |f, acc, xs| if len(xs) == 0: acc else: " ++
          "fold(f, f(acc, head(xs)), tail(xs));",
        "var map = |f, xs| fold(|acc, x| push(acc, f(x)), [], xs);",
        "var filter = |p, xs| fold(|acc, x| if p(x): push(acc, x) else: acc, [], xs);",
        "var reverse = |xs| fold(|acc, x| [x] + acc, [], xs);",
        "var sum = |xs| fold(|a, b| a + b, 0, xs);",
        "var apply = |f, args| if len(args) == 0: f else: " ++
          "apply(f(head(args)), tail(args));",
        ""]) :=
    String.toList_intercalate
  simp only [List.map, String.toList_append, String.reduceToList] at hchars
  exact (ofSource_of_toList hchars).trans rfl

end Reading

theorem Prelude.lower_program : program.lower = .ok program :=
  rfl

/-- A global variable has the function of a definition. -/
def Defined (G : Ground) (w : World) (d : Definition) : Prop :=
  (G.reading.names.find? d.name).isSome ∧ ∃ id f env,
    Lexical.Encloses G {} [] (some d.name) d.params d.body f env ∧
      G.reading.names.Provides w d.name (.closure id f env)

/-- The global variables have the functions of the library and of the prelude. -/
structure Stocked (G : Ground) (w : World) : Prop where
  natives : ∀ entry ∈ entries, ∃ id,
    G.reading.names.Provides w entry.name (.native id entry.name entry.arity entry.function)
  functions : ∀ d ∈ Prelude.definitions, Defined G w d

theorem Defined.congr {G : Ground} {w w' : World} {d : Definition} (h : Defined G w d)
    (hsame : ∀ s, G.reading.names.find? d.name = some s → w'.globals.get? s = w.globals.get? s) :
    Defined G w' d := by
  obtain ⟨hknown, id, f, env, hcode, hprovides⟩ := h
  exact ⟨hknown, id, f, env, hcode, fun s hs => (hsame s hs).trans (hprovides s hs)⟩

variable {S : Site}

/-- All global variables but those of some names are as they were. -/
def Keeps (names : Names) (changed : List String) (w w' : World) : Prop :=
  ∀ x s, names.find? x = some s → x ∉ changed → w'.globals.get? s = w.globals.get? s

theorem yields_definition (hscope : S.scope = {}) (hvars : S.vars = []) (d : Definition) (w : World) :
    S.Yields [] d.expr w fun _ w' =>
      Defined S.ground w' d ∧ Keeps S.ground.reading.names [d.name] w w' := by
  refine Site.yields_declare (by rw [hscope]; rfl) (Site.yields_lambda fun f env hcode s hs => ?_)
  rw [hscope, hvars] at hcode
  refine ⟨⟨by rw [hs]; rfl, w.draw.1, f, env, hcode, fun t ht => ?_⟩, fun x t ht hx => ?_⟩
  · obtain rfl := Option.some.inj (hs.symm.trans ht)
    rw [Globals.get?_set, if_pos (Symbol.beq_iff.2 rfl)]
  · rw [List.mem_singleton] at hx
    rw [Globals.get?_set, if_neg (by rw [Ground.ne_of_ne hs ht (Ne.symm hx)]; exact Bool.false_ne_true)]
    rfl

/-- Functions that are defined in turn are the values of their names. -/
theorem endsAll_definitions (hscope : S.scope = {}) (hvars : S.vars = []) {ds : List Definition}
    (hne : ds ≠ []) (hdistinct : (ds.map Definition.name).Nodup) (w : World) :
    S.EndsAll (ds.map Definition.expr) w fun _ w' => (∀ d ∈ ds, Defined S.ground w' d) ∧
      Keeps S.ground.reading.names (ds.map Definition.name) w w' := by
  induction ds generalizing w with
  | nil => exact absurd rfl hne
  | cons d ds ih =>
    have hfirst := yields_definition hscope hvars d w
    cases ds with
    | nil =>
      refine Site.endsAll_last (Site.ends_declare (hfirst.mono ?_))
      rintro _ w' ⟨hdefined, hkeeps⟩
      exact ⟨by simpa using hdefined, hkeeps⟩
    | cons d' ds =>
      rw [List.map_cons, List.nodup_cons] at hdistinct
      refine Site.endsAll_cons (by simp) (hfirst.mono ?_)
      rintro _ w₁ ⟨hdefined, hkeeps⟩
      refine (ih nofun hdistinct.2 w₁).mono ?_
      rintro _ w' ⟨hall, hkeeps'⟩
      refine ⟨List.forall_mem_cons.2 ⟨?_, hall⟩, fun x s hs hx => ?_⟩
      · exact hdefined.congr fun s hs => hkeeps' d.name s hs hdistinct.1
      · rw [List.map_cons, List.mem_cons, not_or] at hx
        rw [hkeeps' x s hs hx.2, hkeeps x s hs (by simpa using hx.1)]

end Library

end Resumable
