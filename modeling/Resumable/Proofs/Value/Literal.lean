import Resumable.Proofs.Expr.Printing
import Resumable.Proofs.Value.Rendering

/-!
The text of data is a program: the literal for that data. What is quoted is scanned as a string, a
negative number as a minus and its absolute value, and items between brackets one after the other.
-/

namespace Resumable

open Filter

namespace Scan

/-- Before `rest`, the text is scanned as the given lexemes. -/
def Passes (text : List Char) (ls : List Lexeme) (rest : List Char) : Prop :=
  ∀ tokens errors p, ∃ read : List Token, read.map Token.lexeme = ls ∧
    follow tokens errors p 0 (text ++ rest) =
      follow (read.reverse ++ tokens) errors (p.over text) 0 rest

section Passes

variable {text text' rest : List Char} {ls ls' : List Lexeme} {l : Lexeme}

theorem Passes.nil : Passes [] [] rest :=
  fun _ _ _ => ⟨[], rfl, rfl⟩

theorem Passes.append (h : Passes text ls (text' ++ rest)) (h' : Passes text' ls' rest) :
    Passes (text ++ text') (ls ++ ls') rest := by
  intro tokens errors p
  obtain ⟨read, hlexemes, hfollow⟩ := h tokens errors p
  obtain ⟨read', hlexemes', hfollow'⟩ := h' (read.reverse ++ tokens) errors (p.over text)
  refine ⟨read ++ read', by rw [List.map_append, hlexemes, hlexemes'], ?_⟩
  rw [List.append_assoc, hfollow, hfollow', List.reverse_append, List.append_assoc,
    Position.over_append]

theorem passes_piece {c : Char} {cs : List Char}
    (hpiece : Piece.start c (cs ++ rest) = { extra := cs.length, lexeme := some l }) :
    Passes (c :: cs) [l] rest :=
  fun tokens errors p => ⟨[⟨l, p.line, p.column⟩], rfl, follow_piece tokens errors p hpiece⟩

theorem passes_spelled (hl : l.Spelled text) (hrest : Apart rest) : Passes text [l] rest := by
  obtain ⟨c, cs, rfl, hpiece⟩ := Piece.start_spelled hl hrest
  exact passes_piece hpiece

/-- Marks that no other character prolongs. -/
theorem passes_mark {m : Mark} {c : Char} (h : Piece.start c rest = Piece.ofMark m) :
    Passes [c] [.mark m] rest :=
  passes_piece h

theorem passes_space : Passes [' '] [] rest :=
  fun tokens errors p => ⟨[], rfl, follow_space tokens errors p (.inl rfl) rest⟩

/-- The lexemes of a text that is scanned to its end. -/
theorem ofSource_of_passes {source : String} (h : Passes source.toList ls []) :
    (ofSource source).tokens.map Token.lexeme = ls ++ [.ending] ∧ (ofSource source).errors = [] := by
  obtain ⟨read, hlexemes, hfollow⟩ := h [] [] {}
  rw [List.append_nil, List.append_nil] at hfollow
  rw [ofSource, hfollow, follow, ← hlexemes]
  simp

end Passes

end Scan

namespace Value

mutual

/-- The literal for a value that is data. -/
def literal : Value → Expr
  | bool b => .bool 0 b
  | int n => .int 0 n
  | str s => .str 0 s
  | list items => .list 0 (literals items)
  | tuple items => .tuple 0 (literals items)
  | _ => .nothing 0

/-- The literals for several values. -/
def literals : List Value → List Expr
  | [] => []
  | v :: vs => v.literal :: literals vs

end

mutual

/-- The lexemes of the literal for a value that is data. -/
def lexemes : Value → List Lexeme
  | bool b => [.keyword (if b then .yes else .no)]
  | int n => if 0 ≤ n then [.int n] else [.mark .minus, .int (-n)]
  | str s => [.str s]
  | list items => between .openSquare .closeSquare (Resumable.commas (lexemesAll items))
  | tuple items => between .openParen .closeParen (tupleItems (lexemesAll items))
  | _ => [.keyword .nothing]

/-- The lexemes of the literals for several values. -/
def lexemesAll : List Value → List (List Lexeme)
  | [] => []
  | v :: vs => v.lexemes :: lexemesAll vs

end

theorem literals_eq_map (vs : List Value) : literals vs = vs.map literal := by
  induction vs with
  | nil => rfl
  | cons v vs ih => rw [literals, ih, List.map_cons]

theorem lexemesAll_eq_map (vs : List Value) : lexemesAll vs = vs.map lexemes := by
  induction vs with
  | nil => rfl
  | cons v vs ih => rw [lexemesAll, ih, List.map_cons]

end Value

/-- Characters that stand for themselves between quotes, or are written by a backslash and a letter. -/
def Text.ReadsBack (c : Char) : Prop :=
  Text.quoteChar c = [c] ∨ ∃ e, Escape c e ∧ Text.quoteChar c = ['\\', e]

/-- Data that has a literal: numbers with a negative, texts of characters that are read back, and lists
and tuples of such data. -/
inductive Value.HasLiteral : Value → Prop
  | none : HasLiteral .none
  | bool (b : Bool) : HasLiteral (.bool b)
  | int {n : Int64} (hmin : n ≠ Int64.minValue) : HasLiteral (.int n)
  | str {s : String} (hchars : ∀ c ∈ s.toList, Text.ReadsBack c) : HasLiteral (.str s)
  | list {items : List Value} (hitems : ∀ v ∈ items, HasLiteral v) : HasLiteral (.list items)
  | tuple {items : List Value} (hitems : ∀ v ∈ items, HasLiteral v) : HasLiteral (.tuple items)

section Leaves

theorem Text.quoted_flatMap {cs : List Char} (h : ∀ c ∈ cs, Text.ReadsBack c) :
    Quoted cs (cs.flatMap Text.quoteChar) := by
  induction cs with
  | nil => exact .nil
  | cons c cs ih =>
    obtain ⟨hc, hcs⟩ := List.forall_mem_cons.1 h
    rw [List.flatMap_cons]
    obtain hself | ⟨e, hescape, htext⟩ := hc
    · rw [hself]
      refine .raw ?_ ?_ (ih hcs) <;> rintro rfl <;> cases hself
    · rw [htext]
      exact .escaped hescape (ih hcs)

theorem Text.spelled_quote {s : String} (h : ∀ c ∈ s.toList, Text.ReadsBack c) :
    (Lexeme.str s).Spelled (Text.quote s).toList := by
  rw [Text.quote, String.toList_ofList]
  exact .str (Text.quoted_flatMap h)

theorem toList_of_nonneg {n : Int64} (hn : 0 ≤ n) :
    (toString n).toList = (Lexeme.int n).spell := by
  have hpos : 0 ≤ n.toInt := Int64.le_iff_toInt_le.1 hn
  change (Int.repr n.toInt).toList = Nat.toDigits 10 n.toInt.toNat
  rw [Int.repr_eq_if, if_pos hpos, Nat.toList_repr]

theorem toList_of_neg {n : Int64} (hn : ¬ 0 ≤ n) (hmin : n ≠ Int64.minValue) :
    (toString n).toList = '-' :: (Lexeme.int (-n)).spell := by
  have hneg : ¬ 0 ≤ n.toInt := fun h => hn (Int64.le_iff_toInt_le.2 h)
  change (Int.repr n.toInt).toList = '-' :: Nat.toDigits 10 (-n).toInt.toNat
  rw [Int.repr_eq_if, if_neg hneg, String.toList_append, Nat.toList_repr,
    toInt_neg_of_ne_minValue hmin]
  rfl

end Leaves

section Scanning

open Scan

variable {cells : Array Value} {rest : List Char}

theorem apart_cons {c : Char} (hc : EndsToken c) (rest : List Char) : Apart (c :: rest) := by
  rintro _ ⟨⟩
  exact hc

theorem passes_keyword (k : Keyword) (hrest : Apart rest) :
    Passes k.spelling.toList [.keyword k] rest :=
  passes_spelled (.keyword k) hrest

theorem passes_int {n : Int64} (hmin : n ≠ Int64.minValue) (hrest : Apart rest) :
    Passes (toString n).toList (Value.int n).lexemes rest := by
  by_cases hn : 0 ≤ n
  · rw [toList_of_nonneg hn, Value.lexemes, if_pos hn]
    exact passes_spelled (Lexeme.Writable.spelled hn) hrest
  · rw [toList_of_neg hn hmin, Value.lexemes, if_neg hn]
    have hneg : (Lexeme.int (-n)).Writable := neg_nonneg_of_ne_minValue hn hmin
    exact (passes_mark (c := '-') rfl).append (passes_spelled hneg.spelled hrest)

/-- Items with commas between them are scanned as their lexemes with commas between them. -/
theorem passes_items {items : List Value} {texts : List String}
    (hlength : texts.length = items.length)
    (hitems : ∀ p ∈ items.zip texts, ∀ rest, Apart rest → Passes p.2.toList p.1.lexemes rest)
    (hrest : Apart rest) :
    Passes (Value.commas texts).toList (commas (items.map Value.lexemes)) rest := by
  induction items generalizing texts with
  | nil =>
    obtain rfl := List.eq_nil_of_length_eq_zero hlength
    exact .nil
  | cons v items ih =>
    obtain ⟨text, texts, rfl⟩ := List.exists_cons_of_length_eq_add_one hlength
    rw [List.zip_cons_cons, List.forall_mem_cons] at hitems
    obtain ⟨hv, hitems⟩ := hitems
    cases items with
    | nil =>
      obtain rfl := List.eq_nil_of_length_eq_zero (Nat.succ.inj hlength)
      have hlexemes : commas ([v].map Value.lexemes) = v.lexemes := by simp [commas, List.intercalate]
      rw [hlexemes, Value.commas, String.intercalate_singleton]
      exact hv rest hrest
    | cons v' items =>
      obtain ⟨text', texts, rfl⟩ := List.exists_cons_of_length_eq_add_one (Nat.succ.inj hlength)
      have hlexemes : commas ((v :: v' :: items).map Value.lexemes) =
          v.lexemes ++ [.mark .comma] ++ [] ++ commas ((v' :: items).map Value.lexemes) := by
        simp [commas, List.intercalate]
      have htext : (Value.commas (text :: text' :: texts)).toList =
          text.toList ++ [','] ++ [' '] ++ (Value.commas (text' :: texts)).toList := by
        rw [Value.commas, String.intercalate_cons_cons]
        simp [Value.commas]
      rw [hlexemes, htext]
      have hafter := ih (Nat.succ.inj hlength) hitems
      exact (((hv _ (apart_cons (.inr (.inl rfl)) _)).append (passes_mark rfl)).append
        passes_space).append hafter

/-- The items of a tuple; a comma follows if there is only one. -/
theorem passes_tupleItems {items : List Value} {texts : List String}
    (hlength : texts.length = items.length)
    (hitems : ∀ p ∈ items.zip texts, ∀ rest, Apart rest → Passes p.2.toList p.1.lexemes rest)
    (hrest : Apart rest) :
    Passes ((Value.commas texts).toList ++ if texts.length = 1 then [','] else [])
      (tupleItems (items.map Value.lexemes)) rest := by
  match items, texts, hlength with
  | [], [], _ => exact .nil
  | [v], [text], _ =>
    have hv := hitems (v, text) List.mem_cons_self _ (apart_cons (.inr (.inl rfl)) rest)
    rw [Value.commas, String.intercalate_singleton]
    exact hv.append (passes_mark rfl)
  | v :: v' :: items, text :: text' :: texts, hlength =>
    have hlexemes : tupleItems ((v :: v' :: items).map Value.lexemes) =
        commas ((v :: v' :: items).map Value.lexemes) := by
      simp [tupleItems, commas, List.intercalate]
    rw [hlexemes, if_neg (by simp), List.append_nil]
    exact passes_items hlength hitems hrest

theorem passes_between {left right : Mark} {l r : Char} {text : List Char} {ls : List Lexeme}
    (hleft : ∀ rest, Piece.start l rest = Piece.ofMark left)
    (hright : ∀ rest, Piece.start r rest = Piece.ofMark right) (h : Passes text ls (r :: rest)) :
    Passes (l :: (text ++ [r])) (between left right ls) rest :=
  (passes_mark (hleft _)).append (h.append (passes_mark (hright rest)))

/-- The text of data with a literal is scanned as the lexemes of the literal. -/
theorem passes_shown {v : Value} (hv : v.HasLiteral) {around : List Value} {text : String}
    (hshown : Value.Shown cells Value.never true around v text) (hrest : Apart rest) :
    Passes text.toList v.lexemes rest := by
  induction hv generalizing around text rest with
  | none =>
    rw [hshown.unique (.flat rfl rfl)]
    exact passes_keyword .nothing hrest
  | bool b =>
    rw [hshown.unique (.flat rfl rfl)]
    cases b with
    | false => exact passes_keyword .no hrest
    | true => exact passes_keyword .yes hrest
  | int hmin =>
    rw [hshown.unique (.flat rfl rfl)]
    exact passes_int hmin hrest
  | str hchars =>
    rw [hshown.unique (.quoted rfl)]
    exact passes_spelled (Text.spelled_quote hchars) hrest
  | @list items _ ih =>
    obtain ⟨texts, hlength, hitems, rfl⟩ := hshown.enclosed_inv rfl rfl
    have hinner := passes_items hlength
      (fun p hp rest hrest => ih p.1 (List.of_mem_zip hp).1 (hitems p hp) hrest)
      (apart_cons (.inr (.inr (.inr rfl))) rest)
    rw [Value.lexemes, Value.lexemesAll_eq_map, Value.enclose, String.toList_append,
      String.toList_append]
    exact passes_between (fun _ => rfl) (fun _ => rfl) hinner
  | @tuple items _ ih =>
    obtain ⟨texts, hlength, hitems, rfl⟩ := hshown.enclosed_inv rfl rfl
    have hinner := passes_tupleItems hlength
      (fun p hp rest hrest => ih p.1 (List.of_mem_zip hp).1 (hitems p hp) hrest)
      (apart_cons (.inr (.inr (.inl rfl))) rest)
    have htext : ((Value.tuple items).enclose texts).toList =
        '(' :: (((Value.commas texts).toList ++ if texts.length = 1 then [','] else []) ++ [')']) := by
      rw [Value.enclose]
      split <;> simp
    rw [Value.lexemes, Value.lexemesAll_eq_map, htext]
    exact passes_between (fun _ => rfl) (fun _ => rfl) hinner

end Scanning

section Reading

open Resumable.Expr

theorem isItem_of_single {e : Expr} {l : Lexeme} (hsingle : e.isSingle = true)
    (hlexemes : e.lexemes = [l]) : IsItem [l] e := by
  rw [← hlexemes, ← operand_of_single hsingle]
  exact (isPart_of_single hsingle).isItem

/-- The lexemes of a literal are read as the literal. -/
theorem literal_isItem {v : Value} (hv : v.HasLiteral) : IsItem v.lexemes v.literal := by
  induction hv with
  | none => exact isItem_of_single (e := .nothing 0) rfl (by rw [Expr.lexemes])
  | bool b =>
    refine isItem_of_single rfl ?_
    rw [Value.literal, Expr.lexemes]
  | @int n hmin =>
    rw [Value.lexemes, Value.literal]
    split
    next hn => exact isItem_of_single (by simpa [isSingle] using hn) (by rw [Expr.lexemes, if_pos hn])
    next hn => exact negative_isItem hn hmin
  | str => exact isItem_of_single rfl (by rw [Value.literal, Expr.lexemes])
  | list _ ih =>
    rw [Value.lexemes, Value.literal, Value.lexemesAll_eq_map, Value.literals_eq_map]
    exact list_isItem ih
  | tuple _ ih =>
    rw [Value.lexemes, Value.literal, Value.lexemesAll_eq_map, Value.literals_eq_map]
    exact tuple_isItem ih

/-- A text that is scanned as an item alone is the program of that item. -/
theorem Program.ofSource_of_item {source : String} {ls : List Lexeme} {e : Expr}
    (hitem : IsItem ls e) (hpasses : Scan.Passes source.toList ls []) :
    ∃ e', Program.ofSource source = .ok [e'] ∧ e.Relined e' := by
  obtain ⟨hlexemes, herrors⟩ := Scan.ofSource_of_passes hpasses
  have htokens : (Scan.ofSource source).tokens.map Token.lexeme =
      semicolons ([(e, ls)].map Prod.snd) ++ [.ending] := by
    rw [hlexemes]
    simp [semicolons, List.intercalate]
  obtain ⟨body, hbody, hsame⟩ := Program.ofTokens_of_reads
    (fun x hx => List.mem_singleton.1 hx ▸ hitem.opens)
    (hitem.reads.mono fun bound hreads x hx l rest hl =>
      List.mem_singleton.1 hx ▸ hreads l rest (Lexeme.followsPart_of_closes hl)) htokens
  obtain ⟨e', rfl, he'⟩ := List.map_eq_singleton_iff.1 hsame
  refine ⟨e', ?_, he'⟩
  simp [Program.ofSource, hbody, herrors]

end Reading

namespace Value

/-- What is inside data with a literal has one. -/
theorem HasLiteral.of_occurs {cells : Array Value} {v x : Value} {around : List Value}
    (hv : v.HasLiteral) (hx : Occurs cells v around x) : x.HasLiteral := by
  induction hx with
  | top => exact hv
  | inside _ hinside hmem ih =>
    cases ih with
    | list hitems | tuple hitems =>
      obtain rfl := Option.some.inj hinside
      exact hitems _ hmem
    | _ => cases hinside
  | callee _ ih => cases ih

/-- Data other than a text, with no value but texts inside too many containers, is read back from its
text as its literal. -/
theorem ofSource_renderOver {cells : Array Value} {v : Value} (hv : v.HasLiteral)
    (htext : v.isText = false)
    (hshallow : ∀ around x, Occurs cells v around x → x.isText = false → around.length ≤ maxNesting) :
    ∃ e, Program.ofSource (v.renderOver cells) = .ok [e] ∧ e.unlined = v.literal.unlined := by
  have hacyclic : ∀ around id, Occurs cells v around (cell id) → id ∉ cellsAmong around :=
    fun around id hx => nomatch hv.of_occurs hx
  have htame : Tame cells v := ⟨hacyclic, hshallow⟩
  have hshown := ((renderOver_shown cells v).plain htame.unstopped []).of_not_text htext true
  exact Program.ofSource_of_item (literal_isItem hv) (passes_shown hv hshown .nil)

/-- A list of a tuple of one number, and a text with a quote and a line end. -/
def nested : Value :=
  list [tuple [int (-1)], str "\"\n"]

theorem nested_occurs {around : List Value} {x : Value} (hx : Occurs #[] nested around x) :
    (around = [] ∧ x = nested) ∨ (around = [nested] ∧ x = tuple [int (-1)]) ∨
      (around = [nested] ∧ x = str "\"\n") ∨ (around = [tuple [int (-1)], nested] ∧ x = int (-1)) := by
  induction hx with
  | top => exact .inl ⟨rfl, rfl⟩
  | inside _ hinside hmem ih =>
    obtain ⟨rfl, rfl⟩ | ⟨rfl, rfl⟩ | ⟨rfl, rfl⟩ | ⟨rfl, rfl⟩ := ih
    · obtain rfl := Option.some.inj hinside
      rw [List.mem_cons, List.mem_singleton] at hmem
      obtain rfl | rfl := hmem
      · exact .inr (.inl ⟨rfl, rfl⟩)
      · exact .inr (.inr (.inl ⟨rfl, rfl⟩))
    · obtain rfl := Option.some.inj hinside
      exact .inr (.inr (.inr ⟨rfl, List.mem_singleton.mp hmem⟩))
    · cases hinside
    · cases hinside
  | callee _ ih => obtain ⟨-, h⟩ | ⟨-, h⟩ | ⟨-, h⟩ | ⟨-, h⟩ := ih <;> cases h

theorem nested_hasLiteral : nested.HasLiteral := by
  refine .list (List.forall_mem_cons.2 ⟨.tuple ?_, List.forall_mem_singleton.2 (.str ?_)⟩)
  · exact List.forall_mem_singleton.2 (.int (by decide))
  · intro c hc
    obtain rfl | rfl : c = '"' ∨ c = '\n' := by simpa using hc
    · exact .inr ⟨'"', .quote, rfl⟩
    · exact .inr ⟨'n', .lineFeed, rfl⟩

theorem ofSource_renderOver_nested :
    nested.renderOver #[] = "[(-1,), \"\\\"\\n\"]" ∧
      ∃ e, Program.ofSource (nested.renderOver #[]) = .ok [e] ∧ e.unlined = nested.literal.unlined := by
  refine ⟨by decide +kernel, ofSource_renderOver nested_hasLiteral rfl fun around x hx _ => ?_⟩
  obtain ⟨rfl, -⟩ | ⟨rfl, -⟩ | ⟨rfl, -⟩ | ⟨rfl, -⟩ := nested_occurs hx <;> decide

end Value

end Resumable
