import Resumable.Token.Scan

/-!
How lexemes are written down, and what may stand between them. A lexeme can have several spellings:
underscores between the digits of a number, and raw or escaped characters in a string.
-/

namespace Resumable

/-- White space: blanks, tabulators and the characters that end a line. -/
def IsSpace (c : Char) : Prop :=
  c = ' ' ∨ c = '\t' ∨ c = '\r' ∨ c = '\n'

/-- A stretch of text without tokens: white space and comments, each up to the end of its line. -/
inductive Blank : List Char → Prop
  | nil : Blank []
  | space {c : Char} {cs : List Char} : IsSpace c → Blank cs → Blank (c :: cs)
  | comment {text cs : List Char} : '\n' ∉ text → Blank cs →
      Blank ('/' :: '/' :: (text ++ '\n' :: cs))

/-- What stands between two tokens: a blank stretch that starts with white space. -/
inductive Separator : List Char → Prop
  | intro {c : Char} {cs : List Char} : IsSpace c → Blank cs → Separator (c :: cs)

/-- The escapes of strings: a character and the letter that stands for it after a backslash. -/
inductive Escape : Char → Char → Prop
  | quote : Escape '"' '"'
  | backslash : Escape '\\' '\\'
  | lineFeed : Escape '\n' 'n'
  | tabulator : Escape '\t' 't'
  | carriageReturn : Escape '\r' 'r'

/-- The spellings of the characters of a string. Quotes and backslashes are always escaped; the end of
a line, a tabulator and a carriage return may be. -/
inductive Quoted : List Char → List Char → Prop
  | nil : Quoted [] []
  | raw {c : Char} {cs text : List Char} : c ≠ '"' → c ≠ '\\' → Quoted cs text →
      Quoted (c :: cs) (c :: text)
  | escaped {c e : Char} {cs text : List Char} : Escape c e → Quoted cs text →
      Quoted (c :: cs) ('\\' :: e :: text)

/-- Words that are names: they start as words do, go on as words do, and are no keywords. -/
inductive Name : List Char → Prop
  | intro {c : Char} {cs : List Char} : Text.opensWord c → (∀ x ∈ cs, Text.continuesWord x) →
      (∀ k : Keyword, k.spelling ≠ String.ofList (c :: cs)) → Name (c :: cs)

theorem Keyword.mem_all (k : Keyword) : k ∈ Keyword.all := by
  cases k <;> decide

instance : DecidablePred Name
  | [] => isFalse nofun
  | c :: cs =>
    decidable_of_iff (Text.opensWord c ∧ cs.all Text.continuesWord ∧
        Keyword.all.all fun k => k.spelling != String.ofList (c :: cs))
      ⟨fun ⟨hopens, hcontinues, hkeyword⟩ => .intro hopens (List.all_eq_true.1 hcontinues)
          fun k => bne_iff_ne.1 (List.all_eq_true.1 hkeyword k k.mem_all),
        fun | .intro hopens hcontinues hkeyword => ⟨hopens, List.all_eq_true.2 hcontinues,
          List.all_eq_true.2 fun k _ => bne_iff_ne.2 (hkeyword k)⟩⟩

/-- The spellings of a lexeme. A number is written in decimal, with underscores anywhere after its
first digit. -/
inductive Lexeme.Spelled : Lexeme → List Char → Prop
  | keyword (k : Keyword) : Spelled (.keyword k) k.spelling.toList
  | mark (m : Mark) : Spelled (.mark m) m.spelling.toList
  | int {n : Int64} {c : Char} {cs : List Char} : 0 ≤ n → c ≠ '_' →
      (c :: cs).filter (· != '_') = Nat.toDigits 10 n.toInt.toNat → Spelled (.int n) (c :: cs)
  | str {s : String} {text : List Char} : Quoted s.toList text →
      Spelled (.str s) ('"' :: (text ++ ['"']))
  | word {name : String} : Name name.toList → Spelled (.word name) name.toList

/-- Lexemes written down one after the other, with a separator between any two of them. -/
inductive Rendered : List Lexeme → List Char → Prop
  | nil : Rendered [] []
  | single {l : Lexeme} {text : List Char} : l.Spelled text → Rendered [l] text
  | cons {l next : Lexeme} {ls : List Lexeme} {text gap rest : List Char} : l.Spelled text →
      Separator gap → Rendered (next :: ls) rest →
      Rendered (l :: next :: ls) (text ++ gap ++ rest)

/-- The spelling of the characters of a string with as few escapes as possible. -/
def Quoted.spell (cs : List Char) : List Char :=
  cs.flatMap fun c => if c = '"' ∨ c = '\\' then ['\\', c] else [c]

theorem Quoted.spell_quoted (cs : List Char) : Quoted cs (Quoted.spell cs) := by
  induction cs with
  | nil => exact .nil
  | cons c cs ih =>
    by_cases hc : c = '"' ∨ c = '\\'
    · have htext : spell (c :: cs) = '\\' :: c :: spell cs := by simp [spell, hc]
      rw [htext]
      obtain rfl | rfl := hc
      · exact .escaped .quote ih
      · exact .escaped .backslash ih
    · have htext : spell (c :: cs) = c :: spell cs := by simp [spell, hc]
      rw [htext]
      exact .raw (fun h => hc (.inl h)) (fun h => hc (.inr h)) ih

namespace Lexeme

/-- The lexemes that can be written down: numbers are not negative, and words are names. Doubles are
left out, and so is the end of the input, for which nothing is written. -/
def Writable : Lexeme → Prop
  | int n => 0 ≤ n
  | str _ | keyword _ | mark _ => True
  | word name => Name name.toList
  | float _ | ending => False

/-- The plain spelling of a lexeme. -/
def spell : Lexeme → List Char
  | int n => Nat.toDigits 10 n.toInt.toNat
  | str s => '"' :: (Quoted.spell s.toList ++ ['"'])
  | word name => name.toList
  | keyword k => k.spelling.toList
  | mark m => m.spelling.toList
  | float _ | ending => []

theorem Writable.spelled {l : Lexeme} (h : l.Writable) : l.Spelled l.spell := by
  cases l with
  | int n =>
    have hno : ∀ c ∈ Nat.toDigits 10 n.toInt.toNat, c ≠ '_' := by
      rintro c hc rfl
      exact Nat.underscore_not_in_toDigits hc
    obtain ⟨c, cs, htext⟩ :=
      List.exists_cons_of_ne_nil (Nat.toDigits_ne_nil (n := n.toInt.toNat) (b := 10))
    have hfilter := List.filter_eq_self.2 fun c hc => bne_iff_ne.2 (hno c hc)
    rw [show (int n).spell = c :: cs from htext]
    rw [htext] at hno
    refine .int h (hno c List.mem_cons_self) ?_
    rw [← htext]
    exact hfilter
  | float _ | ending => exact h.elim
  | str s => exact .str (Quoted.spell_quoted _)
  | word name => exact .word h
  | keyword k => exact .keyword k
  | mark m => exact .mark m

/-- Lexemes in their plain spelling with single spaces between them. -/
def spellAll (ls : List Lexeme) : List Char :=
  List.intercalate [' '] (ls.map spell)

theorem rendered_spellAll {ls : List Lexeme} (h : ∀ l ∈ ls, l.Writable) :
    Rendered ls (spellAll ls) := by
  induction ls with
  | nil => exact .nil
  | cons l ls ih =>
    obtain ⟨hl, hls⟩ := List.forall_mem_cons.1 h
    cases ls with
    | nil => simpa [spellAll, List.intercalate] using Rendered.single hl.spelled
    | cons next ls =>
      have htext : spellAll (l :: next :: ls) = l.spell ++ [' '] ++ spellAll (next :: ls) := by
        simp [spellAll, List.intercalate]
      rw [htext]
      exact .cons hl.spelled (.intro (.inl rfl) .nil) (ih hls)

end Lexeme

end Resumable
