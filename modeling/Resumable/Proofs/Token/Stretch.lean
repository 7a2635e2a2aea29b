import Mathlib.Data.Nat.Digits.Defs
import Mathlib.Tactic.Common
import Resumable.Proofs.Token.Scanning

/-!
What a source text is made of: white space, comments, lexemes, and stretches with something wrong in
them. A stretch reads in one way only. Of the stretches that begin at one place the longest counts, so the
characters of a text alone say where its lexemes are and what they stand for.
-/

namespace Resumable

/-- What stands between the quotes of a string: the characters that are meant, and the text. A backslash
before a letter that is no escape means nothing, and neither does the letter. -/
inductive Contents : List Char → List Char → Prop
  | nil : Contents [] []
  | raw {c : Char} {cs text : List Char} (hquote : c ≠ '"') (hslash : c ≠ '\\') (h : Contents cs text) :
    Contents (c :: cs) (c :: text)
  | escaped {c e : Char} {cs text : List Char} (hescape : Escape c e) (h : Contents cs text) :
    Contents (c :: cs) ('\\' :: e :: text)
  | unknown {e : Char} {cs text : List Char} (hescape : ∀ c, ¬ Escape c e) (h : Contents cs text) :
    Contents cs ('\\' :: e :: text)

/-- A text after a quote in which no quote ends the string. -/
inductive Unclosed : List Char → Prop
  | nil : Unclosed []
  | backslash : Unclosed ['\\']
  | raw {c : Char} {text : List Char} (hquote : c ≠ '"') (hslash : c ≠ '\\') (h : Unclosed text) :
    Unclosed (c :: text)
  | pair {e : Char} {text : List Char} (h : Unclosed text) : Unclosed ('\\' :: e :: text)

/-- Digits with underscores anywhere after the first one. -/
inductive Numeral : List Char → Prop
  | intro {c : Char} {cs : List Char} (hc : c.isDigit) (hcs : ∀ x ∈ cs, x.isDigit ∨ x = '_') :
    Numeral (c :: cs)

/-- The digits of a numeral. -/
def Numeral.digits (text : List Char) : List Char :=
  text.filter (· != '_')

/-- The number that decimal digits stand for, the first digit counting most. -/
def Numeral.value (digits : List Char) : Nat :=
  Nat.ofDigits 10 (digits.reverse.map fun c => c.toNat - '0'.toNat)

/-- The number that is read from digits is the one they stand for. -/
theorem Number.ofDigits_eq_value (digits : List Char) : ofDigits digits = Numeral.value digits := by
  rw [Numeral.value, Nat.ofDigits_eq_foldr, List.foldr_map, List.foldr_reverse]
  refine congrArg (List.foldl · 0 digits) (funext₂ fun n c => ?_)
  exact Nat.add_comm _ _

/-- All texts of a lexeme. The value of a number is that of its digits: an integer of 64 bits, or with a
fractional part the double for the decimal. -/
inductive Lexeme.Written : Lexeme → List Char → Prop
  | keyword (k : Keyword) : Written (.keyword k) k.spelling.toList
  | mark (m : Mark) : Written (.mark m) m.spelling.toList
  | word {name : String} (h : Name name.toList) : Written (.word name) name.toList
  | int {n : Int64} {text : List Char} (h : Numeral text)
    (hvalue : (Numeral.value (Numeral.digits text) : Int) = n.toInt) : Written (.int n) text
  | float {whole fraction : List Char} (h : Numeral whole) (hne : fraction ≠ [])
    (hdigits : ∀ x ∈ fraction, x.isDigit) :
    Written (.float (.ofScientific (Numeral.value (Numeral.digits whole ++ fraction)) true
      fraction.length)) (whole ++ '.' :: fraction)
  | str {s : String} {text : List Char} (h : Contents s.toList text) :
    Written (.str s) ('"' :: (text ++ ['"']))

/-- What a stretch of a source text can be. -/
inductive Stretch where
  | space
  | comment
  | lexeme (l : Lexeme)
  | fault (problem : SyntaxProblem)

namespace Stretch

/-- The texts that are a stretch of the given kind. -/
inductive Reads : Stretch → List Char → Prop
  | space {c : Char} (h : IsSpace c) : Reads .space [c]
  | comment {line : List Char} (h : '\n' ∉ line) : Reads .comment ('/' :: '/' :: line)
  | lexeme {l : Lexeme} {text : List Char} (h : l.Written text) : Reads (.lexeme l) text
  | stray {c : Char} (hspace : ¬ IsSpace c) (hdigit : c.isDigit = false)
    (hword : Text.opensWord c = false) (hquote : c ≠ '"') (hmark : ∀ m : Mark, m.spelling.toList ≠ [c]) :
    Reads (.fault (.strayCharacter c)) [c]
  | hugeInteger {text : List Char} (h : Numeral text)
    (hvalue : Number.maxInt < Numeral.value (Numeral.digits text)) :
    Reads (.fault (.hugeInteger (String.ofList (Numeral.digits text)))) text
  | openString {text : List Char} (h : Unclosed text) : Reads (.fault .openString) ('"' :: text)

/-- The stretch `x` is the longest one that `text` and what follows begin with. -/
def Heads (x : Stretch) (text rest : List Char) : Prop :=
  x.Reads text ∧ ∀ y more, more ≠ [] → more <+: rest → ¬ Reads y (text ++ more)

end Stretch

/-- A stretch between two places of a text, given by the numbers of characters before them. -/
structure Span where
  start : Nat
  stop : Nat
  content : Stretch

namespace Span

/-- The span holds the longest stretch that begins where it starts. -/
def Fits (source : List Char) (s : Span) : Prop :=
  ∃ before text rest, source = before ++ (text ++ rest) ∧ s.start = before.length ∧
    s.stop = before.length + text.length ∧ s.content.Heads text rest

/-- Spans that follow one another from the given place to the end of the text. -/
inductive Tiled (source : List Char) : Nat → List Span → Prop
  | nil : Tiled source source.length []
  | cons {s : Span} {spans : List Span} (hlength : s.start < s.stop) (hfits : s.Fits source)
    (h : Tiled source s.stop spans) : Tiled source s.start (s :: spans)

end Span

/-! ### How a stretch reads -/

section Classes

variable {c : Char} {cs : List Char}

theorem Escape.unique {c c' e : Char} (h : Escape c e) (h' : Escape c' e) : c = c' := by
  cases h <;> cases h' <;> rfl

theorem Mark.plain_head {m : Mark} (h : m.spelling.toList = c :: cs) :
    ¬ IsSpace c ∧ c.isDigit = false ∧ Text.opensWord c = false ∧ c ≠ '"' := by
  have hplain : ∀ d ds, m.spelling.toList = d :: ds → (Piece.isGap d || d.isDigit || Text.opensWord d ||
      d == '"') = false := by
    cases m <;> (intro d ds hd; cases hd; rfl)
  have hc := hplain c cs h
  simp only [Bool.or_eq_false_iff, beq_eq_false_iff_ne] at hc
  obtain ⟨⟨⟨hgap, hdigit⟩, hword⟩, hquote⟩ := hc
  refine ⟨fun hspace => ?_, hdigit, hword, hquote⟩
  rw [Piece.isGap_iff.2 hspace] at hgap
  cases hgap

/-- Most marks have one character; those of two characters end with an equals sign, or are an arrow. -/
theorem Mark.spelling_cases (m : Mark) : (∃ c, m.spelling.toList = [c]) ∨
    m.spelling.toList = ['=', '>'] ∨
      ∃ c, m.spelling.toList = [c, '='] ∧ (c = '=' ∨ c = '!' ∨ c = '<' ∨ c = '>') := by
  cases m
  case fatArrow => exact .inr (.inl rfl)
  case doubleEqual | bangEqual | lessEqual | greaterEqual => exact .inr (.inr ⟨_, rfl, by decide⟩)
  all_goals exact .inl ⟨_, rfl⟩

theorem Mark.long_inv {m : Mark} {d : Char} (h : m.spelling.toList = c :: d :: cs) :
    cs = [] ∧ (d = '=' ∧ (c = '=' ∨ c = '!' ∨ c = '<' ∨ c = '>') ∨ d = '>' ∧ c = '=') := by
  obtain ⟨e, he⟩ | he | ⟨e, he, hfirst⟩ := m.spelling_cases
  · rw [he] at h
    cases h
  · rw [he] at h
    cases h
    exact ⟨rfl, .inr ⟨rfl, rfl⟩⟩
  · rw [he] at h
    cases h
    exact ⟨rfl, .inl ⟨rfl, hfirst⟩⟩

theorem Mark.spelling_inj {m m' : Mark} (h : m.spelling.toList = m'.spelling.toList) : m = m' := by
  obtain ⟨c, cs, htext, hpiece⟩ := Piece.start_mark m .nil
  obtain ⟨c', cs', htext', hpiece'⟩ := Piece.start_mark m' .nil
  cases htext.symm.trans (h.trans htext')
  cases hpiece.symm.trans hpiece'
  rfl

theorem Keyword.spelled_as_word (k : Keyword) : ∃ c cs, k.spelling.toList = c :: cs ∧
    Text.opensWord c = true ∧ (∀ d ∈ cs, Text.continuesWord d = true) ∧
      Keyword.ofWord? (String.ofList (c :: cs)) = some k := by
  have hword : ∀ c cs, k.spelling.toList = c :: cs → Text.opensWord c = true →
      cs.all Text.continuesWord = true → Keyword.ofWord? (String.ofList (c :: cs)) = some k →
      ∃ c cs, k.spelling.toList = c :: cs ∧ Text.opensWord c = true ∧
        (∀ d ∈ cs, Text.continuesWord d = true) ∧ Keyword.ofWord? (String.ofList (c :: cs)) = some k :=
    fun c cs htext hc hcs hk => ⟨c, cs, htext, hc, List.all_eq_true.1 hcs, hk⟩
  cases k <;> exact hword _ _ rfl rfl rfl rfl

theorem Name.ofWord?_eq_none (h : Name (c :: cs)) : Keyword.ofWord? (String.ofList (c :: cs)) = none := by
  obtain ⟨_, _, hkeyword⟩ := h
  refine List.find?_eq_none.2 fun k _ => ?_
  simpa using hkeyword k

/-- The word that the given characters make: a keyword, or else a name. -/
def Lexeme.ofWord (text : List Char) : Lexeme :=
  match Keyword.ofWord? (String.ofList text) with
  | some k => .keyword k
  | none => .word (String.ofList text)

end Classes

theorem Unclosed.inv {c : Char} {text : List Char} (h : Unclosed (c :: text)) :
    c ≠ '"' ∧ c ≠ '\\' ∧ Unclosed text ∨
      c = '\\' ∧ ∀ e rest, text = e :: rest → Unclosed rest := by
  cases h with
  | backslash => exact .inr ⟨rfl, nofun⟩
  | raw hquote hslash h => exact .inl ⟨hquote, hslash, h⟩
  | pair h =>
    refine .inr ⟨rfl, fun e rest heq => ?_⟩
    cases heq
    exact h

namespace Contents

variable {cs cs' text text' rest rest' : List Char}

/-- The quote that ends a string is the first one without a backslash. -/
theorem unique (h : Contents cs text) (h' : Contents cs' text')
    (heq : text ++ '"' :: rest = text' ++ '"' :: rest') : cs = cs' ∧ text = text' ∧ rest = rest' := by
  induction h generalizing cs' text' with
  | nil =>
    cases h' with
    | nil => exact ⟨rfl, rfl, (List.cons.inj heq).2⟩
    | raw hquote => exact absurd (List.cons.inj heq).1.symm hquote
    | escaped => cases (List.cons.inj heq).1
    | unknown => cases (List.cons.inj heq).1
  | @raw c cs text hquote hslash _ ih =>
    cases h' with
    | nil => exact absurd (List.cons.inj heq).1 hquote
    | raw _ _ h' =>
      obtain ⟨rfl, hrest⟩ := List.cons.inj heq
      obtain ⟨rfl, rfl, rfl⟩ := ih h' hrest
      exact ⟨rfl, rfl, rfl⟩
    | escaped => exact absurd (List.cons.inj heq).1 hslash
    | unknown => exact absurd (List.cons.inj heq).1 hslash
  | @escaped c e cs text hescape _ ih =>
    cases h' with
    | nil => cases (List.cons.inj heq).1
    | raw _ hslash => exact absurd (List.cons.inj heq).1.symm hslash
    | escaped hescape' h' =>
      obtain ⟨rfl, hrest⟩ := List.cons.inj (List.cons.inj heq).2
      obtain ⟨rfl, rfl, rfl⟩ := ih h' hrest
      exact ⟨by rw [hescape.unique hescape'], rfl, rfl⟩
    | unknown hno =>
      obtain ⟨rfl, _⟩ := List.cons.inj (List.cons.inj heq).2
      exact absurd hescape (hno c)
  | @unknown e cs text hno _ ih =>
    cases h' with
    | nil => cases (List.cons.inj heq).1
    | raw _ hslash => exact absurd (List.cons.inj heq).1.symm hslash
    | @escaped c' _ _ _ hescape' h' =>
      obtain ⟨rfl, _⟩ := List.cons.inj (List.cons.inj heq).2
      exact absurd hescape' (hno c')
    | unknown _ h' =>
      obtain ⟨rfl, hrest⟩ := List.cons.inj (List.cons.inj heq).2
      obtain ⟨rfl, rfl, rfl⟩ := ih h' hrest
      exact ⟨rfl, rfl, rfl⟩

theorem not_unclosed (h : Contents cs text) : ¬ Unclosed (text ++ '"' :: rest) := by
  intro hopen
  induction h with
  | nil =>
    obtain ⟨hquote, _⟩ | ⟨hslash, _⟩ := hopen.inv
    · exact hquote rfl
    · cases hslash
  | raw _ hslash _ ih =>
    obtain ⟨_, _, hopen⟩ | ⟨hpair, _⟩ := hopen.inv
    · exact ih hopen
    · exact hslash hpair
  | escaped _ _ ih | unknown _ _ ih =>
    obtain ⟨_, hslash, _⟩ | ⟨_, hpair⟩ := hopen.inv
    · exact hslash rfl
    · exact ih (hpair _ _ rfl)

end Contents

namespace Stretch

variable {x y : Stretch} {c : Char} {cs text text' rest rest' : List Char}

/-- The stretches that begin with a digit: numerals, which are integers or too large for one, and
numerals with a fractional part. -/
inductive ReadsNumber : Stretch → List Char → Prop
  | int {n : Int64} {text : List Char} (h : Numeral text)
    (hvalue : (Numeral.value (Numeral.digits text) : Int) = n.toInt) :
    ReadsNumber (.lexeme (.int n)) text
  | huge {text : List Char} (h : Numeral text)
    (hvalue : Number.maxInt < Numeral.value (Numeral.digits text)) :
    ReadsNumber (.fault (.hugeInteger (String.ofList (Numeral.digits text)))) text
  | float {whole fraction : List Char} (h : Numeral whole) (hne : fraction ≠ [])
    (hdigits : ∀ x ∈ fraction, x.isDigit) :
    ReadsNumber (.lexeme (.float (.ofScientific (Numeral.value (Numeral.digits whole ++ fraction)) true
      fraction.length))) (whole ++ '.' :: fraction)

/-- The stretches that begin with a quote: strings, and the rest of a text in which a string is open. -/
inductive ReadsString : Stretch → List Char → Prop
  | closed {s : String} {text : List Char} (h : Contents s.toList text) :
    ReadsString (.lexeme (.str s)) (text ++ ['"'])
  | unclosed {text : List Char} (h : Unclosed text) : ReadsString (.fault .openString) text

/-- The first character tells what kinds of stretch are possible. -/
inductive Opens : Stretch → Char → List Char → Prop
  | space {c : Char} (h : IsSpace c) : Opens .space c []
  | comment {line : List Char} (h : '\n' ∉ line) : Opens .comment '/' ('/' :: line)
  | string {x : Stretch} {cs : List Char} (h : x.ReadsString cs) : Opens x '"' cs
  | number {x : Stretch} {c : Char} {cs : List Char} (hc : c.isDigit) (h : x.ReadsNumber (c :: cs)) :
    Opens x c cs
  | word {c : Char} {cs : List Char} (hc : Text.opensWord c) (hcs : ∀ d ∈ cs, Text.continuesWord d) :
    Opens (.lexeme (.ofWord (c :: cs))) c cs
  | mark {m : Mark} {c : Char} {cs : List Char} (h : m.spelling.toList = c :: cs) :
    Opens (.lexeme (.mark m)) c cs
  | stray {c : Char} (hspace : ¬ IsSpace c) (hdigit : c.isDigit = false)
    (hword : Text.opensWord c = false) (hquote : c ≠ '"') (hmark : ∀ m : Mark, m.spelling.toList ≠ [c]) :
    Opens (.fault (.strayCharacter c)) c []

theorem Reads.opens (h : x.Reads text) : ∃ c cs, text = c :: cs ∧ x.Opens c cs := by
  cases h with
  | space h => exact ⟨_, _, rfl, .space h⟩
  | comment h => exact ⟨_, _, rfl, .comment h⟩
  | stray hspace hdigit hword hquote hmark => exact ⟨_, _, rfl, .stray hspace hdigit hword hquote hmark⟩
  | hugeInteger h hvalue =>
    obtain ⟨hc, hcs⟩ := h
    exact ⟨_, _, rfl, .number hc (.huge (.intro hc hcs) hvalue)⟩
  | openString h => exact ⟨_, _, rfl, .string (.unclosed h)⟩
  | lexeme h =>
    cases h with
    | keyword k =>
      obtain ⟨c, cs, htext, hc, hcs, hk⟩ := k.spelled_as_word
      refine ⟨c, cs, htext, ?_⟩
      have hword := Opens.word hc hcs
      rwa [Lexeme.ofWord, hk] at hword
    | mark m =>
      obtain ⟨c, cs, htext⟩ : ∃ c cs, m.spelling.toList = c :: cs := by
        cases m <;> exact ⟨_, _, rfl⟩
      exact ⟨c, cs, htext, .mark htext⟩
    | @word name h =>
      generalize htext : name.toList = text at h
      obtain ⟨c, cs, rfl⟩ : ∃ c cs, text = c :: cs := by
        cases h
        exact ⟨_, _, rfl⟩
      refine ⟨c, cs, rfl, ?_⟩
      have hword : Opens (.lexeme (.ofWord (c :: cs))) c cs := by
        cases h with
        | intro hc hcs => exact .word hc hcs
      rwa [Lexeme.ofWord, h.ofWord?_eq_none, ← htext, String.ofList_toList] at hword
    | int h hvalue =>
      obtain ⟨hc, hcs⟩ := h
      exact ⟨_, _, rfl, .number hc (.int (.intro hc hcs) hvalue)⟩
    | float h hne hdigits =>
      obtain ⟨hc, hcs⟩ := h
      exact ⟨_, _, rfl, .number hc (.float (.intro hc hcs) hne hdigits)⟩
    | str h => exact ⟨_, _, rfl, .string (.closed h)⟩

theorem plain_of_isSpace (h : IsSpace c) :
    c.isDigit = false ∧ Text.opensWord c = false ∧ c ≠ '"' ∧ c ≠ '/' := by
  obtain rfl | rfl | rfl | rfl := h <;> decide

namespace Opens

theorem of_isSpace (h : x.Opens c cs) (hc : IsSpace c) : x = .space ∧ cs = [] := by
  obtain ⟨hdigit, hword, hquote, hslash⟩ := plain_of_isSpace hc
  cases h with
  | space => exact ⟨rfl, rfl⟩
  | comment => exact absurd rfl hslash
  | string => exact absurd rfl hquote
  | number hc' => cases hdigit.symm.trans hc'
  | word hc' => cases hword.symm.trans hc'
  | mark hm => exact absurd hc (Mark.plain_head hm).1
  | stray hspace => exact absurd hc hspace

theorem of_quote (h : x.Opens '"' cs) : x.ReadsString cs := by
  cases h with
  | space hc => exact absurd rfl (plain_of_isSpace hc).2.2.1
  | string h => exact h
  | number hc => cases hc
  | word hc => cases hc
  | mark hm => exact absurd rfl (Mark.plain_head hm).2.2.2
  | stray _ _ _ hquote => exact absurd rfl hquote

theorem of_isDigit (h : x.Opens c cs) (hc : c.isDigit) : x.ReadsNumber (c :: cs) := by
  cases h with
  | space hspace => cases (plain_of_isSpace hspace).1.symm.trans hc
  | comment => cases hc
  | string => cases hc
  | number _ h => exact h
  | word hword => cases (Piece.opensWord_of_isDigit hc).symm.trans hword
  | mark hm => cases (Mark.plain_head hm).2.1.symm.trans hc
  | stray _ hdigit => cases hdigit.symm.trans hc

theorem of_opensWord (h : x.Opens c cs) (hc : Text.opensWord c) :
    x = .lexeme (.ofWord (c :: cs)) ∧ ∀ d ∈ cs, Text.continuesWord d := by
  cases h with
  | space hspace => cases (plain_of_isSpace hspace).2.1.symm.trans hc
  | comment => cases hc
  | string => cases hc
  | number hdigit => cases (Piece.opensWord_of_isDigit hdigit).symm.trans hc
  | word _ hcs => exact ⟨rfl, hcs⟩
  | mark hm => cases (Mark.plain_head hm).2.2.1.symm.trans hc
  | stray _ _ hword => cases hword.symm.trans hc

/-- A character without a role of its own begins a mark or a comment, or it is alone. -/
theorem of_plain (h : x.Opens c cs) (hspace : ¬ IsSpace c) (hdigit : c.isDigit = false)
    (hword : Text.opensWord c = false) (hquote : c ≠ '"') :
    x = .comment ∧ c = '/' ∧ (∃ line, cs = '/' :: line ∧ '\n' ∉ line) ∨
      (∃ m, x = .lexeme (.mark m) ∧ m.spelling.toList = c :: cs) ∨
      x = .fault (.strayCharacter c) ∧ cs = [] ∧ ∀ m : Mark, m.spelling.toList ≠ [c] := by
  cases h with
  | space hc => exact absurd hc hspace
  | comment h => exact .inl ⟨rfl, rfl, _, rfl, h⟩
  | string => exact absurd rfl hquote
  | number hc => cases hdigit.symm.trans hc
  | word hc => cases hword.symm.trans hc
  | mark hm => exact .inr (.inl ⟨_, rfl, hm⟩)
  | stray _ _ _ _ hmark => exact .inr (.inr ⟨rfl, rfl, hmark⟩)

end Opens

theorem ReadsString.unique (h : x.ReadsString text) (h' : y.ReadsString text) : x = y := by
  cases h with
  | closed h =>
    generalize hsame : _ ++ ['"'] = text at h'
    cases h' with
    | closed h' => rw [String.toList_inj.1 (h.unique h' hsame).1]
    | unclosed h' =>
      subst hsame
      exact absurd h' h.not_unclosed
  | unclosed h =>
    cases h' with
    | closed h' => exact absurd h h'.not_unclosed
    | unclosed => rfl

end Stretch

namespace Numeral

variable {text text' rest rest' : List Char}

theorem isDigitOrGap {x : Char} (h : Numeral text) (hx : x ∈ text) : Piece.isDigitOrGap x = true := by
  obtain ⟨hc, hcs⟩ := h
  obtain rfl | hx := List.mem_cons.1 hx
  · simp [Piece.isDigitOrGap, hc]
  · simpa [Piece.isDigitOrGap] using hcs x hx

theorem not_mem_point (h : Numeral text) : '.' ∉ text := by
  intro hpoint
  cases h.isDigitOrGap hpoint

theorem takeWhile_point (h : Numeral text) (rest : List Char) :
    (text ++ '.' :: rest).takeWhile Piece.isDigitOrGap = text := by
  rw [List.takeWhile_append_of_pos fun x hx => h.isDigitOrGap hx]
  simp [Piece.isDigitOrGap]

/-- The point of a number is the first one. -/
theorem split_unique (h : Numeral text) (h' : Numeral text')
    (heq : text ++ '.' :: rest = text' ++ '.' :: rest') : text = text' ∧ rest = rest' := by
  have htext : text = text' := by rw [← h.takeWhile_point rest, heq, h'.takeWhile_point]
  subst htext
  exact ⟨rfl, (List.cons.inj (List.append_cancel_left heq)).2⟩

end Numeral

namespace Stretch

variable {x y : Stretch} {c : Char} {cs text text' rest rest' : List Char}

theorem ReadsNumber.unique (h : x.ReadsNumber text) (h' : y.ReadsNumber text) : x = y := by
  cases h with
  | int h hvalue =>
    cases h' with
    | int _ hvalue' => rw [Int64.toInt_inj.1 (hvalue.symm.trans hvalue')]
    | @huge _ _ hvalue' =>
      rw [hvalue] at hvalue'
      exact absurd hvalue' (Int.not_lt.2 (Int64.toInt_le _))
    | float => exact absurd (by simp) h.not_mem_point
  | huge h hvalue =>
    cases h' with
    | int _ hvalue' =>
      rw [hvalue'] at hvalue
      exact absurd hvalue (Int.not_lt.2 (Int64.toInt_le _))
    | huge => rfl
    | float => exact absurd (by simp) h.not_mem_point
  | float h =>
    generalize hsame : _ ++ '.' :: _ = text at h'
    cases h' with
    | int h' =>
      subst hsame
      exact absurd (by simp) h'.not_mem_point
    | huge h' =>
      subst hsame
      exact absurd (by simp) h'.not_mem_point
    | float h' =>
      obtain ⟨rfl, rfl⟩ := h.split_unique h' hsame
      rfl

/-- What follows the first digits of a number is its fractional part. -/
theorem ReadsNumber.fraction {e : Char} {es : List Char} (h : x.ReadsNumber (text ++ e :: es))
    (htext : Numeral text) (he : Piece.isDigitOrGap e = false) :
    e = '.' ∧ es ≠ [] ∧ ∀ d ∈ es, d.isDigit := by
  generalize hsame : text ++ e :: es = all at h
  cases h with
  | int h | huge h =>
    subst hsame
    cases he.symm.trans (h.isDigitOrGap (by simp))
  | @float whole fraction h hne hdigits =>
    have hwhole : text = whole := by
      rw [← h.takeWhile_point fraction, ← hsame,
        List.takeWhile_append_of_pos fun d hd => htext.isDigitOrGap hd]
      simp [he]
    subst hwhole
    obtain ⟨rfl, rfl⟩ := List.cons.inj (List.append_cancel_left hsame)
    exact ⟨rfl, hne, hdigits⟩

theorem Opens.unique (h : x.Opens c cs) (h' : y.Opens c cs) : x = y := by
  have hplain : ∀ {x y : Stretch}, x.Opens c cs → y.Opens c cs → ¬ IsSpace c → c.isDigit = false →
      Text.opensWord c = false → c ≠ '"' → x = y := by
    intro x y h h' hspace hdigit hword hquote
    obtain ⟨rfl, rfl, line, rfl, _⟩ | ⟨m, rfl, hm⟩ | ⟨rfl, rfl, hmark⟩ :=
        h.of_plain hspace hdigit hword hquote <;>
      obtain ⟨rfl, hc, line', hcs, _⟩ | ⟨m', rfl, hm'⟩ | ⟨rfl, hcs, hmark'⟩ :=
        h'.of_plain hspace hdigit hword hquote
    · rfl
    · obtain ⟨_, ⟨hd, _⟩ | ⟨hd, _⟩⟩ := Mark.long_inv hm' <;> cases hd
    · cases hcs
    · subst hc hcs
      obtain ⟨_, ⟨hd, _⟩ | ⟨hd, _⟩⟩ := Mark.long_inv hm <;> cases hd
    · rw [Mark.spelling_inj (hm.trans hm'.symm)]
    · subst hcs
      exact absurd hm (hmark' m)
    · cases hcs
    · exact absurd hm' (hmark m')
    · rfl
  by_cases hspace : IsSpace c
  · rw [(h.of_isSpace hspace).1, (h'.of_isSpace hspace).1]
  by_cases hquote : c = '"'
  · subst hquote
    exact h.of_quote.unique h'.of_quote
  cases hdigit : c.isDigit with
  | true => exact (h.of_isDigit hdigit).unique (h'.of_isDigit hdigit)
  | false =>
    cases hword : Text.opensWord c with
    | true => rw [(h.of_opensWord hword).1, (h'.of_opensWord hword).1]
    | false => exact hplain h h' hspace hdigit hword hquote

/-- A text reads in one way only. -/
theorem Reads.unique (h : x.Reads text) (h' : y.Reads text) : x = y := by
  obtain ⟨c, cs, htext, hopens⟩ := h.opens
  obtain ⟨c', cs', htext', hopens'⟩ := h'.opens
  cases htext.symm.trans htext'
  exact hopens.unique hopens'

/-- The characters of a text tell with which stretch it begins. -/
theorem Heads.unique (h : x.Heads text rest) (h' : y.Heads text' rest')
    (heq : text ++ rest = text' ++ rest') : x = y ∧ text = text' ∧ rest = rest' := by
  have hsame : text = text' := by
    obtain ⟨more, rfl, hrest⟩ | ⟨more, rfl, hrest⟩ := List.append_eq_append_iff.1 heq
    · by_contra hne
      exact h.2 y more (by simpa using hne) ⟨rest', hrest.symm⟩ h'.1
    · by_contra hne
      exact h'.2 x more (by simpa using hne) ⟨rest, hrest.symm⟩ h.1
  subst hsame
  exact ⟨h.1.unique h'.1, rfl, List.append_cancel_left heq⟩

end Stretch

/-- There is one way to cut a text into its stretches. -/
theorem Span.Tiled.unique {source : List Char} {i : Nat} {spans spans' : List Span}
    (h : Tiled source i spans) (h' : Tiled source i spans') : spans = spans' := by
  induction h generalizing spans' with
  | nil =>
    generalize hi : source.length = i at h'
    cases h' with
    | nil => rfl
    | @cons s _ hlength hfits =>
      obtain ⟨before, text, rest, rfl, hstart, hstop, _⟩ := hfits
      simp only [List.length_append] at hi
      omega
  | @cons s spans hlength hfits _ ih =>
    generalize hi : s.start = i at h'
    cases h' with
    | nil =>
      obtain ⟨before, text, rest, rfl, hstart, hstop, _⟩ := hfits
      simp only [List.length_append] at hi
      omega
    | @cons s' spans' hlength' hfits' h' =>
      obtain ⟨before, text, rest, hsource, hstart, hstop, hheads⟩ := hfits
      obtain ⟨before', text', rest', hsource', hstart', hstop', hheads'⟩ := hfits'
      have hbefore := List.append_inj (hsource.symm.trans hsource') (by omega)
      obtain ⟨hcontent, rfl, rfl⟩ := hheads.unique hheads' hbefore.2
      obtain ⟨start, stop, content⟩ := s
      obtain ⟨start', stop', content'⟩ := s'
      simp only at hi hstart hstop hstart' hstop' hcontent
      obtain rfl : start = start' := hi
      obtain rfl : stop = stop' := by omega
      subst hcontent
      rw [ih h']

end Resumable
