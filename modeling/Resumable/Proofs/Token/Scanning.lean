import Resumable.Proofs.Token.Spelling

/-!
Scanning gives back the lexemes that a text is a rendering of. What a piece is depends only on its
own characters as long as white space, a comma, a closing bracket or the end follows, so the scan goes
through a rendering piece by piece.
-/

namespace Resumable

/-- Characters that prolong no token: white space, commas and closing brackets. -/
def EndsToken (c : Char) : Prop :=
  IsSpace c ∨ c = ',' ∨ c = ')' ∨ c = ']'

/-- Texts that end or go on so that no token before them is prolonged. -/
def Apart (text : List Char) : Prop :=
  ∀ c ∈ text.head?, EndsToken c

theorem Apart.nil : Apart [] := by
  rintro _ ⟨⟩

theorem Separator.apart {gap : List Char} (h : Separator gap) (rest : List Char) :
    Apart (gap ++ rest) := by
  obtain ⟨hc, _⟩ := h
  rintro _ ⟨⟩
  exact .inl hc

theorem Separator.blank {gap : List Char} (h : Separator gap) : Blank gap := by
  obtain ⟨hc, hblank⟩ := h
  exact .space hc hblank

section Classes

variable {P : Char → Bool} {cs rest : List Char}

/-- A class of characters ends where a token ends, if its characters prolong tokens. -/
theorem takeWhile_apart (hcs : ∀ c ∈ cs, P c) (hrest : Apart rest)
    (hends : ∀ c, EndsToken c → P c = false) : (cs ++ rest).takeWhile P = cs := by
  rw [List.takeWhile_append_of_pos hcs]
  cases rest with
  | nil => simp
  | cons c more => simp [hends c (hrest c rfl)]

theorem dropWhile_apart (hcs : ∀ c ∈ cs, P c) (hrest : Apart rest)
    (hends : ∀ c, EndsToken c → P c = false) : (cs ++ rest).dropWhile P = rest := by
  have hsplit := List.takeWhile_append_dropWhile (p := P) (l := cs ++ rest)
  rw [takeWhile_apart hcs hrest hends] at hsplit
  exact List.append_cancel_left hsplit

end Classes

namespace Piece

theorem isGap_iff {c : Char} : isGap c ↔ IsSpace c := by
  simp [isGap, IsSpace, or_assoc]

theorem isDigitOrGap_of_endsToken (c : Char) (h : EndsToken c) : isDigitOrGap c = false := by
  obtain (rfl | rfl | rfl | rfl) | rfl | rfl | rfl := h <;> rfl

theorem continuesWord_of_endsToken (c : Char) (h : EndsToken c) : Text.continuesWord c = false := by
  obtain (rfl | rfl | rfl | rfl) | rfl | rfl | rfl := h <;> rfl

theorem isDigit_range {c : Char} (h : c.isDigit) : 48 ≤ c.toNat ∧ c.toNat ≤ 57 := by
  simp only [Char.isDigit, Bool.and_eq_true, decide_eq_true_eq, ge_iff_le,
    UInt32.le_iff_toNat_le] at h
  exact h

/-- No digit opens a word. -/
theorem opensWord_of_isDigit {c : Char} (h : c.isDigit) : Text.opensWord c = false := by
  obtain ⟨hlow, hhigh⟩ := isDigit_range h
  have hletter : c.isAlpha = false := by
    refine Bool.or_eq_false_iff.2
      ⟨Bool.eq_false_iff.2 fun hupper => ?_, Bool.eq_false_iff.2 fun hlower => ?_⟩
    · have hfrom : 65 ≤ c.toNat := UInt32.le_iff_toNat_le.1 (of_decide_eq_true hupper).1
      omega
    · have hfrom : 97 ≤ c.toNat :=
        UInt32.le_iff_toNat_le.1 (of_decide_eq_true (Bool.and_eq_true_iff.1 hlower).1)
      omega
  have hline : c ≠ '_' := by
    rintro rfl
    cases h
  simp only [Text.opensWord, Text.isLetter, show c.toNat < 128 by omega, if_true, hletter,
    Bool.false_or, beq_eq_false_iff_ne]
  exact hline

/-- Characters that open words have no other role. -/
theorem start_of_opensWord {c : Char} (h : Text.opensWord c) (cs : List Char) :
    start c cs = word c cs := by
  have hother : ∀ d, Text.opensWord d = false → c ≠ d := by
    rintro d hd rfl
    rw [hd] at h
    cases h
  have hgap : isGap c = false := by
    refine Bool.eq_false_iff.2 fun hc => ?_
    obtain rfl | rfl | rfl | rfl := isGap_iff.1 hc <;> cases h
  have hdigit : c.isDigit = false := by
    refine Bool.eq_false_iff.2 fun hc => ?_
    rw [opensWord_of_isDigit hc] at h
    cases h
  simp [start, hgap, hdigit, hother '/' rfl, hother '"' rfl, h]

/-- Digits have no other role. -/
theorem start_of_isDigit {c : Char} (h : c.isDigit) (cs : List Char) :
    start c cs = number c cs := by
  have hother : ∀ d, d.isDigit = false → c ≠ d := by
    rintro d hd rfl
    rw [hd] at h
    cases h
  have hgap : isGap c = false := by
    refine Bool.eq_false_iff.2 fun hc => ?_
    obtain rfl | rfl | rfl | rfl := isGap_iff.1 hc <;> cases h
  simp [start, hgap, h, hother '/' rfl, hother '"' rfl]

variable {rest : List Char}

theorem word_apart {cs : List Char} (c : Char) (hcs : ∀ x ∈ cs, Text.continuesWord x)
    (hrest : Apart rest) : word c (cs ++ rest) =
      { extra := cs.length
        lexeme := some (match Keyword.ofWord? (String.ofList (c :: cs)) with
          | some k => .keyword k
          | none => .word (String.ofList (c :: cs))) } := by
  have hbody : (cs ++ rest).takeWhile Text.continuesWord = cs :=
    takeWhile_apart hcs hrest continuesWord_of_endsToken
  unfold word
  exact hbody.symm ▸ rfl

theorem escaped?_of_escape {c e : Char} (h : Escape c e) : escaped? e = some c := by
  cases h <;> rfl

theorem stringFrom_quoted {cs text : List Char} (h : Quoted cs text) (count : Nat)
    (done : List Char) : stringFrom count done [] (text ++ '"' :: rest) =
      { extra := count + text.length + 1
        lexeme := some (.str (String.ofList (done.reverse ++ cs))) } := by
  induction h generalizing count done with
  | nil => simp [stringFrom]
  | @raw c cs text hquote hslash _ ih =>
    rw [List.cons_append, stringFrom, if_neg hquote, ih]
    · simp [Nat.add_assoc, Nat.add_comm 1]
    · exact fun h _ => hslash h
    · exact fun _ _ h _ => hslash h
  | @escaped c e cs text hescape _ ih =>
    rw [List.cons_append, List.cons_append, stringFrom,
      escaped?_of_escape hescape]
    simp only [ih]
    simp [Nat.add_assoc, Nat.add_comm 2]

theorem fraction?_apart (h : Apart rest) : fraction? rest = none := by
  cases rest with
  | nil => rfl
  | cons c more =>
    obtain (rfl | rfl | rfl | rfl) | rfl | rfl | rfl := h c rfl <;> rfl

theorem intOfDigits?_toDigits {n : Int64} (hn : 0 ≤ n) :
    Number.intOfDigits? (Nat.toDigits 10 n.toInt.toNat) = some n := by
  have hpos : 0 ≤ n.toInt := Int64.le_iff_toInt_le.1 hn
  have hvalue : Number.ofDigits (Nat.toDigits 10 n.toInt.toNat) = n.toInt.toNat :=
    Nat.ofDigitChars_eq_foldl.symm.trans Nat.ofDigitChars_ten_toDigits
  have hlimit : n.toInt ≤ Number.maxInt := Int64.toInt_le n
  simp only [Number.intOfDigits?, hvalue, Int.toNat_of_nonneg hpos, if_pos hlimit]
  rw [← Int64.ofInt_eq_ofNat, Int.toNat_of_nonneg hpos, Int64.ofInt_toInt]

section Numbers

variable {n : Int64} {c : Char} {cs : List Char}

theorem isDigit_of_spelled {x : Char} (hx : x ∈ c :: cs) (hgap : x ≠ '_')
    (htext : (c :: cs).filter (· != '_') = Nat.toDigits 10 n.toInt.toNat) : x.isDigit := by
  have hmem : x ∈ (c :: cs).filter (· != '_') := List.mem_filter.2 ⟨hx, bne_iff_ne.2 hgap⟩
  rw [htext] at hmem
  exact Nat.isDigit_of_mem_toDigits (by decide) (by decide) hmem

theorem number_apart (hn : 0 ≤ n) (hc : c ≠ '_')
    (htext : (c :: cs).filter (· != '_') = Nat.toDigits 10 n.toInt.toNat) (hrest : Apart rest) :
    number c (cs ++ rest) = { extra := cs.length, lexeme := some (.int n) } := by
  have hcs : ∀ x ∈ cs, isDigitOrGap x := by
    intro x hx
    by_cases hgap : x = '_'
    · simp [isDigitOrGap, hgap]
    · simp [isDigitOrGap, isDigit_of_spelled (List.mem_cons_of_mem c hx) hgap htext]
  have hwhole : c :: cs.filter (· != '_') = Nat.toDigits 10 n.toInt.toNat := by
    rw [← htext, List.filter_cons_of_pos (by simpa using hc)]
  simp only [number, takeWhile_apart hcs hrest isDigitOrGap_of_endsToken,
    dropWhile_apart hcs hrest isDigitOrGap_of_endsToken, fraction?_apart hrest, hwhole,
    intOfDigits?_toDigits hn]

end Numbers

theorem start_keyword (k : Keyword) (hrest : Apart rest) : ∃ c cs, k.spelling.toList = c :: cs ∧
    start c (cs ++ rest) = { extra := cs.length, lexeme := some (.keyword k) } := by
  have hword : ∀ c cs, Text.opensWord c → cs.all Text.continuesWord →
      Keyword.ofWord? (String.ofList (c :: cs)) = some k →
      start c (cs ++ rest) = { extra := cs.length, lexeme := some (.keyword k) } := by
    intro c cs hc hcs hk
    rw [start_of_opensWord hc, word_apart c (List.all_eq_true.1 hcs) hrest, hk]
  cases k <;> exact ⟨_, _, rfl, hword _ _ rfl rfl rfl⟩

theorem start_name {name : String} (h : Name name.toList) (hrest : Apart rest) :
    ∃ c cs, name.toList = c :: cs ∧
      start c (cs ++ rest) = { extra := cs.length, lexeme := some (.word name) } := by
  generalize htext : name.toList = text at h
  obtain ⟨hc, hcs, hkeyword⟩ := h
  rename_i c cs
  have hno : Keyword.ofWord? (String.ofList (c :: cs)) = none := by
    refine List.find?_eq_none.2 fun k _ => ?_
    simpa using hkeyword k
  refine ⟨c, cs, rfl, ?_⟩
  rw [start_of_opensWord hc, word_apart c hcs hrest, hno, ← htext, String.ofList_toList]

/-- A mark is read as itself where nothing prolongs it. -/
theorem start_mark (m : Mark) (hrest : Apart rest) : ∃ c cs, m.spelling.toList = c :: cs ∧
    start c (cs ++ rest) = { extra := cs.length, lexeme := some (.mark m) } := by
  have hshort : ∀ short long, withEqual short long rest = ofMark short := by
    intro short long
    cases rest with
    | nil => rfl
    | cons c more => obtain (rfl | rfl | rfl | rfl) | rfl | rfl | rfl := hrest c rfl <;> rfl
  have hslash : slash rest = ofMark .slash := by
    cases rest with
    | nil => rfl
    | cons c more => obtain (rfl | rfl | rfl | rfl) | rfl | rfl | rfl := hrest c rfl <;> rfl
  have hequal : sign '=' rest = ofMark .equal := by
    cases rest with
    | nil => rfl
    | cons c more => obtain (rfl | rfl | rfl | rfl) | rfl | rfl | rfl := hrest c rfl <;> rfl
  cases m
  case slash => exact ⟨_, _, rfl, hslash⟩
  case equal => exact ⟨_, _, rfl, hequal⟩
  case less => exact ⟨_, _, rfl, hshort _ _⟩
  case greater => exact ⟨_, _, rfl, hshort _ _⟩
  all_goals exact ⟨_, _, rfl, rfl⟩

/-- A spelled lexeme is one piece where nothing prolongs it. -/
theorem start_spelled {l : Lexeme} {text : List Char} (h : l.Spelled text) (hrest : Apart rest) :
    ∃ c cs, text = c :: cs ∧
      start c (cs ++ rest) = { extra := cs.length, lexeme := some l } := by
  cases h with
  | keyword k => exact start_keyword k hrest
  | mark m => exact start_mark m hrest
  | @int n c cs hn hc htext =>
    refine ⟨c, cs, rfl, ?_⟩
    rw [start_of_isDigit (isDigit_of_spelled List.mem_cons_self hc htext)]
    exact number_apart hn hc htext hrest
  | @str s text htext =>
    refine ⟨_, _, rfl, ?_⟩
    rw [List.append_assoc]
    refine (stringFrom_quoted htext 0 []).trans ?_
    simp
  | @word name hname => exact start_name hname hrest

end Piece

namespace Position

theorem over_append (p : Position) (cs rest : List Char) : p.over (cs ++ rest) = (p.over cs).over rest :=
  List.foldl_append

end Position

namespace Scan

variable (tokens : List Token) (errors : List SyntaxError) (p : Position)

theorem follow_skip (cs rest : List Char) :
    follow tokens errors p cs.length (cs ++ rest) = follow tokens errors (p.over cs) 0 rest := by
  induction cs generalizing p with
  | nil => rfl
  | cons c cs ih => exact ih (p.after c)

/-- One piece without problems, and what comes after it. -/
theorem follow_piece {c : Char} {cs rest : List Char} {lexeme : Option Lexeme}
    (hpiece : Piece.start c (cs ++ rest) = { extra := cs.length, lexeme }) :
    follow tokens errors p 0 (c :: cs ++ rest) =
      follow ((lexeme.map fun l => ⟨l, p.line, p.column⟩).toList ++ tokens) errors (p.over (c :: cs)) 0
        rest := by
  rw [List.cons_append, follow, hpiece, follow_skip]
  cases lexeme <;> rfl

theorem follow_space {c : Char} (hc : IsSpace c) (rest : List Char) :
    follow tokens errors p 0 (c :: rest) = follow tokens errors (p.after c) 0 rest := by
  have hpiece : Piece.start c rest = {} := by simp [Piece.start, Piece.isGap_iff.2 hc]
  rw [follow, hpiece]
  rfl

/-- Nothing comes of white space and comments. -/
theorem follow_blank {gap : List Char} (h : Blank gap) (rest : List Char) :
    follow tokens errors p 0 (gap ++ rest) = follow tokens errors (p.over gap) 0 rest := by
  induction h generalizing p with
  | nil => rfl
  | @space c cs hc _ ih =>
    rw [List.cons_append, follow_space tokens errors p hc, ih]
    rfl
  | @comment text cs htext _ ih =>
    have hline : (text ++ '\n' :: (cs ++ rest)).takeWhile (· != '\n') = text := by
      have hno : ∀ c ∈ text, (c != '\n') = true := by
        intro c hc
        exact bne_iff_ne.2 fun h => htext (h ▸ hc)
      rw [List.takeWhile_append_of_pos hno]
      simp
    have hpiece : Piece.start '/' ('/' :: text ++ '\n' :: (cs ++ rest)) =
        { extra := ('/' :: text).length, lexeme := none } := by
      refine Eq.trans (b := { extra := 1 + text.length }) ?_ (by simp [Nat.add_comm])
      exact congrArg (fun line : List Char => ({ extra := 1 + line.length } : Piece)) hline
    have hread := follow_piece tokens errors p hpiece
    rw [show '/' :: '/' :: (text ++ '\n' :: cs) ++ rest =
      '/' :: ('/' :: text) ++ '\n' :: (cs ++ rest) by simp, hread, follow_space _ _ _ (by simp [IsSpace])]
    refine Eq.trans (ih _) ?_
    simp [Position.over]

/-- The lexemes of a rendering are read one after the other. -/
theorem follow_rendered {ls : List Lexeme} {text : List Char} (h : Rendered ls text) :
    ∃ read : List Token, read.map Token.lexeme = ls ++ [.ending] ∧
      follow tokens errors p 0 text = ⟨tokens.reverse ++ read, errors.reverse⟩ := by
  induction h generalizing tokens p with
  | nil => exact ⟨[⟨.ending, p.line, p.column⟩], rfl, by simp [follow]⟩
  | @single l text hl =>
    obtain ⟨c, cs, rfl, hpiece⟩ := Piece.start_spelled hl .nil
    refine ⟨[⟨l, p.line, p.column⟩, ⟨.ending, (p.over (c :: cs)).line, (p.over (c :: cs)).column⟩], rfl, ?_⟩
    have hread := follow_piece tokens errors p hpiece
    rw [List.append_nil] at hread
    rw [hread]
    simp [follow]
  | @cons l next ls text gap rest hl hgap _ ih =>
    obtain ⟨c, cs, rfl, hpiece⟩ := Piece.start_spelled hl (hgap.apart rest)
    obtain ⟨read, hlexemes, hrest⟩ := ih (⟨l, p.line, p.column⟩ :: tokens) ((p.over (c :: cs)).over gap)
    refine ⟨⟨l, p.line, p.column⟩ :: read, by simp [hlexemes], ?_⟩
    rw [List.append_assoc, follow_piece tokens errors p hpiece, follow_blank _ _ _ hgap.blank]
    simpa using hrest

theorem ofSource_eq_of_rendered {ls : List Lexeme} {text : List Char} (h : Rendered ls text) :
    ∃ read : List Token, read.map Token.lexeme = ls ++ [.ending] ∧
      ofSource (String.ofList text) = ⟨read, []⟩ := by
  obtain ⟨read, hlexemes, hfollow⟩ := follow_rendered [] [] {} h
  refine ⟨read, hlexemes, ?_⟩
  rw [ofSource, String.toList_ofList, hfollow]
  rfl

/-- Scanning a rendering of lexemes gives exactly these lexemes and the end of the input, and finds
nothing wrong. -/
theorem lexemes_of_rendered {ls : List Lexeme} {text : List Char} (h : Rendered ls text) :
    (ofSource (String.ofList text)).tokens.map Token.lexeme = ls ++ [.ending] ∧
      (ofSource (String.ofList text)).errors = [] := by
  obtain ⟨read, hlexemes, hscan⟩ := ofSource_eq_of_rendered h
  rw [hscan]
  exact ⟨hlexemes, rfl⟩

/-- A comment with a quote in it, underscores, escapes and raw line ends, and marks that could be
longer. -/
theorem lexemes_of_rendered_mixed :
    Rendered [.word "x1", .mark .less, .mark .equal, .int 120, .mark .dot, .str "\"\n\n", .keyword .when]
        "x1 < =\t1_20_ // \"2\n\r. \"\\\"\n\\n\" if".toList ∧
      (ofSource "x1 < =\t1_20_ // \"2\n\r. \"\\\"\n\\n\" if").tokens.map Token.lexeme =
        [.word "x1", .mark .less, .mark .equal, .int 120, .mark .dot, .str "\"\n\n", .keyword .when,
          .ending] ∧
      (ofSource "x1 < =\t1_20_ // \"2\n\r. \"\\\"\n\\n\" if").errors = [] := by
  have hspace : Separator [' '] := .intro (by simp [IsSpace]) .nil
  have htab : Separator ['\t'] := .intro (by simp [IsSpace]) .nil
  have hcomment : Separator (' ' :: '/' :: '/' :: (" \"2".toList ++ '\n' :: ['\r'])) :=
    .intro (by simp [IsSpace]) (.comment (by decide) (.space (by simp [IsSpace]) .nil))
  have hletters : Name ['x', '1'] := by decide
  have hname : Lexeme.Spelled (.word "x1") "x1".toList := .word hletters
  have hstr : Quoted "\"\n\n".toList "\\\"\n\\n".toList :=
    .escaped .quote (.raw (by decide) (by decide) (.escaped .lineFeed .nil))
  have hint : Lexeme.Spelled (.int 120) "1_20_".toList := .int (by decide) (by decide) (by decide)
  have h : Rendered [.word "x1", .mark .less, .mark .equal, .int 120, .mark .dot, .str "\"\n\n",
      .keyword .when] "x1 < =\t1_20_ // \"2\n\r. \"\\\"\n\\n\" if".toList :=
    .cons hname hspace (.cons (.mark .less) hspace (.cons (.mark .equal) htab
      (.cons hint hcomment (.cons (.mark .dot) hspace (.cons (.str hstr) hspace
        (.single (.keyword .when)))))))
  exact ⟨h, lexemes_of_rendered h⟩

end Scan

end Resumable
