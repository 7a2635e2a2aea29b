import Mathlib.Data.List.Induction
import Mathlib.Data.List.TakeWhile
import Resumable.Proofs.Token.Places
import Resumable.Proofs.Token.Stretch

/-!
A scan cuts a source text into its stretches. The tokens are the lexemes among them, each with the line and
the column of its first character, and for every stretch with something wrong in it there is an error.
Nothing else is passed over but white space and comments.
-/

namespace Resumable

/-- The lexeme of a stretch. -/
def Stretch.lexeme? : Stretch → Option Lexeme
  | lexeme l => some l
  | _ => none

namespace Piece

variable {c : Char} {cs rest more : List Char}

/-- A piece is cut as the stretch `x`, which has the given length, and tells its lexeme or its fault. -/
structure Cuts (piece : Piece) (x : Stretch) (length : Nat) : Prop where
  extra : piece.extra = length
  lexeme : piece.lexeme = x.lexeme?
  fault : ∀ problem, x = .fault problem → (0, problem) ∈ piece.problems

/-- The first stretch of a text that begins with `c`, and what the piece there tells of it. -/
def Finds (piece : Piece) (c : Char) (cs : List Char) : Prop :=
  ∃ x text rest, cs = text ++ rest ∧ Stretch.Heads x (c :: text) rest ∧ piece.Cuts x text.length

theorem heads_of_opens {x : Stretch} {text : List Char} (hreads : x.Reads (c :: text))
    (hlongest : ∀ (y : Stretch) d ds, d :: ds <+: rest → ¬ y.Opens c (text ++ d :: ds)) :
    x.Heads (c :: text) rest := by
  refine ⟨hreads, fun y more hne hprefix hy => ?_⟩
  obtain ⟨d, ds, rfl⟩ := List.exists_cons_of_ne_nil hne
  obtain ⟨c', cs', heq, hopens⟩ := hy.opens
  cases heq
  exact hlongest y d ds hprefix hopens

/-- What follows the longest stretch of characters with a property begins with another one. -/
theorem not_head_dropWhile {p : Char → Bool} {d : Char} {ds : List Char}
    (h : d :: ds <+: cs.dropWhile p) : p d = false := by
  obtain ⟨rest, hrest⟩ := h
  have hhead := List.head?_dropWhile_not p cs
  rw [← hrest] at hhead
  simpa using hhead

theorem space_finds (hc : IsSpace c) (cs : List Char) : Finds {} c cs := by
  refine ⟨.space, [], cs, rfl, heads_of_opens (.space hc) fun y d ds _ hy => ?_, ⟨rfl, rfl, nofun⟩⟩
  cases (hy.of_isSpace hc).2

/-! ### Strings -/

theorem escape_of_escaped? {c e : Char} (h : escaped? e = some c) : Escape c e := by
  unfold escaped? at h
  split at h <;> cases h <;> constructor

/-- What a string comes to: it is closed, or it is open at the end of the text. -/
theorem stringFrom_reads (count : Nat) (text : List Char) (problems : List (Nat × SyntaxProblem))
    (cs : List Char) :
    (∃ s inner rest, cs = inner ++ '"' :: rest ∧ Contents s inner ∧
      (stringFrom count text problems cs).extra = count + inner.length + 1 ∧
      (stringFrom count text problems cs).lexeme = some (.str (String.ofList (text.reverse ++ s)))) ∨
    Unclosed cs ∧ (stringFrom count text problems cs).extra = count + cs.length ∧
      (stringFrom count text problems cs).lexeme = none ∧
      (0, .openString) ∈ (stringFrom count text problems cs).problems := by
  fun_induction stringFrom count text problems cs with
  | case1 count text problems => exact .inr ⟨.nil, rfl, rfl, by simp⟩
  | case2 count text problems => exact .inr ⟨.backslash, rfl, rfl, by simp⟩
  | case3 count text problems c rest e he ih =>
    have hescape := escape_of_escaped? he
    obtain ⟨s, inner, rest, rfl, hinner, hextra, hlexeme⟩ | ⟨hopen, hextra, hrest⟩ := ih
    · refine .inl ⟨e :: s, '\\' :: c :: inner, rest, rfl, .escaped hescape hinner, ?_, ?_⟩
      · rw [hextra, List.length_cons, List.length_cons]
        omega
      · rw [hlexeme, List.reverse_cons, List.append_assoc, List.singleton_append]
    · refine .inr ⟨.pair hopen, ?_, hrest⟩
      rw [hextra, List.length_cons, List.length_cons]
      omega
  | case4 count text problems c rest he ih =>
    have hno : ∀ e, ¬ Escape e c := by
      intro e hescape
      rw [escaped?_of_escape hescape] at he
      cases he
    obtain ⟨s, inner, rest, rfl, hinner, hextra, hlexeme⟩ | ⟨hopen, hextra, hrest⟩ := ih
    · refine .inl ⟨s, '\\' :: c :: inner, rest, rfl, .unknown hno hinner, ?_, hlexeme⟩
      rw [hextra, List.length_cons, List.length_cons]
      omega
    · refine .inr ⟨.pair hopen, ?_, hrest⟩
      rw [hextra, List.length_cons, List.length_cons]
      omega
  | case5 count text problems rest => exact .inl ⟨[], [], rest, rfl, .nil, rfl, by simp⟩
  | case6 count text problems c rest hlast hpair hquote ih =>
    have hslash : c ≠ '\\' := by
      rintro rfl
      cases rest with
      | nil => exact hlast rfl rfl
      | cons d ds => exact hpair d ds rfl rfl
    obtain ⟨s, inner, rest, rfl, hinner, hextra, hlexeme⟩ | ⟨hopen, hextra, hrest⟩ := ih
    · refine .inl ⟨c :: s, c :: inner, rest, rfl, .raw hquote hslash hinner, ?_, ?_⟩
      · rw [hextra, List.length_cons]
        omega
      · rw [hlexeme, List.reverse_cons, List.append_assoc, List.singleton_append]
    · refine .inr ⟨.raw hquote hslash hopen, ?_, hrest⟩
      rw [hextra, List.length_cons]
      omega

theorem string_finds (cs : List Char) : Finds (stringFrom 0 [] [] cs) '"' cs := by
  obtain ⟨s, inner, rest, rfl, hinner, hextra, hlexeme⟩ | ⟨hopen, hextra, hlexeme, hproblem⟩ :=
    stringFrom_reads 0 [] [] cs
  · have hreads : (Stretch.lexeme (.str (String.ofList s))).Reads ('"' :: (inner ++ ['"'])) :=
      .lexeme (.str (String.toList_ofList.symm ▸ hinner))
    refine ⟨_, inner ++ ['"'], rest, by simp, heads_of_opens hreads fun y d ds _ hy => ?_, ?_⟩
    · -- the string ends at its first quote
      rw [List.append_assoc, List.singleton_append] at hy
      generalize hsame : inner ++ '"' :: (d :: ds) = text at hy
      cases hy.of_quote with
      | closed hcontents =>
        rw [← List.nil_append (d :: ds), ← List.cons_append] at hsame
        cases (hinner.unique hcontents hsame).2.2
      | unclosed hopen =>
        subst hsame
        exact hinner.not_unclosed hopen
    · refine ⟨?_, hlexeme, nofun⟩
      rw [hextra, List.length_append]
      simp
  · refine ⟨.fault .openString, cs, [], by simp, heads_of_opens (.openString hopen) ?_, ?_⟩
    · intro y d ds hprefix
      cases List.prefix_nil.1 hprefix
    · refine ⟨by simpa using hextra, hlexeme, ?_⟩
      rintro _ ⟨⟩
      exact hproblem

/-! ### Numbers, words and comments -/

theorem fraction?_eq_some {digits : List Char} (h : fraction? cs = some digits) :
    ∃ d ds, cs = '.' :: d :: ds ∧ d.isDigit ∧ digits = (d :: ds).takeWhile Char.isDigit := by
  unfold fraction? at h
  split at h
  next d ds =>
    split at h
    next hd =>
      cases h
      exact ⟨d, ds, rfl, hd, rfl⟩
    next => cases h
  next => cases h

/-- A point that no digit follows does not belong to a number. -/
theorem ne_of_fraction?_eq_none {d : Char} (h : fraction? ('.' :: d :: cs) = none) : ¬ d.isDigit := by
  intro hd
  rw [fraction?, if_pos hd] at h
  cases h

theorem numeral_takeWhile (hc : c.isDigit) (cs : List Char) :
    Numeral (c :: cs.takeWhile isDigitOrGap) := by
  refine .intro hc fun x hx => ?_
  simpa [isDigitOrGap] using List.mem_takeWhile_imp hx

theorem digits_cons (hc : c.isDigit) (cs : List Char) :
    Numeral.digits (c :: cs) = c :: cs.filter (· != '_') := by
  have hgap : c ≠ '_' := by
    rintro rfl
    cases hc
  rw [Numeral.digits, List.filter_cons_of_pos (by simpa using hgap)]

theorem toInt_of_intOfDigits? {digits : List Char} {n : Int64}
    (h : Number.intOfDigits? digits = some n) : (Numeral.value digits : Int) = n.toInt := by
  simp only [Number.intOfDigits?, Number.ofDigits_eq_value] at h
  split at h
  next hle =>
    cases h
    exact (Int64.toInt_ofNat_of_lt (by unfold Number.maxInt at hle; omega)).symm
  next => cases h

theorem lt_of_intOfDigits?_eq_none {digits : List Char} (h : Number.intOfDigits? digits = none) :
    Number.maxInt < Numeral.value digits := by
  simp only [Number.intOfDigits?, Number.ofDigits_eq_value] at h
  split at h
  next => cases h
  next hle => exact Int.not_le.1 hle

theorem number_finds_fraction (hc : c.isDigit) {digits : List Char}
    (hfraction : fraction? (cs.dropWhile isDigitOrGap) = some digits) : Finds (number c cs) c cs := by
  obtain ⟨d, ds, hrest, hd, rfl⟩ := fraction?_eq_some hfraction
  have hnumeral := numeral_takeWhile hc cs
  have hpiece : number c cs =
      { extra := (cs.takeWhile isDigitOrGap).length + 1 + ((d :: ds).takeWhile Char.isDigit).length,
        lexeme := some (.float (.ofScientific
          (Numeral.value (Numeral.digits (c :: cs.takeWhile isDigitOrGap) ++
            (d :: ds).takeWhile Char.isDigit)) true ((d :: ds).takeWhile Char.isDigit).length)) } := by
    simp only [number, hfraction, digits_cons hc (cs.takeWhile isDigitOrGap), Number.floatOfDigits,
      Number.ofDigits_eq_value]
  have hreads := Stretch.Reads.lexeme (.float hnumeral
    (show (d :: ds).takeWhile Char.isDigit ≠ [] by simp [hd]) fun x hx => List.mem_takeWhile_imp hx)
  refine ⟨_, cs.takeWhile isDigitOrGap ++ '.' :: (d :: ds).takeWhile Char.isDigit,
    (d :: ds).dropWhile Char.isDigit, ?_, heads_of_opens hreads fun y e es hprefix hy => ?_, ?_⟩
  · rw [List.append_assoc, List.cons_append, List.takeWhile_append_dropWhile, ← hrest,
      List.takeWhile_append_dropWhile]
  · have hnumber := hy.of_isDigit hc
    rw [List.append_assoc, ← List.cons_append] at hnumber
    have hdigit := (hnumber.fraction hnumeral rfl).2.2 e (by simp)
    cases hdigit.symm.trans (not_head_dropWhile hprefix)
  · rw [hpiece]
    refine ⟨?_, rfl, fun _ h => Stretch.noConfusion h⟩
    simp only [List.length_append, List.length_cons]
    omega

theorem number_finds_whole (hc : c.isDigit)
    (hfraction : fraction? (cs.dropWhile isDigitOrGap) = none) : Finds (number c cs) c cs := by
  have hnumeral := numeral_takeWhile hc cs
  have hdigits := digits_cons hc (cs.takeWhile isDigitOrGap)
  have hlongest : ∀ (y : Stretch) e es, e :: es <+: cs.dropWhile isDigitOrGap →
      ¬ y.Opens c (cs.takeWhile isDigitOrGap ++ e :: es) := by
    intro y e es hprefix hy
    have hnumber := hy.of_isDigit hc
    rw [← List.cons_append] at hnumber
    obtain ⟨rfl, hne, hall⟩ := hnumber.fraction hnumeral (not_head_dropWhile hprefix)
    obtain ⟨d, ds, rfl⟩ := List.exists_cons_of_ne_nil hne
    obtain ⟨rest, hrest⟩ := hprefix
    rw [← hrest] at hfraction
    exact ne_of_fraction?_eq_none hfraction (hall d (by simp))
  cases hvalue : Number.intOfDigits? (c :: (cs.takeWhile isDigitOrGap).filter (· != '_')) with
  | some n =>
    have hreads := Stretch.Reads.lexeme (.int hnumeral (hdigits ▸ toInt_of_intOfDigits? hvalue))
    refine ⟨_, _, _, List.takeWhile_append_dropWhile.symm, heads_of_opens hreads hlongest, ?_⟩
    simp only [number, hfraction, hvalue]
    exact ⟨rfl, rfl, fun _ h => Stretch.noConfusion h⟩
  | none =>
    have hreads := Stretch.Reads.hugeInteger hnumeral (hdigits ▸ lt_of_intOfDigits?_eq_none hvalue)
    refine ⟨_, _, _, List.takeWhile_append_dropWhile.symm, heads_of_opens hreads hlongest, ?_⟩
    simp only [number, hfraction, hvalue]
    refine ⟨rfl, rfl, ?_⟩
    rintro _ ⟨⟩
    rw [hdigits]
    exact .head _

theorem number_finds (hc : c.isDigit) (cs : List Char) : Finds (number c cs) c cs := by
  cases hfraction : fraction? (cs.dropWhile isDigitOrGap) with
  | some digits => exact number_finds_fraction hc hfraction
  | none => exact number_finds_whole hc hfraction

theorem reads_word (hc : Text.opensWord c) (hcs : ∀ d ∈ cs, Text.continuesWord d) :
    (Stretch.lexeme (.ofWord (c :: cs))).Reads (c :: cs) := by
  unfold Lexeme.ofWord
  cases hword : Keyword.ofWord? (String.ofList (c :: cs)) with
  | some k =>
    have hspelling : k.spelling = String.ofList (c :: cs) := by simpa using List.find?_some hword
    have hwritten := Lexeme.Written.keyword k
    rw [hspelling, String.toList_ofList] at hwritten
    exact .lexeme hwritten
  | none =>
    have hname : Name (c :: cs) := by
      refine .intro hc hcs fun k => ?_
      simpa using List.find?_eq_none.1 hword k k.mem_all
    rw [← String.toList_ofList (l := c :: cs)] at hname
    have hwritten := Lexeme.Written.word hname
    rw [String.toList_ofList] at hwritten
    exact .lexeme hwritten

theorem word_finds (hc : Text.opensWord c) (cs : List Char) : Finds (word c cs) c cs := by
  have hcs : ∀ d ∈ cs.takeWhile Text.continuesWord, Text.continuesWord d :=
    fun d hd => List.mem_takeWhile_imp hd
  refine ⟨.lexeme (.ofWord (c :: cs.takeWhile Text.continuesWord)), _, _,
    List.takeWhile_append_dropWhile.symm, heads_of_opens (reads_word hc hcs) fun y d ds hprefix hy => ?_,
    ⟨rfl, rfl, nofun⟩⟩
  have hd := (hy.of_opensWord hc).2 d (by simp)
  cases hd.symm.trans (not_head_dropWhile hprefix)

theorem comment_finds (cs : List Char) : Finds (slash ('/' :: cs)) '/' ('/' :: cs) := by
  have hline : '\n' ∉ cs.takeWhile (· != '\n') := by
    intro hfeed
    cases List.mem_takeWhile_imp hfeed
  refine ⟨.comment, '/' :: cs.takeWhile (· != '\n'), cs.dropWhile (· != '\n'), ?_,
    heads_of_opens (.comment hline) fun y d ds hprefix hy => ?_, ⟨?_, rfl, nofun⟩⟩
  · rw [List.cons_append, List.takeWhile_append_dropWhile]
  · -- a longer comment would have the end of the line in it
    have hd := not_head_dropWhile hprefix
    obtain ⟨_, _, line, heq, hfeed⟩ | ⟨m, _, hm⟩ | ⟨_, hnil, _⟩ :=
      hy.of_plain (by simp [IsSpace]) rfl rfl (by decide)
    · cases heq
      rw [bne_eq_false_iff_eq] at hd
      exact hfeed (List.mem_append_right _ (by simp [hd]))
    · obtain ⟨hnil, _⟩ := Mark.long_inv hm
      simp at hnil
    · cases hnil
  · simp [slash, Nat.add_comm]

/-! ### Marks -/

/-- No mark of two characters and no comment begins with `c` here. -/
def Alone (c : Char) (cs : List Char) : Prop :=
  ∀ d ds, cs = d :: ds → ¬ (c = '/' ∧ d = '/') ∧ ¬ (c = '=' ∧ d = '>') ∧
    ¬ (d = '=' ∧ (c = '=' ∨ c = '!' ∨ c = '<' ∨ c = '>'))

theorem heads_alone {x : Stretch} (hreads : x.Reads [c]) (hspace : ¬ IsSpace c)
    (hdigit : c.isDigit = false) (hword : Text.opensWord c = false) (hquote : c ≠ '"')
    (halone : Alone c cs) : x.Heads [c] cs := by
  refine heads_of_opens hreads fun y d ds hprefix hy => ?_
  obtain ⟨rest, rfl⟩ := hprefix
  obtain ⟨hslash, harrow, hequal⟩ := halone d (ds ++ rest) rfl
  rw [List.nil_append] at hy
  obtain ⟨_, hc, line, hline, _⟩ | ⟨m, _, hm⟩ | ⟨_, hnil, _⟩ := hy.of_plain hspace hdigit hword hquote
  · exact hslash ⟨hc, (List.cons.inj hline).1⟩
  · obtain ⟨_, hlong | ⟨hd, hc⟩⟩ := Mark.long_inv hm
    · exact hequal hlong
    · exact harrow ⟨hc, hd⟩
  · cases hnil

theorem mark_finds {m : Mark} (hm : m.spelling.toList = [c]) (halone : Alone c cs) :
    Finds (ofMark m) c cs := by
  obtain ⟨hspace, hdigit, hword, hquote⟩ := Mark.plain_head hm
  have hreads : (Stretch.lexeme (.mark m)).Reads [c] := .lexeme (hm ▸ .mark m)
  exact ⟨_, [], cs, rfl, heads_alone hreads hspace hdigit hword hquote halone, ⟨rfl, rfl, nofun⟩⟩

theorem longMark_finds {m : Mark} {d : Char} (hm : m.spelling.toList = [c, d]) (cs : List Char) :
    Finds (ofLongMark m) c (d :: cs) := by
  have hreads : (Stretch.lexeme (.mark m)).Reads [c, d] := .lexeme (hm ▸ .mark m)
  obtain ⟨hspace, hdigit, hword, hquote⟩ := Mark.plain_head hm
  refine ⟨_, [d], cs, rfl, heads_of_opens hreads fun y e es _ hy => ?_, ⟨rfl, rfl, nofun⟩⟩
  obtain ⟨_, rfl, line, hline, _⟩ | ⟨m', _, hm'⟩ | ⟨_, hnil, _⟩ :=
    hy.of_plain hspace hdigit hword hquote
  · obtain ⟨_, ⟨_, hc⟩ | ⟨_, hc⟩⟩ := Mark.long_inv hm <;> simp at hc
  · obtain ⟨hnil, _⟩ := Mark.long_inv hm'
    cases hnil
  · cases hnil

theorem withEqual_finds {short long : Mark} (hshort : short.spelling.toList = [c])
    (hlong : long.spelling.toList = [c, '=']) (hc : c ≠ '/') (harrow : ∀ rest, c = '=' → cs ≠ '>' :: rest) :
    Finds (withEqual short long cs) c cs := by
  unfold withEqual
  split
  next rest => exact longMark_finds hlong rest
  next hno =>
    refine mark_finds hshort fun d ds hcs => ⟨fun h => hc h.1, ?_, fun h => ?_⟩
    · rintro ⟨heq, rfl⟩
      exact harrow ds heq hcs
    · obtain ⟨rfl, _⟩ := h
      exact hno ds hcs

theorem stray_finds (hspace : ¬ IsSpace c) (hdigit : c.isDigit = false)
    (hword : Text.opensWord c = false) (hquote : c ≠ '"') (hmark : ∀ m : Mark, m.spelling.toList ≠ [c])
    (halone : Alone c cs) : Finds { problems := [(0, .strayCharacter c)] } c cs := by
  refine ⟨_, [], cs, rfl, heads_alone (.stray hspace hdigit hword hquote hmark) hspace hdigit hword
    hquote halone, ⟨rfl, rfl, ?_⟩⟩
  rintro _ ⟨⟩
  exact .head _

/-- Marks that no longer one begins with are alone wherever they stand. -/
theorem alone_of_ne (hslash : c ≠ '/') (hequal : c ≠ '=') (hbang : c ≠ '!') (hless : c ≠ '<')
    (hgreater : c ≠ '>') (cs : List Char) : Alone c cs := by
  intro d ds _
  simp [hslash, hequal, hbang, hless, hgreater]

theorem slash_finds (cs : List Char) : Finds (slash cs) '/' cs := by
  unfold slash
  split
  next rest => exact comment_finds rest
  next hno =>
    refine mark_finds rfl fun d ds hcs => ⟨?_, by simp, by simp⟩
    rintro ⟨_, rfl⟩
    exact hno ds hcs

theorem sign_finds (hspace : ¬ IsSpace c) (hdigit : c.isDigit = false)
    (hword : Text.opensWord c = false) (hquote : c ≠ '"') (hslash : c ≠ '/') (cs : List Char) :
    Finds (sign c cs) c cs := by
  unfold sign
  split
  case h_16 | h_17 => exact withEqual_finds rfl rfl (by decide) (by simp)
  case h_18 =>
    split
    next rest => exact longMark_finds rfl rest
    next hno => exact withEqual_finds rfl rfl (by decide) fun rest _ hcs => hno rest hcs
  case h_19 =>
    split
    next rest => exact longMark_finds rfl rest
    next hno =>
      refine stray_finds hspace hdigit hword hquote (fun m => ?_) fun d ds hcs => ⟨by simp, by simp, ?_⟩
      · cases m <;> exact nofun
      · rintro ⟨rfl, _⟩
        exact hno ds hcs
  case h_20 =>
    have hmark : ∀ m : Mark, m.spelling.toList ≠ [c] := by
      intro m hm
      cases m <;> cases hm <;> contradiction
    refine stray_finds hspace hdigit hword hquote hmark (alone_of_ne hslash ?_ ?_ ?_ ?_ cs) <;> assumption
  all_goals exact mark_finds rfl (alone_of_ne (by decide) (by decide) (by decide) (by decide) (by decide) cs)

/-- Every piece is the longest stretch of its place. -/
theorem start_finds (c : Char) (cs : List Char) : Finds (start c cs) c cs := by
  unfold start
  split_ifs with hgap hslash hquote hdigit hword
  · exact space_finds (isGap_iff.1 hgap) cs
  · subst hslash
    exact slash_finds cs
  · subst hquote
    exact string_finds cs
  · exact number_finds hdigit cs
  · exact word_finds hword cs
  · rw [Bool.not_eq_true] at hdigit hword
    exact sign_finds (fun h => hgap (isGap_iff.2 h)) hdigit hword hquote hslash cs

end Piece

/-- The line of a place in a text: one more than the line feeds before it. -/
def lineAt (source : List Char) (i : Nat) : Nat :=
  1 + (source.take i).count '\n'

/-- The column of a place in a text: one more than the characters since the last line feed. -/
def columnAt (source : List Char) (i : Nat) : Nat :=
  1 + ((source.take i).reverse.takeWhile (· != '\n')).length

/-- A token that stands for the lexeme at a place of the text. -/
def Token.standing (source : List Char) (x : Nat × Lexeme) : Token :=
  ⟨x.2, lineAt source x.1, columnAt source x.1⟩

theorem Position.over_eq (before : List Char) :
    ({} : Position).over before =
      ⟨1 + before.count '\n', 1 + (before.reverse.takeWhile (· != '\n')).length⟩ := by
  induction before using List.reverseRecOn with
  | nil => rfl
  | append_singleton before c ih =>
    rw [over_append, ih]
    by_cases hc : c = '\n'
    · simp [Position.over, Position.after, hc, Nat.add_assoc]
    · simp [Position.over, Position.after, hc, Nat.add_assoc]

theorem Position.over_eq_at (before rest : List Char) : ({} : Position).over before =
    ⟨lineAt (before ++ rest) before.length, columnAt (before ++ rest) before.length⟩ := by
  rw [over_eq, lineAt, columnAt, List.take_left]

namespace Span

/-- The lexemes of the spans of a text, with their places, and the end of the text. -/
def lexemes (source : List Char) (spans : List Span) : List (Nat × Lexeme) :=
  spans.filterMap (fun s => s.content.lexeme?.map fun l => (s.start, l)) ++ [(source.length, .ending)]

theorem lexemes_cons (source : List Char) (s : Span) (spans : List Span) :
    lexemes source (s :: spans) =
      (s.content.lexeme?.map fun l => (s.start, l)).toList ++ lexemes source spans := by
  unfold lexemes
  cases hlexeme : s.content.lexeme? with
  | none => simp [hlexeme]
  | some l => simp [hlexeme]

/-- Lexemes stand one after the other, and the end of the text stands last. -/
theorem Tiled.increasing {source : List Char} {i : Nat} {spans : List Span} (h : Tiled source i spans) :
    ((lexemes source spans).map Prod.fst).Pairwise (· < ·) ∧
      ∀ j ∈ (lexemes source spans).map Prod.fst, i ≤ j := by
  induction h with
  | nil => simp [lexemes]
  | @cons s spans hlength _ _ ih =>
    obtain ⟨hsorted, hlater⟩ := ih
    rw [lexemes_cons, List.map_append]
    have hafter : ∀ j ∈ (lexemes source spans).map Prod.fst, s.start < j :=
      fun j hj => Nat.lt_of_lt_of_le hlength (hlater j hj)
    cases s.content.lexeme? with
    | none => exact ⟨hsorted, fun j hj => Nat.le_of_lt (hafter j hj)⟩
    | some l =>
      refine ⟨List.pairwise_cons.2 ⟨hafter, hsorted⟩, ?_⟩
      exact List.forall_mem_cons.2 ⟨Nat.le_refl _, fun j hj => Nat.le_of_lt (hafter j hj)⟩

end Span

namespace Scan

/-- The spans of a text that has been cut: its tokens are the lexemes in them, and every fault in them is
among its errors. -/
theorem Cut.tiled {p : Position} {text : List Char} {tokens : List Token} {errors : List SyntaxError}
    (h : Cut p text tokens errors) (before : List Char) (hp : p = ({} : Position).over before) :
    ∃ spans, Span.Tiled (before ++ text) before.length spans ∧
      tokens = (Span.lexemes (before ++ text) spans).map (Token.standing (before ++ text)) ∧
      ∀ s ∈ spans, ∀ problem, s.content = .fault problem →
        ⟨problem, lineAt (before ++ text) s.start, columnAt (before ++ text) s.start⟩ ∈ errors := by
  induction h generalizing before with
  | ending p =>
    rw [List.append_nil]
    have hplace := Position.over_eq_at before []
    rw [List.append_nil, ← hp] at hplace
    refine ⟨[], .nil, ?_, nofun⟩
    rw [hplace]
    rfl
  | @piece p c cs rest tokens errors hextra _ ih =>
    obtain ⟨x, text, rest', hsplit, hheads, hcuts⟩ := Piece.start_finds c (cs ++ rest)
    have hlength : cs.length = text.length := hextra.symm.trans hcuts.extra
    obtain ⟨rfl, rfl⟩ := List.append_inj hsplit hlength
    have hsource : before ++ (c :: cs) ++ rest = before ++ c :: (cs ++ rest) := by simp
    obtain ⟨spans, htiled, htokens, hfaults⟩ := ih (before ++ c :: cs) (by
      rw [Position.over_append, ← hp])
    rw [hsource] at htiled htokens hfaults
    have hplace := Position.over_eq_at before (c :: (cs ++ rest))
    rw [← hp] at hplace
    have hstop : (before ++ c :: cs).length = before.length + (c :: cs).length := List.length_append
    rw [hstop] at htiled
    obtain ⟨s, hs⟩ : ∃ s : Span, s = ⟨before.length, before.length + (c :: cs).length, x⟩ := ⟨_, rfl⟩
    have hspans : Span.Tiled (before ++ c :: (cs ++ rest)) s.start (s :: spans) := by
      refine .cons ?_ ⟨before, c :: cs, rest, ?_⟩ ?_ <;> subst hs
      · simp
      · exact ⟨rfl, rfl, rfl, hheads⟩
      · exact htiled
    subst hs
    refine ⟨_, hspans, ?_, ?_⟩
    · rw [Span.lexemes_cons, List.map_append, ← htokens, Piece.tokenAt, hcuts.lexeme, hplace]
      congr 1
      cases x.lexeme? <;> rfl
    · refine List.forall_mem_cons.2 ⟨fun problem hproblem => ?_, fun t ht problem hproblem => ?_⟩
      · refine List.mem_append_left _ (List.mem_map.2 ⟨(0, problem), hcuts.fault problem hproblem, ?_⟩)
        rw [hplace]
        rfl
      · exact List.mem_append_right _ (hfaults t ht problem hproblem)

/-- A source text can be cut into stretches in one way, the longest one at every place: white space,
comments, lexemes, and stretches with something wrong in them. The tokens of the text are its lexemes, in
order, each with the line and the column of its first character, and last the end of the text. There is
an error for every stretch with something wrong in it. -/
theorem ofSource_tiled (source : String) :
    ∃ spans, Span.Tiled source.toList 0 spans ∧
      (∀ others, Span.Tiled source.toList 0 others → others = spans) ∧
      ((Span.lexemes source.toList spans).map Prod.fst).Pairwise (· < ·) ∧
      (ofSource source).tokens =
        (Span.lexemes source.toList spans).map (Token.standing source.toList) ∧
      ∀ s ∈ spans, ∀ problem, s.content = .fault problem →
        ⟨problem, lineAt source.toList s.start, columnAt source.toList s.start⟩ ∈
          (ofSource source).errors := by
  obtain ⟨spans, htiled, htokens, hfaults⟩ := (ofSource_cut source).tiled [] rfl
  exact ⟨spans, htiled, fun others hothers => hothers.unique htiled, htiled.increasing.1, htokens,
    hfaults⟩

end Scan

end Resumable
