import Mathlib.Tactic.Common
import Resumable.Proofs.Token.Scanning

/-!
Where tokens and errors stand. A scan cuts its text into pieces one after the other; what a piece makes
stands at its first character, and what is wrong with it at a place within it. Places are ordered as
the characters are, so the errors come in order, but for a string that is never closed: it is
blamed at its first character, after the escapes in it.
-/

namespace Resumable

namespace Position

variable {p q r : Position}

/-- The first place is not after the second. -/
def NotAfter (p q : Position) : Prop :=
  p.line < q.line ∨ p.line = q.line ∧ p.column ≤ q.column

instance : Decidable (NotAfter p q) :=
  inferInstanceAs (Decidable (_ ∨ _))

theorem NotAfter.refl (p : Position) : NotAfter p p :=
  .inr ⟨rfl, Nat.le_refl _⟩

theorem NotAfter.trans (hpq : NotAfter p q) (hqr : NotAfter q r) : NotAfter p r := by
  unfold NotAfter at *
  omega

theorem NotAfter.total (p q : Position) : NotAfter p q ∨ NotAfter q p := by
  unfold NotAfter
  omega

/-- Every character moves the place on. -/
theorem not_after_notAfter (p : Position) (c : Char) : ¬ NotAfter (p.after c) p := by
  unfold NotAfter after
  split <;> simp only <;> omega

theorem notAfter_after (p : Position) (c : Char) : NotAfter p (p.after c) :=
  (NotAfter.total p (p.after c)).resolve_right (not_after_notAfter p c)

theorem notAfter_over (p : Position) (cs : List Char) : NotAfter p (p.over cs) := by
  induction cs generalizing p with
  | nil => exact .refl p
  | cons c cs ih => exact (notAfter_after p c).trans (ih (p.after c))

theorem over_cons (p : Position) (c : Char) (cs : List Char) :
    p.over (c :: cs) = (p.after c).over cs :=
  rfl

/-- Places in a text are ordered as the numbers of characters before them. -/
theorem over_take_notAfter (p : Position) (cs : List Char) {m n : Nat} (hmn : m ≤ n) :
    NotAfter (p.over (cs.take m)) (p.over (cs.take n)) := by
  have hsplit : cs.take n = cs.take m ++ (cs.take n).drop m := by
    conv_lhs => rw [← List.take_append_drop m (cs.take n), List.take_take, Nat.min_eq_left hmn]
  rw [hsplit, over_append]
  exact notAfter_over _ _

end Position

/-- Where an error stands. -/
def SyntaxError.place (e : SyntaxError) : Position :=
  ⟨e.line, e.column⟩

theorem SyntaxError.notAfter_iff {a b : SyntaxError} :
    a.notAfter b = true ↔ a.place.NotAfter b.place := by
  simp [notAfter, Position.NotAfter, place]

/-- The places of the errors do not go back. -/
def SyntaxError.InOrder (errors : List SyntaxError) : Prop :=
  errors.Pairwise fun a b => a.place.NotAfter b.place

/-- Where a token stands. -/
def Token.place (t : Token) : Position :=
  ⟨t.line, t.column⟩

namespace Piece

/-- The token that a piece at the given place makes. -/
def tokenAt (piece : Piece) (p : Position) : List Token :=
  (piece.lexeme.map fun l => ⟨l, p.line, p.column⟩).toList

/-- The errors in a piece at the given place, where the given text begins. -/
def errorsAt (piece : Piece) (p : Position) (text : List Char) : List SyntaxError :=
  piece.problems.map fun (count, problem) =>
    ⟨problem, (p.over (text.take count)).line, (p.over (text.take count)).column⟩

/-- What is asked of the problems of a piece in `room` characters: they are blamed on places within it,
in order, except that a string that never ends is blamed at its start after the escapes in it. -/
structure Orderly (piece : Piece) (room : Nat) (inner last : List (Nat × SyntaxProblem)) : Prop where
  extra_le : piece.extra ≤ room
  problems : piece.problems = inner ++ last
  sorted : inner.Pairwise fun a b => a.1 ≤ b.1
  within : ∀ x ∈ inner, x.1 ≤ piece.extra + 1
  open_string : last = [] ∨ last = [(0, .openString)] ∧ piece.extra = room ∧
    ∀ x ∈ inner, x.1 ≠ 0 ∧ ∃ c, x.2 = .unknownEscape c

section Shapes

variable {c : Char} {cs : List Char}

theorem Orderly.clean {piece : Piece} {room : Nat} (hroom : piece.extra ≤ room)
    (h : piece.problems = []) : Orderly piece room [] [] :=
  ⟨hroom, h, .nil, nofun, .inl rfl⟩

theorem Orderly.first {piece : Piece} {room : Nat} {problem : SyntaxProblem}
    (hroom : piece.extra ≤ room) (h : piece.problems = [(0, problem)]) :
    Orderly piece room [(0, problem)] [] :=
  ⟨hroom, h, List.pairwise_singleton _ _, fun x hx => by simp [List.mem_singleton.1 hx], .inl rfl⟩

theorem ofMark_orderly (m : Mark) (room : Nat) : Orderly (ofMark m) room [] [] :=
  .clean (Nat.zero_le _) rfl

theorem withEqual_orderly (short long : Mark) (cs : List Char) :
    Orderly (withEqual short long cs) cs.length [] [] := by
  unfold withEqual
  split
  · exact .clean (Nat.succ_le_succ (Nat.zero_le _)) rfl
  · exact ofMark_orderly _ _

theorem slash_orderly (cs : List Char) : Orderly (slash cs) cs.length [] [] := by
  unfold slash
  split
  next rest =>
    have hlength := (List.takeWhile_sublist (l := rest) (· != '\n')).length_le
    exact .clean (by simp only [List.length_cons]; omega) rfl
  next => exact ofMark_orderly _ _

theorem sign_orderly (c : Char) (cs : List Char) :
    ∃ inner, Orderly (sign c cs) cs.length inner [] := by
  unfold sign
  split
  case h_16 | h_17 => exact ⟨[], withEqual_orderly _ _ _⟩
  case h_18 =>
    split
    · exact ⟨[], .clean (Nat.succ_le_succ (Nat.zero_le _)) rfl⟩
    · exact ⟨[], withEqual_orderly _ _ _⟩
  case h_19 =>
    split
    · exact ⟨[], .clean (Nat.succ_le_succ (Nat.zero_le _)) rfl⟩
    · exact ⟨_, .first (Nat.zero_le _) rfl⟩
  case h_20 => exact ⟨_, .first (Nat.zero_le _) rfl⟩
  all_goals exact ⟨[], ofMark_orderly _ _⟩

theorem word_orderly (c : Char) (cs : List Char) : Orderly (word c cs) cs.length [] [] :=
  .clean (List.takeWhile_sublist _).length_le rfl

theorem number_orderly (c : Char) (cs : List Char) :
    ∃ inner, Orderly (number c cs) cs.length inner [] := by
  have hbody := congrArg List.length (List.takeWhile_append_dropWhile (p := isDigitOrGap) (l := cs))
  rw [List.length_append] at hbody
  unfold number
  simp only
  split
  next digits hdigits =>
    have hroom : 1 + digits.length ≤ (cs.dropWhile isDigitOrGap).length := by
      unfold fraction? at hdigits
      split at hdigits
      next d rest hrest =>
        split at hdigits
        next =>
          cases hdigits
          have hlength := (List.takeWhile_sublist (l := d :: rest) Char.isDigit).length_le
          rw [hrest, List.length_cons]
          omega
        next => cases hdigits
      next => cases hdigits
    exact ⟨[], .clean (by simp only; omega) rfl⟩
  next =>
    split
    · exact ⟨[], .clean (by simp only; omega) rfl⟩
    · exact ⟨_, .first (by simp only; omega) rfl⟩

/-- The escapes that are unknown are noted as they are passed, so their places go on; that the string
does not end is noticed last. -/
theorem stringFrom_orderly (count : Nat) (text : List Char) (problems : List (Nat × SyntaxProblem))
    (cs : List Char) (hsorted : problems.Pairwise fun a b => b.1 ≤ a.1)
    (hwithin : ∀ x ∈ problems, x.1 ≤ count + 1)
    (hescapes : ∀ x ∈ problems, x.1 ≠ 0 ∧ ∃ c, x.2 = .unknownEscape c) :
    ∃ inner last, Orderly (stringFrom count text problems cs) (count + cs.length) inner last := by
  have hsorted' := List.pairwise_reverse.2 hsorted
  fun_induction stringFrom count text problems cs with
  | case1 count text problems =>
    exact ⟨problems.reverse, [(0, .openString)], Nat.le_refl _, by simp, hsorted',
      fun x hx => hwithin x (List.mem_reverse.1 hx),
      .inr ⟨rfl, rfl, fun x hx => hescapes x (List.mem_reverse.1 hx)⟩⟩
  | case2 count text problems =>
    exact ⟨problems.reverse, [(0, .openString)], Nat.le_refl _, by simp, hsorted',
      fun x hx => Nat.le_succ_of_le (hwithin x (List.mem_reverse.1 hx)),
      .inr ⟨rfl, rfl, fun x hx => hescapes x (List.mem_reverse.1 hx)⟩⟩
  | case3 count text problems c rest e he ih =>
    obtain ⟨inner, last, h⟩ :=
      ih hsorted (fun x hx => Nat.le_trans (hwithin x hx) (by omega)) hescapes hsorted'
    exact ⟨inner, last, by simpa [Nat.add_assoc, Nat.add_comm 2] using h⟩
  | case4 count text problems c rest he ih =>
    have hmore : ∀ x ∈ problems, x.1 ≤ count + 3 := fun x hx => Nat.le_trans (hwithin x hx) (by omega)
    have hsorted : ((count + 3, SyntaxProblem.unknownEscape c) :: problems).Pairwise
        fun a b => b.1 ≤ a.1 := List.pairwise_cons.2 ⟨hmore, hsorted⟩
    obtain ⟨inner, last, h⟩ := ih hsorted
      (List.forall_mem_cons.2 ⟨Nat.le_refl _, hmore⟩)
      (List.forall_mem_cons.2 ⟨⟨by simp, c, rfl⟩, hescapes⟩) (List.pairwise_reverse.2 hsorted)
    exact ⟨inner, last, by simpa [Nat.add_assoc, Nat.add_comm 2] using h⟩
  | case5 count text problems rest =>
    exact ⟨problems.reverse, [], by simp, by simp, hsorted',
      fun x hx => Nat.le_succ_of_le (hwithin x (List.mem_reverse.1 hx)), .inl rfl⟩
  | case6 count text problems c rest _ _ hquote ih =>
    obtain ⟨inner, last, h⟩ :=
      ih hsorted (fun x hx => Nat.le_succ_of_le (hwithin x hx)) hescapes hsorted'
    exact ⟨inner, last, by simpa [Nat.add_assoc, Nat.add_comm 1] using h⟩

theorem start_orderly (c : Char) (cs : List Char) :
    ∃ inner last, Orderly (start c cs) cs.length inner last := by
  unfold start
  split_ifs
  · exact ⟨[], [], .clean (Nat.zero_le _) rfl⟩
  · exact ⟨[], [], slash_orderly cs⟩
  · simpa using stringFrom_orderly 0 [] [] cs .nil nofun nofun
  · obtain ⟨inner, h⟩ := number_orderly c cs
    exact ⟨inner, [], h⟩
  · exact ⟨[], [], word_orderly c cs⟩
  · obtain ⟨inner, h⟩ := sign_orderly c cs
    exact ⟨inner, [], h⟩

end Shapes

end Piece

namespace Scan

/-- A text at the given place, cut into pieces, with the tokens and the errors in them. The end of the
text makes a token too. -/
inductive Cut : Position → List Char → List Token → List SyntaxError → Prop
  | ending (p : Position) : Cut p [] [⟨.ending, p.line, p.column⟩] []
  | piece {p : Position} {c : Char} {cs rest : List Char} {tokens : List Token}
      {errors : List SyntaxError} : (Piece.start c (cs ++ rest)).extra = cs.length →
      Cut (p.over (c :: cs)) rest tokens errors →
      Cut p (c :: (cs ++ rest)) ((Piece.start c (cs ++ rest)).tokenAt p ++ tokens)
        ((Piece.start c (cs ++ rest)).errorsAt p (c :: (cs ++ rest)) ++ errors)

theorem foldl_errors (piece : Piece) (p : Position) (text : List Char) (errors : List SyntaxError) :
    piece.problems.foldl (fun errors (x : Nat × SyntaxProblem) =>
        (⟨x.2, (p.over (text.take x.1)).line, (p.over (text.take x.1)).column⟩ : SyntaxError) :: errors)
      errors = (piece.errorsAt p text).reverse ++ errors := by
  unfold Piece.errorsAt
  induction piece.problems generalizing errors with
  | nil => rfl
  | cons x problems ih => simp [ih]

theorem follow_cut (tokens : List Token) (errors : List SyntaxError) (p : Position)
    (text : List Char) : ∃ ts es, Cut p text ts es ∧
      follow tokens errors p 0 text = ⟨tokens.reverse ++ ts, errors.reverse ++ es⟩ := by
  induction hlength : text.length using Nat.strongRecOn generalizing tokens errors p text with
  | ind n ih =>
    cases text with
    | nil => exact ⟨_, _, .ending p, by simp [follow]⟩
    | cons c text =>
      obtain ⟨_, _, horderly⟩ := Piece.start_orderly c text
      -- the piece and what comes after it
      obtain ⟨cs, rest, rfl, hextra⟩ : ∃ cs rest, text = cs ++ rest ∧
          (Piece.start c text).extra = cs.length :=
        ⟨text.take (Piece.start c text).extra, text.drop (Piece.start c text).extra,
          (List.take_append_drop _ _).symm, (List.length_take_of_le horderly.extra_le).symm⟩
      have hless : rest.length < n := by
        simp only [List.length_cons, List.length_append] at hlength
        omega
      obtain ⟨ts, es, hcut, hfollow⟩ := ih _ hless
        ((Piece.start c (cs ++ rest)).tokenAt p ++ tokens)
        (((Piece.start c (cs ++ rest)).errorsAt p (c :: (cs ++ rest))).reverse ++ errors)
        (p.over (c :: cs)) rest rfl
      refine ⟨_, _, .piece hextra hcut, ?_⟩
      rw [follow]
      simp only [foldl_errors, hextra, follow_skip]
      rw [Position.over_cons] at hfollow
      cases hlexeme : (Piece.start c (cs ++ rest)).lexeme with
      | none => simpa [Piece.tokenAt, hlexeme] using hfollow
      | some l => simpa [Piece.tokenAt, hlexeme] using hfollow

theorem ofSource_cut (source : String) :
    Cut {} source.toList (ofSource source).tokens (ofSource source).errors := by
  obtain ⟨ts, es, hcut, hfollow⟩ := follow_cut [] [] {} source.toList
  rw [ofSource, hfollow]
  exact hcut

namespace Cut

variable {p : Position} {text : List Char} {tokens : List Token} {errors : List SyntaxError}

/-- Tokens stand at places of the text. -/
theorem token_place (h : Cut p text tokens errors) {t : Token} (ht : t ∈ tokens) :
    ∃ before after, text = before ++ after ∧ t.place = p.over before := by
  induction h with
  | ending p => exact ⟨[], [], rfl, by rw [List.mem_singleton.1 ht]; rfl⟩
  | @piece p c cs rest tokens errors hextra _ ih =>
    obtain hfirst | hlater := List.mem_append.1 ht
    · obtain ⟨l, _, rfl⟩ : ∃ l, (Piece.start c (cs ++ rest)).lexeme = some l ∧
          (⟨l, p.line, p.column⟩ : Token) = t := by
        simpa [Piece.tokenAt] using hfirst
      exact ⟨[], _, rfl, rfl⟩
    · obtain ⟨before, after, rfl, hplace⟩ := ih hlater
      exact ⟨c :: cs ++ before, after, by simp, by rw [hplace, Position.over_append]⟩

/-- Errors stand at places of the text. -/
theorem error_place (h : Cut p text tokens errors) {e : SyntaxError} (he : e ∈ errors) :
    ∃ before after, text = before ++ after ∧ e.place = p.over before := by
  induction h with
  | ending => cases he
  | @piece p c cs rest tokens errors hextra _ ih =>
    obtain hfirst | hlater := List.mem_append.1 he
    · obtain ⟨x, _, rfl⟩ := List.mem_map.1 hfirst
      exact ⟨_, _, (List.take_append_drop x.1 _).symm, rfl⟩
    · obtain ⟨before, after, rfl, hplace⟩ := ih hlater
      exact ⟨c :: cs ++ before, after, by simp, by rw [hplace, Position.over_append]⟩

/-- The last token is the end of the text, and no other token is. -/
theorem ending_last (h : Cut p text tokens errors) :
    ∃ init t, tokens = init ++ [t] ∧ t.lexeme.isEnding = true := by
  induction h with
  | ending p => exact ⟨[], _, rfl, rfl⟩
  | piece _ _ ih =>
    obtain ⟨init, t, rfl, ht⟩ := ih
    exact ⟨_, t, (List.append_assoc _ _ _).symm, ht⟩

end Cut

/-- Errors in order but for the last, which may be a string that is not closed, blamed before the
unknown escapes in it. -/
def AlmostSorted (errors : List SyntaxError) : Prop :=
  ∃ inner last, errors = inner ++ last ∧
    SyntaxError.InOrder inner ∧
    (last = [] ∨ ∃ e, last = [e] ∧ e.problem = .openString ∧
      ∀ a ∈ inner, ¬ a.place.NotAfter e.place → ∃ c, a.problem = .unknownEscape c)

/-- Errors that end with an unknown escape and, before it in the text, the start of the open string
in which it stands. -/
def EscapeInOpenString (errors : List SyntaxError) : Prop :=
  ∃ before escape start c, errors = before ++ [escape, start] ∧
    escape.problem = .unknownEscape c ∧ start.problem = .openString ∧
    ¬ escape.place.NotAfter start.place

theorem AlmostSorted.sorted_iff {errors : List SyntaxError} (h : AlmostSorted errors) :
    SyntaxError.InOrder errors ↔ ¬ EscapeInOpenString errors := by
  constructor
  · rintro hsorted ⟨before, escape, start, c, rfl, _, _, hbefore⟩
    exact hbefore (by simpa using (List.pairwise_append.1 hsorted).2.1)
  · intro hclosed
    obtain ⟨inner, last, rfl, hsorted, rfl | ⟨e, rfl, hopen, hescapes⟩⟩ := h
    · simpa using hsorted
    refine List.pairwise_append.2 ⟨hsorted, List.pairwise_singleton _ _, fun a ha b hb => ?_⟩
    obtain rfl := List.mem_singleton.1 hb
    obtain rfl | ⟨init, x, hlast⟩ := List.eq_nil_or_concat inner
    · cases ha
    rw [List.concat_eq_append] at hlast
    subst hlast
    -- the last of the others is not after the string, or it would be an escape in it
    have hx : x.place.NotAfter b.place := by
      by_contra hafter
      obtain ⟨c, hc⟩ := hescapes x (by simp) hafter
      exact hclosed ⟨init, x, b, c, by simp, hc, hopen, hafter⟩
    obtain hinit | hlast := List.mem_append.1 ha
    · exact ((List.pairwise_append.1 hsorted).2.2 a hinit x (by simp)).trans hx
    · rwa [List.mem_singleton.1 hlast]

/-- The errors of a text come in order, but for a last one, and none stands before the text. -/
theorem Cut.almostSorted {p : Position} {text : List Char} {tokens : List Token}
    {errors : List SyntaxError} (h : Cut p text tokens errors) :
    AlmostSorted errors ∧ ∀ e ∈ errors, p.NotAfter e.place := by
  induction h with
  | ending => exact ⟨⟨[], [], rfl, .nil, .inl rfl⟩, nofun⟩
  | @piece p c cs rest tokens errors hextra hcut ih =>
    obtain ⟨inner, last, horderly⟩ := Piece.start_orderly c (cs ++ rest)
    obtain ⟨hsorted, hlater⟩ := ih
    let blame : Nat × SyntaxProblem → SyntaxError := fun x =>
      ⟨x.2, (p.over ((c :: (cs ++ rest)).take x.1)).line,
        (p.over ((c :: (cs ++ rest)).take x.1)).column⟩
    have herrors : (Piece.start c (cs ++ rest)).errorsAt p (c :: (cs ++ rest)) =
        inner.map blame ++ last.map blame := by
      rw [Piece.errorsAt, horderly.problems, List.map_append]
    have hinner : SyntaxError.InOrder (inner.map blame) :=
      List.pairwise_map.2 (horderly.sorted.imp fun hab => Position.over_take_notAfter p _ hab)
    have hwithin : ∀ e ∈ inner.map blame, e.place.NotAfter (p.over (c :: cs)) := by
      intro e he
      obtain ⟨x, hx, rfl⟩ := List.mem_map.1 he
      have hle := horderly.within x hx
      rw [hextra] at hle
      have hplace := Position.over_take_notAfter p (c :: (cs ++ rest)) hle
      rwa [← List.length_cons (a := c), ← List.cons_append, List.take_left] at hplace
    refine ⟨?_, fun e he => ?_⟩
    · rw [herrors]
      obtain rfl | ⟨rfl, hroom, hescapes⟩ := horderly.open_string
      · -- a piece without an open string stands before all that follows
        obtain ⟨others, final, rfl, hothers, hfinal⟩ := hsorted
        refine ⟨inner.map blame ++ others, final, by simp, ?_, ?_⟩
        · refine List.pairwise_append.2 ⟨hinner, hothers, fun a ha b hb => ?_⟩
          exact (hwithin a ha).trans (hlater b (List.mem_append_left _ hb))
        · refine hfinal.imp_right ?_
          rintro ⟨e, rfl, hopen, hstrings⟩
          refine ⟨e, rfl, hopen, fun a ha hafter => ?_⟩
          obtain ha | ha := List.mem_append.1 ha
          · exact absurd ((hwithin a ha).trans (hlater e (by simp))) hafter
          · exact hstrings a ha hafter
      · -- an open string is all that is left of the text
        have hrest : rest = [] := by
          rw [hextra, List.length_append] at hroom
          exact List.eq_nil_of_length_eq_zero (by omega)
        subst hrest
        cases hcut
        refine ⟨inner.map blame, [blame (0, .openString)], by simp, hinner,
          .inr ⟨_, rfl, rfl, fun a ha _ => ?_⟩⟩
        obtain ⟨x, hx, rfl⟩ := List.mem_map.1 ha
        exact (hescapes x hx).2
    · obtain he | he := List.mem_append.1 he
      · obtain ⟨x, _, rfl⟩ := List.mem_map.1 he
        exact Position.notAfter_over p _
      · exact (Position.notAfter_over p _).trans (hlater e he)

end Scan

end Resumable
