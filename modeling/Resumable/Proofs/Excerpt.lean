import Mathlib.Data.List.Basic
import Resumable.Excerpt
import Resumable.Proofs.Expr.Faults

/-!
Excerpts around errors. The line of an error counts the line feeds before its place, and an excerpt counts
the lines of the text; the two agree on every place but two: after a line feed at the end of the
text there is no line any more, and between a carriage return and a line feed there is no character of a
line.
-/

namespace Resumable

namespace Text

/-- The lines of some characters. -/
def linesOf (cs : List Char) : List String :=
  linesFrom [] [] cs

/-- Lines that are all ended by line feeds. -/
inductive Ended : List Char → Prop
  | nil : Ended []
  | line {cs rest : List Char} : '\n' ∉ cs → Ended rest → Ended (cs ++ '\n' :: rest)

variable {cs earlier head tail rest : List Char}

theorem linesFrom_done (done : List String) (line cs : List Char) :
    linesFrom done line cs = done.reverse ++ linesFrom [] line cs := by
  induction cs generalizing done line with
  | nil => cases line <;> simp [linesFrom]
  | cons c cs ih =>
    rw [linesFrom, linesFrom]
    split
    · rw [ih (_ :: done), ih [_], List.reverse_cons, List.append_assoc, List.reverse_singleton]
    · exact ih done _

theorem linesFrom_line (hcs : '\n' ∉ cs) (line rest : List Char) :
    linesFrom [] line (cs ++ '\n' :: rest) =
      String.ofList (dropReturn (line.reverse ++ cs)) :: linesOf rest := by
  induction cs generalizing line with
  | nil =>
    rw [List.nil_append, linesFrom, if_pos rfl, linesFrom_done, List.append_nil]
    rfl
  | cons c cs ih =>
    obtain ⟨hc, hcs⟩ := List.ne_and_not_mem_of_not_mem_cons hcs
    rw [List.cons_append, linesFrom, if_neg (Ne.symm hc), ih hcs]
    simp

/-- A line feed ends a line, with a carriage return before it. -/
theorem linesOf_line (hcs : '\n' ∉ cs) (rest : List Char) :
    linesOf (cs ++ '\n' :: rest) = String.ofList (dropReturn cs) :: linesOf rest :=
  linesFrom_line hcs [] rest

theorem linesFrom_last (hcs : '\n' ∉ cs) (line : List Char) :
    linesFrom [] line cs =
      if line.reverse ++ cs = [] then [] else [String.ofList (line.reverse ++ cs)] := by
  induction cs generalizing line with
  | nil => cases line <;> simp [linesFrom]
  | cons c cs ih =>
    obtain ⟨hc, hcs⟩ := List.ne_and_not_mem_of_not_mem_cons hcs
    rw [linesFrom, if_neg (Ne.symm hc), ih hcs]
    simp

/-- What follows the last line feed is a line unless it is empty. -/
theorem linesOf_last (hcs : '\n' ∉ cs) :
    linesOf cs = if cs = [] then [] else [String.ofList cs] :=
  linesFrom_last hcs []

theorem linesOf_append (h : Ended earlier) (rest : List Char) :
    linesOf (earlier ++ rest) = linesOf earlier ++ linesOf rest := by
  induction h with
  | nil => rfl
  | @line cs more hcs _ ih =>
    rw [List.append_assoc, List.cons_append, linesOf_line hcs, linesOf_line hcs, ih, List.cons_append]

/-- Characters consist of ended lines and the beginning of another. -/
theorem exists_ended (cs : List Char) :
    ∃ earlier head, cs = earlier ++ head ∧ Ended earlier ∧ '\n' ∉ head := by
  induction cs with
  | nil => exact ⟨[], [], rfl, .nil, List.not_mem_nil⟩
  | cons c cs ih =>
    obtain ⟨earlier, head, rfl, hearlier, hhead⟩ := ih
    by_cases hc : c = '\n'
    · exact ⟨c :: earlier, head, rfl, hc ▸ @Ended.line [] _ List.not_mem_nil hearlier,
        hhead⟩
    · cases hearlier with
      | nil => exact ⟨[], c :: head, rfl, .nil, by simp [Ne.symm hc, hhead]⟩
      | @line line rest hline hrest =>
        exact ⟨(c :: line) ++ '\n' :: rest, head, rfl, .line (by simp [Ne.symm hc, hline]) hrest, hhead⟩

/-- Characters begin with the end of a line and go on after a line feed, if at all. -/
theorem exists_tail (cs : List Char) :
    ∃ tail later, cs = tail ++ later ∧ '\n' ∉ tail ∧ (later = [] ∨ ∃ rest, later = '\n' :: rest) := by
  induction cs with
  | nil => exact ⟨[], [], rfl, List.not_mem_nil, .inl rfl⟩
  | cons c cs ih =>
    obtain ⟨tail, later, rfl, htail, hlater⟩ := ih
    by_cases hc : c = '\n'
    · exact ⟨[], c :: (tail ++ later), rfl, List.not_mem_nil, .inr ⟨_, by rw [hc]⟩⟩
    · exact ⟨c :: tail, later, rfl, by simp [Ne.symm hc, htail], hlater⟩

theorem Ended.getLast (h : Ended earlier) (hne : earlier ≠ []) :
    ∃ init, earlier = init ++ ['\n'] := by
  induction h with
  | nil => exact absurd rfl hne
  | @line cs rest _ hrest ih =>
    by_cases hempty : rest = []
    · exact ⟨cs, by rw [hempty]⟩
    · obtain ⟨init, rfl⟩ := ih hempty
      exact ⟨cs ++ '\n' :: init, by simp⟩

theorem dropReturn_concat (cs : List Char) : dropReturn (cs ++ ['\r']) = cs := by
  simp [dropReturn]

theorem dropReturn_eq_self (h : ∀ init, cs ≠ init ++ ['\r']) : dropReturn cs = cs := by
  unfold dropReturn
  split
  next rest hrest =>
    rw [← List.reverse_reverse cs, hrest, List.reverse_cons] at h
    exact absurd rfl (h _)
  next => rfl

theorem padLeft_empty (width : Nat) : padLeft width "" = fill ' ' width := by
  simp [padLeft]

end Text

namespace Position

theorem over_of_no_feed {cs : List Char} (h : '\n' ∉ cs) (p : Position) :
    p.over cs = ⟨p.line, p.column + cs.length⟩ := by
  induction cs generalizing p with
  | nil => rfl
  | cons c cs ih =>
    obtain ⟨hc, hcs⟩ := List.ne_and_not_mem_of_not_mem_cons h
    rw [over_cons, ih hcs, after, if_neg (Ne.symm hc)]
    simp [Nat.add_assoc, Nat.add_comm 1]

theorem over_of_ended {cs : List Char} (h : Text.Ended cs) {p : Position} (hp : p.column = 1) :
    p.over cs = ⟨p.line + (Text.linesOf cs).length, 1⟩ := by
  induction h generalizing p with
  | nil =>
    obtain ⟨line, column⟩ := p
    cases hp
    rfl
  | @line cs rest hcs _ ih =>
    rw [over_append, over_cons, over_of_no_feed hcs, after, if_pos rfl, ih rfl, Text.linesOf_line hcs]
    simp [Nat.add_assoc, Nat.add_comm 1]

end Position

namespace Excerpt

open Text

/-- What stands before a line, or before the mark under it: a label on the right and a bar. -/
def gutter (width : Nat) (label : String) : String :=
  padLeft width label ++ " | "

/-- Lines with their numbers, from `first` on. -/
def numbered (width first : Nat) (lines : List String) : String :=
  String.join ((lines.zipIdx first).map fun (line, number) =>
    gutter width (toString number) ++ line ++ "\n")

/-- The rule above and below an excerpt. -/
def rule (width : Nat) : String :=
  fill '-' (width + 1) ++ "|--\n"

/-- A text shows a line of the source with its number, at most three of the lines before and after it
with theirs, and right under the line one mark. The mark is as far from the bar as the character of the
given column, and the bars are at the same place. -/
def Shows (source : String) (number column : Nat) (line text : String) : Prop :=
  ∃ width above before after below,
    lines source = above ++ before ++ line :: (after ++ below) ∧
    number = above.length + before.length + 1 ∧
    before.length = min margin (above.length + before.length) ∧
    after.length = min margin (after.length + below.length) ∧
    (gutter width (toString number)).length = (gutter width "").length ∧
    text = rule width ++ numbered width (above.length + 1) before ++
      (gutter width (toString number) ++ line ++ "\n") ++
      (gutter width "" ++ fill ' ' (column - 1) ++ "^\n") ++
      numbered width (number + 1) after ++ rule width

theorem toString_length_mono {m n : Nat} (h : m ≤ n) : (toString m).length ≤ (toString n).length := by
  have hlength : ∀ k : Nat, (toString k).length = (Nat.toDigits 10 k).length := fun k => by
    rw [Nat.toString_eq_repr, Nat.repr, String.length_ofList]
  have hpos : 0 < (Nat.toDigits 10 n).length := Nat.length_toDigits_pos
  rw [hlength, hlength]
  refine (Nat.length_toDigits_le_iff (by omega) hpos).2 ?_
  exact Nat.lt_of_le_of_lt h ((Nat.length_toDigits_le_iff (by omega) hpos).1 (Nat.le_refl _))

theorem gutter_length {width : Nat} {label : String} (h : label.length ≤ width) :
    (gutter width label).length = (gutter width "").length := by
  simp only [gutter, padLeft, fill, String.length_append, String.length_ofList,
    List.length_replicate, String.length_empty]
  omega

/-- A row without a mark is a numbered line. -/
theorem map_row (width first : Nat) (mark : Nat → Option Nat) (shown : List String)
    (h : ∀ number, first ≤ number → number < first + shown.length → mark number = none) :
    String.join ((shown.zipIdx first).map fun (text, number) =>
      row width number (mark number) text) = numbered width first shown := by
  refine congrArg String.join (List.map_congr_left fun x hx => ?_)
  obtain ⟨hlow, hhigh, _⟩ := List.mem_zipIdx hx
  simp only [h x.2 hlow hhigh, row]
  rfl

section Around

variable {source line : String} {above before after below : List String}

/-- The excerpt around a line that the text has. -/
theorem around_shows (hlines : lines source = above ++ before ++ line :: (after ++ below))
    (hbefore : before.length = min margin (above.length + before.length))
    (hafter : after.length = min margin (after.length + below.length)) (column : Nat) :
    Shows source (above.length + before.length + 1) column line
      (around source (above.length + before.length + 1) (some column)) := by
  have hlength : (lines source).length =
      above.length + before.length + 1 + (after.length + below.length) := by
    rw [hlines]
    simp only [List.length_append, List.length_cons]
    omega
  have hmargin : margin = 3 := rfl
  generalize hnumber : above.length + before.length + 1 = number at *
  have hfirst : max (number - margin) 1 = above.length + 1 := by omega
  have hlast : min (number + margin) (lines source).length = number + after.length := by omega
  have hshown : ((lines source).drop (above.length + 1 - 1)).take
      (number + after.length + 1 - (above.length + 1)) = before ++ (line :: after) := by
    have hcount : number + after.length + 1 - (above.length + 1) =
        (before ++ (line :: after)).length := by
      simp only [List.length_append, List.length_cons]
      omega
    have hsplit : above ++ before ++ line :: (after ++ below) =
        above ++ ((before ++ (line :: after)) ++ below) := by simp
    rw [Nat.add_sub_cancel, hlines, hsplit, List.drop_left, hcount, List.take_left]
  have hthere : ¬ (number = 0 ∨ (lines source).length < number) := by omega
  refine ⟨(toString (number + after.length)).length, above, before, after, below, hlines, hnumber.symm,
    hbefore, hafter, gutter_length (toString_length_mono (Nat.le_add_right _ _)), ?_⟩
  unfold around
  simp only [hthere, if_false, hfirst, hlast, hshown]
  have hrows : ∀ width, String.join (((before ++ line :: after).zipIdx (above.length + 1)).map
      fun (text, k) => row width k (if k = number then some column else none) text) =
      numbered width (above.length + 1) before ++
        (gutter width (toString number) ++ line ++ "\n" ++
          (gutter width "" ++ fill ' ' (column - 1) ++ "^\n")) ++
        numbered width (number + 1) after := by
    intro width
    have hnext : above.length + 1 + before.length = number := by omega
    rw [List.zipIdx_append, List.zipIdx_cons, hnext, List.map_append, List.map_cons,
      String.join_append, String.join_cons,
      map_row width _ (fun k => if k = number then some column else none) before
        fun k _ hk => if_neg (by omega),
      map_row width _ (fun k => if k = number then some column else none) after
        fun k hk _ => if_neg (by omega)]
    simp [row, gutter, padLeft_empty, String.append_assoc]
  rw [hrows]
  simp only [rule, String.append_assoc]

/-- There is no excerpt for a line that the text does not have. -/
theorem around_empty {number : Nat} (h : (lines source).length < number) (column : Option Nat) :
    around source number column = "" := by
  simp [around, h]

theorem Shows.ne_empty {number column : Nat} {text : String}
    (h : Shows source number column line text) : text ≠ "" := by
  obtain ⟨width, _, _, _, _, _, _, _, _, _, rfl⟩ := h
  intro hempty
  have hlength := congrArg String.length hempty
  simp only [String.length_append, rule, fill, String.length_ofList, List.length_replicate,
    String.length_empty] at hlength
  omega

/-- The lines around one: at most three next to it on each side, and the others. -/
theorem exists_margins (earlier later : List String) :
    ∃ above before after below, earlier = above ++ before ∧ later = after ++ below ∧
      before.length = min margin (above.length + before.length) ∧
      after.length = min margin (after.length + below.length) := by
  refine ⟨earlier.take (earlier.length - margin), earlier.drop (earlier.length - margin),
    later.take margin, later.drop margin, (List.take_append_drop _ _).symm,
    (List.take_append_drop _ _).symm, ?_, ?_⟩
  · simp only [List.length_take, List.length_drop]
    omega
  · simp only [List.length_take, List.length_drop]
    omega

end Around

/-- A place after a line feed at the end of a text, or in an empty text: no line begins there. -/
def PastLines (before after : List Char) : Prop :=
  after = [] ∧ (before = [] ∨ ∃ init, before = init ++ ['\n'])

/-- A place between a carriage return and a line feed. -/
def WithinLineEnd (before after : List Char) : Prop :=
  (∃ init, before = init ++ ['\r']) ∧ ∃ rest, after = '\n' :: rest

section Places

variable {earlier head tail rest : List Char}

theorem pastLines_iff (hearlier : Ended earlier) (hhead : '\n' ∉ head) (after : List Char) :
    PastLines (earlier ++ head) after ↔ head = [] ∧ after = [] := by
  constructor
  · rintro ⟨rfl, hend⟩
    refine ⟨?_, rfl⟩
    obtain hnone | ⟨init, hend⟩ := hend
    · exact (List.append_eq_nil_iff.1 hnone).2
    · by_contra hne
      have hlast := congrArg List.getLast? hend
      rw [List.getLast?_append_of_ne_nil _ hne, List.getLast?_concat] at hlast
      exact hhead (List.mem_of_getLast? hlast)
  · rintro ⟨rfl, rfl⟩
    refine ⟨rfl, ?_⟩
    rw [List.append_nil]
    by_cases hempty : earlier = []
    · exact .inl hempty
    · exact .inr (hearlier.getLast hempty)

theorem withinLineEnd_iff (hearlier : Ended earlier) (htail : '\n' ∉ tail) (rest : List Char) :
    WithinLineEnd (earlier ++ head) (tail ++ '\n' :: rest) ↔
      tail = [] ∧ ∃ init, head = init ++ ['\r'] := by
  constructor
  · rintro ⟨⟨init, hreturn⟩, more, hfeed⟩
    have hlast := congrArg List.getLast? hreturn
    rw [List.getLast?_concat] at hlast
    constructor
    · cases tail with
      | nil => rfl
      | cons c tail =>
        cases (List.cons.inj hfeed).1
        exact absurd List.mem_cons_self htail
    · by_cases hempty : head = []
      · -- an ended line does not end with a carriage return
        rw [hempty, List.append_nil] at hreturn hlast
        obtain ⟨front, rfl⟩ := hearlier.getLast (by rw [hreturn]; simp)
        rw [List.getLast?_concat] at hlast
        cases hlast
      · rw [List.getLast?_append_of_ne_nil _ hempty] at hlast
        exact ⟨head.dropLast, (List.dropLast_append_getLast? _ hlast).symm⟩
  · rintro ⟨rfl, init, rfl⟩
    exact ⟨⟨earlier ++ init, by simp⟩, rest, rfl⟩

/-- The column after `head` is one of the line, or the one right after it, unless the line was cut before
the end of `head`. -/
theorem column_le_iff (htail : '\n' ∉ tail) (hearlier : Ended earlier) (rest : List Char) :
    1 + head.length ≤ (String.ofList (dropReturn (head ++ tail))).length + 1 ↔
      ¬ WithinLineEnd (earlier ++ head) (tail ++ '\n' :: rest) := by
  rw [withinLineEnd_iff hearlier htail, String.length_ofList]
  by_cases hreturn : ∃ init, head ++ tail = init ++ ['\r']
  · obtain ⟨init, hinit⟩ := hreturn
    have hlength := congrArg List.length hinit
    simp only [List.length_append, List.length_singleton] at hlength
    rw [hinit, dropReturn_concat]
    cases tail with
    | nil =>
      rw [List.append_nil] at hinit
      refine iff_of_false (by simp only [List.length_nil] at hlength; omega) fun h => ?_
      exact h ⟨rfl, init, hinit⟩
    | cons c tail =>
      refine iff_of_true (by simp only [List.length_cons] at hlength; omega) fun h => ?_
      cases h.1
  · rw [dropReturn_eq_self fun init hinit => hreturn ⟨init, hinit⟩, List.length_append]
    refine iff_of_true (by omega) ?_
    rintro ⟨rfl, init, rfl⟩
    exact hreturn ⟨init, List.append_nil _⟩

end Places

/-- What the excerpt around a place of a text is. It shows the line with the place, unless no line begins
there; and the mark is under a character of the line or right after them all, unless the place is
within the end of the line. -/
theorem around_place {source : String} {before after : List Char}
    (hsource : source.toList = before ++ after) {p : Position} (hp : p = Position.over {} before) :
    (PastLines before after → around source p.line (some p.column) = "") ∧
    (¬ PastLines before after → ∃ line,
      Shows source p.line p.column line (around source p.line (some p.column)) ∧
      1 ≤ p.column ∧ (p.column ≤ line.length + 1 ↔ ¬ WithinLineEnd before after)) := by
  obtain ⟨earlier, head, rfl, hearlier, hhead⟩ := exists_ended before
  obtain ⟨tail, later, rfl, htail, hlater⟩ := exists_tail after
  have hplace : p = ⟨1 + (linesOf earlier).length, 1 + head.length⟩ := by
    rw [hp, Position.over_append, Position.over_of_ended hearlier rfl,
      Position.over_of_no_feed hhead]
  have hno : '\n' ∉ head ++ tail := by simp [hhead, htail]
  have hlines : lines source = linesOf earlier ++ linesOf (head ++ (tail ++ later)) := by
    rw [lines, hsource, List.append_assoc]
    exact linesOf_append hearlier _
  -- a line that begins there is shown
  have hshows : ∀ line others, linesOf (head ++ (tail ++ later)) = line :: others →
      Shows source p.line p.column line (around source p.line (some p.column)) := by
    intro line others hline
    obtain ⟨above, before, after, below, habove, rfl, hbefore, hafter⟩ :=
      exists_margins (linesOf earlier) others
    rw [hline, habove] at hlines
    have hnumber : p.line = above.length + before.length + 1 := by
      rw [hplace, habove, List.length_append, Nat.add_comm]
    rw [hnumber]
    exact around_shows hlines hbefore hafter p.column
  have hcolumn : p.column = 1 + head.length := by rw [hplace]
  rw [pastLines_iff hearlier hhead]
  obtain rfl | ⟨rest, rfl⟩ := hlater
  · rw [List.append_nil] at *
    have hlast := linesOf_last hno
    constructor
    · rintro ⟨rfl, rfl⟩
      refine around_empty ?_ _
      rw [hlines, hplace, List.length_append]
      exact Nat.lt_add_of_pos_left Nat.one_pos
    · intro hthere
      rw [if_neg fun h => hthere (List.append_eq_nil_iff.1 h)] at hlast
      refine ⟨_, hshows _ _ hlast, by omega, iff_of_true ?_ ?_⟩
      · rw [hcolumn, String.length_ofList, List.length_append]
        omega
      · rintro ⟨_, rest, rfl⟩
        exact htail List.mem_cons_self
  · have hfirst := linesOf_line hno rest
    rw [List.append_assoc] at hfirst
    refine ⟨fun h => ?_, fun _ => ⟨_, hshows _ _ hfirst, by omega, ?_⟩⟩
    · exact absurd h.2 (by simp)
    · rw [hcolumn]
      exact column_le_iff htail hearlier rest

end Excerpt

namespace Program

/-- Where the errors of a text are shown. Every error stands at a place of the text, and the excerpt around
it shows its line, numbered, with at most three lines around it and one mark right under it. The mark is
under the character at the place, or right after the last of the line; but there is no excerpt
where the place is after the last line feed of the text, at its end, and the mark is too far
right where the place is between a carriage return and a line feed. -/
theorem errors_shown {source : String} {errors : List SyntaxError}
    (h : ofSource source = .error (.malformed errors)) {e : SyntaxError} (he : e ∈ errors) :
    ∃ before after, source.toList = before ++ after ∧ e.place = Position.over {} before ∧
      (Excerpt.around source e.line (some e.column) = "" ↔ Excerpt.PastLines before after) ∧
      (¬ Excerpt.PastLines before after → ∃ line,
        Excerpt.Shows source e.line e.column line (Excerpt.around source e.line (some e.column)) ∧
        1 ≤ e.column ∧
        (e.column ≤ line.length + 1 ↔ ¬ Excerpt.WithinLineEnd before after)) := by
  obtain ⟨before, after, hsource, hplace⟩ := error_place h he
  obtain ⟨hpast, hthere⟩ := Excerpt.around_place hsource hplace
  refine ⟨before, after, hsource, hplace, ⟨fun hempty => ?_, hpast⟩, hthere⟩
  by_contra hline
  obtain ⟨line, hshows, _⟩ := hthere hline
  exact hshows.ne_empty hempty

/-- A text that ends with a line feed where an operand is missing: the error stands after the last line,
and nothing is shown. -/
theorem errors_shown_after_last_line :
    ofSource "1 +\n" = .error (.malformed [⟨.expected "expression" "end of input", 2, 1⟩]) ∧
      ∃ before after, "1 +\n".toList = before ++ after ∧ Excerpt.PastLines before after ∧
        Excerpt.around "1 +\n" 2 (some 1) = "" := by
  have hread : ofTokens (Scan.ofSource "1 +\n").tokens =
      .faulty [⟨.expected "expression" "end of input", 2, 1⟩] := rfl
  have hscan : (Scan.ofSource "1 +\n").errors = [] := rfl
  have hfails : ofSource "1 +\n" = .error (.malformed
      [⟨.expected "expression" "end of input", 2, 1⟩]) := by
    simp [ofSource, hread, hscan]
  have hnothing : Excerpt.around "1 +\n" 2 (some 1) = "" := rfl
  obtain ⟨before, after, hsource, _, hempty, _⟩ := errors_shown hfails List.mem_cons_self
  exact ⟨hfails, before, after, hsource, hempty.1 hnothing, hnothing⟩

end Program

end Resumable
