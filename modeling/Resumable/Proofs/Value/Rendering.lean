import Mathlib.Data.List.Basic
import Resumable.Value.Render

/-!
The text of a value is that of its unfolding, in which every cell is replaced by its content and so
on: each occurrence of a value is written by its form, except where the text stops because of what
stands around it. Writing leaves the state of what is in progress as it was.
-/

namespace Resumable

namespace Rendering

@[simp] theorem deeper_depth (r : Rendering) : r.deeper.depth = r.depth + 1 :=
  rfl

@[simp] theorem deeper_cells (r : Rendering) : r.deeper.cells = r.cells :=
  rfl

@[simp] theorem deeper_higher (r : Rendering) : r.deeper.higher = r :=
  rfl

@[simp] theorem begin_depth (r : Rendering) (cell : Nat) : (r.begin cell).depth = r.depth :=
  rfl

@[simp] theorem begin_cells (r : Rendering) (cell : Nat) : (r.begin cell).cells = cell :: r.cells :=
  rfl

@[simp] theorem begin_finish (r : Rendering) (cell : Nat) : (r.begin cell).finish = r :=
  rfl

end Rendering

namespace Value

/-- Texts, which are not cut off. -/
def isText : Value → Bool
  | str _ => true
  | _ => false

/-- Values whose text shows no other value. -/
def standsAlone : Value → Bool
  | list _ | tuple _ | record _ | applied _ _ _ | cell _ | str _ => false
  | _ => true

/-- The values directly inside a container or a cell. -/
def inside (cells : Array Value) : Value → Option (List Value)
  | list items | tuple items => some items
  | record fields => some (fields.map Prod.snd)
  | cell id => some [cells[id]?.getD none]
  | _ => Option.none

/-- The text of a container or a cell around the texts of what is directly inside. -/
def enclose : Value → List String → String
  | list _, texts => "[" ++ commas texts ++ "]"
  | tuple _, texts => "(" ++ commas texts ++ (if texts.length = 1 then ",)" else ")")
  | record fields, texts =>
    "\x7b" ++ commas (List.zipWith (fun f text => f.1.name ++ ": " ++ text) fields texts) ++ "\x7d"
  | cell _, texts => "<cell " ++ commas texts ++ ">"
  | _, _ => ""

/-- The cells among the values around an occurrence. -/
def cellsAmong (around : List Value) : List Nat :=
  around.filterMap fun
    | cell id => some id
    | _ => Option.none

/-- What stands in place of some occurrences of values, given the containers and cells around the
occurrence, the innermost first. -/
abbrev Stops := List Value → Value → Option String

/-- A cell stops inside itself. -/
def stopCyclic : Stops := fun around v =>
  match v with
  | cell id => if id ∈ cellsAmong around then some "<cell ...>" else Option.none
  | _ => Option.none

/-- A value other than a text stops inside more than `maxNesting` containers and cells, and else a
cell stops inside itself. -/
def stop : Stops := fun around v =>
  if maxNesting < around.length ∧ v.isText = false then some "..." else stopCyclic around v

/-- Nothing stops. -/
def never : Stops := fun _ _ => Option.none

/-- The text of an occurrence of a value in an unfolding with the given stops. The flag tells whether
texts are quoted, as they are directly inside containers and cells. -/
inductive Shown (cells : Array Value) (stops : Stops) :
    Bool → List Value → Value → String → Prop
  | stopped {quoted : Bool} {around : List Value} {v : Value} {text : String}
    (hstop : stops around v = some text) : Shown cells stops quoted around v text
  | bare {around : List Value} {s : String} (hstop : stops around (str s) = Option.none) :
    Shown cells stops false around (str s) s
  | quoted {around : List Value} {s : String} (hstop : stops around (str s) = Option.none) :
    Shown cells stops true around (str s) (Text.quote s)
  | flat {quoted : Bool} {around : List Value} {v : Value} (hstop : stops around v = Option.none)
    (halone : v.standsAlone = true) : Shown cells stops quoted around v v.flatText
  | enclosed {quoted : Bool} {around items : List Value} {v : Value} {texts : List String}
    (hstop : stops around v = Option.none) (hinside : v.inside cells = some items)
    (hlength : texts.length = items.length)
    (hitems : ∀ p ∈ items.zip texts, Shown cells stops true (v :: around) p.1 p.2) :
    Shown cells stops quoted around v (v.enclose texts)
  | applied {quoted : Bool} {around bound : List Value} {callee : Value} {id : Nat} {text : String}
    (hstop : stops around (applied id callee bound) = Option.none)
    (hcallee : Shown cells stops false around callee text) :
    Shown cells stops quoted around (applied id callee bound)
      ("<partial " ++ text ++ " +" ++ toString bound.length ++ ">")

/-- The occurrences of values in the unfolding of a value, with the containers and cells around
them. -/
inductive Occurs (cells : Array Value) (v : Value) : List Value → Value → Prop
  | top : Occurs cells v [] v
  | inside {around items : List Value} {w x : Value} (hw : Occurs cells v around w)
    (hinside : w.inside cells = some items) (hx : x ∈ items) : Occurs cells v (w :: around) x
  | callee {around bound : List Value} {callee : Value} {id : Nat}
    (hw : Occurs cells v around (applied id callee bound)) : Occurs cells v around callee

/-- Nothing stops at an occurrence of a value or inside it. -/
def Unstopped (cells : Array Value) (stops : Stops) (around : List Value) (v : Value) : Prop :=
  ∀ below x, Occurs cells v below x → stops (below ++ around) x = Option.none

section Shown

variable {cells : Array Value} {stops : Stops} {quoted : Bool} {around : List Value} {v : Value}
  {text text' : String}

theorem Shown.of_not_text (htext : v.isText = false) (hv : Shown cells stops quoted around v text)
    (quoted' : Bool) : Shown cells stops quoted' around v text := by
  cases hv with
  | stopped hstop => exact .stopped hstop
  | bare => cases htext
  | quoted => cases htext
  | flat hstop halone => exact .flat hstop halone
  | enclosed hstop hinside hlength hitems => exact .enclosed hstop hinside hlength hitems
  | applied hstop hcallee => exact .applied hstop hcallee

theorem standsAlone_of_inside {items : List Value} (hinside : v.inside cells = some items) :
    v.standsAlone = false := by
  cases v <;> first | rfl | cases hinside

theorem Shown.enclosed_inv {items : List Value} (hv : Shown cells stops quoted around v text)
    (hstop : stops around v = Option.none) (hinside : v.inside cells = some items) :
    ∃ texts, texts.length = items.length ∧
      (∀ p ∈ items.zip texts, Shown cells stops true (v :: around) p.1 p.2) ∧
        text = v.enclose texts := by
  cases hv with
  | stopped hstop' => cases hstop.symm.trans hstop'
  | bare => cases hinside
  | quoted => cases hinside
  | flat _ halone => cases halone.symm.trans (standsAlone_of_inside hinside)
  | enclosed _ hinside' hlength hitems =>
    obtain rfl := Option.some.inj (hinside.symm.trans hinside')
    exact ⟨_, hlength, hitems, rfl⟩
  | applied => cases hinside

/-- An occurrence has one text. -/
theorem Shown.unique (hv : Shown cells stops quoted around v text)
    (hv' : Shown cells stops quoted around v text') : text = text' := by
  induction hv generalizing text' with
  | stopped hstop =>
    cases hv' with
    | stopped hstop' => exact Option.some.inj (hstop.symm.trans hstop')
    | bare hstop' | quoted hstop' | flat hstop' | enclosed hstop' | applied hstop' =>
      cases hstop.symm.trans hstop'
  | bare hstop =>
    cases hv' with
    | stopped hstop' => cases hstop.symm.trans hstop'
    | bare => rfl
    | flat _ halone => cases halone
    | enclosed _ hinside => cases hinside
  | quoted hstop =>
    cases hv' with
    | stopped hstop' => cases hstop.symm.trans hstop'
    | quoted => rfl
    | flat _ halone => cases halone
    | enclosed _ hinside => cases hinside
  | flat hstop halone =>
    cases hv' with
    | stopped hstop' => cases hstop.symm.trans hstop'
    | bare => cases halone
    | quoted => cases halone
    | flat => rfl
    | enclosed _ hinside => cases halone.symm.trans (standsAlone_of_inside hinside)
    | applied => cases halone
  | @enclosed _ _ items v texts hstop hinside hlength _ ih =>
    obtain ⟨texts', hlength', hitems', rfl⟩ := hv'.enclosed_inv hstop hinside
    -- The texts of the items agree one by one.
    have htexts : texts = texts' := by
      refine List.ext_getElem (hlength.trans hlength'.symm) fun i hi hi' => ?_
      have hitem : i < items.length := hlength ▸ hi
      have hmem : (items[i], texts[i]) ∈ items.zip texts :=
        List.mem_iff_getElem.mpr ⟨i, by rw [List.length_zip]; omega, List.getElem_zip⟩
      have hmem' : (items[i], texts'[i]) ∈ items.zip texts' :=
        List.mem_iff_getElem.mpr ⟨i, by rw [List.length_zip]; omega, List.getElem_zip⟩
      exact ih _ hmem (hitems' _ hmem')
    rw [htexts]
  | applied hstop _ ih =>
    cases hv' with
    | stopped hstop' => cases hstop.symm.trans hstop'
    | flat _ halone => cases halone
    | enclosed _ hinside => cases hinside
    | applied _ hcallee' => rw [ih hcallee']

end Shown

section Occurs

variable {cells : Array Value} {stops : Stops} {quoted : Bool} {around items bound : List Value}
  {v w x base : Value} {id : Nat} {text : String}

theorem Occurs.trans {outer inner : List Value} (hw : Occurs cells v outer w)
    (hx : Occurs cells w inner x) : Occurs cells v (inner ++ outer) x := by
  induction hx with
  | top => exact hw
  | inside _ hinside hmem ih => exact .inside ih hinside hmem
  | callee _ ih => exact .callee ih

namespace Unstopped

theorem top (hv : Unstopped cells stops around v) : stops around v = Option.none :=
  hv [] v .top

theorem inside (hv : Unstopped cells stops around v) (hinside : v.inside cells = some items)
    (hx : x ∈ items) : Unstopped cells stops (v :: around) x := by
  intro below y hy
  have hoccurs := (Occurs.inside .top hinside hx).trans hy
  simpa only [List.append_assoc, List.singleton_append] using hv _ y hoccurs

theorem callee (hv : Unstopped cells stops around (applied id base bound)) :
    Unstopped cells stops around base := by
  intro below y hy
  have hoccurs : Occurs cells (applied id base bound) (below ++ []) y :=
    (Occurs.callee .top).trans hy
  simpa only [List.append_nil] using hv _ y hoccurs

end Unstopped

/-- Where nothing stops, the text does not depend on what stands around. -/
theorem Shown.plain (hv : Shown cells stops quoted around v text)
    (hunstopped : Unstopped cells stops around v) (around' : List Value) :
    Shown cells never quoted around' v text := by
  induction hv generalizing around' with
  | stopped hstop => cases hstop.symm.trans hunstopped.top
  | bare => exact .bare rfl
  | quoted => exact .quoted rfl
  | flat _ halone => exact .flat rfl halone
  | enclosed _ hinside hlength _ ih =>
    refine .enclosed rfl hinside hlength fun p hp => ?_
    exact ih p hp (hunstopped.inside hinside (List.of_mem_zip hp).1) _
  | applied _ _ ih => exact .applied rfl (ih hunstopped.callee _)

theorem Shown.of_plain (hv : Shown cells never quoted around v text) {around' : List Value}
    (hunstopped : Unstopped cells stops around' v) : Shown cells stops quoted around' v text := by
  induction hv generalizing around' with
  | stopped hstop => cases hstop
  | bare => exact .bare hunstopped.top
  | quoted => exact .quoted hunstopped.top
  | flat _ halone => exact .flat hunstopped.top halone
  | enclosed _ hinside hlength _ ih =>
    refine .enclosed hunstopped.top hinside hlength fun p hp => ?_
    exact ih p hp (hunstopped.inside hinside (List.of_mem_zip hp).1)
  | applied _ _ ih => exact .applied hunstopped.top (ih hunstopped.callee)

end Occurs

/-- Writing that leaves the state as it finds it. -/
def Restores {α : Type} (written : StateM Rendering α) : Prop :=
  ∀ r, (written.run r).2 = r

section Restores

variable {α β : Type} {cells : Array Value} {nested : Value → StateM Rendering String}

theorem run_bind (first : StateM Rendering α) (next : α → StateM Rendering β) (r : Rendering) :
    (first >>= next).run r = (next (first.run r).1).run (first.run r).2 :=
  rfl

theorem Restores.pure (a : α) : Restores (pure a) :=
  fun _ => rfl

theorem Restores.bind {first : StateM Rendering α} {next : α → StateM Rendering β}
    (hfirst : Restores first) (hnext : ∀ a, Restores (next a)) : Restores (first >>= next) := by
  intro r
  rw [run_bind, hnext _, hfirst r]

/-- What is written one after another is what is written alone. -/
theorem mapM_run {f : α → StateM Rendering β} (hf : ∀ x, Restores (f x)) (xs : List α)
    (r : Rendering) : (xs.mapM f).run r = (xs.map fun x => ((f x).run r).1, r) := by
  induction xs with
  | nil => rfl
  | cons x xs ih =>
    rw [List.mapM_cons, run_bind, run_bind, hf x r, ih]
    rfl

theorem Restores.mapM {f : α → StateM Rendering β} (hf : ∀ x, Restores (f x)) (xs : List α) :
    Restores (xs.mapM f) := by
  intro r
  rw [mapM_run hf]

theorem run_ite (c : Prop) [Decidable c] (first second : StateM Rendering α) (r : Rendering) :
    (if c then first else second).run r = if c then first.run r else second.run r := by
  split <;> rfl

theorem writeShallow_run (display : Value → StateM Rendering String) (v : Value) (r : Rendering) :
    (writeShallow display v).run r =
      if maxNesting < r.depth then ("...", r) else (display v).run r :=
  run_ite (maxNesting < r.depth) (pure "...") (display v) r

/-- A value inside a container is written one level deeper, if that is not too deep. -/
theorem writeNested_run {display : Value → StateM Rendering String}
    (hdisplay : ∀ v, Restores (display v)) {v : Value} (htext : v.isText = false) (r : Rendering) :
    (writeNested display v).run r =
      (if maxNesting < r.deeper.depth then "..." else ((display v).run r.deeper).1, r) := by
  have hwritten : (writeNested display v).run r =
      (((writeShallow display v).run r.deeper).1, ((writeShallow display v).run r.deeper).2.higher) := by
    cases v <;> first | rfl | cases htext
  rw [hwritten, writeShallow_run]
  split
  · rw [Rendering.deeper_higher]
  · rw [hdisplay v, Rendering.deeper_higher]

theorem writeNested_restores {display : Value → StateM Rendering String}
    (hdisplay : ∀ v, Restores (display v)) (v : Value) : Restores (writeNested display v) := by
  intro r
  cases htext : v.isText with
  | true => cases v <;> first | rfl | cases htext
  | false => rw [writeNested_run hdisplay htext]

/-- A cell is in progress while its content is written. -/
theorem writeCell_run (hnested : ∀ v, Restores (nested v)) (id : Nat) (content : Value)
    (r : Rendering) :
    (writeCell nested id content).run r =
      (if id ∈ r.cells then "<cell ...>"
        else "<cell " ++ ((nested content).run (r.begin id)).1 ++ ">", r) := by
  have hwritten : (writeCell nested id content).run r =
      if r.cells.contains id then ("<cell ...>", r)
      else ("<cell " ++ ((nested content).run (r.begin id)).1 ++ ">",
        ((nested content).run (r.begin id)).2.finish) :=
    run_ite (r.cells.contains id = true) _ _ r
  rw [hwritten]
  simp only [List.contains_iff_mem]
  split
  · rfl
  · rw [hnested content, Rendering.begin_finish]

theorem writeWith_restores (hnested : ∀ v, Restores (nested v)) (v : Value) :
    Restores (writeWith cells nested v) := by
  induction v using writeWith.induct with
  | case1 items => exact (Restores.mapM hnested items).bind fun _ => .pure _
  | case2 items => exact (Restores.mapM hnested items).bind fun _ => .pure _
  | case3 fields =>
    exact (Restores.mapM (fun f => (hnested f.2).bind fun _ => .pure _) fields).bind fun _ => .pure _
  | case4 id callee bound ih => exact ih.bind fun _ => .pure _
  | case5 id =>
    intro r
    rw [writeWith, writeCell_run hnested]
  | case6 v hlist htuple hrecord happlied hcell =>
    cases v with
    | list items => exact (hlist items rfl).elim
    | tuple items => exact (htuple items rfl).elim
    | record fields => exact (hrecord fields rfl).elim
    | applied id callee bound => exact (happlied id callee bound rfl).elim
    | cell id => exact (hcell id rfl).elim
    | _ => exact .pure _

theorem writeWithin_restores (room : Nat) (v : Value) : Restores (writeWithin cells room v) := by
  induction room generalizing v with
  | zero => exact writeWith_restores (writeNested_restores fun _ => .pure _) v
  | succ room ih => exact writeWith_restores (writeNested_restores ih) v

theorem write_restores (v : Value) : Restores (write cells v) :=
  writeWithin_restores maxNesting v

end Restores

/-- The state in which an occurrence with the given containers and cells around it is written. -/
structure Standing (around : List Value) (r : Rendering) : Prop where
  depth : r.depth = around.length
  cells : r.cells = cellsAmong around

section Text

variable {cells : Array Value} {around : List Value} {r : Rendering}
  {nested display : Value → StateM Rendering String}

theorem stop_of_deep (hdeep : maxNesting < around.length) {v : Value} (htext : v.isText = false) :
    stop around v = some "..." :=
  if_pos ⟨hdeep, htext⟩

theorem stop_of_shallow (hshallow : around.length ≤ maxNesting) (v : Value) :
    stop around v = stopCyclic around v :=
  if_neg fun h => absurd h.1 (Nat.not_lt.mpr hshallow)

theorem stop_str (s : String) : stop around (str s) = Option.none :=
  if_neg fun h => Bool.noConfusion h.2

theorem mem_zip_map {α β : Type} {f : α → β} {xs : List α} {p : α × β}
    (hp : p ∈ xs.zip (xs.map f)) : p.2 = f p.1 := by
  induction xs with
  | nil => cases hp
  | cons x xs ih =>
    rw [List.map_cons, List.zip_cons_cons, List.mem_cons] at hp
    obtain rfl | hp := hp
    · rfl
    · exact ih hp

/-- What is directly inside `w` is written in a state one level deeper. -/
theorem writeNested_shown (hrestores : ∀ v, Restores (display v)) {w : Value}
    (hdisplay : (w :: around).length ≤ maxNesting → ∀ v r, Standing (w :: around) r →
      Shown cells stop false (w :: around) v ((display v).run r).1)
    (hdepth : r.depth = around.length) (hcells : r.cells = cellsAmong (w :: around)) (v : Value) :
    Shown cells stop true (w :: around) v ((writeNested display v).run r).1 := by
  have hdeeper : Standing (w :: around) r.deeper := ⟨by simp [hdepth], hcells⟩
  cases htext : v.isText with
  | true =>
    cases v with
    | str s => exact .quoted (stop_str s)
    | _ => cases htext
  | false =>
    rw [writeNested_run hrestores htext, hdeeper.depth]
    split
    · exact .stopped (stop_of_deep ‹_› htext)
    · exact (hdisplay (Nat.le_of_not_lt ‹_›) v _ hdeeper).of_not_text htext true

/-- A value is written by its form around what is directly inside. -/
theorem writeWith_shown (hrestores : ∀ v, Restores (nested v))
    (hnested : ∀ w r, r.depth = around.length → r.cells = cellsAmong (w :: around) →
      ∀ v, Shown cells stop true (w :: around) v ((nested v).run r).1)
    (hshallow : around.length ≤ maxNesting) (hr : Standing around r) (v : Value) :
    Shown cells stop false around v ((writeWith cells nested v).run r).1 := by
  have hstop := stop_of_shallow hshallow
  -- The texts of items that are written one after another.
  have hitems : ∀ (w : Value) (items : List Value), cellsAmong (w :: around) = cellsAmong around →
      ∀ p ∈ items.zip (items.map fun x => ((nested x).run r).1),
        Shown cells stop true (w :: around) p.1 p.2 := by
    intro w items hw p hp
    rw [mem_zip_map hp]
    exact hnested w r hr.depth (hr.cells.trans hw.symm) p.1
  induction v using writeWith.induct with
  | case1 items =>
    rw [writeWith, run_bind, mapM_run hrestores]
    exact .enclosed (hstop _) rfl (List.length_map _) (hitems (list items) items rfl)
  | case2 items =>
    have hshown : Shown cells stop false around (tuple items) _ :=
      .enclosed (hstop _) rfl (List.length_map _) (hitems (tuple items) items rfl)
    rw [enclose, List.length_map] at hshown
    rw [writeWith, run_bind, mapM_run hrestores]
    exact hshown
  | case3 fields =>
    have hshown : Shown cells stop false around (record fields) _ :=
      .enclosed (hstop _) rfl (List.length_map _) (hitems (record fields) (fields.map Prod.snd) rfl)
    have hwritten : ∀ f : Symbol × Value,
        Restores (do return f.1.name ++ ": " ++ (← nested f.2)) :=
      fun f => (hrestores f.2).bind fun _ => .pure _
    rw [enclose, List.map_map, List.zipWith_map_right, List.zipWith_self] at hshown
    rw [writeWith, run_bind, mapM_run hwritten]
    exact hshown
  | case4 id callee bound ih =>
    exact .applied (hstop _) ih
  | case5 id =>
    rw [writeWith, writeCell_run hrestores, hr.cells]
    split
    · exact .stopped ((hstop _).trans (if_pos ‹_›))
    · have hcontent := hnested (cell id) (r.begin id) hr.depth
        (congrArg (id :: ·) hr.cells) (cells[id]?.getD none)
      have hshown : Shown cells stop false around (cell id) _ :=
        .enclosed ((hstop _).trans (if_neg ‹_›)) rfl List.length_singleton fun p hp => by
          obtain rfl := List.mem_singleton.mp hp
          exact hcontent
      rw [enclose, commas, String.intercalate_singleton] at hshown
      exact hshown
  | case6 v hlist htuple hrecord happlied hcell =>
    cases v with
    | list items => exact (hlist items rfl).elim
    | tuple items => exact (htuple items rfl).elim
    | record fields => exact (hrecord fields rfl).elim
    | applied id callee bound => exact (happlied id callee bound rfl).elim
    | cell id => exact (hcell id rfl).elim
    | str s => exact .bare (stop_str s)
    | _ => exact .flat (hstop _) rfl

/-- With room for all levels that are not too deep, the text is that of the unfolding. -/
theorem writeWithin_shown {room : Nat} (hroom : maxNesting ≤ around.length + room)
    (hshallow : around.length ≤ maxNesting) (hr : Standing around r) (v : Value) :
    Shown cells stop false around v ((writeWithin cells room v).run r).1 := by
  induction room generalizing around r v with
  | zero =>
    refine writeWith_shown (writeNested_restores fun _ => .pure _) (fun w r hdepth hcells => ?_)
      hshallow hr v
    refine writeNested_shown (fun _ => .pure _) (fun hinner => ?_) hdepth hcells
    rw [List.length_cons] at hinner
    omega
  | succ room ih =>
    refine writeWith_shown (writeNested_restores (writeWithin_restores room))
      (fun w r hdepth hcells => ?_) hshallow hr v
    refine writeNested_shown (writeWithin_restores room) (fun hinner v r hr => ?_) hdepth hcells
    exact ih (by rw [List.length_cons]; omega) hinner hr v

theorem renderOver_shown (cells : Array Value) (v : Value) :
    Shown cells stop false [] v (v.renderOver cells) :=
  writeWithin_shown (Nat.le_add_left ..) (Nat.zero_le _) ⟨rfl, rfl⟩ v

end Text

/-- Values without a cell inside itself, and with no value but texts inside too many containers and
cells. -/
structure Tame (cells : Array Value) (v : Value) : Prop where
  acyclic : ∀ around id, Occurs cells v around (cell id) → id ∉ cellsAmong around
  shallow : ∀ around x, Occurs cells v around x → x.isText = false → around.length ≤ maxNesting

theorem Tame.unstopped {cells : Array Value} {v : Value} (hv : Tame cells v) :
    Unstopped cells stop [] v := by
  intro below x hx
  rw [List.append_nil, stop, if_neg]
  · cases x with
    | cell id => exact if_neg (hv.acyclic below id hx)
    | _ => rfl
  · rintro ⟨hdeep, htext⟩
    exact absurd (hv.shallow below x hx htext) (Nat.not_le.mpr hdeep)

/-- Writing leaves what is in progress as it was, so that values written one after another have the
texts that they have alone. The text of a value is the one of its unfolding with its stops. Where
nothing stops at an occurrence or inside it, its text is the one without stops, whatever stands
around it; for a value without cycles that is not too deep this is the whole text. -/
theorem write_follows_unfolding (cells : Array Value) :
    (∀ v r, ((write cells v).run r).2 = r) ∧
    (∀ (vs : List Value) r,
      (vs.mapM (write cells)).run r = (vs.map fun v => ((write cells v).run r).1, r)) ∧
    (∀ vs : List Value, ((vs.mapM (write cells)).run .idle).1 = vs.map (renderOver cells)) ∧
    (∀ v text, Shown cells stop false [] v text ↔ text = v.renderOver cells) ∧
    (∀ quoted around around' v text, Unstopped cells stop around v →
      (Shown cells stop quoted around v text ↔ Shown cells never quoted around' v text)) ∧
    (∀ v, Tame cells v → ∀ text, Shown cells never false [] v text ↔ text = v.renderOver cells) := by
  have hunfolding : ∀ v text, Shown cells stop false [] v text ↔ text = v.renderOver cells := by
    intro v text
    constructor
    · exact fun hv => hv.unique (renderOver_shown cells v)
    · rintro rfl
      exact renderOver_shown cells v
  have hplain : ∀ quoted around around' v text, Unstopped cells stop around v →
      (Shown cells stop quoted around v text ↔ Shown cells never quoted around' v text) :=
    fun quoted around around' v text hunstopped =>
      ⟨fun hv => hv.plain hunstopped around', fun hv => hv.of_plain hunstopped⟩
  refine ⟨write_restores, fun vs r => mapM_run write_restores vs r, fun vs => ?_, hunfolding, hplain,
    fun v hv text => ?_⟩
  · rw [mapM_run write_restores]
    rfl
  · rw [← hplain false [] [] v text hv.unstopped, hunfolding]

example : (cell 0).renderOver #[list [int 1, cell 0]] = "<cell [1, <cell ...>]>" := rfl

/-- A cell with the number 1, twice in a list. -/
def twice : Value :=
  list [cell 0, cell 0]

theorem twice_occurs {around : List Value} {x : Value} (hx : Occurs #[int 1] twice around x) :
    (around = [] ∧ x = twice) ∨ (around = [twice] ∧ x = cell 0) ∨
      (around = [cell 0, twice] ∧ x = int 1) := by
  induction hx with
  | top => exact .inl ⟨rfl, rfl⟩
  | inside _ hinside hmem ih =>
    obtain ⟨rfl, rfl⟩ | ⟨rfl, rfl⟩ | ⟨rfl, rfl⟩ := ih
    · obtain rfl := Option.some.inj hinside
      rw [List.mem_cons, List.mem_singleton, or_self] at hmem
      exact .inr (.inl ⟨rfl, hmem⟩)
    · obtain rfl := Option.some.inj hinside
      exact .inr (.inr ⟨rfl, List.mem_singleton.mp hmem⟩)
    · cases hinside
  | callee _ ih => obtain ⟨-, h⟩ | ⟨-, h⟩ | ⟨-, h⟩ := ih <;> cases h

theorem twice_tame : Tame #[int 1] twice := by
  constructor
  · intro around id hx
    obtain ⟨-, h⟩ | ⟨rfl, -⟩ | ⟨-, h⟩ := twice_occurs hx
    · cases h
    · exact List.not_mem_nil
    · cases h
  · intro around x hx _
    obtain ⟨rfl, -⟩ | ⟨rfl, -⟩ | ⟨rfl, -⟩ := twice_occurs hx <;> decide

theorem write_follows_unfolding_twice :
    Shown #[int 1] never false [] twice "[<cell 1>, <cell 1>]" ∧
      Shown #[int 1] never false [] twice (twice.renderOver #[int 1]) := by
  obtain ⟨-, -, -, hunfolding, hplain, htame⟩ := write_follows_unfolding #[int 1]
  constructor
  · exact (htame twice twice_tame _).mpr rfl
  · exact (hplain false [] [] twice _ twice_tame.unstopped).mp ((hunfolding twice _).mpr rfl)

end Value

end Resumable
