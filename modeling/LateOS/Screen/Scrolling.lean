import Mathlib.Data.List.GetD
import Mathlib.Data.List.Infix
import LateOS.Lib.Trace
import LateOS.Screen.Console

/-!
# Scrolling

What the screen shows of a text without carriage returns. A scroll moves all rows up and
wipes row 23; the line that it completes survives only if it does not stand in row 24, and
the cursor does not go where that line is only if it does not stand in row 23.
-/
namespace LateOS

open Lib

/-! ## Rows -/

/-- How a character looks: NUL shows as a blank. -/
def plain (c : UInt8) : UInt8 := if c = 0 then 32 else c

abbrev Row := Fin 80 → UInt8

def blank : Row := fun _ => 32

/-- Row `r` of the screen, as it looks. -/
def row (cells : Nat → UInt8) (r : Nat) : Row := fun j => plain (cells (80 * r + j))

/-- How a line of a text looks on an empty row. -/
def padded (line : List UInt8) : Row := fun j => plain (line.getD j 32)

def nonblank (rows : List Row) : List Row := rows.filter (· ≠ blank)

/-- The first `n` rows without the blank ones. -/
def firstRows (cells : Nat → UInt8) (n : Nat) : List Row :=
  nonblank ((List.range n).map (row cells))

/-- The 25 rows of the screen without the blank ones. -/
def shown (cells : Nat → UInt8) : List Row := firstRows cells 25

/-! ## Texts -/

/-- A text as lines: a newline ends one, and so does its eightieth character. -/
structure Text where
  lines : List (List UInt8)
  line : List UInt8

def Text.write (t : Text) (ch : UInt8) : Text :=
  if ch = 10 then { lines := t.lines ++ [t.line], line := [] }
  else if t.line.length = 79 then { lines := t.lines ++ [t.line ++ [ch]], line := [] }
  else { t with line := t.line ++ [ch] }

/-- The screen and the text written to it. -/
structure Output where
  screen : Console
  text : Text

namespace Output

/-- A cleared screen. -/
def cleared (s : Console) : Output := ⟨s.clearScreen, ⟨[], []⟩⟩

variable (o : Output) (ch : UInt8)

def write : Output := ⟨o.screen.writeToSbush ch, o.text.write ch⟩

/-- The next character, which is no carriage return. -/
def step : Option Output := if ch = 13 then none else some (o.write ch)

def Step (o : Output) (ch : UInt8) (o' : Output) : Prop := o.step ch = some o'

/-- A newline or a wrap on the bottom line. -/
def ScrollsAt : Prop := o.screen.numLines = 23 ∧ (ch = 10 ∨ o.screen.toLeft = 79)

instance : Decidable (o.ScrollsAt ch) := inferInstanceAs (Decidable (_ ∧ _))

/-- The screen that is rolled up: a wrap stores its character first. -/
def full : Nat → UInt8 := if ch = 10 then o.screen.cells else (o.screen.store ch).cells

/-- What a scroll should do. -/
structure ScrolledUp (o' : Output) : Prop where
  moved : ∀ r, r < 24 → row o'.screen.cells r = row (o.full ch) (r + 1)
  cursor : o'.screen.toLeft = 0 ∧
    ∃ r, r ≤ 24 ∧ o'.screen.temp2 = 80 * r ∧ row o'.screen.cells r = blank
  recent : shown o'.screen.cells <:+ nonblank (o'.text.lines.map padded)
  completed : ∀ line, o'.text.lines.getLast? = some line → padded line ≠ blank →
    padded line ∈ shown o'.screen.cells

def Scrolls (o : Output) (ch : UInt8) (o' : Output) : Prop :=
  o.ScrollsAt ch → o.ScrolledUp ch o'

/-- No scroll finds something in row 24, and no wrap in row 23. -/
def Spare (o : Output) (ch : UInt8) : Prop :=
  o.ScrollsAt ch → row (o.full ch) 24 = blank ∧ (ch ≠ 10 → row (o.full ch) 23 = blank)

instance : Decidable (o.Spare ch) := inferInstanceAs (Decidable (_ → _ ∧ _))

end Output

/-! ## Rows under the screen functions -/

variable {cells : Nat → UInt8} {r n : Nat} {line : List UInt8} {lines : List (List UInt8)}
  {ch : UInt8}

theorem row_rollUP (inside : r < 24) :
    row (Console.rollUP cells) r = if r = 23 then blank else row cells (r + 1) := by
  funext j
  have := j.isLt
  rw [row, Console.rollUP_apply]
  by_cases bottom : r = 23
  · subst bottom
    rw [if_neg (by omega), if_pos (by omega)]
    rfl
  · rw [if_pos (by omega), if_neg bottom]
    change plain _ = plain (cells (80 * (r + 1) + j))
    congr 2
    omega

theorem row_rollUP_last : row (Console.rollUP cells) 24 = row cells 24 := by
  funext j
  rw [row, Console.rollUP_apply, if_neg (by omega), if_neg (by omega)]
  rfl

theorem row_update_other {R t : Nat} (inside : t < 80) (other : r ≠ R) :
    row (Function.update cells (80 * R + t) ch) r = row cells r := by
  funext j
  have := j.isLt
  rw [row, Function.update_of_ne (by omega)]
  rfl

theorem row_update_self {R : Nat} (here : row cells R = padded line) :
    row (Function.update cells (80 * R + line.length) ch) R = padded (line ++ [ch]) := by
  funext j
  have old := congrFun here j
  rw [padded, row]
  by_cases last : j.val = line.length
  · rw [last, Function.update_self, List.getD_append_right _ _ _ _ (Nat.le_refl _), Nat.sub_self]
    rfl
  · rw [Function.update_of_ne (by omega)]
    change row cells R j = _
    rw [old, padded]
    by_cases left : j.val < line.length
    · rw [List.getD_append _ _ _ _ left]
    · rw [List.getD_eq_default _ _ (by omega), List.getD_eq_default]
      rw [List.length_append, List.length_singleton]
      omega

/-! ## Rows without the blank ones -/

theorem nonblank_append (a b : List Row) : nonblank (a ++ b) = nonblank a ++ nonblank b :=
  List.filter_append ..

theorem firstRows_succ : firstRows cells (n + 1) = firstRows cells n ++ nonblank [row cells n] := by
  rw [firstRows, List.range_succ, List.map_append, nonblank_append]
  rfl

theorem firstRows_eq {m : Nat} (more : n ≤ m) (rest : ∀ r, n ≤ r → r < m → row cells r = blank) :
    firstRows cells m = firstRows cells n := by
  induction m, more using Nat.le_induction with
  | base => rfl
  | succ m more ih =>
    rw [firstRows_succ, ih fun r above below => rest r above (by omega),
      rest m more (Nat.lt_succ_self m)]
    simp [nonblank]

theorem firstRows_congr {other : Nat → UInt8} (same : ∀ r, r < n → row other r = row cells r) :
    firstRows other n = firstRows cells n := by
  rw [firstRows, List.map_congr_left fun r inside => same r (List.mem_range.mp inside)]
  rfl

/-- Moving up by one row drops the top one. -/
theorem firstRows_shift {other : Nat → UInt8}
    (moved : ∀ r, r < n → row other r = row cells (r + 1)) :
    firstRows other n <:+ firstRows cells (n + 1) := by
  refine ⟨nonblank [row cells 0], ?_⟩
  rw [firstRows, firstRows, List.range_succ_eq_map, List.map_cons, List.map_map,
    List.map_congr_left (fun r inside => moved r (List.mem_range.mp inside))]
  exact (nonblank_append [row cells 0] _).symm

theorem mem_firstRows (inside : r < n) (some : row cells r ≠ blank) :
    row cells r ∈ firstRows cells n := by
  simp only [firstRows, nonblank, List.mem_filter, List.mem_map, List.mem_range]
  exact ⟨⟨r, inside, rfl⟩, by simpa using some⟩

/-! ## What is on the screen -/

/-- Row `R` shows the line being written, the rows above it the last lines before that one, and
the rows below nothing. -/
structure Shows (cells : Nat → UInt8) (R : Nat) (t : Text) : Prop where
  above : firstRows cells R <:+ nonblank (t.lines.map padded)
  here : row cells R = padded t.line
  below : ∀ r, R < r → r ≤ 24 → row cells r = blank

namespace Shows

variable {R : Nat} {t : Text} (shows : Shows cells R t)

include shows

theorem put (room : t.line.length < 80) :
    Shows (Function.update cells (80 * R + t.line.length) ch) R
      { t with line := t.line ++ [ch] } := by
  refine ⟨?_, row_update_self shows.here, fun r under last => ?_⟩
  · rw [firstRows_congr fun r above => row_update_other room (by omega)]
    exact shows.above
  · rw [row_update_other room (by omega)]
    exact shows.below r under last

/-- The rows above and row `R` itself. -/
theorem through : firstRows cells (R + 1) <:+ nonblank ((t.lines ++ [t.line]).map padded) := by
  obtain ⟨older, above⟩ := shows.above
  refine ⟨older, ?_⟩
  rw [firstRows_succ, shows.here, List.map_append, nonblank_append, ← above, List.append_assoc]
  rfl

theorem next (more : R < 24) : Shows cells (R + 1) ⟨t.lines ++ [t.line], []⟩ :=
  ⟨shows.through, shows.below _ (Nat.lt_succ_self R) more,
    fun r under last => shows.below r (by omega) last⟩

theorem all (inside : R ≤ 24) : shown cells <:+ nonblank ((t.lines ++ [t.line]).map padded) := by
  rw [shown, firstRows_eq (n := R + 1) (by omega)
    fun r above last => shows.below r (by omega) (by omega)]
  exact shows.through

/-- Rolling up loses nothing but the top row, if nothing stands in the last one. -/
theorem rolled (inside : R ≤ 24) (last : row cells 24 = blank) :
    shown (Console.rollUP cells) <:+ nonblank ((t.lines ++ [t.line]).map padded) := by
  have moved (r : Nat) (above : r < 24) :
      row (Console.rollUP cells) r = row cells (r + 1) := by
    rw [row_rollUP above]
    split
    next bottom => rw [bottom, last]
    next => rfl
  have tail : shown (Console.rollUP cells) = firstRows (Console.rollUP cells) 24 := by
    refine firstRows_eq (by omega) fun r above below => ?_
    rw [show r = 24 by omega, row_rollUP_last, last]
  rw [tail]
  exact (firstRows_shift moved).trans (shows.all inside)

end Shows

/-! ## Runs -/

namespace Output

variable {o o' : Output} {R : Nat}

theorem step_some (wrote : Step o ch o') : ch ≠ 13 ∧ o' = o.write ch := by
  unfold Step step at wrote
  split at wrote
  next => cases wrote
  next plain => exact ⟨plain, (Option.some_inj.mp wrote).symm⟩

/-- Where the cursor is: in row `R`, which is the line counted by `numLines` until the bottom is
reached, and one of the last three rows from then on. -/
structure Written (o : Output) (R : Nat) : Prop where
  shows : Shows o.screen.cells R o.text
  inside : R ≤ 24
  place : o.screen.temp2 = 80 * R + o.screen.toLeft
  column : o.screen.toLeft = o.text.line.length
  room : o.text.line.length < 80
  top : o.screen.numLines < 23 → R = o.screen.numLines
  bottom : o.screen.numLines = 23 → 22 ≤ R
  count : o.screen.numLines ≤ 23

theorem Written.cleared (s : Console) : (cleared s).Written 0 := by
  obtain ⟨cells, filled, eq⟩ := s.clearScreen_eq
  have empty (r : Nat) (inside : r ≤ 24) : row cells r = blank := by
    funext j
    have := j.isLt
    rw [row, filled _ (by omega)]
    rfl
  unfold Output.cleared
  rw [eq]
  refine ⟨⟨?_, empty 0 (by decide), fun r _ inside => empty r inside⟩, by decide, rfl, rfl,
    by simp, fun _ => rfl, nofun, by simp⟩
  exact List.nil_suffix

/-- The line that a scroll completes. -/
def ended (o : Output) (ch : UInt8) : List UInt8 :=
  if ch = 10 then o.text.line else o.text.line ++ [ch]

theorem Written.full (written : o.Written R) (ch : UInt8) :
    Shows (o.full ch) R ⟨o.text.lines, o.ended ch⟩ := by
  unfold Output.full ended
  split
  · exact written.shows
  · change Shows (Function.update o.screen.cells o.screen.temp2 ch) R _
    rw [written.place, written.column]
    exact written.shows.put written.room

/-- The character ends a line. -/
def Ends (o : Output) (ch : UInt8) : Prop := ch = 10 ∨ o.screen.toLeft = 79

theorem Written.write_ends (written : o.Written R) (ends : o.Ends ch) :
    o.text.write ch = ⟨o.text.lines ++ [o.ended ch], []⟩ := by
  unfold Text.write ended
  split
  next => rfl
  next other =>
    have wide := ends.resolve_left other
    rw [written.column] at wide
    rw [if_pos wide]

/-- A line that ends above the bottom one. -/
theorem Written.next (written : o.Written R) (ends : o.Ends ch) (plain : ch ≠ 13)
    (above : o.screen.numLines < 23) :
    (o.write ch).Written (R + 1) := by
  have row := written.top above
  have place : o.screen.writeToSbush ch =
      { cells := o.full ch, temp2 := 80 * (R + 1), toLeft := 0,
        numLines := o.screen.numLines + 1 } := by
    have here := written.place
    unfold Console.writeToSbush Output.full
    by_cases newline : ch = 10
    · rw [if_pos newline, if_pos newline]
      simp [Nat.ne_of_lt above, row]
    · have wide := ends.resolve_left newline
      rw [if_neg newline, if_neg newline, if_neg plain]
      simp only [Console.advance, Console.store, wide]
      simp [Nat.ne_of_lt above]
      omega
  rw [write, place, written.write_ends ends]
  exact ⟨(written.full ch).next (by omega), by omega, rfl, rfl, by simp, fun _ => by
    dsimp only; omega, fun _ => by dsimp only at *; omega, above⟩

/-- A character within a line. -/
theorem Written.put (written : o.Written R) (inner : ¬o.Ends ch) (plain : ch ≠ 13) :
    (o.write ch).Written R := by
  obtain ⟨newline, narrow⟩ := not_or.mp inner
  have shows := written.full ch
  have column := written.column
  have place := written.place
  have room := written.room
  have text : o.text.write ch = ⟨o.text.lines, o.ended ch⟩ := by
    unfold Text.write ended
    rw [if_neg newline, if_neg newline, if_neg (by omega)]
  have screen : o.screen.writeToSbush ch =
      { o.screen with
        cells := o.full ch, temp2 := o.screen.temp2 + 1, toLeft := o.screen.toLeft + 1 } := by
    unfold Console.writeToSbush Output.full
    rw [if_neg newline, if_neg newline, if_neg plain]
    simp [Console.advance, Console.store, narrow]
  rw [write, screen, text]
  have longer : (o.ended ch).length = o.text.line.length + 1 := by simp [ended, newline]
  exact ⟨shows, written.inside, by dsimp only; omega, by dsimp only; omega,
    by dsimp only; omega, written.top, written.bottom, written.count⟩

/-- Where a scroll leaves the screen and the cursor. -/
theorem writeToSbush_scrolls (scrolls : o.ScrollsAt ch) (plain : ch ≠ 13) :
    o.screen.writeToSbush ch =
      { cells := Console.rollUP (o.full ch), temp2 := 80 * (if ch = 10 then 24 else 22),
        toLeft := 0, numLines := 23 } := by
  obtain ⟨bottom, ends⟩ := scrolls
  unfold Console.writeToSbush Output.full
  by_cases newline : ch = 10
  · rw [if_pos newline, if_pos newline, if_pos newline]
    simp [bottom, maxwidth]
  · have wide := ends.resolve_left newline
    rw [if_neg newline, if_neg newline, if_neg newline, if_neg plain]
    simp [Console.advance, Console.store, wide, bottom, maxwidth]

/-- A scroll that spares what it wipes is what it should be. -/
theorem Written.scrolled (written : o.Written R) (scrolls : o.ScrollsAt ch) (plain : ch ≠ 13)
    (spare : o.Spare ch) : ∃ R', (o.write ch).Written R' ∧
      o.ScrolledUp ch (o.write ch) := by
  obtain ⟨last, above⟩ := spare scrolls
  have shows := written.full ch
  have bottom := written.bottom scrolls.1
  have inside := written.inside
  have recent := shows.rolled inside last
  rw [write, writeToSbush_scrolls scrolls plain, written.write_ends scrolls.2]
  -- The row that the cursor goes to, and the rows below it, are empty.
  obtain ⟨R', place, low, high, empty⟩ : ∃ R', (if ch = 10 then 24 else 22) = R' ∧ 22 ≤ R' ∧
      R' ≤ 24 ∧ ∀ r, R' ≤ r → r ≤ 24 → row (Console.rollUP (o.full ch)) r = blank := by
    refine ⟨_, rfl, by split <;> omega, by split <;> omega, fun r under inside => ?_⟩
    by_cases lowest : r = 24
    · rw [lowest, row_rollUP_last, last]
    · rw [row_rollUP (by omega)]
      split
      next => rfl
      next other =>
        split at under
        next => omega
        next wrap =>
          rw [show r + 1 = 23 by omega]
          exact above wrap
  rw [place]
  have top : shown (Console.rollUP (o.full ch)) = firstRows (Console.rollUP (o.full ch)) R' :=
    firstRows_eq (by omega) fun r under below => empty r under (by omega)
  refine ⟨R', ⟨⟨?_, empty R' (Nat.le_refl _) high, fun r under => empty r (Nat.le_of_lt under)⟩,
    high, rfl, rfl, by simp, fun below => absurd below (by simp), fun _ => low, Nat.le_refl _⟩,
    ⟨?_, ⟨rfl, R', high, rfl, empty R' (Nat.le_refl _) high⟩, recent, ?_⟩⟩
  · exact top ▸ recent
  · intro r above
    rw [row_rollUP above]
    split
    next bottom => rw [bottom, last]
    next => rfl
  · intro line ended some
    rw [List.getLast?_concat, Option.some_inj] at ended
    subst ended
    have here := shows.here
    dsimp only at here
    have notLast : R ≠ 24 := by
      rintro rfl
      exact some (here.symm.trans last)
    have moved : row (Console.rollUP (o.full ch)) (R - 1) = padded (o.ended ch) := by
      rw [row_rollUP (by omega), if_neg (by omega), Nat.sub_add_cancel (by omega), here]
    rw [← moved] at some ⊢
    exact mem_firstRows (by omega) some

/-- A scroll that finds something in the rows it wipes or goes back to is not. -/
theorem not_scrolledUp (scrolls : o.ScrollsAt ch) (plain : ch ≠ 13)
    (some : ¬(row (o.full ch) 24 = blank ∧ (ch ≠ 10 → row (o.full ch) 23 = blank))) :
    ¬o.ScrolledUp ch (o.write ch) := by
  rw [write, writeToSbush_scrolls scrolls plain]
  rintro ⟨moved, ⟨_, r, inside, place, empty⟩, _⟩
  dsimp only at moved place empty
  refine some ⟨?_, fun wrap => ?_⟩
  -- Row 23 is wiped, so nothing has moved into it.
  · rw [← moved 23 (by decide), row_rollUP (by decide), if_pos rfl]
  -- The cursor goes to row 22, which is the row that was 23.
  · rw [if_neg wrap] at place
    have : r = 22 := by omega
    rw [this, row_rollUP (by decide), if_neg (by decide)] at empty
    exact empty

/-- Writing keeps to the rows as long as every scroll spares what it wipes. -/
theorem Written.step (written : o.Written R) (wrote : Step o ch o') (spare : o.Spare ch) :
    (∃ R', o'.Written R') ∧ Scrolls o ch o' := by
  obtain ⟨plain, rfl⟩ := step_some wrote
  by_cases ends : o.Ends ch
  · by_cases bottom : o.screen.numLines = 23
    · obtain ⟨R', written', scrolled⟩ := written.scrolled ⟨bottom, ends⟩ plain spare
      exact ⟨⟨R', written'⟩, fun _ => scrolled⟩
    · have count := written.count
      exact ⟨⟨R + 1, written.next ends plain (by omega)⟩, fun scrolls => absurd scrolls.1 bottom⟩
  · exact ⟨⟨R, written.put ends plain⟩, fun scrolls => absurd scrolls.2 ends⟩

/-- Whatever is written to a cleared screen, the scrolls do what they should if and only if none
of them finds something in row 24 and no wrap finds something in row 23. -/
theorem scrolling_iff (s : Console) {run : List (UInt8 × Output)}
    (ran : Along Step (cleared s) run) :
    Along Scrolls (cleared s) run ↔ Along (fun o ch _ => o.Spare ch) (cleared s) run := by
  refine Along.exact_of_strong (I := fun o => ∃ R, o.Written R) ?_ ?_
    ⟨0, Written.cleared s⟩ ran
  · rintro o ch o' ⟨R, written⟩ wrote spare
    exact written.step wrote spare
  · rintro o ch o' _ wrote bad scrolled
    obtain ⟨plain, rfl⟩ := step_some wrote
    obtain ⟨scrolls, some⟩ := not_forall.mp bad
    exact not_scrolledUp scrolls plain some (scrolled scrolls)

/-- A machine that has just been switched on. -/
def dark : Output := cleared { cells := fun _ => 0, temp2 := 0, toLeft := 0, numLines := 0 }

/-- A letter on the last line. -/
def letterBelow : List UInt8 := List.replicate 23 10 ++ [120]

/-- The newline behind it scrolls, and does what it should. -/
theorem scrolling_iff_of_letter : (lastState dark (follow step dark letterBelow)).ScrollsAt 10 ∧
    Along Scrolls dark (follow step dark (letterBelow ++ [10])) := by
  have spare : Along (fun o ch _ => o.Spare ch) dark (follow step dark (letterBelow ++ [10])) := by
    decide +kernel
  refine ⟨by decide +kernel, ?_⟩
  exact (scrolling_iff _ (along_follow step dark (letterBelow ++ [10]))).mpr spare

/-- The screen is full, and one letter is written behind the first scroll. -/
def onLetter : List UInt8 := List.replicate 24 10 ++ [120]

/-- The newline behind it scrolls the letter's line away and leaves the cursor on what is left of
it in row 24. -/
theorem not_scrolling : ∃ run, Along Step dark run ∧ ¬Along Scrolls dark run := by
  refine ⟨follow step dark onLetter ++
    [(10, (lastState dark (follow step dark onLetter)).write 10)], ?_, fun scrolled => ?_⟩
  · refine along_append.mpr ⟨along_follow step dark onLetter, ?_⟩
    rw [along_cons]
    exact ⟨rfl, along_nil _ _⟩
  · have bottom : (lastState dark (follow step dark onLetter)).screen.numLines = 23 ∧
        (lastState dark (follow step dark onLetter)).screen.cells (80 * 24) = 120 := by
      decide +kernel
    have last := (along_cons _ _ _ _ _).mp (along_append.mp scrolled).2
    have scrolls : (lastState dark (follow step dark onLetter)).ScrollsAt 10 :=
      ⟨bottom.1, Or.inl rfl⟩
    refine not_scrolledUp scrolls (by decide) (fun spare => ?_) (last.1 scrolls)
    have seen := congrFun spare.1 0
    rw [row, full, if_pos rfl] at seen
    change plain ((lastState dark (follow step dark onLetter)).screen.cells (80 * 24)) = 32 at seen
    rw [bottom.2] at seen
    cases seen

end Output

end LateOS
