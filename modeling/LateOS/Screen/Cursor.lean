import LateOS.Lib.Trace
import LateOS.Screen.Video

/-!
# The cursor

How far `temp2` and the two counters drift apart. The drift is small enough for all characters to
stay on the screen; a backspace goes off it in one place, behind a carriage return in the first row.
-/
namespace LateOS

open Lib

/-- What is done to the screen. -/
inductive ScreenOp where
  | put (ch : UInt8)
  | backspace

namespace Video

variable {v : Video} {ch : UInt8} {op : ScreenOp}

def perform (v : Video) : ScreenOp → Video
  | .put ch => v.writeToSbush ch
  | .backspace => v.backspace

def run (v : Video) (ops : List ScreenOp) : List (ScreenOp × Video) :=
  follow (fun v op => some (v.perform op)) v ops

/-- A cleared screen; stores are noted from here on. -/
def cleared (v : Video) : Video := { v.clearScreen with stores := [] }

/-- Every store so far was to the screen. -/
def InBounds (v : Video) : Prop := ∀ i ∈ v.stores, OnScreen i

/-- How far the pointer is from the place that the counters name. -/
def drift (v : Video) : Int := v.temp2 - (80 * v.numLines + v.toLeft)

/-- A carriage return leaves a drift of -1. On the bottom line a newline leaves one of 80, and a
wrap one of -80. -/
structure Placed (v : Video) : Prop where
  line : v.numLines ≤ 23
  left : 0 ≤ v.toLeft
  right : v.toLeft ≤ 79
  front : 0 ≤ v.temp2
  drift : v.drift = 0 ∨ v.drift = -1 ∨ v.numLines = 23 ∧ (v.drift = 80 ∨ v.drift = -80)

/-- A backspace that takes something back finds a cell to take back. -/
def Steady (v : Video) : ScreenOp → Prop
  | .put _ => True
  | .backspace => v.toLeft = 0 ∨ v.temp2 ≠ 0

theorem cleared_placed (v : Video) : v.cleared.Placed :=
  ⟨Nat.zero_le 23, Int.le_refl 0, Int.zero_le_ofNat 79, Int.le_refl 0, Or.inl rfl⟩

theorem Placed.cell (placed : v.Placed) : OnScreen v.temp2 := by
  obtain ⟨line, left, right, front, drift⟩ := placed
  unfold Video.drift at drift
  unfold OnScreen
  omega

/-! ## Characters -/

theorem advance_inBounds (v : Video) : v.advance.InBounds ↔ v.InBounds := by
  unfold advance
  split
  · exact (rollUP_painted v).stores
  split <;> exact Iff.rfl

/-- The column behind the last one is the first of the next line, or of one that was there. -/
theorem advance_cases (v : Video) :
    v.toLeft = 79 ∧ v.numLines = 23 ∧
      v.advance.temp2 = 1760 ∧ v.advance.toLeft = 0 ∧ v.advance.numLines = 23 ∨
    v.toLeft = 79 ∧ v.numLines ≠ 23 ∧
      v.advance.temp2 = v.temp2 ∧ v.advance.toLeft = 0 ∧ v.advance.numLines = v.numLines + 1 ∨
    v.toLeft ≠ 79 ∧
      v.advance.temp2 = v.temp2 ∧ v.advance.toLeft = v.toLeft + 1 ∧
      v.advance.numLines = v.numLines := by
  unfold advance
  split
  next bottom =>
    exact Or.inl ⟨bottom.1, bottom.2, rfl, rfl, (rollUP_painted v).numLines.trans bottom.2⟩
  next notBottom =>
    split
    next last => exact Or.inr (Or.inl ⟨last.1, last.2, rfl, rfl, rfl⟩)
    next notLast =>
      refine Or.inr (Or.inr ⟨fun column => ?_, rfl, rfl, rfl⟩)
      by_cases bottom : v.numLines = maxheight - 1
      · exact notBottom ⟨column, bottom⟩
      · exact notLast ⟨column, bottom⟩

/-- A newline, a carriage return, or a character that is stored. -/
theorem writeToSbush_cases (v : Video) (ch : UInt8) :
    ((v.writeToSbush ch).temp2 = 80 * (v.numLines + 1) ∧ (v.writeToSbush ch).toLeft = 0 ∧
      (v.numLines = 23 ∧ (v.writeToSbush ch).numLines = 23 ∨
        v.numLines ≠ 23 ∧ (v.writeToSbush ch).numLines = v.numLines + 1) ∧
      ((v.writeToSbush ch).InBounds ↔ v.InBounds)) ∨
    v.writeToSbush ch =
      advance { v with temp2 := (maxwidth * v.numLines : Nat), toLeft := 0 } ∨
    v.writeToSbush ch = (v.store ch).advance := by
  unfold writeToSbush
  split
  · left
    dsimp only
    split
    next bottom =>
      have painted := rollUP_painted { v with temp2 := (maxwidth * (v.numLines + 1) : Nat) }
      refine ⟨?_, rfl, Or.inl ⟨bottom, ?_⟩, painted.stores⟩
      · rw [painted.temp2]
        simp
      · exact painted.numLines.trans bottom
    next inside =>
      refine ⟨by simp, rfl, Or.inr ⟨inside, rfl⟩, Iff.rfl⟩
  split
  · exact Or.inr (Or.inl rfl)
  · exact Or.inr (Or.inr rfl)

theorem Placed.put (placed : v.Placed) (ch : UInt8) : (v.writeToSbush ch).Placed := by
  obtain ⟨line, left, right, front, drift⟩ := placed
  unfold Video.drift at drift
  rcases v.writeToSbush_cases ch with ⟨temp2, toLeft, numLines, _⟩ | same | same
  · exact ⟨by omega, by omega, by omega, by omega, by unfold Video.drift; omega⟩
  · rw [same]
    have start (w : Video) (shape : w =
        { v with temp2 := (maxwidth * v.numLines : Nat), toLeft := 0 }) :
        w.temp2 = 80 * v.numLines ∧ w.toLeft = 0 ∧ w.numLines = v.numLines := by
      subst shape
      exact ⟨by simp, rfl, rfl⟩
    generalize shape : ({ v with temp2 := (maxwidth * v.numLines : Nat), toLeft := 0 } : Video) = w
    have start := start w shape.symm
    rcases advance_cases w with ⟨column, _⟩ | ⟨column, _⟩ | ⟨_, temp2, toLeft, numLines⟩
    · omega
    · omega
    · exact ⟨by omega, by omega, by omega, by omega, by unfold Video.drift; omega⟩
  · rw [same]
    have start : (v.store ch).temp2 = v.temp2 + 1 ∧ (v.store ch).toLeft = v.toLeft ∧
      (v.store ch).numLines = v.numLines := ⟨rfl, rfl, rfl⟩
    rcases advance_cases (v.store ch) with ⟨column, bottom, temp2, toLeft, numLines⟩ |
        ⟨column, inside, temp2, toLeft, numLines⟩ | ⟨column, temp2, toLeft, numLines⟩
    all_goals exact ⟨by omega, by omega, by omega, by omega, by unfold Video.drift; omega⟩

theorem Placed.put_inBounds (placed : v.Placed) (ch : UInt8) :
    (v.writeToSbush ch).InBounds ↔ v.InBounds := by
  rcases v.writeToSbush_cases ch with ⟨_, _, _, same⟩ | same | same
  · exact same
  · rw [same, advance_inBounds]
    exact Iff.rfl
  · rw [same, advance_inBounds]
    exact (put_stores v v.temp2 ch).trans (and_iff_right placed.cell)

/-! ## Backspaces -/

/-- The blank goes to the cell in front of the pointer, which stands there afterwards. -/
theorem backspace_cases (v : Video) (right : v.toLeft ≤ 79) :
    v.toLeft = 0 ∧ v.backspace = v ∨
    v.toLeft ≠ 0 ∧ v.backspace.temp2 = v.temp2 - 1 ∧ v.backspace.toLeft = v.toLeft - 1 ∧
      v.backspace.numLines = v.numLines ∧
      (v.backspace.InBounds ↔ OnScreen (v.temp2 - 1) ∧ v.InBounds) := by
  unfold backspace
  split
  next column => exact Or.inl ⟨column, rfl⟩
  next column =>
    right
    dsimp only
    generalize before : ({ v with toLeft := v.toLeft - 1, temp2 := v.temp2 - 1 } : Video) = w
    have place : w.temp2 = v.temp2 - 1 ∧ w.toLeft = v.toLeft - 1 ∧ w.numLines = v.numLines := by
      rw [← before]
      exact ⟨rfl, rfl, rfl⟩
    have stored : w.writeToSbush 32 = (w.store 32).advance := rfl
    rw [stored]
    have start : (w.store 32).temp2 = w.temp2 + 1 ∧ (w.store 32).toLeft = w.toLeft ∧
      (w.store 32).numLines = w.numLines := ⟨rfl, rfl, rfl⟩
    rcases advance_cases (w.store 32) with ⟨full, _⟩ | ⟨full, _⟩ | ⟨_, temp2, toLeft, numLines⟩
    · omega
    · omega
    · refine ⟨column, by omega, by omega, by omega, (advance_inBounds (w.store 32)).trans ?_⟩
      refine (put_stores w w.temp2 32).trans ?_
      rw [place.1, ← before]
      exact Iff.rfl

theorem Placed.backspace (placed : v.Placed) (steady : v.Steady .backspace) :
    v.backspace.Placed ∧ (v.backspace.InBounds ↔ v.InBounds) := by
  have cell := placed.cell
  obtain ⟨line, left, right, front, drift⟩ := placed
  rcases v.backspace_cases right with ⟨_, same⟩ | ⟨column, temp2, toLeft, numLines, stores⟩
  · rw [same]
    exact ⟨⟨line, left, right, front, drift⟩, Iff.rfl⟩
  · have behind : v.temp2 ≠ 0 := steady.resolve_left column
    unfold Video.drift at drift
    refine ⟨⟨by omega, by omega, by omega, by omega, by unfold Video.drift; omega⟩, ?_⟩
    rw [stores]
    refine and_iff_right ?_
    unfold OnScreen at cell ⊢
    omega

/-- The blank goes in front of the screen. -/
theorem backspace_outside (right : v.toLeft ≤ 79) (bad : ¬v.Steady .backspace) :
    ¬v.backspace.InBounds := by
  obtain ⟨column, front⟩ := not_or.mp bad
  rcases v.backspace_cases right with ⟨start, _⟩ | ⟨_, _, _, _, stores⟩
  · exact absurd start column
  · rw [stores, not_not.mp front]
    exact fun inside => absurd inside.1 (by decide)

/-- So much is only left to take back behind a carriage return in the first row, when what has been
written since is taken back already. -/
theorem Placed.unsteady (placed : v.Placed) :
    ¬v.Steady .backspace ↔ v.numLines = 0 ∧ v.toLeft = 1 ∧ v.drift = -1 := by
  obtain ⟨line, left, right, front, drift⟩ := placed
  unfold Steady
  unfold Video.drift at drift ⊢
  omega

/-! ## Cells -/

theorem advance_cells (inside : ¬(v.toLeft = 79 ∧ v.numLines = 23)) : v.advance.cells = v.cells := by
  unfold advance
  split
  next bottom => exact absurd bottom inside
  next => split <;> rfl

theorem backspace_cells (right : v.toLeft ≤ 79) (column : v.toLeft ≠ 0) :
    v.backspace.cells = Function.update v.cells (v.temp2 - 1) 32 := by
  unfold backspace
  rw [if_neg column]
  generalize before : ({ v with toLeft := v.toLeft - 1, temp2 := v.temp2 - 1 } : Video) = w
  have inside : ¬((w.store 32).toLeft = 79 ∧ (w.store 32).numLines = 23) := by
    rw [← before]
    change ¬(v.toLeft - 1 = 79 ∧ v.numLines = 23)
    omega
  have stored : (w.writeToSbush 32).cells = (w.store 32).cells := advance_cells inside
  dsimp only
  rw [stored, ← before]
  rfl

/-! ## Runs -/

/-- All stores of a run are to the screen exactly if every backspace that takes something back
finds the pointer behind the first cell. -/
theorem stores_on_screen_iff (v : Video) (ops : List ScreenOp) :
    Along (fun _ _ t => t.InBounds) v.cleared (v.cleared.run ops) ↔
      Along (fun s op _ => s.Steady op) v.cleared (v.cleared.run ops) := by
  refine Along.exact_of_strong (I := fun s => s.Placed ∧ s.InBounds) ?_ ?_
    ⟨v.cleared_placed, fun _ member => by cases member⟩
    (along_follow (fun v op => some (v.perform op)) v.cleared ops)
  · rintro s op t ⟨placed, inBounds⟩ step steady
    cases step
    cases op with
    | put ch => exact ⟨⟨placed.put ch, (placed.put_inBounds ch).mpr inBounds⟩,
        (placed.put_inBounds ch).mpr inBounds⟩
    | backspace =>
      obtain ⟨next, same⟩ := placed.backspace steady
      exact ⟨⟨next, same.mpr inBounds⟩, same.mpr inBounds⟩
  · rintro s op t ⟨placed, _⟩ step bad
    cases step
    cases op with
    | put ch => exact absurd trivial bad
    | backspace => exact backspace_outside placed.right bad

/-- A carriage return and a backspace on a cleared screen. -/
theorem return_and_backspace : ¬∀ (v : Video) (ops : List ScreenOp),
    Along (fun _ _ t => t.InBounds) v.cleared (v.cleared.run ops) := by
  intro all
  have both := all ⟨fun _ => 0, 0, 0, 0, []⟩ [.put 13, .backspace]
  rw [run, follow_some rfl, follow_some rfl, along_cons, along_cons] at both
  exact backspace_outside (by decide) (fun steady => steady.elim (by decide) (by decide)) both.2.1

end Video

end LateOS
