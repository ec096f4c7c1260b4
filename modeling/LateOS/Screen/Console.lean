import Mathlib.Data.UInt
import LateOS.Lib.Loop

/-!
# The console

`sys/kprintf.c`: the characters of video memory and the statics that say where the next one
goes. A character and its colour take two bytes; the colours are left out, and `temp2`, which
only moves by two bytes, is the number of the cell that it points to.
-/
namespace LateOS

open Lib

abbrev maxwidth : Nat := 80
abbrev maxheight : Nat := 24

structure Console where
  cells : Nat → UInt8
  temp2 : Nat
  toLeft : Nat
  numLines : Nat

namespace Console

def clearScreen (s : Console) : Console :=
  let s := rounds (maxheight + 1) (fun _ => rounds maxwidth fun _ s =>
    { s with cells := Function.update s.cells s.temp2 32, temp2 := s.temp2 + 1 })
    { s with temp2 := 0 }
  { s with temp2 := 0, toLeft := 0, numLines := 0 }

/-- `rollUP`; the `temp2` it moves is its own. -/
def rollUP (cells : Nat → UInt8) : Nat → UInt8 :=
  let cells := rounds maxheight (fun i => rounds maxwidth fun j cells =>
    Function.update cells (i * maxwidth + j) (cells ((i + 1) * maxwidth + j))) cells
  rounds maxwidth (fun i cells => Function.update cells (maxwidth * (maxheight - 1) + i) 0) cells

/-- The `else` branch of the first `if` of `writeToSbush`. -/
def store (s : Console) (ch : UInt8) : Console :=
  { s with cells := Function.update s.cells s.temp2 ch, temp2 := s.temp2 + 1 }

/-- The second `if` of `writeToSbush`. -/
def advance (s : Console) : Console :=
  if s.toLeft = 79 ∧ s.numLines = maxheight - 1 then
    -- Two rows above the one that a newline goes to.
    { s with cells := rollUP s.cells, temp2 := maxwidth * 22, toLeft := 0 }
  else if s.toLeft = 79 ∧ s.numLines ≠ maxheight - 1 then
    { s with numLines := s.numLines + 1, toLeft := 0 }
  else { s with toLeft := s.toLeft + 1 }

def writeToSbush (s : Console) (ch : UInt8) : Console :=
  if ch = 10 then
    let s := { s with temp2 := maxwidth * (s.numLines + 1), toLeft := 0 }
    if s.numLines = maxheight - 1 then { s with cells := rollUP s.cells }
    else { s with numLines := s.numLines + 1 }
  -- A carriage return leaves column 1 in `toLeft`.
  else if ch = 13 then { s with temp2 := maxwidth * s.numLines, toLeft := 0 }.advance
  else (s.store ch).advance

end Console

/-! ## Cells after the loops -/

namespace Console

variable {cells after : Nat → UInt8} {n : Nat}

/-- The first `n` cells have been overwritten by those one row below. -/
def Rolled (cells : Nat → UInt8) (n : Nat) (after : Nat → UInt8) : Prop :=
  ∀ k, after k = if k < n then cells (k + 80) else cells k

theorem Rolled.next (rolled : Rolled cells n after) :
    Rolled cells (n + 1) (Function.update after n (after (n + 80))) := by
  intro k
  -- The cell that is read has not been overwritten yet.
  have read : after (n + 80) = cells (n + 80) := by rw [rolled, if_neg (by omega)]
  by_cases here : k = n
  · subst here
    rw [Function.update_self, read, if_pos (Nat.lt_succ_self k)]
  · rw [Function.update_of_ne here, rolled]
    exact if_congr (by omega) rfl rfl

theorem Rolled.row {i : Nat} (rolled : Rolled cells (80 * i) after) :
    Rolled cells (80 * (i + 1)) (rounds maxwidth (fun j cells =>
      Function.update cells (i * maxwidth + j) (cells ((i + 1) * maxwidth + j))) after) := by
  refine rounds_inv (I := fun j t => Rolled cells (80 * i + j) t) rolled fun j t _ left => ?_
  have place : i * maxwidth + j = 80 * i + j := by simp only [maxwidth]; omega
  have read : (i + 1) * maxwidth + j = 80 * i + j + 80 := by simp only [maxwidth]; omega
  rw [place, read]
  exact left.next

/-- `n` cells from `lo` on hold `c`. -/
def Filled (before : Nat → UInt8) (c : UInt8) (lo n : Nat) (after : Nat → UInt8) : Prop :=
  ∀ k, after k = if lo ≤ k ∧ k < lo + n then c else before k

theorem Filled.next {c : UInt8} {lo : Nat} (filled : Filled cells c lo n after) :
    Filled cells c lo (n + 1) (Function.update after (lo + n) c) := by
  intro k
  by_cases here : k = lo + n
  · subst here
    rw [Function.update_self, if_pos (by omega)]
  · rw [Function.update_of_ne here, filled]
    exact if_congr (by omega) rfl rfl

/-- A cell after `rollUP`: moved, wiped, or in the last row and left alone. -/
theorem rollUP_apply (cells : Nat → UInt8) (k : Nat) : rollUP cells k =
    if k < 80 * 23 then cells (k + 80) else if k < 80 * 24 then 0 else cells k := by
  have moved := rounds_inv (n := maxheight) (s := cells) (I := fun i => Rolled cells (80 * i))
    (fun k => by simp) fun i before _ rolled => rolled.row
  have wiped (before : Nat → UInt8) := rounds_inv (n := maxwidth) (s := before)
    (I := Filled before 0 (maxwidth * (maxheight - 1))) (fun k => by simp)
    fun i after _ filled => filled.next
  rw [rollUP, wiped, moved]
  simp only [maxwidth, maxheight]
  split_ifs <;> first | rfl | omega

/-- The inner loop of `clearScreen`. -/
theorem clear_row {t : Console} {i : Nat} (start : t.temp2 = 80 * i)
    (filled : Filled cells 32 0 t.temp2 t.cells) :
    let t' := rounds maxwidth (fun _ s =>
      { s with cells := Function.update s.cells s.temp2 32, temp2 := s.temp2 + 1 }) t
    t'.temp2 = 80 * (i + 1) ∧ Filled cells 32 0 t'.temp2 t'.cells := by
  refine rounds_inv
    (I := fun j (t : Console) => t.temp2 = 80 * i + j ∧ Filled cells 32 0 t.temp2 t.cells)
    ⟨start, filled⟩ fun j t _ done => ?_
  obtain ⟨place, filled⟩ := done
  exact ⟨by rw [← Nat.add_assoc, ← place], by simpa using filled.next⟩

theorem clearScreen_eq (s : Console) : ∃ cells, (∀ k, k < 80 * 25 → cells k = 32) ∧
    s.clearScreen = { cells := cells, temp2 := 0, toLeft := 0, numLines := 0 } := by
  have all := rounds_inv (n := maxheight + 1) (s := { s with temp2 := 0 })
    (I := fun i t => t.temp2 = 80 * i ∧ Filled s.cells 32 0 t.temp2 t.cells)
    ⟨rfl, fun k => by simp⟩ fun i t _ done => clear_row done.1 done.2
  refine ⟨_, fun k inside => ?_, rfl⟩
  have filled := all.2 k
  rw [all.1, if_pos (by simp only [maxheight]; omega)] at filled
  exact filled

end Console

end LateOS
