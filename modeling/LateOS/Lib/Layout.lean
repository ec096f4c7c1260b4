import Mathlib.Algebra.BigOperators.Group.List.Basic
import Mathlib.Algebra.GroupWithZero.Nat

/-!
# Blocks in a row

A list of blocks that lie one behind the other in memory, each as long as its size says.
-/
namespace LateOS.Lib

variable {α β : Type} {size : α → Nat} {front rest blocks : List α} {a b : Nat}

/-- The length of the blocks together. -/
def roomOf (size : α → Nat) (blocks : List α) : Nat := (blocks.map size).sum

/-- The addresses at which the blocks begin, if the first one begins at `a`. -/
def starts (size : α → Nat) : Nat → List α → List Nat
  | _, [] => []
  | a, x :: rest => a :: starts size (a + size x) rest

@[simp] theorem roomOf_nil : roomOf size [] = 0 := rfl

@[simp] theorem roomOf_cons (x : α) : roomOf size (x :: rest) = size x + roomOf size rest :=
  List.sum_cons

theorem starts_append : starts size a (front ++ rest) =
    starts size a front ++ starts size (a + roomOf size front) rest := by
  induction front generalizing a with
  | nil => rfl
  | cons x front ih =>
    rw [List.cons_append, starts, starts, ih, roomOf_cons, Nat.add_assoc]
    rfl

/-- Blocks that are not empty begin before the end of the last one. -/
theorem starts_high (positive : ∀ x, 0 < size x) (member : b ∈ starts size a blocks) :
    b < a + roomOf size blocks := by
  induction blocks generalizing a with
  | nil => cases member
  | cons x rest ih =>
    have long := positive x
    rw [roomOf_cons]
    rcases List.mem_cons.mp member with rfl | later
    · omega
    · have before := ih later
      omega

/-- A block that begins at `b` has some of the blocks in front of it. -/
theorem starts_split (member : b ∈ starts size a blocks) :
    ∃ front x rest, blocks = front ++ x :: rest ∧ b = a + roomOf size front := by
  induction blocks generalizing a with
  | nil => cases member
  | cons x rest ih =>
    rcases List.mem_cons.mp member with rfl | later
    · exact ⟨[], x, rest, rfl, rfl⟩
    · obtain ⟨front, y, back, rfl, here⟩ := ih later
      refine ⟨x :: front, y, back, rfl, ?_⟩
      rw [here, roomOf_cons, Nat.add_assoc]

/-- Past the first blocks only the others begin. -/
theorem starts_past (positive : ∀ x, 0 < size x) (member : b ∈ starts size a (front ++ rest))
    (past : a + roomOf size front ≤ b) : b ∈ starts size (a + roomOf size front) rest := by
  rw [starts_append, List.mem_append] at member
  rcases member with early | late
  · have before := starts_high positive early
    omega
  · exact late

/-! ## Cells -/

/-- The cells lie in memory from `a` on. -/
def HeldAt (memory : Nat → β) (a : Nat) (cells : List β) : Prop :=
  ∀ i cell, cells[i]? = some cell → memory (a + i) = cell

variable {memory : Nat → β} {cells more : List β}

theorem HeldAt.left (held : HeldAt memory a (cells ++ more)) : HeldAt memory a cells := by
  intro i cell here
  apply held i cell
  rw [List.getElem?_append_left (List.getElem?_eq_some_iff.mp here).1, here]

theorem HeldAt.right (held : HeldAt memory a (cells ++ more)) :
    HeldAt memory (a + cells.length) more := by
  intro i cell here
  rw [Nat.add_assoc]
  apply held
  rw [List.getElem?_append_right (Nat.le_add_right _ _), Nat.add_sub_cancel_left, here]

theorem flatMap_length (size : α → Nat) (image : α → List β)
    (same : ∀ x, (image x).length = size x) :
    (blocks.flatMap image).length = roomOf size blocks := by
  rw [List.length_flatMap]
  exact congrArg List.sum (List.map_congr_left fun x _ => same x)

/-- The blocks behind the first ones lie behind these. -/
theorem HeldAt.past (image : α → List β) (same : ∀ x, (image x).length = size x)
    (held : HeldAt memory a ((front ++ rest).flatMap image)) :
    HeldAt memory (a + roomOf size front) (rest.flatMap image) := by
  rw [List.flatMap_append] at held
  rw [← flatMap_length size image same]
  exact held.right

end LateOS.Lib
