import Mathlib.Data.List.Nodup
import Mathlib.Logic.Function.Basic

/-!
# Moves between places

A list of moves is carried out one after the other. If no move reads a place that an earlier one
has written, then the result is that of all moves at once.
-/
namespace LateOS.Lib

variable {α β : Type} [DecidableEq α] {moves : List (α × α)} {m : α → β} {a dest src : α}

/-- A move stores at its first place what lies at its second. -/
def carryOut : List (α × α) → (α → β) → α → β
  | [], m => m
  | (dest, src) :: rest, m => carryOut rest (Function.update m dest (m src))

/-- No move reads what an earlier one wrote, and no two write the same place. -/
structure ReadsFirst (moves : List (α × α)) : Prop where
  reads : moves.Pairwise fun earlier later => later.2 ≠ earlier.1
  writes : (moves.map Prod.fst).Nodup

theorem carryOut_other (outside : a ∉ moves.map Prod.fst) : carryOut moves m a = m a := by
  induction moves generalizing m with
  | nil => rfl
  | cons move rest ih =>
    rw [List.map_cons, List.mem_cons, not_or] at outside
    rw [carryOut, ih outside.2, Function.update_of_ne outside.1]

theorem carryOut_of_mem (first : ReadsFirst moves) (member : (dest, src) ∈ moves) :
    carryOut moves m dest = m src := by
  induction moves generalizing m with
  | nil => cases member
  | cons move rest ih =>
    obtain ⟨readsHead, reads⟩ := List.pairwise_cons.mp first.reads
    obtain ⟨writesHead, writes⟩ := List.nodup_cons.mp first.writes
    rw [carryOut]
    rcases List.mem_cons.mp member with rfl | later
    · rw [carryOut_other writesHead, Function.update_self]
    -- What a later move reads is still what it was before the first.
    · rw [ih ⟨reads, writes⟩ later, Function.update_of_ne (readsHead _ later)]

end LateOS.Lib
