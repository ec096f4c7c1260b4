import Mathlib.Data.List.Basic
import Mathlib.Logic.Function.Basic

/-!
# Linked lists

Singly linked lists whose nodes lie in an array, or in memory: a pointer is an index or
nothing, and `next` follows the link of a node.
-/
namespace LateOS.Lib

variable {ι : Type} {next next' : ι → Option ι} {p : Option ι} {l : List ι}

/-- The pointer `p` leads through the nodes of `l`, in order, to the end of the list. -/
def Linked (next : ι → Option ι) : Option ι → List ι → Prop
  | p, [] => p = none
  | p, i :: rest => p = some i ∧ Linked next (next i) rest

namespace Linked

theorem congr (linked : Linked next p l) (same : ∀ i ∈ l, next' i = next i) :
    Linked next' p l := by
  induction l generalizing p with
  | nil => exact linked
  | cons i rest ih =>
    obtain ⟨here, later⟩ := linked
    refine ⟨here, ?_⟩
    rw [same i List.mem_cons_self]
    exact ih later fun j member => same j (List.mem_cons_of_mem i member)

/-- The nodes and the pointer to the first one determine each other. -/
theorem unique {l' : List ι} (linked : Linked next p l) (linked' : Linked next p l') : l = l' := by
  induction l generalizing p l' with
  | nil =>
    cases l' with
    | nil => rfl
    | cons j rest' => exact absurd (linked.symm.trans linked'.1) (by simp)
  | cons i rest ih =>
    cases l' with
    | nil => exact absurd (linked'.symm.trans linked.1) (by simp)
    | cons j rest' =>
      have same : i = j := Option.some.inj (linked.1.symm.trans linked'.1)
      subst same
      rw [ih linked.2 linked'.2]

theorem head_some {i : ι} (linked : Linked next p (l ++ [i])) : ∃ j, p = some j := by
  cases l with
  | nil => exact ⟨i, linked.1⟩
  | cons j rest => exact ⟨j, linked.1⟩

/-- A list can be entered at any of its nodes. -/
theorem drop {i : ι} {rest : List ι} (linked : Linked next p (l ++ i :: rest)) :
    Linked next (next i) rest := by
  induction l generalizing p with
  | nil => exact linked.2
  | cons j front ih => exact ih linked.2

/-- No node is passed twice. -/
theorem nodup (linked : Linked next p l) : l.Nodup := by
  induction l generalizing p with
  | nil => exact List.nodup_nil
  | cons i rest ih =>
    refine List.nodup_cons.mpr ⟨fun member => ?_, ih linked.2⟩
    -- From the second visit the list would go on as it did from the first.
    obtain ⟨front, back, split⟩ := List.append_of_mem member
    have later := linked.2
    rw [split] at later
    have same := congrArg List.length (linked.2.unique later.drop)
    rw [split, List.length_append, List.length_cons] at same
    omega

/-- Another link in one node gives the list another end. -/
theorem splice {i : ι} {rest rest' : List ι} (linked : Linked next p (l ++ i :: rest))
    (same : ∀ j ∈ l, next' j = next j) (after : Linked next' (next' i) rest') :
    Linked next' p (l ++ i :: rest') := by
  induction l generalizing p with
  | nil => exact ⟨linked.1, after⟩
  | cons j front ih =>
    refine ⟨linked.1, ?_⟩
    rw [same j List.mem_cons_self]
    exact ih linked.2 fun k member => same k (List.mem_cons_of_mem j member)

/-- A new node is linked in behind the last one. -/
theorem snoc [DecidableEq ι] {i j : ι} (linked : Linked next p (l ++ [i]))
    (nodup : (l ++ [i]).Nodup) (fresh : j ∉ l ++ [i]) :
    Linked (Function.update (Function.update next j none) i (some j)) p (l ++ [i] ++ [j]) := by
  have apart : j ≠ i := by
    rintro rfl
    exact fresh (by simp)
  induction l generalizing p with
  | nil =>
    refine ⟨linked.1, ?_⟩
    rw [Function.update_self]
    refine ⟨rfl, ?_⟩
    rw [Function.update_of_ne apart, Function.update_self]
    rfl
  | cons k rest ih =>
    obtain ⟨here, later⟩ := linked
    rw [List.cons_append, List.nodup_cons] at nodup
    rw [List.cons_append, List.mem_cons, not_or] at fresh
    refine ⟨here, ?_⟩
    -- The last node is not among the earlier ones, whose links stay as they are.
    have last : k ≠ i := by
      rintro rfl
      exact nodup.1 (by simp)
    rw [Function.update_of_ne last, Function.update_of_ne (Ne.symm fresh.1)]
    exact ih later nodup.2 fresh.2

end Linked

end LateOS.Lib
