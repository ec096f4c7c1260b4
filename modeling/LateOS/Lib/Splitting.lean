import Mathlib.Data.List.Basic

/-!
# Splitting at a delimiter

The pieces that `List.splitOn` makes of a list: how many there are, what is in them, and the list
again from the pieces with a delimiter behind each.
-/
namespace LateOS.Lib

variable {α : Type} [DecidableEq α] {d : α} {p : List α}

theorem splitOn_length (d : α) (l : List α) : (l.splitOn d).length = l.count d + 1 := by
  induction l with
  | nil => simp
  | cons c rest ih =>
    rw [List.splitOn_cons_eq_if_modifyHead]
    by_cases last : c = d
    · rw [if_pos (by simpa using last), List.length_cons, ih, last, List.count_cons_self]
    · rw [if_neg (by simpa using last), List.length_modifyHead, ih, List.count_cons_of_ne last]

/-- A piece is made of elements of the list, and none of them is a delimiter. -/
theorem splitOn_piece {l : List α} (member : p ∈ l.splitOn d) : p.Sublist l ∧ d ∉ p := by
  induction l generalizing p with
  | nil =>
    rw [List.splitOn_nil, List.mem_singleton] at member
    rw [member]
    exact ⟨List.Sublist.slnil, List.not_mem_nil⟩
  | cons c rest ih =>
    rw [List.splitOn_cons_eq_if_modifyHead] at member
    by_cases last : c = d
    · rw [if_pos (by simpa using last)] at member
      rcases List.mem_cons.mp member with rfl | later
      · exact ⟨List.nil_sublist _, List.not_mem_nil⟩
      · exact ⟨(ih later).1.cons c, (ih later).2⟩
    · rw [if_neg (by simpa using last)] at member
      obtain ⟨q, qs, split⟩ := List.exists_cons_of_ne_nil (List.splitOn_ne_nil d rest)
      rw [split] at ih member
      rcases List.mem_cons.mp member with rfl | later
      · obtain ⟨sub, apart⟩ := ih List.mem_cons_self
        refine ⟨sub.cons_cons c, fun inside => ?_⟩
        rcases List.mem_cons.mp inside with same | further
        · exact last same.symm
        · exact apart further
      · obtain ⟨sub, apart⟩ := ih (List.mem_cons_of_mem _ later)
        exact ⟨sub.cons c, apart⟩

/-- What stands in front of the first delimiter. -/
theorem takeWhile_before {front : List α} (rest : List α) (apart : d ∉ front) :
    (front ++ d :: rest).takeWhile (· ≠ d) = front := by
  rw [List.takeWhile_append_of_pos, List.takeWhile_cons_of_neg (by simp), List.append_nil]
  intro c member
  simpa using fun same : c = d => apart (same ▸ member)

/-- The last piece is empty where a list ends in its delimiter. -/
theorem splitOn_getLast? (d : α) (l : List α) :
    (l.splitOn d).getLast? = some [] ↔ l = [] ∨ l.getLast? = some d := by
  induction l with
  | nil => simp
  | cons c rest ih =>
    obtain ⟨p, ps, split⟩ := List.exists_cons_of_ne_nil (List.splitOn_ne_nil d rest)
    rw [List.splitOn_cons_eq_if_modifyHead]
    rw [split] at ih ⊢
    by_cases last : c = d
    · subst last
      rw [if_pos (beq_self_eq_true _), List.getLast?_cons_cons, ih]
      cases rest with
      | nil => simp
      | cons e rest => simp
    · rw [if_neg (by simpa using last), List.modifyHead_cons]
      cases rest with
      | nil =>
        simp only [List.splitOn_nil, List.cons.injEq] at split
        obtain ⟨rfl, rfl⟩ := split
        simpa using last
      | cons e rest =>
        cases ps with
        | nil =>
          -- There is no delimiter in what is one piece.
          have apart : ¬(e :: rest).getLast? = some d := by
            intro ends
            have one := ih.mpr (Or.inr ends)
            rw [List.getLast?_singleton, Option.some_inj] at one
            have whole := congrArg (List.intercalate [d]) split
            rw [List.intercalate_splitOn, one] at whole
            cases whole
          simpa using apart
        | cons q qs =>
          rw [List.getLast?_cons_cons] at ih ⊢
          rw [ih]
          simp

end LateOS.Lib
