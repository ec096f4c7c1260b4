import Mathlib.Data.List.Basic

/-!
# Paths

Paths as lists of components: how they are written with a separator behind each component, and
how they are resolved from a directory when one component stands for the directory above.
-/
namespace LateOS.Lib

variable {α : Type}

/-- Each component with a separator behind it. -/
def render (sep : α) (path : List (List α)) : List α := path.flatMap (· ++ [sep])

/-- The components from left to right; `up` goes back by one and stays at the root. -/
def resolve [DecidableEq α] (up : List α) (dir path : List (List α)) : List (List α) :=
  path.foldl (fun dir c => if c = up then dir.dropLast else dir ++ [c]) dir

section Render

variable (sep : α) (path rest : List (List α)) (c : List α)

@[simp] theorem render_nil : render sep [] = [] := rfl

@[simp] theorem render_cons : render sep (c :: path) = c ++ sep :: render sep path := by
  simp [render]

@[simp] theorem render_append : render sep (path ++ rest) = render sep path ++ render sep rest := by
  simp [render]

theorem render_eq_nil {sep : α} {path : List (List α)} : render sep path = [] ↔ path = [] := by
  cases path <;> simp

/-- A path that is not the root ends with the separator. -/
theorem render_getLast {sep : α} {path : List (List α)} (some : path ≠ []) :
    (render sep path).getLast? = Option.some sep := by
  obtain ⟨init, c, rfl⟩ := List.eq_nil_or_concat path |>.resolve_left some
  simp

/-- Without the separator behind the last component. -/
theorem intercalate_concat (sep : α) (path : List (List α)) (c : List α) :
    [sep].intercalate (path ++ [c]) = render sep path ++ c := by
  induction path with
  | nil => simp
  | cons d rest ih =>
    rw [List.cons_append, List.intercalate_cons_of_ne_nil (by simp), ih]
    simp

/-- A character of a path is the separator, or one of a component. -/
theorem mem_render {sep x : α} {path : List (List α)} (member : x ∈ render sep path) :
    x = sep ∨ ∃ c ∈ path, x ∈ c := by
  obtain ⟨c, inside, here⟩ := List.mem_flatMap.mp member
  rcases List.mem_append.mp here with own | last
  · exact Or.inr ⟨c, inside, own⟩
  · exact Or.inl (List.mem_singleton.mp last)

end Render

section Resolve

variable [DecidableEq α] {up c : List α} {dir path rest : List (List α)}

@[simp] theorem resolve_nil : resolve up dir [] = dir := rfl

@[simp] theorem resolve_up : resolve up dir (up :: path) = resolve up dir.dropLast path := by
  simp [resolve]

theorem resolve_cons (other : c ≠ up) : resolve up dir (c :: path) = resolve up (dir ++ [c]) path := by
  simp [resolve, other]

theorem resolve_append : resolve up dir (path ++ rest) = resolve up (resolve up dir path) rest := by
  simp [resolve]

/-- A path that never goes up is resolved to itself. -/
theorem resolve_plain (plain : ∀ c ∈ path, c ≠ up) : resolve up dir path = dir ++ path := by
  induction path generalizing dir with
  | nil => simp
  | cons c rest ih =>
    rw [resolve_cons (plain c List.mem_cons_self),
      ih fun d member => plain d (List.mem_cons_of_mem c member)]
    simp

theorem resolve_concat (other : c ≠ up) :
    resolve up dir (path ++ [c]) = resolve up dir path ++ [c] := by
  rw [resolve_append, resolve_cons other, resolve_nil]

theorem resolve_concat_up : resolve up dir (path ++ [up]) = (resolve up dir path).dropLast := by
  rw [resolve_append, resolve_up, resolve_nil]

/-- Resolving a path does not make it longer. -/
theorem resolve_length (sep : α) : (render sep (resolve up dir path)).length ≤
    (render sep dir).length + (render sep path).length := by
  induction path generalizing dir with
  | nil => simp
  | cons d rest ih =>
    by_cases here : d = up
    · have shorter : (render sep dir.dropLast).length ≤ (render sep dir).length := by
        rcases List.eq_nil_or_concat dir with rfl | ⟨init, e, rfl⟩
        · simp
        · simp
      have later := @ih dir.dropLast
      rw [here, resolve_up]
      simp only [render_cons, List.length_append, List.length_cons]
      omega
    · have later := @ih (dir ++ [d])
      rw [resolve_cons here]
      simp only [render_append, render_cons, render_nil, List.length_append, List.length_cons,
        List.length_nil] at later ⊢
      omega

/-- What is resolved consists of components that were there. -/
theorem mem_resolve (member : c ∈ resolve up dir path) : c ∈ dir ∨ (c ∈ path ∧ c ≠ up) := by
  induction path generalizing dir with
  | nil => exact Or.inl member
  | cons d rest ih =>
    by_cases here : d = up
    · rw [here, resolve_up] at member
      rcases ih member with old | ⟨new, other⟩
      · exact Or.inl ((List.dropLast_prefix dir).mem old)
      · exact Or.inr ⟨List.mem_cons_of_mem d new, other⟩
    · rw [resolve_cons here] at member
      rcases ih member with old | ⟨new, other⟩
      · rcases List.mem_append.mp old with old | same
        · exact Or.inl old
        · cases List.mem_singleton.mp same
          exact Or.inr ⟨List.mem_cons_self, here⟩
      · exact Or.inr ⟨List.mem_cons_of_mem d new, other⟩

end Resolve

end LateOS.Lib
