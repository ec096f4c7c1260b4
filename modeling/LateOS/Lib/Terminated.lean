import LateOS.Lib.Layout
import Mathlib.Logic.Function.Basic

/-!
# Sequences with a terminator

Sequences that lie in memory up to a cell with a value of its own, and the loop that copies one
cell after the other until it meets that value. The copy comes to its end exactly if it does not
overwrite the terminator before it has read it.
-/
namespace LateOS.Lib

variable {α : Type} {z c : α} {m m' : Nat → α} {s t : List α} {a b dst src fuel : Nat}

/-- The sequence at `a`, with the terminator behind it. -/
structure Terminated (z : α) (m : Nat → α) (a : Nat) (s : List α) : Prop where
  apart : z ∉ s
  held : HeldAt m a (s ++ [z])

/-- Memory with a list at address `a`. -/
def overlay (m : Nat → α) (a : Nat) (l : List α) : Nat → α := fun x =>
  if a ≤ x then (l[x - a]?).getD (m x) else m x

namespace Terminated

theorem cell (term : Terminated z m a s) {i : Nat} (inside : i < s.length) :
    m (a + i) = s[i] := by
  apply term.held i
  rw [List.getElem?_append_left inside, List.getElem?_eq_getElem inside]

theorem last (term : Terminated z m a s) : m (a + s.length) = z := by
  apply term.held s.length
  rw [List.getElem?_append_right (Nat.le_refl _), Nat.sub_self]
  rfl

theorem of_cells (apart : z ∉ s) (cells : ∀ i (inside : i < s.length), m (a + i) = s[i])
    (last : m (a + s.length) = z) : Terminated z m a s := by
  refine ⟨apart, fun i cell here => ?_⟩
  rcases Nat.lt_or_ge i s.length with inside | past
  · rw [List.getElem?_append_left inside] at here
    rw [cells i inside]
    exact (List.getElem?_eq_some_iff.mp here).2
  · rw [List.getElem?_append_right past] at here
    obtain ⟨below, value⟩ := List.getElem?_eq_some_iff.mp here
    obtain rfl : i = s.length := by
      rw [List.length_singleton] at below
      omega
    rw [last, ← value]
    simp

@[simp] theorem nil_iff : Terminated z m a [] ↔ m a = z :=
  ⟨fun term => term.last, fun last => of_cells List.not_mem_nil
    (fun _ inside => absurd inside (Nat.not_lt_zero _)) last⟩

theorem cons_iff : Terminated z m a (c :: s) ↔ z ≠ c ∧ m a = c ∧ Terminated z m (a + 1) s := by
  constructor
  · intro term
    have rest := List.not_mem_of_not_mem_cons term.apart
    refine ⟨List.ne_of_not_mem_cons term.apart, term.cell (Nat.zero_lt_succ _), of_cells rest ?_ ?_⟩
    · intro i inside
      rw [Nat.add_assoc, Nat.add_comm 1 i]
      exact term.cell (Nat.succ_lt_succ inside)
    · rw [Nat.add_assoc, Nat.add_comm 1]
      exact term.last
  · rintro ⟨other, first, term⟩
    refine of_cells (List.not_mem_cons_of_ne_of_not_mem other term.apart) (fun i inside => ?_) ?_
    · cases i with
      | zero => exact first
      | succ i =>
        have next := term.cell (Nat.lt_of_succ_lt_succ inside)
        rwa [Nat.add_assoc, Nat.add_comm 1 i] at next
    · have next := term.last
      rwa [Nat.add_assoc, Nat.add_comm 1] at next

/-- What does not touch the sequence leaves it. -/
theorem keep (term : Terminated z m a s) (same : ∀ i ≤ s.length, m' (a + i) = m (a + i)) :
    Terminated z m' a s :=
  of_cells term.apart (fun i inside => (same i (Nat.le_of_lt inside)).trans (term.cell inside))
    ((same _ (Nat.le_refl _)).trans term.last)

/-- Memory has one sequence at an address. -/
theorem unique (term : Terminated z m a s) (other : Terminated z m a t) : s = t := by
  induction s generalizing a t with
  | nil =>
    cases t with
    | nil => rfl
    | cons d t =>
      obtain ⟨apart, here, -⟩ := cons_iff.mp other
      exact absurd ((nil_iff.mp term).symm.trans here) apart
  | cons c s ih =>
    obtain ⟨apart, here, rest⟩ := cons_iff.mp term
    cases t with
    | nil => exact absurd ((nil_iff.mp other).symm.trans here) apart
    | cons d t =>
      obtain ⟨-, there, back⟩ := cons_iff.mp other
      rw [ih rest back, ← here, ← there]

/-- The end of a sequence is a sequence. -/
theorem drop (term : Terminated z m a s) {n : Nat} (within : n ≤ s.length) :
    Terminated z m (a + n) (s.drop n) := by
  induction n generalizing a s with
  | zero => exact term
  | succ n ih =>
    cases s with
    | nil => exact absurd within (Nat.not_succ_le_zero n)
    | cons c s =>
      have next := ih (cons_iff.mp term).2.2 (Nat.le_of_succ_le_succ within)
      rw [Nat.add_assoc, Nat.add_comm 1] at next
      exact next

/-- A sequence goes on with another one in the place of its terminator. -/
theorem append (apart : z ∉ s) (cells : ∀ i (inside : i < s.length), m (a + i) = s[i])
    (term : Terminated z m (a + s.length) t) : Terminated z m a (s ++ t) := by
  induction s generalizing a with
  | nil => exact term
  | cons c s ih =>
    refine cons_iff.mpr ⟨List.ne_of_not_mem_cons apart, cells 0 (Nat.zero_lt_succ _), ?_⟩
    refine ih (List.not_mem_of_not_mem_cons apart) (fun i inside => ?_) ?_
    · rw [Nat.add_assoc, Nat.add_comm 1 i]
      exact cells (i + 1) (Nat.succ_lt_succ inside)
    · rw [Nat.add_assoc, Nat.add_comm 1]
      exact term

end Terminated

/-! ## Overlays -/

theorem overlay_inside {l : List α} {i : Nat} (inside : i < l.length) :
    overlay m a l (a + i) = l[i] := by
  unfold overlay
  rw [if_pos (Nat.le_add_right a i), Nat.add_sub_cancel_left, List.getElem?_eq_getElem inside]
  rfl

theorem overlay_outside {l : List α} {x : Nat} (outside : x < a ∨ a + l.length ≤ x) :
    overlay m a l x = m x := by
  unfold overlay
  split
  next above =>
    rw [List.getElem?_eq_none (by omega)]
    rfl
  next => rfl

@[simp] theorem overlay_nil : overlay m a [] = m := by
  funext x
  exact overlay_outside (by rw [List.length_nil]; omega)

theorem overlay_cons {l : List α} : overlay m a (c :: l) =
    overlay (Function.update m a c) (a + 1) l := by
  funext x
  rcases Nat.lt_trichotomy x a with below | rfl | above
  · rw [overlay_outside (.inl below), overlay_outside (.inl (by omega)),
      Function.update_of_ne (by omega)]
  · rw [overlay_outside (a := x + 1) (.inl (by omega)), Function.update_self]
    exact overlay_inside (l := c :: l) (i := 0) (Nat.zero_lt_succ _)
  · obtain ⟨i, rfl⟩ : ∃ i, x = a + 1 + i := ⟨x - (a + 1), by omega⟩
    rcases Nat.lt_or_ge i l.length with inside | past
    · rw [overlay_inside inside, Nat.add_assoc, Nat.add_comm 1 i,
        overlay_inside (Nat.succ_lt_succ inside)]
      rfl
    · rw [overlay_outside (.inr (by rw [List.length_cons]; omega)),
        overlay_outside (.inr (by omega)), Function.update_of_ne (by omega)]

theorem overlay_terminated (apart : z ∉ s) : Terminated z (overlay m a (s ++ [z])) a s := by
  refine ⟨apart, fun i cell here => ?_⟩
  obtain ⟨inside, rfl⟩ := List.getElem?_eq_some_iff.mp here
  exact overlay_inside inside

/-! ## The copy -/

variable [DecidableEq α]

/-- `while (*src) *dst++ = *src++; *dst = 0`, with where `dst` is then. -/
def copyUntil (z : α) : Nat → (Nat → α) → Nat → Nat → Option ((Nat → α) × Nat)
  | 0, _, _, _ => none
  | fuel + 1, m, dst, src =>
    if m src = z then some (Function.update m dst z, dst)
    else copyUntil z fuel (Function.update m dst (m src)) (dst + 1) (src + 1)

/-- Downwards, or past the terminator, the copy is exact. -/
theorem copyUntil_apart (term : Terminated z m src s)
    (apart : dst ≤ src ∨ src + s.length < dst) (enough : s.length < fuel) :
    copyUntil z fuel m dst src = some (overlay m dst (s ++ [z]), dst + s.length) := by
  induction s generalizing m dst src fuel with
  | nil =>
    obtain ⟨fuel, rfl⟩ : ∃ more, fuel = more + 1 := ⟨fuel - 1, by omega⟩
    rw [copyUntil, if_pos (Terminated.nil_iff.mp term), List.nil_append, overlay_cons, overlay_nil]
    rfl
  | cons c s ih =>
    obtain ⟨fuel, rfl⟩ : ∃ more, fuel = more + 1 := ⟨fuel - 1, by omega⟩
    obtain ⟨other, here, rest⟩ := Terminated.cons_iff.mp term
    rw [List.length_cons] at apart enough
    -- The cell that is written is not one that is still to be read.
    have kept : Terminated z (Function.update m dst c) (src + 1) s :=
      rest.keep fun i _ => Function.update_of_ne (by omega) _ _
    rw [copyUntil, here, if_neg other.symm, ih kept (by omega) (by omega), List.cons_append,
      overlay_cons, List.length_cons, Nat.add_right_comm, Nat.add_assoc]

/-- From a copy that runs `d` cells ahead of itself and has met no terminator yet, the terminator
never comes. -/
theorem copyUntil_never {d : Nat} (ahead : 0 < d) (unmet : ∀ i < d, m (src + i) ≠ z) :
    copyUntil z fuel m (src + d) src = none := by
  induction fuel generalizing m src with
  | zero => rfl
  | succ fuel ih =>
    have first := unmet 0 ahead
    rw [Nat.add_zero] at first
    rw [copyUntil, if_neg first, Nat.add_right_comm]
    refine ih fun i below => ?_
    rw [Nat.add_assoc, Nat.add_comm 1 i]
    -- The last of the `d` cells is the one just written.
    by_cases last : i + 1 = d
    · rw [last, Function.update_self]
      exact first
    · rw [Function.update_of_ne (by omega)]
      exact unmet (i + 1) (by omega)

theorem copyUntil_mono {r : (Nat → α) × Nat} {more : Nat}
    (ended : copyUntil z fuel m dst src = some r) (most : fuel ≤ more) :
    copyUntil z more m dst src = some r := by
  induction fuel generalizing m dst src more with
  | zero => cases ended
  | succ fuel ih =>
    obtain ⟨more, rfl⟩ : ∃ rest, more = rest + 1 := ⟨more - 1, by omega⟩
    rw [copyUntil] at ended ⊢
    split at ended
    next last => rw [if_pos last, ended]
    next goes => rw [if_neg goes, ih ended (by omega)]

/-- The copy ends unless it begins behind its source and not behind the terminator. -/
theorem copyUntil_iff (term : Terminated z m src s) :
    (∃ fuel r, copyUntil z fuel m dst src = some r) ↔ ¬(src < dst ∧ dst ≤ src + s.length) := by
  constructor
  · rintro ⟨fuel, r, ended⟩ ⟨above, within⟩
    obtain ⟨d, rfl⟩ : ∃ d, dst = src + d := ⟨dst - src, by omega⟩
    rw [copyUntil_never (by omega) fun i below => ?_] at ended
    · cases ended
    · intro here
      have inside : i < s.length := by omega
      rw [term.cell inside] at here
      exact term.apart (here ▸ List.getElem_mem inside)
  · intro apart
    exact ⟨s.length + 1, _, copyUntil_apart term (by omega) (Nat.lt_succ_self _)⟩

/-- Where it ends, the copy is exact, and nothing else is written. -/
theorem copyUntil_eq_some {r : (Nat → α) × Nat} (term : Terminated z m src s)
    (ended : copyUntil z fuel m dst src = some r) :
    r = (overlay m dst (s ++ [z]), dst + s.length) := by
  have apart := (copyUntil_iff term).mp ⟨fuel, r, ended⟩
  have long := copyUntil_mono ended (Nat.le_max_left fuel (s.length + 1))
  rw [copyUntil_apart term (by omega) (by omega)] at long
  exact (Option.some.inj long).symm

end LateOS.Lib
