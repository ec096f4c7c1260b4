import LateOS.Lib.Trace

/-!
# Counting down

Some steps of a run are counted. Where each of them makes a measure smaller and no other step makes
it larger, the run reaches its goal when it has counted as many steps as the measure says.
-/
namespace LateOS.Lib

variable {σ α : Type} {Step : σ → α → σ → Prop} {counted : σ → α → Prop} {Inv goal : σ → Prop}
  {measure : σ → Nat} {s : σ} {run : List (α × σ)}

/-- Until the goal is reached, `measure` counts down. -/
structure Countdown (Step : σ → α → σ → Prop) (counted : σ → α → Prop) (Inv goal : σ → Prop)
    (measure : σ → Nat) : Prop where
  keeps : ∀ s a t, Inv s → ¬goal s → Step s a t → Inv t
  holds : ∀ s a t, Inv s → ¬goal s → Step s a t → ¬counted s a → measure t ≤ measure s
  drops : ∀ s a t, Inv s → ¬goal s → Step s a t → counted s a → measure t < measure s

/-- What else survives the steps before the goal. -/
theorem Countdown.and {Inv' : σ → Prop} (countdown : Countdown Step counted Inv goal measure)
    (keeps : ∀ s a t, Inv s → Inv' s → ¬goal s → Step s a t → Inv' t) :
    Countdown Step counted (fun s => Inv s ∧ Inv' s) goal measure where
  keeps s a t both away taken :=
    ⟨countdown.keeps s a t both.1 away taken, keeps s a t both.1 both.2 away taken⟩
  holds s a t both := countdown.holds s a t both.1
  drops s a t both := countdown.drops s a t both.1

/-- How many steps of the run are counted. -/
def tally (counted : σ → α → Prop) [∀ s a, Decidable (counted s a)] : σ → List (α × σ) → Nat
  | _, [] => 0
  | s, (a, t) :: rest => (if counted s a then 1 else 0) + tally counted t rest

variable [∀ s a, Decidable (counted s a)]

/-- The goal is reached, for the first time, with no more counted steps than the measure says. -/
theorem Countdown.reaches (countdown : Countdown Step counted Inv goal measure)
    (least : ∀ s, Inv s → measure s = 0 → goal s) (start : Inv s) (ran : Along Step s run)
    (enough : measure s ≤ tally counted s run) :
    ∃ front back, run = front ++ back ∧ Along (fun s _ _ => Inv s ∧ ¬goal s) s front ∧
      Inv (lastState s front) ∧ goal (lastState s front) ∧ tally counted s front ≤ measure s := by
  induction run generalizing s with
  | nil =>
    have there := least s start (Nat.le_zero.mp enough)
    exact ⟨[], [], rfl, along_nil _ _, start, there, Nat.zero_le _⟩
  | cons step rest ih =>
    obtain ⟨a, t⟩ := step
    rw [along_cons] at ran
    obtain ⟨taken, ran⟩ := ran
    -- The run may have reached its goal before its first step.
    by_cases there : goal s
    · exact ⟨[], _, rfl, along_nil _ _, start, there, Nat.zero_le _⟩
    have after := countdown.keeps s a t start there taken
    rw [tally] at enough
    by_cases counts : counted s a
    · have less := countdown.drops s a t start there taken counts
      rw [if_pos counts] at enough
      obtain ⟨front, back, rfl, early, inv, reached, few⟩ := ih after ran (by omega)
      refine ⟨(a, t) :: front, back, rfl, ?_, inv, reached, ?_⟩
      · exact (along_cons ..).mpr ⟨⟨start, there⟩, early⟩
      · rw [tally, if_pos counts]
        omega
    · have same := countdown.holds s a t start there taken counts
      rw [if_neg counts] at enough
      obtain ⟨front, back, rfl, early, inv, reached, few⟩ := ih after ran (by omega)
      refine ⟨(a, t) :: front, back, rfl, ?_, inv, reached, ?_⟩
      · exact (along_cons ..).mpr ⟨⟨start, there⟩, early⟩
      · rw [tally, if_neg counts]
        omega

end LateOS.Lib
