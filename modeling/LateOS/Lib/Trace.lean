import Mathlib.Logic.Function.Basic

/-!
# Labelled runs

A run of a labelled transition system is the list of its labels, each paired with
the state it leads to. `Along` says that a relation holds at every step of a run, so
a run *is* a list along which the step relation holds, and a property of runs is
another such relation.
-/
namespace LateOS.Lib

variable {σ α : Type}

/-- `P` holds of every step of the run that starts in `s`. -/
def Along (P : σ → α → σ → Prop) : σ → List (α × σ) → Prop
  | _, [] => True
  | s, (a, t) :: rest => P s a t ∧ Along P t rest

/-- The state a run ends in. -/
def lastState : σ → List (α × σ) → σ
  | s, [] => s
  | _, (_, t) :: rest => lastState t rest

@[simp] theorem along_nil (P : σ → α → σ → Prop) (s : σ) : Along P s [] := trivial

@[simp] theorem along_cons (P : σ → α → σ → Prop) (s t : σ) (a : α) (rest : List (α × σ)) :
    Along P s ((a, t) :: rest) ↔ P s a t ∧ Along P t rest := Iff.rfl

instance (P : σ → α → σ → Prop) [∀ s a t, Decidable (P s a t)] :
    ∀ (s : σ) (run : List (α × σ)), Decidable (Along P s run)
  | _, [] => isTrue trivial
  | s, (a, t) :: rest =>
    have := instDecidableAlong P t rest
    inferInstanceAs (Decidable (P s a t ∧ Along P t rest))

@[simp] theorem lastState_append (s : σ) (run more : List (α × σ)) :
    lastState s (run ++ more) = lastState (lastState s run) more := by
  induction run generalizing s with
  | nil => rfl
  | cons step rest ih => exact ih step.2

theorem along_append {P : σ → α → σ → Prop} {s : σ} {run more : List (α × σ)} :
    Along P s (run ++ more) ↔ Along P s run ∧ Along P (lastState s run) more := by
  induction run generalizing s with
  | nil => simp [lastState]
  | cons step rest ih =>
    obtain ⟨a, t⟩ := step
    rw [List.cons_append, along_cons, along_cons, ih, and_assoc]
    rfl

theorem Along.mono {P Q : σ → α → σ → Prop} (weaker : ∀ s a t, P s a t → Q s a t)
    {s : σ} {run : List (α × σ)} (along : Along P s run) : Along Q s run := by
  induction run generalizing s with
  | nil => trivial
  | cons step rest ih =>
    obtain ⟨a, t⟩ := step
    exact ⟨weaker s a t along.1, ih along.2⟩

theorem Along.and {P Q : σ → α → σ → Prop} {s : σ} {run : List (α × σ)}
    (left : Along P s run) (right : Along Q s run) :
    Along (fun s a t => P s a t ∧ Q s a t) s run := by
  induction run generalizing s with
  | nil => trivial
  | cons step rest ih =>
    obtain ⟨a, t⟩ := step
    exact ⟨⟨left.1, right.1⟩, ih left.2 right.2⟩

/-- The invariant rule: what holds at the start and survives each step holds before
and after every step of the run. -/
theorem Along.invariant {Step : σ → α → σ → Prop} {Inv : σ → Prop}
    (preserved : ∀ s a t, Inv s → Step s a t → Inv t)
    {s : σ} {run : List (α × σ)} (initial : Inv s) (along : Along Step s run) :
    Along (fun s a t => Inv s ∧ Step s a t ∧ Inv t) s run := by
  induction run generalizing s with
  | nil => trivial
  | cons step rest ih =>
    obtain ⟨a, t⟩ := step
    have after := preserved s a t initial along.1
    exact ⟨⟨initial, along.1, after⟩, ih after along.2⟩

/-- The invariant rule at the end of the run. -/
theorem Along.invariant_last {Step : σ → α → σ → Prop} {I : σ → Prop}
    (preserved : ∀ s a t, I s → Step s a t → I t)
    {s : σ} {run : List (α × σ)} (initial : I s) (along : Along Step s run) :
    I (lastState s run) := by
  induction run generalizing s with
  | nil => exact initial
  | cons step rest ih => exact ih (preserved s step.1 step.2 initial along.1) along.2

/-- What holds at the start and after every step holds at the end. -/
theorem Along.last {Q : σ → Prop} {s : σ} {run : List (α × σ)} (initial : Q s)
    (along : Along (fun _ _ t => Q t) s run) : Q (lastState s run) := by
  induction run generalizing s with
  | nil => exact initial
  | cons step rest ih => exact ih along.1 along.2

/-- Two step properties that agree at every step a run can take, given the invariant,
agree on whole runs. -/
theorem Along.congr {Step P Q : σ → α → σ → Prop} {Inv : σ → Prop}
    (preserved : ∀ s a t, Inv s → Step s a t → Inv t)
    (agree : ∀ s a t, Inv s → Step s a t → (P s a t ↔ Q s a t))
    {s : σ} {run : List (α × σ)} (initial : Inv s) (along : Along Step s run) :
    Along P s run ↔ Along Q s run := by
  induction run generalizing s with
  | nil => exact Iff.rfl
  | cons step rest ih =>
    obtain ⟨a, t⟩ := step
    rw [along_cons, along_cons, agree s a t initial along.1,
      ih (preserved s a t initial along.1) along.2]

/-- A state property that each step keeps exactly when the step meets `Ok` holds in
every state of a run exactly when every step of the run meets `Ok`. -/
theorem Along.exact {Step : σ → α → σ → Prop} {Ok : σ → α → Prop} {Inv Q : σ → Prop}
    (preserved : ∀ s a t, Inv s → Step s a t → Inv t)
    (kept : ∀ s a t, Inv s → Q s → Step s a t → (Q t ↔ Ok s a))
    {s : σ} {run : List (α × σ)} (initial : Inv s) (holds : Q s) (along : Along Step s run) :
    Along (fun _ _ t => Q t) s run ↔ Along (fun s a _ => Ok s a) s run := by
  induction run generalizing s with
  | nil => exact Iff.rfl
  | cons step rest ih =>
    obtain ⟨a, t⟩ := step
    rw [along_cons, along_cons, ← kept s a t initial holds along.1]
    constructor
    · rintro ⟨now, later⟩
      exact ⟨now, (ih (preserved s a t initial along.1) now along.2).mp later⟩
    · rintro ⟨now, later⟩
      exact ⟨now, (ih (preserved s a t initial along.1) now along.2).mpr later⟩

/-- The same for a property of steps, when an invariant carries it through the steps that meet
`Ok`, and no other step has the property. -/
theorem Along.exact_of_strong {Step P : σ → α → σ → Prop} {Ok : σ → α → Prop} {I : σ → Prop}
    (kept : ∀ s a t, I s → Step s a t → Ok s a → I t ∧ P s a t)
    (broken : ∀ s a t, I s → Step s a t → ¬Ok s a → ¬P s a t)
    {s : σ} {run : List (α × σ)} (initial : I s) (along : Along Step s run) :
    Along P s run ↔ Along (fun s a _ => Ok s a) s run := by
  induction run generalizing s with
  | nil => exact Iff.rfl
  | cons step rest ih =>
    obtain ⟨a, t⟩ := step
    rw [along_cons, along_cons]
    constructor
    · rintro ⟨now, later⟩
      have ok : Ok s a := by
        by_contra bad
        exact broken s a t initial along.1 bad now
      have strong := (kept s a t initial along.1 ok).1
      exact ⟨ok, (ih strong along.2).mp later⟩
    · rintro ⟨ok, later⟩
      obtain ⟨strong, now⟩ := kept s a t initial along.1 ok
      exact ⟨now, (ih strong along.2).mpr later⟩

/-- The run of a step function under a list of labels, up to the first one refused. -/
def follow (step : σ → α → Option σ) : σ → List α → List (α × σ)
  | _, [] => []
  | s, a :: rest =>
    match step s a with
    | some t => (a, t) :: follow step t rest
    | none => []

theorem follow_some {step : σ → α → Option σ} {s t : σ} {a : α} (stepped : step s a = some t)
    (rest : List α) : follow step s (a :: rest) = (a, t) :: follow step t rest := by
  rw [follow, stepped]

theorem along_follow (step : σ → α → Option σ) (s : σ) (labels : List α) :
    Along (fun s a t => step s a = some t) s (follow step s labels) := by
  induction labels generalizing s with
  | nil => trivial
  | cons a rest ih =>
    rw [follow]
    split
    next t stepped => exact ⟨stepped, ih t⟩
    next => trivial

/-- What holds of every step with one of the labels. -/
theorem along_follow_of {P : σ → α → σ → Prop} {labels : List α}
    (each : ∀ a ∈ labels, ∀ s t, P s a t) (step : σ → α → Option σ) (s : σ) :
    Along P s (follow step s labels) := by
  induction labels generalizing s with
  | nil => trivial
  | cons a rest ih =>
    rw [follow]
    split
    next t stepped => exact ⟨each a (by simp) s t, ih (fun b member => each b (by simp [member])) t⟩
    next => trivial

-- A concrete run must not be executed whenever its type is looked at.
attribute [irreducible] Along

end LateOS.Lib
