import Mathlib.Logic.Function.Basic

/-!
# Counted loops

`for (i = 0; i < n; i++)` over a state, with its invariant rule; first for a body that can
fail, then for one that cannot.
-/
namespace LateOS.Lib

variable {σ : Type}

/-- The body is run for 0, 1, … up to `n - 1`. -/
def loop : Nat → (Nat → σ → Option σ) → σ → Option σ
  | 0, _, s => some s
  | n + 1, body, s => (loop n body s).bind (body n)

/-- A body that keeps `I`, whose argument is the number of rounds done, leads to
`I n`. -/
theorem loop_inv {n : Nat} {body : Nat → σ → Option σ} {I : Nat → σ → Prop} {s s' : σ}
    (initial : I 0 s)
    (kept : ∀ i t t', i < n → I i t → body i t = some t' → I (i + 1) t')
    (ran : loop n body s = some s') : I n s' := by
  induction n generalizing s' with
  | zero =>
    cases ran
    exact initial
  | succ n ih =>
    -- The last round starts where the rounds before it ended.
    obtain ⟨t, before, last⟩ := Option.bind_eq_some_iff.mp ran
    exact kept n t s' (Nat.lt_succ_self n)
      (ih (fun i t t' below => kept i t t' (Nat.lt_succ_of_lt below)) before) last

/-- A body that never fails under `I` makes a loop that does not fail. -/
theorem loop_total {n : Nat} {body : Nat → σ → Option σ} {I : Nat → σ → Prop} {s : σ}
    (initial : I 0 s)
    (kept : ∀ i t, i < n → I i t → ∃ t', body i t = some t' ∧ I (i + 1) t') :
    ∃ s', loop n body s = some s' ∧ I n s' := by
  induction n with
  | zero => exact ⟨s, rfl, initial⟩
  | succ n ih =>
    obtain ⟨t, before, inv⟩ := ih fun i t below => kept i t (Nat.lt_succ_of_lt below)
    obtain ⟨t', last, done⟩ := kept n t (Nat.lt_succ_self n) inv
    refine ⟨t', ?_, done⟩
    rw [loop, before]
    exact last

def rounds : Nat → (Nat → σ → σ) → σ → σ
  | 0, _, s => s
  | n + 1, body, s => body n (rounds n body s)

theorem rounds_inv {n : Nat} {body : Nat → σ → σ} {I : Nat → σ → Prop} {s : σ} (initial : I 0 s)
    (kept : ∀ i t, i < n → I i t → I (i + 1) (body i t)) : I n (rounds n body s) := by
  induction n with
  | zero => exact initial
  | succ n ih =>
    exact kept n _ (Nat.lt_succ_self n) (ih fun i t below => kept i t (Nat.lt_succ_of_lt below))

/-- Two loops whose bodies keep a relation between their states. -/
theorem rounds_related {τ : Type} {R : σ → τ → Prop} {n : Nat} {body : Nat → σ → σ}
    {body' : Nat → τ → τ} {s : σ} {t : τ} (initial : R s t)
    (kept : ∀ i s t, R s t → R (body i s) (body' i t)) :
    R (rounds n body s) (rounds n body' t) := by
  induction n with
  | zero => exact initial
  | succ n ih => exact kept n _ _ ih

end LateOS.Lib
