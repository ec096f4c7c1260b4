import LateOS.Lib.RoundRobin
import LateOS.Process.Waiting

/-!
# Round robin

`schedule` goes round the table from the slot behind its caller to the first RUNNING one. While
the RUNNING slots stay the same, its calls take them in turn.
-/
namespace LateOS

open Lib

namespace Kernel

variable {k k' : Kernel} {p : Point} {R : Finset Int}

/-- The RUNNING slots are those of `R`, and the current task and every live slot know their own
number. -/
structure Steady (R : Finset Int) (k : Kernel) : Prop where
  seated : k.Seated
  running : ∀ i, i ∈ R ↔ InTable i ∧ (k.taskQueue i).state = .running

/-- `schedule` is called from `p`, and until its next call anything may happen that does not make
another task current. -/
def Turn (k : Kernel) (p : Point) (k' : Kernel) : Prop :=
  ∃ scheduled, k.schedule p = some scheduled ∧ k'.currentTask = scheduled.currentTask

/-- The tasks that the calls of a run select. -/
def selections (run : List (Point × Kernel)) : List Int := run.map fun turn => turn.2.currentTask

/-- One call selects the first RUNNING slot behind the caller; the caller itself comes last. -/
theorem Steady.succeeds (steady : k.Steady R) (nonempty : R.Nonempty) (turn : Turn k p k') :
    Succeeds R k.currentTask k'.currentTask := by
  obtain ⟨scheduled, called, current⟩ := turn
  rw [current]
  obtain ⟨next, found, rfl⟩ := Option.map_eq_some_iff.mp called
  have first : InTable ((k.self.pid + 1) % MAX) :=
    ⟨Int.emod_nonneg _ (by decide), Int.emod_lt_of_pos _ (by decide)⟩
  rw [steady.seated.own] at found first
  obtain ⟨low, high⟩ := steady.seated.inside
  -- The scan passes no RUNNING slot, and so none lies nearer behind the caller.
  have passed (r : Int) (member : r ∈ R) : (next - (k.currentTask + 1) % MAX) % MAX ≤
      (r - (k.currentTask + 1) % MAX) % MAX := by
    obtain ⟨slot, runs⟩ := (steady.running r).mp member
    by_contra before
    exact nextRunning_first first found r slot (by omega) runs
  have inside : next ∈ R := by
    rcases nextRunning_some first found with rfl | runs
    -- The scan came back to its caller: every member of `R` would have been met before it.
    · obtain ⟨r, member⟩ := nonempty
      obtain ⟨⟨slotLow, slotHigh⟩, _⟩ := (steady.running r).mp member
      have := passed r member
      have same : r = k.currentTask := by
        simp only [MAX] at *
        omega
      rwa [← same]
    · exact (steady.running next).mpr runs
  obtain ⟨⟨nextLow, nextHigh⟩, _⟩ := (steady.running next).mp inside
  refine ⟨inside, ?_⟩
  change (k.currentTask < next ∧ ∀ r ∈ R, k.currentTask < r → next ≤ r) ∨
    ∀ r ∈ R, r ≤ k.currentTask ∧ next ≤ r
  -- Behind the caller in the table, or again from the front of it.
  by_cases above : k.currentTask < next
  · refine Or.inl ⟨above, fun r member behind => ?_⟩
    obtain ⟨⟨slotLow, slotHigh⟩, _⟩ := (steady.running r).mp member
    have := passed r member
    simp only [MAX] at *
    omega
  · refine Or.inr fun r member => ?_
    obtain ⟨⟨slotLow, slotHigh⟩, _⟩ := (steady.running r).mp member
    have := passed r member
    simp only [MAX] at *
    omega

/-- The selections of a run go round `R` from the current task. -/
theorem Steady.chain (steady : k.Steady R) (nonempty : R.Nonempty) {run : List (Point × Kernel)}
    (turns : Along Turn k run) (kept : Along (fun _ _ k' => k'.Steady R) k run) :
    (k.currentTask :: selections run).IsChain (Succeeds R) := by
  induction run generalizing k with
  | nil => exact List.isChain_singleton _
  | cons turn rest ih =>
    obtain ⟨p, k'⟩ := turn
    rw [along_cons] at turns kept
    rw [selections, List.map_cons, List.isChain_cons_cons]
    exact ⟨steady.succeeds nonempty turns.1, ih kept.1 turns.2 kept.2⟩

/-- While the RUNNING slots are those of `R`, every call of `schedule` returns, each call selects
the next member of `R` behind the task that calls it, going round, and any `R.card` consecutive
calls select every member of `R` exactly once. -/
theorem round_robin (nonempty : R.Nonempty) (steady : k.Steady R) (run : List (Point × Kernel))
    (turns : Along Turn k run) (kept : Along (fun _ _ k' => k'.Steady R) k run) :
    (∀ p, ((lastState k run).schedule p).isSome) ∧
      (k.currentTask :: selections run).IsChain (Succeeds R) ∧
      ∀ window, window <:+: selections run → window.length = R.card →
        ∀ i, window.count i = if i ∈ R then 1 else 0 := by
  have chain := steady.chain nonempty turns kept
  refine ⟨fun p => ?_, chain, fun window part length => ?_⟩
  · have last : (lastState k run).Steady R := kept.last steady
    apply schedule_isSome
    rw [last.seated.own]
    exact last.seated.inside
  · exact stretch_around chain part length

/-- `schedule` itself leaves the table alone. -/
theorem Steady.schedule (steady : k.Steady R) (nonempty : R.Nonempty)
    (called : k.schedule p = some k') : k'.Steady R := by
  have succeeds := steady.succeeds nonempty ⟨k', called, rfl⟩
  obtain ⟨inside, runs⟩ := (steady.running k'.currentTask).mp succeeds.1
  obtain ⟨next, rfl, _⟩ := schedule_some called
  refine ⟨⟨inside, ?_, steady.seated.pids⟩, steady.running⟩
  exact steady.seated.pids next inside (Or.inl runs)

theorem steady_boot : boot.Steady {0, 1, 2} := by
  refine ⟨Seated.boot, fun i => ?_⟩
  have used : i ∈ ({0, 1, 2} : Finset Int) ↔ 0 ≤ i ∧ i ≤ 2 := by
    simp only [Finset.mem_insert, Finset.mem_singleton]
    omega
  rw [used]
  constructor
  · intro bounds
    refine ⟨⟨bounds.1, ?_⟩, ?_⟩
    · simp only [MAX]
      omega
    · simp [boot, bootQueue, bounds]
  · rintro ⟨_, runs⟩
    by_contra free
    simp [boot, bootQueue, free] at runs

/-- Five calls behind one another: the first program calls first. -/
def fiveTurns : List (Point × Kernel) :=
  follow (fun k p => k.schedule p) boot (List.replicate 5 .top)

theorem round_robin_of_three : selections fiveTurns = [0, 1, 2, 0, 1] ∧
    (∀ p, ((lastState boot fiveTurns).schedule p).isSome) ∧
      (boot.currentTask :: selections fiveTurns).IsChain (Succeeds {0, 1, 2}) ∧
      ∀ window, window <:+: selections fiveTurns → window.length = 3 →
        ∀ i, window.count i = if i ∈ ({0, 1, 2} : Finset Int) then 1 else 0 := by
  have ran : Along (fun k p k' => k.schedule p = some k') boot fiveTurns := along_follow _ _ _
  have preserved (k : Kernel) (p : Point) (k' : Kernel) (steady : k.Steady {0, 1, 2})
      (called : k.schedule p = some k') : k'.Steady {0, 1, 2} :=
    steady.schedule (by simp) called
  have kept := Along.invariant preserved steady_boot ran
  refine ⟨by decide +kernel, round_robin (by simp) steady_boot fiveTurns ?_ ?_⟩
  · exact ran.mono fun _ _ k' called => ⟨k', called, rfl⟩
  · exact kept.mono fun _ _ _ step => step.2.2

end Kernel

end LateOS
