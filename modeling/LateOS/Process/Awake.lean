import LateOS.Process.Zombie

/-!
# Runs in which idle and the caller are spared

As long as nobody kills slot 1, where `idle` runs, and no task kills itself, `idle` stays
RUNNING, so `schedule` always finds a RUNNING slot and the current task is RUNNING.
-/
namespace LateOS

open Lib

namespace Kernel

variable {k k' : Kernel} {a : Action}

/-- The step kills neither `idle` nor the task that takes it. -/
def Sparing (k : Kernel) (a : Action) : Prop := a ≠ .kill 1 ∧ a ≠ .kill k.currentTask

structure Awake (k : Kernel) : Prop where
  seated : k.Seated
  loop : k.program 1 = .idle
  rest : k.point 1 = .top ∨ k.point 1 = .intTimer
  idle : (k.taskQueue 1).state = .running
  runs : k.self.state = .running

/-- What holds as long as `idle` is not killed. -/
structure IdleRuns (k : Kernel) : Prop where
  seated : k.Seated
  loop : k.program 1 = .idle
  rest : k.point 1 = .top ∨ k.point 1 = .intTimer
  idle : (k.taskQueue 1).state = .running

theorem Awake.boot : Kernel.boot.Awake :=
  ⟨Seated.boot, rfl, Or.inl rfl, rfl, rfl⟩

theorem Awake.idleRuns (awake : k.Awake) : k.IdleRuns :=
  ⟨awake.seated, awake.loop, awake.rest, awake.idle⟩

/-- What `idle` does: it reschedules, takes interrupts and finishes ticks. -/
private theorem IdleRuns.idle_acts (before : k.IdleRuns) (here : k.currentTask = 1)
    (ran : k.Step a k') : a = .schedule ∨ a = .timer ∨ (∃ code, a = .key code) ∨
      a = .resume ∧ k.point k.currentTask = .intTimer := by
  have loop := before.loop
  have rest := before.rest
  rw [← here] at loop rest
  rcases step_iff.mp ran with ⟨_, ran⟩ | ⟨away, rfl, _⟩
  · rw [loop] at ran
    cases a <;> simp_all [call]
  · exact Or.inr (Or.inr (Or.inr ⟨rfl, rest.resolve_left away⟩))

/-- `idle` never writes its own state and is left at its loop or in a tick. -/
private theorem IdleRuns.idle_change (before : k.IdleRuns) (here : k.currentTask = 1)
    (ran : k.Step a k') {q : TaskQueue} {p : Point} {cut : Bool} (change : Change k a q p cut) :
    ¬k.SetsOwnState a ∧ a ≠ .exit ∧ (p = .top ∨ p = .intTimer) := by
  rcases before.idle_acts here ran with rfl | rfl | ⟨code, rfl⟩ | ⟨rfl, tick⟩
  · refine ⟨by simp [SetsOwnState], by simp, ?_⟩
    cases change <;> simp_all [Runs]
  · refine ⟨by simp [SetsOwnState], by simp, ?_⟩
    cases change <;> simp_all [Runs]
  · refine ⟨by simp [SetsOwnState], by simp, ?_⟩
    cases change <;> simp_all [Runs]
  · refine ⟨by simp [SetsOwnState, tick], by simp, ?_⟩
    cases change <;> simp_all [Runs]

private theorem IdleRuns.fork (before : k.IdleRuns) (pml4e : BitVec 64) (vm : List VmaStruct)
    (seated : (k.fork pml4e vm).Seated) : (k.fork pml4e vm).IdleRuns := by
  have idle : (1 : Int) ≠ newPID k.taskQueue :=
    newPID_ne (by decide) (by simp [before.idle])
  refine ⟨seated, ?_, ?_, ?_⟩
  · simpa [Kernel.fork, idle] using before.loop
  · simpa [Kernel.fork, idle] using before.rest
  · simpa [Kernel.fork, idle] using before.idle

/-- The slot of `idle` stays RUNNING. -/
private theorem IdleRuns.idle_runs (before : k.IdleRuns) (spared : a ≠ .kill 1)
    (ran : k.Step a k') {q : TaskQueue} {p : Point} {cut : Bool} (change : Change k a q p cut) :
    (q 1).state = .running := by
  by_cases sets : k.SetsOwnState a
  · obtain ⟨s, _, _, after⟩ := change.own sets
    -- Only the current task writes its own state, and `idle` never does.
    have elsewhere : (1 : Int) ≠ k.currentTask :=
      fun here => (before.idle_change here.symm ran change).1 sets
    rw [after, if_neg elsewhere, before.idle]
  · rcases change.others sets 1 with same | ⟨_, runs⟩ | ⟨dead, _⟩ | ⟨⟨rfl, _, here⟩ | killed, _⟩
    · rw [same, before.idle]
    · exact runs
    · rw [reapable_iff, before.idle] at dead
      cases dead.2
    · exact absurd rfl (before.idle_change here.symm ran change).2.1
    · exact absurd killed spared

theorem IdleRuns.step (before : k.IdleRuns) (spared : a ≠ .kill 1) (ran : k.Step a k') :
    k'.IdleRuns := by
  have seated := before.seated.step ran
  rcases step_cases ran with ⟨pml4e, vm, rfl, rfl⟩ | ⟨q, p, cut, change, moved⟩
  · exact before.fork pml4e vm seated
  refine ⟨seated, by rw [moved.program, before.loop], ?_, ?_⟩
  · rw [moved.point]
    by_cases here : k.currentTask = 1
    · rw [here, Function.update_self]
      exact (before.idle_change here ran change).2.2
    · rw [Function.update_of_ne (Ne.symm here)]
      exact before.rest
  · rw [moved.queue]
    exact before.idle_runs spared ran change

/-- A step without `schedule` leaves the current task RUNNING. -/
private theorem Awake.self_runs (awake : k.Awake) (spared : k.Sparing a)
    {q : TaskQueue} {p : Point} (change : Change k a q p false) :
    (q k.currentTask).state = .running := by
  by_cases sets : k.SetsOwnState a
  · obtain ⟨s, _, running, after⟩ := change.own sets
    rw [after, if_pos rfl, running rfl]
  · rcases change.others sets k.currentTask with same | ⟨_, runs⟩ | ⟨dead, _⟩ | ⟨died, _⟩
    · exact same.trans awake.runs
    · exact runs
    · rw [reapable_iff] at dead
      rw [show (k.taskQueue k.currentTask).state = _ from awake.runs] at dead
      cases dead.2
    · rcases died with ⟨_, absurd, _⟩ | killed
      · cases absurd
      · exact absurd killed spared.2

theorem Awake.step (awake : k.Awake) (spared : k.Sparing a) (ran : k.Step a k') : k'.Awake := by
  have after := awake.idleRuns.step spared.1 ran
  refine ⟨after.seated, after.loop, after.rest, after.idle, ?_⟩
  rcases step_cases ran with ⟨pml4e, vm, rfl, rfl⟩ | ⟨q, p, cut, change, moved⟩
  · have self : k.currentTask ≠ newPID k.taskQueue :=
      newPID_ne awake.seated.inside fun free => nomatch free.symm.trans awake.runs
    change ((k.fork pml4e vm).taskQueue k.currentTask).state = _
    rw [fork_state, if_neg self]
    exact awake.runs
  have own : (q k.currentTask).pid = k.currentTask :=
    (change.pid_eq _).trans awake.seated.own
  have idle : (q 1).state = .running := moved.queue ▸ after.idle
  rw [self, moved.queue]
  cases cut with
  | false =>
    rw [moved.current rfl]
    exact awake.self_runs spared change
  | true =>
    rcases moved.chosen rfl with chosen | ⟨alone, blocked⟩
    · exact chosen.2
    · rw [own] at alone blocked
      rw [alone]
      -- With no other slot RUNNING the caller can only be `idle` itself.
      by_cases here : k.currentTask = 1
      · rw [here, idle]
      · exact absurd idle (blocked awake.seated.inside 1 (by decide) (Ne.symm here))

/-- A run that spares idle and the callers keeps the current task RUNNING throughout. -/
theorem awake_along {run : List (Action × Kernel)} (ran : Along Step boot run)
    (spared : Along (fun k a _ => k.Sparing a) boot run) :
    Along (fun k _ k' => k.Awake ∧ k'.Awake) boot run := by
  refine (Along.invariant ?_ Awake.boot (ran.and spared)).mono ?_
  · exact fun k a k' awake step => awake.step step.2 step.1
  · exact fun k a k' step => ⟨step.1, step.2.2⟩

/-- Sparing runs keep dead tasks dead. -/
theorem dead_stays_dead_of_sparing {run : List (Action × Kernel)} (ran : Along Step boot run)
    (spared : Along (fun k a _ => k.Sparing a) boot run) : Along DeadStaysDead boot run := by
  refine ((awake_along ran spared).and ran).mono fun k a k' step => ?_
  obtain ⟨⟨awake, _⟩, taken⟩ := step
  refine (step_dead_iff awake.seated taken).mpr fun undead => ?_
  rw [UndeadCall, awake.runs] at undead
  cases undead.1

end Kernel

end LateOS
