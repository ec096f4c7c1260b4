import LateOS.Process.Parent

/-!
# The clock

`intTimer` calls `schedule` between counting its twentieth interrupt and the work that is
due then, so the counter stays at 20 until the interrupted task is selected again. Only `idle`
lets interrupts in, so no other interrupt can arrive before that task, which is `idle`, is
current again and has done the work.
-/
namespace LateOS

open Lib

namespace Kernel

variable {k k' : Kernel} {a : Action}

def isTimer : Action → Bool
  | .timer => true
  | _ => false

/-- How many timer interrupts a run has taken. -/
def interrupts (run : List (Action × Kernel)) : Nat := run.countP (fun step => isTimer step.1)

/-- Wherever the run from `k` is stopped, the work has been done once for every 20 timer
interrupts, `n` of which came before the run, and `timerCount` is at most 20. -/
def OnTimeFrom (k : Kernel) (n : Nat) (run : List (Action × Kernel)) : Prop :=
  ∀ pre, pre <+: run →
    n + interrupts pre = 20 * (lastState k pre).totalSecs + (lastState k pre).timerCount ∧
    (lastState k pre).timerCount ≤ 20

def OnTime (run : List (Action × Kernel)) : Prop := OnTimeFrom boot 0 run

/-- The counters after `n` timer interrupts: only slot 1 runs `idle`, no other slot is ever
suspended in `intTimer`, and `timerCount` stands at 20 as long as it is. When slot 1 was killed
and given to a user program with its tick suspended, nobody runs `idle` any more. -/
structure Clock (k : Kernel) (n : Nat) : Prop where
  count : n = 20 * k.totalSecs + k.timerCount
  le : k.timerCount ≤ 20
  seat : ∀ i, k.program i = .idle → i = 1
  suspended : ∀ i, k.point i = .intTimer → i = 1 ∧ k.timerCount = 20
  due : k.program 1 = .idle → k.timerCount = 20 → k.point 1 = .intTimer

theorem Clock.boot : Kernel.boot.Clock 0 := by
  refine ⟨rfl, by decide, fun i runs => ?_, fun i cut => ?_, fun _ late => ?_⟩
  · by_contra other
    by_cases zero : i = 0 <;> simp [Kernel.boot, zero, other] at runs
  · cases cut
  · cases late

/-! ## The counters over one step -/

section Counters

/-- The step is not one of the timer's. -/
def SameCount (k k' : Kernel) : Prop :=
  k'.timerCount = k.timerCount ∧ k'.totalSecs = k.totalSecs

private theorem schedule_count {mid : Kernel} {p : Point} (called : mid.schedule p = some k')
    (same : SameCount k mid) : SameCount k k' := by
  obtain ⟨n, rfl, _⟩ := schedule_some called
  exact same

private theorem wait_count (ran : k.wait = some k') : SameCount k k' := by
  unfold wait at ran
  split at ran
  · cases ran
    exact ⟨rfl, rfl⟩
  · exact schedule_count ran ⟨rfl, rfl⟩

private theorem waitpid_count {pid : Int} (ran : k.waitpid pid = some k') : SameCount k k' := by
  unfold waitpid at ran
  split at ran
  · cases ran
    exact ⟨rfl, rfl⟩
  · exact schedule_count ran ⟨rfl, rfl⟩

private theorem resumeWaitpid_count {pid : Int} (ran : k.resumeWaitpid pid = some k') :
    SameCount k k' := by
  unfold resumeWaitpid at ran
  split at ran
  · cases ran
    exact ⟨rfl, rfl⟩
  · exact schedule_count ran ⟨rfl, rfl⟩

private theorem sleep_count {seconds : BitVec 32} (ran : k.sleep seconds = some k') :
    SameCount k k' := by
  unfold sleep at ran
  split at ran
  · cases ran
    exact ⟨rfl, rfl⟩
  · exact schedule_count ran ⟨rfl, rfl⟩

private theorem intRead_count (ran : k.intRead = some k') : SameCount k k' := by
  unfold intRead at ran
  split at ran
  · dsimp only at ran
    split at ran
    · cases ran
      exact ⟨rfl, rfl⟩
    · exact schedule_count ran ⟨rfl, rfl⟩
  · exact schedule_count ran ⟨rfl, rfl⟩

private theorem resume_count (ran : k.resume (k.point k.currentTask) = some k')
    (away : k.point k.currentTask ≠ .intTimer) : SameCount k k' := by
  unfold resume at ran
  split at ran
  case h_1 => cases ran
  case h_2 =>
    cases ran
    exact ⟨rfl, rfl⟩
  case h_3 => exact wait_count ran
  case h_4 => exact resumeWaitpid_count ran
  case h_5 =>
    cases ran
    exact ⟨rfl, rfl⟩
  case h_6 => exact intRead_count ran
  case h_7 here => exact absurd here away

private theorem call_count {program : Program} (ran : k.call program a = some k')
    (other : a ≠ .timer) : SameCount k k' := by
  unfold call at ran
  split at ran
  case h_1 => exact wait_count ran
  case h_2 => exact schedule_count ran ⟨rfl, rfl⟩
  case h_3 => exact absurd rfl other
  case h_7 =>
    unfold exit at ran
    exact schedule_count ran ⟨rfl, rfl⟩
  case h_9 => exact wait_count ran
  case h_10 => exact waitpid_count ran
  case h_11 => exact sleep_count ran
  case h_12 => exact intRead_count ran
  case h_13 => cases ran
  all_goals
    cases ran
    exact ⟨rfl, rfl⟩

private theorem step_count (ran : k.Step a k') (other : a ≠ .timer)
    (away : k.point k.currentTask ≠ .intTimer) : SameCount k k' := by
  rcases step_iff.mp ran with ⟨_, ran⟩ | ⟨_, _, ran⟩
  · exact call_count ran other
  · exact resume_count ran away

/-- Only `idle` takes a timer interrupt; it counts, and the twentieth is suspended. -/
private theorem step_timer (ran : k.Step .timer k') :
    k.point k.currentTask = .top ∧ k.program k.currentTask = .idle ∧
      k'.timerCount = k.timerCount + 1 ∧ k'.totalSecs = k.totalSecs ∧ k'.program = k.program ∧
      k'.point = if k.timerCount + 1 = 20 then Function.update k.point k.currentTask .intTimer
        else k.point := by
  have top := step_top ran (by simp)
  have entered : k.program k.currentTask = .idle ∧ k.intTimer = some k' := by
    rcases step_iff.mp ran with ⟨_, ran⟩ | ⟨away, _⟩
    · cases program : k.program k.currentTask <;> rw [program] at ran
      · cases ran
      · exact ⟨rfl, ran⟩
      · cases ran
    · exact absurd top away
  obtain ⟨idle, entered⟩ := entered
  refine ⟨top, idle, ?_⟩
  unfold intTimer at entered
  dsimp only at entered
  split at entered
  next due =>
    obtain ⟨n, rfl, _⟩ := schedule_some entered
    exact ⟨rfl, rfl, rfl, by rw [if_pos due]; rfl⟩
  next early =>
    cases entered
    exact ⟨rfl, rfl, rfl, by rw [if_neg early]⟩

/-- A suspended tick that comes back does its work. -/
theorem step_tick (ran : k.Step a k') (cut : k.point k.currentTask = .intTimer) :
    a = .resume ∧ k' = k.tick := by
  rcases step_iff.mp ran with ⟨top, _⟩ | ⟨_, rfl, resumed⟩
  · rw [cut] at top
    cases top
  · rw [cut] at resumed
    cases resumed
    exact ⟨rfl, rfl⟩

/-- Every other step suspends nobody in `intTimer` and makes nobody `idle`. A slot leaves either
only when `fork` gives it to a user program. -/
private theorem step_suspended (ran : k.Step a k') (other : a ≠ .timer)
    (away : k.point k.currentTask ≠ .intTimer) (i : Int) :
    (k'.point i = .intTimer → k.point i = .intTimer) ∧
    (k'.program i = .idle → k.program i = .idle ∧
      (k.point i = .intTimer → k'.point i = .intTimer)) := by
  rcases step_cases ran with ⟨pml4e, vm, rfl, rfl⟩ | ⟨q, p, cut, change, moved⟩
  · by_cases child : i = newPID k.taskQueue
    · subst child
      simp [Kernel.fork]
    · simp [Kernel.fork, child]
  · rw [moved.point, moved.program]
    by_cases here : i = k.currentTask
    · subst here
      refine ⟨fun cut => ?_, fun idle => ⟨idle, fun cut => absurd cut away⟩⟩
      rw [Function.update_self] at cut
      cases change <;> first | exact absurd rfl other | cases cut
    · rw [Function.update_of_ne here]
      exact ⟨id, fun idle => ⟨idle, id⟩⟩

end Counters

/-! ## Runs -/

/-- An interrupt that `idle` takes finds no tick suspended, so the counter is below 20. -/
private theorem Clock.timer {n : Nat} (clock : k.Clock n) (ran : k.Step .timer k') :
    k'.Clock (n + 1) := by
  obtain ⟨top, idle, count, secs, program, point⟩ := step_timer ran
  have here : k.currentTask = 1 := clock.seat _ idle
  rw [here] at top idle point
  have early : k.timerCount < 20 := by
    refine Nat.lt_of_le_of_ne clock.le fun late => ?_
    rw [clock.due idle late] at top
    cases top
  have free (i : Int) : k.point i ≠ .intTimer := fun cut =>
    absurd (clock.suspended i cut).2 (Nat.ne_of_lt early)
  have counted := clock.count
  refine ⟨by omega, by omega, ?_, ?_, ?_⟩
  · rw [program]
    exact clock.seat
  · intro i cut
    rw [point] at cut
    split at cut
    next due =>
      refine ⟨?_, by omega⟩
      by_contra other
      rw [Function.update_of_ne other] at cut
      exact free i cut
    next => exact absurd cut (free i)
  · intro _ late
    rw [point, if_pos (by omega), Function.update_self]

/-- The suspended tick comes back: it was the only one, and the counter starts again. -/
private theorem Clock.tick {n : Nat} (clock : k.Clock n)
    (cut : k.point k.currentTask = .intTimer) : k.tick.Clock n := by
  have gone (i : Int) : k.tick.point i ≠ .intTimer := by
    intro still
    by_cases same : i = k.currentTask
    · subst same
      simp [Kernel.tick, setPoint] at still
    · simp only [Kernel.tick, setPoint, Function.update_of_ne same] at still
      exact same ((clock.suspended i still).1.trans (clock.suspended _ cut).1.symm)
  have due := (clock.suspended _ cut).2
  have counted := clock.count
  refine ⟨?_, Nat.zero_le _, clock.seat, fun i still => absurd still (gone i), nofun⟩
  simp only [Kernel.tick]
  omega

theorem Clock.step {n : Nat} (clock : k.Clock n) (ran : k.Step a k') :
    k'.Clock (n + if isTimer a then 1 else 0) := by
  by_cases timer : a = .timer
  · subst timer
    exact clock.timer ran
  have quiet : isTimer a = false := by
    cases a <;> first | rfl | exact absurd rfl timer
  rw [quiet, if_neg Bool.false_ne_true, Nat.add_zero]
  by_cases here : k.point k.currentTask = .intTimer
  · obtain ⟨rfl, rfl⟩ := step_tick ran here
    exact clock.tick here
  have suspended := step_suspended ran timer here
  obtain ⟨count, secs⟩ := step_count ran timer here
  refine ⟨?_, ?_, fun i runs => clock.seat i ((suspended i).2 runs).1, fun i cut => ?_,
    fun idle late => ?_⟩
  · rw [count, secs]
    exact clock.count
  · rw [count]
    exact clock.le
  · rw [count]
    exact clock.suspended i ((suspended i).1 cut)
  · obtain ⟨ran, kept⟩ := (suspended 1).2 idle
    exact kept (clock.due ran (count ▸ late))

private theorem onTimeFrom_cons (n : Nat) (rest : List (Action × Kernel)) :
    OnTimeFrom k n ((a, k') :: rest) ↔
      (n = 20 * k.totalSecs + k.timerCount ∧ k.timerCount ≤ 20) ∧
        OnTimeFrom k' (n + if isTimer a then 1 else 0) rest := by
  have counts (pre : List (Action × Kernel)) : n + interrupts ((a, k') :: pre) =
      (n + if isTimer a then 1 else 0) + interrupts pre := by
    rw [interrupts, List.countP_cons, interrupts]
    exact (Nat.add_assoc _ _ _).symm.trans (Nat.add_right_comm _ _ _)
  constructor
  · intro onTime
    refine ⟨onTime [] (List.nil_prefix), fun pre before => ?_⟩
    have later := onTime ((a, k') :: pre) (List.cons_prefix_cons.mpr ⟨rfl, before⟩)
    rw [counts] at later
    exact later
  · rintro ⟨now, later⟩ pre before
    cases pre with
    | nil => exact now
    | cons step pre =>
      obtain ⟨rfl, tail⟩ := List.cons_prefix_cons.mp before
      rw [counts]
      exact later pre tail

theorem Clock.onTimeFrom {n : Nat} (clock : k.Clock n) {run : List (Action × Kernel)}
    (ran : Along Step k run) : OnTimeFrom k n run := by
  induction run generalizing k n with
  | nil =>
    intro pre before
    rw [List.prefix_nil.mp before]
    exact ⟨clock.count, clock.le⟩
  | cons step rest ih =>
    obtain ⟨a, k'⟩ := step
    rw [along_cons] at ran
    exact (onTimeFrom_cons n rest).mpr ⟨⟨clock.count, clock.le⟩, ih (clock.step ran.1) ran.2⟩

/-- In every run from boot the work of the clock is done exactly once per 20 timer interrupts,
and `timerCount` stays within 20. -/
theorem on_time_of_idle_interrupts (run : List (Action × Kernel)) (ran : Along Step boot run) :
    OnTime run :=
  Clock.boot.onTimeFrom ran

/-- `idle` takes 20 interrupts; the last one hands over to the first program, which a key has
woken, and the work is done when that program waits for the next line. -/
def suspendedTick : List Action :=
  [.read, .wait, .key 30, .key 28] ++ List.replicate 20 .timer ++ [.resume, .read, .resume]

theorem on_time_of_suspended_tick : (follow step boot suspendedTick).length = 27 ∧
    (lastState boot (follow step boot suspendedTick)).totalSecs = 1 ∧
    OnTime (follow step boot suspendedTick) :=
  ⟨by decide +kernel, by decide +kernel, on_time_of_idle_interrupts _ (ran_follow suspendedTick)⟩

end Kernel

end LateOS
