import LateOS.Process.Awake
import LateOS.Process.Parent

/-!
# Who runs next

`schedule` picks a RUNNING slot whenever there is one, and falls back to its caller when there
is none. `idle` is always RUNNING unless it is killed.
-/
namespace LateOS

open Lib

namespace Kernel

variable {k k' : Kernel} {a : Action} {q : TaskQueue} {p : Point} {cut : Bool}

/-- The step calls `schedule`. -/
def CallsSchedule (k : Kernel) : Action → Prop
  | .exit | .schedule => True
  | .wait => firstSlot (reapable k.taskQueue k.currentTask) = none
  | .waitpid pid => reapable k.taskQueue k.currentTask pid = false
  | .sleep seconds => seconds ≠ 0
  | .read => ¬(0 < k.terminal.lineCount ∧ k.lineFound = true)
  | .timer => k.timerCount + 1 = 20
  | .resume =>
    match k.point k.currentTask with
    | .wait => firstSlot (reapable k.taskQueue k.currentTask) = none
    | .waitpid pid => reapable k.taskQueue k.currentTask pid = false
    | .intRead => ¬(0 < k.terminal.lineCount ∧ k.lineFound = true)
    | _ => False
  | _ => False

/-- The table when `intRead` calls `schedule`: it only sleeps when no line is there. -/
def atRead (k : Kernel) : TaskQueue :=
  if 0 < k.terminal.lineCount then k.taskQueue else setState k.taskQueue k.currentTask .sleep

/-- The table that `schedule` scans, when a step calls it. -/
def atSchedule (k : Kernel) : Action → TaskQueue
  | .exit => terminate k.taskQueue k.currentTask k.self.pid
  | .wait | .waitpid _ => setState k.taskQueue k.currentTask .wait
  | .sleep seconds =>
    Function.update k.taskQueue k.currentTask { k.self with time := seconds.toInt, state := .hang }
  | .read => k.atRead
  | .resume =>
    match k.point k.currentTask with
    | .wait => setState k.taskQueue k.currentTask .wait
    | .intRead => k.atRead
    | _ => k.taskQueue
  | _ => k.taskQueue

/-- What `intRead` sees, entered or resumed. -/
private theorem runs_read (call : k.Runs a .read .intRead) :
    (k.CallsSchedule a ↔ ¬(0 < k.terminal.lineCount ∧ k.lineFound = true)) ∧
      k.atSchedule a = k.atRead := by
  rcases call with ⟨rfl, _⟩ | ⟨rfl, cut⟩
  · exact ⟨Iff.rfl, rfl⟩
  · simp only [CallsSchedule, atSchedule, cut]
    exact ⟨trivial, trivial⟩

private theorem runs_wait (call : k.Runs a .wait .wait) :
    (k.CallsSchedule a ↔ firstSlot (reapable k.taskQueue k.currentTask) = none) ∧
      k.atSchedule a = setState k.taskQueue k.currentTask .wait := by
  rcases call with ⟨rfl, _⟩ | ⟨rfl, cut⟩
  · exact ⟨Iff.rfl, rfl⟩
  · simp only [CallsSchedule, atSchedule, cut]
    exact ⟨trivial, trivial⟩

/-- A change gives up the processor exactly when its step calls `schedule`. -/
theorem change_schedules (change : Change k a q p cut) :
    (k.CallsSchedule a ↔ cut = true) ∧ (cut = true → q = k.atSchedule a) := by
  cases change with
  | exec => exact ⟨iff_of_false id (by decide), nofun⟩
  | exit => exact ⟨iff_of_true trivial rfl, fun _ => rfl⟩
  | kill => exact ⟨iff_of_false id (by decide), nofun⟩
  | reapFirst i call found =>
    refine ⟨iff_of_false ?_ (by decide), nofun⟩
    rw [(runs_wait call).1, found]
    exact Option.some_ne_none i
  | reapPid i call dead =>
    refine ⟨iff_of_false ?_ (by decide), nofun⟩
    rcases call with ⟨rfl, _⟩ | ⟨rfl, cut⟩
    · simp [CallsSchedule, dead]
    · simp [CallsSchedule, cut, dead]
  | wait call none =>
    exact ⟨iff_of_true ((runs_wait call).1.mpr none) rfl, fun _ => (runs_wait call).2.symm⟩
  | waitpid pid alive => exact ⟨iff_of_true alive rfl, fun _ => rfl⟩
  | respin pid cut alive =>
    simp only [CallsSchedule, atSchedule, cut]
    exact ⟨iff_of_true alive trivial, fun _ => trivial⟩
  | sleep seconds some => exact ⟨iff_of_true some rfl, fun _ => rfl⟩
  | read call lines found =>
    refine ⟨iff_of_false ?_ (by decide), nofun⟩
    rw [(runs_read call).1]
    exact fun neither => neither ⟨lines, found⟩
  | miss call lines missing =>
    refine ⟨iff_of_true ?_ rfl, fun _ => ?_⟩
    · rw [(runs_read call).1, missing]
      exact fun both => absurd both.2 (by decide)
    · rw [(runs_read call).2, atRead, if_pos lines]
  | await call empty =>
    refine ⟨iff_of_true ?_ rfl, fun _ => ?_⟩
    · rw [(runs_read call).1]
      exact fun both => empty both.1
    · rw [(runs_read call).2, atRead, if_neg empty]
  | idle => exact ⟨iff_of_true trivial rfl, fun _ => rfl⟩
  | keep quiet =>
    refine ⟨iff_of_false ?_ (by decide), nofun⟩
    rcases quiet with rfl | ⟨rfl, early⟩ | ⟨code, rfl⟩ | ⟨rfl, cut | cut⟩
    · exact fun some => some rfl
    · exact early
    · exact id
    · simp [CallsSchedule, cut]
    · simp [CallsSchedule, cut]
  | key => exact ⟨iff_of_false id (by decide), nofun⟩
  | preempt due => exact ⟨iff_of_true due rfl, fun _ => rfl⟩
  | tick cut =>
    refine ⟨iff_of_false ?_ (by decide), nofun⟩
    simp [CallsSchedule, cut]

/-! ## One call of `schedule` -/

/-- If the step calls `schedule`, the task that becomes current is RUNNING. -/
def PicksRunning (k : Kernel) (a : Action) (k' : Kernel) : Prop :=
  k.CallsSchedule a → k'.self.state = .running

/-- If the step calls `schedule`, some slot is RUNNING. -/
def SomeRunning (k : Kernel) (a : Action) : Prop :=
  k.CallsSchedule a → ∃ i, InTable i ∧ (k.atSchedule a i).state = .running

theorem picks_running_iff (seated : k.Seated) (ran : k.Step a k') :
    PicksRunning k a k' ↔ k.SomeRunning a := by
  have seated' := seated.step ran
  rcases step_cases ran with ⟨pml4e, vm, rfl, rfl⟩ | ⟨q, p, cut, change, moved⟩
  · exact iff_of_true (fun calls => absurd calls id) (fun calls => absurd calls id)
  obtain ⟨calls, table⟩ := change_schedules change
  unfold PicksRunning SomeRunning
  rw [calls]
  constructor
  · intro picked cuts
    refine ⟨k'.currentTask, seated'.inside, ?_⟩
    rw [← table cuts, ← moved.queue]
    exact picked cuts
  · intro someone cuts
    obtain ⟨i, inside, runs⟩ := someone cuts
    rw [← table cuts] at runs
    rw [self, moved.queue]
    rcases moved.chosen cuts with chosen | ⟨self, blocked⟩
    · exact chosen.2
    · -- The caller is the only slot that can be RUNNING.
      have own : (q k.currentTask).pid = k.currentTask := (change.pid_eq _).trans seated.own
      rw [own] at self blocked
      by_cases here : i = k.currentTask
      · rw [self, ← here]
        exact runs
      · exact absurd runs (blocked seated.inside i inside here)

/-! ## Runs in which idle is spared -/

/-- The step does not kill `idle`. -/
def SparesIdle : Action → Prop
  | .kill pid => pid ≠ 1
  | _ => True

instance : ∀ a, Decidable (SparesIdle a)
  | .kill _ => inferInstanceAs (Decidable (_ ≠ _))
  | .fork .. | .exec .. | .exit | .wait | .waitpid _ | .sleep _ | .read | .schedule | .timer
  | .key _ | .resume => isTrue trivial

theorem SparesIdle.ne (spared : SparesIdle a) : a ≠ .kill 1 := by
  rintro rfl
  exact spared rfl

/-- A slot left in `exit` is dead or free, and not current. -/
def GoneForGood (k : Kernel) : Prop :=
  ∀ i, InTable i → k.point i = .exit → i ≠ k.currentTask ∧
    ((k.taskQueue i).state = .zombie ∨ (k.taskQueue i).state = .ready)

structure Lively (k : Kernel) : Prop where
  idle : k.IdleRuns
  gone : k.GoneForGood

/-- As long as `idle` is there, it or another slot is RUNNING. -/
theorem Lively.someRunning (lively : k.Lively) (spared : SparesIdle a) (ran : k.Step a k') :
    k.SomeRunning a := by
  intro calls
  have idle := (lively.idle.step spared.ne ran).idle
  -- The slot is `idle`: RUNNING after the step, hence in the table that was scanned.
  refine ⟨1, by decide, ?_⟩
  rcases step_cases ran with ⟨pml4e, vm, rfl, rfl⟩ | ⟨q, p, cut, change, moved⟩
  · exact absurd calls id
  · obtain ⟨schedules, table⟩ := change_schedules change
    rw [← table (schedules.mp calls), ← moved.queue]
    exact idle

/-- Who has left through `exit` does not become current again. -/
theorem Lively.gone_step (lively : k.Lively) (picks : PicksRunning k a k') (ran : k.Step a k') :
    k'.GoneForGood := by
  intro i inside left
  rcases step_cases ran with ⟨pml4e, vm, rfl, rfl⟩ | ⟨q, p, cut, change, moved⟩
  · change Function.update k.point (newPID k.taskQueue) .top i = .exit at left
    have other : i ≠ newPID k.taskQueue := by
      rintro rfl
      rw [Function.update_self] at left
      cases left
    rw [Function.update_of_ne other] at left
    have before := lively.gone i inside left
    rw [fork_state, if_neg other]
    exact before
  rw [moved.point] at left
  rw [moved.queue]
  by_cases here : i = k.currentTask
  · subst here
    rw [Function.update_self] at left
    cases change with
    | exit =>
      have zombie : (terminate k.taskQueue k.currentTask k.self.pid k.currentTask).state =
          .zombie := by simp
      refine ⟨fun same => ?_, Or.inl zombie⟩
      have runs := picks trivial
      rw [self, moved.queue, ← same, zombie] at runs
      cases runs
    | _ => cases left
  · rw [Function.update_of_ne here] at left
    obtain ⟨_, dead⟩ := lively.gone i inside left
    -- Nobody but the task itself could bring it back to life, and it is not current.
    have still : (q i).state = .zombie ∨ (q i).state = .ready := by
      by_cases sets : k.SetsOwnState a
      · obtain ⟨s, _, _, after⟩ := change.own sets
        rw [after, if_neg here]
        exact dead
      · rcases change.others sets i with same | ⟨blocked, _⟩ | ⟨_, _, ready⟩ | ⟨_, zombie⟩
        · rw [same]
          exact dead
        · rcases dead with zombie | ready
          · rw [zombie] at blocked
            rcases blocked with h | h | h <;> cases h
          · rw [ready] at blocked
            rcases blocked with h | h | h <;> cases h
        · exact Or.inr ready
        · exact Or.inl zombie
    refine ⟨fun same => ?_, still⟩
    cases cut with
    | false => exact here (same.trans (moved.current rfl))
    | true =>
      have runs := picks ((change_schedules change).1.mpr rfl)
      rw [self, moved.queue, ← same] at runs
      rcases still with zombie | ready
      · rw [zombie] at runs
        cases runs
      · rw [ready] at runs
        cases runs

theorem Lively.boot : Kernel.boot.Lively :=
  ⟨Awake.boot.idleRuns, fun _ _ left => Point.noConfusion left⟩

theorem exit_point (ran : k.Step .exit k') : k'.point k.currentTask = .exit := by
  rcases step_cases ran with ⟨_, _, fork, _⟩ | ⟨q, p, cut, change, moved⟩
  · cases fork
  · rw [moved.point, Function.update_self]
    rcases change.death_cases with ⟨⟨other, _⟩, _⟩ | ⟨_, _, left⟩ | ⟨_, other, _⟩
    · exact absurd rfl other
    · exact left
    · cases other

theorem Lively.step (lively : k.Lively) (spared : SparesIdle a) (ran : k.Step a k') : k'.Lively := by
  have picks := (picks_running_iff lively.idle.seated ran).mpr (lively.someRunning spared ran)
  exact ⟨lively.idle.step spared.ne ran, lively.gone_step picks ran⟩

/-- In a run from boot `schedule` makes only RUNNING tasks current exactly when some slot is
RUNNING at each call; that is so as long as nobody kills `idle`, and then no task that has
called `exit` is ever current again. -/
theorem only_runnable_run (run : List (Action × Kernel)) (ran : Along Step boot run) :
    (Along PicksRunning boot run ↔ Along (fun k a _ => k.SomeRunning a) boot run) ∧
    (Along (fun _ a _ => SparesIdle a) boot run →
      Along PicksRunning boot run ∧
      Along (fun k a k' => (a = .exit → k'.currentTask ≠ k.currentTask) ∧
        k.point k.currentTask ≠ .exit) boot run) := by
  have exactly : Along PicksRunning boot run ↔ Along (fun k a _ => k.SomeRunning a) boot run := by
    refine Along.congr ?_ ?_ Seated.boot ran
    · exact fun k a k' seated step => seated.step step
    · exact fun k a k' seated step => picks_running_iff seated step
  refine ⟨exactly, fun spared => ?_⟩
  have preserved (k : Kernel) (a : Action) (k' : Kernel) (lively : k.Lively)
      (step : k.Step a k' ∧ SparesIdle a) : k'.Lively := lively.step step.2 step.1
  have along := Along.invariant preserved Lively.boot (ran.and spared)
  refine ⟨exactly.mpr (along.mono fun k a k' step => ?_), along.mono fun k a k' step => ?_⟩
  · exact step.1.someRunning step.2.1.2 step.2.1.1
  · obtain ⟨lively, ⟨taken, _⟩, lively'⟩ := step
    refine ⟨?_, fun left => ?_⟩
    · rintro rfl same
      exact (lively'.gone _ lively.idle.seated.inside (exit_point taken)).1 same.symm
    · exact (lively.gone _ lively.idle.seated.inside left).1 rfl

/-- A child forks and exits. -/
theorem only_runnable_run_of_orphaned_child :
    (follow step boot orphanedChild).length = 8 ∧
    Along PicksRunning boot (follow step boot orphanedChild) := by
  have runs : (follow step boot orphanedChild).length = 8 ∧
      Along (fun _ a _ => SparesIdle a) boot (follow step boot orphanedChild) := by
    decide +kernel
  exact ⟨runs.1, ((only_runnable_run _ (ran_follow orphanedChild)).2 runs.2).1⟩

/-- The first program kills `idle` and `init`, and then its `exit` returns. -/
theorem exit_returns_without_idle :
    ¬∀ run, Along Step boot run → Along (fun k a _ => k.KillsLive a) boot run →
      Along PicksRunning boot run := by
  intro all
  have killed : ((boot.kill 1).kill 0).exit.map (fun k => (k.currentTask, k.self.state)) =
      some (2, .zombie) := by decide +kernel
  obtain ⟨k, exited, same⟩ := Option.map_eq_some_iff.mp killed
  have picked := all [(.kill 1, boot.kill 1), (.kill 0, (boot.kill 1).kill 0), (.exit, k)]
    (by simp only [along_cons]; exact ⟨rfl, rfl, exited, along_nil _ _⟩)
    (by simp only [along_cons]; exact ⟨by decide, by decide, trivial, along_nil _ _⟩)
  simp only [along_cons] at picked
  have runs := picked.2.2.1 trivial
  rw [(Prod.mk.inj same).2] at runs
  cases runs

end Kernel

end LateOS
