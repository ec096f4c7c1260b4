import LateOS.Lib.Trace
import LateOS.Process.Effect

/-!
# Dead tasks

When the state of a ZOMBIE slot changes. `kill` returns to a caller that killed itself,
and `exit` returns when no other slot is RUNNING, so a ZOMBIE can still be the current
task; it comes back to life at the first call that writes its own state.
-/
namespace LateOS

open Lib

/-- A slot that is live after a change was live before, or is the current task. -/
theorem Change.live {k : Kernel} {a : Action} {q : TaskQueue} {p : Point} {cut : Bool}
    (change : Change k a q p cut) (i : Int) (live : (q i).state.Live) :
    i = k.currentTask ∨ (k.taskQueue i).state.Live := by
  by_cases sets : k.SetsOwnState a
  · obtain ⟨s, _, _, after⟩ := change.own sets
    by_cases same : i = k.currentTask
    · exact Or.inl same
    · rw [after, if_neg same] at live
      exact Or.inr live
  · right
    rcases change.others sets i with same | ⟨blocked, _⟩ | ⟨_, _, ready⟩ | ⟨_, zombie⟩
    · rwa [same] at live
    · exact blocked.live
    · simp [ready, TaskState.Live] at live
    · simp [zombie, TaskState.Live] at live

/-- A slot that is ZOMBIE after a change was so before, or dies in it. -/
theorem Change.zombie {k : Kernel} {a : Action} {q : TaskQueue} {p : Point} {cut : Bool}
    (change : Change k a q p cut) (i : Int) (zombie : (q i).state = .zombie) :
    (k.taskQueue i).state = .zombie ∨
    (a = .exit ∧ cut = true ∧ i = k.currentTask ∨ a = .kill i) := by
  by_cases sets : k.SetsOwnState a
  · obtain ⟨s, live, _, after⟩ := change.own sets
    rw [after] at zombie
    split at zombie
    · subst zombie
      exact absurd live (by decide)
    · exact Or.inl zombie
  · rcases change.others sets i with same | ⟨_, runs⟩ | ⟨_, _, ready⟩ | ⟨died, _⟩
    · exact Or.inl (same.symm.trans zombie)
    · rw [runs] at zombie
      cases zombie
    · rw [ready] at zombie
      cases zombie
    · exact Or.inr died

namespace Kernel

/-- The current task is a slot, and it and every live slot know their own number. -/
structure Seated (k : Kernel) : Prop where
  inside : InTable k.currentTask
  own : k.self.pid = k.currentTask
  pids : ∀ i, InTable i → (k.taskQueue i).state.Live → (k.taskQueue i).pid = i

variable {k k' : Kernel} {a : Action}

theorem Seated.boot : Kernel.boot.Seated := by
  refine ⟨by decide, rfl, fun i _ live => ?_⟩
  by_cases used : 0 ≤ i ∧ i ≤ 2
  · simp [Kernel.boot, bootQueue, used]
  · simp [Kernel.boot, bootQueue, used, TaskState.Live] at live

private theorem Seated.fork (seated : k.Seated) (pml4e : BitVec 64) (vm : List VmaStruct) :
    (k.fork pml4e vm).Seated := by
  refine ⟨seated.inside, ?_, fun i inside live => ?_⟩
  · change ((k.fork pml4e vm).taskQueue k.currentTask).pid = k.currentTask
    rw [fork_pid, show (k.taskQueue k.currentTask).pid = _ from seated.own, ite_self]
  · rw [fork_pid]
    split
    · rfl
    next other =>
      rw [fork_state, if_neg other] at live
      exact seated.pids i inside live

theorem Seated.step (seated : k.Seated) (ran : k.Step a k') : k'.Seated := by
  rcases step_cases ran with ⟨pml4e, vm, rfl, rfl⟩ | ⟨q, p, cut, change, moved⟩
  · exact seated.fork pml4e vm
  · have own : (q k.currentTask).pid = k.currentTask :=
      (change.pid_eq _).trans seated.own
    have pids (i : Int) (inside : InTable i) (live : (q i).state.Live) : (q i).pid = i := by
      rcases change.live i live with rfl | before
      · exact own
      · exact (change.pid_eq i).trans (seated.pids i inside before)
    -- The next task is the same one, or a slot that `schedule` saw RUNNING.
    have next : k'.currentTask = k.currentTask ∨
        (InTable k'.currentTask ∧ (q k'.currentTask).state = .running) := by
      cases cut with
      | false => exact Or.inl (moved.current rfl)
      | true =>
        rcases moved.chosen rfl with runs | ⟨self, _⟩
        · exact Or.inr runs
        · exact Or.inl (self.trans own)
    refine ⟨?_, ?_, fun i inside live => ?_⟩
    · rcases next with same | runs
      · exact same ▸ seated.inside
      · exact runs.1
    · rw [self, moved.queue]
      rcases next with same | runs
      · rw [same, own]
      · exact pids _ runs.1 (Or.inl runs.2)
    · rw [moved.queue] at live ⊢
      exact pids i inside live

/-! ## Leaving ZOMBIE -/

/-- In this step a ZOMBIE slot stays one, or becomes READY because its parent, the
current task, reaps it. -/
def DeadStaysDead (k : Kernel) (a : Action) (k' : Kernel) : Prop :=
  ∀ i, InTable i → (k.taskQueue i).state = .zombie →
    (k'.taskQueue i).state = .zombie ∨
    ((k'.taskQueue i).state = .ready ∧
      reapable k.taskQueue k.currentTask i = true ∧ k.Reaps a)

/-- The current task is dead and is about to write its own state. -/
def UndeadCall (k : Kernel) (a : Action) : Prop := k.self.state = .zombie ∧ k.SetsOwnState a

private theorem fork_keeps_dead (pml4e : BitVec 64) (vm : List VmaStruct) :
    DeadStaysDead k (.fork pml4e vm) (k.fork pml4e vm) := by
  intro i inside zombie
  left
  have other : i ≠ newPID k.taskQueue := newPID_ne inside (by simp [zombie])
  rw [fork_state, if_neg other, zombie]

/-- One step keeps the dead dead exactly when no dead task writes its own state in it. -/
theorem step_dead_iff (seated : k.Seated) (ran : k.Step a k') :
    DeadStaysDead k a k' ↔ ¬k.UndeadCall a := by
  rcases step_cases ran with ⟨pml4e, vm, rfl, rfl⟩ | ⟨q, p, cut, change, moved⟩
  · exact iff_of_true (fork_keeps_dead pml4e vm) (fun undead => undead.2)
  · unfold DeadStaysDead
    rw [moved.queue]
    by_cases sets : k.SetsOwnState a
    · obtain ⟨s, live, _, after⟩ := change.own sets
      constructor
      -- The state that it writes over its own is a live one.
      · intro kept undead
        have now : (q k.currentTask).state = s := by rw [after, if_pos rfl]
        rcases kept k.currentTask seated.inside undead.1 with zombie | ⟨ready, _⟩
        · rw [← now, zombie] at live
          exact absurd live (by decide)
        · rw [← now, ready] at live
          exact absurd live (by decide)
      · intro allowed i _ zombie
        left
        have other : i ≠ k.currentTask := by
          rintro rfl
          exact allowed ⟨zombie, sets⟩
        rwa [after, if_neg other]
    · refine iff_of_true (fun i _ zombie => ?_) (fun undead => sets undead.2)
      rcases change.others sets i with same | ⟨blocked, _⟩ | ⟨dead, call, ready⟩ | ⟨_, died⟩
      · exact Or.inl (same.trans zombie)
      · rw [zombie] at blocked
        rcases blocked with h | h | h <;> cases h
      · exact Or.inr ⟨ready, dead, call⟩
      · exact Or.inl died

/-- In a run from boot dead tasks stay dead exactly when at no step a dead task, which
`kill` or `exit` returned to, goes on to a call that writes its own state. -/
theorem dead_stays_dead_iff (run : List (Action × Kernel)) (ran : Along Step boot run) :
    Along DeadStaysDead boot run ↔ Along (fun k a _ => ¬k.UndeadCall a) boot run := by
  refine Along.congr ?_ ?_ Seated.boot ran
  · exact fun k a k' seated step => seated.step step
  · exact fun k a k' seated step => step_dead_iff seated step

/-- A child is killed and reaped. -/
theorem dead_stays_dead_of_reaped_child :
    (follow step boot [.fork 0 [], .kill 3, .waitpid 3]).length = 3 ∧
    (Along DeadStaysDead boot (follow step boot [.fork 0 [], .kill 3, .waitpid 3]) ↔
      Along (fun k a _ => ¬k.UndeadCall a) boot
        (follow step boot [.fork 0 [], .kill 3, .waitpid 3])) :=
  ⟨by decide +kernel, dead_stays_dead_iff _ (along_follow _ _ _)⟩

/-- The first program kills itself and then sleeps: its slot goes from ZOMBIE to HANG. -/
theorem killed_task_sleeps :
    ¬∀ run, Along Step boot run → Along DeadStaysDead boot run := by
  intro all
  have stepped : ((boot.kill 2).step (.sleep 1)).map (fun k => (k.taskQueue 2).state) =
      some .hang := by decide +kernel
  obtain ⟨k, slept, hang⟩ := Option.map_eq_some_iff.mp stepped
  have kept := all [(.kill 2, boot.kill 2), (.sleep 1, k)]
    (by rw [along_cons, along_cons]; exact ⟨rfl, slept, along_nil _ _⟩)
  rw [along_cons, along_cons] at kept
  rcases kept.2.1 2 (by decide) (by decide) with dead | ⟨ready, _⟩
  · rw [hang] at dead
    cases dead
  · rw [hang] at ready
    cases ready

end Kernel

end LateOS
