import LateOS.Process.Rooted

/-!
# Waiting parents

Whether a task blocked in `wait` can have a ZOMBIE child. A death wakes the parent of the
task that dies, and nobody else: the ZOMBIE children it leaves are handed to pid 0, and if
`init` is already blocked in `wait` it is not told.
-/
namespace LateOS

open Lib

namespace Kernel

variable {k k' : Kernel} {a : Action}

/-- No task that is blocked in `wait` has a ZOMBIE child. -/
def NoLostChild (k : Kernel) : Prop :=
  ∀ t, InTable t → (k.taskQueue t).state = .wait → k.point t = .wait →
    ∀ i, InTable i → (k.taskQueue i).state = .zombie →
      (k.taskQueue i).ppid ≠ (k.taskQueue t).pid

/-- `kill` is only called on live slots. -/
def KillsLive (k : Kernel) : Action → Prop
  | .kill pid => InTable pid ∧ (k.taskQueue pid).state.Live
  | _ => True

instance (k : Kernel) : ∀ a, Decidable (k.KillsLive a)
  | .kill _ => inferInstanceAs (Decidable (_ ∧ _))
  | .fork .. | .exec .. | .exit | .wait | .waitpid _ | .sleep _ | .read | .schedule | .timer
  | .key _ | .resume => isTrue trivial

/-- Slot `i`, with process id `pid`, dies leaving a ZOMBIE child, while `init` is blocked
in `wait` and is not the parent that the death wakes. -/
def LeavesZombie (k : Kernel) (i pid : Int) : Prop :=
  (k.taskQueue 0).state = .wait ∧ k.point 0 = .wait ∧ i ≠ 0 ∧ heir k.taskQueue i pid ≠ 0 ∧
    ∃ c, InTable c ∧ c ≠ i ∧ (k.taskQueue c).state = .zombie ∧ (k.taskQueue c).ppid = pid

def LosesChild (k : Kernel) : Action → Prop
  | .exit => k.LeavesZombie k.currentTask k.self.pid
  | .kill pid => k.LeavesZombie pid pid
  | _ => False

/-- A system call is only made from the program itself. -/
theorem step_top (ran : k.Step a k') (call : a ≠ .resume) : k.point k.currentTask = .top := by
  rcases step_iff.mp ran with ⟨top, _⟩ | ⟨_, resumed, _⟩
  · exact top
  · exact absurd resumed call

private theorem NoLostChild.boot : Kernel.boot.NoLostChild := by
  intro t inside waits
  exfalso
  by_cases used : 0 ≤ t ∧ t ≤ 2 <;> simp [Kernel.boot, bootQueue, used] at waits

private theorem NoLostChild.fork (before : k.NoLostChild) (pml4e : BitVec 64)
    (vm : List VmaStruct) (apart : k.currentTask ≠ newPID k.taskQueue) :
    (k.fork pml4e vm).NoLostChild := by
  intro t inside waits point i slot zombie
  have oldT : t ≠ newPID k.taskQueue := by
    rintro rfl
    simp [Kernel.fork] at waits
  have oldI : i ≠ newPID k.taskQueue := by
    rintro rfl
    simp [Kernel.fork] at zombie
  simp only [Kernel.fork, increaseChildCount_state, createChild_state, oldT, oldI, if_false,
    increaseChildCount_pid, createChild_pid, increaseChildCount_ppid,
    createChild_ppid _ _ _ _ _ apart, Function.update_of_ne oldT] at *
  exact before t inside waits point i slot zombie

/-- A change that kills nobody loses no child. -/
private theorem NoLostChild.quiet (before : k.NoLostChild) {q : TaskQueue} {p : Point}
    {cut : Bool} (change : Change k a q p cut) (moved : Moved k k' q p cut)
    (ppid : ∀ j, (q j).ppid = (k.taskQueue j).ppid)
    (zombies : ∀ j, (q j).state = .zombie → (k.taskQueue j).state = .zombie)
    (waits : ∀ j, (q j).state = .wait → j ≠ k.currentTask → (k.taskQueue j).state = .wait) :
    k'.NoLostChild := by
  intro t inside waitsT point i slot zombie
  rw [moved.queue] at waitsT zombie ⊢
  rw [ppid, change.pid_eq]
  rw [moved.point] at point
  by_cases here : t = k.currentTask
  · subst here
    rw [Function.update_self] at point
    subst point
    cases change with
    -- The task has just found no ZOMBIE child.
    | wait call none =>
      have alive := firstSlot_none.mp none i slot
      intro child
      rw [(reapable_iff _ _ _).mpr ⟨child, zombies i zombie⟩] at alive
      cases alive
  · rw [Function.update_of_ne here] at point
    exact before t inside (waits t waitsT here) point i slot (zombies i zombie)

/-- A death loses a child exactly when it leaves a ZOMBIE one to a waiting `init`. -/
private theorem NoLostChild.terminate (before : k.NoLostChild) (seated : k.Seated)
    {i pid : Int} {p : Point} (away : p ≠ .wait) (top : k.point k.currentTask = .top)
    (queue : k'.taskQueue = terminate k.taskQueue i pid)
    (point : k'.point = Function.update k.point k.currentTask p)
    : k'.NoLostChild ↔ ¬k.LeavesZombie i pid := by
  -- Who still waits after the death is neither the slot that died nor the one it woke.
  have stays (t : Int) (waits : (k'.taskQueue t).state = .wait) : t ≠ i ∧
      t ≠ heir k.taskQueue i pid ∧ (k.taskQueue t).state = .wait := by
    rw [queue, terminate_state] at waits
    split at waits
    · cases waits
    · next other =>
      split at waits
      · cases waits
      · next asleep => exact ⟨other, fun woken => asleep ⟨woken, waits⟩, waits⟩
  constructor
  · rintro kept ⟨waits, atWait, alive, elsewhere, c, inside, other, zombie, child⟩
    have waits' : (k'.taskQueue 0).state = .wait := by
      rw [queue, terminate_state, if_neg (Ne.symm alive), if_neg (fun h => elsewhere h.1.symm),
        waits]
    have zombie' : (k'.taskQueue c).state = .zombie := by
      rw [queue, terminate_state, if_neg other, if_neg (by simp [zombie]), zombie]
    have atWait' : k'.point 0 = .wait := by
      rw [point]
      by_cases here : k.currentTask = 0
      · rw [here, atWait] at top
        cases top
      · rw [Function.update_of_ne (Ne.symm here), atWait]
    refine kept 0 (by decide) waits' atWait' c inside zombie' ?_
    rw [queue, terminate_ppid, terminate_pid, if_pos ⟨inside, child⟩,
      seated.pids 0 (by decide) (by simp [waits, TaskState.Live])]
  · intro safe t inside waits atWait c slotC zombie child
    obtain ⟨other, asleep, waitsBefore⟩ := stays t waits
    have own : (k.taskQueue t).pid = t :=
      seated.pids t inside (by simp [waitsBefore, TaskState.Live])
    have atWaitBefore : k.point t = .wait := by
      rw [point] at atWait
      by_cases here : t = k.currentTask
      · subst here
        rw [Function.update_self] at atWait
        exact absurd atWait away
      · rwa [Function.update_of_ne here] at atWait
    rw [queue, terminate_pid, own, terminate_ppid] at child
    by_cases dead : c = i
    · subst dead
      exact asleep child.symm
    · have zombieBefore : (k.taskQueue c).state = .zombie := by
        rw [queue, terminate_state, if_neg dead] at zombie
        split at zombie
        · cases zombie
        · exact zombie
      split at child
      next handed =>
        -- a ZOMBIE child of the slot that dies has just been handed to `init`
        subst child
        exact safe ⟨waitsBefore, atWaitBefore, Ne.symm other, Ne.symm asleep, c, slotC, dead,
          zombieBefore, handed.2⟩
      next =>
        refine before t inside waitsBefore atWaitBefore c slotC zombieBefore ?_
        rw [own, child]

/-- One step keeps every termination seen exactly when it leaves no ZOMBIE child to a
waiting `init`. -/
theorem NoLostChild.step_iff (before : k.NoLostChild) (rooted : k.Rooted)
    (ran : k.Step a k') : k'.NoLostChild ↔ ¬k.LosesChild a := by
  rcases step_cases ran with ⟨pml4e, vm, rfl, rfl⟩ | ⟨q, p, cut, change, moved⟩
  · exact iff_of_true (before.fork pml4e vm rooted.current_ne_child) id
  · rcases change.death_cases with ⟨⟨exit, kill⟩, ppid⟩ | ⟨rfl, dies, rfl⟩ | ⟨pid, rfl, dies, rfl⟩
    -- Nobody dies: every ZOMBIE is an old one, and so is everybody who waits.
    · have quiet : ¬k.LosesChild a := by
        cases a <;> first | exact id | exact absurd rfl exit | exact absurd rfl (kill _)
      refine iff_of_true (before.quiet change moved ppid ?_ ?_) quiet
      · intro j zombie
        rcases change.zombie j zombie with before | ⟨died, _⟩ | died
        · exact before
        · exact absurd died exit
        · exact absurd died (kill j)
      · intro j waits other
        by_cases sets : k.SetsOwnState a
        · obtain ⟨s, _, _, after⟩ := change.own sets
          rwa [after, if_neg other] at waits
        · rcases change.others sets j with same | ⟨_, runs⟩ | ⟨_, _, ready⟩ | ⟨_, zombie⟩
          · exact same.symm.trans waits
          · rw [runs] at waits
            cases waits
          · rw [ready] at waits
            cases waits
          · rw [zombie] at waits
            cases waits
    · have top := step_top ran (by simp)
      exact before.terminate rooted.seated (by simp) top (moved.queue.trans dies) moved.point
    · have top := step_top ran (by simp)
      exact before.terminate rooted.seated (by simp) top (moved.queue.trans dies) moved.point

/-- In a run from boot no task blocked in `wait` ever has a ZOMBIE child exactly when no
task dies leaving a ZOMBIE child to an `init` that is blocked in `wait` and that this
death does not wake. -/
theorem no_lost_child_iff (run : List (Action × Kernel)) (ran : Along Step boot run) :
    Along (fun _ _ k' => k'.NoLostChild) boot run ↔
      Along (fun k a _ => ¬k.LosesChild a) boot run := by
  refine Along.exact ?_ ?_ Rooted.boot NoLostChild.boot ran
  · exact fun k a k' rooted step => rooted.step step
  · exact fun k a k' rooted before step => before.step_iff rooted step

theorem ran_follow (actions : List Action) : Along Step boot (follow step boot actions) :=
  along_follow step boot actions

/-- `in` blocks in `wait`, and the first program's child is killed. -/
def killedChild : List Action := [.read, .wait, .key 28, .schedule, .resume, .fork 0 [], .kill 3]

theorem no_lost_child_of_killed_child : (follow step boot killedChild).length = 7 ∧
    (Along (fun _ _ k' => k'.NoLostChild) boot (follow step boot killedChild) ↔
      Along (fun k a _ => ¬k.LosesChild a) boot (follow step boot killedChild)) :=
  ⟨by decide +kernel, no_lost_child_iff _ (ran_follow killedChild)⟩

/-- `in` blocks in `wait`; a child of the first program kills its own child and exits. -/
def orphanedZombie : List Action :=
  [.read, .wait, .key 28, .schedule, .resume, .fork 0 [], .waitpid 3, .fork 0 [], .kill 4, .exit]

/-- After that, `init` sleeps on in `wait` and slot 4 is its ZOMBIE child. -/
theorem init_misses_zombie :
    ¬∀ run, Along Step boot run → Along (fun k a _ => k.KillsLive a) boot run →
      Along (fun _ _ k' => k'.NoLostChild) boot run := by
  intro all
  have runs : Along (fun k a _ => k.KillsLive a) boot (follow step boot orphanedZombie) ∧
      let k := lastState boot (follow step boot orphanedZombie)
      ((k.taskQueue 0).state = .wait ∧ k.point 0 = .wait) ∧
        (k.taskQueue 4).state = .zombie ∧ (k.taskQueue 4).ppid = (k.taskQueue 0).pid := by
    decide +kernel
  obtain ⟨live, lost⟩ := runs
  have kept := (all _ (ran_follow orphanedZombie) live).last NoLostChild.boot
  exact kept 0 (by decide) lost.1.1 lost.1.2 4 (by decide) lost.2.1 lost.2.2

end Kernel

end LateOS
