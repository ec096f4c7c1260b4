import Mathlib.Data.List.Chain
import LateOS.Process.Parent

/-!
# Creations and reapings

In every slot they alternate: `newPID` only hands out free slots, `wait` and `waitpid` only
report ZOMBIE children, and nothing else frees a slot or takes one.
-/
namespace LateOS

open Lib

namespace Kernel

variable {k k' : Kernel} {a : Action}

/-- The slot that `newPID` hands out in a step. -/
def created (k : Kernel) : Action → Option Int
  | .fork _ _ => some (newPID k.taskQueue)
  | _ => none

/-- The pid that `wait` or `waitpid` returns in a step. -/
def reported (k : Kernel) : Action → Option Int
  | .wait => firstSlot (reapable k.taskQueue k.currentTask)
  | .waitpid pid => if reapable k.taskQueue k.currentTask pid then some pid else none
  | .resume =>
    match k.point k.currentTask with
    | .wait => firstSlot (reapable k.taskQueue k.currentTask)
    | .waitpid pid => if reapable k.taskQueue k.currentTask pid then some pid else none
    | _ => none
  | _ => none

/-- `waitpid` is given the number of a slot. -/
def AsksSlot : Action → Prop
  | .waitpid pid => InTable pid
  | _ => True

instance : ∀ a, Decidable (AsksSlot a)
  | .waitpid _ => inferInstanceAs (Decidable (_ ∧ _))
  | .fork .. | .kill _ | .exec .. | .exit | .wait | .sleep _ | .read | .schedule | .timer
  | .key _ | .resume => isTrue trivial

/-- The conditions on the calls: `fork` has a free slot, `kill` and `waitpid` name slots, and
that of `kill` is in use. -/
def Tidy (k : Kernel) (a : Action) : Prop := k.Addressed a ∧ AsksSlot a

instance (k : Kernel) (a : Action) : Decidable (k.Tidy a) := inferInstanceAs (Decidable (_ ∧ _))

/-- What holds before and after every step: slots in use know their number, and a suspended
`waitpid` looks at a slot. -/
structure Orderly (k : Kernel) : Prop where
  rooted : k.Rooted
  pids : ∀ i, InTable i → (k.taskQueue i).state ≠ .ready → (k.taskQueue i).pid = i
  asked : ∀ j pid, k.point j = .waitpid pid → InTable pid

/-- A step gives out free slots, reports dead children, and otherwise leaves free slots free
and slots in use in use. -/
structure Accounted (k : Kernel) (a : Action) (k' : Kernel) : Prop where
  created : ∀ i, k.created a = some i →
    InTable i ∧ (k.taskQueue i).state = .ready ∧ (k'.taskQueue i).state ≠ .ready
  reported : ∀ i, k.reported a = some i →
    InTable i ∧ (k.taskQueue i).state = .zombie ∧ (k.taskQueue i).ppid = k.self.pid ∧
      (k'.taskQueue i).state = .ready
  others : ∀ i, InTable i → k.created a ≠ some i → k.reported a ≠ some i →
    ((k'.taskQueue i).state = .ready ↔ (k.taskQueue i).state = .ready)
  pids : ∀ i, InTable i → (k'.taskQueue i).state ≠ .ready → (k'.taskQueue i).pid = i

/-! ## One step -/

theorem created_none {q : TaskQueue} {p : Point} {cut : Bool} (change : Change k a q p cut) :
    k.created a = none := by
  cases change with
  | reapFirst i call => rcases call with ⟨rfl, _⟩ | ⟨rfl, _⟩ <;> rfl
  | reapPid i call => rcases call with ⟨rfl, _⟩ | ⟨rfl, _⟩ <;> rfl
  | wait call => rcases call with ⟨rfl, _⟩ | ⟨rfl, _⟩ <;> rfl
  | read call => rcases call with ⟨rfl, _⟩ | ⟨rfl, _⟩ <;> rfl
  | miss call => rcases call with ⟨rfl, _⟩ | ⟨rfl, _⟩ <;> rfl
  | await call => rcases call with ⟨rfl, _⟩ | ⟨rfl, _⟩ <;> rfl
  | keep quiet => rcases quiet with rfl | ⟨rfl, _⟩ | ⟨_, rfl⟩ | ⟨rfl, _⟩ <;> rfl
  | _ => rfl

theorem reported_wait (call : k.Runs a .wait .wait) :
    k.reported a = firstSlot (reapable k.taskQueue k.currentTask) := by
  rcases call with ⟨rfl, _⟩ | ⟨rfl, cut⟩
  · rfl
  · simp only [reported, cut]

theorem reported_waitpid {pid : Int} (call : k.Runs a (.waitpid pid) (.waitpid pid)) :
    k.reported a = if reapable k.taskQueue k.currentTask pid then some pid else none := by
  rcases call with ⟨rfl, _⟩ | ⟨rfl, cut⟩
  · rfl
  · simp only [reported, cut]

theorem terminate_not_ready (q : TaskQueue) (i pid j : Int)
    (free : (terminate q i pid j).state = .ready) : (q j).state = .ready := by
  rw [terminate_state] at free
  split at free
  · cases free
  · split at free
    · cases free
    · exact free

theorem setState_not_ready (q : TaskQueue) (i j : Int) {s : TaskState} (used : s ≠ .ready)
    (free : (setState q i s j).state = .ready) : (q j).state = .ready := by
  rw [setState_state] at free
  split at free
  · exact absurd free used
  · exact free

/-- A step frees the slot that it reports, or none. -/
theorem change_frees {q : TaskQueue} {p : Point} {cut : Bool} (change : Change k a q p cut) :
    (∃ i, k.reported a = some i ∧ reapable k.taskQueue k.currentTask i = true ∧
      q = setState k.taskQueue i .ready ∧ (InTable i ∨ k.Runs a (.waitpid i) (.waitpid i))) ∨
    (k.reported a = none ∧ ∀ i, (q i).state = .ready → (k.taskQueue i).state = .ready) := by
  cases change with
  | reapFirst i call found =>
    obtain ⟨inside, dead⟩ := firstSlot_some found
    exact Or.inl ⟨i, (reported_wait call).trans found, dead, rfl, Or.inl inside⟩
  | reapPid i call dead =>
    refine Or.inl ⟨i, ?_, dead, rfl, Or.inr call⟩
    rw [reported_waitpid call, if_pos dead]
  | exec name rip rsp vm =>
    refine Or.inr ⟨rfl, fun i free => ?_⟩
    by_cases here : i = k.currentTask
    · subst here
      simpa [Kernel.exec, Kernel.self] using free
    · simpa [Kernel.exec, here] using free
  | exit => exact Or.inr ⟨rfl, fun i free => terminate_not_ready _ _ _ i free⟩
  | kill pid => exact Or.inr ⟨rfl, fun i free => terminate_not_ready _ _ _ i free⟩
  | wait call none =>
    refine Or.inr ⟨(reported_wait call).trans none, fun i free => ?_⟩
    exact setState_not_ready _ _ i (by decide) free
  | waitpid pid alive =>
    refine Or.inr ⟨by simp [reported, alive], fun i free => ?_⟩
    exact setState_not_ready _ _ i (by decide) free
  | respin pid cut alive =>
    refine Or.inr ⟨?_, fun i free => free⟩
    simp only [reported, cut, alive]
    rfl
  | sleep seconds some =>
    refine Or.inr ⟨rfl, fun i free => ?_⟩
    by_cases here : i = k.currentTask
    · subst here
      simp at free
    · simpa [here] using free
  | read call lines found =>
    refine Or.inr ⟨?_, fun i free => setState_not_ready _ _ i (by decide) free⟩
    rcases call with ⟨rfl, _⟩ | ⟨rfl, cut⟩
    · rfl
    · simp only [reported, cut]
  | miss call =>
    refine Or.inr ⟨?_, fun i free => free⟩
    rcases call with ⟨rfl, _⟩ | ⟨rfl, cut⟩
    · rfl
    · simp only [reported, cut]
  | await call =>
    refine Or.inr ⟨?_, fun i free => setState_not_ready _ _ i (by decide) free⟩
    rcases call with ⟨rfl, _⟩ | ⟨rfl, cut⟩
    · rfl
    · simp only [reported, cut]
  | idle => exact Or.inr ⟨rfl, fun i free => free⟩
  | keep quiet =>
    refine Or.inr ⟨?_, fun i free => free⟩
    rcases quiet with rfl | ⟨rfl, _⟩ | ⟨_, rfl⟩ | ⟨rfl, cut | cut⟩
    · rfl
    · rfl
    · rfl
    · simp only [reported, cut]
    · simp only [reported, cut]
  | key code =>
    refine Or.inr ⟨rfl, fun i free => ?_⟩
    rcases wakeProcess_state k.taskQueue i with same | ⟨_, runs⟩
    · exact same.symm.trans free
    · rw [runs] at free
      cases free
  | preempt => exact Or.inr ⟨rfl, fun i free => free⟩
  | tick cut =>
    refine Or.inr ⟨by simp only [reported, cut], fun i free => ?_⟩
    rcases taskTimer_state k.taskQueue i with same | ⟨_, runs⟩
    · exact same.symm.trans free
    · rw [runs] at free
      cases free

/-- A task is only left at `waitpid` with the number of a slot. -/
theorem asked_step (asked : ∀ j pid, k.point j = .waitpid pid → InTable pid) (asks : AsksSlot a)
    (ran : k.Step a k') : ∀ j pid, k'.point j = .waitpid pid → InTable pid := by
  intro j pid left
  rcases step_cases ran with ⟨pml4e, vm, rfl, rfl⟩ | ⟨q, p, cut, change, moved⟩
  · change Function.update k.point (newPID k.taskQueue) .top j = _ at left
    by_cases child : j = newPID k.taskQueue
    · rw [child, Function.update_self] at left
      cases left
    · rw [Function.update_of_ne child] at left
      exact asked j pid left
  · rw [moved.point] at left
    by_cases here : j = k.currentTask
    · rw [here, Function.update_self] at left
      cases change with
      | waitpid => cases left; exact asks
      | respin _ cut => cases left; exact asked _ pid cut
      | _ => cases left
    · rw [Function.update_of_ne here] at left
      exact asked j pid left

theorem Orderly.fork (orderly : k.Orderly) (pml4e : BitVec 64) (vm : List VmaStruct)
    (tidy : k.Tidy (.fork pml4e vm)) (rooted : (k.fork pml4e vm).Rooted)
    (asked : ∀ j pid, (k.fork pml4e vm).point j = .waitpid pid → InTable pid) :
    (k.fork pml4e vm).Orderly ∧ k.Accounted (.fork pml4e vm) (k.fork pml4e vm) := by
  obtain ⟨inside, free⟩ : InTable (newPID k.taskQueue) ∧
      (k.taskQueue (newPID k.taskQueue)).state = .ready := by
    rcases newPID_cases k.taskQueue with found | ⟨full, _⟩
    · exact found
    · exact absurd full tidy.1
  have pids (i : Int) (slot : InTable i) (used : ((k.fork pml4e vm).taskQueue i).state ≠ .ready) :
      ((k.fork pml4e vm).taskQueue i).pid = i := by
    rw [fork_pid]
    rw [fork_state] at used
    split
    · rfl
    next other =>
      rw [if_neg other] at used
      exact orderly.pids i slot used
  refine ⟨⟨rooted, pids, asked⟩, ⟨fun i here => ?_, nofun, fun i _ other _ => ?_, pids⟩⟩
  · cases here
    refine ⟨inside, free, ?_⟩
    rw [fork_state, if_pos rfl]
    decide
  · rw [fork_state, if_neg]
    rintro rfl
    exact other rfl

theorem Orderly.step (orderly : k.Orderly) (tidy : k.Tidy a) (ran : k.Step a k') :
    k'.Orderly ∧ k.Accounted a k' := by
  have rooted := orderly.rooted.step ran
  have asked := asked_step orderly.asked tidy.2 ran
  rcases step_cases ran with ⟨pml4e, vm, rfl, rfl⟩ | ⟨q, p, cut, change, moved⟩
  · exact orderly.fork pml4e vm tidy rooted asked
  have frees := change_frees change
  -- A slot that is free after the step was so before, or is the one reported.
  have freed (i : Int) (free : (q i).state = .ready) :
      (k.taskQueue i).state = .ready ∨ k.reported a = some i := by
    rcases frees with ⟨j, found, _, rfl, _⟩ | ⟨_, none⟩
    · by_cases here : i = j
      · rw [here]
        exact Or.inr found
      · rw [setState_state, if_neg here] at free
        exact Or.inl free
    · exact Or.inl (none i free)
  have pids (i : Int) (slot : InTable i) (used : (k'.taskQueue i).state ≠ .ready) :
      (k'.taskQueue i).pid = i := by
    rw [moved.queue] at used ⊢
    rw [change.pid_eq]
    exact orderly.pids i slot fun free =>
      used (free_kept orderly.rooted.used (tidy.1.spares free) change free)
  refine ⟨⟨rooted, pids, asked⟩, ⟨fun i here => ?_, fun i found => ?_, fun i _ _ other => ?_,
    pids⟩⟩
  · rw [created_none change] at here
    cases here
  · rcases frees with ⟨j, found', dead, shape, slot⟩ | ⟨none, _⟩
    · rw [found] at found'
      cases found'
      obtain ⟨parent, zombie⟩ := (reapable_iff _ _ _).mp dead
      refine ⟨?_, zombie, parent, ?_⟩
      -- `wait` scans the slots; `waitpid` was given one, now or before it was suspended.
      · rcases slot with inside | ⟨rfl, _⟩ | ⟨_, cut⟩
        · exact inside
        · exact tidy.2
        · exact orderly.asked _ i cut
      · rw [moved.queue, shape, setState_state, if_pos rfl]
    · rw [none] at found
      cases found
  · rw [moved.queue]
    constructor
    · intro free
      rcases freed i free with before | found
      · exact before
      · exact absurd found other
    · exact fun free => free_kept orderly.rooted.used (tidy.1.spares free) change free

theorem Orderly.boot : Kernel.boot.Orderly := by
  refine ⟨Rooted.boot, fun i _ used => ?_, nofun⟩
  by_cases taken : 0 ≤ i ∧ i ≤ 2
  · simp [Kernel.boot, bootQueue, taken]
  · simp [Kernel.boot, bootQueue, taken] at used

/-! ## Runs -/

/-- What happens to a slot. -/
inductive SlotEvent where
  | created | reaped
  deriving DecidableEq, Repr

/-- The event that a slot has behind it. -/
def lastEvent (k : Kernel) (i : Int) : SlotEvent :=
  if (k.taskQueue i).state = .ready then .reaped else .created

/-- What happens to slot `i` along a run. -/
def slotEvents (i : Int) : Kernel → List (Action × Kernel) → List SlotEvent
  | _, [] => []
  | k, (a, k') :: rest =>
    if k.created a = some i then .created :: slotEvents i k' rest
    else if k.reported a = some i then .reaped :: slotEvents i k' rest
    else slotEvents i k' rest

/-- From an orderly state on, creations and reapings of a slot alternate. -/
theorem Orderly.alternate (orderly : k.Orderly) {run : List (Action × Kernel)}
    (ran : Along Step k run) (tidy : Along (fun k a _ => k.Tidy a) k run) {i : Int}
    (inside : InTable i) : List.IsChain (· ≠ ·) (k.lastEvent i :: slotEvents i k run) := by
  induction run generalizing k with
  | nil => exact List.isChain_singleton _
  | cons head rest ih =>
    obtain ⟨a, k'⟩ := head
    rw [along_cons] at ran tidy
    obtain ⟨orderly', accounted⟩ := orderly.step tidy.1 ran.1
    have later := ih orderly' ran.2 tidy.2
    rw [slotEvents]
    split
    next here =>
      obtain ⟨_, free, taken⟩ := accounted.created i here
      -- The slot was free: its last event was a reaping, or it was never used.
      have before : k.lastEvent i = .reaped := if_pos free
      have after : k'.lastEvent i = .created := if_neg taken
      rw [after] at later
      rw [before]
      exact List.isChain_cons_cons.mpr ⟨by decide, later⟩
    next notCreated =>
      split
      next here =>
        obtain ⟨_, zombie, _, free⟩ := accounted.reported i here
        have before : k.lastEvent i = .created := if_neg (by rw [zombie]; decide)
        have after : k'.lastEvent i = .reaped := if_pos free
        rw [after] at later
        rw [before]
        exact List.isChain_cons_cons.mpr ⟨by decide, later⟩
      next notReported =>
        have same := accounted.others i inside notCreated notReported
        have equal : k'.lastEvent i = k.lastEvent i := by
          unfold lastEvent
          simp only [same]
        rw [equal] at later
        exact later

/-- Exactly-once reaping, in every run from boot. -/
theorem reaped_exactly_once (run : List (Action × Kernel)) (ran : Along Step boot run)
    (tidy : Along (fun k a _ => k.Tidy a) boot run) :
    Along Accounted boot run ∧
    ∀ i, InTable i → List.IsChain (· ≠ ·) (boot.lastEvent i :: slotEvents i boot run) := by
  constructor
  · have preserved (k : Kernel) (a : Action) (k' : Kernel) (orderly : k.Orderly)
        (step : k.Step a k' ∧ k.Tidy a) : k'.Orderly := (orderly.step step.2 step.1).1
    refine (Along.invariant preserved Orderly.boot (ran.and tidy)).mono fun k a k' step => ?_
    exact (step.1.step step.2.1.2 step.2.1.1).2
  · exact fun i inside => Orderly.boot.alternate ran tidy inside

/-- A child forks and exits; its slot is handed out and reported once. -/
theorem reaped_exactly_once_of_orphaned_child :
    slotEvents 3 boot (follow step boot orphanedChild) = [.created, .reaped] ∧
    Along Accounted boot (follow step boot orphanedChild) := by
  have runs : slotEvents 3 boot (follow step boot orphanedChild) = [.created, .reaped] ∧
      Along (fun k a _ => k.Tidy a) boot (follow step boot orphanedChild) := by
    decide +kernel
  exact ⟨runs.1, (reaped_exactly_once _ (ran_follow orphanedChild) runs.2).1⟩

end Kernel

end LateOS
