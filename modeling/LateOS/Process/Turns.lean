import LateOS.Lib.Countdown
import LateOS.Process.Runnable

/-!
# Turns

How long a task waits for the processor. `schedule` goes round the table, and so a RUNNING task
comes next after at most as many calls as there are slots from the current one to it. A parent that
waits for a child is made RUNNING by the child's death, and has its turn with the child still dead.
-/
namespace LateOS

open Lib

namespace Kernel

variable {k k' mid : Kernel} {a : Action} {q : TaskQueue} {p : Point} {cut : Bool} {c i t : Int}
  {before run : List (Action × Kernel)}

instance (k : Kernel) : ∀ a, Decidable (k.CallsSchedule a)
  | .exit | .schedule => isTrue trivial
  | .wait => inferInstanceAs (Decidable (_ = none))
  | .waitpid _ => inferInstanceAs (Decidable (_ = false))
  | .sleep _ => inferInstanceAs (Decidable (_ ≠ _))
  | .read => inferInstanceAs (Decidable (¬(_ ∧ _)))
  | .timer => inferInstanceAs (Decidable (_ = _))
  | .resume =>
    match at_ : k.point k.currentTask with
    | .wait => decidable_of_iff (firstSlot (reapable k.taskQueue k.currentTask) = none)
        (by simp only [CallsSchedule, at_])
    | .waitpid pid => decidable_of_iff (reapable k.taskQueue k.currentTask pid = false)
        (by simp only [CallsSchedule, at_])
    | .intRead => decidable_of_iff (¬(0 < k.terminal.lineCount ∧ k.lineFound = true))
        (by simp only [CallsSchedule, at_])
    | .top | .exit | .sleep | .intTimer =>
      isFalse (by simp only [CallsSchedule, at_, not_false_iff])
  | .fork .. | .exec .. | .kill _ | .key _ => isFalse id

/-- How many slots `schedule` looks at from the current one to slot `i`. -/
def distance (i : Int) (k : Kernel) : Nat := ((i - k.currentTask) % MAX).toNat

/-- A step that does not kill task `t`. -/
def Spares (t : Int) (k : Kernel) (a : Action) (k' : Kernel) : Prop := k.Step a k' ∧ a ≠ .kill t

/-! ## One call of `schedule` -/

/-- `schedule` is called by the current task. -/
def HandsOver (k k' : Kernel) : Prop :=
  ∃ (mid : Kernel) (p : Point), mid.schedule p = some k' ∧ mid.currentTask = k.currentTask

private theorem wait_hands (ran : k.wait = some k')
    (alive : firstSlot (reapable k.taskQueue k.currentTask) = none) : HandsOver k k' := by
  rw [wait, alive] at ran
  exact ⟨_, _, ran, rfl⟩

private theorem intRead_hands (ran : k.intRead = some k')
    (missing : ¬(0 < k.terminal.lineCount ∧ k.lineFound = true)) : HandsOver k k' := by
  unfold intRead at ran
  split at ran
  next lines =>
    dsimp only at ran
    split at ran
    next found => exact absurd ⟨lines, found⟩ missing
    next => exact ⟨_, _, ran, rfl⟩
  next => exact ⟨_, _, ran, rfl⟩

theorem step_hands (ran : k.Step a k') (calls : k.CallsSchedule a) : HandsOver k k' := by
  rcases step_iff.mp ran with ⟨top, called⟩ | ⟨_, rfl, resumed⟩
  -- The calls, in the order of their equations; those left over never call `schedule`.
  · unfold call at called
    split at called
    case h_1 => exact wait_hands called calls
    case h_2 => exact ⟨_, _, called, rfl⟩
    case h_3 =>
      have due : k.timerCount + 1 = 20 := calls
      rw [intTimer, if_pos due] at called
      exact ⟨_, _, called, rfl⟩
    case h_7 => exact ⟨_, _, called, rfl⟩
    case h_9 => exact wait_hands called calls
    case h_10 pid _ =>
      have alive : reapable k.taskQueue k.currentTask pid = false := calls
      rw [waitpid, alive] at called
      exact ⟨_, _, called, rfl⟩
    case h_11 seconds _ =>
      have some : seconds ≠ 0 := calls
      rw [sleep, if_neg some] at called
      exact ⟨_, _, called, rfl⟩
    case h_12 => exact intRead_hands called calls
    case h_13 => cases called
    all_goals exact absurd calls id
  · cases cut : k.point k.currentTask with
    | wait =>
      rw [cut] at resumed
      simp only [CallsSchedule, cut] at calls
      exact wait_hands resumed calls
    | waitpid pid =>
      rw [cut, resume, resumeWaitpid] at resumed
      simp only [CallsSchedule, cut] at calls
      rw [calls] at resumed
      exact ⟨_, _, resumed, rfl⟩
    | intRead =>
      rw [cut] at resumed
      simp only [CallsSchedule, cut] at calls
      exact intRead_hands resumed calls
    | _ => simp [CallsSchedule, cut] at calls

/-- No RUNNING slot is passed over. -/
theorem schedule_nearest (called : mid.schedule p = some k') (own : mid.self.pid = c)
    (seat : InTable c) (slot : InTable i) (runs : (mid.taskQueue i).state = .running)
    (other : i ≠ c) : k'.self.state = .running ∧ (i - k'.currentTask) % MAX < (i - c) % MAX := by
  have first : InTable ((c + 1) % MAX) :=
    ⟨Int.emod_nonneg _ (by decide), Int.emod_lt_of_pos _ (by decide)⟩
  obtain ⟨n, same, chosen⟩ := schedule_some called
  obtain ⟨next, found, rfl⟩ := Option.map_eq_some_iff.mp called
  obtain rfl : next = n := congrArg currentTask same
  rw [own] at found chosen
  have picked : InTable next ∧ (mid.taskQueue next).state = .running := by
    rcases chosen with picked | ⟨-, alone⟩
    · exact picked
    -- The scan only falls back to its caller where no other slot is RUNNING.
    · exact absurd runs (alone seat i slot other)
  refine ⟨picked.2, ?_⟩
  have near : ¬(i - (c + 1) % MAX) % MAX < (next - (c + 1) % MAX) % MAX := fun before =>
    nextRunning_first first found i slot before runs
  obtain ⟨⟨low, high⟩, -⟩ := picked
  obtain ⟨seatLow, seatHigh⟩ := seat
  obtain ⟨slotLow, slotHigh⟩ := slot
  change (i - next) % MAX < _
  simp only [MAX] at *
  omega

/-! ## Steps of the others -/

/-- Only `schedule` makes another task current. -/
theorem current_stays (ran : k.Step a k') (calls : ¬k.CallsSchedule a) :
    k'.currentTask = k.currentTask := by
  rcases step_cases ran with ⟨_, _, _, rfl⟩ | ⟨q, p, cut, change, moved⟩
  · rfl
  · cases cut with
    | false => exact moved.current rfl
    | true => exact absurd ((change_schedules change).1.mpr rfl) calls

/-- A RUNNING task that is not current and is not killed goes on where it is. -/
theorem running_stays (ran : k.Step a k') (slot : InTable t)
    (runs : (k.taskQueue t).state = .running) (away : k.currentTask ≠ t) (spared : a ≠ .kill t) :
    (k'.taskQueue t).state = .running ∧ k'.point t = k.point t := by
  rcases step_cases ran with ⟨pml4e, vm, rfl, rfl⟩ | ⟨q, p, cut, change, moved⟩
  · have old : t ≠ newPID k.taskQueue := newPID_ne slot (by rw [runs]; decide)
    refine ⟨?_, Function.update_of_ne old _ _⟩
    rw [fork_state, if_neg old]
    exact runs
  · rw [moved.queue, moved.point, Function.update_of_ne (Ne.symm away)]
    exact ⟨change.running_kept spared (Ne.symm away) runs, rfl⟩

theorem distance_step (seated : k.Seated) (ran : k.Step a k') (calls : k.CallsSchedule a)
    (slot : InTable i) (runs : (k'.taskQueue i).state = .running) (away : k.currentTask ≠ i) :
    k'.self.state = .running ∧ distance i k' < distance i k := by
  obtain ⟨mid, p, called, current⟩ := step_hands ran calls
  have queue : mid.taskQueue = k'.taskQueue := by
    obtain ⟨n, rfl, -⟩ := schedule_some called
    rfl
  have own : mid.self.pid = k.currentTask := by
    rcases step_cases ran with ⟨_, _, rfl, _⟩ | ⟨q, p, cut, change, moved⟩
    · exact absurd calls id
    · rw [self, queue, current, moved.queue]
      exact (change.pid_eq _).trans seated.own
  rw [← queue] at runs
  obtain ⟨picked, less⟩ := schedule_nearest called own seated.inside slot runs (Ne.symm away)
  have positive : 0 ≤ (i - k'.currentTask) % MAX := Int.emod_nonneg _ (by decide)
  refine ⟨picked, ?_⟩
  unfold distance
  omega

/-! ## The turn of a RUNNING task -/

/-- Slot `i` is RUNNING. -/
structure Due (i : Int) (k : Kernel) : Prop where
  rooted : k.Rooted
  slot : InTable i
  runs : (k.taskQueue i).state = .running

theorem Due.countdown :
    Countdown (Spares i) CallsSchedule (Due i) (fun k => k.currentTask = i) (distance i) where
  keeps k a k' due away taken := by
    obtain ⟨ran, spared⟩ := taken
    exact ⟨due.rooted.step ran, due.slot, (running_stays ran due.slot due.runs away spared).1⟩
  holds k a k' due away taken calls := by
    have same := current_stays taken.1 calls
    exact Nat.le_of_eq (by rw [distance, distance, same])
  drops k a k' due away taken calls := by
    obtain ⟨ran, spared⟩ := taken
    have runs := (running_stays ran due.slot due.runs away spared).1
    exact (distance_step due.rooted.seated ran calls due.slot runs away).2

theorem distance_zero (seated : k.Seated) (slot : InTable i) (none : distance i k = 0) :
    k.currentTask = i := by
  obtain ⟨low, high⟩ := seated.inside
  obtain ⟨slotLow, slotHigh⟩ := slot
  unfold distance at none
  simp only [MAX] at *
  omega

theorem rooted_reached (reached : Along Step boot before) : (lastState boot before).Rooted :=
  Along.invariant_last (fun _ _ _ rooted ran => rooted.step ran) Rooted.boot reached

/-- In every run, a RUNNING task that nobody kills is current after at most as many calls of
`schedule` as there are slots from the current one to it, whatever the other tasks do. -/
theorem running_selected (reached : Along Step boot before) (slot : InTable i)
    (runs : ((lastState boot before).taskQueue i).state = .running)
    (ran : Along (Spares i) (lastState boot before) run)
    (enough : distance i (lastState boot before) ≤
      tally CallsSchedule (lastState boot before) run) :
    ∃ front back, run = front ++ back ∧
      (lastState (lastState boot before) front).currentTask = i ∧
      (lastState (lastState boot before) front).self.state = .running ∧
      tally CallsSchedule (lastState boot before) front ≤ distance i (lastState boot before) := by
  have due : Due i (lastState boot before) := ⟨rooted_reached reached, slot, runs⟩
  obtain ⟨front, back, whole, -, still, there, few⟩ := Due.countdown.reaches
    (fun _ due none => distance_zero due.rooted.seated due.slot none) due ran enough
  refine ⟨front, back, whole, there, ?_, few⟩
  rw [self, there]
  exact still.runs

instance (t : Int) : ∀ a : Action, Decidable (a ≠ .kill t)
  | .kill pid => decidable_of_iff (pid ≠ t) (by simp)
  | .fork .. | .exec .. | .exit | .wait | .waitpid _ | .sleep _ | .read | .schedule | .timer
  | .key _ | .resume => isTrue nofun

theorem spares_follow (k : Kernel) {actions : List Action}
    (spared : Along (fun _ a _ => a ≠ .kill t) k (follow step k actions)) :
    Along (Spares t) k (follow step k actions) :=
  (along_follow step k actions).and spared

/-- The first program and its child read from the terminal. -/
theorem running_selected_of_child :
    let k := lastState boot (follow step boot [.fork 0 []])
    ∃ front back, follow step k [.read, .read] = front ++ back ∧
      (lastState k front).currentTask = 3 ∧ (lastState k front).self.state = .running ∧
      tally CallsSchedule k front ≤ distance 3 k := by
  intro k
  have facts : (k.taskQueue 3).state = .running ∧
      Along (fun _ a _ => a ≠ .kill 3) k (follow step k [.read, .read]) ∧
      distance 3 k ≤ tally CallsSchedule k (follow step k [.read, .read]) := by decide +kernel
  obtain ⟨runs, spared, enough⟩ := facts
  exact running_selected (ran_follow _) (by decide) runs (spares_follow _ spared) enough

/-! ## The turn of a waiting parent -/

/-- A live task that is suspended in `waitpid` is in WAIT, or has been woken. -/
def Parked (k : Kernel) : Prop :=
  ∀ t pid, InTable t → k.point t = .waitpid pid → (k.taskQueue t).state.Live →
    (k.taskQueue t).state = .wait ∨ (k.taskQueue t).state = .running

theorem Parked.boot : Kernel.boot.Parked := fun _ _ _ suspended => Point.noConfusion suspended

theorem Parked.step (parked : k.Parked) (ran : k.Step a k') : k'.Parked := by
  intro t pid slot suspended live
  rcases step_cases ran with ⟨pml4e, vm, rfl, rfl⟩ | ⟨q, p, cut, change, moved⟩
  · change Function.update k.point (newPID k.taskQueue) .top t = _ at suspended
    have old : t ≠ newPID k.taskQueue := by
      rintro rfl
      rw [Function.update_self] at suspended
      cases suspended
    rw [Function.update_of_ne old] at suspended
    rw [fork_state, if_neg old] at live ⊢
    exact parked t pid slot suspended live
  rw [moved.point] at suspended
  rw [moved.queue] at live ⊢
  by_cases here : t = k.currentTask
  · subst here
    rw [Function.update_self] at suspended
    subst suspended
    cases change with
    | waitpid => exact .inl (by simp)
    -- The loop goes round once more, with the state as it was.
    | respin _ cut => exact parked _ pid slot cut live
  · rw [Function.update_of_ne here] at suspended
    have before := parked t pid slot suspended
    by_cases sets : k.SetsOwnState a
    · obtain ⟨s, _, _, after⟩ := change.own sets
      rw [after, if_neg here] at live ⊢
      exact before live
    · rcases change.others sets t with same | ⟨_, woken⟩ | ⟨_, _, ready⟩ | ⟨_, zombie⟩
      · rw [same] at live ⊢
        exact before live
      · exact .inr woken
      · simp [ready, TaskState.Live] at live
      · simp [zombie, TaskState.Live] at live

/-- Slot `c` is a dead child of `t`, which is suspended in `waitpid` of it. -/
structure Awaited (t c : Int) (k : Kernel) : Prop where
  suspended : k.point t = .waitpid c
  slot : InTable c
  dead : (k.taskQueue c).state = .zombie
  child : (k.taskQueue c).ppid = t
  absent : k.currentTask ≠ c

/-- Nobody else reaps the child or becomes its parent. -/
theorem child_stays (due : Due t k) (awaited : Awaited t c k) (away : k.currentTask ≠ t)
    (taken : Spares t k a k') :
    (k'.taskQueue c).state = .zombie ∧ (k'.taskQueue c).ppid = t := by
  obtain ⟨ran, spared⟩ := taken
  have own : k.self.pid = k.currentTask := due.rooted.seated.own
  rcases step_cases ran with ⟨pml4e, vm, rfl, rfl⟩ | ⟨q, p, cut, change, moved⟩
  · have old : c ≠ newPID k.taskQueue := newPID_ne awaited.slot (by rw [awaited.dead]; decide)
    rw [fork_state, due.rooted.fork_ppid, if_neg old, if_neg old]
    exact ⟨awaited.dead, awaited.child⟩
  rw [moved.queue]
  constructor
  · by_cases sets : k.SetsOwnState a
    · obtain ⟨s, _, _, after⟩ := change.own sets
      rw [after, if_neg (Ne.symm awaited.absent)]
      exact awaited.dead
    · rcases change.others sets c with same | ⟨blocked, _⟩ | ⟨reaped, _, _⟩ | ⟨_, zombie⟩
      · exact same.trans awaited.dead
      · simp [awaited.dead, TaskState.Blocked] at blocked
      -- Only the parent reaps, and it is not current.
      · have parent := ((reapable_iff _ _ _).mp reaped).1
        rw [awaited.child] at parent
        exact absurd (parent.trans own).symm away
      · exact zombie
  · rcases change.death_cases with ⟨_, ppid⟩ | ⟨_, rfl, _⟩ | ⟨pid, rfl, rfl, _⟩
    · exact (ppid c).trans awaited.child
    · rw [terminate_ppid, if_neg, awaited.child]
      rintro ⟨_, parent⟩
      exact away (own.symm.trans (parent.symm.trans awaited.child))
    · rw [terminate_ppid, if_neg, awaited.child]
      rintro ⟨_, rfl⟩
      exact spared (by rw [awaited.child])

theorem Awaited.step (due : Due t k) (awaited : Awaited t c k) (away : k.currentTask ≠ t)
    (taken : Spares t k a k') : Awaited t c k' := by
  obtain ⟨dead, child⟩ := child_stays due awaited away taken
  obtain ⟨ran, spared⟩ := taken
  obtain ⟨runs, point⟩ := running_stays ran due.slot due.runs away spared
  refine ⟨point.trans awaited.suspended, awaited.slot, dead, child, fun here => ?_⟩
  by_cases calls : k.CallsSchedule a
  · have picked := (distance_step due.rooted.seated ran calls due.slot runs away).1
    rw [self, here, dead] at picked
    cases picked
  · exact awaited.absent ((current_stays ran calls).symm.trans here)

theorem Awaited.reapable (due : Due t k) (awaited : Awaited t c k) (here : k.currentTask = t) :
    reapable k.taskQueue k.currentTask c = true :=
  (reapable_iff _ _ _).mpr
    ⟨awaited.child.trans (here.symm.trans due.rooted.seated.own.symm), awaited.dead⟩

/-- When the parent has its turn, it reaps the child. -/
theorem Awaited.reaps (due : Due t k) (awaited : Awaited t c k) (here : k.currentTask = t) :
    k.Step a k' ↔ a = .resume ∧ k' = k.reap c := by
  have suspended : k.point k.currentTask = .waitpid c := by
    rw [here]
    exact awaited.suspended
  have resumed : k.resume (.waitpid c) = some (k.reap c) := by
    rw [resume, resumeWaitpid, if_pos (awaited.reapable due here)]
  rw [step_iff, suspended, resumed]
  constructor
  · rintro (⟨top, _⟩ | ⟨_, rfl, same⟩)
    · cases top
    · cases same
      exact ⟨rfl, rfl⟩
  · rintro ⟨rfl, rfl⟩
    exact .inr ⟨Point.noConfusion, rfl, rfl⟩

theorem reap_fields (here : k.currentTask = t) : ((k.reap c).taskQueue c).state = .ready ∧
    (k.reap c).currentTask = t ∧ (k.reap c).point t = .top := by
  refine ⟨by simp [reap], here, ?_⟩
  change Function.update k.point _ .top t = _
  rw [here, Function.update_self]

/-- Task `c` exits, or another one kills it. -/
def Dies (c : Int) (k : Kernel) (a : Action) : Prop :=
  a = .exit ∧ k.currentTask = c ∨ a = .kill c ∧ k.currentTask ≠ c

theorem Dies.effect (dies : Dies c k a) (seated : k.Seated) (ran : k.Step a k') :
    k'.taskQueue = terminate k.taskQueue c c ∧ ∀ t, t ≠ k.currentTask → k'.point t = k.point t := by
  rcases step_cases ran with ⟨_, _, rfl, _⟩ | ⟨q, p, cut, change, moved⟩
  · rcases dies with ⟨other, _⟩ | ⟨other, _⟩ <;> cases other
  refine ⟨moved.queue.trans ?_, fun t other => ?_⟩
  · rcases change.death_cases with ⟨⟨exit, kill⟩, _⟩ | ⟨rfl, same, _⟩ | ⟨pid, rfl, same, _⟩
    · rcases dies with ⟨rfl, _⟩ | ⟨rfl, _⟩
      · exact absurd rfl exit
      · exact absurd rfl (kill c)
    · rcases dies with ⟨_, rfl⟩ | ⟨other, _⟩
      · rw [same, seated.own]
      · cases other
    · rcases dies with ⟨other, _⟩ | ⟨pids, _⟩
      · cases other
      · cases pids
        exact same
  · rw [moved.point, Function.update_of_ne other]

/-- The death is a system call, so the task that takes the step is not suspended. -/
theorem Dies.away (dies : Dies c k a) (ran : k.Step a k') (suspended : k.point t = .waitpid c) :
    k.currentTask ≠ t := by
  rintro rfl
  have top : k.point k.currentTask = .top :=
    step_top ran (by rcases dies with ⟨rfl, _⟩ | ⟨rfl, _⟩ <;> simp)
  rw [top] at suspended
  cases suspended

/-- The death of a child wakes the parent that waits for it. -/
theorem Dies.wakes (dies : Dies c k a) (rooted : k.Rooted) (parked : k.Parked) (ran : k.Step a k')
    (slot : InTable t) (slot' : InTable c) (suspended : k.point t = .waitpid c)
    (live : (k.taskQueue t).state.Live) (child : (k.taskQueue c).ppid = t) :
    Due t k' ∧ Awaited t c k' := by
  obtain ⟨queue, points⟩ := dies.effect rooted.seated ran
  -- Slot 0 alone is its own parent, and `in` is never in `waitpid`.
  have other : t ≠ c := by
    rintro rfl
    have root := rooted.selfParent t slot child
    rw [root] at suspended
    rcases rooted.rest with top | waits
    · rw [top] at suspended
      cases suspended
    · rw [waits] at suspended
      cases suspended
  have away := dies.away ran suspended
  have parent : heir k.taskQueue c c = t := by
    rw [heir, if_neg, child]
    rintro ⟨_, own⟩
    exact other (child.symm.trans own)
  have runs : (k'.taskQueue t).state = .running := by
    rw [queue, terminate_state, if_neg other, parent]
    -- A parent that has been woken before is left RUNNING.
    rcases parked t c slot suspended live with waits | runs
    · rw [if_pos ⟨rfl, waits⟩]
    · rw [if_neg (by rw [runs]; simp), runs]
  have dead : (k'.taskQueue c).state = .zombie := by
    rw [queue, terminate_state, if_pos rfl]
  have orphan : (k'.taskQueue c).ppid = t := by
    rw [queue, terminate_ppid, if_neg, child]
    rintro ⟨_, own⟩
    exact other (child.symm.trans own)
  refine ⟨⟨rooted.step ran, slot, runs⟩, (points t (Ne.symm away)).trans suspended, slot', dead,
    orphan, fun here => ?_⟩
  rcases dies with ⟨rfl, _⟩ | ⟨rfl, others⟩
  · have picked := (distance_step rooted.seated ran trivial slot runs away).1
    rw [self, here, dead] at picked
    cases picked
  · exact others ((current_stays ran id).symm.trans here)

/-- In every run, when the child dies for which a task waits in `waitpid`, then the task is current
after at most as many calls of `schedule` as there are slots from the current one to it, unless it
is killed itself; until then the child is dead and its own, and the task reaps it next and goes back
to its program. -/
theorem waitpid_returns (reached : Along Step boot before) (slot : InTable t) (slot' : InTable c)
    (suspended : (lastState boot before).point t = .waitpid c)
    (live : ((lastState boot before).taskQueue t).state.Live)
    (child : ((lastState boot before).taskQueue c).ppid = t)
    (dies : Dies c (lastState boot before) a) (died : (lastState boot before).Step a k)
    (ran : Along (Spares t) k run) (enough : distance t k ≤ tally CallsSchedule k run) :
    ∃ front back, run = front ++ back ∧ tally CallsSchedule k front ≤ distance t k ∧
      Along (fun k _ k' => k.currentTask ≠ t ∧ (k'.taskQueue c).state = .zombie ∧
        (k'.taskQueue c).ppid = t) k front ∧
      (lastState k front).currentTask = t ∧ ((lastState k front).taskQueue c).state = .zombie ∧
      (∀ b k', (lastState k front).Step b k' ↔ b = .resume ∧ k' = (lastState k front).reap c) ∧
      (((lastState k front).reap c).taskQueue c).state = .ready ∧
      ((lastState k front).reap c).currentTask = t ∧ ((lastState k front).reap c).point t = .top := by
  have rooted := rooted_reached reached
  have parked : (lastState boot before).Parked :=
    Along.invariant_last (fun _ _ _ parked ran => parked.step ran) Parked.boot reached
  have start := dies.wakes rooted parked died slot slot' suspended live child
  have countdown : Countdown (Spares t) CallsSchedule (fun k => Due t k ∧ Awaited t c k)
      (fun k => k.currentTask = t) (distance t) :=
    Due.countdown.and fun _ _ _ due awaited away taken => awaited.step due away taken
  obtain ⟨front, back, rfl, early, ⟨due, awaited⟩, there, few⟩ := countdown.reaches
    (fun _ both none => distance_zero both.1.rooted.seated both.1.slot none) start ran enough
  have alone := (early.and (along_append.mp ran).1).mono fun k a k' taken =>
    And.intro taken.1.2 (child_stays taken.1.1.1 taken.1.1.2 taken.1.2 taken.2)
  exact ⟨front, back, rfl, few, alone, there, awaited.dead, fun b k' => awaited.reaps due there,
    reap_fields there⟩

/-- A child of the first program, which waits for it. -/
def awaitedChild : Kernel := lastState boot (follow step boot [.fork 0 [], .waitpid 3])

private theorem child_exits : (awaitedChild.step .exit).isSome := by decide +kernel

/-- The child exits; then `init` and `idle` have their turns. -/
theorem waitpid_returns_of_exit :
    ∃ k front back, follow step k [.wait, .schedule, .resume] = front ++ back ∧
      tally CallsSchedule k front ≤ distance 2 k ∧
      Along (fun k _ k' => k.currentTask ≠ 2 ∧ (k'.taskQueue 3).state = .zombie ∧
        (k'.taskQueue 3).ppid = 2) k front ∧
      (lastState k front).currentTask = 2 ∧ ((lastState k front).taskQueue 3).state = .zombie ∧
      (∀ b k', (lastState k front).Step b k' ↔ b = .resume ∧ k' = (lastState k front).reap 3) ∧
      (((lastState k front).reap 3).taskQueue 3).state = .ready ∧
      ((lastState k front).reap 3).currentTask = 2 ∧
      ((lastState k front).reap 3).point 2 = .top := by
  have facts : awaitedChild.point 2 = .waitpid 3 ∧ (awaitedChild.taskQueue 2).state.Live ∧
      (awaitedChild.taskQueue 3).ppid = 2 ∧ awaitedChild.currentTask = 3 ∧
      let k := Option.get _ child_exits
      Along (fun _ a _ => a ≠ .kill 2) k (follow step k [.wait, .schedule, .resume]) ∧
      distance 2 k ≤ tally CallsSchedule k
        (follow step k [.wait, .schedule, .resume]) := by decide +kernel
  obtain ⟨suspended, live, child, current, spared, enough⟩ := facts
  exact ⟨_, waitpid_returns (ran_follow _) (by decide) (by decide) suspended live child
    (.inl ⟨rfl, current⟩) (Option.some_get child_exits).symm (spares_follow _ spared) enough⟩

end Kernel

end LateOS
