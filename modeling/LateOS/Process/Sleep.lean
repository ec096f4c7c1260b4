import Mathlib.Algebra.GroupWithZero.Nat
import LateOS.Process.Clock

/-!
# Sleeping

`sleep` stores its `unsigned int` in the `int` that `taskTimer` counts down. From 2^31 seconds
on the stored number is negative, and neither of the two tests of `taskTimer` ever succeeds.
-/
namespace LateOS

open Lib

namespace Kernel

variable {k k' : Kernel} {a : Action} {i time : Int} {n : Nat} {q : TaskQueue} {p : Point}
  {cut : Bool}

/-- The step is a call of `taskTimer`. -/
def Ticks (k : Kernel) : Prop := k.point k.currentTask = .intTimer

instance (k : Kernel) : Decidable k.Ticks := inferInstanceAs (Decidable (_ = _))

/-- How often a run calls `taskTimer`. -/
def ticks : Kernel → List (Action × Kernel) → Nat
  | _, [] => 0
  | k, (_, k') :: rest => (if k.Ticks then 1 else 0) + ticks k' rest

/-- Slot `i` is HANG until the run has called `taskTimer` for the `n`-th time, and RUNNING
right behind that call. -/
def SleepsFor (i : Int) : Nat → Kernel → List (Action × Kernel) → Prop
  | _, k, [] => (k.taskQueue i).state = .hang
  | n, k, (_, k') :: rest =>
    (k.taskQueue i).state = .hang ∧
      if ¬k.Ticks then SleepsFor i n k' rest
      else if n = 1 then (k'.taskQueue i).state = .running
      else SleepsFor i (n - 1) k' rest

/-- The step kills slot `i`, or is a system call of the task there. -/
def Disturbs (k : Kernel) (i : Int) : Action → Prop
  | .kill pid => pid = i ∨ k.currentTask = i
  | .timer | .key _ | .resume => False
  | _ => k.currentTask = i

instance (k : Kernel) (i : Int) : ∀ a, Decidable (k.Disturbs i a)
  | .kill _ => inferInstanceAs (Decidable (_ ∨ _))
  | .timer | .key _ | .resume => isFalse id
  | .fork .. | .exec .. | .exit | .wait | .waitpid _ | .sleep _ | .read | .schedule =>
    inferInstanceAs (Decidable (_ = _))

/-- Slot `i` hangs behind its `sleep`, with `time` ticks to go. It may be current all the same:
`schedule` comes back to its caller when no slot is RUNNING. -/
structure Asleep (k : Kernel) (i time : Int) : Prop where
  inside : InTable i
  hangs : (k.taskQueue i).state = .hang
  left : (k.taskQueue i).time = time
  rest : k.point i = .sleep ∨ k.point i = .top ∨ k.point i = .intTimer

/-! ## One step -/

theorem setState_other (q : TaskQueue) {i j : Int} (s : TaskState) (other : i ≠ j) :
    setState q j s i = q i := by
  simp [setState, other]

theorem terminate_time (q : TaskQueue) (i pid j : Int) :
    (terminate q i pid j).time = (q j).time := by
  have own (q : TaskQueue) (i : Int) (s : TaskState) : (setState q i s j).time = (q j).time := by
    by_cases same : j = i
    · subst same
      simp [setState]
    · rw [setState_other q s same]
  have handed : (reparent (setState q i .zombie) pid j).time = (q j).time := by
    rw [← own q i .zombie]
    unfold reparent
    split <;> rfl
  rw [← handed]
  unfold terminate wakeParent
  split
  · apply own
  · rfl

theorem terminate_hangs {pid j : Int} (hangs : (q i).state = .hang) (other : i ≠ j) :
    (terminate q j pid i).state = .hang := by
  simp [other, hangs]

/-- A sleeper waits in none of the calls that set the state of their caller when they go on. -/
theorem Asleep.elsewhere (asleep : k.Asleep i time) {c : Action} (call : k.Runs a c p)
    (quiet : ¬k.Disturbs i a) (system : k.Disturbs k.currentTask c)
    (away : p ≠ .sleep ∧ p ≠ .top ∧ p ≠ .intTimer) : i ≠ k.currentTask := by
  rintro rfl
  -- The call has just been made, which would disturb the slot, or it is going on.
  rcases call with ⟨rfl, _⟩ | ⟨_, here⟩
  · exact quiet system
  · have rest := asleep.rest
    rw [here] at rest
    simp [away] at rest

/-- Only a tick, a kill and a call of its own change a slot that hangs. -/
theorem Asleep.kept (asleep : k.Asleep i time) (change : Change k a q p cut)
    (quiet : ¬k.Disturbs i a) (still : ¬k.Ticks) :
    (q i).state = .hang ∧ (q i).time = time := by
  have hangs := asleep.hangs
  have left := asleep.left
  have same {j : Int} (s : TaskState) (other : i ≠ j) :
      (setState k.taskQueue j s i).state = .hang ∧ (setState k.taskQueue j s i).time = time := by
    rw [setState_other _ s other]
    exact ⟨hangs, left⟩
  -- A slot that is reaped was ZOMBIE.
  have reaped {j : Int} (dead : reapable k.taskQueue k.currentTask j = true) : i ≠ j := by
    rintro rfl
    have zombie := ((reapable_iff _ _ _).mp dead).2
    rw [hangs] at zombie
    cases zombie
  cases change with
  | exec =>
    have other : i ≠ k.currentTask := fun here => quiet here.symm
    simp [Kernel.exec, other, hangs, left]
  | exit =>
    have other : i ≠ k.currentTask := fun here => quiet here.symm
    exact ⟨terminate_hangs hangs other, (terminate_time ..).trans left⟩
  | kill pid =>
    have other : i ≠ pid := fun here => quiet (Or.inl here.symm)
    exact ⟨terminate_hangs hangs other, (terminate_time ..).trans left⟩
  | reapFirst j _ found => exact same _ (reaped (firstSlot_some found).2)
  | reapPid j _ dead => exact same _ (reaped dead)
  | wait call => exact same _ (asleep.elsewhere call quiet rfl (by decide))
  | waitpid =>
    have other : i ≠ k.currentTask := fun here => quiet here.symm
    exact same _ other
  | sleep =>
    have other : i ≠ k.currentTask := fun here => quiet here.symm
    simp [other, hangs, left]
  | read call => exact same _ (asleep.elsewhere call quiet rfl (by decide))
  | await call => exact same _ (asleep.elsewhere call quiet rfl (by decide))
  | key =>
    -- Enter wakes a slot in SLEEP.
    cases found : firstSlot (fun j => decide ((k.taskQueue j).state = .sleep)) with
    | none =>
      rw [wakeProcess, found]
      exact ⟨hangs, left⟩
    | some j =>
      have sleeps := (firstSlot_some found).2
      rw [decide_eq_true_iff] at sleeps
      rw [wakeProcess, found]
      apply same
      rintro rfl
      rw [hangs] at sleeps
      cases sleeps
  | tick here => exact absurd here still
  | miss | respin | idle | keep | preempt => exact ⟨hangs, left⟩

/-- Where a step leaves a sleeper that it does not disturb. -/
theorem Asleep.resting (asleep : k.Asleep i time) (change : Change k a q p cut)
    (quiet : ¬k.Disturbs i a) (here : i = k.currentTask) : p = .top ∨ p = .intTimer := by
  cases change with
  | wait call => exact absurd here (asleep.elsewhere call quiet rfl (by decide))
  | miss call => exact absurd here (asleep.elsewhere call quiet rfl (by decide))
  | await call => exact absurd here (asleep.elsewhere call quiet rfl (by decide))
  | respin pid cut =>
    have rest := asleep.rest
    rw [here, cut] at rest
    simp at rest
  | exit | waitpid | sleep => exact absurd here.symm quiet
  | preempt => exact Or.inr rfl
  | _ => exact Or.inl rfl

theorem Asleep.step (asleep : k.Asleep i time) (ran : k.Step a k') (quiet : ¬k.Disturbs i a)
    (still : ¬k.Ticks) : k'.Asleep i time := by
  rcases step_cases ran with ⟨pml4e, vm, rfl, rfl⟩ | ⟨q, p, cut, change, moved⟩
  · have other : i ≠ newPID k.taskQueue := newPID_ne asleep.inside (by simp [asleep.hangs])
    have current : i ≠ k.currentTask := fun here => quiet here.symm
    refine ⟨asleep.inside, ?_, ?_, ?_⟩
    · simp [other, asleep.hangs]
    · simp [Kernel.fork, increaseChildCount, createChild, copytask, other, current, asleep.left]
    · simpa [Kernel.fork, other] using asleep.rest
  · obtain ⟨hangs, left⟩ := asleep.kept change quiet still
    refine ⟨asleep.inside, ?_, ?_, ?_⟩
    · rw [moved.queue, hangs]
    · rw [moved.queue, left]
    · rw [moved.point]
      by_cases here : i = k.currentTask
      · rw [here, Function.update_self]
        exact Or.inr (asleep.resting change quiet here)
      · rw [Function.update_of_ne here]
        exact asleep.rest

/-- What `taskTimer` makes of the slot. -/
theorem Asleep.tick (asleep : k.Asleep i time) (ran : k.Step a k') (ticks : k.Ticks) :
    (time = 1 ∧ (k'.taskQueue i).state = .running) ∨ (1 < time ∧ k'.Asleep i (time - 1)) ∨
      (time < 0 ∧ k'.Asleep i time) ∨ time = 0 := by
  obtain ⟨rfl, rfl⟩ := step_tick ran ticks
  have due : InTable i ∧ (k.taskQueue i).state = .hang := ⟨asleep.inside, asleep.hangs⟩
  have table : k.tick.taskQueue = taskTimer k.taskQueue := rfl
  have point : k.tick.point i = .sleep ∨ k.tick.point i = .top ∨ k.tick.point i = .intTimer := by
    by_cases here : i = k.currentTask
    · simp [Kernel.tick, setPoint, here]
    · simpa [Kernel.tick, setPoint, here] using asleep.rest
  -- `taskTimer` tests for a positive count before it counts down, and for zero behind it.
  rcases Int.lt_trichotomy time 0 with negative | zero | positive
  · have before : ¬0 < time := by omega
    have after : time ≠ 0 := by omega
    refine Or.inr (Or.inr (Or.inl ⟨negative, asleep.inside, ?_, ?_, point⟩))
    · simp [table, taskTimer, due, asleep.left, before, after]
    · simp [table, taskTimer, due, asleep.left, before]
  · exact Or.inr (Or.inr (Or.inr zero))
  · by_cases last : time = 1
    · refine Or.inl ⟨last, ?_⟩
      simp [table, taskTimer, due, asleep.left, last]
    · have after : time - 1 ≠ 0 := by omega
      refine Or.inr (Or.inl ⟨by omega, asleep.inside, ?_, ?_, point⟩)
      · simp [table, taskTimer, due, asleep.left, positive, after]
      · simp [table, taskTimer, due, asleep.left, positive]

/-! ## Runs -/

/-- A positive count is counted down to the wake-up. -/
theorem Asleep.sleepsFor (asleep : k.Asleep i n) (some : 0 < n)
    {run : List (Action × Kernel)} (ran : Along Step k run)
    (quiet : Along (fun k a _ => ¬k.Disturbs i a) k run) : SleepsFor i n k run := by
  induction run generalizing k n with
  | nil => exact asleep.hangs
  | cons step rest ih =>
    obtain ⟨a, k'⟩ := step
    rw [along_cons] at ran quiet
    refine ⟨asleep.hangs, ?_⟩
    -- Only a tick brings the count down.
    by_cases ticks : k.Ticks
    · rw [if_neg (not_not_intro ticks)]
      rcases asleep.tick ran.1 ticks with ⟨one, runs⟩ | ⟨more, asleep'⟩ | ⟨negative, _⟩ | zero
      · rw [if_pos (by omega)]
        exact runs
      · rw [if_neg (by omega)]
        apply ih _ (by omega) ran.2 quiet.2
        rwa [Int.natCast_pred_of_pos some]
      · omega
      · omega
    · rw [if_pos ticks]
      exact ih (asleep.step ran.1 quiet.1 ticks) some ran.2 quiet.2

/-- A negative count is never counted down. -/
theorem Asleep.oversleeps (asleep : k.Asleep i time) (negative : time < 0)
    (some : 0 < n) {run : List (Action × Kernel)} (ran : Along Step k run)
    (quiet : Along (fun k a _ => ¬k.Disturbs i a) k run) :
    SleepsFor i n k run ↔ ticks k run < n := by
  induction run generalizing k n with
  | nil => exact iff_of_true asleep.hangs some
  | cons step rest ih =>
    obtain ⟨a, k'⟩ := step
    rw [along_cons] at ran quiet
    rw [SleepsFor, Kernel.ticks, and_iff_right asleep.hangs]
    -- A tick leaves a negative count alone, and only the number of ticks goes on.
    by_cases ticks : k.Ticks
    · have asleep' : k'.Asleep i time := by
        rcases asleep.tick ran.1 ticks with ⟨one, _⟩ | ⟨more, _⟩ | ⟨_, asleep'⟩ | zero
        · omega
        · omega
        · exact asleep'
        · omega
      rw [if_neg (not_not_intro ticks), if_pos ticks]
      by_cases one : n = 1
      · rw [if_pos one, asleep'.hangs]
        exact iff_of_false (by decide) (by omega)
      · rw [if_neg one, ih asleep' (by omega) ran.2 quiet.2]
        omega
    · rw [if_pos ticks, if_neg ticks, ih (asleep.step ran.1 quiet.1 ticks) some ran.2 quiet.2]
      omega

/-- `sleep` leaves its caller asleep for the seconds as an `int`. -/
theorem Seated.asleep (seated : k.Seated) {seconds : BitVec 32} (some : seconds ≠ 0)
    (ran : k.Step (.sleep seconds) k') : k'.Asleep k.currentTask seconds.toInt := by
  rcases step_iff.mp ran with ⟨_, called⟩ | ⟨_, call, _⟩
  · have slept : k.sleep seconds = k' := by
      cases program : k.program k.currentTask <;> rw [program] at called <;>
        first | exact called | cases called
    unfold sleep at slept
    rw [if_neg some] at slept
    obtain ⟨n, rfl, _⟩ := schedule_some slept
    refine ⟨seated.inside, ?_, ?_, ?_⟩
    · simp [setPoint]
    · simp [setPoint]
    · simp [setPoint]
  · cases call

/-- Behind a `sleep(n)` of a task that is not killed and makes no other system call, whatever the
other tasks do: the task is HANG until the `n`-th call of `taskTimer` and RUNNING right behind it
exactly when `n` fits an `int`, or that call has not come yet. -/
theorem sleeps_iff (before : List (Action × Kernel)) (booted : Along Step boot before)
    (seconds : BitVec 32) (some : seconds ≠ 0)
    (call : (lastState boot before).Step (.sleep seconds) k') (run : List (Action × Kernel))
    (ran : Along Step k' run)
    (quiet : Along (fun k a _ => ¬k.Disturbs (lastState boot before).currentTask a) k' run) :
    SleepsFor (lastState boot before).currentTask seconds.toNat k' run ↔
      seconds.toNat < 2 ^ 31 ∨ ticks k' run < seconds.toNat := by
  have seated : (lastState boot before).Seated :=
    Along.invariant_last (I := Seated) (fun _ _ _ seated ran => seated.step ran) Seated.boot booted
  have asleep := seated.asleep some call
  have positive : 0 < seconds.toNat := by
    by_contra none
    exact some (BitVec.eq_of_toNat_eq (by simpa using none))
  -- The conversion to `int` decides which way the count goes.
  by_cases fits : seconds.toNat < 2 ^ 31
  · rw [BitVec.toInt_eq_toNat_of_lt (by omega)] at asleep
    exact iff_of_true (asleep.sleepsFor positive ran quiet) (Or.inl fits)
  · have negative : seconds.toInt < 0 := by
      rw [BitVec.toInt_eq_toNat_cond]
      have := seconds.isLt
      split <;> omega
    rw [asleep.oversleeps negative positive ran quiet]
    exact (or_iff_right fits).symm

/-- The first program sleeps for a second, and `in` waits. -/
def napping : Kernel := (boot.step (.sleep 1)).get (by decide +kernel)

/-- Neither the interrupts nor the other task disturb the sleeper. -/
theorem napping_quiet :
    Along (fun k a _ => ¬k.Disturbs boot.currentTask a) napping
      (follow step napping (.wait :: List.replicate 20 .timer ++ [.resume])) := by
  rw [List.cons_append, follow]
  split
  next t waited =>
    refine (along_cons _ _ _ _ _).mpr
      ⟨by decide +kernel, along_follow_of (fun a member _ _ => ?_) _ _⟩
    rcases List.mem_append.mp member with timer | resume
    · rw [List.eq_of_mem_replicate timer]
      exact id
    · rw [List.mem_singleton.mp resume]
      exact id
  next => exact along_nil _ _

theorem sleeps_of_one_second :
    (follow step napping (.wait :: List.replicate 20 .timer ++ [.resume])).length = 22 ∧
    (SleepsFor 2 1 napping (follow step napping (.wait :: List.replicate 20 .timer ++ [.resume])) ↔
      1 < 2 ^ 31 ∨
        ticks napping (follow step napping (.wait :: List.replicate 20 .timer ++ [.resume])) < 1) :=
  ⟨by decide +kernel, sleeps_iff [] (along_nil _ _) 1 (by decide) (Option.some_get _).symm _
    (along_follow _ _ _) napping_quiet⟩

/-! ## A sleep that does not end -/

/-- The run from `k` to `k'` calls `taskTimer` `n` times and leaves slot 2 alone. -/
def Passes (k : Kernel) (n : Nat) (k' : Kernel) : Prop :=
  ∃ run, Along Step k run ∧ Along (fun k a _ => ¬k.Disturbs 2 a) k run ∧ ticks k run = n ∧
    lastState k run = k'

/-- Only `idle` is RUNNING, at the top of its loop and with the timer at `count`, and no slot
will ever be woken by the clock. -/
structure Alone (k : Kernel) (count : Nat) : Prop where
  current : k.currentTask = 1
  loop : k.program 1 = .idle
  top : k.point 1 = .top
  own : (k.taskQueue 1).pid = 1
  runs : (k.taskQueue 1).state = .running
  blocked : ∀ i, InTable i → i ≠ 1 → (k.taskQueue i).state ≠ .running
  counted : k.timerCount = count
  late : ∀ i, (k.taskQueue i).state = .hang → (k.taskQueue i).time < 0

theorem ticks_append (k : Kernel) (run more : List (Action × Kernel)) :
    ticks k (run ++ more) = ticks k run + ticks (lastState k run) more := by
  induction run generalizing k with
  | nil => simp [ticks, lastState]
  | cons step rest ih => simp [ticks, lastState, ih, Nat.add_assoc]

theorem Passes.trans {k'' : Kernel} {m : Nat} (first : k.Passes m k') (second : k'.Passes n k'') :
    k.Passes (m + n) k'' := by
  obtain ⟨run, ran, quiet, rfl, rfl⟩ := first
  obtain ⟨more, ran', quiet', rfl, rfl⟩ := second
  refine ⟨run ++ more, ?_, ?_, ?_, ?_⟩
  · exact along_append.mpr ⟨ran, ran'⟩
  · exact along_append.mpr ⟨quiet, quiet'⟩
  · exact ticks_append k run more
  · exact lastState_append k run more

theorem Passes.single (ran : k.Step a k') (quiet : ¬k.Disturbs 2 a) :
    k.Passes (if k.Ticks then 1 else 0) k' := by
  refine ⟨[(a, k')], ?_, ?_, rfl, rfl⟩
  · exact (along_cons ..).mpr ⟨ran, along_nil _ _⟩
  · exact (along_cons ..).mpr ⟨quiet, along_nil _ _⟩

theorem Alone.step (alone : k.Alone n) (ran : k.intTimer = some k') : k.Step .timer k' := by
  rw [step_iff, alone.current]
  refine Or.inl ⟨alone.top, ?_⟩
  rw [alone.loop]
  exact ran

/-- `idle` takes timer interrupts up to the one that is due. -/
theorem Alone.count (alone : k.Alone 0) (early : n < 20) :
    ∃ k', k.Passes 0 k' ∧ k'.Alone n := by
  induction n with
  | zero => exact ⟨k, ⟨[], along_nil _ _, along_nil _ _, rfl, rfl⟩, alone⟩
  | succ n ih =>
    obtain ⟨k', passes, alone'⟩ := ih (by omega)
    have ran : k'.intTimer = some { k' with timerCount := n + 1 } := by
      simp only [intTimer, alone'.counted]
      rw [if_neg (by omega)]
    have still : ¬k'.Ticks := by simp [Ticks, alone'.current, alone'.top]
    have passes' := Passes.single (alone'.step ran) id
    rw [if_neg still] at passes'
    exact ⟨_, passes.trans passes',
      ⟨alone'.current, alone'.loop, alone'.top, alone'.own, alone'.runs, alone'.blocked, rfl,
        alone'.late⟩⟩

/-- A table in which every count is negative is left as it is. -/
theorem taskTimer_late (late : ∀ i, (q i).state = .hang → (q i).time < 0) : taskTimer q = q := by
  funext i
  unfold taskTimer
  split
  next due =>
    have negative := late i due.2
    have before : ¬0 < (q i).time := by omega
    have after : (q i).time ≠ 0 := by omega
    dsimp only
    rw [if_neg before, if_neg after, ← due.2]
  next => rfl

/-- The scan from slot 1 comes back to `idle`. -/
theorem Alone.schedule (alone : k.Alone n) (count : Nat) (p : Point) :
    { k with timerCount := count }.schedule p = some ({ k with timerCount := count }.setPoint p) := by
  have own : ({ k with timerCount := count } : Kernel).self.pid = 1 := by
    simp only [self, alone.current, alone.own]
  have seat : InTable ({ k with timerCount := count } : Kernel).self.pid := by
    rw [own]
    decide
  obtain ⟨k', called⟩ := Option.isSome_iff_exists.mp (schedule_isSome p seat)
  obtain ⟨next, rfl, chosen⟩ := schedule_some called
  -- No other slot is RUNNING, and the scan ends at its caller.
  have back : next = k.currentTask := by
    rw [alone.current]
    rcases chosen with ⟨inside, runs⟩ | ⟨caller, _⟩
    · by_contra other
      exact alone.blocked next inside other runs
    · rw [caller, own]
  rw [called, back]
  rfl

/-- The twentieth interrupt comes back to `idle`, which ticks. -/
theorem Alone.round (alone : k.Alone 0) : ∃ k', k.Passes 1 k' ∧ k'.Alone 0 := by
  obtain ⟨k', passes, alone'⟩ := alone.count (show 19 < 20 by omega)
  have due : k'.intTimer = some ({ k' with timerCount := 20 }.setPoint .intTimer) := by
    rw [← alone'.schedule 20 .intTimer]
    simp [intTimer, alone'.counted]
  have still : ¬k'.Ticks := by simp [Ticks, alone'.current, alone'.top]
  -- The interrupt that is due suspends `idle` in its tick.
  have cut := Passes.single (alone'.step due) id
  rw [if_neg still] at cut
  -- The suspended tick goes on at once.
  have ticks : ({ k' with timerCount := 20 }.setPoint .intTimer).Ticks := by
    simp [Ticks, setPoint]
  have resumed : ({ k' with timerCount := 20 }.setPoint .intTimer).Step .resume
      ({ k' with timerCount := 20 }.setPoint .intTimer).tick := by
    rw [step_iff, ticks]
    exact Or.inr ⟨by decide, rfl, rfl⟩
  have tick := Passes.single resumed id
  rw [if_pos ticks] at tick
  refine ⟨_, passes.trans (cut.trans tick), ?_⟩
  have table : ({ k' with timerCount := 20 }.setPoint .intTimer).tick.taskQueue = k'.taskQueue :=
    taskTimer_late alone'.late
  constructor
  · exact alone'.current
  · exact alone'.loop
  · simp [Kernel.tick, setPoint, alone'.current]
  · rw [table, alone'.own]
  · rw [table, alone'.runs]
  · rw [table]
    exact alone'.blocked
  · rfl
  · rw [table]
    exact alone'.late

theorem Alone.passes (alone : k.Alone 0) (n : Nat) : ∃ k', k.Passes n k' ∧ k'.Alone 0 := by
  induction n with
  | zero => exact ⟨k, ⟨[], along_nil _ _, along_nil _ _, rfl, rfl⟩, alone⟩
  | succ n ih =>
    obtain ⟨mid, passes, alone'⟩ := ih
    obtain ⟨k', round, alone''⟩ := alone'.round
    exact ⟨k', passes.trans round, alone''⟩

/-- The first program has called `sleep(2147483648)`, and `in` is current. -/
def oversleeping : Kernel :=
  { boot with
    taskQueue :=
      Function.update bootQueue 2 { bootQueue 2 with time := -0x80000000, state := .hang }
    currentTask := 0
    point := Function.update boot.point 2 .sleep }

/-- `in` waits, and `idle` runs alone. -/
def idling : Kernel :=
  { oversleeping with
    taskQueue := setState oversleeping.taskQueue 0 .wait
    currentTask := 1
    point := Function.update oversleeping.point 0 .wait }

theorem step_oversleeping : boot.Step (.sleep 0x80000000) oversleeping := by
  have next : nextRunning oversleeping.taskQueue 2 1100 3 = some 0 := by decide +kernel
  refine step_iff.mpr (Or.inl ⟨rfl, ?_⟩)
  change boot.sleep 0x80000000 = _
  unfold sleep
  rw [if_neg (by decide)]
  exact congrArg (Option.map _) next

theorem step_idling : oversleeping.Step .wait idling := by
  have none : firstSlot (reapable oversleeping.taskQueue 0) = none := by decide +kernel
  have next : nextRunning idling.taskQueue 0 1100 1 = some 1 := by decide
  refine step_iff.mpr (Or.inl ⟨rfl, ?_⟩)
  change oversleeping.wait = _
  unfold wait
  rw [show oversleeping.currentTask = 0 from rfl, none]
  exact congrArg (Option.map _) next

theorem alone_idling : idling.Alone 0 := by
  have state (i : Int) : (idling.taskQueue i).state = if i = 2 then .hang
      else if i = 1 then .running else if i = 0 then .wait else .ready := by
    by_cases two : i = 2
    · simp [idling, oversleeping, two]
    by_cases zero : i = 0
    · simp [idling, oversleeping, zero]
    · have used : 0 ≤ i ∧ i ≤ 2 ↔ i = 1 := by omega
      simp [idling, oversleeping, bootQueue, two, zero, used]
  constructor
  · rfl
  · rfl
  · rfl
  · rfl
  · rfl
  · intro i _ other
    by_cases two : i = 2 <;> by_cases zero : i = 0 <;> simp [state, other, two, zero]
  · rfl
  · intro i hangs
    by_cases two : i = 2
    · subst two
      decide
    · by_cases one : i = 1 <;> by_cases zero : i = 0 <;> simp [state, one, two, zero] at hangs

/-- The program still hangs when the clock has ticked 2^31 times. -/
theorem never_woken :
    ¬∀ (seconds : BitVec 32) (k : Kernel) (run : List (Action × Kernel)), seconds ≠ 0 →
      boot.Step (.sleep seconds) k → Along Step k run →
      Along (fun k a _ => ¬k.Disturbs 2 a) k run → SleepsFor 2 seconds.toNat k run := by
  intro all
  obtain ⟨_, passes, _⟩ := alone_idling.passes (2 ^ 31)
  obtain ⟨run, ran, quiet, count, _⟩ := (Passes.single step_idling (by decide)).trans passes
  -- The run has 2^31 ticks, and the slot should have been woken at the last of them.
  have slept := all 0x80000000 _ run (by decide) step_oversleeping ran quiet
  have asleep : oversleeping.Asleep 2 (-0x80000000) := Seated.boot.asleep (by decide) step_oversleeping
  rw [asleep.oversleeps (by decide) (by decide) ran quiet, count] at slept
  exact absurd slept (by decide)

end Kernel

end LateOS
