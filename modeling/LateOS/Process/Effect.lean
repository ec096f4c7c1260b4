import LateOS.Process.Kernel

/-!
# What one step does

`Kernel.step_cases` says once what a step of the process model can do to the table and
to the control points; every invariant of the table is derived from it.
-/
namespace LateOS

/-! ## Fields after the table functions -/

section Fields

variable (q : TaskQueue) (i j pid current : Int)

theorem checkTaskState_iff : checkTaskState q i = true ↔ (q i).state = .ready := by
  simp [checkTaskState]

theorem reapable_iff : reapable q current i = true ↔
    (q i).ppid = (q current).pid ∧ (q i).state = .zombie := by
  simp [reapable]

/-- `newPID` answers a READY slot, or -1. -/
theorem newPID_cases : (InTable (newPID q) ∧ (q (newPID q)).state = .ready) ∨
    (newPID q = -1 ∧ ∀ i, InTable i → (q i).state ≠ .ready) := by
  unfold newPID
  cases found : firstSlot (checkTaskState q) with
  | none =>
    right
    refine ⟨rfl, fun i inside ready => ?_⟩
    have free := firstSlot_none.mp found i inside
    rw [(checkTaskState_iff q i).mpr ready] at free
    cases free
  | some i =>
    left
    obtain ⟨inside, free⟩ := firstSlot_some found
    exact ⟨inside, (checkTaskState_iff q i).mp free⟩

variable {q i} in
/-- A slot that is not free is not handed out. -/
theorem newPID_ne (inside : InTable i) (used : (q i).state ≠ .ready) : i ≠ newPID q := by
  rintro rfl
  rcases newPID_cases q with ⟨_, ready⟩ | ⟨full, _⟩
  · exact used ready
  · rw [full] at inside
    exact absurd inside (by decide)

/-- The ppid of the slot that dies, once its own children are handed over. -/
def heir : Int := if InTable i ∧ (q i).ppid = pid then 0 else (q i).ppid

@[simp] theorem terminate_state : (terminate q i pid j).state =
    if j = i then .zombie
    else if j = heir q i pid ∧ (q j).state = .wait then .running else (q j).state := by
  unfold terminate heir
  simp only [wakeParent_state, reparent_state, reparent_ppid, setState_state, setState_ppid]
  -- The slot that dies was set to ZOMBIE before the wake-up looks for WAIT, so it cannot wake
  -- itself.
  by_cases same : j = i <;> simp [same]

@[simp] theorem terminate_pid : (terminate q i pid j).pid = (q j).pid := by
  simp [terminate]

@[simp] theorem terminate_ppid : (terminate q i pid j).ppid =
    if InTable j ∧ (q j).ppid = pid then 0 else (q j).ppid := by
  simp [terminate]

variable (pml4e : BitVec 64) (vm : List VmaStruct)

@[simp] theorem increaseChildCount_state :
    (increaseChildCount q i j).state = (q j).state := by
  by_cases same : j = i
  · subst same
    simp [increaseChildCount]
  · simp [increaseChildCount, same]

@[simp] theorem increaseChildCount_pid : (increaseChildCount q i j).pid = (q j).pid := by
  by_cases same : j = i
  · subst same
    simp [increaseChildCount]
  · simp [increaseChildCount, same]

@[simp] theorem increaseChildCount_ppid : (increaseChildCount q i j).ppid = (q j).ppid := by
  by_cases same : j = i
  · subst same
    simp [increaseChildCount]
  · simp [increaseChildCount, same]

@[simp] theorem createChild_state : (createChild q current pml4e vm j).state =
    if j = newPID q then .running else (q j).state := by
  by_cases same : j = newPID q
  · subst same
    simp [createChild]
  · simp [createChild, copytask, same]

@[simp] theorem createChild_pid : (createChild q current pml4e vm j).pid =
    if j = newPID q then j else (q j).pid := by
  by_cases same : j = newPID q
  · subst same
    simp [createChild, copytask]
  · simp [createChild, copytask, same]

@[simp] theorem increaseChildCount_currDir :
    (increaseChildCount q i j).currDir = (q j).currDir := by
  by_cases same : j = i
  · subst same
    simp [increaseChildCount]
  · simp [increaseChildCount, same]

@[simp] theorem createChild_currDir : (createChild q current pml4e vm j).currDir =
    if j = newPID q then (q current).currDir else (q j).currDir := by
  by_cases same : j = newPID q
  · subst same
    by_cases own : current = newPID q
    · simp [createChild, copytask, ← own]
    · simp [createChild, copytask, own]
  · simp [createChild, copytask, same]

@[simp] theorem increaseChildCount_vm : (increaseChildCount q i j).vm = (q j).vm := by
  by_cases same : j = i
  · subst same
    simp [increaseChildCount]
  · simp [increaseChildCount, same]

@[simp] theorem createChild_vm : (createChild q current pml4e vm j).vm =
    if j = newPID q then vm else (q j).vm := by
  by_cases same : j = newPID q
  · subst same
    simp [createChild, copytask]
  · simp [createChild, copytask, same]

theorem createChild_ppid (other : current ≠ newPID q) :
    (createChild q current pml4e vm j).ppid =
      if j = newPID q then (q current).pid else (q j).ppid := by
  by_cases same : j = newPID q
  · subst same
    simp [createChild, copytask, other]
  · simp [createChild, copytask, same]

theorem taskTimer_state : (taskTimer q j).state = (q j).state ∨
    ((q j).state = .hang ∧ (taskTimer q j).state = .running) := by
  unfold taskTimer
  split
  next hangs =>
    dsimp only
    -- Only whether the countdown has reached zero matters here.
    generalize (if 0 < (q j).time then (q j).time - 1 else (q j).time) = time
    by_cases elapsed : time = 0
    · exact Or.inr ⟨hangs.2, by rw [if_pos elapsed]⟩
    · exact Or.inl (by rw [if_neg elapsed, hangs.2])
  · exact Or.inl rfl

@[simp] theorem taskTimer_pid : (taskTimer q j).pid = (q j).pid := by
  unfold taskTimer
  split <;> rfl

@[simp] theorem taskTimer_ppid : (taskTimer q j).ppid = (q j).ppid := by
  unfold taskTimer
  split <;> rfl

theorem wakeProcess_state : (wakeProcess q j).state = (q j).state ∨
    ((q j).state = .sleep ∧ (wakeProcess q j).state = .running) := by
  unfold wakeProcess
  cases found : firstSlot (fun i => decide ((q i).state = .sleep)) with
  | none => exact Or.inl rfl
  | some i =>
    have sleeps := (firstSlot_some found).2
    by_cases same : j = i
    · subst same
      exact Or.inr ⟨by simpa using sleeps, by simp⟩
    · exact Or.inl (by simp [same])

@[simp] theorem wakeProcess_pid : (wakeProcess q j).pid = (q j).pid := by
  unfold wakeProcess
  cases firstSlot (fun i => decide ((q i).state = .sleep)) <;> simp

@[simp] theorem wakeProcess_ppid : (wakeProcess q j).ppid = (q j).ppid := by
  unfold wakeProcess
  cases firstSlot (fun i => decide ((q i).state = .sleep)) <;> simp

@[simp] theorem Kernel.fork_state (k : Kernel) :
    ((k.fork pml4e vm).taskQueue j).state =
      if j = newPID k.taskQueue then .running else (k.taskQueue j).state := by
  simp [Kernel.fork]

@[simp] theorem Kernel.fork_pid (k : Kernel) :
    ((k.fork pml4e vm).taskQueue j).pid =
      if j = newPID k.taskQueue then j else (k.taskQueue j).pid := by
  simp [Kernel.fork]

/-- The child of a `fork` has the VMAs that it is given. -/
@[simp] theorem Kernel.fork_vm (k : Kernel) :
    ((k.fork pml4e vm).taskQueue j).vm =
      if j = newPID k.taskQueue then vm else (k.taskQueue j).vm := by
  simp [Kernel.fork]

end Fields

/-! ## The scan of `schedule` -/

theorem nextRunning_some {q : TaskQueue} {self : Int} {n : Nat} {i j : Int}
    (inside : InTable i) (found : nextRunning q self n i = some j) :
    j = self ∨ (InTable j ∧ (q j).state = .running) := by
  induction n generalizing i with
  | zero => cases found
  | succ n ih =>
    rw [nextRunning] at found
    split at found
    next here =>
      cases found
      exact Or.inl here
    next =>
      split at found
      next runs =>
        cases found
        exact Or.inr ⟨inside, runs⟩
      next =>
        refine ih ⟨?_, ?_⟩ found
        · exact Int.emod_nonneg _ (by decide)
        · exact Int.emod_lt_of_pos _ (by decide)

/-- A scan has passed every slot in front of the one that it answers. -/
theorem nextRunning_first {q : TaskQueue} {self : Int} {n : Nat} {i j : Int}
    (inside : InTable i) (found : nextRunning q self n i = some j) (s : Int)
    (slot : InTable s) (between : (s - i) % MAX < (j - i) % MAX) : (q s).state ≠ .running := by
  induction n generalizing i with
  | zero => cases found
  | succ n ih =>
    obtain ⟨low, high⟩ := inside
    obtain ⟨slotLow, slotHigh⟩ := slot
    -- Nothing lies between the slot that is looked at and itself.
    have away : i ≠ j := by
      rintro rfl
      rw [Int.sub_self, Int.zero_emod] at between
      have := Int.emod_nonneg (s - i) (show MAX ≠ 0 by decide)
      omega
    rw [nextRunning] at found
    split at found
    next => exact absurd (Option.some.inj found) away
    next =>
      split at found
      next => exact absurd (Option.some.inj found) away
      next blocked =>
        by_cases here : s = i
        · subst here
          exact blocked
        -- Seen from the next slot every distance is one less; `omega` needs `MAX` as a numeral.
        · refine ih ⟨Int.emod_nonneg _ (by decide), Int.emod_lt_of_pos _ (by decide)⟩ found ?_
          simp only [MAX] at *
          omega

/-- The scan ends: it meets its caller after at most `MAX` rounds. -/
theorem nextRunning_isSome {q : TaskQueue} {self : Int} (seat : InTable self) {n : Nat} {i : Int}
    (inside : InTable i) (enough : (self - i) % MAX < n) :
    (nextRunning q self n i).isSome := by
  induction n generalizing i with
  | zero =>
    have := Int.emod_nonneg (self - i) (show MAX ≠ 0 by decide)
    omega
  | succ n ih =>
    obtain ⟨low, high⟩ := inside
    obtain ⟨seatLow, seatHigh⟩ := seat
    rw [nextRunning]
    split
    next => rfl
    next other =>
      split
      next => rfl
      next =>
        refine ih ⟨Int.emod_nonneg _ (by decide), Int.emod_lt_of_pos _ (by decide)⟩ ?_
        simp only [MAX] at *
        omega

/-- What `schedule` answers for the caller `self`: a RUNNING slot, or the caller when no
other slot is RUNNING. -/
def Chosen (q : TaskQueue) (self n : Int) : Prop :=
  (InTable n ∧ (q n).state = .running) ∨
  (n = self ∧ (InTable self → ∀ j, InTable j → j ≠ self → (q j).state ≠ .running))

theorem Kernel.schedule_some {k k' : Kernel} {p : Point} (called : k.schedule p = some k') :
    ∃ n, k' = { k.setPoint p with currentTask := n } ∧ Chosen k.taskQueue k.self.pid n := by
  obtain ⟨n, found, rfl⟩ := Option.map_eq_some_iff.mp called
  have first : InTable ((k.self.pid + 1) % MAX) :=
    ⟨Int.emod_nonneg _ (by decide), Int.emod_lt_of_pos _ (by decide)⟩
  -- The scan starts at the slot behind the caller.
  refine ⟨n, rfl, ?_⟩
  rcases nextRunning_some first found with rfl | runs
  -- It came back to the caller, so every other slot lay on its way.
  · refine Or.inr ⟨rfl, fun seat j slot other => ?_⟩
    obtain ⟨low, high⟩ := id seat
    obtain ⟨slotLow, slotHigh⟩ := id slot
    refine nextRunning_first first found j slot ?_
    simp only [MAX] at *
    omega
  · exact Or.inl runs

/-- `schedule` returns for every caller that is a slot. -/
theorem Kernel.schedule_isSome {k : Kernel} (p : Point) (seat : InTable k.self.pid) :
    (k.schedule p).isSome := by
  obtain ⟨low, high⟩ := id seat
  rw [schedule, Option.isSome_map]
  refine nextRunning_isSome seat
    ⟨Int.emod_nonneg _ (by decide), Int.emod_lt_of_pos _ (by decide)⟩ ?_
  simp only [MAX] at *
  omega

/-! ## The table change of a step -/

/-- Whether the scan of `intRead` meets a newline. -/
def Kernel.lineFound (k : Kernel) : Bool :=
  (k.terminal.readLine (4096 - k.terminal.offset).toNat k.terminal.offset).2.2

/-- The step enters the call `c`, or goes on in it behind the `schedule` at `p`. -/
def Kernel.Runs (k : Kernel) (a c : Action) (p : Point) : Prop :=
  a = c ∧ k.point k.currentTask = .top ∨ a = .resume ∧ k.point k.currentTask = p

/-- The step is one of `wait` or `waitpid`. -/
def Kernel.Reaps (k : Kernel) (a : Action) : Prop :=
  a = .wait ∨ (∃ pid, a = .waitpid pid) ∨
  a = .resume ∧ (k.point k.currentTask = .wait ∨ ∃ pid, k.point k.currentTask = .waitpid pid)

/-- The step is about to overwrite the state of the task that takes it: it blocks, or
leaves `intRead` with a line. -/
def Kernel.SetsOwnState (k : Kernel) : Action → Prop
  | .wait => firstSlot (reapable k.taskQueue k.currentTask) = none
  | .waitpid pid => reapable k.taskQueue k.currentTask pid = false
  | .sleep seconds => seconds ≠ 0
  | .read => 0 < k.terminal.lineCount → k.lineFound = true
  | .resume =>
    match k.point k.currentTask with
    | .wait => firstSlot (reapable k.taskQueue k.currentTask) = none
    | .intRead => 0 < k.terminal.lineCount → k.lineFound = true
    | _ => False
  | _ => False

/-! ## The terminal of a step -/

/-- No newline lies behind what has been typed. -/
def Terminal.Plain (t : Terminal) : Prop := ∀ i, t.strOffset ≤ i → t.inpStr i ≠ 10

namespace Terminal

variable {t : Terminal}

theorem initial_plain : initial.Plain := by
  intro i _
  change (0 : UInt8) ≠ 10
  decide

/-- The character goes in front of the new end. -/
theorem Plain.append (plain : t.Plain) (c : UInt8) : (t.append c).Plain := by
  intro i behind
  change t.strOffset + 1 ≤ i at behind
  change Function.update t.inpStr t.strOffset c i ≠ 10
  rw [Function.update_of_ne (by omega)]
  exact plain i (by omega)

theorem Plain.backspace (plain : t.Plain) :
    Plain { t with inpStr := Function.update t.inpStr (t.strOffset - 1) 0,
                   strOffset := t.strOffset - 1 } := by
  intro i behind
  change t.strOffset - 1 ≤ i at behind
  change Function.update t.inpStr (t.strOffset - 1) 0 i ≠ 10
  by_cases here : i = t.strOffset - 1
  · rw [here, Function.update_self]
    decide
  · rw [Function.update_of_ne here]
    exact plain i (by omega)

theorem Plain.intWrite (plain : t.Plain) (code : Nat) : (t.intWrite code).1.Plain := by
  unfold Terminal.intWrite
  split
  · exact plain
  split
  · split
    · exact plain.backspace
    · exact plain
  split
  · exact plain.append 10
  split
  · exact Plain.append (t := { t with controlValue := true }) plain _
  split
  · exact plain
  split
  · exact Plain.append (t := { t with controlValue := false, caps := false }) plain _
  · exact plain

/-- The scan only clears cells. -/
theorem Plain.readLine (plain : t.Plain) (n : Nat) (i : Int) : (t.readLine n i).2.1.Plain := by
  induction n generalizing t i with
  | zero => exact plain
  | succ n ih =>
    rw [Terminal.readLine]
    split
    next => exact plain
    next =>
      refine ih (fun j behind => ?_) (i + 1)
      change Function.update t.inpStr i 0 j ≠ 10
      by_cases here : j = i
      · rw [here, Function.update_self]
        decide
      · rw [Function.update_of_ne here]
        exact plain j behind

/-- Without a newline the scan runs to the end of the buffer. -/
theorem readLine_missing (t : Terminal) (n : Nat) {i : Int} (none : ∀ j, i ≤ j → t.inpStr j ≠ 10) :
    (t.readLine n i).2.2 = false := by
  induction n generalizing t i with
  | zero => rfl
  | succ n ih =>
    rw [Terminal.readLine, if_neg (none i (Int.le_refl i))]
    refine ih _ fun j behind => ?_
    change Function.update t.inpStr i 0 j ≠ 10
    rw [Function.update_of_ne (by omega)]
    exact none j (by omega)

end Terminal

namespace Kernel

variable {k k' : Kernel} {a : Action} {p : Point}

theorem schedule_terminal {mid : Kernel} (called : mid.schedule p = some k')
    (same : mid.terminal = k.terminal) : k'.terminal = k.terminal := by
  obtain ⟨n, rfl, _⟩ := schedule_some called
  exact same

theorem wait_terminal (ran : k.wait = some k') : k'.terminal = k.terminal := by
  unfold wait at ran
  split at ran
  next =>
    cases ran
    rfl
  next => exact schedule_terminal ran rfl

theorem intTimer_terminal (ran : k.intTimer = some k') : k'.terminal = k.terminal := by
  unfold intTimer at ran
  dsimp only at ran
  split at ran
  next => exact schedule_terminal ran rfl
  next =>
    cases ran
    rfl

theorem resume_terminal (ran : k.resume p = some k') (other : p ≠ .intRead) :
    k'.terminal = k.terminal := by
  cases p with
  | top => cases ran
  | wait => exact wait_terminal ran
  | waitpid pid =>
    change k.resumeWaitpid pid = _ at ran
    unfold resumeWaitpid at ran
    split at ran
    next =>
      cases ran
      rfl
    next => exact schedule_terminal ran rfl
  | intRead => exact absurd rfl other
  | _ =>
    cases ran
    rfl

theorem call_terminal {program : Program} (ran : k.call program a = some k')
    (quiet : a ≠ .read) (silent : ∀ code, a ≠ .key code) : k'.terminal = k.terminal := by
  unfold call at ran
  split at ran
  case h_1 => exact wait_terminal ran
  case h_2 => exact schedule_terminal ran rfl
  case h_3 => exact intTimer_terminal ran
  case h_4 code => exact absurd rfl (silent code)
  case h_7 =>
    unfold exit at ran
    exact schedule_terminal ran rfl
  case h_9 => exact wait_terminal ran
  case h_10 pid =>
    unfold waitpid at ran
    split at ran
    next =>
      cases ran
      rfl
    next => exact schedule_terminal ran rfl
  case h_11 seconds =>
    unfold sleep at ran
    split at ran
    next =>
      cases ran
      rfl
    next => exact schedule_terminal ran rfl
  case h_12 => exact absurd rfl quiet
  case h_13 => cases ran
  all_goals
    cases ran
    rfl

/-- Who touches the terminal: `intWrite`, and `intRead` entered or resumed. A step of neither
kind is not taken inside `intRead`. -/
theorem terminal_cases (ran : k.Step a k') :
    (∃ code, a = .key code ∧ k' = k.intWrite code) ∨
    (k.Runs a .read .intRead ∧ k.intRead = some k') ∨
    (k'.terminal = k.terminal ∧ k.point k.currentTask ≠ .intRead) := by
  rcases step_iff.mp ran with ⟨top, ran⟩ | ⟨_, rfl, resumed⟩
  · by_cases key : ∃ code, a = .key code
    · obtain ⟨code, rfl⟩ := key
      refine Or.inl ⟨code, rfl, ?_⟩
      cases program : k.program k.currentTask <;> rw [program] at ran <;> cases ran
      rfl
    by_cases read : a = .read
    · subst read
      refine Or.inr (Or.inl ⟨Or.inl ⟨rfl, top⟩, ?_⟩)
      cases program : k.program k.currentTask <;> rw [program] at ran
      · cases ran
      · cases ran
      · exact ran
    exact Or.inr (Or.inr ⟨call_terminal ran read (not_exists.mp key), by rw [top]; decide⟩)
  · by_cases read : k.point k.currentTask = .intRead
    · rw [read] at resumed
      exact Or.inr (Or.inl ⟨Or.inr ⟨rfl, read⟩, resumed⟩)
    · exact Or.inr (Or.inr ⟨resume_terminal resumed read, read⟩)

theorem plain_step (plain : k.terminal.Plain) (ran : k.Step a k') : k'.terminal.Plain := by
  rcases terminal_cases ran with ⟨code, _, rfl⟩ | ⟨_, read⟩ | ⟨same, _⟩
  · exact plain.intWrite code
  · unfold intRead at read
    split at read
    next =>
      have scanned := plain.readLine (4096 - k.terminal.offset).toNat k.terminal.offset
      dsimp only at read
      split at read
      next =>
        cases read
        exact scanned
      next =>
        obtain ⟨n, rfl, _⟩ := schedule_some read
        exact scanned
    next =>
      rw [schedule_terminal (k := k) read rfl]
      exact plain
  · rw [same]
    exact plain

end Kernel

/-! ## Steps by their call -/

/-- A step other than `fork`: the table it leaves, the point at which it leaves the
current task, and whether it calls `schedule` on the way. -/
inductive Change (k : Kernel) : Action → TaskQueue → Point → Bool → Prop
  | exec (name rip rsp vm) :
      Change k (.exec name rip rsp vm) (k.exec name rip rsp vm).taskQueue .top false
  | exit : Change k .exit (terminate k.taskQueue k.currentTask k.self.pid) .exit true
  | kill (pid) : Change k (.kill pid) (terminate k.taskQueue pid pid) .top false
  | reapFirst {a} (i) (call : k.Runs a .wait .wait)
      (found : firstSlot (reapable k.taskQueue k.currentTask) = some i) :
      Change k a (setState k.taskQueue i .ready) .top false
  | reapPid {a} (i) (call : k.Runs a (.waitpid i) (.waitpid i))
      (dead : reapable k.taskQueue k.currentTask i = true) :
      Change k a (setState k.taskQueue i .ready) .top false
  | wait {a} (call : k.Runs a .wait .wait)
      (none : firstSlot (reapable k.taskQueue k.currentTask) = none) :
      Change k a (setState k.taskQueue k.currentTask .wait) .wait true
  | waitpid (pid) (alive : reapable k.taskQueue k.currentTask pid = false) :
      Change k (.waitpid pid) (setState k.taskQueue k.currentTask .wait) (.waitpid pid) true
  | respin (pid) (cut : k.point k.currentTask = .waitpid pid)
      (alive : reapable k.taskQueue k.currentTask pid = false) :
      Change k .resume k.taskQueue (.waitpid pid) true
  | sleep (seconds) (some : seconds ≠ 0) :
      Change k (.sleep seconds)
        (Function.update k.taskQueue k.currentTask
          { k.self with time := seconds.toInt, state := .hang }) .sleep true
  | read {a} (call : k.Runs a .read .intRead)
      (lines : 0 < k.terminal.lineCount) (found : k.lineFound = true) :
      Change k a (setState k.taskQueue k.currentTask .running) .top false
  | miss {a} (call : k.Runs a .read .intRead)
      (lines : 0 < k.terminal.lineCount) (missing : k.lineFound = false) :
      Change k a k.taskQueue .intRead true
  | await {a} (call : k.Runs a .read .intRead) (empty : ¬0 < k.terminal.lineCount) :
      Change k a (setState k.taskQueue k.currentTask .sleep) .intRead true
  | idle : Change k .schedule k.taskQueue .top true
  | keep {a} (quiet : a = .sleep 0 ∨ (a = .timer ∧ k.timerCount + 1 ≠ 20) ∨
        (∃ code, a = .key code) ∨ a = .resume ∧
          (k.point k.currentTask = .exit ∨ k.point k.currentTask = .sleep)) :
      Change k a k.taskQueue .top false
  | key (code) : Change k (.key code) (wakeProcess k.taskQueue) .top false
  | preempt (due : k.timerCount + 1 = 20) : Change k .timer k.taskQueue .intTimer true
  | tick (cut : k.point k.currentTask = .intTimer) :
      Change k .resume (taskTimer k.taskQueue) .top false

/-- The control part of a step other than `fork`. -/
structure Moved (k k' : Kernel) (q : TaskQueue) (p : Point) (cut : Bool) : Prop where
  queue : k'.taskQueue = q
  program : k'.program = k.program
  point : k'.point = Function.update k.point k.currentTask p
  current : cut = false → k'.currentTask = k.currentTask
  chosen : cut = true → Chosen q (q k.currentTask).pid k'.currentTask

namespace Kernel

variable {k k' : Kernel}

private theorem moved_stay {q : TaskQueue} {p : Point} (queue : k'.taskQueue = q)
    (program : k'.program = k.program)
    (point : k'.point = Function.update k.point k.currentTask p)
    (current : k'.currentTask = k.currentTask) : Moved k k' q p false :=
  ⟨queue, program, point, fun _ => current, nofun⟩

private theorem moved_top {q : TaskQueue} (top : k.point k.currentTask = .top)
    (queue : k'.taskQueue = q) (program : k'.program = k.program) (point : k'.point = k.point)
    (current : k'.currentTask = k.currentTask) : Moved k k' q .top false := by
  refine moved_stay queue program ?_ current
  rw [point, ← top, Function.update_eq_self]

private theorem moved_schedule {mid : Kernel} {q : TaskQueue} {p : Point}
    (called : mid.schedule p = some k') (queue : mid.taskQueue = q)
    (program : mid.program = k.program) (point : mid.point = k.point)
    (current : mid.currentTask = k.currentTask) : Moved k k' q p true := by
  obtain ⟨n, rfl, chosen⟩ := schedule_some called
  refine ⟨queue, program, ?_, nofun, fun _ => ?_⟩
  · change Function.update mid.point mid.currentTask p = _
    rw [point, current]
  · rw [self, queue, current] at chosen
    exact chosen

private theorem wait_cases {a : Action} (call : k.Runs a .wait .wait)
    (ran : k.wait = some k') :
    ∃ q p cut, Change k a q p cut ∧ Moved k k' q p cut := by
  unfold wait at ran
  split at ran
  next i found =>
    cases ran
    exact ⟨_, _, _, .reapFirst i call found, moved_stay rfl rfl rfl rfl⟩
  next none => exact ⟨_, _, _, .wait call none, moved_schedule ran rfl rfl rfl rfl⟩

private theorem intRead_cases {a : Action} (call : k.Runs a .read .intRead)
    (ran : k.intRead = some k') :
    ∃ q p cut, Change k a q p cut ∧ Moved k k' q p cut := by
  unfold intRead at ran
  split at ran
  -- A line was counted; the scan decides whether it is there.
  next lines =>
    dsimp only at ran
    split at ran
    next found =>
      cases ran
      exact ⟨_, _, _, .read call lines found, moved_stay rfl rfl rfl rfl⟩
    next missing =>
      exact ⟨_, _, _, .miss call lines (by simpa [lineFound] using missing),
        moved_schedule ran rfl rfl rfl rfl⟩
  next empty => exact ⟨_, _, _, .await call empty, moved_schedule ran rfl rfl rfl rfl⟩

private theorem intTimer_cases (top : k.point k.currentTask = .top)
    (ran : k.intTimer = some k') : ∃ q p cut, Change k .timer q p cut ∧ Moved k k' q p cut := by
  unfold intTimer at ran
  dsimp only at ran
  split at ran
  next due => exact ⟨_, _, _, .preempt due, moved_schedule ran rfl rfl rfl rfl⟩
  next early =>
    cases ran
    exact ⟨_, _, _, .keep (by simp [early]), moved_top top rfl rfl rfl rfl⟩

private theorem intWrite_cases (top : k.point k.currentTask = .top) (code : Nat) :
    ∃ q p cut, Change k (.key code) q p cut ∧ Moved k (k.intWrite code) q p cut := by
  unfold intWrite
  dsimp only
  split
  · exact ⟨_, _, _, .key code, moved_top top rfl rfl rfl rfl⟩
  · exact ⟨_, _, _, .keep (by simp), moved_top top rfl rfl rfl rfl⟩

private theorem resume_cases (ran : k.resume (k.point k.currentTask) = some k') :
    ∃ q p cut, Change k .resume q p cut ∧ Moved k k' q p cut := by
  cases point : k.point k.currentTask with
  | top =>
    rw [point] at ran
    cases ran
  | exit =>
    rw [point] at ran
    cases ran
    exact ⟨_, _, _, .keep (by simp [point]), moved_stay rfl rfl rfl rfl⟩
  | wait =>
    rw [point] at ran
    exact wait_cases (Or.inr ⟨rfl, point⟩) ran
  | waitpid pid =>
    rw [point] at ran
    change k.resumeWaitpid pid = _ at ran
    unfold resumeWaitpid at ran
    split at ran
    next dead =>
      cases ran
      exact ⟨_, _, _, .reapPid pid (Or.inr ⟨rfl, point⟩) dead, moved_stay rfl rfl rfl rfl⟩
    next alive =>
      exact ⟨_, _, _, .respin pid point (by simpa using alive), moved_schedule ran rfl rfl rfl rfl⟩
  | sleep =>
    rw [point] at ran
    cases ran
    exact ⟨_, _, _, .keep (by simp [point]), moved_stay rfl rfl rfl rfl⟩
  | intRead =>
    rw [point] at ran
    exact intRead_cases (Or.inr ⟨rfl, point⟩) ran
  | intTimer =>
    rw [point] at ran
    cases ran
    exact ⟨_, _, _, .tick point, moved_stay rfl rfl rfl rfl⟩

private theorem call_cases {a : Action} (top : k.point k.currentTask = .top)
    (ran : k.call (k.program k.currentTask) a = some k') :
    (∃ pml4e vm, a = .fork pml4e vm ∧ k' = k.fork pml4e vm) ∨
    ∃ q p cut, Change k a q p cut ∧ Moved k k' q p cut := by
  unfold call at ran
  split at ran
  case h_1 => exact Or.inr (wait_cases (Or.inl ⟨rfl, top⟩) ran)
  case h_2 => exact Or.inr ⟨_, _, _, .idle, moved_schedule ran rfl rfl rfl rfl⟩
  case h_3 => exact Or.inr (intTimer_cases top ran)
  case h_4 code _ =>
    cases ran
    exact Or.inr (intWrite_cases top code)
  case h_5 pml4e vm _ =>
    cases ran
    exact Or.inl ⟨pml4e, vm, rfl, rfl⟩
  case h_6 name rip rsp vm _ =>
    cases ran
    exact Or.inr ⟨_, _, _, .exec name rip rsp vm, moved_top top rfl rfl rfl rfl⟩
  case h_7 =>
    unfold exit at ran
    exact Or.inr ⟨_, _, _, .exit, moved_schedule ran rfl rfl rfl rfl⟩
  case h_8 pid _ =>
    cases ran
    exact Or.inr ⟨_, _, _, .kill pid, moved_top top rfl rfl rfl rfl⟩
  case h_9 => exact Or.inr (wait_cases (Or.inl ⟨rfl, top⟩) ran)
  case h_10 pid _ =>
    unfold waitpid at ran
    split at ran
    next dead =>
      cases ran
      exact Or.inr ⟨_, _, _, .reapPid pid (Or.inl ⟨rfl, top⟩) dead,
        moved_stay rfl rfl rfl rfl⟩
    next alive =>
      exact Or.inr ⟨_, _, _, .waitpid pid (by simpa using alive),
        moved_schedule ran rfl rfl rfl rfl⟩
  case h_11 seconds _ =>
    unfold sleep at ran
    split at ran
    next none =>
      cases ran
      subst none
      exact Or.inr ⟨_, _, _, .keep (by simp), moved_top top rfl rfl rfl rfl⟩
    next some =>
      exact Or.inr ⟨_, _, _, .sleep seconds some, moved_schedule ran rfl rfl rfl rfl⟩
  case h_12 => exact Or.inr (intRead_cases (Or.inl ⟨rfl, top⟩) ran)
  case h_13 => cases ran

/-- What one step can do. -/
theorem step_cases {a : Action} (ran : k.Step a k') :
    (∃ pml4e vm, a = .fork pml4e vm ∧ k' = k.fork pml4e vm) ∨
    ∃ q p cut, Change k a q p cut ∧ Moved k k' q p cut := by
  rcases step_iff.mp ran with ⟨top, called⟩ | ⟨_, rfl, resumed⟩
  · exact call_cases top called
  · exact Or.inr (resume_cases resumed)

end Kernel

/-! ## What every change leaves alone -/

namespace Change

variable {k : Kernel} {a : Action} {q : TaskQueue} {p : Point} {cut : Bool}

/-- Only `fork` gives out process ids. -/
theorem pid_eq (change : Change k a q p cut) (j : Int) : (q j).pid = (k.taskQueue j).pid := by
  cases change with
  -- `exec` and `sleep` rewrite the record of the current task, but not these fields.
  | exec =>
    by_cases same : j = k.currentTask
    · subst same
      simp [Kernel.exec, Kernel.self]
    · simp [Kernel.exec, same]
  | sleep =>
    by_cases same : j = k.currentTask
    · subst same
      simp [Kernel.self]
    · simp [same]
  | _ => simp

/-- A call that is entered or resumed is neither `exit` nor `kill`. -/
theorem runs_kills_nobody {k : Kernel} {a c : Action} {p : Point} (call : k.Runs a c p)
    (exit : c ≠ .exit) (kill : ∀ pid, c ≠ .kill pid) : a ≠ .exit ∧ ∀ pid, a ≠ .kill pid := by
  rcases call with ⟨rfl, _⟩ | ⟨rfl, _⟩
  · exact ⟨exit, kill⟩
  · exact ⟨by simp, by simp⟩

/-- Only `fork`, `exit` and `kill` write a ppid. -/
theorem death_cases (change : Change k a q p cut) :
    ((a ≠ .exit ∧ ∀ pid, a ≠ .kill pid) ∧ ∀ j, (q j).ppid = (k.taskQueue j).ppid) ∨
    (a = .exit ∧ q = terminate k.taskQueue k.currentTask k.self.pid ∧ p = .exit) ∨
    (∃ pid, a = .kill pid ∧ q = terminate k.taskQueue pid pid ∧ p = .top) := by
  cases change with
  | exec =>
    refine Or.inl ⟨⟨by simp, by simp⟩, fun j => ?_⟩
    by_cases same : j = k.currentTask
    · subst same
      simp [Kernel.exec, Kernel.self]
    · simp [Kernel.exec, same]
  | exit => exact Or.inr (Or.inl ⟨rfl, rfl, rfl⟩)
  | kill pid => exact Or.inr (Or.inr ⟨pid, rfl, rfl, rfl⟩)
  | sleep =>
    refine Or.inl ⟨⟨by simp, by simp⟩, fun j => ?_⟩
    by_cases same : j = k.currentTask
    · subst same
      simp [Kernel.self]
    · simp [same]
  | reapFirst i call => exact Or.inl ⟨runs_kills_nobody call (by simp) (by simp), by simp⟩
  | reapPid i call => exact Or.inl ⟨runs_kills_nobody call (by simp) (by simp), by simp⟩
  | wait call => exact Or.inl ⟨runs_kills_nobody call (by simp) (by simp), by simp⟩
  | read call => exact Or.inl ⟨runs_kills_nobody call (by simp) (by simp), by simp⟩
  | miss call => exact Or.inl ⟨runs_kills_nobody call (by simp) (by simp), by simp⟩
  | await call => exact Or.inl ⟨runs_kills_nobody call (by simp) (by simp), by simp⟩
  | keep quiet =>
    rcases quiet with rfl | ⟨rfl, _⟩ | ⟨code, rfl⟩ | ⟨rfl, _⟩ <;> exact Or.inl (by simp)
  | _ => exact Or.inl (by simp)

theorem runs_wait {k : Kernel} {a : Action} (call : k.Runs a .wait .wait) :
    k.SetsOwnState a ↔ firstSlot (reapable k.taskQueue k.currentTask) = none := by
  rcases call with ⟨rfl, _⟩ | ⟨rfl, cut⟩
  · rfl
  · simp [Kernel.SetsOwnState, cut]

theorem runs_waitpid {k : Kernel} {a : Action} {pid : Int}
    (call : k.Runs a (.waitpid pid) (.waitpid pid))
    (dead : reapable k.taskQueue k.currentTask pid = true) : ¬k.SetsOwnState a := by
  rcases call with ⟨rfl, _⟩ | ⟨rfl, cut⟩
  · simp [Kernel.SetsOwnState, dead]
  · simp [Kernel.SetsOwnState, cut]

theorem runs_read {k : Kernel} {a : Action} (call : k.Runs a .read .intRead) :
    k.SetsOwnState a ↔ (0 < k.terminal.lineCount → k.lineFound = true) := by
  rcases call with ⟨rfl, _⟩ | ⟨rfl, cut⟩
  · rfl
  · simp [Kernel.SetsOwnState, cut]

/-- A change that overwrites the current task's state leaves it alive, and RUNNING unless
it gives up the processor. -/
theorem own (change : Change k a q p cut) (sets : k.SetsOwnState a) :
    ∃ s : TaskState, s.Live ∧ (cut = false → s = .running) ∧ ∀ j, (q j).state =
      if j = k.currentTask then s else (k.taskQueue j).state := by
  cases change with
  -- A slot found ZOMBIE is reaped, and nothing is written over the state of the caller.
  | reapFirst i call found =>
    rw [runs_wait call, found] at sets
    cases sets
  | reapPid i call dead => exact absurd sets (runs_waitpid call dead)
  | wait => exact ⟨.wait, by simp [TaskState.Live], nofun, fun j => by simp⟩
  | waitpid => exact ⟨.wait, by simp [TaskState.Live], nofun, fun j => by simp⟩
  | respin pid cut => simp [Kernel.SetsOwnState, cut] at sets
  | sleep =>
    refine ⟨.hang, by simp [TaskState.Live], nofun, fun j => ?_⟩
    by_cases same : j = k.currentTask
    · subst same
      simp
    · simp [same]
  | read => exact ⟨.running, by simp [TaskState.Live], fun _ => rfl, fun j => by simp⟩
  | miss call lines missing =>
    have found := (runs_read call).mp sets lines
    rw [missing] at found
    cases found
  | await => exact ⟨.sleep, by simp [TaskState.Live], nofun, fun j => by simp⟩
  | keep quiet =>
    rcases quiet with rfl | ⟨rfl, _⟩ | ⟨code, rfl⟩ | ⟨rfl, cut | cut⟩ <;>
      simp_all [Kernel.SetsOwnState]
  | tick cut => simp [Kernel.SetsOwnState, cut] at sets
  | _ => exact absurd sets (by simp [Kernel.SetsOwnState])

/-- What becomes of slot `j`, where the caller does not set its own state. -/
inductive Outcome (k : Kernel) (a : Action) (q : TaskQueue) (cut : Bool) (j : Int) : Prop where
  | same (state : (q j).state = (k.taskQueue j).state)
  | woken (blocked : (k.taskQueue j).state.Blocked) (runs : (q j).state = .running)
  | reaped (dead : reapable k.taskQueue k.currentTask j = true) (call : k.Reaps a)
      (ready : (q j).state = .ready)
  | died (cause : a = .exit ∧ cut = true ∧ j = k.currentTask ∨ a = .kill j)
      (zombie : (q j).state = .zombie)

private theorem died {i pid : Int} (cause : a = .exit ∧ cut = true ∧ i = k.currentTask ∨ a = .kill i)
    (eq : q = terminate k.taskQueue i pid) {j : Int} : Outcome k a q cut j := by
  subst eq
  by_cases same : j = i
  · subst same
    apply Outcome.died cause
    simp
  · by_cases woken : j = heir k.taskQueue i pid ∧ (k.taskQueue j).state = .wait
    · apply Outcome.woken (Or.inr (Or.inl woken.2))
      rw [terminate_state, if_neg same, if_pos woken]
    · apply Outcome.same
      rw [terminate_state, if_neg same, if_neg woken]

private theorem reaped {i : Int} (dead : reapable k.taskQueue k.currentTask i = true)
    (call : k.Reaps a) {j : Int} : Outcome k a (setState k.taskQueue i .ready) cut j := by
  by_cases same : j = i
  · subst same
    apply Outcome.reaped dead call
    simp
  · apply Outcome.same
    simp [same]

/-- What a change that does not overwrite the current task's state can do to a slot. -/
theorem others (change : Change k a q p cut) (sets : ¬k.SetsOwnState a) (j : Int) :
    Outcome k a q cut j := by
  cases change with
  | exec =>
    apply Outcome.same
    by_cases same : j = k.currentTask
    · subst same
      simp [Kernel.exec, Kernel.self]
    · simp [Kernel.exec, same]
  | exit => exact died (Or.inl ⟨rfl, rfl, rfl⟩) rfl
  | kill pid => exact died (Or.inr rfl) rfl
  | reapFirst i call found =>
    apply reaped (firstSlot_some found).2
    rcases call with ⟨rfl, _⟩ | ⟨rfl, cut⟩
    · exact Or.inl rfl
    · exact Or.inr (Or.inr ⟨rfl, Or.inl cut⟩)
  | reapPid i call dead =>
    apply reaped dead
    rcases call with ⟨rfl, _⟩ | ⟨rfl, cut⟩
    · exact Or.inr (Or.inl ⟨i, rfl⟩)
    · exact Or.inr (Or.inr ⟨rfl, Or.inr ⟨i, cut⟩⟩)
  -- These set the state of their caller.
  | wait call none => exact absurd ((runs_wait call).mpr none) sets
  | waitpid pid alive => exact absurd alive sets
  | sleep seconds some => exact absurd some sets
  | read call lines found => exact absurd ((runs_read call).mpr fun _ => found) sets
  | await call empty =>
    exact absurd ((runs_read call).mpr fun lines => absurd lines empty) sets
  | key =>
    rcases wakeProcess_state k.taskQueue j with same | ⟨sleeps, runs⟩
    · exact Outcome.same same
    · exact Outcome.woken (Or.inl sleeps) runs
  | tick =>
    rcases taskTimer_state k.taskQueue j with same | ⟨hangs, runs⟩
    · exact Outcome.same same
    · exact Outcome.woken (Or.inr (Or.inr hangs)) runs
  | _ => exact Outcome.same rfl

/-- A RUNNING slot stays so, unless it is killed or takes the step. -/
theorem running_kept (change : Change k a q p cut) {j : Int} (spared : a ≠ .kill j)
    (other : j ≠ k.currentTask) (runs : (k.taskQueue j).state = .running) :
    (q j).state = .running := by
  by_cases sets : k.SetsOwnState a
  · obtain ⟨s, _, _, after⟩ := change.own sets
    rw [after, if_neg other, runs]
  · rcases change.others sets j with same | ⟨_, after⟩ | ⟨dead, _⟩ | ⟨died, _⟩
    · rw [same, runs]
    · exact after
    -- Only a ZOMBIE is reaped, and only the task itself or its killer ends it.
    · rw [reapable_iff, runs] at dead
      cases dead.2
    · rcases died with ⟨_, _, here⟩ | killed
      · exact absurd here other
      · exact absurd killed spared

end Change

end LateOS
