import LateOS.Process.Terminal

/-!
# Processes

The system calls and interrupt handlers that change the process table, as a transition
function. A system call runs with interrupts off until it returns or calls `schedule`;
the call that is cut by `schedule` is resumed when its task is selected again, so each
slot keeps the `Point` at which it will go on. Page tables and VMA lists are left to the
memory model: `fork` and `exec` carry what `copytask` and `execvpe` put there.
-/
namespace LateOS

/-- The code a slot runs: the kernel loops `in` and `idle`, or a user program. -/
inductive Program where
  | init | idle | user
  deriving DecidableEq, Repr

/-- Where a slot goes on: in its own program, or behind the `schedule` of a call. -/
inductive Point where
  | top | exit | wait | waitpid (pid : Int) | sleep | intRead | intTimer
  deriving DecidableEq, Repr

structure Kernel where
  taskQueue : TaskQueue
  currentTask : Int
  program : Int → Program
  point : Int → Point
  terminal : Terminal
  timerCount : Nat
  totalSecs : Nat

/-- What the current task, or an interrupt, does next. -/
inductive Action where
  | fork (pml4e : BitVec 64) (vm : List VmaStruct)
  | exec (name : List UInt8) (rip rsp : Nat) (vm : List VmaStruct)
  | exit
  | kill (pid : Int)
  | wait
  | waitpid (pid : Int)
  | sleep (seconds : BitVec 32)
  | read
  | schedule
  | timer
  | key (code : Nat)
  | resume
  deriving Repr

/-! ## Table functions -/

def checkTaskState (q : TaskQueue) (i : Int) : Bool := (q i).state = .ready

def newPID (q : TaskQueue) : Int := (firstSlot (checkTaskState q)).getD (-1)

/-- `copytask`; the page tables and the VMA list are those of the copy. -/
def copytask (q : TaskQueue) (current c : Int) (pml4e : BitVec 64) (vm : List VmaStruct) :
    TaskQueue :=
  Function.update q c { q c with
    ppid := (q current).pid, pml4e := pml4e, name := (q current).name,
    currDir := (q current).currDir, vm := vm }

def createChild (q : TaskQueue) (current : Int) (pml4e : BitVec 64) (vm : List VmaStruct) :
    TaskQueue :=
  let dupPID := newPID q
  let q := Function.update q dupPID { q dupPID with pid := dupPID }
  let q := copytask q current dupPID pml4e vm
  Function.update q dupPID { q dupPID with
    ustack := stackS, rsp := stackS + 511 * 8, state := .running }

def increaseChildCount (q : TaskQueue) (current : Int) : TaskQueue :=
  Function.update q current { q current with childCount := (q current).childCount + 1 }

/-- The body that `exit` and `kill` share, on slot `i` with process id `pid`. -/
def terminate (q : TaskQueue) (i pid : Int) : TaskQueue :=
  wakeParent (reparent (setState q i .zombie) pid) i

/-- The test of `wait` and `waitpid` on slot `i`. -/
def reapable (q : TaskQueue) (current i : Int) : Bool :=
  (q i).ppid = (q current).pid && (q i).state = .zombie

/-- `taskTimer`: one loop over the table, each slot on its own. -/
def taskTimer (q : TaskQueue) : TaskQueue := fun i =>
  if InTable i ∧ (q i).state = .hang then
    let time := if 0 < (q i).time then (q i).time - 1 else (q i).time
    { q i with time := time, state := if time = 0 then .running else .hang }
  else q i

/-- `wake_process`: the first SLEEP slot becomes RUNNING. -/
def wakeProcess (q : TaskQueue) : TaskQueue :=
  match firstSlot (fun i => (q i).state = .sleep) with
  | some i => setState q i .running
  | none => q

/-- The `while` loop of `schedule`, `n` rounds at most. -/
def nextRunning (q : TaskQueue) (self : Int) : Nat → Int → Option Int
  | 0, _ => none
  | n + 1, nextPID =>
    -- Back at the caller, whatever its state is.
    if nextPID = self then some nextPID
    else if (q nextPID).state = .running then some nextPID
    else nextRunning q self n ((nextPID + 1) % MAX)

/-! ## Calls -/

namespace Kernel

variable (k : Kernel)

/-- The current task's record. -/
def self : TaskStruct := k.taskQueue k.currentTask

def setPoint (p : Point) : Kernel :=
  { k with point := Function.update k.point k.currentTask p }

/-- `schedule`, called from point `p`. -/
def schedule (p : Point) : Option Kernel :=
  (nextRunning k.taskQueue k.self.pid 1100 ((k.self.pid + 1) % MAX)).map fun nextPID =>
    { k.setPoint p with currentTask := nextPID }

/-- `currentTask->state = s`. -/
def setSelf (s : TaskState) : Kernel :=
  { k with taskQueue := setState k.taskQueue k.currentTask s }

/-- `removeProcess` and the READY that follows it; the memory part is not here. -/
def reap (i : Int) : Kernel :=
  { k.setPoint .top with taskQueue := setState k.taskQueue i .ready }

/-- `fork`: the copy starts behind its own system call, in a user program. -/
def fork (pml4e : BitVec 64) (vm : List VmaStruct) : Kernel :=
  let child := newPID k.taskQueue
  { k with
    taskQueue := increaseChildCount (createChild k.taskQueue k.currentTask pml4e vm) k.currentTask
    program := Function.update k.program child .user
    point := Function.update k.point child .top }

def exec (name : List UInt8) (rip rsp : Nat) (vm : List VmaStruct) : Kernel :=
  let task := { k.self with name := name, rip := rip, ustack := stackS, rsp := rsp, vm := vm }
  { k with taskQueue := Function.update k.taskQueue k.currentTask task }

def exit : Option Kernel :=
  { k with taskQueue := terminate k.taskQueue k.currentTask k.self.pid }.schedule .exit

def kill (pid : Int) : Kernel := { k with taskQueue := terminate k.taskQueue pid pid }

/-- One round of `wait`'s loop up to its `schedule`. The scan behind the `schedule` and
the one that starts the next round see the same table, so this is also how a suspended
`wait` goes on. -/
def wait : Option Kernel :=
  match firstSlot (reapable k.taskQueue k.currentTask) with
  | some i => some (k.reap i)
  | none => (k.setSelf .wait).schedule .wait

def waitpid (pid : Int) : Option Kernel :=
  if reapable k.taskQueue k.currentTask pid then some (k.reap pid)
  else (k.setSelf .wait).schedule (.waitpid pid)

/-- The loop of `waitpid` behind its `schedule`: the state is not set again. -/
def resumeWaitpid (pid : Int) : Option Kernel :=
  if reapable k.taskQueue k.currentTask pid then some (k.reap pid)
  else k.schedule (.waitpid pid)

def sleep (seconds : BitVec 32) : Option Kernel :=
  -- `seconds` is unsigned, so `seconds <= 0` is this test.
  if seconds = 0 then some k
  else
    -- `time` is an `int`.
    let task := { k.self with time := seconds.toInt, state := .hang }
    { k with taskQueue := Function.update k.taskQueue k.currentTask task }.schedule .sleep

/-- One round of `intRead`'s loop. -/
def intRead : Option Kernel :=
  if 0 < k.terminal.lineCount then
    let (_, terminal, found) :=
      k.terminal.readLine (4096 - k.terminal.offset).toNat k.terminal.offset
    let k := { k with terminal := terminal }
    -- A line that was counted and is not there: `schedule` with the state left as it is.
    if found then some ((k.setSelf .running).setPoint .top) else k.schedule .intRead
  else (k.setSelf .sleep).schedule .intRead

def intWrite (code : Nat) : Kernel :=
  let (terminal, enter) := k.terminal.intWrite code
  { k with terminal := terminal,
           taskQueue := if enter then wakeProcess k.taskQueue else k.taskQueue }

/-- `intTimer` up to its `schedule`. -/
def intTimer : Option Kernel :=
  let k := { k with timerCount := k.timerCount + 1 }
  -- `resetTimer` only comes behind the `schedule`.
  if k.timerCount = 20 then k.schedule .intTimer else some k

/-- `intTimer` behind its `schedule`. -/
def tick : Kernel :=
  { k.setPoint .top with
    totalSecs := k.totalSecs + 1, timerCount := 0, taskQueue := taskTimer k.taskQueue }

/-- The current task goes on behind the `schedule` of the call at `p`. -/
def resume : Point → Option Kernel
  | .top => none
  | .exit => some (k.setPoint .top)
  | .wait => k.wait
  | .waitpid pid => k.resumeWaitpid pid
  | .sleep => some (k.setPoint .top)
  | .intRead => k.intRead
  | .intTimer => some k.tick

/-- The calls a program can make: `in` only waits, `idle` only reschedules, and a user
program makes the system calls. libc's number for `wait` has no case in `isr128`, yet the
kernel function takes any caller. User programs are entered with the flags as they are pushed
under `cli`, so they run with interrupts off. -/
def call : Program → Action → Option Kernel
  | .init, .wait => k.wait
  | .idle, .schedule => k.schedule .top
  -- The `sti` in `idle` is the only place where interrupts come in.
  | .idle, .timer => k.intTimer
  | .idle, .key code => some (k.intWrite code)
  | .user, .fork pml4e vm => some (k.fork pml4e vm)
  | .user, .exec name rip rsp vm => some (k.exec name rip rsp vm)
  | .user, .exit => k.exit
  | .user, .kill pid => some (k.kill pid)
  | .user, .wait => k.wait
  | .user, .waitpid pid => k.waitpid pid
  | .user, .sleep seconds => k.sleep seconds
  | .user, .read => k.intRead
  | _, _ => none

def step (a : Action) : Option Kernel :=
  match k.point k.currentTask with
  | .top => k.call (k.program k.currentTask) a
  -- A suspended slot that is current again has come back from its `schedule`.
  | p => match a with
    | .resume => k.resume p
    | _ => none

/-- `step` as a relation, for runs. -/
def Step (k : Kernel) (a : Action) (k' : Kernel) : Prop := k.step a = some k'

/-- A step enters a call from the program, or goes on behind the `schedule` that suspended it. -/
theorem step_iff {k k' : Kernel} {a : Action} : k.Step a k' ↔
    (k.point k.currentTask = .top ∧ k.call (k.program k.currentTask) a = some k') ∨
      (k.point k.currentTask ≠ .top ∧ a = .resume ∧
        k.resume (k.point k.currentTask) = some k') := by
  unfold Step step
  split
  next top => simp [top]
  next suspended =>
    have away : k.point k.currentTask ≠ .top := suspended
    split
    next => simp [away]
    next other =>
      have call : a ≠ .resume := other
      simp [away, call]

end Kernel

/-- The table after `initFirstTask`, `initTask` and `createNewTask`: `in` in slot 0,
`idle` in slot 1, the first program in slot 2, every other slot READY and zeroed. -/
def bootQueue : TaskQueue := fun i =>
  { name := [], ustack := 0, time := 0, state := if 0 ≤ i ∧ i ≤ 2 then .running else .ready,
    pid := if 0 ≤ i ∧ i ≤ 2 then i else 0, ppid := 0, rsp := 0, pml4e := 0, childCount := 0,
    vm := [], currDir := if i = 2 then [47] else [], rip := 0 }

/-- The booted system, about to enter the first program. -/
def Kernel.boot : Kernel :=
  { taskQueue := bootQueue
    currentTask := 2
    program := fun i => if i = 0 then .init else if i = 1 then .idle else .user
    point := fun _ => .top
    terminal := .initial
    timerCount := 0
    totalSecs := 0 }

end LateOS
