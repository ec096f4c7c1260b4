import LateOS.Memory.Buffers
import LateOS.Process.Reaping
import LateOS.Process.Runnable

/-!
# The kernel with its memory

The process table with its scheduler and physical memory, in one state. The task that is current
takes each step: a call of the table, an access of its program to memory, or a call that works on
both. A fault that is not repaired goes through `exit`, `wait` tears down what it reaps, and a call
with a buffer stores in it.
-/
namespace LateOS

open Lib

structure Os where
  kernel : Kernel
  machine : Machine
  /-- The buffer of the `read` that a slot has called last. -/
  inpString : Int → Nat

/-- `store` and `load` are accesses of the program, and `load` also one that the kernel makes for it;
`read` is a read from the terminal; `fill` is a call on files or directories that stores bytes in a
buffer of its caller, such as `readTarfsFile`, `readDirTarfsFile` or `getCurrentDirectory`; `call` is
another call, or an interrupt. -/
inductive OsEvent where
  | fork
  | exec (file : Image) (name : List UInt8) (args : List (List Byte))
  | malloc (no_of_bytes : Int)
  | store (v : Nat) (b : Byte)
  | load (v : Nat)
  | read (inpString : Nat)
  | fill (buf : Nat) (bytes : List Byte)
  | call (a : Action)

/-- The calls that make an address space. -/
def Action.MakesSpace : Action → Prop
  | .fork .. | .exec .. => True
  | _ => False

instance : ∀ a : Action, Decidable a.MakesSpace
  | .fork .. | .exec .. => isTrue trivial
  | .exit | .kill _ | .wait | .waitpid _ | .sleep _ | .read | .schedule | .timer | .key _
  | .resume => isFalse id

/-- The call that is given a buffer. -/
def Action.Reads : Action → Prop
  | .read => True
  | _ => False

instance : ∀ a : Action, Decidable a.Reads
  | .read => isTrue trivial
  | .fork .. | .exec .. | .exit | .kill _ | .wait | .waitpid _ | .sleep _ | .schedule | .timer
  | .key _ | .resume => isFalse id

/-- What one round of `intRead`'s loop stores in the buffer: the cells up to the next newline or to
the end of `inpStr`. -/
def Kernel.cellsRead (k : Kernel) : List Byte :=
  if 0 < k.terminal.lineCount then
    ((k.terminal.readLine (4096 - k.terminal.offset).toNat k.terminal.offset).1).map UInt8.toBitVec
  else []

/-- Bytes one behind the other. -/
def storesAt (buf : Nat) (bytes : List Byte) : Stores := bytes.mapIdx fun k b => (buf + k, b)

namespace Os

variable (o : Os)

/-- The tasks in memory. -/
def space : System := ⟨o.machine, o.kernel.taskQueue⟩

/-- A program is at work, and not in a call. -/
def InProgram : Prop :=
  o.kernel.point o.kernel.currentTask = .top ∧ o.kernel.program o.kernel.currentTask = .user ∧
    o.space.User o.kernel.currentTask

instance : Decidable o.InProgram := inferInstanceAs (Decidable (_ ∧ _))

/-- `isr14`: the task goes on, or calls `exit`. -/
def fault (v : Nat) : Option Os := do
  match ← o.machine.isr14 o.kernel.self v with
  | .exited => (o.kernel.step .exit).map fun k => { o with kernel := k }
  | .resumed m => some { o with machine := m }

/-- The stores of the kernel to the memory of the current task. -/
def stores : OsEvent → Stores
  | .read inpString => storesAt inpString o.kernel.cellsRead
  | .fill buf bytes => storesAt buf bytes
  | .call a =>
    match a, o.kernel.point o.kernel.currentTask with
    | .resume, .intRead => storesAt (o.inpString o.kernel.currentTask) o.kernel.cellsRead
    | _, _ => []
  | .fork | .exec .. | .malloc _ | .store .. | .load _ => []

/-- The stores are made at level 0. A buffer among the addresses of the kernel, or with a page that
no fault brings, is not followed. -/
def deliver (stores : Stores) : Option Machine :=
  if ∀ store ∈ stores, UserAddress store.1 then pokes o.kernel.self o.machine stores else none

/-- `removeProcess`, whatever the slot has held. -/
def removeProcess (i : Int) : Option Machine :=
  o.machine.deallocTask (o.kernel.taskQueue i).pml4e

/-- As in `System.step`, strings fit the buffers of the kernel, and `fork` finds a free slot. -/
def step : OsEvent → Option Os
  | .fork =>
    if o.InProgram then do
      let _ ← firstSlot (checkTaskState o.kernel.taskQueue)
      let (pml4e, m) ← copySpace o.kernel.self o.machine
      (o.kernel.step (.fork pml4e o.kernel.self.vm)).map fun k =>
        { o with kernel := k, machine := m }
    else none
  | .exec file name args =>
    if o.InProgram ∧ args.length ≤ 100 ∧ ∀ str ∈ args, str.length < 100 then do
      let (ts, m) ← execImage file.toElf [] args { o.kernel.self with name := name } o.machine
      (o.kernel.step (.exec ts.name ts.rip ts.rsp ts.vm)).map fun k =>
        { o with kernel := k, machine := m }
    else none
  | .malloc no_of_bytes =>
    if o.InProgram then do
      let (_, ts, m) ← malloc o.kernel.self no_of_bytes o.machine
      let queue := Function.update o.kernel.taskQueue o.kernel.currentTask ts
      some { o with kernel := { o.kernel with taskQueue := queue }, machine := m }
    else none
  | .store v b =>
    if ¬o.InProgram then none
    else if o.machine.permits 7 o.kernel.self.pml4e v then
      (o.machine.storeByte o.kernel.self.pml4e v b).map fun m => { o with machine := m }
    else o.fault v
  | .load v =>
    if ¬o.InProgram then none
    else if o.machine.permits 5 o.kernel.self.pml4e v then some o
    else o.fault v
  | .read inpString =>
    if o.InProgram then do
      let m ← o.deliver (o.stores (.read inpString))
      (o.kernel.step .read).map fun k =>
        { kernel := k, machine := m,
          inpString := Function.update o.inpString o.kernel.currentTask inpString }
    else none
  | .fill buf bytes =>
    if o.InProgram then
      (o.deliver (o.stores (.fill buf bytes))).map fun m => { o with machine := m }
    else none
  | .call a =>
    if a.MakesSpace ∨ a.Reads then none
    else do
      let k ← o.kernel.step a
      -- The slot whose number `wait` or `waitpid` returns.
      match o.kernel.reported a with
      | some i => (o.removeProcess i).map fun m => { o with kernel := k, machine := m }
      | none => (o.deliver (o.stores (.call a))).map fun m => { o with kernel := k, machine := m }

/-- `step` as a relation, for runs. -/
def Step (o : Os) (e : OsEvent) (o' : Os) : Prop := o.step e = some o'

/-- `kill` is given a slot that holds a program or has held one. -/
def KillsProgram : Action → Prop
  | .kill pid => o.space.User pid
  | _ => True

instance : ∀ a, Decidable (o.KillsProgram a)
  | .kill _ => inferInstanceAs (Decidable (_ ≠ _))
  | .fork .. | .exec .. | .exit | .wait | .waitpid _ | .sleep _ | .read | .schedule | .timer
  | .key _ | .resume => isTrue trivial

/-- What is asked of the arguments of calls: `waitpid` is given a slot, and `kill` one that has held
a program. -/
def Proper : OsEvent → Prop
  | .call a => Kernel.AsksSlot a ∧ o.KillsProgram a
  | _ => True

instance : ∀ e, Decidable (o.Proper e)
  | .call _ => inferInstanceAs (Decidable (_ ∧ _))
  | .fork | .exec .. | .malloc _ | .store .. | .load _ | .read _ | .fill .. => isTrue trivial

def ProperStep (o : Os) (e : OsEvent) (o' : Os) : Prop := o.Step e o' ∧ o.Proper e

end Os

/-! ## What the table functions leave to a task -/

/-- A record without the fields that other tasks write. -/
def TaskStruct.own (t : TaskStruct) : TaskStruct :=
  { t with time := 0, state := .running, ppid := 0 }

theorem TaskStruct.own_vm {t t' : TaskStruct} (same : t.own = t'.own) : t.vm = t'.vm :=
  (congrArg TaskStruct.vm same : t.own.vm = t'.own.vm)

theorem TaskStruct.own_pml4e {t t' : TaskStruct} (same : t.own = t'.own) : t.pml4e = t'.pml4e :=
  (congrArg TaskStruct.pml4e same : t.own.pml4e = t'.own.pml4e)

section

variable (q : TaskQueue) (i j pid : Int)

theorem setState_own (state : TaskState) : (setState q i state j).own = (q j).own := by
  by_cases same : j = i
  · subst same
    simp [setState, TaskStruct.own]
  · simp [setState, same]

theorem reparent_own : (reparent q pid j).own = (q j).own := by
  unfold reparent
  split <;> rfl

theorem wakeParent_own : (wakeParent q i j).own = (q j).own := by
  unfold wakeParent
  split
  · exact setState_own q _ j .running
  · rfl

theorem terminate_own : (terminate q i pid j).own = (q j).own := by
  unfold terminate
  rw [wakeParent_own, reparent_own, setState_own]

theorem taskTimer_own : (taskTimer q j).own = (q j).own := by
  unfold taskTimer
  split <;> rfl

theorem wakeProcess_own : (wakeProcess q j).own = (q j).own := by
  unfold wakeProcess
  cases firstSlot fun i => (q i).state = .sleep with
  | some i => exact setState_own q i j .running
  | none => rfl

end

variable {k k' : Kernel} {a : Action} {q : TaskQueue} {p : Point} {cut : Bool}

/-- Only `exec` writes more of a record than its state, its time and its parent. -/
theorem Change.own_eq (change : Change k a q p cut) (other : ¬a.MakesSpace) (j : Int) :
    (q j).own = (k.taskQueue j).own := by
  cases change with
  | exec => exact absurd trivial other
  | exit => exact terminate_own _ _ _ _
  | kill pid => exact terminate_own _ _ _ _
  | reapFirst i => exact setState_own _ i j .ready
  | reapPid i => exact setState_own _ i j .ready
  | wait => exact setState_own _ _ j .wait
  | waitpid pid => exact setState_own _ _ j .wait
  | sleep seconds =>
    by_cases same : j = k.currentTask
    · subst same
      simp [TaskStruct.own, Kernel.self]
    · simp [same]
  | read => exact setState_own _ _ j .running
  | await => exact setState_own _ _ j .sleep
  | key => exact wakeProcess_own _ _
  | tick => exact taskTimer_own _ _
  | _ => rfl

/-- A task that is current is not the one that it reaps. -/
theorem Kernel.Rooted.reaped_ne {i : Int} (rooted : k.Rooted)
    (dead : reapable k.taskQueue k.currentTask i = true) : i ≠ k.currentTask := by
  rintro rfl
  rw [reapable_iff] at dead
  -- It would be its own parent, as `init` is, which is alive while it is current.
  have root := rooted.selfParent _ rooted.seated.inside (dead.1.trans rooted.seated.own)
  rw [root] at dead
  exact rooted.awake root dead.2

theorem Kernel.fork_eq {pml4e : Word} {vm : List VmaStruct} (top : k.point k.currentTask = .top)
    (user : k.program k.currentTask = .user) (ran : k.Step (.fork pml4e vm) k') :
    k' = k.fork pml4e vm := by
  rw [Step, step, top, user] at ran
  cases ran
  rfl

theorem Kernel.exec_eq {name : List UInt8} {rip rsp : Nat} {vm : List VmaStruct}
    (top : k.point k.currentTask = .top) (user : k.program k.currentTask = .user)
    (ran : k.Step (.exec name rip rsp vm) k') : k' = k.exec name rip rsp vm := by
  rw [Step, step, top, user] at ran
  cases ran
  rfl

/-- The slot holds a dead program or one at work. -/
def Kernel.Manned (k : Kernel) (i : Int) : Prop :=
  (k.taskQueue i).state = .zombie ∨ (k.taskQueue i).state ≠ .ready ∧ k.program i = .user

/-- `exit` and `read` are calls of programs. -/
theorem Kernel.step_user (ran : k.Step a k') (call : a = .exit ∨ a = .read) :
    k.program k.currentTask = .user := by
  rcases step_iff.mp ran with ⟨_, called⟩ | ⟨_, rfl, _⟩
  · rcases call with rfl | rfl
    · cases program : k.program k.currentTask <;> rw [program] at called <;>
        first | rfl | cases called
    · cases program : k.program k.currentTask <;> rw [program] at called <;>
        first | rfl | cases called
  · rcases call with call | call <;> cases call

/-- A program gets into a slot by `fork` alone, and a slot without one dies by `kill` alone. -/
theorem Kernel.manned_before (rooted : k.Rooted) (ran : k.Step a k') {i : Int}
    (manned : k'.Manned i) : k.Manned i ∨
      (∃ pml4e vm, a = .fork pml4e vm ∧ i = newPID k.taskQueue) ∨ a = .kill i := by
  rcases step_cases ran with ⟨pml4e, vm, rfl, rfl⟩ | ⟨q, p, cut, change, moved⟩
  · by_cases child : i = newPID k.taskQueue
    · exact .inr (.inl ⟨pml4e, vm, rfl, child⟩)
    · refine .inl ?_
      unfold Manned at manned ⊢
      rw [fork_state, if_neg child] at manned
      simpa [Kernel.fork, child] using manned
  · unfold Manned at manned
    rw [moved.queue, moved.program] at manned
    rcases manned with zombie | ⟨used, user⟩
    · rcases change.zombie i zombie with before | ⟨rfl, _, rfl⟩ | killed
      · exact .inl (.inl before)
      · exact .inl (.inr ⟨rooted.used, step_user ran (.inl rfl)⟩)
      · exact .inr (.inr killed)
    · by_cases killed : a = .kill i
      · exact .inr (.inr killed)
      · exact .inl (.inr ⟨fun free => used (free_kept rooted.used killed change free), user⟩)

/-- A slot gets into `intRead` by a `read` of its own. -/
theorem Kernel.reading_before (ran : k.Step a k') {j : Int} (reading : k'.point j = .intRead) :
    k.point j = .intRead ∨ (j = k.currentTask ∧ a = .read) := by
  rcases step_cases ran with ⟨pml4e, vm, rfl, rfl⟩ | ⟨q, p, cut, change, moved⟩
  · change Function.update k.point (newPID k.taskQueue) .top j = _ at reading
    by_cases child : j = newPID k.taskQueue
    · rw [child, Function.update_self] at reading
      cases reading
    · rw [Function.update_of_ne child] at reading
      exact .inl reading
  · rw [moved.point] at reading
    by_cases here : j = k.currentTask
    · rw [here, Function.update_self] at reading
      subst here
      cases change with
      | miss call | await call =>
        rcases call with ⟨rfl, _⟩ | ⟨_, cut⟩
        · exact .inr ⟨rfl, rfl⟩
        · exact .inl cut
      | _ => cases reading
    · rw [Function.update_of_ne here] at reading
      exact .inl reading

/-- A step of the table, by what it does to memory: it reaps a dead task, or leaves what belongs
to the tasks alone. -/
theorem Kernel.space_cases (rooted : k.Rooted)
    (asked : ∀ j pid, k.point j = .waitpid pid → InTable pid) (asks : Kernel.AsksSlot a)
    (ran : k.Step a k') (other : ¬a.MakesSpace) :
    (∃ i, k.reported a = some i ∧ InTable i ∧ i ≠ k.currentTask ∧
      (k.taskQueue i).state = .zombie ∧ k'.taskQueue = setState k.taskQueue i .ready) ∨
    (k.reported a = none ∧ ∀ j, (k'.taskQueue j).own = (k.taskQueue j).own) := by
  rcases step_cases ran with ⟨_, _, rfl, _⟩ | ⟨q, p, cut, change, moved⟩
  · exact absurd trivial other
  · rw [moved.queue]
    rcases change_frees change with ⟨i, reported, dead, freed, slot⟩ | ⟨none, _⟩
    · refine .inl ⟨i, reported, ?_, rooted.reaped_ne dead, ((reapable_iff _ _ _).mp dead).2, freed⟩
      rcases slot with inside | ⟨rfl, _⟩ | ⟨_, cut⟩
      · exact inside
      · exact asks
      · exact asked _ i cut
    · exact .inr ⟨none, change.own_eq other⟩

/-! ## What a step can do to memory -/

namespace Os

variable {o o' : Os} {e : OsEvent}

/-- The table and memory are as they have to be between two steps. Dead programs and programs at
work have VMAs, and so has who waits for a line. -/
structure Sane (o : Os) : Prop where
  rooted : o.kernel.Rooted
  memory : ∃ use, Consistent o.space use
  manned : ∀ i, InTable i → o.kernel.Manned i → o.space.User i
  asked : ∀ j pid, o.kernel.point j = .waitpid pid → InTable pid
  reading : ∀ j, o.kernel.point j = .intRead → o.space.User j

/-- A step leaves memory and the records of the tasks alone. -/
structure Quiet (o o' : Os) : Prop where
  machine : o'.machine = o.machine
  own : ∀ j, (o'.kernel.taskQueue j).own = (o.kernel.taskQueue j).own

/-- The kernel stores in a buffer of the current task, and leaves the records of the tasks alone. -/
structure Fills (o : Os) (e : OsEvent) (o' : Os) : Prop where
  user : o.space.User o.kernel.currentTask
  inside : ∀ store ∈ o.stores e, UserAddress store.1
  stored : pokes o.kernel.self o.machine (o.stores e) = some o'.machine
  own : ∀ j, (o'.kernel.taskQueue j).own = (o.kernel.taskQueue j).own

/-- A request of the current task, or the end of a dead one. -/
def Asks (o : Os) : Request → Prop
  | .fork i | .exec i _ _ _ | .malloc i _ | .store i _ _ | .load i _ => i = o.kernel.currentTask
  | .reap i => i ≠ o.kernel.currentTask ∧ (o.kernel.taskQueue i).state = .zombie
  | .create .. | .turn .. => False

theorem InProgram.step (program : o.InProgram) (a : Action) :
    o.kernel.step a = o.kernel.call .user a := by
  unfold Kernel.step
  rw [program.1, program.2.1]

theorem fault_space {v : Nat} (program : o.InProgram) (ran : o.fault v = some o') :
    o.space.fault o.kernel.currentTask v = some o'.space := by
  obtain ⟨handled, faulted, ran⟩ := Option.bind_eq_some_iff.mp ran
  rw [System.fault_iff]
  cases handled with
  | exited =>
    obtain ⟨k, exited, rfl⟩ := Option.map_eq_some_iff.mp ran
    rw [program.step] at exited
    obtain ⟨n, rfl, _⟩ := Kernel.schedule_some (k := { o.kernel with
      taskQueue := terminate o.kernel.taskQueue o.kernel.currentTask o.kernel.self.pid }) exited
    exact .inl ⟨faulted, rfl⟩
  | resumed m =>
    cases ran
    exact .inr ⟨m, faulted, rfl⟩

theorem deliver_iff {stores : Stores} {m : Machine} : o.deliver stores = some m ↔
    (∀ store ∈ stores, UserAddress store.1) ∧ pokes o.kernel.self o.machine stores = some m :=
  Option.ite_none_right_eq_some

/-- Of the calls without an event of their own, only one that goes on in `intRead` stores. -/
theorem stores_call {a : Action}
    (away : o.kernel.point o.kernel.currentTask ≠ .intRead ∨ a ≠ .resume) :
    o.stores (.call a) = [] := by
  unfold stores
  dsimp only
  split
  next reading => rcases away with other | other <;> contradiction
  next => rfl

/-- In memory, a step is a request of the current task, the end of a dead one, nothing, or stores
of the kernel for the current task. -/
theorem step_space (sane : o.Sane) (proper : o.Proper e) (ran : o.Step e o') :
    (o.stores e = [] ∧ ((∃ a, o.Asks a ∧ o.space.Step a o'.space) ∨ Quiet o o')) ∨
      Fills o e o' := by
  obtain ⟨rooted, ⟨use, inv⟩, manned, asked, reading⟩ := sane
  cases e with
  | fork =>
    obtain ⟨program, ran⟩ := Option.ite_none_right_eq_some.mp ran
    obtain ⟨c, slot, ran⟩ := Option.bind_eq_some_iff.mp ran
    obtain ⟨⟨pml4e, m⟩, copied, ran⟩ := Option.bind_eq_some_iff.mp ran
    obtain ⟨k, forked, rfl⟩ := Option.map_eq_some_iff.mp ran
    rw [program.step] at forked
    cases forked
    exact .inl ⟨rfl, .inl ⟨.fork o.kernel.currentTask, rfl, System.step_fork.mpr
      ⟨⟨program.2.2, rooted.used⟩, c, slot, pml4e, m, copied, rfl⟩⟩⟩
  | exec file name args =>
    obtain ⟨⟨program, fits⟩, ran⟩ := Option.ite_none_right_eq_some.mp ran
    obtain ⟨⟨ts, m⟩, started, ran⟩ := Option.bind_eq_some_iff.mp ran
    obtain ⟨k, loaded, rfl⟩ := Option.map_eq_some_iff.mp ran
    rw [program.step] at loaded
    cases loaded
    have root : use ({ o.kernel.self with name := name } : TaskStruct).pml4e =
      .table ({ o.kernel.self with name := name } : TaskStruct).pml4e [] := inv.root _ program.2.2
    have shape := (inv.sound.execImage root fits_nil fits.2 started).1
    refine .inl ⟨rfl, .inl ⟨.exec o.kernel.currentTask file name args, rfl, System.step_exec.mpr
      ⟨⟨program.2.2, fits⟩, ts, m, started, ?_⟩⟩⟩
    rw [shape]
    rfl
  | malloc n =>
    obtain ⟨program, ran⟩ := Option.ite_none_right_eq_some.mp ran
    obtain ⟨⟨ret, ts, m⟩, grown, ran⟩ := Option.bind_eq_some_iff.mp ran
    cases ran
    exact .inl ⟨rfl, .inl ⟨.malloc o.kernel.currentTask n, rfl, System.step_malloc.mpr
      ⟨program.2.2, ret, ts, m, grown, rfl⟩⟩⟩
  | store v b =>
    simp only [Step, step] at ran
    split at ran
    next => cases ran
    next program =>
      have program := not_not.mp program
      refine .inl ⟨rfl, .inl
        ⟨.store o.kernel.currentTask v b, rfl, System.step_store.mpr ⟨program.2.2, ?_⟩⟩⟩
      split at ran
      next allowed =>
        obtain ⟨m, stored, rfl⟩ := Option.map_eq_some_iff.mp ran
        exact .inl ⟨allowed, m, stored, rfl⟩
      next refused => exact .inr ⟨refused, fault_space program ran⟩
  | load v =>
    simp only [Step, step] at ran
    split at ran
    next => cases ran
    next program =>
      have program := not_not.mp program
      refine .inl ⟨rfl, .inl
        ⟨.load o.kernel.currentTask v, rfl, System.step_load.mpr ⟨program.2.2, ?_⟩⟩⟩
      split at ran
      next allowed =>
        cases ran
        exact .inl ⟨allowed, rfl⟩
      next refused => exact .inr ⟨refused, fault_space program ran⟩
  | read inpString =>
    obtain ⟨program, ran⟩ := Option.ite_none_right_eq_some.mp ran
    obtain ⟨m, delivered, ran⟩ := Option.bind_eq_some_iff.mp ran
    obtain ⟨k, called, rfl⟩ := Option.map_eq_some_iff.mp ran
    obtain ⟨inside, stored⟩ := deliver_iff.mp delivered
    have asks : Kernel.AsksSlot .read := trivial
    rcases Kernel.space_cases rooted asked asks called id with ⟨i, reported, _⟩ | ⟨_, own⟩
    · cases reported
    · exact .inr ⟨program.2.2, inside, stored, own⟩
  | fill buf bytes =>
    obtain ⟨program, ran⟩ := Option.ite_none_right_eq_some.mp ran
    obtain ⟨m, delivered, rfl⟩ := Option.map_eq_some_iff.mp ran
    obtain ⟨inside, stored⟩ := deliver_iff.mp delivered
    exact .inr ⟨program.2.2, inside, stored, fun _ => rfl⟩
  | call a =>
    simp only [Step, step] at ran
    split at ran
    next => cases ran
    next other =>
      have other := not_or.mp other
      obtain ⟨k, called, ran⟩ := Option.bind_eq_some_iff.mp ran
      rcases Kernel.space_cases rooted asked proper.1 called other.1 with
        ⟨i, reported, slot, ne, dead, freed⟩ | ⟨none, own⟩
      · rw [reported] at ran
        obtain ⟨m, removed, rfl⟩ := Option.map_eq_some_iff.mp ran
        have away : o.kernel.point o.kernel.currentTask ≠ .intRead ∨ a ≠ .resume := by
          by_cases cut : o.kernel.point o.kernel.currentTask = .intRead
          · refine .inr ?_
            rintro rfl
            simp [Kernel.reported, cut] at reported
          · exact .inl cut
        refine .inl ⟨stores_call away, .inl ⟨.reap i, ⟨ne, dead⟩, System.step_reap.mpr
          ⟨⟨manned i slot (.inl dead), dead⟩, m, removed, ?_⟩⟩⟩
        rw [space, freed]
        rfl
      · rw [none] at ran
        obtain ⟨m, delivered, rfl⟩ := Option.map_eq_some_iff.mp ran
        obtain ⟨inside, stored⟩ := deliver_iff.mp delivered
        by_cases cut : o.kernel.point o.kernel.currentTask = .intRead
        · exact .inr ⟨reading _ cut, inside, stored, own⟩
        · have none := stores_call (a := a) (.inl cut)
          rw [none] at stored
          cases stored
          exact .inl ⟨none, .inr ⟨rfl, own⟩⟩

/-! ## What a step does in the table -/

/-- The kernel when the current task has got other VMAs. -/
def remap (k : Kernel) (vm : List VmaStruct) : Kernel :=
  { k with taskQueue := Function.update k.taskQueue k.currentTask { k.self with vm := vm } }

theorem remap_fields (k : Kernel) (vm : List VmaStruct) (i : Int) :
    ((remap k vm).taskQueue i).state = (k.taskQueue i).state ∧
      ((remap k vm).taskQueue i).pid = (k.taskQueue i).pid ∧
      ((remap k vm).taskQueue i).ppid = (k.taskQueue i).ppid := by
  unfold remap
  dsimp only
  by_cases same : i = k.currentTask
  · subst same
    rw [Function.update_self]
    exact ⟨rfl, rfl, rfl⟩
  · rw [Function.update_of_ne same]
    exact ⟨rfl, rfl, rfl⟩

theorem remap_rooted (rooted : k.Rooted) (vm : List VmaStruct) : (remap k vm).Rooted := by
  have fields := remap_fields k vm
  refine ⟨⟨rooted.seated.inside, (fields _).2.1.trans rooted.seated.own, fun i inside live => ?_⟩,
    rooted.loop, rooted.rest, (fields 0).2.2.trans rooted.parent, ?_, fun here => ?_,
    fun i inside same => ?_, ?_⟩
  · exact (fields i).2.1.trans (rooted.seated.pids i inside ((fields i).1 ▸ live))
  · exact fun free => rooted.taken ((fields 0).1.symm.trans free)
  · exact fun dead => rooted.awake here ((fields 0).1.symm.trans dead)
  · exact rooted.selfParent i inside ((fields i).2.2.symm.trans same)
  · exact fun free => rooted.used ((fields _).1.symm.trans free)

/-- In the table, a step is one of `Kernel`, or gives the current task other VMAs. -/
inductive Tabled (k : Kernel) : Kernel → Prop where
  | step {k' : Kernel} (a : Action) (ran : k.Step a k') : Tabled k k'
  | same : Tabled k k
  | remapped (vm : List VmaStruct) : Tabled k (remap k vm)

/-- The page fault at `v` is not repaired. -/
def FaultEnds (o : Os) (v : Nat) : Prop :=
  match o.machine.isr14 o.kernel.self v with
  | some .exited => True
  | _ => False

instance (o : Os) (v : Nat) : Decidable (o.FaultEnds v) :=
  match found : o.machine.isr14 o.kernel.self v with
  | some .exited => isTrue (by simp [FaultEnds, found])
  | some (.resumed _) => isFalse (by simp [FaultEnds, found])
  | none => isFalse (by simp [FaultEnds, found])

/-- An access with a page fault that ends the program. -/
def Faults (o : Os) : OsEvent → Prop
  | .store v _ => ¬o.machine.permits 7 o.kernel.self.pml4e v ∧ o.FaultEnds v
  | .load v => ¬o.machine.permits 5 o.kernel.self.pml4e v ∧ o.FaultEnds v
  | .fork | .exec .. | .malloc _ | .read _ | .fill .. | .call _ => False

instance (o : Os) : ∀ e, Decidable (o.Faults e)
  | .store .. | .load _ => inferInstanceAs (Decidable (_ ∧ _))
  | .fork | .exec .. | .malloc _ | .read _ | .fill .. | .call _ => isFalse id

/-- The step calls `schedule`. -/
def Schedules (o : Os) : OsEvent → Prop
  | .call a => o.kernel.CallsSchedule a
  | .read _ => o.kernel.CallsSchedule .read
  | e => o.Faults e

/-- In the table, the event is the action `a`. -/
inductive Acts (o : Os) : OsEvent → Action → Prop where
  | call {a : Action} (space : ¬a.MakesSpace) (reads : ¬a.Reads) : Acts o (.call a) a
  | ends {e : OsEvent} (faults : o.Faults e) : Acts o e .exit
  | fork (pml4e : Word) : Acts o .fork (.fork pml4e o.kernel.self.vm)
  | exec {file : Image} {name : List UInt8} {args : List (List Byte)} (name' : List UInt8)
      (rip rsp : Nat) {vm : List VmaStruct} (some : vm ≠ []) :
      Acts o (.exec file name args) (.exec name' rip rsp vm)
  | read (inpString : Nat) : Acts o (.read inpString) .read

theorem Faults.schedules (faults : o.Faults e) : o.Schedules e := by
  cases e with
  | store | load => exact faults
  | _ => exact faults.elim

theorem Acts.schedules (acts : o.Acts e a) : o.Schedules e ↔ o.kernel.CallsSchedule a := by
  cases acts with
  | ends faults => exact iff_of_true faults.schedules trivial
  | _ => exact Iff.rfl

theorem Acts.spares {t : Int} (acts : o.Acts e a) (spared : e ≠ .call (.kill t)) : a ≠ .kill t := by
  rintro rfl
  cases acts with
  | call => exact spared rfl

theorem fault_acts {v : Nat} (ran : o.fault v = some o') :
    o.FaultEnds v ∧ o.kernel.Step .exit o'.kernel ∨ ¬o.FaultEnds v ∧ o'.kernel = o.kernel := by
  obtain ⟨handled, faulted, ran⟩ := Option.bind_eq_some_iff.mp ran
  unfold FaultEnds
  rw [faulted]
  cases handled with
  | exited =>
    obtain ⟨k, exited, rfl⟩ := Option.map_eq_some_iff.mp ran
    exact .inl ⟨trivial, exited⟩
  | resumed m =>
    cases ran
    exact .inr ⟨id, rfl⟩

/-- A step acts in the table, or gives the current task other VMAs at most. -/
theorem step_acts (sane : o.Sane) (ran : o.Step e o') :
    (∃ a, o.Acts e a ∧ o.kernel.Step a o'.kernel) ∨
    (¬o.Schedules e ∧ ∀ b, e ≠ .call b) ∧
      (o'.kernel = o.kernel ∨ ∃ vm, vm ≠ [] ∧ o'.kernel = remap o.kernel vm) := by
  obtain ⟨use, inv⟩ := sane.memory
  cases e with
  -- The new space is in memory before the table is written.
  | fork =>
    obtain ⟨_, ran⟩ := Option.ite_none_right_eq_some.mp ran
    obtain ⟨_, _, ran⟩ := Option.bind_eq_some_iff.mp ran
    obtain ⟨⟨pml4e, m⟩, _, ran⟩ := Option.bind_eq_some_iff.mp ran
    obtain ⟨k, forked, rfl⟩ := Option.map_eq_some_iff.mp ran
    exact .inl ⟨_, .fork pml4e, forked⟩
  | exec file name args =>
    obtain ⟨⟨program, fits⟩, ran⟩ := Option.ite_none_right_eq_some.mp ran
    obtain ⟨⟨ts, m⟩, started, ran⟩ := Option.bind_eq_some_iff.mp ran
    obtain ⟨k, loaded, rfl⟩ := Option.map_eq_some_iff.mp ran
    have root : use ({ o.kernel.self with name := name } : TaskStruct).pml4e =
      .table ({ o.kernel.self with name := name } : TaskStruct).pml4e [] := inv.root _ program.2.2
    have shape := (inv.sound.execImage root fits_nil fits.2 started).1
    have some : ts.vm ≠ [] := by
      rw [shape]
      exact List.cons_ne_nil _ _
    exact .inl ⟨_, .exec ts.name ts.rip ts.rsp some, loaded⟩
  | malloc n =>
    obtain ⟨program, ran⟩ := Option.ite_none_right_eq_some.mp ran
    obtain ⟨⟨ret, ts, m⟩, grown, ran⟩ := Option.bind_eq_some_iff.mp ran
    cases ran
    -- `malloc` writes the VMAs of the record, and nothing else of it.
    obtain ⟨vm, _, rfl, ⟨heap, rest, shape, _⟩, _⟩ :=
      inv.sound.malloc (inv.root _ program.2.2) (inv.layout _ program.2.2) grown
    refine .inr ⟨⟨id, by simp⟩, .inr ⟨vm, ?_, rfl⟩⟩
    rw [shape]
    exact List.cons_ne_nil _ _
  | store v b =>
    simp only [Step, step] at ran
    split at ran
    next => cases ran
    next =>
      split at ran
      next allowed =>
        obtain ⟨m, _, rfl⟩ := Option.map_eq_some_iff.mp ran
        exact .inr ⟨⟨fun faults => faults.1 allowed, by simp⟩, .inl rfl⟩
      next refused =>
        rcases fault_acts ran with ⟨ends, exited⟩ | ⟨repaired, same⟩
        · exact .inl ⟨_, .ends ⟨refused, ends⟩, exited⟩
        · exact .inr ⟨⟨fun faults => repaired faults.2, by simp⟩, .inl same⟩
  | load v =>
    simp only [Step, step] at ran
    split at ran
    next => cases ran
    next =>
      split at ran
      next allowed =>
        cases ran
        exact .inr ⟨⟨fun faults => faults.1 allowed, by simp⟩, .inl rfl⟩
      next refused =>
        rcases fault_acts ran with ⟨ends, exited⟩ | ⟨repaired, same⟩
        · exact .inl ⟨_, .ends ⟨refused, ends⟩, exited⟩
        · exact .inr ⟨⟨fun faults => repaired faults.2, by simp⟩, .inl same⟩
  | read inpString =>
    obtain ⟨_, ran⟩ := Option.ite_none_right_eq_some.mp ran
    obtain ⟨m, _, ran⟩ := Option.bind_eq_some_iff.mp ran
    obtain ⟨k, called, rfl⟩ := Option.map_eq_some_iff.mp ran
    exact .inl ⟨_, .read inpString, called⟩
  | fill buf bytes =>
    obtain ⟨_, ran⟩ := Option.ite_none_right_eq_some.mp ran
    obtain ⟨m, _, rfl⟩ := Option.map_eq_some_iff.mp ran
    exact .inr ⟨⟨id, by simp⟩, .inl rfl⟩
  | call a =>
    simp only [Step, step] at ran
    split at ran
    next => cases ran
    next other =>
      obtain ⟨space, reads⟩ := not_or.mp other
      obtain ⟨k, called, ran⟩ := Option.bind_eq_some_iff.mp ran
      split at ran
      next =>
        obtain ⟨m, _, rfl⟩ := Option.map_eq_some_iff.mp ran
        exact .inl ⟨a, .call space reads, called⟩
      next =>
        obtain ⟨m, _, rfl⟩ := Option.map_eq_some_iff.mp ran
        exact .inl ⟨a, .call space reads, called⟩

theorem step_tabled (sane : o.Sane) (ran : o.Step e o') : Tabled o.kernel o'.kernel := by
  rcases step_acts sane ran with ⟨a, _, acted⟩ | ⟨_, same | ⟨vm, _, same⟩⟩
  · exact .step a acted
  · rw [same]
    exact .same
  · rw [same]
    exact .remapped vm

theorem Tabled.rooted (tabled : Tabled k k') (rooted : k.Rooted) : k'.Rooted := by
  cases tabled with
  | step a ran => exact rooted.step ran
  | same => exact rooted
  | remapped vm => exact remap_rooted rooted vm

/-! ## The invariant -/

/-- The tasks in memory go on as they are when the table changes in other fields. -/
theorem consistent_quiet {mems : Memories} {use : Word → Use} (inv : Consistent o.space use)
    (holds : Holds mems o.space) (quiet : Quiet o o') :
    Consistent o'.space use ∧ Holds mems o'.space := by
  have vm (j : Int) : (o'.space.taskQueue j).vm = (o.space.taskQueue j).vm :=
    TaskStruct.own_vm (quiet.own j)
  have pml4e (j : Int) : (o'.space.taskQueue j).pml4e = (o.space.taskQueue j).pml4e :=
    TaskStruct.own_pml4e (quiet.own j)
  have machine : o'.space.machine = o.space.machine := quiet.machine
  have user {j : Int} (user : o'.space.User j) : o.space.User j := by
    unfold System.User at user ⊢
    rw [← vm j]
    exact user
  refine ⟨⟨machine ▸ inv.sound, machine ▸ inv.few, fun j userJ => ?_,
    fun i j userI userJ same => ?_, fun j userJ => ?_⟩, fun j v b userJ address expected => ?_⟩
  · rw [pml4e]
    exact inv.root j (user userJ)
  · rw [pml4e, pml4e] at same
    exact inv.apart i j (user userI) (user userJ) same
  · rw [vm, machine]
    exact inv.layout j (user userJ)
  · rw [pml4e, machine]
    exact holds j v b (user userJ) address expected

/-- What the kernel stores for the current task keeps memory as it has to be, and gets to another
task exactly where that maps a byte that is stored. -/
theorem Fills.consistent {use : Word → Use} (fills : Fills o e o') (inv : Consistent o.space use) :
    (∃ use', Consistent o'.space use') ∧
      ∀ j v, o.space.User j → j ≠ o.kernel.currentTask → UserAddress v →
        o'.machine.byteAt (o'.kernel.taskQueue j).pml4e v =
          o.machine.overwrite o.kernel.self.pml4e (o.stores e) (o.kernel.taskQueue j).pml4e v
            (o.machine.byteAt (o.kernel.taskQueue j).pml4e v) := by
  obtain ⟨use', inv', done⟩ := inv.pokes fills.user fills.inside fills.stored
  have quiet : Quiet { o with machine := o'.machine } o' := ⟨rfl, fills.own⟩
  have nothing : Holds (fun _ _ => none) ({ o with machine := o'.machine } : Os).space :=
    fun _ _ _ _ _ expected => by cases expected
  have stored : Consistent ({ o with machine := o'.machine } : Os).space use' := inv'
  refine ⟨⟨use', (consistent_quiet stored nothing quiet).1⟩, fun j v user other address => ?_⟩
  rw [TaskStruct.own_pml4e (fills.own j)]
  exact done.byteAt _ (inv.root j user) (inv.away fills.user j other user) v address

/-- What has VMAs keeps some. -/
theorem user_step (sane : o.Sane) (ran : o.Step e o') {j : Int} (user : o.space.User j) :
    o'.space.User j := by
  change (o'.kernel.taskQueue j).vm ≠ []
  have same {a : Action} (other : ¬a.MakesSpace) (acted : o.kernel.Step a o'.kernel) :
      (o'.kernel.taskQueue j).vm ≠ [] := by
    rcases Kernel.step_cases acted with ⟨_, _, rfl, _⟩ | ⟨q, p, cut, change, moved⟩
    · exact absurd trivial other
    · rw [moved.queue, TaskStruct.own_vm (change.own_eq other j)]
      exact user
  -- A task that gets VMAs gets some.
  have updated {ts : TaskStruct} (some : ts.vm ≠ []) :
      (Function.update o.kernel.taskQueue o.kernel.currentTask ts j).vm ≠ [] := by
    by_cases here : j = o.kernel.currentTask
    · rw [here, Function.update_self]
      exact some
    · rw [Function.update_of_ne here]
      exact user
  rcases step_acts sane ran with ⟨a, acts, acted⟩ | ⟨_, kept | ⟨vm, some, kept⟩⟩
  · cases acts with
    | call space => exact same space acted
    | ends => exact same id acted
    | read => exact same id acted
    | fork pml4e =>
      have program := (Option.ite_none_right_eq_some.mp ran).1
      rw [Kernel.fork_eq program.1 program.2.1 acted, Kernel.fork_vm]
      split
      · exact program.2.2
      · exact user
    | exec name' rip rsp some =>
      have program := (Option.ite_none_right_eq_some.mp ran).1.1
      rw [Kernel.exec_eq program.1 program.2.1 acted]
      exact updated some
  · rw [kept]
    exact user
  · rw [kept]
    exact updated some

/-- A program that gets into a slot brings VMAs with it. -/
theorem manned_step (sane : o.Sane) (proper : o.Proper e) (ran : o.Step e o') {i : Int}
    (inside : InTable i) (manned : o'.kernel.Manned i) : o'.space.User i := by
  by_cases user : o.space.User i
  · exact user_step sane ran user
  have vacant : ¬o.kernel.Manned i := fun before => user (sane.manned i inside before)
  rcases step_acts sane ran with ⟨a, acts, acted⟩ | ⟨_, kept | ⟨vm, _, kept⟩⟩
  · rcases Kernel.manned_before sane.rooted acted manned with before | ⟨_, _, rfl, child⟩ | rfl
    · exact absurd before vacant
    · cases acts with
      | call space => exact absurd trivial space
      | fork pml4e =>
        have program := (Option.ite_none_right_eq_some.mp ran).1
        change (o'.kernel.taskQueue i).vm ≠ []
        rw [Kernel.fork_eq program.1 program.2.1 acted, Kernel.fork_vm, if_pos child]
        exact program.2.2
    · cases acts with
      | call => exact absurd proper.2 user
  · exact absurd (kept ▸ manned) vacant
  · refine absurd ?_ vacant
    unfold Kernel.Manned at manned ⊢
    rw [kept, (remap_fields _ vm i).1] at manned
    exact manned

theorem reading_step (sane : o.Sane) (ran : o.Step e o') {j : Int}
    (reading : o'.kernel.point j = .intRead) : o'.space.User j := by
  refine user_step sane ran ?_
  rcases step_acts sane ran with ⟨a, acts, acted⟩ | ⟨_, kept | ⟨vm, _, kept⟩⟩
  · rcases Kernel.reading_before acted reading with before | ⟨rfl, rfl⟩
    · exact sane.reading j before
    · exact sane.manned _ sane.rooted.seated.inside
        (.inr ⟨sane.rooted.used, Kernel.step_user acted (.inr rfl)⟩)
  · rw [kept] at reading
    exact sane.reading j reading
  · rw [kept] at reading
    exact sane.reading j reading

theorem asked_step (sane : o.Sane) (proper : o.Proper e) (ran : o.Step e o') :
    ∀ j pid, o'.kernel.point j = .waitpid pid → InTable pid := by
  rcases step_acts sane ran with ⟨a, acts, acted⟩ | ⟨_, kept | ⟨vm, _, kept⟩⟩
  · refine Kernel.asked_step sane.asked ?_ acted
    cases acts with
    | call => exact proper.1
    | _ => trivial
  · rw [kept]
    exact sane.asked
  · rw [kept]
    exact sane.asked

theorem Sane.step (sane : o.Sane) (proper : o.Proper e) (ran : o.Step e o') : o'.Sane := by
  refine ⟨(step_tabled sane ran).rooted sane.rooted, ?_, fun i => manned_step sane proper ran,
    asked_step sane proper ran, fun j => reading_step sane ran⟩
  obtain ⟨use, inv⟩ := sane.memory
  rcases step_space sane proper ran with ⟨_, ⟨a, _, requested⟩ | quiet⟩ | fills
  · exact inv.next requested
  · have nothing : Holds (fun _ _ => none) o.space := fun _ _ _ _ _ expected => by cases expected
    exact ⟨use, (consistent_quiet inv nothing quiet).1⟩
  · exact (fills.consistent inv).1

end Os

end LateOS
