import LateOS.Lib.Trace
import LateOS.Memory.Load

/-!
# The tasks in memory

The process table and physical memory together, and the requests that change memory. What
other calls do to the states of tasks, and which task runs, is left open: any task may take
the next step.
-/
namespace LateOS

open Lib

structure System where
  machine : Machine
  taskQueue : TaskQueue

/-- `create` is `createNewTask`; `store` and `load` are accesses of user code; `reap` is
`removeProcess` with the READY behind it; `turn` stands for all that wakes, stops or kills a
task. -/
inductive Request where
  | create (file : Image) (filename : List UInt8)
  | fork (i : Int)
  | exec (i : Int) (file : Image) (name : List UInt8) (args : List (List Byte))
  | malloc (i : Int) (no_of_bytes : Int)
  | store (i : Int) (v : Nat) (b : Byte)
  | load (i : Int) (v : Nat)
  | reap (i : Int)
  | turn (i : Int) (state : TaskState)

namespace System

variable (s : System)

/-- Slot `i` is, or was, a user task: the kernel's own tasks have no VMAs. -/
def User (i : Int) : Prop := (s.taskQueue i).vm ≠ []

instance (i : Int) : Decidable (s.User i) := inferInstanceAs (Decidable (_ ≠ _))

def setTask (i : Int) (ts : TaskStruct) (m : Machine) : System :=
  { machine := m, taskQueue := Function.update s.taskQueue i ts }

/-- `initTaskVariables` for a free slot. -/
def initTaskVariables (pid : Int) (filename : List UInt8) : TaskStruct :=
  { s.taskQueue pid with
    name := filename, currDir := [47], ppid := 0, pid := pid, vm := [], state := .running }

/-- A page fault of task `i`. -/
def fault (i : Int) (v : Nat) : Option System :=
  (s.machine.isr14 (s.taskQueue i) v).map fun
    | .exited => { s with taskQueue := terminate s.taskQueue i (s.taskQueue i).pid }
    | .resumed m => { s with machine := m }

/-- The names and strings have to fit the buffers of the kernel, and `fork` and
`createNewTask` need a free slot. -/
def step : Request → Option System
  | .create file filename => do
    -- `newPID`; its -1 for a full table is not modelled.
    let pid ← firstSlot (checkTaskState s.taskQueue)
    if filename.length < 100 then do
      let (ts, m) ← createNewTask file.toElf (s.initTaskVariables pid filename) s.machine
      some (s.setTask pid ts m)
    else none
  | .fork i =>
    if s.User i ∧ (s.taskQueue i).state ≠ .ready then do
      let _ ← firstSlot (checkTaskState s.taskQueue)
      let (pml4e, m) ← copySpace (s.taskQueue i) s.machine
      some { machine := m,
             taskQueue := increaseChildCount
               (createChild s.taskQueue i pml4e (s.taskQueue i).vm) i }
    else none
  | .exec i file name args =>
    if s.User i ∧ args.length ≤ 100 ∧ ∀ str ∈ args, str.length < 100 then do
      let (ts, m) ← execImage file.toElf [] args { s.taskQueue i with name := name } s.machine
      some (s.setTask i ts m)
    else none
  | .malloc i no_of_bytes =>
    if s.User i then do
      let (_, ts, m) ← LateOS.malloc (s.taskQueue i) no_of_bytes s.machine
      some (s.setTask i ts m)
    else none
  | .store i v b =>
    if ¬s.User i then none
    -- The hardware asks for the present, writable and user bits at every level.
    else if s.machine.permits 7 (s.taskQueue i).pml4e v then
      (s.machine.storeByte (s.taskQueue i).pml4e v b).map fun m => { s with machine := m }
    else s.fault i v
  | .load i v =>
    if ¬s.User i then none
    else if s.machine.permits 5 (s.taskQueue i).pml4e v then some s
    else s.fault i v
  | .reap i =>
    if s.User i ∧ (s.taskQueue i).state = .zombie then
      (s.machine.deallocTask (s.taskQueue i).pml4e).map fun m =>
        { machine := m, taskQueue := setState s.taskQueue i .ready }
    else none
  | .turn i state =>
    if state ≠ .ready then some { s with taskQueue := setState s.taskQueue i state } else none

/-- `step` as a relation, for runs. -/
def Step (s : System) (a : Request) (s' : System) : Prop := s.step a = some s'

/-! ## What a step can do -/

section

variable {s s' : System} {i : Int} {v : Nat} {b : Byte} {file : Image} {name filename : List UInt8}
  {args : List (List Byte)} {state : TaskState}

theorem fault_iff : s.fault i v = some s' ↔
    (s.machine.isr14 (s.taskQueue i) v = some .exited ∧
      s' = { s with taskQueue := terminate s.taskQueue i (s.taskQueue i).pid }) ∨
    ∃ m, s.machine.isr14 (s.taskQueue i) v = some (.resumed m) ∧ s' = { s with machine := m } := by
  unfold fault
  rw [Option.map_eq_some_iff]
  constructor
  · rintro ⟨exited | m, handled, rfl⟩
    · exact Or.inl ⟨handled, rfl⟩
    · exact Or.inr ⟨m, handled, rfl⟩
  · rintro (⟨handled, rfl⟩ | ⟨m, handled, rfl⟩)
    · exact ⟨_, handled, rfl⟩
    · exact ⟨_, handled, rfl⟩

theorem step_create : s.Step (.create file filename) s' ↔
    ∃ pid, firstSlot (checkTaskState s.taskQueue) = some pid ∧ filename.length < 100 ∧
      ∃ ts m, createNewTask file.toElf (s.initTaskVariables pid filename) s.machine =
        some (ts, m) ∧ s' = s.setTask pid ts m := by
  simp [Step, step, Option.bind_eq_some_iff, @eq_comm _ s']

theorem step_fork : s.Step (.fork i) s' ↔ (s.User i ∧ (s.taskQueue i).state ≠ .ready) ∧
    ∃ c, firstSlot (checkTaskState s.taskQueue) = some c ∧
      ∃ pml4e m, copySpace (s.taskQueue i) s.machine = some (pml4e, m) ∧
        s' = ⟨m, increaseChildCount (createChild s.taskQueue i pml4e (s.taskQueue i).vm) i⟩ := by
  simp [Step, step, Option.bind_eq_some_iff, @eq_comm _ s']

theorem step_exec : s.Step (.exec i file name args) s' ↔
    (s.User i ∧ args.length ≤ 100 ∧ ∀ str ∈ args, str.length < 100) ∧
      ∃ ts m, execImage file.toElf [] args { s.taskQueue i with name := name } s.machine =
        some (ts, m) ∧ s' = s.setTask i ts m := by
  simp [Step, step, Option.bind_eq_some_iff, @eq_comm _ s']

theorem step_malloc {n : Int} : s.Step (.malloc i n) s' ↔ s.User i ∧
    ∃ ret ts m, LateOS.malloc (s.taskQueue i) n s.machine = some (ret, ts, m) ∧
      s' = s.setTask i ts m := by
  simp [Step, step, Option.bind_eq_some_iff, @eq_comm _ s']

/-- A store that the hardware does not let through is a page fault. -/
theorem step_store : s.Step (.store i v b) s' ↔ s.User i ∧
    ((s.machine.permits 7 (s.taskQueue i).pml4e v = true ∧
        ∃ m, s.machine.storeByte (s.taskQueue i).pml4e v b = some m ∧ s' = { s with machine := m }) ∨
      (¬s.machine.permits 7 (s.taskQueue i).pml4e v = true ∧ s.fault i v = some s')) := by
  simp only [Step, step]
  by_cases user : s.User i
  · generalize s.machine.permits 7 (s.taskQueue i).pml4e v = allowed
    cases allowed with
    | true => simp [user, @eq_comm _ s']
    | false => simp [user]
  · simp [user]

theorem step_load : s.Step (.load i v) s' ↔ s.User i ∧
    ((s.machine.permits 5 (s.taskQueue i).pml4e v = true ∧ s' = s) ∨
      (¬s.machine.permits 5 (s.taskQueue i).pml4e v = true ∧ s.fault i v = some s')) := by
  simp only [Step, step]
  by_cases user : s.User i
  · generalize s.machine.permits 5 (s.taskQueue i).pml4e v = allowed
    cases allowed with
    | true => simp [user, @eq_comm _ s']
    | false => simp [user]
  · simp [user]

theorem step_reap : s.Step (.reap i) s' ↔ (s.User i ∧ (s.taskQueue i).state = .zombie) ∧
    ∃ m, s.machine.deallocTask (s.taskQueue i).pml4e = some m ∧
      s' = ⟨m, setState s.taskQueue i .ready⟩ := by
  simp [Step, step, @eq_comm _ s']

theorem step_turn : s.Step (.turn i state) s' ↔ state ≠ .ready ∧
    s' = { s with taskQueue := setState s.taskQueue i state } := by
  simp [Step, step, @eq_comm _ s']

end

end System

theorem setState_space (q : TaskQueue) (i : Int) (state : TaskState) (j : Int) :
    (setState q i state j).vm = (q j).vm ∧ (setState q i state j).pml4e = (q j).pml4e := by
  by_cases same : j = i
  · subst same
    simp [setState]
  · simp [setState, same]

/-- Memory is sound, physical memory is not too large for the page list, and no user task has
been created. -/
structure Booted (s : System) : Prop where
  memory : ∃ use, s.machine.Sound use
  few : s.machine.head.length ≤ 75000
  tasks : ∀ i, ¬s.User i

/-! ## The invariant -/

open Machine

/-- Each task has a PML4 of its own, and its VMAs are in order. -/
structure Consistent (s : System) (use : Word → Use) : Prop where
  sound : s.machine.Sound use
  few : s.machine.head.length ≤ 75000
  root : ∀ i, s.User i → use (s.taskQueue i).pml4e = .table (s.taskQueue i).pml4e []
  apart : ∀ i j, s.User i → s.User j → (s.taskQueue i).pml4e = (s.taskQueue j).pml4e → i = j
  layout : ∀ i, s.User i → Layout (s.taskQueue i).vm s.machine.head.length

variable {s s' : System} {use use' : Word → Use} {m : Machine} {q : TaskQueue} {i : Int} {r : Word}

theorem Booted.consistent (booted : Booted s) : ∃ use, Consistent s use := by
  obtain ⟨use, sound⟩ := booted.memory
  refine ⟨use, sound, booted.few, fun i user => ?_, fun i _ user => ?_, fun i user => ?_⟩
  all_goals exact absurd user (booted.tasks i)

/-- A step that works on task `i`, which keeps its PML4 or gets a new one. -/
theorem Consistent.change (inv : Consistent s use) (sound : m.Sound use')
    (kept : ∀ x, use x ≠ .free → use' x = use x) (head : m.head <:+ s.machine.head)
    (others : ∀ j, j ≠ i → (q j).vm = (s.taskQueue j).vm ∧ (q j).pml4e = (s.taskQueue j).pml4e)
    (root : use' (q i).pml4e = .table (q i).pml4e [])
    (new : ∀ j, j ≠ i → s.User j → (s.taskQueue j).pml4e ≠ (q i).pml4e)
    (layout : Layout (q i).vm m.head.length) : Consistent ⟨m, q⟩ use' := by
  have fewer := head.length_le
  have old {j} (other : j ≠ i) (user : System.User ⟨m, q⟩ j) : s.User j := by
    unfold System.User at user ⊢
    rw [← (others j other).1]
    exact user
  refine ⟨sound, fewer.trans inv.few, fun j user => ?_, fun j k userJ userK same => ?_,
    fun j user => ?_⟩
  · by_cases here : j = i
    · subst here
      exact root
    · have before := inv.root j (old here user)
      change use' (q j).pml4e = .table (q j).pml4e []
      rw [(others j here).2, kept _ (by simp [before])]
      exact before
  · change (q j).pml4e = (q k).pml4e at same
    -- Only task `i` may have a new PML4, which no other task has.
    by_cases hereJ : j = i
    · by_cases hereK : k = i
      · rw [hereJ, hereK]
      · rw [hereJ, (others k hereK).2] at same
        exact absurd same.symm (new k hereK (old hereK userK))
    · by_cases hereK : k = i
      · rw [hereK, (others j hereJ).2] at same
        exact absurd same (new j hereJ (old hereJ userJ))
      · rw [(others j hereJ).2, (others k hereK).2] at same
        exact inv.apart j k (old hereJ userJ) (old hereK userK) same
  · by_cases here : j = i
    · subst here
      exact layout
    · change Layout (q j).vm m.head.length
      rw [(others j here).1]
      exact (inv.layout j (old here user)).mono fewer

theorem Consistent.new (inv : Consistent s use) (spare : use r = .free) {j : Int}
    (user : s.User j) : (s.taskQueue j).pml4e ≠ r := by
  rintro rfl
  have root := inv.root j user
  rw [spare] at root
  cases root

/-- Memory may change below task `i`. -/
theorem Consistent.own (inv : Consistent s use) (user : s.User i) (sound : m.Sound use')
    (kept : ∀ x, use x ≠ .free → use' x = use x) (head : m.head <:+ s.machine.head)
    (others : ∀ j, j ≠ i → (q j).vm = (s.taskQueue j).vm ∧ (q j).pml4e = (s.taskQueue j).pml4e)
    (same : (q i).pml4e = (s.taskQueue i).pml4e) (layout : Layout (q i).vm m.head.length) :
    Consistent ⟨m, q⟩ use' := by
  have root := inv.root i user
  refine inv.change sound kept head others ?_ (fun j other userJ equal => ?_) layout
  · rw [same, kept _ (by simp [root])]
    exact root
  · rw [same] at equal
    exact other (inv.apart j i userJ user equal)

/-! ## A booted system

Kernel tables that map the first 2 MiB of physical memory at `kernbase`, and 96 free frames. -/

/-- The PML4, the PDPT, the page directory and the page table of the kernel. -/
def bootMemory (t : Word) (i : Nat) : Word :=
  if t = 0x1000 then (if i = 511 then entry 0x2000 3 else 0)
  else if t = 0x2000 then (if i = 510 then entry 0x3000 3 else 0)
  else if t = 0x3000 then (if i = 0 then entry 0x4000 3 else 0)
  else if t = 0x4000 then entry (BitVec.ofNat 64 (4096 * i)) 3
  else 0

/-- Frame `k` of the free list. -/
def bootFrame (k : Nat) : Word := BitVec.ofNat 64 (4096 * (k + 16))

def bootMachine : Machine where
  mem := bootMemory
  head := (List.range 96).map bootFrame
  refCount := fun _ => 0
  pml4e := 0x1000
  pdpte := 0x2000

def bootUse (t : Word) : Use :=
  if t = 0x1000 then .kernel 0
  else if t = 0x2000 then .kernel 1
  else if t = 0x3000 then .kernel 2
  else if t = 0x4000 then .kernel 3
  else .free

/-- `init` and `idle` are there, and every other slot is READY. -/
def System.boot : System where
  machine := bootMachine
  taskQueue := setState bootQueue 2 .ready

section

variable {t : Word} {i k : Nat}

theorem bootMemory_pml4 (i : Nat) : bootMemory 0x1000 i = if i = 511 then entry 0x2000 3 else 0 :=
  if_pos rfl

theorem bootMemory_pdpt (i : Nat) :
    bootMemory 0x2000 i = if i = 510 then entry 0x3000 3 else 0 := by
  rw [bootMemory, if_neg (by decide), if_pos rfl]

theorem bootMemory_pd (i : Nat) : bootMemory 0x3000 i = if i = 0 then entry 0x4000 3 else 0 := by
  rw [bootMemory, if_neg (by decide), if_neg (by decide), if_pos rfl]

theorem bootMemory_pt (i : Nat) : bootMemory 0x4000 i = entry (BitVec.ofNat 64 (4096 * i)) 3 := by
  rw [bootMemory, if_neg (by decide), if_neg (by decide), if_neg (by decide), if_pos rfl]

theorem bootUse_kernel {d : Nat} (serves : bootUse t = .kernel d) :
    (t = 0x1000 ∧ d = 0) ∨ (t = 0x2000 ∧ d = 1) ∨ (t = 0x3000 ∧ d = 2) ∨ d = 3 := by
  unfold bootUse at serves
  split at serves
  next here => exact Or.inl ⟨here, (Use.kernel.inj serves).symm⟩
  next =>
    split at serves
    next here => exact Or.inr (Or.inl ⟨here, (Use.kernel.inj serves).symm⟩)
    next =>
      split at serves
      next here => exact Or.inr (Or.inr (Or.inl ⟨here, (Use.kernel.inj serves).symm⟩))
      next =>
        split at serves
        next => exact Or.inr (Or.inr (Or.inr (Use.kernel.inj serves).symm))
        next => cases serves

theorem bootUse_table (t r : Word) (p : List Nat) : bootUse t ≠ .table r p := by
  unfold bootUse
  split
  · simp
  · split
    · simp
    · split
      · simp
      · split <;> simp

theorem bootFrame_toNat (below : k < 96) : (bootFrame k).toNat = 4096 * (k + 16) := by
  rw [bootFrame, BitVec.toNat_ofNat, Nat.mod_eq_of_lt]
  omega

theorem bootMachine_free {f : Word} (member : f ∈ bootMachine.head) :
    ∃ k < 96, f = bootFrame k := by
  obtain ⟨k, below, rfl⟩ := List.mem_map.mp member
  exact ⟨k, List.mem_range.mp below, rfl⟩

theorem bootUse_bootFrame (below : k < 96) : bootUse (bootFrame k) = .free := by
  have apart {x : Word} (low : x.toNat < 65536) : bootFrame k ≠ x := by
    rintro rfl
    rw [bootFrame_toNat below] at low
    omega
  unfold bootUse
  rw [if_neg (apart (by decide)), if_neg (apart (by decide)), if_neg (apart (by decide)),
    if_neg (apart (by decide))]

theorem frame_bootFrame (below : k < 96) : frame (bootFrame k) = bootFrame k :=
  frame_aligned ⟨k + 16, bootFrame_toNat below⟩

/-- All free frames lie in the first 2 MiB, and so behind one page table. -/
theorem bootFrame_indices (below : k < 96) :
    pml4Index (kernbase + (bootFrame k).toNat) = 511 ∧
      pdptIndex (kernbase + (bootFrame k).toNat) = 510 ∧
      pdIndex (kernbase + (bootFrame k).toNat) = 0 ∧
      ptIndex (kernbase + (bootFrame k).toNat) = k + 16 := by
  rw [bootFrame_toNat below]
  simp only [pml4Index, pdptIndex, pdIndex, ptIndex, index_eq, kernbase]
  omega

theorem bootMachine_direct (below : k < 96) : bootMachine.DirectMapped (bootFrame k) := by
  obtain ⟨top, second, third, last⟩ := bootFrame_indices below
  have pdpt : frame (entry 0x2000 3) = 0x2000 := by decide
  have pd : frame (entry 0x3000 3) = 0x3000 := by decide
  have pt : frame (entry 0x4000 3) = 0x4000 := by decide
  unfold DirectMapped bootMachine
  dsimp only
  rw [top, second, third, last, bootMemory_pml4, bootMemory_pdpt, if_pos rfl, if_pos rfl, pdpt, pd,
    bootMemory_pd, if_pos rfl, pt, bootMemory_pt, bootFrame, Nat.add_comm k]
  refine ⟨by decide, rfl, by decide, by decide, ?_⟩
  rw [Nat.add_comm]

theorem bootMachine_sound : bootMachine.Sound bootUse := by
  refine ⟨?_, ?_, ?_, ?_, by decide, by decide, ?_, ?_, ?_, ?_, ?_⟩
  · refine List.Nodup.map_on (fun a memberA b memberB same => ?_) List.nodup_range
    have equal := congrArg BitVec.toNat same
    rw [bootFrame_toNat (List.mem_range.mp memberA),
      bootFrame_toNat (List.mem_range.mp memberB)] at equal
    omega
  · intro f member
    obtain ⟨k, below, rfl⟩ := bootMachine_free member
    exact bootUse_bootFrame below
  · intro f member
    obtain ⟨k, below, rfl⟩ := bootMachine_free member
    exact frame_bootFrame below
  · intro f member
    obtain ⟨k, below, rfl⟩ := bootMachine_free member
    exact bootMachine_direct below
  · intro t d i serves shallow bound here
    change present (bootMemory t i) = true at here
    change bootUse (frame (bootMemory t i)) = .kernel (d + 1)
    rcases bootUse_kernel serves with ⟨rfl, rfl⟩ | ⟨rfl, rfl⟩ | ⟨rfl, rfl⟩ | rfl
    · rw [bootMemory_pml4] at here ⊢
      split at here
      next last => rw [if_pos last]; decide
      next => cases here
    · rw [bootMemory_pdpt] at here ⊢
      split at here
      next last => rw [if_pos last]; decide
      next => cases here
    · rw [bootMemory_pd] at here ⊢
      split at here
      next last => rw [if_pos last]; decide
      next => cases here
    · exact absurd shallow (by decide)
  · intro t i serves _
    change bootMemory t i &&& 4 = 0
    rcases bootUse_kernel serves with ⟨_, one⟩ | ⟨rfl, _⟩ | ⟨_, one⟩ | one
    · cases one
    · rw [bootMemory_pdpt]
      split <;> decide
    · cases one
    · cases one
  · intro t r p table
    exact absurd table (bootUse_table t r p)
  · intro t r p i table
    exact absurd table (bootUse_table t r p)
  · rintro t l t' l' ⟨⟨r, p, table, _⟩, _, _⟩
    exact absurd table (bootUse_table t r p)

theorem System.boot_booted : Booted System.boot := by
  refine ⟨⟨bootUse, bootMachine_sound⟩, ?_, fun i user => ?_⟩
  · change (List.map bootFrame (List.range 96)).length ≤ 75000
    rw [List.length_map, List.length_range]
    decide
  · refine user ?_
    exact (setState_space bootQueue 2 .ready i).1

/-! ## A first task and its child -/

/-- A program without segments. -/
def emptyImage : Image where
  e_entry := 0
  phdrs := []
  content := fun _ => none
  user := fun _ member => by cases member
  fits := fun _ member => by cases member
  filesz := fun _ member => by cases member

/-- `createNewTask` takes slot 2, and its `fork` slot 3. -/
def forkRun : List (Request × System) :=
  follow System.step System.boot [.create emptyImage [], .fork 2]

/-- There are two tasks then, and frames are left. -/
theorem forkRun_facts : ((lastState System.boot forkRun).User 2 ∧
    (lastState System.boot forkRun).User 3) ∧
      12 ≤ (lastState System.boot forkRun).machine.head.length ∧
      (lastState System.boot forkRun).machine.head.length ≤ 96 := by
  decide +kernel

theorem forkRun_users : (lastState System.boot forkRun).User 2 ∧
    (lastState System.boot forkRun).User 3 := forkRun_facts.1

theorem forkRun_along : Along System.Step System.boot forkRun := along_follow _ _ _

theorem forkRun_frames : 8 ≤ (lastState System.boot forkRun).machine.head.length :=
  Nat.le_trans (by decide) forkRun_facts.2.1

end

end LateOS
