import LateOS.Boot.Start
import LateOS.Whole.Os

/-!
# Tasks that rest

A task that is not current finds its record and the point in its call as it left them when it goes
on, whatever the other tasks, the faults, the interrupts and the scheduler do meanwhile. Its memory
is what it left too, but for what the kernel stores in buffers of other tasks where these still share
a frame with it.
-/
namespace LateOS

open Lib

namespace Os

variable {o o' : Os} {e : OsEvent} {k k' : Kernel} {j : Int}

/-- Task `j` is alive, and another one is current. -/
structure Resting (j : Int) (o : Os) : Prop where
  away : o.kernel.currentTask ≠ j
  used : (o.kernel.taskQueue j).state ≠ .ready
  alive : (o.kernel.taskQueue j).state ≠ .zombie

instance (j : Int) (o : Os) : Decidable (Resting j o) :=
  decidable_of_iff (o.kernel.currentTask ≠ j ∧ (o.kernel.taskQueue j).state ≠ .ready ∧
    (o.kernel.taskQueue j).state ≠ .zombie)
    ⟨fun h => ⟨h.1, h.2.1, h.2.2⟩, fun h => ⟨h.away, h.used, h.alive⟩⟩

/-- What becomes of a byte `b` at `v` of task `j` along a run that other tasks take: what the kernel
stores for one of them gets there if both map the same frame. -/
def rewritten (j : Int) (v : Nat) : Os → List (OsEvent × Os) → Option Byte → Option Byte
  | _, [], b => b
  | o, (e, o') :: rest, b => rewritten j v o' rest
    (o.machine.overwrite o.kernel.self.pml4e (o.stores e) (o.kernel.taskQueue j).pml4e v b)

theorem rewritten_some (j : Int) (v : Nat) (o : Os) (run : List (OsEvent × Os)) (b : Byte) :
    ∃ b', rewritten j v o run (some b) = some b' := by
  induction run generalizing o b with
  | nil => exact ⟨b, rfl⟩
  | cons head rest ih =>
    obtain ⟨b', becomes⟩ := o.machine.overwrite_some o.kernel.self.pml4e (o.stores head.1)
      (o.kernel.taskQueue j).pml4e v b
    unfold rewritten
    rw [becomes]
    exact ih _ b'

theorem rewritten_append {run more : List (OsEvent × Os)} {v : Nat} {b : Option Byte} :
    rewritten j v o (run ++ more) b = rewritten j v (lastState o run) more (rewritten j v o run b) := by
  induction run generalizing o b with
  | nil => rfl
  | cons head rest ih => exact ih

/-- A byte that no store of the kernel leads to stays. -/
theorem rewritten_of_apart {run : List (OsEvent × Os)} {v : Nat} {b : Option Byte}
    (apart : Along (fun t e _ => ∀ store ∈ t.stores e,
      ¬t.machine.SameCell t.kernel.self.pml4e store.1 (t.kernel.taskQueue j).pml4e v) o run) :
    rewritten j v o run b = b := by
  induction run generalizing o b with
  | nil => rfl
  | cons head rest ih =>
    rw [along_cons] at apart
    unfold rewritten
    rw [Machine.overwrite_of_apart apart.1]
    exact ih apart.2

/-- What task `j` has in `o`, it has behind the run, and its bytes are those that the kernel's stores
for other tasks have made of them. -/
structure KeepsTask (j : Int) (o : Os) (run : List (OsEvent × Os)) : Prop where
  own : ((lastState o run).kernel.taskQueue j).own = (o.kernel.taskQueue j).own
  point : (lastState o run).kernel.point j = o.kernel.point j
  bytes : ∀ v b, UserAddress v → o.machine.byteAt (o.kernel.taskQueue j).pml4e v = some b →
    (lastState o run).machine.byteAt ((lastState o run).kernel.taskQueue j).pml4e v =
      rewritten j v o run (some b)

theorem KeepsTask.nil (j : Int) (o : Os) : KeepsTask j o [] := ⟨rfl, rfl, fun _ _ _ byte => byte⟩

theorem KeepsTask.cons {run : List (OsEvent × Os)} (first : KeepsTask j o [(e, o')])
    (later : KeepsTask j o' run) : KeepsTask j o ((e, o') :: run) := by
  refine ⟨later.own.trans first.own, later.point.trans first.point, fun v b address byte => ?_⟩
  have now := first.bytes v b address byte
  change o'.machine.byteAt (o'.kernel.taskQueue j).pml4e v = rewritten j v o [(e, o')] _ at now
  obtain ⟨b', becomes⟩ := rewritten_some j v o [(e, o')] b
  rw [becomes] at now
  refine (later.bytes v b' address now).trans ?_
  exact congrArg (rewritten j v o' run) becomes.symm

theorem KeepsTask.user {run : List (OsEvent × Os)} (keeps : KeepsTask j o run)
    (user : o.space.User j) : (lastState o run).space.User j := by
  have vm := TaskStruct.own_vm keeps.own
  unfold System.User at user ⊢
  change ((lastState o run).kernel.taskQueue j).vm ≠ []
  rw [vm]
  exact user

/-! ## One step -/

/-- `exec` writes the record of the current task alone. -/
theorem own_of_ne {a : Action} {q : TaskQueue} {p : Point} {cut : Bool}
    (change : Change k a q p cut) (other : k.currentTask ≠ j) : (q j).own = (k.taskQueue j).own := by
  by_cases makes : a.MakesSpace
  · cases change with
    | exec =>
      unfold Kernel.exec
      dsimp only
      rw [Function.update_of_ne (Ne.symm other)]
    | reapFirst i call => rcases call with ⟨rfl, _⟩ | ⟨rfl, _⟩ <;> exact makes.elim
    | reapPid i call => rcases call with ⟨rfl, _⟩ | ⟨rfl, _⟩ <;> exact makes.elim
    | wait call => rcases call with ⟨rfl, _⟩ | ⟨rfl, _⟩ <;> exact makes.elim
    | read call => rcases call with ⟨rfl, _⟩ | ⟨rfl, _⟩ <;> exact makes.elim
    | await call => rcases call with ⟨rfl, _⟩ | ⟨rfl, _⟩ <;> exact makes.elim
    | miss | idle | respin | keep | preempt => rfl
    | _ => exact makes.elim
  · exact change.own_eq makes j

/-- The new task of a `fork` is one that was free. -/
theorem fork_other {pml4e : Word} {vm : List VmaStruct} (away : k.currentTask ≠ j)
    (fresh : j ≠ newPID k.taskQueue) :
    ((k.fork pml4e vm).taskQueue j).own = (k.taskQueue j).own ∧
      (k.fork pml4e vm).point j = k.point j := by
  unfold Kernel.fork
  dsimp only
  rw [Function.update_of_ne fresh, increaseChildCount, Function.update_of_ne (Ne.symm away),
    createChild, Function.update_of_ne fresh, copytask, Function.update_of_ne fresh,
    Function.update_of_ne fresh]
  exact ⟨rfl, rfl⟩

/-- What is left to a task by a step of the table that another task takes. -/
theorem Tabled.resting (tabled : Tabled k k') (inside : InTable j) (away : k.currentTask ≠ j)
    (used : (k.taskQueue j).state ≠ .ready) :
    (k'.taskQueue j).own = (k.taskQueue j).own ∧ k'.point j = k.point j := by
  cases tabled with
  | step a ran =>
    rcases Kernel.step_cases ran with ⟨pml4e, vm, rfl, rfl⟩ | ⟨q, p, cut, change, moved⟩
    · exact fork_other away (newPID_ne inside used)
    · rw [moved.queue, moved.point, Function.update_of_ne (Ne.symm away)]
      exact ⟨own_of_ne change away, rfl⟩
  | same => exact ⟨rfl, rfl⟩
  | remapped vm =>
    unfold remap
    dsimp only
    rw [Function.update_of_ne (Ne.symm away)]
    exact ⟨rfl, rfl⟩

/-- A request of the current task does not concern the memory of another one. -/
theorem record_resting {a : Request} (asks : o.Asks a) (rest : Resting j o) (mems : Memories)
    (v : Nat) : record o.space mems a j v = mems j v := by
  cases a with
  | create => cases asks
  | fork i =>
    unfold record
    cases slot : firstSlot (checkTaskState o.space.taskQueue) with
    | none => rfl
    | some c =>
      -- The child takes a slot that is free.
      have free : (o.kernel.taskQueue c).state = .ready :=
        (checkTaskState_iff _ _).mp (firstSlot_some slot).2
      have other : j ≠ c := by
        rintro rfl
        exact rest.used free
      exact congrFun (Function.update_of_ne other _ _) v
  | exec i _ _ _ =>
    cases asks
    exact congrFun (Function.update_of_ne (Ne.symm rest.away) _ _) v
  | malloc i _ =>
    cases asks
    exact congrFun (Function.update_of_ne (Ne.symm rest.away) _ _) v
  | store i _ _ =>
    cases asks
    simp only [record]
    split
    · exact if_neg fun both => rest.away both.1.symm
    · rfl
  | load i _ => rfl
  | reap i =>
    have other : j ≠ i := by
      rintro rfl
      exact rest.alive asks.2
    exact congrFun (Function.update_of_ne other _ _) v
  | turn => cases asks

theorem Resting.step (rest : Resting j o) (sane : o.Sane) (inside : InTable j)
    (user : o.space.User j) (ran : o.ProperStep e o') : KeepsTask j o [(e, o')] := by
  obtain ⟨ran, proper⟩ := ran
  obtain ⟨own, point⟩ := (step_tabled sane ran).resting inside rest.away rest.used
  obtain ⟨use, inv⟩ := sane.memory
  have user' : o'.space.User j := user_step sane ran user
  have holds := o.space.view_holds
  refine ⟨own, point, fun v b address byte => ?_⟩
  change o'.machine.byteAt (o'.kernel.taskQueue j).pml4e v =
    o.machine.overwrite _ (o.stores e) _ v (some b)
  rcases step_space sane proper ran with ⟨nothing, ⟨a, asks, requested⟩ | quiet⟩ | fills
  · rw [nothing]
    refine (inv.step holds requested).2 j v b user' address ?_
    rw [record_resting asks rest]
    exact byte
  · rw [nothing]
    exact (consistent_quiet inv holds quiet).2 j v b user' address byte
  · rw [(fills.consistent inv).2 j v user rest.away.symm address, byte]

/-- The kernel's stores for another task get only to pages that both have shared by `fork`. -/
theorem Sane.shared_of_sameCell {u v : Nat} (sane : o.Sane) (user : o.space.User j)
    (current : o.space.User o.kernel.currentTask) (rest : Resting j o) (userU : UserAddress u)
    (userV : UserAddress v)
    (same : o.machine.SameCell o.kernel.self.pml4e u (o.kernel.taskQueue j).pml4e v) :
    ∃ x, o.machine.translate (o.kernel.taskQueue j).pml4e v = some x ∧ Shared x := by
  obtain ⟨use, inv⟩ := sane.memory
  obtain ⟨_, x, x', found, found', same⟩ := Machine.sameCell_iff.mp same
  exact ⟨x', found', (inv.mapped_twice current user userU userV found found' same
    fun both => rest.away both.1).2⟩

/-! ## Runs -/

theorem Sane.run {run : List (OsEvent × Os)} (sane : o.Sane) (along : Along ProperStep o run) :
    (lastState o run).Sane :=
  along.invariant_last (I := Sane) (fun _ _ _ inv step => inv.step step.2 step.1) sane

theorem Sane.resting {run : List (OsEvent × Os)} (sane : o.Sane) (along : Along ProperStep o run)
    (inside : InTable j) (user : o.space.User j) (rest : Along (fun t _ _ => Resting j t) o run) :
    KeepsTask j o run := by
  induction run generalizing o with
  | nil => exact .nil j o
  | cons head later ih =>
    obtain ⟨e, t⟩ := head
    rw [along_cons] at along rest
    have first := rest.1.step sane inside user along.1
    exact first.cons (ih (sane.step along.1.2 along.1.1) along.2 (first.user user) rest.2)

/-- A byte on a page that the resting task has for itself stays. -/
theorem Sane.unshared {run : List (OsEvent × Os)} {v : Nat} (sane : o.Sane)
    (along : Along ProperStep o run) (inside : InTable j) (user : o.space.User j)
    (rest : Along (fun t _ _ => Resting j t) o run) (address : UserAddress v)
    (own : Along (fun t _ _ => ∀ x, t.machine.translate (t.kernel.taskQueue j).pml4e v = some x →
      ¬Shared x) o run) (b : Option Byte) : rewritten j v o run b = b := by
  induction run generalizing o with
  | nil => rfl
  | cons head later ih =>
    obtain ⟨e, t⟩ := head
    rw [along_cons] at along rest own
    obtain ⟨⟨ran, proper⟩, along⟩ := along
    have first := rest.1.step sane inside user ⟨ran, proper⟩
    unfold rewritten
    rw [Machine.overwrite_of_apart]
    · exact ih (sane.step proper ran) along (first.user user) rest.2 own.2
    rintro ⟨u, c⟩ member same
    rcases step_space sane proper ran with ⟨nothing, _⟩ | fills
    · rw [nothing] at member
      cases member
    · obtain ⟨x, found, shared⟩ := sane.shared_of_sameCell user fills.user rest.1
        (fills.inside _ member) address same
      exact own.1 x found shared

/-! ## The first program -/

/-- The kernel about to enter the program in slot 2. -/
def first (s : System) : Os where
  machine := s.machine
  kernel :=
    { taskQueue := s.taskQueue
      currentTask := 2
      program := fun i => if i = 0 then .init else if i = 1 then .idle else .user
      point := fun _ => .top
      terminal := .initial
      timerCount := 0
      totalSecs := 0 }
  inpString := fun _ => 0

/-- `createNewTask` takes the slot behind the two tasks of the kernel. -/
theorem kernelTasks_slot {cr3 : Word} {q : TaskQueue} (tasks : KernelTasks cr3 q) :
    firstSlot (checkTaskState q) = some 2 := by
  have state (i : Int) (inside : InTable i) := (tasks i inside).2.2
  have zero := state 0 (by decide)
  have one := state 1 (by decide)
  have two := state 2 (by decide)
  rw [if_pos (by decide)] at zero one
  rw [if_neg (by decide)] at two
  unfold firstSlot
  rw [scanFrom, if_neg (by simp [checkTaskState, zero.1]), scanFrom,
    if_neg (by simp [checkTaskState, one.1]), scanFrom, if_pos (by simp [checkTaskState, two])]
  rfl

section

variable {cr3 : Word} {s s' : System} {ts : TaskStruct} {m : Machine}

theorem first_self : (first (s.setTask 2 ts m)).kernel.taskQueue 2 = ts := by
  change Function.update s.taskQueue 2 ts 2 = ts
  exact Function.update_self _ _ _

theorem first_other {i : Int} (other : i ≠ 2) :
    (first (s.setTask 2 ts m)).kernel.taskQueue i = s.taskQueue i :=
  Function.update_of_ne other _ _

theorem first_rooted (tasks : KernelTasks cr3 s.taskQueue) (state : ts.state = .running)
    (pid : ts.pid = 2) (ppid : ts.ppid = 0) : (first (s.setTask 2 ts m)).kernel.Rooted := by
  have self : (first (s.setTask 2 ts m)).kernel.self = ts := first_self
  have zero := (tasks 0 (by decide)).2.2
  rw [if_pos (by decide)] at zero
  refine ⟨⟨(by decide : InTable 2), self ▸ pid, fun i inside live => ?_⟩, rfl, .inl rfl, ?_, ?_,
    fun here => ?_, fun i inside same => ?_, ?_⟩
  · by_cases two : i = 2
    · subst two
      exact self ▸ pid
    · rw [first_other two] at live ⊢
      have fields := (tasks i inside).2.2
      split at fields
      next => exact fields.2.1
      next =>
        rw [fields] at live
        exact absurd live (by decide)
  · rw [first_other (by decide)]
    exact (tasks 0 (by decide)).1
  · rw [first_other (by decide), zero.1]
    decide
  · cases here
  · by_cases two : i = 2
    · subst two
      rw [first_self, ppid] at same
      cases same
    · rw [first_other two, (tasks i inside).1] at same
      exact same.symm
  · rw [self, state]
    decide

/-- The other slots hold the tasks of the kernel, or nothing. -/
theorem first_manned {i : Int} (tasks : KernelTasks cr3 s.taskQueue) (inside : InTable i)
    (manned : (first (s.setTask 2 ts m)).kernel.Manned i) : i = 2 := by
  by_contra two
  have fields := (tasks i inside).2.2
  unfold Kernel.Manned at manned
  rw [first_other two] at manned
  split at fields
  next low =>
    rcases manned with dead | ⟨_, user⟩
    · rw [fields.1] at dead
      cases dead
    · have lower := inside.1
      obtain rfl | rfl : i = 0 ∨ i = 1 := by omega
      · cases user
      · cases user
  next =>
    rcases manned with dead | ⟨used, _⟩
    · rw [fields] at dead
      cases dead
    · exact used fields

theorem first_sane {file : Image} {filename : List UInt8} (booted : Booted s)
    (tasks : KernelTasks cr3 s.taskQueue) (created : s.Step (.create file filename) s') :
    (first s').Sane := by
  obtain ⟨use, inv⟩ := booted.consistent
  have memory := inv.next created
  obtain ⟨pid, slot, short, ts, m, made, rfl⟩ := System.step_create.mp created
  rw [kernelTasks_slot tasks] at slot
  cases slot
  obtain ⟨r, use', _, shape⟩ := inv.sound.createNewTask short made
  have rooted : (first (s.setTask 2 ts m)).kernel.Rooted :=
    first_rooted tasks (by rw [shape]; rfl) (by rw [shape]; rfl) (by rw [shape]; rfl)
  refine ⟨rooted, memory, fun i inside manned => ?_, fun _ _ at_ => Point.noConfusion at_,
    fun _ at_ => Point.noConfusion at_⟩
  rw [first_manned tasks inside manned]
  change ((first (s.setTask 2 ts m)).kernel.taskQueue 2).vm ≠ []
  rw [first_self, shape]
  exact List.cons_ne_nil _ _

end

/-- A booted system with a first program. -/
def withProgram : System := (System.boot.step (.create emptyImage [])).getD System.boot

theorem withProgram_created : System.boot.Step (.create emptyImage []) withProgram := by
  obtain ⟨s, created⟩ := Option.isSome_iff_exists.mp
    (by decide +kernel : (System.boot.step (.create emptyImage [])).isSome = true)
  unfold System.Step withProgram
  rw [created]
  rfl

theorem boot_kernelTasks : KernelTasks 0 System.boot.taskQueue := by
  intro i inside
  refine ⟨setState_ppid _ _ _ _, ?_, ?_⟩
  · change (setState bootQueue 2 .ready i).time = 0
    unfold setState
    rw [Function.update_apply]
    split <;> rfl
  · have lower := inside.1
    change if i ≤ 1 then (setState bootQueue 2 .ready i).state = .running ∧
      (setState bootQueue 2 .ready i).pid = i ∧ (setState bootQueue 2 .ready i).pml4e = 0
      else (setState bootQueue 2 .ready i).state = .ready
    rw [setState_state, setState_pid, (setState_space _ _ _ _).2]
    split
    next early =>
      refine ⟨?_, ?_, rfl⟩
      · rw [if_neg (by omega)]
        exact if_pos ⟨lower, by omega⟩
      · exact if_pos ⟨lower, by omega⟩
    next late =>
      by_cases two : i = 2
      · rw [if_pos two]
      · rw [if_neg two]
        exact if_neg fun both => by omega

/-- The program forks and waits for its child. -/
def waiting : List (OsEvent × Os) := follow step (first withProgram) [.fork, .call (.waitpid 3)]

/-- The child asks for a line, and sleeps; `init` looks for a dead child; a line is typed. -/
def typed : List (OsEvent × Os) :=
  follow step (lastState (first withProgram) waiting)
    [.read (stackS + 16), .call .wait, .call (.key 0x1E), .call (.key 0x1C), .call .schedule]

/-- The child gets its line. -/
def meanwhile : List (OsEvent × Os) :=
  typed ++ follow step (lastState (lastState (first withProgram) waiting) typed) [.call .resume]

theorem waiting_facts : waiting.length = 2 ∧ meanwhile.length = 6 ∧
    (lastState (first withProgram) waiting).space.User 2 ∧
    Along (fun o e _ => o.Proper e) (first withProgram) waiting ∧
    Along (fun o e _ => o.Proper e) (lastState (first withProgram) waiting) meanwhile ∧
    Along (fun t _ _ => Resting 2 t) (lastState (first withProgram) waiting) meanwhile := by
  decide +kernel

theorem waiting_proper : Along ProperStep (first withProgram) waiting :=
  (along_follow _ _ _).and waiting_facts.2.2.2.1

theorem meanwhile_proper : Along ProperStep (lastState (first withProgram) waiting) meanwhile :=
  (along_append.mpr ⟨along_follow _ _ _, along_follow _ _ _⟩).and waiting_facts.2.2.2.2.1

/-- The walks of the parent and of its child to their stacks lead to one frame. -/
theorem typed_facts :
    let o := lastState (first withProgram) waiting
    let t := lastState o typed
    (t.kernel.self.pml4e = 0x17000 ∧ (t.kernel.taskQueue 2).pml4e = 0x10000 ∧
      (o.kernel.taskQueue 2).pml4e = 0x10000) ∧
    (Along (fun t e _ => t.stores e = []) o typed ∧
      t.stores (.call .resume) = [(stackS + 16, 97)] ∧ (t.step (.call .resume)).isSome) ∧
    o.machine.Walk 0x10000 (stackS + 16) 0x13007 0x14007 0x15007 0x12205 ∧
    t.machine.Walk 0x10000 (stackS + 16) 0x13007 0x14007 0x15007 0x12205 ∧
    t.machine.Walk 0x17000 (stackS + 16) 0x18007 0x19007 0x1A007 0x12205 := by
  decide +kernel

theorem meanwhile_rewrites (b : Byte) :
    rewritten 2 (stackS + 16) (lastState (first withProgram) waiting) meanwhile (some b) =
      some 97 := by
  obtain ⟨⟨child, parent, _⟩, ⟨quiet, line, steps⟩, _, above, below⟩ := typed_facts
  obtain ⟨o, served⟩ := Option.isSome_iff_exists.mp steps
  have cell : (lastState (lastState (first withProgram) waiting) typed).machine.SameCell 0x17000
      (stackS + 16) 0x10000 (stackS + 16) :=
    Machine.sameCell_iff.mpr ⟨rfl, _, _, below.translate, above.translate, rfl⟩
  have before : rewritten 2 (stackS + 16) (lastState (first withProgram) waiting) typed (some b) =
      some b := by
    refine rewritten_of_apart (quiet.mono fun t e _ none store member => ?_)
    rw [none] at member
    cases member
  rw [meanwhile, rewritten_append, before, follow_some served, follow]
  unfold rewritten
  rw [line, child, parent, Machine.overwrite, List.foldl_cons, if_pos cell]
  rfl

end Os

end LateOS
