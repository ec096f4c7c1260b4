import LateOS.Memory.Pages
import LateOS.Memory.Separation

/-!
# The heap of a task

`malloc` finds the heap by its place in the list of VMAs. What each request does to these
lists keeps it there, and lets it only grow until another program is loaded.
-/
namespace LateOS

open Lib Machine

variable {s s' : System} {use : Word → Use} {a : Request} {i j : Int}

/-! ## Steps -/

/-- What a request may leave as the VMAs of slot `j`. -/
inductive Relayout (s : System) (j : Int) : Request → List VmaStruct → Prop
  | same {a : Request} : Relayout s j a (s.taskQueue j).vm
  | load {file : Image} {filename : List UInt8}
      (slot : firstSlot (checkTaskState s.taskQueue) = some j) :
      Relayout s j (.create file filename) (startVMAs file.toElf [])
  | copy {i : Int} (slot : firstSlot (checkTaskState s.taskQueue) = some j) (user : s.User i) :
      Relayout s j (.fork i) (s.taskQueue i).vm
  | exec {file : Image} {name : List UInt8} {args : List (List Byte)} :
      Relayout s j (.exec j file name args) (startVMAs file.toElf (s.taskQueue j).vm)
  | grow {n : Int} {first heap : VmaStruct} {rest : List VmaStruct} (count : Nat)
      (shape : (s.taskQueue j).vm = first :: heap :: rest) :
      Relayout s j (.malloc j n)
        (first :: { heap with lastAddress := heap.lastAddress + 4096 * count } :: rest)

theorem Relayout.of_eq {vm : List VmaStruct} (same : vm = (s.taskQueue j).vm) :
    Relayout s j a vm := same ▸ .same

theorem System.fault_vm {v : Nat} (ran : s.fault i v = some s') (j : Int) :
    (s'.taskQueue j).vm = (s.taskQueue j).vm := by
  rcases System.fault_iff.mp ran with ⟨_, rfl⟩ | ⟨m, _, rfl⟩
  · exact (terminate_space s.taskQueue i _ j).1
  · rfl

/-- The heap's VMA ends so many pages later, and the rest of the task is as it was. -/
theorem malloc_task {ts ts' : TaskStruct} {m m' : Machine} {n : Int} {ret : Nat}
    (ran : malloc ts n m = some (ret, ts', m')) : ∃ first heap rest,
      ts.vm = first :: heap :: rest ∧ ts' = { ts with vm := first ::
        { heap with lastAddress := heap.lastAddress + 4096 * (n.tdiv 4096 + 1).toNat } :: rest } := by
  unfold malloc at ran
  split at ran
  next first heap rest shape =>
    obtain ⟨⟨heap', m1⟩, grown, ran⟩ := Option.bind_eq_some_iff.mp ran
    cases ran
    refine ⟨first, heap, rest, shape, ?_⟩
    -- Each round adds one page to the end of the second VMA.
    have last : heap' =
        { heap with lastAddress := heap.lastAddress + 4096 * (n.tdiv 4096 + 1).toNat } := by
      refine loop_inv (I := fun i (s : VmaStruct × Machine) =>
        s.1 = { heap with lastAddress := heap.lastAddress + 4096 * i }) rfl ?_ grown
      rintro i ⟨vm, s⟩ ⟨vm', s'⟩ _ rfl ran
      obtain ⟨⟨f, s1⟩, _, ran⟩ := Option.bind_eq_some_iff.mp ran
      obtain ⟨s2, _, ran⟩ := Option.bind_eq_some_iff.mp ran
      cases ran
      simp only [Nat.mul_add, Nat.mul_one, Nat.add_assoc]
    rw [last]
  next => cases ran

theorem malloc_vm {ts ts' : TaskStruct} {m m' : Machine} {n : Int} {ret : Nat}
    (ran : malloc ts n m = some (ret, ts', m')) : ∃ first heap rest count,
      ts.vm = first :: heap :: rest ∧
      ts'.vm = first :: { heap with lastAddress := heap.lastAddress + 4096 * count } :: rest := by
  obtain ⟨first, heap, rest, shape, rfl⟩ := malloc_task ran
  exact ⟨first, heap, rest, _, shape, rfl⟩

/-- Every step does one of these to every slot. -/
theorem Consistent.relayout (inv : Consistent s use) (ran : s.Step a s') (j : Int) :
    Relayout s j a (s'.taskQueue j).vm := by
  cases a with
  | create file filename =>
    obtain ⟨pid, slot, short, ts, m, created, rfl⟩ := System.step_create.mp ran
    obtain ⟨r, use', born, shape⟩ := inv.sound.createNewTask short created
    by_cases here : j = pid
    · subst here
      have vm : ts.vm = startVMAs file.toElf [] := by rw [shape]; rfl
      dsimp only [System.setTask]
      rw [Function.update_self, vm]
      exact .load slot
    · exact .of_eq (update_space j here).1
  | fork i =>
    obtain ⟨⟨user, busy⟩, c, slot, pml4e, m, _, rfl⟩ := System.step_fork.mp ran
    have other : c ≠ i := by
      rintro rfl
      exact busy (by simpa [checkTaskState] using (firstSlot_some slot).2)
    -- The child gets a copy of the parent's list; the parent's counter is no part of it.
    have space := (fork_space pml4e (s.taskQueue i).vm slot other j).1
    dsimp only
    rw [space]
    by_cases here : j = c
    · subst here
      rw [if_pos rfl]
      exact .copy slot user
    · rw [if_neg here]
      exact .same
  | exec i file name args =>
    obtain ⟨⟨user, _, fits⟩, ts, m, started, rfl⟩ := System.step_exec.mp ran
    have root : use ({ s.taskQueue i with name := name } : TaskStruct).pml4e =
      .table ({ s.taskQueue i with name := name } : TaskStruct).pml4e [] := inv.root i user
    obtain ⟨shape, _⟩ := inv.sound.execImage root (fun _ member => by cases member) fits started
    by_cases here : j = i
    · subst here
      have vm : ts.vm = startVMAs file.toElf (s.taskQueue j).vm := by rw [shape]
      dsimp only [System.setTask]
      rw [Function.update_self, vm]
      exact .exec
    · exact .of_eq (update_space j here).1
  | malloc i n =>
    obtain ⟨user, ret, ts, m, grown, rfl⟩ := System.step_malloc.mp ran
    by_cases here : j = i
    · subst here
      obtain ⟨first, heap, rest, count, shape, vm⟩ := malloc_vm grown
      dsimp only [System.setTask]
      rw [Function.update_self, vm]
      exact .grow count shape
    · exact .of_eq (update_space j here).1
  | store i v b =>
    obtain ⟨_, ⟨_, m, _, rfl⟩ | ⟨_, ran⟩⟩ := System.step_store.mp ran
    · exact .same
    · exact .of_eq (System.fault_vm ran j)
  | load i v =>
    obtain ⟨_, ⟨_, rfl⟩ | ⟨_, ran⟩⟩ := System.step_load.mp ran
    · exact .same
    · exact .of_eq (System.fault_vm ran j)
  | reap i =>
    obtain ⟨_, m, _, rfl⟩ := System.step_reap.mp ran
    exact .of_eq (setState_space s.taskQueue i .ready j).1
  | turn i state =>
    obtain ⟨_, rfl⟩ := System.step_turn.mp ran
    exact .of_eq (setState_space s.taskQueue i state j).1

/-! ## The shape of the list -/

/-- The stack, then the heap up to a page boundary, then the rest. -/
structure HeapAt (vm : List VmaStruct) (heap : VmaStruct) (rest : List VmaStruct) : Prop where
  shape : vm = ⟨stackS, stackEnd, 0⟩ :: heap :: rest
  begin : heap.beginAddress = heapS
  above : heapS ≤ heap.lastAddress
  aligned : 4096 ∣ heap.lastAddress

def Heaped (s : System) : Prop := ∀ i, s.User i → ∃ heap rest, HeapAt (s.taskQueue i).vm heap rest

theorem heapAt_start (file : Elf) (old : List VmaStruct) :
    ∃ heap rest, HeapAt (startVMAs file old) heap rest :=
  ⟨⟨heapS, heapS, 0⟩, _, rfl, rfl, Nat.le_refl _, by decide⟩

theorem Heaped.step (heaped : Heaped s) (inv : Consistent s use) (ran : s.Step a s') :
    Heaped s' := by
  intro j user
  have changed := inv.relayout ran j
  unfold System.User at user
  generalize (s'.taskQueue j).vm = vm at changed user
  cases changed with
  | same => exact heaped j user
  | load => exact heapAt_start _ _
  | copy _ source => exact heaped _ source
  -- The new stack and heap stand in front of whatever the old program had.
  | exec => exact heapAt_start _ _
  | grow count shape =>
    obtain ⟨heap, rest, shape', begin, above, aligned⟩ := heaped j (by simp [System.User, shape])
    rw [shape] at shape'
    cases shape'
    exact ⟨_, _, rfl, begin, Nat.le_add_right_of_le above, Nat.dvd_add aligned (Nat.dvd_mul_right _ _)⟩

theorem Heaped.run {run : List (Request × System)} (booted : Booted s)
    (along : Along System.Step s run) :
    (∃ use, Consistent (lastState s run) use) ∧ Heaped (lastState s run) := by
  refine along.invariant_last (I := fun s => (∃ use, Consistent s use) ∧ Heaped s) ?_
    ⟨booted.consistent, fun i user => absurd user (booted.tasks i)⟩
  rintro s a t ⟨⟨use, inv⟩, heaped⟩ step
  exact ⟨inv.next step, heaped.step inv step⟩

/-! ## Growth -/

/-- Where the heap ends. -/
def heapEnd : List VmaStruct → Nat
  | _ :: heap :: _ => heap.lastAddress
  | _ => 0

/-- The request loads no program into slot `i`. -/
def KeepsProgram (i : Int) (s : System) : Request → Prop
  | .create _ _ | .fork _ => firstSlot (checkTaskState s.taskQueue) ≠ some i
  | .exec j _ _ _ => j ≠ i
  | _ => True

/-- A step while slot `i` keeps its program. -/
def StepBeside (i : Int) (s : System) (a : Request) (s' : System) : Prop :=
  s.Step a s' ∧ KeepsProgram i s a

theorem Consistent.heapEnd_le (inv : Consistent s use) (ran : StepBeside i s a s') :
    heapEnd (s.taskQueue i).vm ≤ heapEnd (s'.taskQueue i).vm := by
  have changed := inv.relayout ran.1 i
  have keeps := ran.2
  generalize (s'.taskQueue i).vm = vm at changed
  cases changed with
  | same => exact Nat.le_refl _
  | load slot => exact absurd slot keeps
  | copy slot _ => exact absurd slot keeps
  | exec => exact absurd rfl keeps
  | grow count shape =>
    rw [shape]
    exact Nat.le_add_right _ _

theorem Consistent.heapEnd_run {run : List (Request × System)} (inv : ∃ use, Consistent s use)
    (along : Along (StepBeside i) s run) :
    (∃ use, Consistent (lastState s run) use) ∧
      heapEnd (s.taskQueue i).vm ≤ heapEnd ((lastState s run).taskQueue i).vm := by
  refine along.invariant_last (I := fun t => (∃ use, Consistent t use) ∧
    heapEnd (s.taskQueue i).vm ≤ heapEnd (t.taskQueue i).vm) ?_ ⟨inv, Nat.le_refl _⟩
  rintro t a t' ⟨⟨use, inv⟩, before⟩ step
  exact ⟨inv.next step.1, before.trans (inv.heapEnd_le step)⟩

/-- What a call of `malloc` by task `i` has done: `count` pages from the old end of the heap
on have a frame of their own each, and nothing else is different. -/
structure HeapGrown (s : System) (i : Int) (heap : VmaStruct) (rest : List VmaStruct) (count : Nat)
    (ret : Nat) (ts : TaskStruct) (m : Machine) : Prop where
  start : ret = heap.lastAddress
  task : ts = { s.taskQueue i with vm := ⟨stackS, stackEnd, 0⟩ ::
    { heap with lastAddress := heap.lastAddress + 4096 * count } :: rest }
  pages : ∃ frames : List Word, frames.length = count ∧ frames.Nodup ∧
    (∀ f ∈ frames, f ∈ s.machine.head ∧ f ∉ m.head ∧
      ∀ j, s.User j → f ∉ s.dataFrames j ∧ f ∉ s.tableFrames j) ∧
    ∀ p f, frames[p]? = some f → m.translate ts.pml4e (ret + 4096 * p) = some (entry f 7)
  rest : ∀ v, UserAddress v → (∀ p < count, ¬SamePage (ret + 4096 * p) v) →
    m.translate ts.pml4e v = s.machine.translate ts.pml4e v ∧
      m.byteAt ts.pml4e v = s.machine.byteAt ts.pml4e v
  others : ∀ j, s.User j → j ≠ i → ∀ v,
    m.translate (s.taskQueue j).pml4e v = s.machine.translate (s.taskQueue j).pml4e v ∧
      (UserAddress v →
        m.byteAt (s.taskQueue j).pml4e v = s.machine.byteAt (s.taskQueue j).pml4e v)

/-- There is room for the frames that are left behind the heap. -/
theorem Consistent.room {heap : VmaStruct} {rest : List VmaStruct} (inv : Consistent s use)
    (user : s.User i) (at_i : HeapAt (s.taskQueue i).vm heap rest) :
    heap.lastAddress + 4096 * s.machine.head.length ≤ heapLimit := by
  obtain ⟨heap', rest', shape, room, _⟩ := inv.layout i user
  -- Both describe the same list, whose second node is the heap.
  rw [at_i.shape] at shape
  cases shape
  exact room

theorem Consistent.heapGrown {heap : VmaStruct} {rest : List VmaStruct} {n ret : Nat}
    {ts : TaskStruct} {m : Machine} (inv : Consistent s use) (user : s.User i)
    (at_i : HeapAt (s.taskQueue i).vm heap rest)
    (ran : LateOS.malloc (s.taskQueue i) n s.machine = some (ret, ts, m)) :
    HeapGrown s i heap rest (n / 4096 + 1) ret ts m := by
  have root := inv.root i user
  have room := inv.room user at_i
  obtain ⟨rfl, task, use', frames, spread⟩ := inv.sound.malloc_spread root at_i.shape room ran
  have same : ts.pml4e = (s.taskQueue i).pml4e := by rw [task]
  refine ⟨rfl, task, ⟨frames, spread.length, spread.nodup, fun f member => ?_, fun p f found => ?_⟩,
    fun v userV out => ?_, fun j userJ other v => ⟨?_, fun userV => ?_⟩⟩
  · obtain ⟨was, gone⟩ := spread.free f member
    -- The frame was free, and so it was neither a page nor a table of any task.
    have spare := inv.sound.free f was
    refine ⟨was, gone, fun j userJ => ⟨fun data => ?_, fun table => ?_⟩⟩
    · rw [inv.data_use userJ data] at spare
      cases spare
    · obtain ⟨path, serves⟩ := inv.table_use userJ table
      rw [serves] at spare
      cases spare
  · rw [same]
    exact spread.here p f found _ (.refl _)
  · rw [same]
    exact ⟨spread.rest v userV out, spread.byteAt inv.sound root userV out⟩
  · exact spread.within.translate inv.sound (inv.root j userJ) (inv.away user j other userJ) v
  · exact spread.within.byteAt inv.sound (inv.root j userJ) (inv.away user j other userJ) userV

theorem HeapGrown.heapEnd {heap : VmaStruct} {rest : List VmaStruct} {count ret : Nat}
    {ts : TaskStruct} {m : Machine} (grown : HeapGrown s i heap rest count ret ts m) :
    heapEnd ts.vm = ret + 4096 * count := by
  rw [grown.task, grown.start]
  rfl

theorem malloc_ret {ts ts' : TaskStruct} {m m' : Machine} {n : Int} {ret : Nat}
    (ran : malloc ts n m = some (ret, ts', m')) : ret = heapEnd ts.vm := by
  unfold malloc at ran
  split at ran
  next first heap rest shape =>
    obtain ⟨_, _, ran⟩ := Option.bind_eq_some_iff.mp ran
    cases ran
    rw [shape]
    rfl
  next => cases ran

theorem Consistent.after_malloc {n : Nat} {ret : Nat} {ts : TaskStruct} {m : Machine}
    (inv : Consistent s use) (user : s.User i)
    (ran : LateOS.malloc (s.taskQueue i) n s.machine = some (ret, ts, m)) :
    ∃ use', Consistent (s.setTask i ts m) use' := by
  exact inv.next (System.step_malloc.mpr ⟨user, ret, ts, m, ran, rfl⟩)

/-- The heap of every task is where `malloc` looks for it, and each call maps the pages behind
it and nothing else, so that later regions lie above all earlier ones. -/
theorem System.heap_growth {run : List (Request × System)} (booted : Booted s)
    (along : Along System.Step s run) :
    let t := lastState s run
    ∀ i, t.User i → ∃ heap rest, HeapAt (t.taskQueue i).vm heap rest ∧ ∀ n : Nat,
      (4 * (n / 4096 + 1) ≤ t.machine.head.length →
        ∃ ret ts m, malloc (t.taskQueue i) n t.machine = some (ret, ts, m)) ∧
      ∀ ret ts m, malloc (t.taskQueue i) n t.machine = some (ret, ts, m) →
        HeapGrown t i heap rest (n / 4096 + 1) ret ts m ∧
        ∀ more, Along (StepBeside i) (t.setTask i ts m) more →
          ∀ n' : Nat, ∀ ret' ts' m',
            malloc ((lastState (t.setTask i ts m) more).taskQueue i) n'
              (lastState (t.setTask i ts m) more).machine = some (ret', ts', m') →
            ret + 4096 * (n / 4096 + 1) ≤ ret' ∧ ret + n < ret' := by
  obtain ⟨⟨use, inv⟩, heaped⟩ := Heaped.run booted along
  intro t i user
  obtain ⟨heap, rest, at_i⟩ := heaped i user
  refine ⟨heap, rest, at_i, fun n => ⟨malloc_total at_i.shape, fun ret ts m ran => ?_⟩⟩
  have grown := inv.heapGrown user at_i ran
  refine ⟨grown, fun more continued n' ret' ts' m' ran' => ?_⟩
  have later := (Consistent.heapEnd_run (inv.after_malloc user ran) continued).2
  have own : ((t.setTask i ts m).taskQueue i).vm = ts.vm := by simp [System.setTask]
  rw [own, grown.heapEnd, ← malloc_ret ran'] at later
  exact ⟨later, by omega⟩

theorem System.heap_growth_of_fork :
    let t := lastState System.boot forkRun
    ∃ heap rest, HeapAt (t.taskQueue 3).vm heap rest ∧ ∃ ret ts m,
      malloc (t.taskQueue 3) 5000 t.machine = some (ret, ts, m) ∧
        HeapGrown t 3 heap rest 2 ret ts m := by
  obtain ⟨heap, rest, at_i, grows⟩ :=
    System.heap_growth System.boot_booted forkRun_along 3 forkRun_users.2
  obtain ⟨total, grown⟩ := grows 5000
  obtain ⟨ret, ts, m, ran⟩ := total forkRun_frames
  exact ⟨heap, rest, at_i, ret, ts, m, ran, (grown ret ts m ran).1⟩

end LateOS
