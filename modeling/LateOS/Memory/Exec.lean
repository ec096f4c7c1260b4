import LateOS.Memory.Images
import LateOS.Memory.Startup

/-!
# exec and a fresh load

The two loaders leave the same entry point and put the same VMAs in front of the list that the
task has. A new task has none; the caller of `execvpe` keeps those of its previous program.
-/
namespace LateOS

open Lib Machine

variable {file : Elf} {phdrs : List Phdr} {envs args : List (List Byte)} {ep : Phdr}
  {ts ts' fresh fresh' : TaskStruct} {m m' m0 m0' : Machine} {first toend : Nat} {name : List Byte}

/-! ## What happens to the task structure -/

theorem loadSegment_task (ran : loadSegment file ep ts m = some (ts', m')) :
    ts' = { ts with vm := (setupVMA ep).1 :: ts.vm } := by
  unfold loadSegment at ran
  obtain ⟨_, _, ran⟩ := Option.bind_eq_some_iff.mp ran
  obtain ⟨_, _, ran⟩ := Option.bind_eq_some_iff.mp ran
  obtain ⟨_, _, ran⟩ := Option.bind_eq_some_iff.mp ran
  obtain ⟨_, _, ran⟩ := Option.bind_eq_some_iff.mp ran
  cases ran
  rfl

theorem loadSegments_task (ran : loadSegments file phdrs ts m = some (ts', m')) :
    ts' = { ts with vm := segmentVMAs phdrs.reverse ++ ts.vm } := by
  induction phdrs generalizing ts m with
  | nil =>
    cases ran
    rfl
  | cons ep rest ih =>
    rcases loadSegments_next ran with ⟨other, ran⟩ | ⟨load, ts1, m1, one, ran⟩
    · rw [ih ran]
      simp [segmentVMAs, other]
    · rw [ih ran, loadSegment_task one]
      simp [segmentVMAs, load]

theorem pushVMA_task (ran : pushVMA ts first toend m = some (ts', m')) :
    ts' = { ts with vm := ⟨first, toend, 0⟩ :: ts.vm } := by
  obtain ⟨_, _, ran⟩ := Option.bind_eq_some_iff.mp ran
  cases ran
  rfl

theorem readELFandFork_task (ran : readELFandFork file ts m = some (ts', m')) :
    ∃ pml4, ts' = { ts with
      pml4e := pml4, rip := file.e_entry, vm := segmentVMAs file.phdrs ++ ts.vm } := by
  unfold readELFandFork at ran
  obtain ⟨⟨pml4, m1⟩, _, ran⟩ := Option.bind_eq_some_iff.mp ran
  have shape := loadSegments_task ran
  rw [List.reverse_reverse] at shape
  exact ⟨pml4, shape⟩

theorem readELFandExec_task (ran : readELFandExec file ts m = some (ts', m')) :
    ts' = { ts with rip := file.e_entry, vm := segmentVMAs file.phdrs ++ ts.vm } := by
  unfold readELFandExec at ran
  obtain ⟨m1, _, ran⟩ := Option.bind_eq_some_iff.mp ran
  have shape := loadSegments_task ran
  rw [List.reverse_reverse] at shape
  exact shape

theorem setNewVMA_task (ran : setNewVMA ts first toend m = some (ts', m')) :
    ts' = { ts with ustack := first, rsp := first + 510 * 8, vm := ⟨first, toend, 0⟩ :: ts.vm } := by
  unfold setNewVMA at ran
  obtain ⟨_, _, ran⟩ := Option.bind_eq_some_iff.mp ran
  obtain ⟨_, _, ran⟩ := Option.bind_eq_some_iff.mp ran
  exact pushVMA_task ran

theorem execImage_task (ran : execImage file envs args ts m = some (ts', m')) :
    ts'.rip = file.e_entry ∧ ts'.vm = startVMAs file ts.vm := by
  obtain ⟨ts1, m1, ts2, m2, ts3, m3, loaded, heap, stack, ran⟩ := execImage_cases ran
  obtain ⟨m4, _, ran⟩ := Option.bind_eq_some_iff.mp ran
  cases ran
  dsimp only
  rw [setNewVMA_task stack, pushVMA_task heap, readELFandExec_task loaded]
  exact ⟨rfl, rfl⟩

theorem createNewTask_task (ran : createNewTask file ts m = some (ts', m')) :
    ts'.rip = file.e_entry ∧ ts'.vm = startVMAs file ts.vm := by
  obtain ⟨ts1, m1, ts2, m2, ts3, m3, loaded, heap, stack, ran⟩ := createNewTask_cases ran
  obtain ⟨m4, _, ran⟩ := Option.bind_eq_some_iff.mp ran
  cases ran
  obtain ⟨pml4, one⟩ := readELFandFork_task loaded
  dsimp only
  rw [setNewVMA_task stack, pushVMA_task heap, one]
  exact ⟨rfl, rfl⟩

/-! ## The two loads side by side -/

/-- The VMAs of the previous program are still behind those of the new one. -/
theorem execImage_keeps (ran : execImage file envs args ts m = some (ts', m'))
    (blank : fresh.vm = []) (loaded : createNewTask file fresh m0 = some (fresh', m0')) :
    ts'.rip = fresh'.rip ∧ ts'.vm = fresh'.vm ++ ts.vm := by
  obtain ⟨entry, vm⟩ := execImage_task ran
  obtain ⟨entry', vm'⟩ := createNewTask_task loaded
  refine ⟨entry.trans entry'.symm, ?_⟩
  rw [vm, vm', blank]
  simp [startVMAs]

/-- Two tasks that have the same program: where it starts, its VMAs and its pages. -/
structure SameProgram (ts : TaskStruct) (m : Machine) (ts' : TaskStruct) (m' : Machine) : Prop where
  entry : ts.rip = ts'.rip
  vm : ts.vm = ts'.vm
  pages : ∀ v, UserAddress v →
    ((m.translate ts.pml4e v).isSome ↔ (m'.translate ts'.pml4e v).isSome)

theorem SameProgram.nothing_kept (same : SameProgram ts' m' fresh' m0')
    (kept : ts'.vm = fresh'.vm ++ ts.vm) : ts.vm = [] := by
  have vm := same.vm
  rw [kept] at vm
  exact List.append_right_eq_self.mp vm

/-- No task that has a program gets what a new task with the file would have. -/
theorem execImage_not_fresh (user : ts.vm ≠ [])
    (ran : execImage file envs args ts m = some (ts', m')) (blank : fresh.vm = [])
    (loaded : createNewTask file fresh m0 = some (fresh', m0')) :
    ¬SameProgram ts' m' fresh' m0' := by
  intro same
  exact user (same.nothing_kept (execImage_keeps ran blank loaded).2)

/-! ## With enough frames -/

section

variable {use : Word → Use} {room : Nat}

theorem setRSPandExec_eq (ts : TaskStruct) (envs args : List (List Byte)) (m : Machine) :
    setRSPandExec ts envs args m = (pokes ts m (stackOf envs args ts.rsp).2).bind fun m =>
      some ({ ts with rsp := (stackOf envs args ts.rsp).1 }, m) := rfl

/-- With room on the stack, its stores do not stop. -/
theorem Growable.setRSPandExec (growable : Growable room m use ts)
    (top : ts.rsp = stackS + 510 * 8) (fits : 8 * stackWords envs args ≤ 4096 * room + 510 * 8) :
    ∃ ts' m', LateOS.setRSPandExec ts envs args m = some (ts', m') := by
  have value := stackS_eq
  have bound := growable.bound
  obtain ⟨argv, env, layout⟩ := stackOf_layout envs args (stackS + 510 * 8) (by omega)
  have ends := layout.ends
  have inside : ∀ store ∈ (stackOf envs args (stackS + 510 * 8)).2, InStack room store.1 := by
    intro store member
    have bounds := layout.pushed.inside store member
    exact ⟨by omega, by omega⟩
  obtain ⟨m', ran⟩ := growable.pokes inside
  refine ⟨{ ts with rsp := (stackOf envs args (stackS + 510 * 8)).1 }, m', ?_⟩
  rw [setRSPandExec_eq, top, ran]
  rfl

/-- Up to the stores to the stack, `execvpe` does not stop. -/
theorem Machine.Sound.execImage_begins {file : Image} (sound : m.Sound use)
    (root : use ts.pml4e = .table ts.pml4e [])
    (given : ∀ ep ∈ file.segments, ∀ k < ep.p_filesz, (file.content (64 * ep.p_offset + k)).isSome)
    (enough : file.frames + 4 * room + 6 ≤ m.head.length) (bound : room ≤ 496)
    (envs args : List (List Byte)) :
    ∃ ts1 m1 use1, Growable room m1 use1 ts1 ∧ ts1.rsp = stackS + 510 * 8 ∧
      LateOS.execImage file.toElf envs args ts m = LateOS.setRSPandExec ts1 envs args m1 := by
  -- Each stage takes at most the frames that are set aside for it.
  obtain ⟨m1, emptied, neat1, head1⟩ := sound.deallocTask_neat root
  have all := file.allLoadable
  have first : m1.Neat use ({ ts with rip := file.e_entry } : TaskStruct).pml4e := neat1
  have frames : (file.segments.reverse.map Phdr.frames).sum = file.frames := by
    rw [List.map_reverse, List.sum_reverse]
    rfl
  obtain ⟨ts2, m2, loaded, left⟩ := first.own.loadSegments_total all
    (fun ep member => given ep (List.mem_reverse.mp member)) (by rw [frames, head1]; omega)
  rw [frames, head1] at left
  have same2 : ts2.pml4e = ts.pml4e := by
    rw [(first.own.loadSegments (fun ep member _ => (all ep member).2) loaded).1]
  obtain ⟨use2, neat2⟩ := first.loadSegments all loaded
  obtain ⟨f3, m3, heap, one⟩ := neat2.own.sound.kmalloc_total (by omega)
  have neat3 := neat2.kmalloc heap
  have user : UserAddress stackS := user_of_small (by decide)
  obtain ⟨f4, m4, m5, popped, mapped, four⟩ := mapPage_total (m := m3) stackS ts.pml4e (by omega)
  have taken := neat3.own.sound.getFreeFrame popped
  obtain ⟨use4, page⟩ := taken.sound.initTaskPagetables neat3.own.root user taken.spare taken.out
    taken.aligned mapped
  obtain ⟨use5, neat5⟩ := neat3.mapPage user popped mapped
  obtain ⟨f6, m6, stack, six⟩ := neat5.own.sound.kmalloc_total (by omega)
  have neat6 := neat5.kmalloc stack
  refine ⟨{ ts2 with
    ustack := stackS, rsp := stackS + 510 * 8,
    vm := ⟨stackS, stackEnd, 0⟩ :: ⟨heapS, heapS, 0⟩ :: ts2.vm }, m6, use5, ?_, rfl, ?_⟩
  · constructor
    case neat => exact same2 ▸ neat6
    case vm => exact ⟨_, rfl⟩
    case top =>
      change (m6.translate ts2.pml4e stackS).isSome
      have there := page.here stackS (.refl _)
      unfold Machine.translate tables at there ⊢
      rw [same2, (neat5.own.sound.kmalloc stack).mem, there]
      rfl
    case enough =>
      have most : missing m6 ts2.pml4e room ≤ room := by
        apply (Finset.card_filter_le _ _).trans
        rw [Finset.card_range]
      change 4 * missing m6 ts2.pml4e room ≤ _
      omega
    case bound => exact bound
  · have loads : LateOS.readELFandExec file.toElf ts m = some (ts2, m2) := by
      unfold LateOS.readELFandExec
      rw [emptied, Option.bind_eq_bind, Option.bind_some, loadSegments_filter, Elf.segments_reverse]
      exact loaded
    have pushes : shiftTaskVMA ts2 heapS heapS m2 =
        some ({ ts2 with vm := ⟨heapS, heapS, 0⟩ :: ts2.vm }, m3) := by
      unfold shiftTaskVMA LateOS.pushVMA
      rw [heap]
      rfl
    unfold LateOS.execImage LateOS.setNewVMA LateOS.pushVMA
    simp only [loads, pushes, popped, same2, mapped, stack, Option.bind_eq_bind, Option.bind_some]

/-- With room on the stack, it does not stop at all. -/
theorem Machine.Sound.execImage_total {file : Image} (sound : m.Sound use)
    (root : use ts.pml4e = .table ts.pml4e [])
    (given : ∀ ep ∈ file.segments, ∀ k < ep.p_filesz, (file.content (64 * ep.p_offset + k)).isSome)
    (enough : file.frames + 4 * room + 6 ≤ m.head.length) (bound : room ≤ 496)
    (fits : 8 * stackWords envs args ≤ 4096 * room + 510 * 8) :
    ∃ ts' m', LateOS.execImage file.toElf envs args ts m = some (ts', m') := by
  obtain ⟨ts1, m1, use1, growable, rsp, begins⟩ := sound.execImage_begins root given enough bound envs args
  rw [begins]
  exact growable.setRSPandExec rsp fits

end

/-! ## A first task that calls exec -/

/-- Slot 2 after `createNewTask`. -/
def created : System := lastState System.boot (follow System.step System.boot [.create emptyImage []])

theorem created_along : Along System.Step System.boot
    (follow System.step System.boot [.create emptyImage []]) := along_follow _ _ _

theorem created_ready : created.User 2 ∧ 6 ≤ created.machine.head.length ∧
    (createNewTask emptyImage.toElf (System.boot.initTaskVariables 3 []) bootMachine).isSome := by
  decide +kernel

theorem emptyImage_given : ∀ ep ∈ emptyImage.segments, ∀ k < ep.p_filesz,
    (emptyImage.content (64 * ep.p_offset + k)).isSome := by
  intro ep member
  cases member

theorem created_sound : ∃ use, created.machine.Sound use ∧
    use (created.taskQueue 2).pml4e = .table (created.taskQueue 2).pml4e [] := by
  obtain ⟨use, inv⟩ := Consistent.run System.boot_booted.consistent created_along
  exact ⟨use, inv.sound, inv.root 2 created_ready.1⟩

theorem created_exec : ∃ ts' m' fresh' m0',
    execImage emptyImage.toElf [] [] (created.taskQueue 2) created.machine = some (ts', m') ∧
    createNewTask emptyImage.toElf (System.boot.initTaskVariables 3 []) bootMachine =
      some (fresh', m0') := by
  obtain ⟨_, enough, loaded⟩ := created_ready
  obtain ⟨use, sound, root⟩ := created_sound
  have empty : 8 * stackWords [] [] ≤ 4096 * 0 + 510 * 8 := by decide
  obtain ⟨ts', m', ran⟩ := sound.execImage_total root emptyImage_given enough (by decide) empty
  obtain ⟨⟨fresh', m0'⟩, loaded⟩ := Option.isSome_iff_exists.mp loaded
  exact ⟨ts', m', fresh', m0', ran, loaded⟩

theorem execImage_not_fresh_of_created : ∃ ts' m' fresh' m0',
    execImage emptyImage.toElf [] [] (created.taskQueue 2) created.machine = some (ts', m') ∧
    createNewTask emptyImage.toElf (System.boot.initTaskVariables 3 []) bootMachine =
      some (fresh', m0') ∧
    ¬SameProgram ts' m' fresh' m0' := by
  obtain ⟨ts', m', fresh', m0', ran, loaded⟩ := created_exec
  have user := created_ready.1
  exact ⟨ts', m', fresh', m0', ran, loaded, execImage_not_fresh user ran rfl loaded⟩

/-- The first `exec` of the first task already keeps two VMAs. -/
theorem created_exec_keeps : ∃ ts' m' fresh' m0',
    execImage emptyImage.toElf [] [] (created.taskQueue 2) created.machine = some (ts', m') ∧
    createNewTask emptyImage.toElf (System.boot.initTaskVariables 3 []) bootMachine =
      some (fresh', m0') ∧
    ts'.vm = fresh'.vm ++ (created.taskQueue 2).vm ∧ (created.taskQueue 2).vm ≠ [] ∧
    ¬SameProgram ts' m' fresh' m0' := by
  obtain ⟨ts', m', fresh', m0', ran, loaded⟩ := created_exec
  have user := created_ready.1
  have kept := (execImage_keeps ran rfl loaded).2
  exact ⟨ts', m', fresh', m0', ran, loaded, kept, user, fun same => user (same.nothing_kept kept)⟩

end LateOS
