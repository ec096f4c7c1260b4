import LateOS.Process.Waiting

/-!
# Parent links

When the parent of a process that exists exists. A death hands the children of the task
that dies to pid 0, so a ZOMBIE has none, unless it goes on to fork: the child then keeps
a parent that can be reaped, and whose slot can be given to another process.
-/
namespace LateOS

open Lib

namespace Kernel

variable {k k' : Kernel} {a : Action}

/-- The parent of every slot in use is a slot in use. -/
def ParentsTaken (k : Kernel) : Prop :=
  ∀ i, InTable i → (k.taskQueue i).state ≠ .ready →
    InTable (k.taskQueue i).ppid ∧ (k.taskQueue (k.taskQueue i).ppid).state ≠ .ready

/-- No slot in use has the slot that a fork hands out as its parent. -/
def ChildIsFresh (k : Kernel) (a : Action) (k' : Kernel) : Prop :=
  ∀ pml4e vm, a = .fork pml4e vm → ∀ i, InTable i → (k'.taskQueue i).state ≠ .ready →
    (k'.taskQueue i).ppid ≠ newPID k.taskQueue

/-- `fork` has a free slot, and `kill` is given the pid of a slot in use. -/
def Addressed (k : Kernel) : Action → Prop
  | .fork _ _ => newPID k.taskQueue ≠ -1
  | .kill pid => InTable pid ∧ (k.taskQueue pid).state ≠ .ready
  | _ => True

instance (k : Kernel) : ∀ a, Decidable (k.Addressed a)
  | .fork .. => inferInstanceAs (Decidable (_ ≠ _))
  | .kill _ => inferInstanceAs (Decidable (_ ∧ _))
  | .exec .. | .exit | .wait | .waitpid _ | .sleep _ | .read | .schedule | .timer
  | .key _ | .resume => isTrue trivial

/-- A dead task forks. -/
def DeadForks (k : Kernel) : Action → Prop
  | .fork _ _ => k.self.state = .zombie
  | _ => False

instance (k : Kernel) : ∀ a, Decidable (k.DeadForks a)
  | .fork .. => inferInstanceAs (Decidable (_ = _))
  | .kill _ | .exec .. | .exit | .wait | .waitpid _ | .sleep _ | .read | .schedule | .timer
  | .key _ | .resume => isFalse id

/-- The links are kept up because only `init` can be dead and have children. -/
structure Linked (k : Kernel) : Prop where
  rooted : k.Rooted
  taken : k.ParentsTaken
  barren : ∀ z, InTable z → (k.taskQueue z).state = .zombie → z ≠ 0 →
    ∀ i, InTable i → (k.taskQueue i).state ≠ .ready → (k.taskQueue i).ppid ≠ z

theorem Linked.boot : Kernel.boot.Linked := by
  refine ⟨Rooted.boot, ?_, ?_⟩
  · intro i _ _
    have root : (Kernel.boot.taskQueue i).ppid = 0 := rfl
    rw [root]
    exact ⟨by decide, by decide⟩
  · intro z _ zombie
    exfalso
    by_cases used : 0 ≤ z ∧ z ≤ 2 <;> simp [Kernel.boot, bootQueue, used] at zombie

/-- A fork by a living task links its child to that task. -/
private theorem Linked.fork (linked : k.Linked) (pml4e : BitVec 64) (vm : List VmaStruct)
    (rooted : (k.fork pml4e vm).Rooted) (alive : k.self.state ≠ .zombie) :
    (k.fork pml4e vm).Linked := by
  have ppid := linked.rooted.fork_ppid pml4e vm
  have inUse {i : Int} (used : (k.taskQueue i).state ≠ .ready) :
      ((k.fork pml4e vm).taskQueue i).state ≠ .ready := by
    rw [fork_state]
    split
    · decide
    · exact used
  refine ⟨rooted, ?_, ?_⟩
  · intro i inside used
    rw [ppid]
    split
    · exact ⟨linked.rooted.seated.inside, inUse linked.rooted.used⟩
    next old =>
      rw [fork_state, if_neg old] at used
      obtain ⟨slot, parent⟩ := linked.taken i inside used
      exact ⟨slot, inUse parent⟩
  · intro z slot zombie root i inside used
    have oldZ : z ≠ newPID k.taskQueue := by
      rintro rfl
      rw [fork_state, if_pos rfl] at zombie
      cases zombie
    rw [fork_state, if_neg oldZ] at zombie
    rw [ppid]
    split
    · rintro rfl
      exact alive zombie
    next old =>
      rw [fork_state, if_neg old] at used
      exact linked.barren z slot zombie root i inside used

theorem Addressed.spares (calls : k.Addressed a) {i : Int}
    (free : (k.taskQueue i).state = .ready) : a ≠ .kill i := by
  rintro rfl
  exact calls.2 free

/-- A slot that is free stays free, whatever is done to the slots in use. -/
theorem free_kept (used : k.self.state ≠ .ready) {i : Int} (spared : a ≠ .kill i)
    {q : TaskQueue} {p : Point} {cut : Bool} (change : Change k a q p cut)
    (free : (k.taskQueue i).state = .ready) : (q i).state = .ready := by
  have other : i ≠ k.currentTask := by
    rintro rfl
    exact used free
  by_cases sets : k.SetsOwnState a
  · obtain ⟨s, _, _, after⟩ := change.own sets
    rw [after, if_neg other, free]
  · rcases change.others sets i with same | ⟨blocked, _⟩ | ⟨_, _, ready⟩ | ⟨died, _⟩
    · exact same.trans free
    · rw [free] at blocked
      rcases blocked with h | h | h <;> cases h
    · exact ready
    · rcases died with ⟨_, _, here⟩ | killed
      · exact absurd here other
      · exact absurd killed spared

/-- A change that is not a death keeps the links: the slot it may free is a ZOMBIE, which
is nobody's parent. -/
private theorem Linked.quiet (linked : k.Linked) (calls : k.Addressed a) {q : TaskQueue}
    {p : Point} {cut : Bool} (change : Change k a q p cut) (moved : Moved k k' q p cut)
    (rooted : k'.Rooted) (exit : a ≠ .exit) (kill : ∀ pid, a ≠ .kill pid)
    (ppid : ∀ j, (q j).ppid = (k.taskQueue j).ppid) : k'.Linked := by
  have usedBefore {i : Int} (used : (q i).state ≠ .ready) : (k.taskQueue i).state ≠ .ready :=
    fun free => used (free_kept linked.rooted.used (calls.spares free) change free)
  refine ⟨rooted, ?_, ?_⟩
  · intro i inside used
    rw [moved.queue] at used ⊢
    rw [ppid]
    obtain ⟨slot, parent⟩ := linked.taken i inside (usedBefore used)
    refine ⟨slot, fun freed => ?_⟩
    -- The slot of the parent was reaped, so it was a ZOMBIE, and a ZOMBIE other than `init` has no
    -- children.
    rcases freed_reapable change freed with ready | dead
    · exact parent ready
    · by_cases root : (k.taskQueue i).ppid = 0
      · have taken := rooted.taken
        rw [moved.queue] at taken
        rw [root] at freed
        exact taken freed
      · rw [reapable_iff] at dead
        exact linked.barren _ slot dead.2 root i inside (usedBefore used) rfl
  · intro z slot zombie root i inside used
    rw [moved.queue] at zombie used ⊢
    rw [ppid]
    refine linked.barren z slot ?_ root i inside (usedBefore used)
    rcases change.zombie z zombie with before | ⟨died, _⟩ | died
    · exact before
    · exact absurd died exit
    · exact absurd died (kill z)

/-- A death hands the children of the slot that dies to pid 0. -/
private theorem Linked.terminate (linked : k.Linked) (rooted : k'.Rooted) {i : Int}
    (slot : InTable i) (used : (k.taskQueue i).state ≠ .ready)
    (queue : k'.taskQueue = terminate k.taskQueue i i) : k'.Linked := by
  have inUse (j : Int) : (k'.taskQueue j).state ≠ .ready ↔ (k.taskQueue j).state ≠ .ready := by
    rw [queue, terminate_state]
    split
    next here =>
      subst here
      exact iff_of_true (by decide) used
    next =>
      split
      next woken => simp [woken.2]
      next => exact Iff.rfl
  have ppid (j : Int) (inside : InTable j) : (k'.taskQueue j).ppid =
      if (k.taskQueue j).ppid = i then 0 else (k.taskQueue j).ppid := by
    rw [queue, terminate_ppid]
    simp [inside]
  refine ⟨rooted, ?_, ?_⟩
  · intro j inside usedJ
    rw [ppid j inside]
    split
    · exact ⟨by decide, rooted.taken⟩
    · obtain ⟨slotP, parent⟩ := linked.taken j inside ((inUse j).mp usedJ)
      exact ⟨slotP, (inUse _).mpr parent⟩
  · intro z slotZ zombie root j inside usedJ
    rw [ppid j inside]
    split
    · exact Ne.symm root
    next other =>
      by_cases here : z = i
      · rwa [here]
      · refine linked.barren z slotZ ?_ root j inside ((inUse j).mp usedJ)
        rw [queue, terminate_state, if_neg here] at zombie
        split at zombie
        · cases zombie
        · exact zombie

theorem Linked.step (linked : k.Linked) (calls : k.Addressed a) (alive : ¬k.DeadForks a)
    (ran : k.Step a k') : k'.Linked := by
  have rooted := linked.rooted.step ran
  rcases step_cases ran with ⟨pml4e, vm, rfl, rfl⟩ | ⟨q, p, cut, change, moved⟩
  · exact linked.fork pml4e vm rooted alive
  · rcases change.death_cases with ⟨⟨exit, kill⟩, ppid⟩ | ⟨rfl, dies, _⟩ | ⟨pid, rfl, dies, _⟩
    · exact linked.quiet calls change moved rooted exit kill ppid
    -- `exit` hands over the children of its pid, which is its slot.
    · rw [linked.rooted.seated.own] at dies
      exact linked.terminate rooted linked.rooted.seated.inside linked.rooted.used
        (moved.queue.trans dies)
    · exact linked.terminate rooted calls.1 calls.2 (moved.queue.trans dies)

/-- The slot that a fork hands out was free, so nobody has it as a parent. -/
private theorem Linked.child_is_fresh (linked : k.Linked) (ran : k.Step a k') :
    ChildIsFresh k a k' := by
  rintro pml4e vm rfl i inside used
  rcases step_cases ran with ⟨_, _, same, rfl⟩ | ⟨q, p, cut, change, _⟩
  · cases same
    rw [linked.rooted.fork_ppid]
    split
    · exact linked.rooted.current_ne_child
    next old =>
      rw [fork_state, if_neg old] at used
      obtain ⟨slot, parent⟩ := linked.taken i inside used
      exact newPID_ne slot parent
  · cases change with
    | keep quiet => simp at quiet
    | reapFirst _ call | reapPid _ call | wait call | read call | miss call | await call =>
      simp [Runs] at call

/-- In every run from boot in which no dead task forks, the parent of every slot in use is
a slot in use, and no slot handed out by `fork` is already somebody's parent. -/
theorem parents_taken (run : List (Action × Kernel)) (ran : Along Step boot run)
    (calls : Along (fun k a _ => k.Addressed a) boot run)
    (alive : Along (fun k a _ => ¬k.DeadForks a) boot run) :
    Along (fun k a k' => k'.ParentsTaken ∧ ChildIsFresh k a k') boot run := by
  have preserved (k : Kernel) (a : Action) (k' : Kernel) (linked : k.Linked)
      (step : k.Step a k' ∧ k.Addressed a ∧ ¬k.DeadForks a) : k'.Linked :=
    linked.step step.2.1 step.2.2 step.1
  have linked := Along.invariant preserved Linked.boot (ran.and (calls.and alive))
  refine linked.mono fun k a k' step => ?_
  exact ⟨step.2.2.taken, step.1.child_is_fresh step.2.1.1⟩

/-- A child forks, exits and is reaped; its own child is left to `init`. -/
def orphanedChild : List Action :=
  [.fork 0 [], .waitpid 3, .fork 0 [], .exit, .sleep 1, .wait, .schedule, .resume]

theorem parents_taken_of_orphaned_child : (follow step boot orphanedChild).length = 8 ∧
    Along (fun k a k' => k'.ParentsTaken ∧ ChildIsFresh k a k') boot
      (follow step boot orphanedChild) := by
  have runs : (follow step boot orphanedChild).length = 8 ∧
      Along (fun k a _ => k.Addressed a) boot (follow step boot orphanedChild) ∧
      Along (fun k a _ => ¬k.DeadForks a) boot (follow step boot orphanedChild) := by
    decide +kernel
  exact ⟨runs.1, parents_taken _ (ran_follow orphanedChild) runs.2.1 runs.2.2⟩

/-- A program that reads a line that was counted and is not there gives up the processor. -/
private theorem step_missing (top : k.point k.currentTask = .top)
    (user : k.program k.currentTask = .user) (lines : 0 < k.terminal.lineCount)
    (plain : k.terminal.Plain) (behind : k.terminal.offset = k.terminal.strOffset)
    (called : k.schedule .intRead = some k') :
    k.Step .read { k' with terminal := (k.terminal.readLine
      (4096 - k.terminal.offset).toNat k.terminal.offset).2.1 } := by
  have missing := k.terminal.readLine_missing (4096 - k.terminal.offset).toNat
    (i := k.terminal.offset) fun j after => plain j (behind ▸ after)
  obtain ⟨n, found, rfl⟩ := Option.map_eq_some_iff.mp called
  refine step_iff.mpr (.inl ⟨top, ?_⟩)
  rw [user]
  change k.intRead = _
  rw [intRead, if_pos lines]
  dsimp only
  rw [missing, if_neg Bool.false_ne_true]
  exact Option.map_eq_some_iff.mpr ⟨n, found, rfl⟩

/-- Two lines are counted of which the backspace takes one away. A child kills itself and forks. -/
def danglingChild : List Action :=
  [.read, .wait, .key 28, .key 28, .key 14, .schedule, .resume, .fork 0 [], .waitpid 3, .kill 3,
    .fork 0 []]

private theorem child_gives_way :
    ((lastState boot (follow step boot danglingChild)).schedule .intRead).isSome := by
  decide +kernel

/-- Then the child reads the line that is missing. -/
def readsNothing : Kernel :=
  let k := lastState boot (follow step boot danglingChild)
  { (k.schedule .intRead).get child_gives_way with
    terminal := (k.terminal.readLine (4096 - k.terminal.offset).toNat k.terminal.offset).2.1 }

private theorem danglingChild_reads :
    (lastState boot (follow step boot danglingChild)).Step .read readsNothing := by
  have facts : let k := lastState boot (follow step boot danglingChild)
      k.point k.currentTask = .top ∧ k.program k.currentTask = .user ∧ 0 < k.terminal.lineCount ∧
        k.terminal.offset = k.terminal.strOffset := by
    decide +kernel
  obtain ⟨top, user, lines, behind⟩ := facts
  have plain : (lastState boot (follow step boot danglingChild)).terminal.Plain :=
    Along.invariant_last (I := fun k => k.terminal.Plain) (fun _ _ _ plain ran => plain_step plain ran)
      Terminal.initial_plain (ran_follow danglingChild)
  exact step_missing top user lines plain behind (Option.some_get child_gives_way).symm

/-- The first program reaps the child, and slot 4 is in use with the free slot 3 as its parent. -/
theorem reaped_task_has_child :
    ¬∀ run, Along Step boot run → Along (fun k a _ => k.Addressed a) boot run →
      Along (fun _ _ k' => k'.ParentsTaken) boot run := by
  intro all
  have runs : Along (fun k a _ => k.Addressed a) boot (follow step boot danglingChild) ∧
      Along (fun k a _ => k.Addressed a) readsNothing
        (follow step readsNothing [.sleep 1, .schedule, .resume]) ∧
      let k := lastState readsNothing (follow step readsNothing [.sleep 1, .schedule, .resume])
      (k.taskQueue 4).state = .hang ∧ (k.taskQueue 4).ppid = 3 ∧
        (k.taskQueue 3).state = .ready := by
    decide +kernel
  obtain ⟨before, after, dangling⟩ := runs
  have ran := along_append.mpr ⟨ran_follow danglingChild, (along_cons _ _ _ _ _).mpr
    ⟨danglingChild_reads, along_follow step readsNothing [.sleep 1, .schedule, .resume]⟩⟩
  have addressed := along_append.mpr ⟨before,
    (along_cons _ _ readsNothing Action.read _).mpr ⟨trivial, after⟩⟩
  have kept := (all _ ran addressed).last Linked.boot.taken
  rw [lastState_append, lastState] at kept
  obtain ⟨_, taken⟩ := kept 4 (by decide) (by rw [dangling.1]; decide)
  rw [dangling.2.1] at taken
  exact taken dangling.2.2

end Kernel

end LateOS
