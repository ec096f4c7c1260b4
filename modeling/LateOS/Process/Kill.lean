import LateOS.Process.Reaping

/-!
# kill and its argument

`kill` takes any integer as a slot number and always reports success.
-/
namespace LateOS

open Lib

/-- The system call `kill` on the table: what it returns, and the table it leaves. -/
def kill (q : TaskQueue) (pid : Int) : Int × TaskQueue := (1, terminate q pid pid)

theorem Kernel.kill_taskQueue (k : Kernel) (pid : Int) :
    (k.kill pid).taskQueue = (LateOS.kill k.taskQueue pid).2 := rfl

/-- The table when the task in slot `pid` has been killed: it is ZOMBIE, its children belong
to pid 0, its parent does not wait any longer, and nothing else is different. -/
def killed (q : TaskQueue) (pid : Int) : TaskQueue := fun j =>
  { q j with
    state := if j = pid then .zombie
      else if j = (q pid).ppid ∧ (q j).state = .wait then .running else (q j).state
    ppid := if InTable j ∧ (q j).ppid = pid then 0 else (q j).ppid }

/-- What `kill` owes to its caller: it kills a live task, and refuses everything else. -/
def KillMeets (q : TaskQueue) (pid : Int) (result : Int × TaskQueue) : Prop :=
  if InTable pid ∧ (q pid).state.Live then 0 ≤ result.1 ∧ result.2 = killed q pid
  else result.1 < 0 ∧ result.2 = q

/-- The task in slot `pid` is its own parent, and slot 0 waits. -/
def OwnParentWaits (q : TaskQueue) (pid : Int) : Prop :=
  (q pid).ppid = pid ∧ pid ≠ 0 ∧ (q 0).state = .wait

variable {q : TaskQueue} {pid : Int}

/-- At most `state` and `ppid` are different. -/
def OnlyLinks (t t' : TaskStruct) : Prop := t' = { t with state := t'.state, ppid := t'.ppid }

theorem OnlyLinks.trans {t t' t'' : TaskStruct} (first : OnlyLinks t t')
    (second : OnlyLinks t' t'') : OnlyLinks t t'' := by
  unfold OnlyLinks at *
  calc t'' = { t' with state := t''.state, ppid := t''.ppid } := second
    _ = { t with state := t''.state, ppid := t''.ppid } := by rw [first]

theorem setState_links (q : TaskQueue) (i : Int) (s : TaskState) (j : Int) :
    OnlyLinks (q j) (setState q i s j) := by
  by_cases same : j = i
  · subst same
    rw [setState, Function.update_self]
    rfl
  · rw [setState, Function.update_of_ne same]
    rfl

theorem reparent_links (q : TaskQueue) (p j : Int) : OnlyLinks (q j) (reparent q p j) := by
  unfold reparent
  split <;> rfl

theorem wakeParent_links (q : TaskQueue) (i j : Int) : OnlyLinks (q j) (wakeParent q i j) := by
  unfold wakeParent
  split
  · exact setState_links q _ _ j
  · rfl

theorem terminate_links (q : TaskQueue) (i pid j : Int) :
    OnlyLinks (q j) (terminate q i pid j) :=
  ((setState_links q i .zombie j).trans (reparent_links _ pid j)).trans (wakeParent_links _ i j)

/-- Whom the death wakes: a task that is its own parent has become a child of pid 0. -/
theorem woken_iff (apart : ¬OwnParentWaits q pid) {j : Int}
    (other : j ≠ pid) : (j = heir q pid pid ∧ (q j).state = .wait) ↔
      (j = (q pid).ppid ∧ (q j).state = .wait) := by
  unfold heir
  split
  next own =>
    -- Its parent is itself, so that the hand-over has already made pid 0 its parent.
    rw [own.2]
    constructor
    · rintro ⟨rfl, waits⟩
      exact absurd ⟨own.2, Ne.symm other, waits⟩ apart
    · exact fun both => absurd both.1 other
  next => exact Iff.rfl

theorem terminate_killed (apart : ¬OwnParentWaits q pid) :
    terminate q pid pid = killed q pid := by
  funext j
  have links := terminate_links q pid pid j
  unfold OnlyLinks at links
  rw [links, terminate_state, terminate_ppid]
  unfold killed
  by_cases same : j = pid
  · simp only [same, if_true]
  · simp only [same, if_false, woken_iff apart same]

/-- A slot 0 that waits is woken by the death of a task that is its own parent. -/
theorem terminate_own_parent (inside : InTable pid) (own : OwnParentWaits q pid) :
    terminate q pid pid ≠ killed q pid := by
  intro same
  obtain ⟨parent, root, waits⟩ := own
  have state := congrArg (fun t => (t 0).state) same
  have woken : (0 : Int) = heir q pid pid := by
    rw [heir, if_pos ⟨inside, parent⟩]
  simp [killed, Ne.symm root, ← woken, waits, parent] at state

/-- `kill` does its duty exactly when its argument names a live slot (and no task that is its own
parent, while slot 0 waits). -/
theorem kill_meets_iff (q : TaskQueue) (pid : Int) : KillMeets q pid (kill q pid) ↔
    InTable pid ∧ (q pid).state.Live ∧ ¬OwnParentWaits q pid := by
  unfold KillMeets kill
  split
  next live =>
    constructor
    · intro meets
      exact ⟨live.1, live.2, fun own => terminate_own_parent live.1 own meets.2⟩
    · intro ok
      exact ⟨Int.one_nonneg, terminate_killed ok.2.2⟩
  next dead =>
    constructor
    · intro meets
      exact absurd meets.1 (Int.not_lt.mpr Int.one_nonneg)
    · intro ok
      exact absurd ⟨ok.1, ok.2.1⟩ dead

/-- `kill` of a slot that was never used makes a ZOMBIE of it, and succeeds. -/
theorem kill_of_free_slot : ¬∀ q pid, KillMeets q pid (kill q pid) := by
  intro all
  have meets := all bootQueue 5
  rw [KillMeets, if_neg (by decide)] at meets
  exact absurd meets.1 (Int.not_lt.mpr Int.one_nonneg)

end LateOS
