import LateOS.Memory.System
import LateOS.Process.Effect

/-!
# Fork on a full table

`fork` with whatever `newPID` answers, and what the shell makes of the value that it returns.
-/
namespace LateOS

/-- `fork`, called by task `i`. The value returned is the child's `pid`. -/
def System.fork (s : System) (i : Int) : Option (Int × System) :=
  (copySpace (s.taskQueue i) s.machine).map fun (pml4e, m) =>
    (newPID s.taskQueue,
      { machine := m,
        taskQueue := increaseChildCount (createChild s.taskQueue i pml4e (s.taskQueue i).vm) i })

/-- The three branches of the shell's `execCommand`. -/
inductive ForkBranch where
  | child | failed | parent
  deriving DecidableEq

/-- `pid_t` is unsigned, in 32 bits, and so is the comparison. -/
def execCommand (ret : Int) : ForkBranch :=
  let pid := BitVec.ofInt 32 ret
  if pid = 0 then .child else if pid < 0#32 then .failed else .parent

/-- No slot is free. -/
def Full (q : TaskQueue) : Prop := ∀ j, InTable j → (q j).state ≠ .ready

/-- On a full table `fork` fails and changes nothing; on any other the child gets a READY slot, and
only that slot and the caller's record change. -/
structure ForksCleanly (s : System) (i : Int) : Prop where
  full : Full s.taskQueue → ∃ ret s', s.fork i = some (ret, s') ∧ execCommand ret = .failed ∧
    (∀ j, InTable j → s'.taskQueue j = s.taskQueue j) ∧ s'.machine.mem = s.machine.mem
  slot : ¬Full s.taskQueue → ∀ ret s', s.fork i = some (ret, s') →
    InTable ret ∧ (s.taskQueue ret).state = .ready ∧
      (s'.taskQueue ret).pid = ret ∧ (s'.taskQueue ret).state = .running ∧
      ∀ j, j ≠ ret → j ≠ i → s'.taskQueue j = s.taskQueue j

variable {s s' : System} {q : TaskQueue} {i ret : Int}

/-! ## What the child's slot gets -/

theorem System.fork_child (ran : s.fork i = some (ret, s')) :
    ret = newPID s.taskQueue ∧ (s'.taskQueue ret).pid = ret ∧
      (s'.taskQueue ret).state = .running ∧
      ∀ j, j ≠ ret → j ≠ i → s'.taskQueue j = s.taskQueue j := by
  obtain ⟨⟨pml4e, m⟩, _, same⟩ := Option.map_eq_some_iff.mp ran
  cases same
  refine ⟨rfl, ?_, ?_, fun j other away => ?_⟩
  · simp [createChild_pid]
  · simp [createChild_state]
  · simp [increaseChildCount, createChild, copytask, other, away]

/-- An unsigned value is never below zero, so the shell does not see a failure. -/
theorem execCommand_not_failed (ret : Int) : execCommand ret ≠ .failed := by
  have none : ¬BitVec.ofInt 32 ret < 0#32 := BitVec.not_lt_zero
  unfold execCommand
  dsimp only
  rw [if_neg none]
  split
  · nofun
  · nofun

/-- The caller has one child more, though its child has no slot of the table. -/
theorem System.fork_full (full : Full s.taskQueue) (inside : InTable i)
    (ran : s.fork i = some (ret, s')) :
    ret = -1 ∧ (s'.taskQueue i).childCount = (s.taskQueue i).childCount + 1 ∧
      (s'.taskQueue (-1)).state = .running := by
  obtain ⟨same, _, running, _⟩ := System.fork_child ran
  have none : newPID s.taskQueue = -1 := by
    rcases newPID_cases s.taskQueue with ⟨inside, ready⟩ | ⟨none, _⟩
    · exact absurd ready (full _ inside)
    · exact none
  rw [none] at same
  subst same
  refine ⟨rfl, ?_, running⟩
  obtain ⟨⟨pml4e, m⟩, _, same⟩ := Option.map_eq_some_iff.mp ran
  have after := congrArg Prod.snd same
  subst after
  have other : i ≠ -1 := by
    rintro rfl
    exact absurd inside (by decide)
  simp [increaseChildCount, createChild, copytask, none, other]

/-- `fork` keeps to its contract exactly where it finds a free slot. -/
theorem System.fork_iff (s : System) (i : Int) :
    ForksCleanly s i ↔ ∃ j, InTable j ∧ (s.taskQueue j).state = .ready := by
  have room : ¬Full s.taskQueue ↔ ∃ j, InTable j ∧ (s.taskQueue j).state = .ready := by
    simp [Full]
  rw [← room]
  constructor
  · intro clean full
    obtain ⟨ret, s', _, seen, _⟩ := clean.full full
    exact execCommand_not_failed ret seen
  · intro free
    refine ⟨fun full => absurd full free, fun _ ret s' ran => ?_⟩
    obtain ⟨same, child⟩ := System.fork_child ran
    rcases newPID_cases s.taskQueue with ⟨inside, ready⟩ | ⟨_, full⟩
    · rw [← same] at inside ready
      exact ⟨inside, ready, child⟩
    · exact absurd full free

/-- Every slot is taken. The caller's PML4 maps nothing. -/
def crowd : System where
  machine :=
    { mem := fun _ _ => 0, head := [0x5000, 0x6000, 0x7000, 0x8000], refCount := fun _ => 0,
      pml4e := 0x1000, pdpte := 0x2000 }
  taskQueue i := { bootQueue i with state := .running, pml4e := 0x9000 }

theorem crowd_forks : ¬ForksCleanly crowd 2 ∧
    (crowd.fork 2).map (fun (ret, s') => (ret, execCommand ret, (s'.taskQueue 2).childCount)) =
      some (-1, .parent, 1) := by
  refine ⟨fun clean => ?_, by decide +kernel⟩
  obtain ⟨ret, s', _, seen, _⟩ := clean.full fun j _ => by simp [crowd]
  exact execCommand_not_failed ret seen

end LateOS
