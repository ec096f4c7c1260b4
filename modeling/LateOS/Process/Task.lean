import Mathlib.Logic.Function.Basic
import Mathlib.Data.Int.Init

/-!
# The process table

`taskStruct`, `taskQueue` and the table part of the functions of `sys/process.c`. The
kernel indexes `taskQueue` with unchecked integers, so the table is a function on `Int`;
its slots are the indices from 0 to `MAX - 1`, and what lies outside is the memory that
an out-of-range index reaches. A process id of -1 stands for the `uint64_t` it becomes.
-/
namespace LateOS

/-- `taskStruct.state`. -/
inductive TaskState where
  | running | sleep | zombie | idle | ready | wait | hang
  deriving DecidableEq, Repr

/-- The states that `stillAlive` counts. -/
def TaskState.Live (s : TaskState) : Prop :=
  s = .running ∨ s = .sleep ∨ s = .wait ∨ s = .hang

instance (s : TaskState) : Decidable s.Live := inferInstanceAs (Decidable (_ ∨ _))

/-- The live states other than RUNNING. -/
def TaskState.Blocked (s : TaskState) : Prop := s = .sleep ∨ s = .wait ∨ s = .hang

theorem TaskState.Blocked.live {s : TaskState} (blocked : s.Blocked) : s.Live := by
  rcases blocked with rfl | rfl | rfl <;> simp [Live]

/-- `vmaStruct`, without the link: a task's list of them is a `List`. -/
structure VmaStruct where
  beginAddress : Nat
  lastAddress : Nat
  offset : Nat
  deriving DecidableEq, Repr

/-- The fields of `taskStruct` that the modelled functions read or write. -/
structure TaskStruct where
  name : List UInt8
  ustack : Nat
  time : Int
  state : TaskState
  pid : Int
  ppid : Int
  rsp : Nat
  pml4e : BitVec 64
  childCount : Int
  vm : List VmaStruct
  currDir : List UInt8
  rip : Nat
  deriving Repr

abbrev MAX : Int := 1100

/-- `STACK_S`. -/
abbrev stackS : Nat := 0x100FFFFF0000

abbrev TaskQueue := Int → TaskStruct

/-- The slots of the array proper. -/
def InTable (i : Int) : Prop := 0 ≤ i ∧ i < MAX

instance (i : Int) : Decidable (InTable i) := inferInstanceAs (Decidable (_ ∧ _))

/-! ## Scans of the table -/

/-- `for (; n > 0; i++, n--) if (p(i)) return i;` -/
def scanFrom (p : Int → Bool) : Nat → Int → Option Int
  | 0, _ => none
  | n + 1, i => if p i then some i else scanFrom p n (i + 1)

/-- The first slot with `p`, in the order of the `for` loops over the table. -/
def firstSlot (p : Int → Bool) : Option Int := scanFrom p 1100 0

theorem scanFrom_some {p : Int → Bool} {n : Nat} {i j : Int} (found : scanFrom p n i = some j) :
    i ≤ j ∧ j < i + n ∧ p j = true := by
  induction n generalizing i with
  | zero => cases found
  | succ n ih =>
    rw [scanFrom] at found
    split at found
    next here =>
      cases found
      exact ⟨Int.le_refl _, by omega, here⟩
    next =>
      obtain ⟨lower, upper, holds⟩ := ih found
      exact ⟨by omega, by omega, holds⟩

theorem scanFrom_none {p : Int → Bool} {n : Nat} {i : Int} :
    scanFrom p n i = none ↔ ∀ j, i ≤ j → j < i + n → p j = false := by
  induction n generalizing i with
  | zero =>
    constructor
    · intro _ j lower upper
      omega
    · intro _
      rfl
  | succ n ih =>
    rw [scanFrom]
    split
    next here =>
      constructor
      · intro absurd
        cases absurd
      · intro all
        have := all i (Int.le_refl _) (by omega)
        simp [here] at this
    next here =>
      rw [ih]
      constructor
      · intro all j lower upper
        -- Slot `i` is the one just tested; the rest of the scan starts behind it.
        by_cases same : j = i
        · subst same
          simpa using here
        · exact all j (by omega) (by omega)
      · intro all j lower upper
        exact all j (by omega) (by omega)

theorem firstSlot_some {p : Int → Bool} {i : Int} (found : firstSlot p = some i) :
    InTable i ∧ p i = true := by
  obtain ⟨lower, upper, holds⟩ := scanFrom_some found
  exact ⟨⟨lower, upper⟩, holds⟩

theorem firstSlot_none {p : Int → Bool} :
    firstSlot p = none ↔ ∀ i, InTable i → p i = false := by
  rw [firstSlot, scanFrom_none]
  constructor
  · intro all i inside
    exact all i inside.1 inside.2
  · intro all i lower upper
    exact all i ⟨lower, upper⟩

/-! ## Field updates -/

variable (q : TaskQueue) (i j p : Int)

def setState (s : TaskState) : TaskQueue := Function.update q i { q i with state := s }

@[simp] theorem setState_state (s : TaskState) :
    (setState q i s j).state = if j = i then s else (q j).state := by
  by_cases same : j = i
  · subst same
    simp [setState]
  · simp [setState, same]

@[simp] theorem setState_pid (s : TaskState) : (setState q i s j).pid = (q j).pid := by
  by_cases same : j = i
  · subst same
    simp [setState]
  · simp [setState, same]

@[simp] theorem setState_ppid (s : TaskState) : (setState q i s j).ppid = (q j).ppid := by
  by_cases same : j = i
  · subst same
    simp [setState]
  · simp [setState, same]

/-- The loop of `exit` and `kill` that hands the children of `p` to pid 0. -/
def reparent : TaskQueue := fun j =>
  if InTable j ∧ (q j).ppid = p then { q j with ppid := 0 } else q j

@[simp] theorem reparent_state : (reparent q p j).state = (q j).state := by
  unfold reparent
  split <;> rfl

@[simp] theorem reparent_pid : (reparent q p j).pid = (q j).pid := by
  unfold reparent
  split <;> rfl

@[simp] theorem reparent_ppid :
    (reparent q p j).ppid = if InTable j ∧ (q j).ppid = p then 0 else (q j).ppid := by
  unfold reparent
  split <;> rfl

/-- The `if` that ends `exit` and `kill`: a parent in WAIT becomes RUNNING. -/
def wakeParent : TaskQueue :=
  -- The ppid is an index, and nothing checks it.
  if (q (q i).ppid).state = .wait then setState q (q i).ppid .running else q

@[simp] theorem wakeParent_state :
    (wakeParent q i j).state =
      if j = (q i).ppid ∧ (q j).state = .wait then .running else (q j).state := by
  unfold wakeParent
  split
  next waiting =>
    rw [setState_state]
    by_cases same : j = (q i).ppid
    · subst same
      simp [waiting]
    · simp [same]
  next awake =>
    by_cases same : j = (q i).ppid
    · subst same
      simp [awake]
    · simp [same]

@[simp] theorem wakeParent_pid : (wakeParent q i j).pid = (q j).pid := by
  unfold wakeParent
  split <;> simp

@[simp] theorem wakeParent_ppid : (wakeParent q i j).ppid = (q j).ppid := by
  unfold wakeParent
  split <;> simp

end LateOS
