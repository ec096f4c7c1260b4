import Mathlib.Data.Finset.Card
import Mathlib.Data.Finset.Range
import LateOS.Process.Awake

/-!
# Terminal readers

Enter wakes one sleeping reader, and any reader may take the line first. While a reader
sleeps, the lines that are counted are covered by readers that are awake.
-/
namespace LateOS

open Lib

/-! ## The line count -/

theorem Terminal.intWrite_lineCount (t : Terminal) (code : Nat) :
    (t.intWrite code).1.lineCount = t.lineCount + if (t.intWrite code).2 then 1 else 0 := by
  unfold intWrite
  split_ifs <;> simp_all [append]

theorem Terminal.readLine_lineCount (t : Terminal) (n : Nat) (i : Int) :
    (t.readLine n i).2.1.lineCount = t.lineCount - if (t.readLine n i).2.2 then 1 else 0 := by
  induction n generalizing t i with
  | zero => simp [readLine]
  | succ n ih =>
    rw [readLine]
    split
    next => simp
    next => exact ih _ _

namespace Kernel

variable {k k' : Kernel} {a : Action} {q : TaskQueue} {p : Point} {cut : Bool}

theorem intRead_empty (ran : k.intRead = some k') (empty : ¬0 < k.terminal.lineCount) :
    k'.terminal = k.terminal := by
  unfold intRead at ran
  rw [if_neg empty] at ran
  exact schedule_terminal ran rfl

/-! ## Who sleeps and who reads -/

/-- The slot is RUNNING, inside `intRead`. -/
def Reading (k : Kernel) (i : Int) : Prop :=
  (k.taskQueue i).state = .running ∧ k.point i = .intRead

instance (k : Kernel) (i : Int) : Decidable (k.Reading i) := inferInstanceAs (Decidable (_ ∧ _))

def slots : Finset Int := (Finset.range MAX.toNat).image Int.ofNat

def readers (k : Kernel) : Finset Int := {i ∈ slots | k.Reading i}

def SomeoneSleeps (k : Kernel) : Prop := ∃ i, InTable i ∧ (k.taskQueue i).state = .sleep

theorem mem_slots {i : Int} : i ∈ slots ↔ InTable i := by
  unfold slots
  rw [Finset.mem_image]
  constructor
  · rintro ⟨n, below, rfl⟩
    have small : n < 1100 := Finset.mem_range.mp below
    have inside : (n : Int) < 1100 := by omega
    exact ⟨Int.natCast_nonneg n, inside⟩
  · rintro ⟨low, high⟩
    have small : i < 1100 := high
    exact ⟨i.toNat, Finset.mem_range.mpr (show i.toNat < 1100 by omega), Int.toNat_of_nonneg low⟩

@[simp] theorem mem_readers {i : Int} : i ∈ k.readers ↔ InTable i ∧ k.Reading i := by
  simp [readers, mem_slots]

/-- Only `intRead` puts its caller to sleep, when it has no line. -/
theorem sleep_cases (change : Change k a q p cut) {i : Int} (sleeps : (q i).state = .sleep) :
    (k.taskQueue i).state = .sleep ∨
    (i = k.currentTask ∧ p = .intRead ∧ k.Runs a .read .intRead ∧ ¬0 < k.terminal.lineCount) := by
  by_cases here : i = k.currentTask
  · subst here
    cases change with
    | await call empty => exact Or.inr ⟨rfl, rfl, call, empty⟩
    | exec => exact Or.inl (by simpa [Kernel.exec, Kernel.self] using sleeps)
    | reapFirst j => grind [setState_state]
    | reapPid j => grind [setState_state]
    | key =>
      rcases wakeProcess_state k.taskQueue k.currentTask with same | ⟨before, _⟩
      · exact Or.inl (same.symm.trans sleeps)
      · exact Or.inl before
    | tick =>
      rcases taskTimer_state k.taskQueue k.currentTask with same | ⟨_, runs⟩
      · exact Or.inl (same.symm.trans sleeps)
      · rw [runs] at sleeps
        cases sleeps
    | kill pid =>
      rw [terminate_state] at sleeps
      split_ifs at sleeps
      exact Or.inl sleeps
    | miss | respin | idle | keep | preempt => exact Or.inl sleeps
    | _ => simp at sleeps
  · left
    by_cases sets : k.SetsOwnState a
    · obtain ⟨s, _, _, after⟩ := change.own sets
      rwa [after, if_neg here] at sleeps
    · rcases change.others sets i with same | ⟨_, runs⟩ | ⟨_, _, ready⟩ | ⟨_, zombie⟩
      · exact same.symm.trans sleeps
      · rw [runs] at sleeps
        cases sleeps
      · rw [ready] at sleeps
        cases sleeps
      · rw [zombie] at sleeps
        cases sleeps

/-- A reader stays one, unless it is killed or takes the step. -/
theorem Reading.kept {i : Int} (reading : k.Reading i) (inside : InTable i)
    (spared : ∀ pid, a ≠ .kill pid) (ran : k.Step a k') (other : i ≠ k.currentTask) :
    k'.Reading i := by
  rcases step_cases ran with ⟨pml4e, vm, rfl, rfl⟩ | ⟨q, p, cut, change, moved⟩
  · have child : i ≠ newPID k.taskQueue := newPID_ne inside (by simp [reading.1])
    refine ⟨by rw [fork_state, if_neg child, reading.1], ?_⟩
    exact (Function.update_of_ne child _ _).trans reading.2
  · exact ⟨by rw [moved.queue, change.running_kept (spared i) other reading.1],
      by rw [moved.point, Function.update_of_ne other, reading.2]⟩

/-- Nobody but the task that takes the step stops reading in it. -/
theorem readers_subset (spared : ∀ pid, a ≠ .kill pid) (ran : k.Step a k') :
    k.readers ⊆ insert k.currentTask k'.readers := by
  intro i member
  rw [mem_readers] at member
  obtain ⟨inside, reading⟩ := member
  rw [Finset.mem_insert, mem_readers]
  by_cases other : i = k.currentTask
  · exact Or.inl other
  · exact Or.inr ⟨inside, reading.kept inside spared ran other⟩

/-! ## The invariant -/

/-- Who is in state SLEEP sleeps in `intRead`, and while somebody does, each counted line has a
reader of its own that is awake. -/
structure Served (k : Kernel) : Prop where
  awake : k.Awake
  inside : ∀ i, InTable i → (k.taskQueue i).state = .sleep → k.point i = .intRead
  covered : k.SomeoneSleeps → k.terminal.lineCount ≤ k.readers.card

theorem Served.boot : Kernel.boot.Served := by
  have awake (i : Int) : (Kernel.boot.taskQueue i).state ≠ .sleep := by
    by_cases used : 0 ≤ i ∧ i ≤ 2 <;> simp [Kernel.boot, bootQueue, used]
  refine ⟨Awake.boot, fun i _ sleeps => absurd sleeps (awake i), ?_⟩
  rintro ⟨i, _, sleeps⟩
  exact absurd sleeps (awake i)

variable (served : k.Served)

include served

/-- Who sleeps after a step slept before it, or has just found no line. -/
theorem Served.slept (ran : k.Step a k') {i : Int} (inside : InTable i)
    (sleeps : (k'.taskQueue i).state = .sleep) : k'.point i = .intRead ∧
      (k.SomeoneSleeps ∨ ¬0 < k'.terminal.lineCount) := by
  have awake : k.self.state = .running := served.awake.runs
  have other (before : (k.taskQueue i).state = .sleep) : i ≠ k.currentTask := by
    rintro rfl
    rw [self, before] at awake
    cases awake
  rcases step_cases ran with ⟨pml4e, vm, rfl, rfl⟩ | ⟨q, p, cut, change, moved⟩
  · rw [fork_state] at sleeps
    split at sleeps
    next => cases sleeps
    next child =>
      refine ⟨?_, Or.inl ⟨i, inside, sleeps⟩⟩
      exact (Function.update_of_ne child _ _).trans (served.inside i inside sleeps)
  · rw [moved.queue] at sleeps
    rw [moved.point]
    rcases sleep_cases change sleeps with before | ⟨rfl, rfl, call, empty⟩
    · rw [Function.update_of_ne (other before)]
      exact ⟨served.inside i inside before, Or.inl ⟨i, inside, before⟩⟩
    · refine ⟨Function.update_self .., Or.inr ?_⟩
      have same : k'.terminal = k.terminal := by
        rcases terminal_cases ran with ⟨code, rfl, _⟩ | ⟨_, read⟩ | ⟨same, _⟩
        · rcases call with ⟨absurd, _⟩ | ⟨absurd, _⟩ <;> cases absurd
        · exact intRead_empty read empty
        · exact same
      rwa [same]

/-- Enter wakes a sleeper for the line it adds. -/
theorem Served.key (code : Nat) (sleeper : k.SomeoneSleeps) :
    (k.intWrite code).terminal.lineCount ≤ (k.intWrite code).readers.card := by
  have covered := served.covered sleeper
  change (k.terminal.intWrite code).1.lineCount ≤ _
  rw [Terminal.intWrite_lineCount]
  split
  next enter =>
    obtain ⟨i, inside, sleeps⟩ := sleeper
    cases first : firstSlot (fun i => decide ((k.taskQueue i).state = .sleep)) with
    | none =>
      have := firstSlot_none.mp first i inside
      simp [sleeps] at this
    | some j =>
      obtain ⟨inside, sleeps⟩ := firstSlot_some first
      rw [decide_eq_true_iff] at sleeps
      have queue : (k.intWrite code).taskQueue = setState k.taskQueue j .running := by
        simp [intWrite, enter, wakeProcess, first]
      have fresh : j ∉ k.readers := by simp [Reading, sleeps]
      have more : insert j k.readers ⊆ (k.intWrite code).readers := by
        intro i member
        rw [mem_readers, Reading, queue, setState_state]
        change _ ∧ _ ∧ k.point i = _
        rcases Finset.mem_insert.mp member with rfl | before
        · exact ⟨inside, if_pos rfl, served.inside i inside sleeps⟩
        · obtain ⟨slot, runs, reads⟩ := mem_readers.mp before
          exact ⟨slot, by rw [runs, ite_self], reads⟩
      have count := Finset.card_le_card more
      rw [Finset.card_insert_of_notMem fresh] at count
      omega
  next other =>
    have queue : (k.intWrite code).taskQueue = k.taskQueue := by simp [intWrite, other]
    have same : (k.intWrite code).readers = k.readers := by
      ext i
      simp only [mem_readers, Reading, queue]
      exact Iff.rfl
    rw [same]
    omega

/-- A round of `intRead` takes a line with the reader that leaves, or leaves both. -/
theorem Served.read (spared : ∀ pid, a ≠ .kill pid) (ran : k.Step a k')
    (read : k.intRead = some k') (sleeper : k.SomeoneSleeps) :
    k'.terminal.lineCount ≤ k'.readers.card := by
  have covered := served.covered sleeper
  have others := readers_subset spared ran
  have count := (Finset.card_le_card others).trans (Finset.card_insert_le _ _)
  have total := k.terminal.readLine_lineCount (4096 - k.terminal.offset).toNat k.terminal.offset
  unfold intRead at read
  split at read
  next lines =>
    dsimp only at read
    split at read
    next found =>
      rw [if_pos found] at total
      have taken : k'.terminal.lineCount = k.terminal.lineCount - 1 := by
        cases read
        exact total
      omega
    next missing =>
      -- The caller stays RUNNING inside `intRead`.
      have stays : k.currentTask ∈ k'.readers := by
        obtain ⟨n, rfl, _⟩ := schedule_some read
        exact mem_readers.mpr
          ⟨served.awake.seated.inside, served.awake.runs, Function.update_self ..⟩
      rw [Finset.insert_eq_of_mem stays] at others
      have kept := Finset.card_le_card others
      rw [if_neg missing] at total
      have same : k'.terminal.lineCount = k.terminal.lineCount - 0 := by
        obtain ⟨n, rfl, _⟩ := schedule_some read
        exact total
      omega
  next empty =>
    have same : k'.terminal = k.terminal := schedule_terminal read rfl
    rw [same]
    omega

/-- A step that neither reads nor types leaves all readers where they are. -/
theorem Served.quiet (spared : ∀ pid, a ≠ .kill pid) (ran : k.Step a k')
    (same : k'.terminal = k.terminal) (outside : k.point k.currentTask ≠ .intRead)
    (sleeper : k.SomeoneSleeps) : k'.terminal.lineCount ≤ k'.readers.card := by
  have kept : k.readers ⊆ k'.readers := by
    intro i member
    obtain ⟨inside, reading⟩ := mem_readers.mp member
    have other : i ≠ k.currentTask := by
      rintro rfl
      exact outside reading.2
    exact mem_readers.mpr ⟨inside, reading.kept inside spared ran other⟩
  rw [same]
  exact (served.covered sleeper).trans (by exact_mod_cast Finset.card_le_card kept)

theorem Served.step (spared : ∀ pid, a ≠ .kill pid) (ran : k.Step a k') : k'.Served := by
  refine ⟨served.awake.step ⟨spared 1, spared _⟩ ran, ?_, ?_⟩
  · intro i inside sleeps
    exact (served.slept ran inside sleeps).1
  · rintro ⟨i, inside, sleeps⟩
    rcases (served.slept ran inside sleeps).2 with sleeper | empty
    · rcases terminal_cases ran with ⟨code, rfl, rfl⟩ | ⟨_, read⟩ | ⟨same, outside⟩
      · exact served.key code sleeper
      · exact served.read spared ran read sleeper
      · exact served.quiet spared ran same outside sleeper
    · omega

omit served

/-! ## Runs without kill -/

/-- While a reader sleeps, no more lines are counted than readers are awake; so one is awake
when a line is there. -/
def Attended (k : Kernel) : Prop :=
  (0 < k.terminal.lineCount → k.SomeoneSleeps → ∃ i, InTable i ∧ k.Reading i) ∧
  (k.SomeoneSleeps → k.terminal.lineCount ≤ k.readers.card)

theorem Served.attended (served : k.Served) : k.Attended := by
  refine ⟨fun lines sleeper => ?_, served.covered⟩
  have some : 0 < k.readers.card := by
    have := served.covered sleeper
    omega
  obtain ⟨i, member⟩ := Finset.card_pos.mp some
  exact ⟨i, mem_readers.mp member⟩

/-- The first program and its child wait for a line each; two are typed, one is taken. -/
def twoReaders : List Action :=
  [.fork 0 [], .read, .read, .wait, .key 30, .key 28, .key 28, .schedule, .resume]

end Kernel

end LateOS
