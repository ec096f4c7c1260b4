import LateOS.Process.Zombie

/-!
# init at the root

What holds in every run, whatever is killed: slot 0 runs `in` and is its own parent, it is
never free and never current while dead, no other slot is its own parent, and the current
task's slot is not free.
-/
namespace LateOS

open Lib

namespace Kernel

variable {k k' : Kernel} {a : Action}

structure Rooted (k : Kernel) : Prop where
  seated : k.Seated
  loop : k.program 0 = .init
  rest : k.point 0 = .top ∨ k.point 0 = .wait
  parent : (k.taskQueue 0).ppid = 0
  taken : (k.taskQueue 0).state ≠ .ready
  awake : k.currentTask = 0 → (k.taskQueue 0).state ≠ .zombie
  selfParent : ∀ i, InTable i → (k.taskQueue i).ppid = i → i = 0
  used : k.self.state ≠ .ready

theorem Rooted.boot : Kernel.boot.Rooted := by
  refine ⟨Seated.boot, rfl, Or.inl rfl, rfl, by decide, by decide, ?_, by decide⟩
  intro i _ own
  exact own.symm

/-- What `in` does: it only waits. -/
private theorem Rooted.init_acts (rooted : k.Rooted) (here : k.currentTask = 0)
    (ran : k.Step a k') : k.Runs a .wait .wait := by
  have loop := rooted.loop
  have rest := rooted.rest
  rw [← here] at loop rest
  rcases step_iff.mp ran with ⟨top, ran⟩ | ⟨away, rfl, _⟩
  · rw [loop] at ran
    cases a <;> simp_all [call, Runs]
  · exact Or.inr ⟨rfl, rest.resolve_left away⟩

/-- The current task does not reap itself. -/
private theorem Rooted.reaps_other (rooted : k.Rooted)
    {i : Int} (dead : reapable k.taskQueue k.currentTask i = true) : i ≠ k.currentTask := by
  rintro rfl
  rw [reapable_iff] at dead
  -- Its parent would be itself, so it is slot 0, which is not dead while it is current.
  have root := rooted.selfParent _ rooted.seated.inside (dead.1.trans rooted.seated.own)
  rw [root] at dead
  exact rooted.awake root dead.2

/-- Slot 0 is never reaped. -/
private theorem Rooted.spares_init (rooted : k.Rooted) :
    reapable k.taskQueue k.currentTask 0 = false := by
  by_contra dead
  rw [Bool.not_eq_false] at dead
  have other := rooted.reaps_other dead
  rw [reapable_iff, rooted.parent] at dead
  exact other (dead.1.trans rooted.seated.own)

theorem Rooted.current_ne_child (rooted : k.Rooted) : k.currentTask ≠ newPID k.taskQueue :=
  newPID_ne rooted.seated.inside rooted.used

/-- Where the ppid of a new child comes from. -/
theorem Rooted.fork_ppid (rooted : k.Rooted) (pml4e : BitVec 64) (vm : List VmaStruct)
    (i : Int) : ((k.fork pml4e vm).taskQueue i).ppid =
      if i = newPID k.taskQueue then k.currentTask else (k.taskQueue i).ppid := by
  have own : (k.taskQueue k.currentTask).pid = k.currentTask := rooted.seated.own
  simp only [Kernel.fork, increaseChildCount_ppid,
    createChild_ppid _ _ _ _ _ rooted.current_ne_child, own]

private theorem Rooted.fork (rooted : k.Rooted) (pml4e : BitVec 64) (vm : List VmaStruct)
    (seated : (k.fork pml4e vm).Seated) : (k.fork pml4e vm).Rooted := by
  have root : (0 : Int) ≠ newPID k.taskQueue := newPID_ne (by decide) rooted.taken
  have self := rooted.current_ne_child
  have ppid := rooted.fork_ppid pml4e vm
  refine ⟨seated, ?_, ?_, ?_, ?_, ?_, ?_, ?_⟩
  · simpa [Kernel.fork, root] using rooted.loop
  · simpa [Kernel.fork, root] using rooted.rest
  · rw [ppid, if_neg root, rooted.parent]
  · rw [fork_state, if_neg root]
    exact rooted.taken
  · intro here
    rw [fork_state, if_neg root]
    exact rooted.awake here
  · intro i inside own
    rw [ppid] at own
    split at own
    next child => exact absurd (own.trans child) self
    next => exact rooted.selfParent i inside own
  · change ((k.fork pml4e vm).taskQueue k.currentTask).state ≠ .ready
    rw [fork_state, if_neg self]
    exact rooted.used

/-- A change frees no slot other than one that the current task reaps. -/
theorem freed_reapable {q : TaskQueue} {p : Point} {cut : Bool} (change : Change k a q p cut)
    {i : Int} (free : (q i).state = .ready) : (k.taskQueue i).state = .ready ∨
      reapable k.taskQueue k.currentTask i = true := by
  by_cases sets : k.SetsOwnState a
  · obtain ⟨s, live, _, after⟩ := change.own sets
    rw [after] at free
    split at free
    · subst free
      exact absurd live (by decide)
    · exact Or.inl free
  · rcases change.others sets i with same | ⟨_, runs⟩ | ⟨dead, _⟩ | ⟨_, zombie⟩
    · exact Or.inl (same.symm.trans free)
    · rw [runs] at free
      cases free
    · exact Or.inr dead
    · rw [zombie] at free
      cases free

/-- A change keeps a ppid or hands the slot to pid 0. -/
theorem ppid_kept_or_zero {q : TaskQueue} {p : Point} {cut : Bool} (change : Change k a q p cut)
    (i : Int) : (q i).ppid = (k.taskQueue i).ppid ∨ (q i).ppid = 0 := by
  rcases change.death_cases with ⟨_, same⟩ | ⟨_, rfl, _⟩ | ⟨pid, _, rfl, _⟩
  · exact Or.inl (same i)
  · rw [terminate_ppid]
    split
    · exact Or.inr rfl
    · exact Or.inl rfl
  · rw [terminate_ppid]
    split
    · exact Or.inr rfl
    · exact Or.inl rfl

/-- `in` is left at its loop or in `wait`, alive. -/
private theorem Rooted.init_change (rooted : k.Rooted) (here : k.currentTask = 0)
    (ran : k.Step a k') {q : TaskQueue} {p : Point} {cut : Bool} (change : Change k a q p cut) :
    (p = .top ∨ p = .wait) ∧ (q 0).state ≠ .zombie := by
  have acts := rooted.init_acts here ran
  have alive : ¬(a = .exit ∧ cut = true ∧ 0 = k.currentTask ∨ a = .kill 0) := by
    rcases acts with ⟨rfl, _⟩ | ⟨rfl, _⟩ <;> simp
  constructor
  · rcases acts with ⟨rfl, _⟩ | ⟨rfl, cut⟩ <;> cases change <;> simp_all [Runs]
  · intro zombie
    rcases change.zombie 0 zombie with before | died
    · exact rooted.awake here before
    · exact alive died

theorem Rooted.step (rooted : k.Rooted) (ran : k.Step a k') : k'.Rooted := by
  have seated := rooted.seated.step ran
  rcases step_cases ran with ⟨pml4e, vm, rfl, rfl⟩ | ⟨q, p, cut, change, moved⟩
  · exact rooted.fork pml4e vm seated
  · have own : (q k.currentTask).pid = k.currentTask :=
      (change.pid_eq _).trans rooted.seated.own
    -- Slot 0 is nobody's child but its own, and it does not reap itself.
    have taken : (q 0).state ≠ .ready := by
      intro free
      rcases freed_reapable change free with ready | dead
      · exact rooted.taken ready
      · rw [rooted.spares_init] at dead
        cases dead
    have used : (q k.currentTask).state ≠ .ready := by
      intro free
      rcases freed_reapable change free with ready | dead
      · exact rooted.used ready
      · exact rooted.reaps_other dead rfl
    have next : k'.currentTask = k.currentTask ∨ (q k'.currentTask).state = .running := by
      cases cut with
      | false => exact Or.inl (moved.current rfl)
      | true =>
        rcases moved.chosen rfl with ⟨_, runs⟩ | ⟨self, _⟩
        · exact Or.inr runs
        · exact Or.inl (self.trans own)
    refine ⟨seated, by rw [moved.program, rooted.loop], ?_, ?_, ?_, ?_, ?_, ?_⟩
    · rw [moved.point]
      by_cases here : k.currentTask = 0
      · rw [here, Function.update_self]
        exact (rooted.init_change here ran change).1
      · rw [Function.update_of_ne (Ne.symm here)]
        exact rooted.rest
    · rw [moved.queue]
      rcases ppid_kept_or_zero change 0 with kept | zero
      · rw [kept, rooted.parent]
      · exact zero
    · rw [moved.queue]
      exact taken
    · intro here
      rw [moved.queue]
      rcases next with same | runs
      · exact (rooted.init_change (same.symm.trans here) ran change).2
      · rw [here] at runs
        simp [runs]
    · intro i inside self
      rw [moved.queue] at self
      rcases ppid_kept_or_zero change i with kept | zero
      · exact rooted.selfParent i inside (kept.symm.trans self)
      · exact self.symm.trans zero
    · rw [Kernel.self, moved.queue]
      rcases next with same | runs
      · rw [same]
        exact used
      · simp [runs]

end Kernel

end LateOS
