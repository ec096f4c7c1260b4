import LateOS.Process.Turns
import LateOS.Whole.Resting

/-!
# The end of a command

A task that waits for its child in the whole kernel, where the child may also end in a page fault.
It has its turn, takes the child's page tables down, and goes on in its program with its own memory
as a resting task finds it.
-/
namespace LateOS

open Lib
open Kernel (Due Awaited Parked Dies distance)

namespace Os

variable {o o' : Os} {e : OsEvent} {a : Action} {k : Kernel} {c t : Int}

instance (o : Os) : ∀ e, Decidable (o.Schedules e)
  | .call a => inferInstanceAs (Decidable (o.kernel.CallsSchedule a))
  | .read _ => inferInstanceAs (Decidable (o.kernel.CallsSchedule .read))
  | .store v b => inferInstanceAs (Decidable (o.Faults (.store v b)))
  | .load v => inferInstanceAs (Decidable (o.Faults (.load v)))
  | .fork | .exec .. | .malloc _ | .fill .. => isFalse id

/-- Task `c` exits or is killed by another one, or a fault ends its program. -/
def Ends (c : Int) (o : Os) : OsEvent → Prop
  | .call a => Dies c o.kernel a
  | e => o.Faults e ∧ o.kernel.currentTask = c

/-- A step that does not kill task `t`. -/
def Spares (t : Int) (o : Os) (e : OsEvent) (o' : Os) : Prop :=
  o.ProperStep e o' ∧ e ≠ .call (.kill t)

/-! ## What other VMAs leave alone -/

variable {vm : List VmaStruct}

theorem remap_due (due : Due t k) : Due t (remap k vm) :=
  ⟨remap_rooted due.rooted vm, due.slot, (remap_fields k vm t).1.trans due.runs⟩

theorem remap_awaited (awaited : Awaited t c k) : Awaited t c (remap k vm) :=
  ⟨awaited.suspended, awaited.slot, (remap_fields k vm c).1.trans awaited.dead,
    (remap_fields k vm c).2.2.trans awaited.child, awaited.absent⟩

theorem remap_parked (parked : k.Parked) : (remap k vm).Parked := by
  intro t pid slot suspended live
  rw [(remap_fields k vm t).1] at live ⊢
  exact parked t pid slot suspended live

/-! ## The turn of a task -/

theorem due_countdown : Countdown (Spares t) Schedules (fun o => o.Sane ∧ Due t o.kernel)
    (fun o => o.kernel.currentTask = t) (fun o => distance t o.kernel) where
  keeps o e o' inv away taken := by
    obtain ⟨sane, due⟩ := inv
    obtain ⟨⟨ran, proper⟩, spared⟩ := taken
    refine ⟨sane.step proper ran, ?_⟩
    rcases step_acts sane ran with ⟨a, acts, acted⟩ | ⟨_, same | ⟨vm, _, same⟩⟩
    · exact Due.countdown.keeps _ a _ due away ⟨acted, acts.spares spared⟩
    · exact same ▸ due
    · exact same ▸ remap_due due
  holds o e o' inv away taken calls := by
    obtain ⟨sane, due⟩ := inv
    obtain ⟨⟨ran, proper⟩, spared⟩ := taken
    rcases step_acts sane ran with ⟨a, acts, acted⟩ | ⟨_, same | ⟨vm, _, same⟩⟩
    · exact Due.countdown.holds _ a _ due away ⟨acted, acts.spares spared⟩
        (fun scheduled => calls (acts.schedules.mpr scheduled))
    · exact Nat.le_of_eq (by rw [same])
    · exact Nat.le_of_eq (by rw [same]; rfl)
  drops o e o' inv away taken calls := by
    obtain ⟨sane, due⟩ := inv
    obtain ⟨⟨ran, proper⟩, spared⟩ := taken
    rcases step_acts sane ran with ⟨a, acts, acted⟩ | ⟨⟨quiet, _⟩, _⟩
    · exact Due.countdown.drops _ a _ due away ⟨acted, acts.spares spared⟩
        (acts.schedules.mp calls)
    · exact absurd calls quiet

theorem awaited_step (sane : o.Sane) (due : Due t o.kernel) (awaited : Awaited t c o.kernel)
    (away : o.kernel.currentTask ≠ t) (taken : Spares t o e o') : Awaited t c o'.kernel := by
  obtain ⟨⟨ran, proper⟩, spared⟩ := taken
  rcases step_acts sane ran with ⟨a, acts, acted⟩ | ⟨_, same | ⟨vm, _, same⟩⟩
  · exact awaited.step due away ⟨acted, acts.spares spared⟩
  · exact same ▸ awaited
  · exact same ▸ remap_awaited awaited

theorem parked_step (sane : o.Sane) (parked : o.kernel.Parked) (ran : o.Step e o') :
    o'.kernel.Parked := by
  rcases step_acts sane ran with ⟨a, _, acted⟩ | ⟨_, same | ⟨vm, _, same⟩⟩
  · exact parked.step acted
  · exact same ▸ parked
  · exact same ▸ remap_parked parked

/-! ## From the end of the child to the parent's program -/

theorem Ends.dies (ends : Ends c o e) (sane : o.Sane) (ran : o.Step e o') :
    ∃ a, Dies c o.kernel a ∧ o.kernel.Step a o'.kernel := by
  rcases step_acts sane ran with ⟨a, acts, acted⟩ | ⟨⟨quiet, other⟩, _⟩
  · cases acts with
    | call => exact ⟨a, ends, acted⟩
    | ends faults =>
      cases e with
      | store | load => exact ⟨.exit, .inl ⟨rfl, ends.2⟩, acted⟩
      | _ => exact faults.elim
    | fork | exec | read => exact ends.1.elim
  · cases e with
    | call b => exact absurd rfl (other b)
    | _ => exact absurd ends.1.schedules quiet

/-- In its turn the parent goes on in its call, which reaps the child; nothing else can happen. -/
theorem awaited_resumes (due : Due t o.kernel) (awaited : Awaited t c o.kernel)
    (here : o.kernel.currentTask = t) (ran : o.Step e o') : e = .call .resume := by
  have suspended : o.kernel.point o.kernel.currentTask = .waitpid c := by
    rw [here]
    exact awaited.suspended
  -- The parent is inside its call, so it makes no other step.
  have busy : ¬o.InProgram := by
    rintro ⟨top, _⟩
    rw [suspended] at top
    cases top
  cases e with
  | fork => exact absurd (Option.ite_none_right_eq_some.mp ran).1 busy
  | exec => exact absurd (Option.ite_none_right_eq_some.mp ran).1.1 busy
  | malloc => exact absurd (Option.ite_none_right_eq_some.mp ran).1 busy
  | store =>
    rw [Step, step, if_pos busy] at ran
    cases ran
  | load =>
    rw [Step, step, if_pos busy] at ran
    cases ran
  | read => exact absurd (Option.ite_none_right_eq_some.mp ran).1 busy
  | fill => exact absurd (Option.ite_none_right_eq_some.mp ran).1 busy
  | call a =>
    simp only [Step, step] at ran
    split at ran
    next => cases ran
    next =>
      obtain ⟨k, called, _⟩ := Option.bind_eq_some_iff.mp ran
      rw [((awaited.reaps due here).mp called).1]

/-- `removeProcess` comes to its end, and so does the call that the parent is in. -/
theorem awaited_reaps (sane : o.Sane) (due : Due t o.kernel) (awaited : Awaited t c o.kernel)
    (here : o.kernel.currentTask = t) : ∃ o', o.Step (.call .resume) o' ∧
      o'.kernel = o.kernel.reap c ∧ o.removeProcess c = some o'.machine := by
  obtain ⟨use, inv⟩ := sane.memory
  obtain ⟨m, removed, _⟩ := inv.deallocTask (sane.manned c awaited.slot (.inl awaited.dead))
  have removed : o.removeProcess c = some m := removed
  have called : o.kernel.step .resume = some (o.kernel.reap c) :=
    (awaited.reaps due here).mpr ⟨rfl, rfl⟩
  have reported : o.kernel.reported .resume = some c := by
    simp [Kernel.reported, here, awaited.suspended, here ▸ awaited.reapable due here]
  have table : ¬(Action.MakesSpace .resume ∨ Action.Reads .resume) := fun other => other.elim id id
  refine ⟨{ o with kernel := o.kernel.reap c, machine := m }, ?_, rfl, removed⟩
  rw [Step, step, if_neg table, called, Option.bind_eq_bind, Option.bind_some, reported]
  dsimp only
  rw [removed]
  rfl

/-- The end of a dead task takes nothing of the memory of the others. -/
theorem removeProcess_bytes {m : Machine} (sane : o.Sane) (user : o.space.User t) (other : t ≠ c)
    (slot : InTable c) (dead : (o.kernel.taskQueue c).state = .zombie)
    (removed : o.removeProcess c = some m) {v : Nat} {b : Byte} (address : UserAddress v)
    (byte : o.machine.byteAt (o.kernel.taskQueue t).pml4e v = some b) :
    m.byteAt (o.kernel.taskQueue t).pml4e v = some b := by
  obtain ⟨use, inv⟩ := sane.memory
  have reaped : o.space.Step (.reap c) ⟨m, setState o.kernel.taskQueue c .ready⟩ :=
    System.step_reap.mpr ⟨⟨sane.manned c slot (.inl dead), dead⟩, m, removed, rfl⟩
  -- What memory holds for the others is what it held, and the record of `t` is its own.
  have record : setState o.kernel.taskQueue c .ready t = o.kernel.taskQueue t :=
    Function.update_of_ne other _ _
  have user' : (⟨m, setState o.kernel.taskQueue c .ready⟩ : System).User t := by
    unfold System.User
    dsimp only
    rw [record]
    exact user
  have kept := (inv.step o.space.view_holds reaped).2 t v b user' address
    ((congrFun (Function.update_of_ne other _ _) v).trans byte)
  dsimp only at kept
  rwa [record] at kept

/-- The kernel behind the `exit` of the child. -/
def childGone : Os :=
  ((lastState (first withProgram) waiting).step (.call .exit)).getD (first withProgram)

/-- `init` and `idle` have their turns. -/
def others : List (OsEvent × Os) := follow step childGone [.call .wait, .call .schedule]

end Os

end LateOS
