import LateOS.Memory.Fault
import LateOS.Memory.HeapArea
import LateOS.Memory.OnePage

/-!
# Stack growth

Faults below the pages that the stack has, on page tables of which nothing is known but that they
are a tree.
-/
namespace LateOS

open Lib

namespace Machine

variable {m m' : Machine} {ts : TaskStruct} {r f w : Word} {v : Nat}

/-- `isr14` takes the fault for a write to a shared page. -/
def CopiesOnWrite (m : Machine) (ts : TaskStruct) (v : Nat) : Prop :=
  checkValid ts.vm v = some true ∧ m.mem (m.getPTE ts.pml4e v) (ptIndex v) &&& 512 ≠ 0

/-- A fault in the stack's range, on a page that is not there. The stack's own first page ends
before the last address. -/
structure StackFault (m : Machine) (ts : TaskStruct) (v : Nat) : Prop where
  range : ∃ stack rest, ts.vm = stack :: rest ∧ stack.beginAddress + 0x1000 < 2 ^ 64 ∧
    stack.lastAddress < v ∧ v < stack.beginAddress
  user : UserAddress v
  shaped : m.TreeShaped ts.pml4e
  spare : m.Spare ts.pml4e
  absent : m.translate ts.pml4e v = none

/-- The task goes on with the page mapped to a frame from the free list, and all others as they
were. -/
structure StackGrown (m : Machine) (ts : TaskStruct) (v : Nat) : Prop where
  grown : ∃ f m', m.isr14 ts v = some (.resumed m') ∧ f ∈ m.head ∧ f ∉ m'.head ∧
    (∀ v', SamePage v v' → m'.translate ts.pml4e v' = some (f ||| 7)) ∧
    ∀ v', UserAddress v' → ¬SamePage v v' →
      m'.translate ts.pml4e v' = m.translate ts.pml4e v'
  marked : m.CopiesOnWrite ts v → ∃ e, m.translate ts.pml4e v = some e ∧ e &&& 512 ≠ 0

theorem StackFault.valid (fault : m.StackFault ts v) : checkValid ts.vm v = some true := by
  obtain ⟨stack, rest, vm, fits, above, below⟩ := fault.range
  rw [vm, checkValid, if_pos ⟨by omega, above⟩]

theorem isr14_copies (copies : m.CopiesOnWrite ts v) :
    m.isr14 ts v = (m.copyNewMemory ts.pml4e v).map .resumed := isr14_marked copies.1 copies.2

theorem StackFault.grows (fault : m.StackFault ts v)
    (clear : m.mem (m.getPTE ts.pml4e v) (ptIndex v) &&& 512 = 0) :
    m.isr14 ts v = (m.copyFromPML4 ts.pml4e v).map .resumed := by
  obtain ⟨stack, rest, vm, fits, above, below⟩ := fault.range
  unfold isr14
  simp only [fault.valid]
  change (if (m.mem (m.getPTE ts.pml4e v) (ptIndex v) &&& 512 != 0) = true then _ else _) = _
  rw [if_neg fun set => bne_iff_ne.mp set clear, vm]
  exact if_pos ⟨below, above⟩

/-- The handler grows the stack exactly when the word it reads for the leaf entry is not marked and
there are frames for the page and for the tables that are missing. -/
theorem isr14_grows_iff (fault : m.StackFault ts v) :
    m.StackGrown ts v ↔ m.mem (m.getPTE ts.pml4e v) (ptIndex v) &&& 512 = 0 ∧
      (m.missingOn ts.pml4e (upperPath v)).card + 1 ≤ m.head.length := by
  have tree := fault.shaped.tree fault.spare
  have root := fault.shaped.root
  have page := pageOf_samePage v
  have user := user_page fault.user
  -- What `copyFromPML4` does once it has a frame for the page.
  have mapsTo {f : Word} {m1 m' : Machine} (popped : m.getFreeFrame = some (f, m1))
      (ran : m1.initTaskPagetables (pageOf v) f ts.pml4e = some m') :
      m1.PageMapped ts.pml4e (pageOf v) f m' := by
    have picked := tree.getFreeFrame popped
    exact (picked.tree.shaped root).pageMapped (picked.tree.spare root) user picked.aligned ran
  have missing {f : Word} {m1 : Machine} (popped : m.getFreeFrame = some (f, m1)) :
      m1.missingOn ts.pml4e (upperPath (pageOf v)) = m.missingOn ts.pml4e (upperPath v) := by
    have same : m1.tables = m.tables := by
      unfold tables
      rw [(tree.getFreeFrame popped).mem]
    unfold missingOn
    rw [same, page.1]
  constructor
  · rintro ⟨⟨f, m', ran, _⟩, marked⟩
    have clear : m.mem (m.getPTE ts.pml4e v) (ptIndex v) &&& 512 = 0 := by
      by_contra set
      obtain ⟨e, found, _⟩ := marked ⟨fault.valid, set⟩
      rw [fault.absent] at found
      cases found
    rw [fault.grows clear] at ran
    obtain ⟨s, copied, _⟩ := Option.map_eq_some_iff.mp ran
    obtain ⟨⟨g, m1⟩, popped, mapped⟩ := Option.bind_eq_some_iff.mp copied
    have picked := tree.getFreeFrame popped
    have spent := (picked.tree.shaped root).initTaskPagetables_head (picked.tree.spare root) user
      mapped
    rw [missing popped] at spent
    refine ⟨clear, ?_⟩
    rw [picked.head, List.length_cons]
    omega
  · rintro ⟨clear, enough⟩
    obtain ⟨f, m1, popped, fewer⟩ := getFreeFrame_total (m := m) (by omega)
    have picked := tree.getFreeFrame popped
    obtain ⟨m', ran⟩ := (picked.tree.shaped root).initTaskPagetables_enough
      (picked.tree.spare root) user f (by rw [missing popped]; omega)
    have mapped := mapsTo popped ran
    have copied : m.copyFromPML4 ts.pml4e v = some m' := by
      unfold copyFromPML4
      rw [popped]
      exact ran
    obtain ⟨k, _, left⟩ := mapped.taken
    refine ⟨⟨f, m', ?_, picked.member, fun member => ?_, fun v' same => ?_, fun v' user' apart => ?_⟩,
      fun copies => absurd clear copies.2⟩
    · rw [fault.grows clear, copied, Option.map_some]
    · rw [left] at member
      exact picked.out (List.mem_of_mem_drop member)
    · exact mapped.here v' (page.trans same)
    · rw [mapped.others v' user' fun same => apart (page.symm.trans same)]
      unfold translate tables
      rw [picked.mem]

/-! ## A task with the first page of its stack -/

/-- A page of the stack under the next leaf table, which is missing. -/
def nextTablePage : Nat := stackS - 4096 * 500

/-- Word 508 of physical frame 0 is `w`, and the task is as `createNewTask` leaves it. -/
def stackTask (w : Word) : Option Machine :=
  (bootMachine.write 0 508 w).initTaskPagetables stackS 0x9000 0x8000

def stackOwner : TaskStruct := { bootQueue 2 with pml4e := 0x8000, vm := [⟨stackS, stackEnd, 0⟩] }

theorem stackTask_fault (w : Word) :
    ∃ m, stackTask w = some m ∧ m.StackFault stackOwner nextTablePage := by
  have blank (i : Nat) : (bootMachine.write 0 508 w).mem 0x8000 i = 0 := by
    rw [write_mem, if_neg fun both => absurd both.1 (by decide)]
    exact bootMachine_blank.1 i
  have spare := spare_blank blank bootMachine_sound.nodup bootMachine_sound.aligned
    (bootMachine_low (by decide))
  obtain ⟨m, ran⟩ := initTaskPagetables_returns (m := bootMachine.write 0 508 w) (v := stackS)
    (f := 0x9000) (r := 0x8000) (show 3 ≤ bootMachine.head.length by decide)
  have mapped := (treeShaped_blank blank).pageMapped spare (by decide) (by decide) ran
  refine ⟨m, ran, ⟨_, _, rfl, by decide, by decide, by decide⟩, by decide, mapped.shaped, mapped.spare, ?_⟩
  refine (mapped.others nextTablePage (by decide) fun same => absurd same.2 (by decide)).trans ?_
  exact translate_blank blank

/-- The word that the handler reads is the one in physical frame 0. -/
theorem stackTask_word (marked : w ∈ [0, 0x200]) : (stackTask w).map (fun m =>
    (m.mem (m.getPTE 0x8000 nextTablePage) (ptIndex nextTablePage), m.head.length)) =
      some (w, 93) := by
  simp only [List.mem_cons, List.not_mem_nil, or_false] at marked
  rcases marked with rfl | rfl <;> decide +kernel

theorem isr14_grows_iff_of_clear :
    ∃ m, stackTask 0 = some m ∧ m.StackGrown stackOwner nextTablePage := by
  obtain ⟨m, ran, fault⟩ := stackTask_fault 0
  have facts := stackTask_word (w := 0) (by decide)
  rw [ran, Option.map_some] at facts
  obtain ⟨word, frames⟩ := Prod.mk.inj (Option.some.inj facts)
  refine ⟨m, ran, (isr14_grows_iff fault).mpr ⟨?_, ?_⟩⟩
  · change m.mem (m.getPTE 0x8000 nextTablePage) (ptIndex nextTablePage) &&& 512 = 0
    rw [word]
    decide
  · have few := missingOn_le m stackOwner.pml4e (upperPath nextTablePage)
    have three : (upperPath nextTablePage).length = 3 := rfl
    omega

/-- The leaf table is missing, and what is read for the leaf entry lies in physical frame 0. -/
theorem stack_not_grown : ∃ m, stackTask 0x200 = some m ∧ m.StackFault stackOwner nextTablePage ∧
    m.head.length = 93 ∧ ¬m.StackGrown stackOwner nextTablePage := by
  obtain ⟨m, ran, fault⟩ := stackTask_fault 0x200
  have facts := stackTask_word (w := 0x200) (by decide)
  rw [ran, Option.map_some] at facts
  obtain ⟨word, frames⟩ := Prod.mk.inj (Option.some.inj facts)
  refine ⟨m, ran, fault, frames, fun grown => ?_⟩
  have copies : m.CopiesOnWrite stackOwner nextTablePage := by
    refine ⟨fault.valid, ?_⟩
    change m.mem (m.getPTE 0x8000 nextTablePage) (ptIndex nextTablePage) &&& 512 ≠ 0
    rw [word]
    decide
  obtain ⟨f, m', resumed, _⟩ := grown.grown
  rw [isr14_copies copies, copyNewMemory_absent fault.absent] at resumed
  cases resumed

end Machine

end LateOS
