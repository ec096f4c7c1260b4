import Mathlib.Data.Set.BooleanAlgebra
import Mathlib.Order.CompletePartialOrder
import LateOS.Memory.Isolation

/-!
# Separate address spaces

What the invariant of the tasks in memory says about any state of a run: the tasks' tables are
trees that share nothing, and a page that a task may write is mapped nowhere else.
-/
namespace LateOS

open Lib Machine

namespace System

variable (s : System)

/-- The frames of the tables under slots 0 to 510 of a task's PML4, and of the PML4 itself. -/
def tableFrames (i : Int) : Set Word :=
  {f | ∃ path, InnerPath Inner [] path ∧
    s.machine.tables.walk (s.taskQueue i).pml4e path = some f}

/-- The frames that a task maps as pages of user code. -/
def dataFrames (i : Int) : Set Word :=
  {f | ∃ v e, UserAddress v ∧ s.machine.translate (s.taskQueue i).pml4e v = some e ∧ frame e = f}

/-- What the tasks read now. -/
def view : Memories := fun i v => s.machine.byteAt (s.taskQueue i).pml4e v

theorem view_holds : Holds s.view s := fun _ _ _ _ _ expected => expected

end System

variable {s : System} {use : Word → Use} {i j : Int} {f : Word} {v w : Nat} {e e' : Word}

/-! ## Tables -/

theorem Consistent.table_use (inv : Consistent s use) (user : s.User i)
    (member : f ∈ s.tableFrames i) : ∃ path, use f = .table (s.taskQueue i).pml4e path := by
  obtain ⟨path, inner, reached⟩ := member
  exact ⟨[] ++ path, inv.sound.walk_use (inv.root i user) inner reached⟩

theorem Consistent.data_use (inv : Consistent s use) (user : s.User i)
    (member : f ∈ s.dataFrames i) : use f = .data := by
  obtain ⟨v, e, address, found, rfl⟩ := member
  exact (inv.sound.translate_facts (inv.root i user) address found).2.1

theorem Consistent.tables_disjoint (inv : Consistent s use) (userI : s.User i) (userJ : s.User j)
    (other : i ≠ j) : Disjoint (s.tableFrames i) (s.tableFrames j) := by
  rw [Set.disjoint_left]
  intro f memberI memberJ
  obtain ⟨p, servesI⟩ := inv.table_use userI memberI
  obtain ⟨q, servesJ⟩ := inv.table_use userJ memberJ
  rw [servesI] at servesJ
  -- One frame serves one path below one PML4.
  injection servesJ with root _
  exact other (inv.apart i j userI userJ root)

theorem Consistent.tables_data (inv : Consistent s use) (userI : s.User i) (userJ : s.User j) :
    Disjoint (s.tableFrames i) (s.dataFrames j) := by
  rw [Set.disjoint_left]
  intro f memberI memberJ
  obtain ⟨p, serves⟩ := inv.table_use userI memberI
  rw [inv.data_use userJ memberJ] at serves
  cases serves

/-- The tasks of the kernel have its own PML4. -/
theorem Consistent.deallocTask (inv : Consistent s use) (user : s.User i) :
    ∃ m', s.machine.deallocTask (s.taskQueue i).pml4e = some m' ∧
      (∀ v, UserAddress v → m'.translate (s.taskQueue i).pml4e v = none) ∧
      m'.mem (s.taskQueue i).pml4e 511 = s.machine.mem (s.taskQueue i).pml4e 511 ∧
      (∀ j, s.User j → j ≠ i → ∀ v,
        m'.translate (s.taskQueue j).pml4e v = s.machine.translate (s.taskQueue j).pml4e v) ∧
      ∀ v, m'.translate s.machine.pml4e v = s.machine.translate s.machine.pml4e v := by
  obtain ⟨m', ran, down⟩ := inv.sound.deallocTask (inv.root i user)
  refine ⟨m', ran, fun v address => down.unmapped address, down.rest 511 (Nat.le_refl _), ?_,
    fun v => down.within.translate_kernel inv.sound v⟩
  intro j userJ other v
  exact down.within.translate inv.sound (inv.root j userJ) (inv.away user j other userJ) v

/-- Page-table trees stay separate, and one can be torn down without the others and without the
tables of the kernel. -/
theorem System.trees_separate {run : List (Request × System)} (booted : Booted s)
    (along : Along System.Step s run) :
    let t := lastState s run
    (∀ i j, t.User i → t.User j → i ≠ j → Disjoint (t.tableFrames i) (t.tableFrames j)) ∧
    (∀ i j, t.User i → t.User j → Disjoint (t.tableFrames i) (t.dataFrames j)) ∧
    ∀ i, t.User i → ∃ m', t.machine.deallocTask (t.taskQueue i).pml4e = some m' ∧
      (∀ v, UserAddress v → m'.translate (t.taskQueue i).pml4e v = none) ∧
      m'.mem (t.taskQueue i).pml4e 511 = t.machine.mem (t.taskQueue i).pml4e 511 ∧
      (∀ j, t.User j → j ≠ i → ∀ v,
        m'.translate (t.taskQueue j).pml4e v = t.machine.translate (t.taskQueue j).pml4e v) ∧
      ∀ v, m'.translate t.machine.pml4e v = t.machine.translate t.machine.pml4e v := by
  obtain ⟨use, inv⟩ := Consistent.run booted.consistent along
  refine ⟨?_, ?_, ?_⟩
  · exact fun i j userI userJ other => inv.tables_disjoint userI userJ other
  · exact fun i j userI userJ => inv.tables_data userI userJ
  · exact fun i user => inv.deallocTask user

theorem System.trees_separate_of_fork :
    let t := lastState System.boot forkRun
    Disjoint (t.tableFrames 2) (t.tableFrames 3) ∧ Disjoint (t.tableFrames 2) (t.dataFrames 3) ∧
    ∃ m', t.machine.deallocTask (t.taskQueue 3).pml4e = some m' ∧
      (∀ v, m'.translate (t.taskQueue 2).pml4e v = t.machine.translate (t.taskQueue 2).pml4e v) ∧
      ∀ v, m'.translate t.machine.pml4e v = t.machine.translate t.machine.pml4e v := by
  obtain ⟨parent, child⟩ := forkRun_users
  obtain ⟨tables, data, teardown⟩ := System.trees_separate System.boot_booted forkRun_along
  obtain ⟨m', ran, _, _, others, kernel⟩ := teardown 3 child
  exact ⟨tables 2 3 parent child (by decide), data 2 3 parent child, m', ran,
    others 2 parent (by decide), kernel⟩

/-! ## Pages -/

/-- A frame that is mapped at two pages is shared at both. -/
theorem Consistent.mapped_twice (inv : Consistent s use) (userI : s.User i) (userJ : s.User j)
    (addressV : UserAddress v) (addressW : UserAddress w)
    (foundV : s.machine.translate (s.taskQueue i).pml4e v = some e)
    (foundW : s.machine.translate (s.taskQueue j).pml4e w = some e')
    (same : frame e = frame e') (twice : ¬(i = j ∧ SamePage v w)) : Shared e ∧ Shared e' := by
  rcases inv.sound.frames_apart (inv.root i userI) (inv.root j userJ) addressV addressW foundV
    foundW same with ⟨roots, page⟩ | shared
  · exact absurd ⟨inv.apart i j userI userJ roots, page⟩ twice
  · exact shared

/-- A page that may be written is mapped once. -/
theorem Consistent.writable_once (inv : Consistent s use) (userI : s.User i) (userJ : s.User j)
    (addressV : UserAddress v) (addressW : UserAddress w)
    (foundV : s.machine.translate (s.taskQueue i).pml4e v = some e)
    (foundW : s.machine.translate (s.taskQueue j).pml4e w = some e')
    (same : frame e = frame e') (writable : e &&& 2 ≠ 0) : i = j ∧ SamePage v w := by
  by_contra twice
  exact writable (inv.mapped_twice userI userJ addressV addressW foundV foundW same twice).1.1

/-- A store that faults and is not the end of its task goes through when it is taken again. -/
theorem Consistent.retried (inv : Consistent s use) (user : s.User i)
    (refused : ¬s.machine.permits 7 (s.taskQueue i).pml4e v) {m : Machine}
    (resumed : s.machine.isr14 (s.taskQueue i) v = some (.resumed m)) :
    m.permits 7 (s.taskQueue i).pml4e v = true := by
  have root := inv.root i user
  obtain ⟨use', repaired⟩ := inv.sound.isr14 root (inv.layout i user).user
    (fun address e found => inv.sound.not_writable root refused address found) resumed
  exact repaired.writable

/-- Copy-on-write isolation: a writable page is mapped once, a page that is mapped twice is
marked in both places, and whatever follows, the tasks read what private memories would hold. -/
theorem System.copy_on_write {run : List (Request × System)} (booted : Booted s)
    (along : Along System.Step s run) :
    let t := lastState s run
    (∀ i j v w e e', t.User i → t.User j → UserAddress v → UserAddress w →
      t.machine.translate (t.taskQueue i).pml4e v = some e →
      t.machine.translate (t.taskQueue j).pml4e w = some e' → frame e = frame e' →
        (e &&& 2 ≠ 0 → i = j ∧ SamePage v w) ∧
        (¬(i = j ∧ SamePage v w) → Shared e ∧ Shared e')) ∧
    (∀ more, Along System.Step t more → Holds (replay t.view t more) (lastState t more)) ∧
    ∀ i v m, t.User i → ¬t.machine.permits 7 (t.taskQueue i).pml4e v →
      t.machine.isr14 (t.taskQueue i) v = some (.resumed m) →
        m.permits 7 (t.taskQueue i).pml4e v = true := by
  obtain ⟨use, inv⟩ := Consistent.run booted.consistent along
  refine ⟨?_, ?_, ?_⟩
  · intro i j v w e e' userI userJ addressV addressW foundV foundW same
    exact ⟨inv.writable_once userI userJ addressV addressW foundV foundW same,
      inv.mapped_twice userI userJ addressV addressW foundV foundW same⟩
  · exact fun more continued => Holds.run ⟨use, inv⟩ (lastState s run).view_holds continued
  · exact fun i v m user refused resumed => inv.retried user refused resumed

/-- Parent and child have their stacks in one frame, and the child may not write it. -/
theorem forkRun_stacks : let t := lastState System.boot forkRun
    ((t.taskQueue 2).pml4e = 0x10000 ∧ (t.taskQueue 3).pml4e = 0x17000) ∧
    t.machine.Walk 0x10000 (stackS + 16) 0x13007 0x14007 0x15007 0x12205 ∧
    t.machine.Walk 0x17000 (stackS + 16) 0x18007 0x19007 0x1A007 0x12205 ∧
    ¬t.machine.permits 7 (t.taskQueue 3).pml4e (stackS + 16) ∧
    checkValid (t.taskQueue 3).vm (stackS + 16) = some true ∧
    t.machine.mem (t.machine.getPTE (t.taskQueue 3).pml4e (stackS + 16)) (ptIndex (stackS + 16)) &&&
      512 ≠ 0 ∧
    (t.machine.copyNewMemory (t.taskQueue 3).pml4e (stackS + 16)).isSome := by
  decide +kernel

/-- The child stores into its stack. It faults, gets a copy and stores into that. -/
theorem System.copy_on_write_of_fork :
    let t := lastState System.boot forkRun
    ∃ e e' m t', t.machine.translate (t.taskQueue 2).pml4e (stackS + 16) = some e ∧
      t.machine.translate (t.taskQueue 3).pml4e (stackS + 16) = some e' ∧ frame e = frame e' ∧
      Shared e ∧ Shared e' ∧
      Along System.Step t [(.store 3 (stackS + 16) 9, { t with machine := m }),
        (.store 3 (stackS + 16) 9, t')] ∧
      t'.machine.byteAt (t'.taskQueue 3).pml4e (stackS + 16) = some 9 ∧
      t'.machine.byteAt (t'.taskQueue 2).pml4e (stackS + 16) =
        t.machine.byteAt (t.taskQueue 2).pml4e (stackS + 16) := by
  have facts := forkRun_stacks
  have users := forkRun_users
  have isolated := System.copy_on_write System.boot_booted forkRun_along
  generalize lastState System.boot forkRun = t at facts users isolated ⊢
  obtain ⟨⟨root, root'⟩, walk, walk', refused, valid, marked, copies⟩ := facts
  obtain ⟨parent, child⟩ := users
  obtain ⟨apart, continued, retried⟩ := isolated
  have address : UserAddress (stackS + 16) := by decide
  have found : t.machine.translate (t.taskQueue 2).pml4e (stackS + 16) = some 0x12205 := by
    rw [root]
    exact walk.translate
  have found' : t.machine.translate (t.taskQueue 3).pml4e (stackS + 16) = some 0x12205 := by
    rw [root']
    exact walk'.translate
  obtain ⟨shared, shared'⟩ := (apart 2 3 _ _ _ _ parent child address address found found' rfl).2
    fun both => absurd both.1 (by decide)
  -- The fault copies the page, and the store goes through when it is taken again.
  obtain ⟨m, copied⟩ := Option.isSome_iff_exists.mp copies
  have resumed : t.machine.isr14 (t.taskQueue 3) (stackS + 16) = some (.resumed m) := by
    rw [Machine.isr14_marked valid marked]
    exact Option.map_eq_some_iff.mpr ⟨m, copied, rfl⟩
  have allowed := retried 3 (stackS + 16) m child refused resumed
  obtain ⟨w, mapped, _⟩ := Machine.translate_of_permits (by decide) allowed
  obtain ⟨m', stored⟩ : ∃ m', m.storeByte (t.taskQueue 3).pml4e (stackS + 16) 9 = some m' :=
    ⟨_, by rw [Machine.storeByte, mapped]; rfl⟩
  have steps : Along System.Step t [(.store 3 (stackS + 16) 9, { t with machine := m }),
      (.store 3 (stackS + 16) 9, { t with machine := m' })] := by
    refine (along_cons ..).mpr ⟨?_, (along_cons ..).mpr ⟨?_, along_nil _ _⟩⟩
    · exact System.step_store.mpr ⟨child, .inr ⟨refused, System.fault_iff.mpr
        (.inr ⟨m, resumed, rfl⟩)⟩⟩
    · exact System.step_store.mpr ⟨child, .inl ⟨allowed, m', stored, rfl⟩⟩
  have same : SameByte (stackS + 16) (stackS + 16) := ⟨⟨rfl, rfl⟩, rfl⟩
  have holds := continued _ steps
  refine ⟨_, _, m, { t with machine := m' }, found, found', rfl, shared, shared', steps, ?_, ?_⟩
  · refine holds 3 (stackS + 16) 9 child address ?_
    rw [replay, replay, replay, record, record, if_neg refused]
    rw [if_pos allowed, if_pos ⟨rfl, same⟩]
  · obtain ⟨b, byte⟩ : ∃ b, t.machine.byteAt (t.taskQueue 2).pml4e (stackS + 16) = some b :=
      ⟨_, by rw [Machine.byteAt, found]; rfl⟩
    refine (holds 2 (stackS + 16) b parent address ?_).trans byte.symm
    simp only [replay, record, if_neg refused]
    rw [if_pos allowed, if_neg fun both => absurd both.1 (by decide)]
    exact byte

end LateOS
