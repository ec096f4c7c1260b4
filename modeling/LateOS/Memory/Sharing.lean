import LateOS.Memory.References
import LateOS.Memory.Supply

/-!
# Counts of references after a copy

For the address spaces of two tasks in a sound memory, `copytables` counts each frame up as often
as the parent maps it.
-/
namespace LateOS

open Lib

namespace Machine

variable {m m' : Machine} {use : Word → Use} {rp rc f : Word}

/-- The count of a frame goes up once for each leaf entry of the parent that maps it. -/
theorem Sound.copytables_refCount (sound : m.Sound use) (parent : use rp = .table rp [])
    (child : use rc = .table rc []) (apart : rp ≠ rc) (blank : ∀ j, m.mem rc j = 0)
    (out : f ∉ m.head) (ran : m.copytables rp rc = some m') :
    m'.refCount f = m.refCount f + m.references 3 rp f userPages := by
  have slot := sound.copySlot parent child
  have pair : Pair (m.write rc 511 (m.mem rp 511)) (fun x => (use x).owner) rp rc [] 3 511 rp rc :=
    ⟨slot.tree, slot.directMap, Use.owner_eq.mpr parent, Use.owner_eq.mpr child, apart, rfl,
      by decide, fun _ => Nat.le_refl _,
      fun j below => by rw [write_mem, if_neg fun both => by omega, blank]⟩
  have counted := pair.refCount ran fun member => absurd member out
  have same : (m.write rc 511 (m.mem rp 511)).references 3 rp f userPages =
      m.references 3 rp f userPages := by
    refine references_congr (fun k small => ?_) f
    -- Slot 511 of the child is on no way to a page of the parent.
    have before : (m.write rc 511 (m.mem rp 511)).translate rp (4096 * k) =
        m.translate rp (4096 * k) :=
      sound.lookup_write child parent (innerPath_upper (user_of_page small)) fun same =>
        apart same.1
    rw [leafEntry_translate _ _ small, leafEntry_translate _ _ small, before]
  rw [counted, same]
  rfl

theorem Sound.copytables_stay (sound : m.Sound use) (parent : use rp = .table rp [])
    (child : use rc = .table rc []) (apart : rp ≠ rc) (blank : ∀ j, m.mem rc j = 0)
    (ran : m.copytables rp rc = some m') : TablesStay m use m' := by
  obtain ⟨use', done⟩ := sound.copytables_copied parent child apart blank ran
  intro x r p j table inner here
  -- The child's PML4 had no entries, and every other upper table is only read.
  have other : x ≠ rc := by
    rintro rfl
    rw [blank] at here
    cases here
  rw [done.upper x (by simp [table]) other fun q table' => ?_]
  · exact congrFun (write_mem_of_ne m rc 511 _ other) j
  · rw [table] at table'
    have shallow := inner.1
    rw [(Use.table.inj table').2] at shallow
    exact Nat.ne_of_lt shallow

end Machine

open Machine

variable {m m' : Machine} {use : Word → Use} {ts : TaskStruct} {rc : Word}

/-- What `copytask` does to the counts and to both tables. -/
structure Machine.Doubled (m : Machine) (use : Word → Use) (r rc : Word) (m' : Machine) : Prop where
  counts : ∀ f, f ∉ m.head → m'.refCount f = m.refCount f + m.references 3 r f userPages
  stay : TablesStay m use m'
  copied : ∀ v, UserAddress v → m'.translate rc v = (m.translate r v).map share ∧
    m'.translate r v = (m.translate r v).map share

theorem Machine.Sound.copySpace_doubled (sound : m.Sound use)
    (root : use ts.pml4e = .table ts.pml4e []) (ran : LateOS.copySpace ts m = some (rc, m')) :
    Doubled m use ts.pml4e rc m' := by
  obtain ⟨m1, m2, popped, copied, nodes⟩ := sound.copySpace_cases ran
  have taken := sound.getFreeFrame popped
  obtain ⟨own, before⟩ := taken.newRoot
  obtain ⟨apart, root1⟩ := taken.otherRoot root
  have blank : ∀ j, (m1.zero rc).mem rc j = 0 := fun j => by simp
  obtain ⟨use2, forked⟩ := own.sound.copytables root1 own.root apart blank copied
  have first : Handed m (m1.zero rc) := (getFreeFrame_handed popped).trans (.of_same rfl rfl)
  -- The nodes for the copied VMAs take frames and touch no tables.
  obtain ⟨sound3, last, same⟩ : m'.Sound use2 ∧ Handed m2 m' ∧ m'.mem = m2.mem := by
    refine loop_inv (I := fun _ s => s.Sound use2 ∧ Handed m2 s ∧ s.mem = m2.mem)
      ⟨forked.sound, .refl _, rfl⟩ ?_ nodes
    rintro _ s s' _ ⟨sound, handed, same⟩ ran
    obtain ⟨⟨g, s1⟩, node, rfl⟩ := Option.map_eq_some_iff.mp ran
    rw [sound.kmalloc_eq] at node
    have next := sound.getFreeFrame node
    exact ⟨next.sound, handed.trans (getFreeFrame_handed node), next.mem.trans same⟩
  have tables : m'.tables = m2.tables := by
    unfold Machine.tables
    rw [same]
  have earlier (w : Nat) : (m1.zero rc).translate ts.pml4e w = m.translate ts.pml4e w :=
    before.translate sound root (Set.notMem_empty _) w
  refine ⟨fun g out => ?_, ?_, fun v user => ?_⟩
  · have out1 : g ∉ (m1.zero rc).head := fun member => out (first.head.mem member)
    have refs : (m1.zero rc).references 3 ts.pml4e g userPages =
        m.references 3 ts.pml4e g userPages := by
      refine references_congr (fun k small => ?_) g
      rw [leafEntry_translate _ _ small, leafEntry_translate _ _ small, earlier]
    rw [last.rest g fun member => out1 (forked.within.head.mem member),
      own.sound.copytables_refCount root1 own.root apart blank out1 copied, first.rest g out, refs]
  · refine TablesStay.trans (.of_mem fun x r p table => ?_) before.kept
      (TablesStay.trans (own.sound.copytables_stay root1 own.root apart blank copied)
        forked.within.kept (.of_mem fun _ _ _ _ => by rw [same]))
    exact taken.zero_other (taken.ne (by simp [table]))
  · obtain ⟨child, parent⟩ := forked.copied v user
    rw [earlier] at child parent
    unfold translate at child parent ⊢
    rw [tables]
    exact ⟨child, parent⟩

end LateOS
