import LateOS.Memory.Forking
import LateOS.Memory.HeapArea

/-!
# Validation of fault addresses

`checkValid` on lists of VMAs headed by that of the stack, which begins above its end.
-/
namespace LateOS

open Lib Machine

variable {vm : List VmaStruct} {node : VmaStruct} {ts : TaskStruct} {m : Machine} {v : Nat}

/-- The address is in the VMA of a segment or of the heap. -/
def VmaStruct.Contains (node : VmaStruct) (v : Nat) : Prop :=
  node.beginAddress ≤ v ∧ v < node.lastAddress

/-- The address is above the stack's limit and below the end of its first page. -/
def VmaStruct.StackContains (stack : VmaStruct) (v : Nat) : Prop :=
  stack.lastAddress < v ∧ v < stack.beginAddress + 0x1000

/-- The list is headed by a stack. -/
structure StackHeaded (vm : List VmaStruct) (stack : VmaStruct) : Prop where
  head : vm.head? = some stack
  down : stack.lastAddress < stack.beginAddress
  fits : stack.beginAddress + 0x1000 < 2 ^ 64

/-- The address belongs to the task. -/
def Covered (vm : List VmaStruct) (stack : VmaStruct) (v : Nat) : Prop :=
  (∃ node ∈ vm, node.Contains v) ∨ stack.StackContains v

/-- `checkValid` lets the task go on just with the addresses that belong to it. -/
structure Validated (vm : List VmaStruct) (stack : VmaStruct) (v : Nat) : Prop where
  accepts : Covered vm stack v → checkValid vm v = some true
  terminates : ¬Covered vm stack v → checkValid vm v = some false

theorem checkForVM_iff :
    checkForVM vm v = true ↔ ∃ node ∈ vm, node.beginAddress < v ∧ v < node.lastAddress := by
  simp only [checkForVM, List.any_eq_true, Bool.and_eq_true, decide_eq_true_eq]

/-- Both tests of `checkValid`; that of the segments leaves out the first byte. -/
theorem StackHeaded.checkValid_iff {stack : VmaStruct} (headed : StackHeaded vm stack) :
    ∃ valid, checkValid vm v = some valid ∧ (valid = true ↔
      stack.StackContains v ∨ ∃ node ∈ vm, node.beginAddress < v ∧ v < node.lastAddress) := by
  obtain ⟨head, _, fits⟩ := headed
  cases vm with
  | nil => cases head
  | cons first rest =>
    cases head
    refine ⟨_, rfl, ?_⟩
    rw [Nat.mod_eq_of_lt fits]
    unfold VmaStruct.StackContains
    split
    next inside => exact ⟨fun _ => Or.inl ⟨inside.2, inside.1⟩, fun _ => rfl⟩
    next outside =>
      rw [checkForVM_iff]
      constructor
      · exact Or.inr
      · rintro (⟨above, below⟩ | found)
        · exact absurd ⟨below, above⟩ outside
        · exact found

/-- A fault that `checkValid` refuses ends the task. -/
theorem isr14_refused (refused : checkValid ts.vm v = some false) : m.isr14 ts v = some .exited := by
  unfold Machine.isr14
  rw [refused]
  rfl

/-- The address is validated just when it is not the first byte of a VMA, or lies strictly within
another one or in the stack. -/
theorem checkValid_validates_iff {stack : VmaStruct} (headed : StackHeaded vm stack) :
    Validated vm stack v ↔ ∀ node ∈ vm, node.beginAddress = v → v < node.lastAddress →
      stack.StackContains v ∨ ∃ other ∈ vm, other.beginAddress < v ∧ v < other.lastAddress := by
  obtain ⟨valid, checked, exact⟩ := headed.checkValid_iff (v := v)
  constructor
  · intro ⟨accepts, _⟩ node member first below
    rw [checked] at accepts
    exact exact.mp (Option.some.inj (accepts (Or.inl ⟨node, member, Nat.le_of_eq first, below⟩)))
  · intro within
    refine ⟨fun covered => ?_, fun outside => ?_⟩
    · rw [checked, exact.mpr]
      rcases covered with ⟨node, member, above, below⟩ | stack
      · rcases Nat.eq_or_lt_of_le above with first | strict
        · exact within node member first below
        · exact Or.inr ⟨node, member, strict, below⟩
      · exact Or.inl stack
    · rw [checked, Option.some.injEq, ← Bool.not_eq_true]
      intro accepted
      refine outside ?_
      rcases exact.mp accepted with stack | ⟨node, member, above, below⟩
      · exact Or.inr stack
      · exact Or.inl ⟨node, member, Nat.le_of_lt above, below⟩

/-- A fault on the first byte of a VMA ends the task, whatever is mapped there. -/
theorem StackHeaded.first_byte {stack : VmaStruct} (headed : StackHeaded vm stack) (own : ts.vm = vm)
    (off : ¬stack.StackContains v)
    (alone : ∀ other ∈ vm, ¬(other.beginAddress < v ∧ v < other.lastAddress)) :
    m.isr14 ts v = some .exited := by
  obtain ⟨valid, checked, accepted⟩ := headed.checkValid_iff (v := v)
  refine isr14_refused ?_
  rw [own, checked, Option.some.injEq, ← Bool.not_eq_true]
  intro valid
  rcases accepted.mp valid with stack | ⟨other, member, inside⟩
  · exact off stack
  · exact alone other member inside

/-! ## A forked task with one segment -/

/-- The VMAs of a stack and of a segment of two pages. -/
def segmentList : List VmaStruct := [⟨stackS, stackEnd, 0⟩, ⟨0x400000, 0x402000, 0⟩]

def segmentOwner : TaskStruct := { bootQueue 2 with pml4e := 0x8000, vm := segmentList }

theorem segmentList_headed : StackHeaded segmentList ⟨stackS, stackEnd, 0⟩ :=
  ⟨rfl, by decide, by decide⟩

theorem checkValid_validates_second :
    Validated segmentList ⟨stackS, stackEnd, 0⟩ 0x400001 := by
  refine (checkValid_validates_iff segmentList_headed).mpr fun node member first _ => ?_
  simp only [segmentList, List.mem_cons, List.not_mem_nil, or_false] at member
  rcases member with rfl | rfl <;> exact absurd first (by decide)

/-- After the fork the parent writes to the first byte of its segment, and is ended. -/
theorem first_byte_refused : ∃ m m', bootMachine.initTaskPagetables 0x400000 0x9000 0x8000 = some m ∧
    m.copytables 0x8000 0xA000 = some m' ∧
    (∃ e, m'.translate 0x8000 0x400000 = some e ∧ Shared e) ∧
    ¬Validated segmentList ⟨stackS, stackEnd, 0⟩ 0x400000 ∧
    m'.isr14 segmentOwner 0x400000 = some .exited := by
  obtain ⟨m, ran, mapped, forkable⟩ := bootMachine_forkable
  have copied := bootMachine_copied
  rw [ran, Option.bind_some] at copied
  obtain ⟨m', both, _⟩ := Option.map_eq_some_iff.mp copied
  have shared : m'.translate 0x8000 0x400000 = some (share (0x9000 ||| 7)) := by
    rw [(forkable.twinned both).parent _ (by decide), mapped.here _ (.refl _), Option.map_some]
  refine ⟨m, m', ran, both, ⟨_, shared, shared_share _⟩, fun validated => ?_, ?_⟩
  · have accepted := validated.accepts
      (Or.inl ⟨⟨0x400000, 0x402000, 0⟩, by decide, by decide, by decide⟩)
    revert accepted
    decide
  · exact segmentList_headed.first_byte rfl (by unfold VmaStruct.StackContains; decide) (by decide)

end LateOS
