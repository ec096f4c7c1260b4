import LateOS.Memory.Exhaustion
import LateOS.Memory.Supply
import LateOS.Memory.View

/-!
# One page

Mapping a page in a page table that is a tree, whatever its entries map.
-/
namespace LateOS

open Lib

namespace Machine

variable {m m' : Machine} {r f : Word} {p path : List Nat} {i v : Nat}

theorem missingOn_le (m : Machine) (t : Word) (path : List Nat) :
    (m.missingOn t path).card ≤ path.length := by
  rw [← card_prefixes path]
  exact Finset.card_filter_le _ _

/-! ## One page -/

/-- The page of `v` is mapped to `f`, and nothing else is changed. -/
structure PageMapped (m : Machine) (r : Word) (v : Nat) (f : Word) (m' : Machine) : Prop where
  here : ∀ v', SamePage v v' → m'.translate r v' = some (f ||| 7)
  others : ∀ v', UserAddress v' → ¬SamePage v v' → m'.translate r v' = m.translate r v'
  shaped : m'.TreeShaped r
  spare : m'.Spare r
  slot : m'.mem r 511 = entry (m.mem m.pml4e 511) 7
  tables : ∀ x, m'.InTree r x → m.InTree r x ∨ x ∈ m.head
  aside : ∀ x, ¬m.InTree r x → x ∉ m.head → m'.mem x = m.mem x
  pml4e : m'.pml4e = m.pml4e
  pdpte : m'.pdpte = m.pdpte
  taken : ∃ k, k ≤ 3 ∧ m'.head = m.head.drop k

theorem TreeShaped.pageMapped (shaped : m.TreeShaped r) (spare : m.Spare r)
    (user : UserAddress v) (aligned : frame f = f)
    (ran : m.initTaskPagetables v f r = some m') : m.PageMapped r v f m' := by
  rw [initTaskPagetables_eq] at ran
  obtain ⟨⟨t, m2⟩, went, rfl⟩ := Option.map_eq_some_iff.mp ran
  have inner := innerPath_upper user
  have root := shaped.root
  have tree := shaped.tree spare
  have outside {x} : label m.tables Inner r x = none ↔ ¬m.InTree r x := label_none
  generalize label m.tables Inner r = own at root tree outside
  have first := tree.write root not_inner_slot (entry (m.mem m.pml4e 511) 7)
  obtain ⟨own', down⟩ := first.descend root inner went
  have rootKept : own' r = some (r, []) := (down.kept r (by simp [root])).trans root
  have leaf : ¬Inner ([] ++ upperPath v) (ptIndex v) := not_inner_leaf rfl
  have last := down.tree.write down.serves leaf (entry f 7)
  have handed : m2.head <:+ m.head := (descend_handed went).head
  have apart {x} (owns : own' x ≠ own' t) : (enter v f (t, m2)).mem x = m2.mem x :=
    write_mem_of_ne m2 t _ _ fun same => owns (same ▸ rfl)
  refine ⟨?_, ?_, last.shaped rootKept, last.spare rootKept, ?_, ?_, ?_, down.pml4e, down.pdpte, ?_⟩
  · intro v' same
    rw [down.tree.enter_here down.serves rootKept inner down.reached same, entry, ← frame, aligned]
  · intro v' user' apart
    rw [down.tree.enter_others down.serves rootKept user' fun both => apart both.2,
      ← tree.slot_translate root root user']
    exact down.lookups r r [] (upperPath v') (ptIndex v') root (innerPath_upper user') rfl
  · have user : pml4Index v < 511 := user
    rw [apart (by rw [rootKept, down.serves]; simp [upperPath]),
      down.beside 511 (by simp [upperPath]; omega), write_mem, if_pos ⟨rfl, rfl⟩]
  · rintro x ⟨path, inside, reached⟩
    by_contra apart
    obtain ⟨alone, spared⟩ := not_or.mp apart
    have owns := last.owned.walk rootKept inside reached
    exact spared (down.fresh x (outside.mpr alone) (by simp [owns]))
  · intro x alone spared
    have none := outside.mpr alone
    have old : x ≠ r := by
      rintro rfl
      rw [root] at none
      cases none
    have new : own' x ≠ own' t := by
      intro same
      refine spared (down.fresh x none ?_)
      rw [same, down.serves]
      simp
    rw [apart new, down.aside x none spared, write_mem_of_ne m r _ _ old]
  · have count := descend_head went
    change m.head.length = _ at count
    have few := missingOn_le (m.write r 511 (entry (m.mem m.pml4e 511) 7)) r (upperPath v)
    obtain ⟨front, split⟩ := handed
    refine ⟨front.length, ?_, ?_⟩
    · have length := congrArg List.length split
      rw [List.length_append] at length
      have three : (upperPath v).length = 3 := rfl
      omega
    · change m2.head = m.head.drop front.length
      have same : m.head = front ++ m2.head := split.symm
      rw [same, List.drop_left]

/-- Mapping a page takes a frame for each table that is missing. -/
theorem TreeShaped.initTaskPagetables_head (shaped : m.TreeShaped r) (spare : m.Spare r)
    (user : UserAddress v) (ran : m.initTaskPagetables v f r = some m') :
    m.head.length = m'.head.length + (m.missingOn r (upperPath v)).card :=
  (shaped.tree spare).mapOne_head shaped.root user ran

theorem TreeShaped.initTaskPagetables_enough (shaped : m.TreeShaped r) (spare : m.Spare r)
    (user : UserAddress v) (f : Word)
    (enough : (m.missingOn r (upperPath v)).card ≤ m.head.length) :
    ∃ m', m.initTaskPagetables v f r = some m' :=
  (shaped.tree spare).mapOne_enough shaped.root user f enough

/-- Three frames are enough. -/
theorem initTaskPagetables_returns (enough : 3 ≤ m.head.length) :
    ∃ m', m.initTaskPagetables v f r = some m' := by
  rw [initTaskPagetables_eq]
  have few := missingOn_le (m.write r 511 (entry (m.mem m.pml4e 511) 7)) r (upperPath v)
  obtain ⟨g, m', went⟩ := descend_enough (few.trans (Nat.le_trans (by simp [upperPath]) enough))
  rw [went]
  exact ⟨_, rfl⟩

/-- Mapping a page in a page table that is a tree: it returns when there are frames for the tables
that can be missing, and then the page is mapped, and nothing else. -/
theorem initTaskPagetables_maps (shaped : m.TreeShaped r) (spare : m.Spare r)
    (user : UserAddress v) (aligned : frame f = f) :
    (3 ≤ m.head.length → ∃ m', m.initTaskPagetables v f r = some m') ∧
      ∀ m', m.initTaskPagetables v f r = some m' → m.PageMapped r v f m' :=
  ⟨initTaskPagetables_returns, fun _ ran => shaped.pageMapped spare user aligned ran⟩

/-! ## The booted machine -/

/-- A walk does not leave a PML4 without entries. -/
theorem walk_blank_some (blank : ∀ i, m.mem r i = 0) (reached : m.tables.walk r p = some f) :
    p = [] := by
  refine (walk_blank blank).mp ?_
  rw [reached]
  rfl

theorem inTree_blank (blank : ∀ i, m.mem r i = 0) : m.InTree r f ↔ f = r := by
  constructor
  · rintro ⟨path, _, reached⟩
    rw [walk_blank_some blank reached] at reached
    cases reached
    rfl
  · rintro rfl
    exact ⟨[], trivial, rfl⟩

/-- A PML4 without entries is a tree. -/
theorem treeShaped_blank (blank : ∀ i, m.mem r i = 0) : m.TreeShaped r := by
  intro p q f _ _ reachedP reachedQ
  rw [walk_blank_some blank reachedP, walk_blank_some blank reachedQ]

theorem translate_blank (blank : ∀ i, m.mem r i = 0) : m.translate r v = none := by
  cases reached : m.tables.walk r (upperPath v) with
  | none => rw [translate, Tables.lookup, reached, Option.bind_none]
  | some t => cases walk_blank_some blank reached

theorem spare_blank (blank : ∀ i, m.mem r i = 0) (nodup : m.head.Nodup)
    (aligned : ∀ f ∈ m.head, frame f = f) (out : r ∉ m.head) : m.Spare r := by
  refine ⟨nodup, aligned, fun f member inTree => ?_⟩
  rw [inTree_blank blank] at inTree
  exact out (inTree ▸ member)

theorem bootMachine_low (low : f.toNat < 65536) : f ∉ bootMachine.head := by
  intro member
  obtain ⟨k, below, rfl⟩ := bootMachine_free member
  rw [bootFrame_toNat below] at low
  omega

/-- A frame below those of the free list, as PML4 of a task. -/
theorem bootMachine_blank : (∀ i, bootMachine.mem 0x8000 i = 0) ∧ bootMachine.Spare 0x8000 := by
  have blank (i : Nat) : bootMachine.mem 0x8000 i = 0 := by
    change bootMemory 0x8000 i = 0
    simp [bootMemory]
  exact ⟨blank, spare_blank blank bootMachine_sound.nodup bootMachine_sound.aligned
    (bootMachine_low (by decide))⟩

/-- Pages have been mapped for the PML4 at 0x8000, and nothing else has happened since the boot. -/
structure OverBoot (m : Machine) : Prop where
  shaped : m.TreeShaped 0x8000
  spare : m.Spare 0x8000
  suffix : m.head <:+ bootMachine.head
  outside : ∀ x : Word, x.toNat < 65536 → x ≠ 0x8000 → ¬m.InTree 0x8000 x
  kept : ∀ x : Word, x.toNat < 65536 → x ≠ 0x8000 → m.mem x = bootMachine.mem x
  pml4e : m.pml4e = bootMachine.pml4e
  pdpte : m.pdpte = bootMachine.pdpte

theorem overBoot : bootMachine.OverBoot := by
  obtain ⟨blank, spare⟩ := bootMachine_blank
  exact ⟨treeShaped_blank blank, spare, List.suffix_refl _,
    fun x _ other inTree => other ((inTree_blank blank).mp inTree), fun _ _ _ => rfl, rfl, rfl⟩

theorem OverBoot.low (laid : m.OverBoot) {x : Word} (low : x.toNat < 65536) : x ∉ m.head :=
  fun member => bootMachine_low low (laid.suffix.mem member)

theorem OverBoot.map (laid : m.OverBoot) (mapped : m.PageMapped 0x8000 v f m') : m'.OverBoot := by
  obtain ⟨k, _, left⟩ := mapped.taken
  refine ⟨mapped.shaped, mapped.spare, ?_, fun x low other inTree => ?_, fun x low other => ?_,
    mapped.pml4e.trans laid.pml4e, mapped.pdpte.trans laid.pdpte⟩
  · rw [left]
    exact (List.drop_suffix k m.head).trans laid.suffix
  · exact (mapped.tables x inTree).elim (laid.outside x low other) (laid.low low)
  · exact (mapped.aside x (laid.outside x low other) (laid.low low)).trans (laid.kept x low other)

/-- A page, and another one behind the same tables. -/
theorem bootMachine_pages : ∃ m m', bootMachine.initTaskPagetables 0x400000 0x9000 0x8000 = some m ∧
    m.initTaskPagetables 0x401000 0xB000 0x8000 = some m' ∧
    bootMachine.PageMapped 0x8000 0x400000 0x9000 m ∧ m.PageMapped 0x8000 0x401000 0xB000 m' := by
  obtain ⟨m, ran⟩ := initTaskPagetables_returns (m := bootMachine) (v := 0x400000) (f := 0x9000)
    (r := 0x8000) (by decide)
  have mapped := overBoot.shaped.pageMapped overBoot.spare (by decide) (by decide) ran
  obtain ⟨k, few, left⟩ := mapped.taken
  have laid := overBoot.map mapped
  have enough : 3 ≤ m.head.length := by
    have length : bootMachine.head.length = 96 := rfl
    rw [left, List.length_drop]
    omega
  obtain ⟨m', ran'⟩ := initTaskPagetables_returns (v := 0x401000) (f := 0xB000) (r := 0x8000) enough
  exact ⟨m, m', ran, ran', mapped, laid.shaped.pageMapped laid.spare (by decide) (by decide) ran'⟩

theorem initTaskPagetables_maps_boot : ∃ m m' : Machine,
    m.translate 0x8000 0x400000 = some 0x9007 ∧
    m.initTaskPagetables 0x401000 0xB000 0x8000 = some m' ∧
    m.PageMapped 0x8000 0x401000 0xB000 m' ∧ m'.translate 0x8000 0x400000 = some 0x9007 := by
  obtain ⟨m, m', _, ran, first, _⟩ := bootMachine_pages
  have laid := overBoot.map first
  have second := (initTaskPagetables_maps laid.shaped laid.spare (v := 0x401000) (f := 0xB000)
    (by decide) (by decide)).2 m' ran
  have here : m.translate 0x8000 0x400000 = some 0x9007 := first.here _ ⟨rfl, rfl⟩
  exact ⟨m, m', here, ran, second, (second.others _ (by decide) (by decide)).trans here⟩

/-- The kernel's slot 511 is open to the kernel alone, that of the task to user code as well. -/
theorem kernel_slot_differs : bootMachine.TreeShaped 0x8000 ∧ bootMachine.Spare 0x8000 ∧
    (∀ f ∈ bootMachine.head, bootMachine.DirectMapped f) ∧
    ∃ m', bootMachine.initTaskPagetables 0x400000 0x9000 0x8000 = some m' ∧
      m'.mem 0x8000 511 ≠ m'.mem bootMachine.pml4e 511 := by
  obtain ⟨blank, spare⟩ := bootMachine_blank
  refine ⟨treeShaped_blank blank, spare, bootMachine_sound.direct, ?_⟩
  obtain ⟨m', ran⟩ := initTaskPagetables_returns (m := bootMachine) (v := 0x400000) (f := 0x9000)
    (r := 0x8000) (by decide)
  have mapped := (treeShaped_blank blank).pageMapped spare (by decide) (by decide) ran
  have kernel := mapped.aside bootMachine.pml4e (by rw [inTree_blank blank]; decide)
    (bootMachine_low (by decide))
  refine ⟨m', ran, ?_⟩
  rw [mapped.slot, kernel]
  decide

end Machine

end LateOS
