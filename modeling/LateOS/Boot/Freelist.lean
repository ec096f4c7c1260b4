import LateOS.Lib.LinkedList
import LateOS.Memory.Entry

/-!
# The list of free frames

`initializeFreelist` threads a list through `pagelist`, one entry for each frame that the boot
loader reports as usable and that lies above the kernel.
-/
namespace LateOS

open Lib

/-- An entry of `pagelist`. A pointer into the array is an index. -/
structure FreeNode where
  address : Nat
  refCount : Int
  next : Option Nat

structure Freelist where
  pagelist : Nat → FreeNode
  head : Option Nat

/-- `pagelist` in the zeroed memory of the kernel. -/
def Freelist.zeroed : Freelist where
  pagelist := fun _ => { address := 0, refCount := 0, next := none }
  head := none

/-- The head of an empty list is NULL, and so is what it points at. -/
def Freelist.getFreeFrame (fl : Freelist) : Option (Nat × Freelist) :=
  match fl.head with
  | none => none
  | some i =>
    let node := { fl.pagelist i with refCount := 1 }
    some (node.address,
      { pagelist := Function.update fl.pagelist i node, head := node.next })

/-- `copytables` counts the tasks that map a frame. -/
def Freelist.addRef (fl : Freelist) (i : Nat) : Freelist :=
  let node := { fl.pagelist i with refCount := (fl.pagelist i).refCount + 1 }
  { fl with pagelist := Function.update fl.pagelist i node }

/-- The fields of an entry whose frame is listed. -/
def newNode (base : Nat) : FreeNode := { address := base, refCount := 0, next := none }

/-- `last->next = &pagelist[index]`. -/
def setNext (pagelist : Nat → FreeNode) (last index : Nat) : Nat → FreeNode :=
  Function.update pagelist last { pagelist last with next := some index }

/-! ## The memory map -/

/-- `smap_t`. -/
structure Smap where
  base : Word
  length : Word
  type : BitVec 32

/-- A sum as `uint64_t`. -/
@[irreducible] def wrap (n : Nat) : Nat := n % 2 ^ 64

theorem wrap_of_lt {n : Nat} (fits : n < 2 ^ 64) : wrap n = n := by
  unfold wrap
  omega

/-- `base + pageSize`. -/
@[irreducible] def nextFrame (base : Nat) : Nat := wrap (base + 4096)

theorem nextFrame_of_lt {base : Nat} (fits : base + 4096 < 2 ^ 64) :
    nextFrame base = base + 4096 := by
  unfold nextFrame
  exact wrap_of_lt fits

/-- A region that is looked at. -/
def Smap.Usable (r : Smap) : Prop := r.type = 1 ∧ r.length ≠ 0

instance (r : Smap) : Decidable r.Usable := inferInstanceAs (Decidable (_ ∧ _))

/-- `smap->base + smap->length`. -/
@[irreducible] def Smap.stop (r : Smap) : Nat := wrap (r.base.toNat + r.length.toNat)

/-- The locals of `initializeFreelist`, with the regions from the current one on. -/
structure Scan where
  freelist : Freelist
  last : Option Nat
  base : Nat
  smap : List Smap

namespace Scan

variable (physfree : Word)

/-- The test on a frame. -/
def Enters (r : Smap) (base : Nat) : Prop :=
  wrap (physfree.toNat + 0x1000) < base ∧ nextFrame base < r.stop

instance (r : Smap) (base : Nat) : Decidable (Enters physfree r base) :=
  inferInstanceAs (Decidable (_ ∧ _))

/-- The two branches that enter a frame: the first one, and any further one. `last` is set
together with `head`. -/
def enter (s : Scan) : Scan :=
  let index := s.base / 4096
  let pagelist := Function.update s.freelist.pagelist index (newNode s.base)
  match s.freelist.head, s.last with
  | some head, some last =>
    { s with freelist := { pagelist := setNext pagelist last index, head := some head },
             last := some index }
  -- The first frame: its `next` is the NULL that `head` was.
  | _, _ => { s with freelist := { pagelist := pagelist, head := some index }, last := some index }

/-- On to the next frame. -/
def advance (s : Scan) : Scan := { s with base := nextFrame s.base }

@[simp] theorem advance_base (s : Scan) : s.advance.base = nextFrame s.base := rfl

@[simp] theorem advance_smap (s : Scan) : s.advance.smap = s.smap := rfl

@[simp] theorem enter_base (s : Scan) : s.enter.base = s.base := by
  unfold enter
  split <;> rfl

@[simp] theorem enter_smap (s : Scan) : s.enter.smap = s.smap := by
  unfold enter
  split <;> rfl

/-- On to the next regions. -/
def enterRegion (s : Scan) (smap : List Smap) : Scan :=
  { s with base := (smap.head?.map fun r => r.base.toNat).getD 0, smap := smap }

/-- One round of the loops, with the address that it enters. -/
def step (s : Scan) : Option (Option Nat × Scan) :=
  match s.smap with
  | [] => none
  | r :: rest =>
    -- The test of the inner loop; a region that is not looked at goes straight to the next.
    if r.Usable ∧ s.base < r.stop then
      if Enters physfree r s.base then some (some s.base, s.enter.advance)
      else some (none, s.advance)
    else some (none, s.enterRegion rest)

/-- `step` as a relation, for runs. -/
def Step (s : Scan) (entered : Option Nat) (s' : Scan) : Prop :=
  s.step physfree = some (entered, s')

/-- The loops, `n` rounds at most. -/
def finish : Nat → Scan → Option Freelist
  | 0, _ => none
  | n + 1, s =>
    match s.step physfree with
    | none => some s.freelist
    | some (_, s') => finish n s'

/-- Before the loops. -/
def start (smap : List Smap) : Scan :=
  enterRegion { freelist := .zeroed, last := none, base := 0, smap := [] } smap

end Scan

/-! ## Lists of frames -/

/-- `fl` is the list of the frames at `addresses`, in this order. -/
structure Freelist.Lists (fl : Freelist) (addresses : List Nat) : Prop where
  linked : Linked (fun i => (fl.pagelist i).next) fl.head (addresses.map (· / 4096))
  address : ∀ a ∈ addresses, (fl.pagelist (a / 4096)).address = a ∧ 4096 ∣ a
  nodup : addresses.Nodup

variable {fl : Freelist} {addresses : List Nat}

/-- Different frames have different entries. -/
theorem Freelist.Lists.indices (lists : fl.Lists addresses) :
    (addresses.map (· / 4096)).Nodup := by
  refine List.Nodup.map_on (fun a memberA b memberB same => ?_) lists.nodup
  obtain ⟨_, k, rfl⟩ := lists.address a memberA
  obtain ⟨_, l, rfl⟩ := lists.address b memberB
  rw [Nat.mul_div_cancel_left k (by decide), Nat.mul_div_cancel_left l (by decide)] at same
  rw [same]

theorem Freelist.zeroed_lists : Freelist.zeroed.Lists [] :=
  ⟨rfl, nofun, List.nodup_nil⟩

/-- What has been listed so far, and where the list ends. -/
structure Scan.Lists (s : Scan) (addresses : List Nat) : Prop where
  list : s.freelist.Lists addresses
  last : s.last = (addresses.map (· / 4096)).getLast?

theorem Scan.Lists.advance {s : Scan} (lists : s.Lists addresses) : s.advance.Lists addresses :=
  ⟨lists.list, lists.last⟩

theorem update_next (f : Nat → FreeNode) (i : Nat) (node : FreeNode) :
    (fun j => (Function.update f i node j).next) =
      Function.update (fun j => (f j).next) i node.next := by
  funext j
  by_cases same : j = i
  · rw [same, Function.update_self, Function.update_self]
  · rw [Function.update_of_ne same, Function.update_of_ne same]

theorem setNext_next (f : Nat → FreeNode) (last index : Nat) :
    (fun j => (setNext f last index j).next) =
      Function.update (fun j => (f j).next) last (some index) := update_next f last _

@[simp] theorem setNext_address (f : Nat → FreeNode) (last index j : Nat) :
    (setNext f last index j).address = (f j).address := by
  unfold setNext
  by_cases same : j = last
  · rw [same, Function.update_self]
  · rw [Function.update_of_ne same]

/-- The first frame that is listed. -/
theorem Scan.Lists.enter_first {s : Scan} (lists : s.Lists []) (aligned : 4096 ∣ s.base) :
    s.enter.Lists [s.base] := by
  have head : s.freelist.head = none := lists.list.linked
  have shape : s.enter = { s with
      freelist := { pagelist := Function.update s.freelist.pagelist (s.base / 4096)
                      (newNode s.base),
                    head := some (s.base / 4096) }
      last := some (s.base / 4096) } := by
    unfold Scan.enter
    rw [head]
  rw [shape]
  refine ⟨⟨⟨rfl, ?_⟩, fun a member => ?_, List.nodup_singleton _⟩, rfl⟩
  · simp [Linked, newNode]
  · rw [List.mem_singleton] at member
    subst member
    simp [newNode, aligned]

/-- A further frame is linked in behind the last one. -/
theorem Scan.Lists.enter_next {s : Scan} {front : List Nat} {final : Nat}
    (lists : s.Lists (front ++ [final])) (aligned : 4096 ∣ s.base)
    (fresh : s.base ∉ front ++ [final]) : s.enter.Lists (front ++ [final] ++ [s.base]) := by
  have last : s.last = some (final / 4096) := by
    rw [lists.last, List.map_append]
    simp
  have linked := lists.list.linked
  have indices := lists.list.indices
  have other {a : Nat} (member : a ∈ front ++ [final]) : a / 4096 ≠ s.base / 4096 := by
    intro same
    -- Aligned addresses with the same index are the same.
    have alignedA := (lists.list.address a member).2
    have equal : a = s.base := by omega
    exact fresh (equal ▸ member)
  -- The new entry is not in the list yet, so writing it does not cut the list.
  have index : s.base / 4096 ∉ (front ++ [final]).map (· / 4096) := by
    intro member
    obtain ⟨a, inside, same⟩ := List.mem_map.mp member
    exact other inside same
  rw [List.map_append, List.map_singleton] at linked indices index
  obtain ⟨first, head⟩ := linked.head_some
  have shape : s.enter = { s with
      freelist := { pagelist := setNext (Function.update s.freelist.pagelist (s.base / 4096)
                      (newNode s.base)) (final / 4096) (s.base / 4096),
                    head := s.freelist.head }
      last := some (s.base / 4096) } := by
    unfold Scan.enter
    rw [head, last]
  rw [shape]
  refine ⟨⟨?_, fun a member => ?_, ?_⟩, ?_⟩
  · rw [List.map_append, List.map_append, List.map_singleton, List.map_singleton, setNext_next,
      update_next]
    exact linked.snoc indices index
  · rw [setNext_address]
    rcases List.mem_append.mp member with old | new
    · rw [Function.update_of_ne (other old)]
      exact lists.list.address a old
    · rw [List.mem_singleton.mp new, Function.update_self]
      exact ⟨rfl, aligned⟩
  · refine List.Nodup.append lists.list.nodup (List.nodup_singleton _) ?_
    rw [List.disjoint_singleton]
    exact fresh
  · simp

theorem Scan.Lists.enter {s : Scan} (lists : s.Lists addresses) (aligned : 4096 ∣ s.base)
    (fresh : s.base ∉ addresses) : s.enter.Lists (addresses ++ [s.base]) := by
  rcases List.eq_nil_or_concat addresses with rfl | ⟨front, final, rfl⟩
  · exact lists.enter_first aligned
  · rw [List.concat_eq_append] at *
    exact lists.enter_next aligned fresh

end LateOS
