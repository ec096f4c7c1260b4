import Mathlib.Data.Set.Basic
import LateOS.Memory.Tree

/-!
# Taking frames into use

What happens to the rest of memory when a frame of the free list becomes a table or a page
of a task.
-/
namespace LateOS

open Lib

namespace Machine

variable {m m' m'' : Machine} {use use' use'' : Word → Use} {roots : Set Word}
  {r r' t n f : Word} {p q : List Nat} {i : Nat}

/-- Only the tables of tasks with a PML4 in `roots`, and frames from the free list, have
changed. -/
structure Within (roots : Set Word) (m : Machine) (use : Word → Use) (m' : Machine)
    (use' : Word → Use) : Prop where
  kept : ∀ x, use x ≠ .free → use' x = use x
  fresh : ∀ x r p, use x = .free → use' x = .table r p → x ∈ m.head
  mem : ∀ x, x ∉ m.head → (∀ r p, use x = .table r p → r ∉ roots) → m'.mem x = m.mem x
  head : m'.head <:+ m.head
  pml4e : m'.pml4e = m.pml4e
  pdpte : m'.pdpte = m.pdpte

theorem Within.refl : Within roots m use m use :=
  ⟨fun _ _ => rfl, fun x r p free table => by simp [free] at table, fun _ _ _ => rfl,
    List.suffix_refl _, rfl, rfl⟩

theorem Within.trans (first : Within roots m use m' use') (second : Within roots m' use' m'' use'') :
    Within roots m use m'' use'' := by
  have later {x : Word} (out : x ∉ m.head) : x ∉ m'.head :=
    fun member => out (first.head.mem member)
  refine ⟨?_, ?_, ?_, second.head.trans first.head, second.pml4e.trans first.pml4e,
    second.pdpte.trans first.pdpte⟩
  · intro x used
    have same := first.kept x used
    exact (second.kept x (same ▸ used)).trans same
  · intro x r p free table
    -- A frame that became a table did so in the first part or in the second.
    by_cases free' : use' x = .free
    · exact first.head.mem (second.fresh x r p free' table)
    · exact first.fresh x r p free ((second.kept x free').symm.trans table)
  · intro x out other
    refine (second.mem x (later out) fun r p table => ?_).trans (first.mem x out other)
    by_cases free : use x = .free
    · exact absurd (first.fresh x r p free table) out
    · exact other r p ((first.kept x free).symm.trans table)

theorem Within.mono {more : Set Word} (within : Within roots m use m' use')
    (subset : roots ⊆ more) : Within more m use m' use' :=
  ⟨within.kept, within.fresh,
    fun x out other => within.mem x out fun r p table member => other r p table (subset member),
    within.head, within.pml4e, within.pdpte⟩

/-! ## The free list -/

/-- `n` has been taken from the free list. -/
structure Taken (m : Machine) (use : Word → Use) (n : Word) (m' : Machine) : Prop where
  sound : m'.Sound use
  spare : use n = .free
  out : n ∉ m'.head
  aligned : frame n = n
  head : m.head = n :: m'.head
  mem : m'.mem = m.mem
  pml4e : m'.pml4e = m.pml4e
  pdpte : m'.pdpte = m.pdpte

theorem Taken.member (taken : Taken m use n m') : n ∈ m.head := by simp [taken.head]

theorem Taken.suffix (taken : Taken m use n m') : m'.head <:+ m.head := by
  rw [taken.head]
  exact List.suffix_cons n m'.head

theorem Taken.ne (taken : Taken m use n m') {x : Word} (used : use x ≠ .free) : x ≠ n := by
  rintro rfl
  exact used taken.spare

theorem Taken.within (taken : Taken m use n m') : Within roots m use m' use :=
  ⟨fun _ _ => rfl, fun x r p free table => by simp [free] at table,
    fun _ _ _ => by rw [taken.mem], taken.suffix, taken.pml4e, taken.pdpte⟩

theorem Taken.picked {f : Word} (taken : Taken m use f m') :
    Picked m (fun x => (use x).owner) f m' :=
  ⟨taken.sound.tree, by rw [taken.spare]; rfl, taken.out, taken.aligned, taken.head, taken.mem,
    taken.pml4e, taken.pdpte⟩

theorem Picked.taken (sound : m.Sound use) (picked : Picked m (fun x => (use x).owner) n m') :
    Taken m use n m' :=
  ⟨sound.congr picked.suffix picked.pml4e picked.pdpte fun _ _ _ => by rw [picked.mem],
    sound.free n picked.member, picked.out, picked.aligned, picked.head, picked.mem, picked.pml4e,
    picked.pdpte⟩

theorem Sound.getFreeFrame (sound : m.Sound use) (ran : m.getFreeFrame = some (n, m')) :
    Taken m use n m' := (sound.tree.getFreeFrame ran).taken sound

theorem write_self (m : Machine) (t : Word) (i : Nat) : m.write t i (m.mem t i) = m := by
  simp [write]

/-- The direct map has every free frame already. -/
theorem DirectMapped.mapNewFrame (direct : m.DirectMapped f) :
    m.mapNewFrame (kernbase + f.toNat) f = some m := by
  obtain ⟨one, two, three, four, five⟩ := direct
  unfold Machine.mapNewFrame mapFreeFrameExist mapFreeFrameExistNo
  simp only [one, two, three, four, Bool.not_true, Bool.false_eq_true, if_false]
  rw [← five, write_self]

/-- The kernel's tables on the way to where `f` is mapped. -/
def kernelWay (m : Machine) (f : Word) : List Word :=
  let v := kernbase + f.toNat
  let pdpe := frame (m.mem m.pdpte (pdptIndex v))
  [m.pml4e, m.pdpte, pdpe, frame (m.mem pdpe (pdIndex v))]

/-- The kernel maps the free frames already, by tables that are not free and in no tree. -/
structure DirectMap (m : Machine) (own : Word → Option (Word × List Nat)) : Prop where
  mapped : ∀ f ∈ m.head, m.DirectMapped f
  apart : ∀ f ∈ m.head, ∀ t ∈ m.kernelWay f, own t = none ∧ t ∉ m.head

/-- Tables of tasks and free frames may be written. -/
theorem DirectMap.congr (direct : m.DirectMap own) (head : m'.head <:+ m.head)
    (pml4e : m'.pml4e = m.pml4e) (pdpte : m'.pdpte = m.pdpte)
    (kept : ∀ x, own x = none → x ∉ m.head → m'.mem x = m.mem x ∧ own' x = none) :
    m'.DirectMap own' := by
  have same (f : Word) (member : f ∈ m'.head) : (m'.DirectMapped f ↔ m.DirectMapped f) ∧
      m'.kernelWay f = m.kernelWay f := by
    have way (t : Word) (on : t ∈ m.kernelWay f) : m'.mem t = m.mem t :=
      (kept t (direct.apart f (head.mem member) t on).1
        (direct.apart f (head.mem member) t on).2).1
    simp only [kernelWay, List.mem_cons, List.not_mem_nil, or_false, forall_eq_or_imp,
      forall_eq] at way
    obtain ⟨one, two, three, four⟩ := way
    unfold DirectMapped kernelWay
    simp only [pml4e, pdpte, one, two, three, four]
    exact ⟨trivial, trivial⟩
  refine ⟨fun f member => ?_, fun f member t on => ?_⟩
  · exact (same f member).1.mpr (direct.mapped f (head.mem member))
  · rw [(same f member).2] at on
    obtain ⟨none, out⟩ := direct.apart f (head.mem member) t on
    exact ⟨(kept t none out).2, fun back => out (head.mem back)⟩

/-- `getNewPage` takes just one frame. -/
theorem Tree.getNewPage_eq (tree : m.Tree own) (direct : m.DirectMap own) :
    m.getNewPage = m.getFreeFrame := by
  unfold getNewPage
  cases popped : m.getFreeFrame with
  | none => rfl
  | some pair =>
    obtain ⟨n, m'⟩ := pair
    have picked := tree.getFreeFrame popped
    have mapped : m'.DirectMapped n := by
      have old := direct.mapped n picked.member
      unfold DirectMapped at old ⊢
      rw [picked.mem, picked.pml4e, picked.pdpte]
      exact old
    simp [mapped.mapNewFrame]

theorem Sound.directMap (sound : m.Sound use) : m.DirectMap fun f => (use f).owner := by
  refine ⟨sound.direct, fun f member t on => ?_⟩
  have kernel : ∃ d, use t = .kernel d := by
    obtain ⟨first, second, third⟩ := sound.kernel_way (sound.direct f member)
    simp only [kernelWay, List.mem_cons, List.not_mem_nil, or_false] at on
    rcases on with rfl | rfl | rfl | rfl
    · exact ⟨0, sound.root⟩
    · exact ⟨1, first⟩
    · exact ⟨2, second⟩
    · exact ⟨3, third⟩
  obtain ⟨d, serves⟩ := kernel
  refine ⟨by rw [serves]; rfl, fun member => ?_⟩
  rw [sound.free t member] at serves
  cases serves

theorem Sound.getNewPage_eq (sound : m.Sound use) : m.getNewPage = m.getFreeFrame :=
  sound.tree.getNewPage_eq sound.directMap

/-- Less than a page is one frame. -/
theorem Sound.kmalloc_eq (sound : m.Sound use) : m.kmalloc 32 = m.getFreeFrame := by
  unfold kmalloc
  rw [sound.getNewPage_eq]
  cases m.getFreeFrame <;> rfl

/-! ## A new table -/

/-- A frame that has been taken may be cleared. -/
theorem Taken.cleared (taken : Taken m use n m') : (m'.zero n).Sound use := by
  refine taken.sound.congr (List.suffix_refl _) rfl rfl fun x _ used => ?_
  exact Function.update_of_ne (taken.ne used) _ _

/-- The other frames keep what they hold. -/
theorem Taken.zero_other {x : Word} (taken : Taken m use n m') (apart : x ≠ n) :
    (m'.zero n).mem x = m.mem x := by
  funext j
  rw [zero_mem, if_neg apart, taken.mem]

theorem Taken.fill (taken : Taken m use n m') (serves : use t = .table r p) (inner : Inner p i) :
    (m'.fill t i n).Sound (Function.update use n (.table r (p ++ [i]))) := by
  have other : t ≠ n := taken.ne (by simp [serves])
  have claimed := taken.cleared.claim (u := .table r (p ++ [i])) taken.spare taken.out
    (Or.inr ⟨⟨r, p ++ [i], rfl, by simpa using Nat.succ_le_of_lt inner.1⟩, fun j => by simp⟩)
  refine claimed.write (p := p) (by rw [Function.update_of_ne other, serves]) ?_ ?_
  · intro _
    refine ⟨fun _ => ?_, fun deep => ?_, fun top last => ?_⟩
    · have leads : frame (entry n 7) = n := by simp [taken.aligned]
      rw [leads, Function.update_self]
      exact ⟨rfl, entry_seven_and n 7 (by decide)⟩
    · exact absurd inner.1 (by omega)
    · exact absurd (inner.2.2 top) (by omega)
  · intro deep
    exact absurd inner.1 (by omega)

theorem Taken.fill_within (taken : Taken m use n m') (serves : use t = .table r p)
    (member : r ∈ roots) :
    Within roots m use (m'.fill t i n) (Function.update use n (.table r (p ++ [i]))) := by
  refine ⟨fun x used => Function.update_of_ne (taken.ne used) _ _, ?_, ?_, taken.suffix,
    taken.pml4e, taken.pdpte⟩
  · intro x r' q free table
    by_cases here : x = n
    · exact here ▸ taken.member
    · rw [Function.update_of_ne here, free] at table
      cases table
  · intro x out other
    funext j
    have apart : x ≠ n := fun here => out (here ▸ taken.member)
    have apart' : ¬(x = t ∧ j = i) := fun here => other r p (here.1 ▸ serves) member
    rw [fill_mem, if_neg apart', if_neg apart, taken.mem]

end Machine

end LateOS
