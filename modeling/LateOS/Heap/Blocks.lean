import Mathlib.Algebra.BigOperators.Ring.Finset
import LateOS.Lib.CyclicList
import LateOS.Lib.Intervals
import LateOS.Heap.Malloc

/-!
# Blocks

The invariant of the user heap and what `free` and `malloc` do to it. `free` is taken
apart into linking a block in behind its predecessor and absorbing the neighbour behind a
block; `splice` is one link and two absorptions.
-/
namespace LateOS

open Lib

/-- `base` neither lies in the region nor touches it. -/
def Apart (base : Nat) (region : Nat × Nat) : Prop :=
  base + 16 < region.1 ∨ region.1 + 16 * region.2 < base

namespace Heap

variable {m : Heap} {F U : Finset Nat} {a p bp : Nat}

/-- What `sbrk` has given: separate regions below the break, with room between them. -/
structure Regions (m : Heap) : Prop where
  break_pos : 0 < m.brk
  page : pageSize ∣ m.brk
  base_pos : 0 < m.base
  start : ∀ r ∈ m.regions, 0 < r.1
  small : ∀ r ∈ m.regions, r.2 < 2 ^ 27
  below : ∀ r ∈ m.regions, r.1 + 16 * r.2 < m.brk
  gap : ∀ r ∈ m.regions, ∀ s ∈ m.regions,
    r = s ∨ r.1 + 16 * r.2 < s.1 ∨ s.1 + 16 * s.2 < r.1
  apart : ∀ r ∈ m.regions, Apart m.base r

/-- The free blocks `F` form the ring, and together with the live blocks `U` they share
out what `morecore` has obtained. -/
structure Blocks (m : Heap) (F U : Finset Nat) : Prop where
  regions : m.Regions
  ring : CyclicList F m.next
  base_free : m.base ∈ F
  base_size : m.size m.base = 0
  live : ∀ a ∈ U, a ∉ F
  pos : ∀ a, a ∈ F ∨ a ∈ U → a ≠ m.base → 0 < m.size a
  disjoint : ∀ a b, a ∈ F ∨ a ∈ U → b ∈ F ∨ b ∈ U → a < b → a + 16 * m.size a ≤ b
  inside : ∀ a, a ∈ F ∨ a ∈ U → a ≠ m.base →
    ∃ r ∈ m.regions, r.1 ≤ a ∧ a + 16 * m.size a ≤ r.1 + 16 * r.2
  total : ∑ a ∈ F, m.size a + ∑ a ∈ U, m.size a = (m.regions.map Prod.snd).sum

/-- No free block outside `S` ends where the next one begins. -/
def Merged (m : Heap) (F : Finset Nat) (S : Nat → Prop) : Prop :=
  ∀ a ∈ F, S a ∨ m.next a = a ∨ a + 16 * m.size a ≠ m.next a

theorem setPtr_next (m : Heap) (a p x : Nat) :
    (m.setPtr a p).next x = if x = a then p else m.next x := by
  by_cases here : x = a
  · subst here
    simp [next, setPtr]
  · simp [next, setPtr, here]

theorem setPtr_size (m : Heap) (a p x : Nat) : (m.setPtr a p).size x = m.size x := by
  by_cases here : x = a
  · subst here
    simp [size, setPtr]
  · simp [size, setPtr, here]

theorem setSize_next (m : Heap) (a n x : Nat) : (m.setSize a n).next x = m.next x := by
  by_cases here : x = a
  · subst here
    simp [next, setSize]
  · simp [next, setSize, here]

theorem setSize_size (m : Heap) (a n x : Nat) :
    (m.setSize a n).size x = if x = a then n else m.size x := by
  by_cases here : x = a
  · subst here
    simp [size, setSize]
  · simp [size, setSize, here]

/-! ## Blocks in another heap -/

theorem Regions.congr {m' : Heap} (regions : m.Regions) (base : m'.base = m.base)
    (brk : m'.brk = m.brk) (same : m'.regions = m.regions) : m'.Regions := by
  obtain ⟨h1, h2, h3, h4, h5, h6, h7, h8⟩ := regions
  constructor <;> simp only [base, brk, same] <;> assumption

/-- Blocks may become live or free as long as they keep their sizes. -/
theorem Blocks.reassign {m' : Heap} {F' U' : Finset Nat} (blocks : m.Blocks F U)
    (regions : m'.Regions) (base : m'.base = m.base) (same : m'.regions = m.regions)
    (size : ∀ x, x ∈ F ∨ x ∈ U → m'.size x = m.size x) (ring : CyclicList F' m'.next)
    (base_free : m.base ∈ F')
    (known : ∀ x, x ∈ F' ∨ x ∈ U' → x ∈ F ∨ x ∈ U) (live : ∀ a ∈ U', a ∉ F')
    (total : ∑ a ∈ F', m.size a + ∑ a ∈ U', m.size a = ∑ a ∈ F, m.size a + ∑ a ∈ U, m.size a) :
    m'.Blocks F' U' := by
  refine ⟨regions, ring, base ▸ base_free, ?_, live, ?_, ?_, ?_, ?_⟩
  · rw [base, size _ (Or.inl blocks.base_free)]
    exact blocks.base_size
  · intro x member other
    rw [base] at other
    rw [size x (known x member)]
    exact blocks.pos x (known x member) other
  · intro x y memberX memberY less
    rw [size x (known x memberX)]
    exact blocks.disjoint x y (known x memberX) (known y memberY) less
  · intro x member other
    rw [base] at other
    rw [size x (known x member), same]
    exact blocks.inside x (known x member) other
  · rw [Finset.sum_congr rfl fun x free => size x (known x (Or.inl free)),
      Finset.sum_congr rfl fun x live => size x (known x (Or.inr live)), total, same]
    exact blocks.total

/-- A live block may be added in a place that the others leave to it. They may have become
smaller, but have not gone. -/
theorem Blocks.insert_live {m' : Heap} {b : Nat} (blocks : m.Blocks F U) (regions : m'.Regions)
    (base : m'.base = m.base) (next : ∀ x, m'.next x = m.next x)
    (more : ∀ r ∈ m.regions, r ∈ m'.regions)
    (shrunk : ∀ x, x ∈ F ∨ x ∈ U → m'.size x ≤ m.size x)
    (pos : ∀ x, x ∈ F ∨ x ∈ U → x ≠ m.base → 0 < m'.size x) (positive : 0 < m'.size b)
    (fresh : ∀ x, x ∈ F ∨ x ∈ U → x ≠ b)
    (room : ∀ x, x ∈ F ∨ x ∈ U → x + 16 * m'.size x ≤ b ∨ b + 16 * m'.size b ≤ x)
    (inside : ∃ r ∈ m'.regions, r.1 ≤ b ∧ b + 16 * m'.size b ≤ r.1 + 16 * r.2)
    (total : m'.size b + (∑ a ∈ F, m'.size a + ∑ a ∈ U, m'.size a) =
      (m'.regions.map Prod.snd).sum) : m'.Blocks F (insert b U) := by
  have known {x : Nat} (member : x ∈ F ∨ x ∈ insert b U) : x = b ∨ x ∈ F ∨ x ∈ U := by
    rw [Finset.mem_insert] at member
    rcases member with free | here | live
    · exact Or.inr (Or.inl free)
    · exact Or.inl here
    · exact Or.inr (Or.inr live)
  refine ⟨regions, blocks.ring.congr fun x _ => next x, base ▸ blocks.base_free, ?_, ?_, ?_, ?_,
    ?_, ?_⟩
  · have least := shrunk m.base (Or.inl blocks.base_free)
    rw [blocks.base_size] at least
    rw [base]
    omega
  · intro x live free
    rcases Finset.mem_insert.mp live with here | live
    · exact fresh x (Or.inl free) here
    · exact blocks.live x live free
  · intro x member other
    rw [base] at other
    rcases known member with rfl | old
    · exact positive
    · exact pos x old other
  · intro x y memberX memberY less
    rcases known memberX with rfl | oldX
    · rcases known memberY with rfl | oldY
      · exact absurd less (Nat.lt_irrefl _)
      · rcases room y oldY with before | behind
        · omega
        · exact behind
    · rcases known memberY with rfl | oldY
      · rcases room x oldX with before | behind
        · exact before
        · omega
      · have apart := blocks.disjoint x y oldX oldY less
        have least := shrunk x oldX
        omega
  · intro x member other
    rw [base] at other
    rcases known member with rfl | old
    · exact inside
    · obtain ⟨r, inR, start, stop⟩ := blocks.inside x old other
      have least := shrunk x old
      exact ⟨r, more r inR, start, by omega⟩
  · rw [Finset.sum_insert fun live => fresh b (Or.inr live) rfl, ← total]
    omega

/-! ## What the regions are shared out to -/

/-- Every address in a region lies in a block. -/
theorem Blocks.tiles (blocks : m.Blocks F U) {r : Nat × Nat} (inR : r ∈ m.regions) {x : Nat}
    (above : r.1 ≤ x) (below : x < r.1 + 16 * r.2) :
    ∃ a, (a ∈ F ∨ a ∈ U) ∧ a ≠ m.base ∧ a ≤ x ∧ x < a + 16 * m.size a := by
  have known {a : Nat} (member : a ∈ (F ∪ U).erase m.base) : (a ∈ F ∨ a ∈ U) ∧ a ≠ m.base := by
    obtain ⟨other, member⟩ := Finset.mem_erase.mp member
    exact ⟨Finset.mem_union.mp member, other⟩
  have apart : KeepApart ((F ∪ U).erase m.base) fun a => 16 * m.size a :=
    fun a memberA b memberB less => blocks.disjoint a b (known memberA).1 (known memberB).1 less
  have inside : ∀ a ∈ (F ∪ U).erase m.base, ∃ q ∈ m.regions.map fun r => (r.1, 16 * r.2),
      LiesIn a (16 * m.size a) q := by
    intro a member
    obtain ⟨q, inQ, start, stop⟩ := blocks.inside a (known member).1 (known member).2
    exact ⟨(q.1, 16 * q.2), List.mem_map.mpr ⟨q, inQ, rfl⟩, start, stop⟩
  have total : totalLength (m.regions.map fun r => (r.1, 16 * r.2)) ≤
      ∑ a ∈ (F ∪ U).erase m.base, 16 * m.size a := by
    have separate : Disjoint F U := Finset.disjoint_right.mpr fun a live => blocks.live a live
    have whole := blocks.total
    rw [← Finset.sum_union separate] at whole
    have none := Finset.sum_erase (F ∪ U) blocks.base_size
    rw [← Finset.mul_sum, none, whole]
    unfold totalLength
    rw [List.map_map, ← List.sum_map_mul_left]
    exact Nat.le_refl _
  obtain ⟨a, member, low, high⟩ :=
    apart.tiles inside total (List.mem_map.mpr ⟨r, inR, rfl⟩) above below
  exact ⟨a, (known member).1, (known member).2, low, high⟩

/-! ## Linking a block in -/

/-- `bp` behind `p`, joined to nothing. -/
def link (m : Heap) (p bp : Nat) : Heap := (m.setPtr bp (m.next p)).setPtr p bp

/-- `a` takes in the block behind it if that begins where `a` ends. -/
def absorb (m : Heap) (a : Nat) : Heap :=
  if a + 16 * m.size a = m.next a then
    (m.setSize a (unsigned (m.size a + m.size (m.next a)))).setPtr a (m.next (m.next a))
  else m

theorem link_next (m : Heap) (p bp x : Nat) : (m.link p bp).next x =
    if x = p then bp else if x = bp then m.next p else m.next x := by
  simp only [link, setPtr_next]

theorem link_size (m : Heap) (p bp x : Nat) : (m.link p bp).size x = m.size x := by
  simp only [link, setPtr_size]

theorem Blocks.link (blocks : m.Blocks F U) (block : bp ∈ U) (node : p ∈ F)
    (place : Between p (m.next p) bp) :
    (m.link p bp).Blocks (insert bp F) (U.erase bp) := by
  have fresh : bp ∉ F := blocks.live bp block
  have known {x : Nat} (member : x ∈ insert bp F ∨ x ∈ U.erase bp) : x ∈ F ∨ x ∈ U := by
    rw [Finset.mem_insert, Finset.mem_erase] at member
    rcases member with (rfl | free) | ⟨_, live⟩
    · exact Or.inr block
    · exact Or.inl free
    · exact Or.inr live
  refine blocks.reassign (blocks.regions.congr rfl rfl rfl) rfl rfl (fun x _ => link_size m p bp x) ?_
    (Finset.mem_insert_of_mem blocks.base_free) (fun _ => known) ?_ ?_
  · refine (blocks.ring.insert node fresh place).congr fun x _ => ?_
    rw [link_next]
    by_cases atP : x = p
    · subst atP
      rw [if_pos rfl, Function.update_self]
    · rw [if_neg atP, Function.update_of_ne atP]
      by_cases atBp : x = bp
      · subst atBp
        rw [if_pos rfl, Function.update_self]
      · rw [if_neg atBp, Function.update_of_ne atBp]
  · intro x live free
    obtain ⟨other, live⟩ := Finset.mem_erase.mp live
    rcases Finset.mem_insert.mp free with same | free
    · exact other same
    · exact blocks.live x live free
  · rw [Finset.sum_insert fresh, ← Finset.add_sum_erase U m.size block]
    omega

/-- Linking a block in leaves only it and its predecessor to be joined. -/
theorem Merged.link (merged : m.Merged F fun _ => False) (p bp : Nat) :
    (m.link p bp).Merged (insert bp F) fun x => x = bp ∨ x = p := by
  intro x member
  by_cases touched : x = bp ∨ x = p
  · exact Or.inl touched
  · rw [not_or] at touched
    right
    rw [link_next, link_size, if_neg touched.2, if_neg touched.1]
    rcases merged x (Finset.mem_of_mem_insert_of_ne member touched.1) with none | apart
    · exact none.elim
    · exact apart

/-! ## Absorbing a neighbour -/

/-- The nodes of the ring after `a` has taken in its neighbour, or not. -/
def absorbed (m : Heap) (F : Finset Nat) (a : Nat) : Finset Nat :=
  if a + 16 * m.size a = m.next a then F.erase (m.next a) else F

/-- Two blocks that touch lie in the same region, so their sizes add up. -/
private theorem Blocks.unsigned_add (blocks : m.Blocks F U) {b : Nat} (memberA : a ∈ F ∨ a ∈ U)
    (memberB : b ∈ F ∨ b ∈ U) (otherA : a ≠ m.base) (otherB : b ≠ m.base)
    (touch : a + 16 * m.size a = b) :
    unsigned (m.size a + m.size b) = m.size a + m.size b := by
  obtain ⟨r, inR, startA, endA⟩ := blocks.inside a memberA otherA
  obtain ⟨s, inS, startB, endB⟩ := blocks.inside b memberB otherB
  have posA := blocks.pos a memberA otherA
  have posB := blocks.pos b memberB otherB
  have same : r = s := by
    rcases blocks.regions.gap r inR s inS with same | before | behind
    · exact same
    · exfalso
      omega
    · exfalso
      omega
  subst same
  have small := blocks.regions.small r inR
  exact Nat.mod_eq_of_lt (by omega)

/-- `base` is not the block behind another. -/
theorem Blocks.touch_base (blocks : m.Blocks F U) (member : a ∈ F ∨ a ∈ U)
    (other : a ≠ m.base) : a + 16 * m.size a ≠ m.base := by
  intro touch
  obtain ⟨r, inR, start, stop⟩ := blocks.inside a member other
  have pos := blocks.pos a member other
  rcases blocks.regions.apart r inR with below | above
  · omega
  · omega

theorem absorb_size (m : Heap) (a x : Nat) : (m.absorb a).size x =
    if x = a ∧ a + 16 * m.size a = m.next a then
      unsigned (m.size a + m.size (m.next a))
    else m.size x := by
  unfold absorb
  by_cases touch : a + 16 * m.size a = m.next a
  · rw [if_pos touch, setPtr_size, setSize_size]
    simp only [touch, and_true]
  · rw [if_neg touch, if_neg (fun both => touch both.2)]

theorem absorb_next (m : Heap) (a x : Nat) : (m.absorb a).next x =
    if x = a ∧ a + 16 * m.size a = m.next a then m.next (m.next a) else m.next x := by
  unfold absorb
  by_cases touch : a + 16 * m.size a = m.next a
  · rw [if_pos touch, setPtr_next, setSize_next]
    simp only [touch, and_true]
  · rw [if_neg touch, if_neg (fun both => touch both.2)]

theorem absorb_frame (m : Heap) (a : Nat) : (m.absorb a).base = m.base ∧
    (m.absorb a).freep = m.freep ∧ (m.absorb a).brk = m.brk ∧
    (m.absorb a).regions = m.regions := by
  unfold absorb
  split <;> exact ⟨rfl, rfl, rfl, rfl⟩

/-- What holds of the sizes when the neighbour `b` of `a` is taken in. -/
theorem Blocks.absorb_facts (blocks : m.Blocks F U) (node : a ∈ F)
    (other : m.next a ≠ a) (touch : a + 16 * m.size a = m.next a) :
    a ≠ m.base ∧ m.next a ≠ m.base ∧ (m.absorb a).size a = m.size a + m.size (m.next a) ∧
      ∀ x, x ≠ a → (m.absorb a).size x = m.size x := by
  have inner : a ≠ m.base := by
    rintro rfl
    rw [blocks.base_size] at touch
    exact other (by omega)
  have behind : m.next a ≠ m.base := touch ▸ blocks.touch_base (Or.inl node) inner
  refine ⟨inner, behind, ?_, fun x away => ?_⟩
  · rw [absorb_size, if_pos ⟨rfl, touch⟩]
    exact blocks.unsigned_add (Or.inl node) (Or.inl (blocks.ring.next_mem node)) inner behind touch
  · rw [absorb_size, if_neg (fun both => away both.1)]

theorem Blocks.absorb (blocks : m.Blocks F U) (node : a ∈ F) (other : m.next a ≠ a) :
    (m.absorb a).Blocks (m.absorbed F a) U := by
  by_cases touch : a + 16 * m.size a = m.next a
  · have neighbour := blocks.ring.next_mem node
    obtain ⟨inner, behind, grown, kept⟩ := blocks.absorb_facts node other touch
    obtain ⟨base, _, brk, regions⟩ := m.absorb_frame a
    rw [absorbed, if_pos touch]
    have known {x : Nat} (member : x ∈ F.erase (m.next a) ∨ x ∈ U) :
        (x ∈ F ∨ x ∈ U) ∧ x ≠ m.next a := by
      rcases member with free | live
      · obtain ⟨away, free⟩ := Finset.mem_erase.mp free
        exact ⟨Or.inl free, away⟩
      · refine ⟨Or.inr live, ?_⟩
        rintro rfl
        exact blocks.live _ live neighbour
    refine ⟨?_, ?_, ?_, ?_, ?_, ?_, ?_, ?_, ?_⟩
    · exact blocks.regions.congr base brk regions
    · refine (blocks.ring.erase node other).congr fun x _ => ?_
      rw [absorb_next]
      by_cases here : x = a
      · subst here
        rw [if_pos ⟨rfl, touch⟩, Function.update_self]
      · rw [if_neg (fun both => here both.1), Function.update_of_ne here]
    · rw [base]
      exact Finset.mem_erase.mpr ⟨Ne.symm behind, blocks.base_free⟩
    · rw [base, kept _ (Ne.symm inner)]
      exact blocks.base_size
    · intro x live free
      exact blocks.live x live (Finset.mem_of_mem_erase free)
    · intro x member away
      rw [base] at away
      have pos := blocks.pos x (known member).1 away
      by_cases here : x = a
      · subst here
        omega
      · rw [kept x here]
        exact pos
    · intro x y memberX memberY less
      obtain ⟨knownX, _⟩ := known memberX
      obtain ⟨knownY, awayY⟩ := known memberY
      by_cases here : x = a
      · subst here
        have first := blocks.disjoint x y knownX knownY less
        have second := blocks.disjoint (m.next x) y (Or.inl neighbour) knownY (by omega)
        rw [grown]
        omega
      · rw [kept x here]
        exact blocks.disjoint x y knownX knownY less
    · intro x member away
      rw [base] at away
      rw [regions]
      by_cases here : x = a
      · subst here
        obtain ⟨r, inR, start, stop⟩ := blocks.inside x (known member).1 away
        obtain ⟨s, inS, start', stop'⟩ := blocks.inside (m.next x) (Or.inl neighbour) behind
        have pos := blocks.pos _ (Or.inl neighbour) behind
        have posX := blocks.pos _ (known member).1 away
        refine ⟨r, inR, start, ?_⟩
        rw [grown]
        rcases blocks.regions.gap r inR s inS with same | before | after
        · rw [same]
          omega
        · omega
        · omega
      · rw [kept x here]
        exact blocks.inside x (known member).1 away
    · rw [regions, ← blocks.total]
      congr 1
      · rw [← Finset.add_sum_erase F m.size neighbour,
          ← Finset.add_sum_erase (F.erase (m.next a)) m.size
            (Finset.mem_erase.mpr ⟨Ne.symm other, node⟩),
          ← Finset.add_sum_erase (F.erase (m.next a)) (m.absorb a).size
            (Finset.mem_erase.mpr ⟨Ne.symm other, node⟩), grown]
        have rest : ∑ x ∈ (F.erase (m.next a)).erase a, (m.absorb a).size x =
            ∑ x ∈ (F.erase (m.next a)).erase a, m.size x :=
          Finset.sum_congr rfl fun x member => kept x (Finset.ne_of_mem_erase member)
        omega
      · refine Finset.sum_congr rfl fun x live => kept x ?_
        rintro rfl
        exact blocks.live x live node
  · rw [absorbed, if_neg touch]
    unfold Heap.absorb
    rw [if_neg touch]
    exact blocks

/-- A block that has absorbed its neighbour, or has none to absorb, is joined. -/
theorem Merged.absorb {S : Nat → Prop} (merged : m.Merged F S) (blocks : m.Blocks F U)
    (node : a ∈ F) (other : m.next a ≠ a)
    (joined : a + 16 * m.size a = m.next a → ¬S (m.next a)) :
    (m.absorb a).Merged (m.absorbed F a) fun x => S x ∧ x ≠ a := by
  by_cases touch : a + 16 * m.size a = m.next a
  · have neighbour := blocks.ring.next_mem node
    obtain ⟨inner, behind, grown, kept⟩ := blocks.absorb_facts node other touch
    rw [absorbed, if_pos touch]
    intro x member
    have free := Finset.mem_of_mem_erase member
    by_cases here : x = a
    · subst here
      right
      rw [absorb_next, if_pos ⟨rfl, touch⟩, grown]
      rcases merged _ neighbour with open_ | alone | apart
      · exact absurd open_ (joined touch)
      · exact absurd (blocks.ring.alone neighbour alone node) (Ne.symm other)
      · right
        intro meets
        apply apart
        omega
    · rw [absorb_next, kept x here, if_neg (fun both => here both.1)]
      rcases merged x free with open_ | rest
      · exact Or.inl ⟨open_, here⟩
      · exact Or.inr rest
  · rw [absorbed, if_neg touch]
    unfold Heap.absorb
    rw [if_neg touch]
    intro x member
    by_cases here : x = a
    · subst here
      exact Or.inr (Or.inr touch)
    · rcases merged x member with open_ | rest
      · exact Or.inl ⟨open_, here⟩
      · exact Or.inr rest

end Heap

end LateOS
