import LateOS.Heap.Blocks

/-!
# The calls

`free` and `malloc` on a heap in order: each returns, given enough fuel, and leaves the
heap in order.
-/
namespace LateOS

open Lib

namespace Heap

variable {m m' : Heap} {F U : Finset Nat} {a p bp : Nat}

/-! ## free -/

private theorem setPtr_twice (a x y : Nat) : (m.setPtr a x).setPtr a y = m.setPtr a y := by
  simp [setPtr]

private theorem setPtr_comm {a b : Nat} (apart : a ≠ b) (x y : Nat) :
    (m.setPtr a x).setPtr b y = (m.setPtr b y).setPtr a x := by
  simp only [setPtr, Function.update_of_ne apart, Function.update_of_ne (Ne.symm apart)]
  rw [Function.update_comm apart]

private theorem setPtr_setSize_comm {a b : Nat} (apart : a ≠ b) (x y : Nat) :
    (m.setPtr a x).setSize b y = (m.setSize b y).setPtr a x := by
  simp only [setPtr, setSize, Function.update_of_ne apart, Function.update_of_ne (Ne.symm apart)]
  rw [Function.update_comm apart]

private theorem setPtr_setSize (a x y : Nat) :
    (m.setPtr a x).setSize a y = (m.setSize a y).setPtr a x := by
  simp [setPtr, setSize]

/-- The first `if` of `free` links the block in and lets it absorb its neighbour. -/
private theorem joinUpper_eq (apart : p ≠ bp)
    (several : bp + 16 * m.size bp = m.next p → m.next p ≠ p ∧ m.next p ≠ bp) :
    (m.joinUpper p bp).setPtr p bp = (m.link p bp).absorb bp := by
  have behind : (m.link p bp).next bp = m.next p := by
    rw [link_next, if_neg (Ne.symm apart), if_pos rfl]
  unfold joinUpper absorb
  dsimp only
  rw [behind, link_size]
  by_cases touch : bp + 16 * m.size bp = m.next p
  · obtain ⟨other, away⟩ := several touch
    have far : (m.link p bp).next (m.next p) = m.next (m.next p) := by
      rw [link_next, if_neg other, if_neg away]
    rw [if_pos touch, if_pos touch, setSize_next, far, link_size]
    unfold link
    rw [setPtr_setSize_comm apart, setPtr_setSize, setPtr_comm apart, setPtr_twice]
  · rw [if_neg touch, if_neg touch]
    rfl

/-- The second `if` lets the predecessor absorb the block. -/
private theorem joinLower_eq (apart : p ≠ bp) :
    m.joinLower p bp = (m.setPtr p bp).absorb p := by
  have behind : (m.setPtr p bp).next p = bp := by rw [setPtr_next, if_pos rfl]
  unfold joinLower absorb
  dsimp only
  rw [behind, setPtr_size]
  by_cases touch : p + 16 * m.size p = bp
  · rw [if_pos touch, if_pos touch, setSize_next, setPtr_next, if_neg (Ne.symm apart),
      setPtr_size, setPtr_setSize, setPtr_twice]
  · rw [if_neg touch, if_neg touch]

theorem setFreep_size (m : Heap) (f x : Nat) : (m.setFreep f).size x = m.size x := rfl

theorem splice_eq (apart : p ≠ bp)
    (several : bp + 16 * m.size bp = m.next p → m.next p ≠ p ∧ m.next p ≠ bp) :
    m.splice p bp = (((m.link p bp).absorb bp).absorb p).setFreep p := by
  unfold splice
  rw [joinLower_eq apart, joinUpper_eq apart several]

/-- What holds of a heap between two calls. -/
structure InOrder (m : Heap) (F U : Finset Nat) : Prop where
  blocks : m.Blocks F U
  merged : m.Merged F fun _ => False
  freep : m.freep ∈ F

/-- The calls leave the header base, the break and the regions alone. -/
structure SameRegions (m m' : Heap) : Prop where
  base : m'.base = m.base
  brk : m'.brk = m.brk
  regions : m'.regions = m.regions

theorem Blocks.setFreep (blocks : m.Blocks F U) (f : Nat) :
    (m.setFreep f).Blocks F U := by
  exact blocks.reassign (blocks.regions.congr rfl rfl rfl) rfl rfl (fun _ _ => rfl) blocks.ring
    blocks.base_free (fun _ => id) blocks.live rfl

/-- In a ring of one node, which is `base`, nothing touches that node. -/
private theorem Blocks.touch_several (blocks : m.Blocks F U) (block : bp ∈ U) (node : p ∈ F)
    (touch : bp + 16 * m.size bp = m.next p) : m.next p ≠ p ∧ m.next p ≠ bp := by
  have fresh : bp ∉ F := blocks.live bp block
  have inner : bp ≠ m.base := fun same => fresh (same ▸ blocks.base_free)
  constructor
  · intro alone
    refine blocks.touch_base (Or.inr block) inner ?_
    rw [touch, alone]
    exact (blocks.ring.alone node alone blocks.base_free).symm
  · intro same
    exact fresh (same ▸ blocks.ring.next_mem node)

/-- The block that `free` is given becomes a free block, or part of one. -/
theorem InOrder.splice (order : m.InOrder F U) (block : bp ∈ U) (node : p ∈ F)
    (place : Between p (m.next p) bp) : ∃ F', (m.splice p bp).InOrder F' (U.erase bp) ∧
      SameRegions m (m.splice p bp) ∧ (∀ a ∈ U.erase bp, (m.splice p bp).size a = m.size a) ∧
      ∃ a ∈ F', m.size bp ≤ (m.splice p bp).size a := by
  have blocks := order.blocks
  have fresh : bp ∉ F := blocks.live bp block
  have apart : p ≠ bp := fun same => fresh (same ▸ node)
  have away : m.next p ≠ bp := fun same => fresh (same ▸ blocks.ring.next_mem node)
  rw [splice_eq apart (blocks.touch_several block node)]
  -- the block is linked in behind `p`
  have linked := blocks.link block node place
  have behind : (m.link p bp).next bp = m.next p := by
    rw [link_next, if_neg (Ne.symm apart), if_pos rfl]
  have several (touch : bp + 16 * (m.link p bp).size bp = (m.link p bp).next bp) :
      m.next p ≠ p ∧ m.next p ≠ bp := by
    rw [behind, link_size] at touch
    exact blocks.touch_several block node touch
  -- it absorbs the block above it
  have memberBp : bp ∈ insert bp F := Finset.mem_insert_self bp F
  have otherBp : (m.link p bp).next bp ≠ bp := by rwa [behind]
  have upper := linked.absorb memberBp otherBp
  have mergedUpper := (order.merged.link p bp).absorb linked memberBp otherBp fun touch => by
    rw [behind]
    exact fun either => either.elim (several touch).2 (several touch).1
  have memberP : p ∈ (m.link p bp).absorbed (insert bp F) bp := by
    unfold absorbed
    split
    next touch =>
      rw [behind]
      exact Finset.mem_erase.mpr ⟨Ne.symm (several touch).1, Finset.mem_insert_of_mem node⟩
    next => exact Finset.mem_insert_of_mem node
  -- and is absorbed by the one below
  have nextP : ((m.link p bp).absorb bp).next p = bp := by
    rw [absorb_next, if_neg (fun both => apart both.1), link_next, if_pos rfl]
  have otherP : ((m.link p bp).absorb bp).next p ≠ p := by
    rw [nextP]
    exact Ne.symm apart
  have lower := upper.absorb memberP otherP
  have mergedLower := mergedUpper.absorb upper memberP otherP fun _ open_ => by
    rw [nextP] at open_
    exact open_.2 rfl
  have grown : m.size bp ≤ ((m.link p bp).absorb bp).size bp := by
    by_cases touch : bp + 16 * (m.link p bp).size bp = (m.link p bp).next bp
    · obtain ⟨_, _, sum, _⟩ := linked.absorb_facts memberBp otherBp touch
      rw [sum, link_size]
      exact Nat.le_add_right _ _
    · rw [absorb_size, if_neg (fun both => touch both.2), link_size]
  refine ⟨_, ⟨lower.setFreep p, ?_, ?_⟩, ?_, ?_, ?_⟩
  · intro a member
    rcases mergedLower a member with ⟨⟨either, notBp⟩, notP⟩ | rest
    · exact absurd either (fun either => either.elim notBp notP)
    · exact Or.inr rest
  · change p ∈ ((m.link p bp).absorb bp).absorbed _ p
    rw [absorbed]
    split
    · rw [nextP]
      exact Finset.mem_erase.mpr ⟨apart, memberP⟩
    · exact memberP
  · obtain ⟨base, _, brk, regions⟩ := ((m.link p bp).absorb bp).absorb_frame p
    obtain ⟨base', _, brk', regions'⟩ := (m.link p bp).absorb_frame bp
    exact ⟨base.trans base', brk.trans brk', regions.trans regions'⟩
  · intro a member
    obtain ⟨notBp, live⟩ := Finset.mem_erase.mp member
    have notP : a ≠ p := fun same => blocks.live a live (same ▸ node)
    rw [setFreep_size, absorb_size, if_neg (fun both => notP both.1), absorb_size,
      if_neg (fun both => notBp both.1), link_size]
  · by_cases touch : p + 16 * ((m.link p bp).absorb bp).size p =
        ((m.link p bp).absorb bp).next p
    · obtain ⟨_, _, sum, _⟩ := upper.absorb_facts memberP otherP touch
      refine ⟨p, ?_, ?_⟩
      · rw [absorbed, if_pos touch, nextP]
        exact Finset.mem_erase.mpr ⟨apart, memberP⟩
      · rw [setFreep_size, sum, nextP]
        exact Nat.le_add_left_of_le grown
    · refine ⟨bp, ?_, ?_⟩
      · rw [absorbed, if_neg touch]
        have member := upper.ring.next_mem memberP
        rwa [nextP] at member
      · rw [setFreep_size, absorb_size, if_neg (fun both => touch both.2)]
        exact grown

/-- The two tests of `free` are the two ways to lie between. -/
theorem ite_between {α : Type} (p next bp : Nat) (x y : α) :
    (if p < bp ∧ bp < next then x else if next ≤ p ∧ (p < bp ∨ bp < next) then x else y) =
      if Between p next bp then x else y := by
  by_cases ascending : p < bp ∧ bp < next
  · rw [if_pos ascending, if_pos (show Between p next bp from Or.inl ascending)]
  · rw [if_neg ascending]
    by_cases wraps : next ≤ p ∧ (p < bp ∨ bp < next)
    · rw [if_pos wraps, if_pos (show Between p next bp from Or.inr wraps)]
    · rw [if_neg wraps, if_neg (fun place => place.elim ascending wraps)]

theorem findSlot_succ (m : Heap) (bp fuel p : Nat) : m.findSlot bp (fuel + 1) p =
    if Between p (m.next p) bp then some p else m.findSlot bp fuel (m.next p) := by
  rw [findSlot, ite_between]

/-- The loop of `free` ends, whatever node it starts from. -/
theorem findSlot_returns (ring : CyclicList F m.next) (start : a ∈ F) (fresh : bp ∉ F) :
    ∃ p ∈ F, Between p (m.next p) bp ∧
      ∃ n, ∀ fuel, m.findSlot bp (fuel + n) a = some p := by
  obtain ⟨target, member, place⟩ := ring.exists_between start fresh
  obtain ⟨steps, reached⟩ := ring.reaches start member
  induction steps generalizing a with
  | zero =>
    have here : a = target := reached
    subst here
    refine ⟨a, start, place, 1, fun fuel => ?_⟩
    rw [findSlot_succ, if_pos place]
  | succ steps ih =>
    by_cases here : Between a (m.next a) bp
    · refine ⟨a, start, here, 1, fun fuel => ?_⟩
      rw [findSlot_succ, if_pos here]
    · obtain ⟨p, node, found, n, returns⟩ := ih (ring.next_mem start) reached
      refine ⟨p, node, found, n + 1, fun fuel => ?_⟩
      rw [← Nat.add_assoc, findSlot_succ, if_neg here]
      exact returns fuel

/-- `free` returns and leaves the heap in order, with the block in a free one. -/
theorem InOrder.free (order : m.InOrder F U) (block : bp ∈ U) : ∃ m' F',
    (∃ n, ∀ fuel, m.free (fuel + n) (bp + headerSize) = some m') ∧
    m'.InOrder F' (U.erase bp) ∧ SameRegions m m' ∧ (∀ a ∈ U.erase bp, m'.size a = m.size a) ∧
    ∃ a ∈ F', m.size bp ≤ m'.size a := by
  have fresh : bp ∉ F := order.blocks.live bp block
  obtain ⟨p, node, place, n, found⟩ :=
    findSlot_returns order.blocks.ring order.freep fresh
  obtain ⟨F', spliced⟩ := order.splice block node place
  refine ⟨m.splice p bp, F', ⟨n, fun fuel => ?_⟩, spliced⟩
  unfold Heap.free
  dsimp only
  rw [Nat.add_sub_cancel, found fuel]
  rfl

/-! ## malloc -/

/-- No block is larger than its region. -/
theorem Blocks.size_small (blocks : m.Blocks F U) (member : a ∈ F ∨ a ∈ U) :
    m.size a < 2 ^ 27 := by
  by_cases same : a = m.base
  · rw [same, blocks.base_size]
    decide
  · obtain ⟨r, inR, _, _⟩ := blocks.inside a member same
    have small := blocks.regions.small r inR
    omega

/-- A block of the right size is taken out of the ring. -/
private theorem InOrder.take_whole (order : m.InOrder F U) (node : p ∈ F)
    (other : m.next p ≠ m.base) :
    ((m.setPtr p (m.next (m.next p))).setFreep p).InOrder (F.erase (m.next p))
      (insert (m.next p) U) := by
  have blocks := order.blocks
  have neighbour := blocks.ring.next_mem node
  have away : m.next p ≠ p := fun own =>
    other (own.trans (blocks.ring.alone node own blocks.base_free).symm)
  have known {x : Nat} (member : x ∈ F.erase (m.next p) ∨ x ∈ insert (m.next p) U) :
      x ∈ F ∨ x ∈ U := by
    rw [Finset.mem_erase, Finset.mem_insert] at member
    rcases member with ⟨_, free⟩ | rfl | live
    · exact Or.inl free
    · exact Or.inl neighbour
    · exact Or.inr live
  refine ⟨Blocks.setFreep ?_ p, ?_, ?_⟩
  · refine blocks.reassign (blocks.regions.congr rfl rfl rfl) rfl rfl
      (fun x _ => setPtr_size m p _ x) ?_ (Finset.mem_erase.mpr ⟨Ne.symm other, blocks.base_free⟩) (fun _ => known) ?_ ?_
    · refine (blocks.ring.erase node away).congr fun x _ => ?_
      rw [setPtr_next]
      by_cases here : x = p
      · subst here
        rw [if_pos rfl, Function.update_self]
      · rw [if_neg here, Function.update_of_ne here]
    · intro x live free
      obtain ⟨apart, free⟩ := Finset.mem_erase.mp free
      exact blocks.live x (Finset.mem_of_mem_insert_of_ne live apart) free
    · rw [Finset.sum_insert (fun live => blocks.live _ live neighbour),
        ← Finset.add_sum_erase F m.size neighbour]
      omega
  · intro x member
    obtain ⟨apart, free⟩ := Finset.mem_erase.mp member
    right
    change (m.setPtr p _).next x = x ∨ x + 16 * (m.setPtr p _).size x ≠ (m.setPtr p _).next x
    rw [setPtr_next, setPtr_size]
    by_cases here : x = p
    · subst here
      rw [if_pos rfl]
      -- the block that goes lies between `p` and its new neighbour
      by_cases touch : x + 16 * m.size x = m.next (m.next x)
      · left
        have follows := (blocks.ring x free).2
        have behind := (blocks.ring (m.next x) neighbour).2
        have room := blocks.disjoint x (m.next x) (Or.inl free) (Or.inl neighbour)
        rcases follows with ⟨less, _⟩ | ⟨_, all⟩
        · have room := room less
          rcases behind with ⟨above, _⟩ | ⟨_, all⟩
          · omega
          · have bounds := all x free
            omega
        · have bounds := all _ (blocks.ring.next_mem neighbour)
          omega
      · exact Or.inr touch
    · rw [if_neg here]
      rcases order.merged x free with none | rest
      · exact none.elim
      · exact rest
  · exact Finset.mem_erase.mpr ⟨Ne.symm away, node⟩

/-- The end of a larger block is cut off. -/
private theorem InOrder.take_end (order : m.InOrder F U) {prev n : Nat} (last : prev ∈ F)
    (node : p ∈ F) (positive : 0 < n) (larger : n < m.size p) :
    (((m.setSize p (m.size p - n)).setSize (p + 16 * (m.size p - n)) n).setFreep prev).InOrder F
      (insert (p + 16 * (m.size p - n)) U) ∧ p + 16 * (m.size p - n) ∉ U ∧
      ∀ a ∈ U, a ≠ p ∧ a ≠ p + 16 * (m.size p - n) := by
  have blocks := order.blocks
  have inner : p ≠ m.base := by
    rintro rfl
    rw [blocks.base_size] at larger
    omega
  -- nothing else begins inside the block
  have fresh {x : Nat} (member : x ∈ F ∨ x ∈ U) : x ≠ p + 16 * (m.size p - n) := by
    rintro rfl
    have room := blocks.disjoint p _ (Or.inl node) member (by omega)
    omega
  generalize cutAt : p + 16 * (m.size p - n) = b at *
  have apart : p ≠ b := fresh (Or.inl node)
  have size (x : Nat) : ((m.setSize p (m.size p - n)).setSize b n).size x =
      if x = b then n else if x = p then m.size p - n else m.size x := by
    rw [setSize_size, setSize_size]
  have sizeF {x : Nat} (member : x ∈ F ∨ x ∈ U) (other : x ≠ p) :
      ((m.setSize p (m.size p - n)).setSize b n).size x = m.size x := by
    rw [size, if_neg (fresh member), if_neg other]
  have sizeP : ((m.setSize p (m.size p - n)).setSize b n).size p = m.size p - n := by
    rw [size, if_neg apart, if_pos rfl]
  have sizeB : ((m.setSize p (m.size p - n)).setSize b n).size b = n := by
    rw [size, if_pos rfl]
  have link (x : Nat) : ((m.setSize p (m.size p - n)).setSize b n).next x = m.next x := by
    rw [setSize_next, setSize_next]
  have away {x : Nat} (member : x ∈ U) : x ≠ p := fun same =>
    blocks.live x member (same ▸ node)
  obtain ⟨r, inR, start, stop⟩ := blocks.inside p (Or.inl node) inner
  refine ⟨⟨Blocks.setFreep ?_ prev, ?_, last⟩,
    fun live => fresh (Or.inr live) rfl, fun a live => ⟨away live, fresh (Or.inr live)⟩⟩
  · refine blocks.insert_live (blocks.regions.congr rfl rfl rfl) rfl link (fun _ inR => inR) ?_ ?_
      (by rw [sizeB]; exact positive) (fun _ => fresh) ?_ ⟨r, inR, by omega, ?_⟩ ?_
    · intro x old
      by_cases here : x = p
      · rw [here, sizeP]
        omega
      · rw [sizeF old here]
    · intro x old other
      by_cases here : x = p
      · rw [here, sizeP]
        omega
      · rw [sizeF old here]
        exact blocks.pos x old other
    -- What is left of `p` ends where the block begins, and the block where `p` ended.
    · intro x old
      rw [sizeB]
      by_cases here : x = p
      · rw [here, sizeP]
        omega
      · rw [sizeF old here]
        rcases Nat.lt_or_gt_of_ne here with below | above
        · have room := blocks.disjoint x p old (Or.inl node) below
          omega
        · have room := blocks.disjoint p x (Or.inl node) old above
          omega
    · rw [sizeB]
      omega
    · have live : ∑ x ∈ U, ((m.setSize p (m.size p - n)).setSize b n).size x =
          ∑ x ∈ U, m.size x :=
        Finset.sum_congr rfl fun x member => sizeF (Or.inr member) (away member)
      have free : ∑ x ∈ F.erase p, ((m.setSize p (m.size p - n)).setSize b n).size x =
          ∑ x ∈ F.erase p, m.size x :=
        Finset.sum_congr rfl fun x member =>
          sizeF (Or.inl (Finset.mem_of_mem_erase member)) (Finset.ne_of_mem_erase member)
      have total := blocks.total
      rw [← Finset.add_sum_erase F m.size node] at total
      rw [← Finset.add_sum_erase F _ node, free, sizeP, live, sizeB]
      change _ = (m.regions.map Prod.snd).sum
      omega
  · intro x free
    right
    change ((m.setSize p _).setSize b n).next x = x ∨
      x + 16 * ((m.setSize p _).setSize b n).size x ≠ ((m.setSize p _).setSize b n).next x
    rw [link]
    by_cases here : x = p
    · right
      rw [here, sizeP, cutAt]
      exact Ne.symm (fresh (Or.inl (blocks.ring.next_mem node)))
    · rw [sizeF (Or.inl free) here]
      rcases order.merged x free with none | rest
      · exact none.elim
      · exact rest

/-- `malloc` in a block that is large enough. -/
theorem InOrder.take (order : m.InOrder F U) (node : p ∈ F) {n : Nat} (positive : 0 < n)
    (large : n ≤ m.size (m.next p)) : ∃ m' F' b, m.take p (m.next p) n = (m', b + headerSize) ∧
      m'.InOrder F' (insert b U) ∧ SameRegions m m' ∧ b ∉ U ∧ m'.size b = n ∧
      ∀ a ∈ U, m'.size a = m.size a := by
  have blocks := order.blocks
  have neighbour := blocks.ring.next_mem node
  have small := blocks.size_small (Or.inl neighbour)
  by_cases whole : m.size (m.next p) = n
  · have inner : m.next p ≠ m.base := by
      intro same
      rw [same, blocks.base_size] at whole
      omega
    refine ⟨_, _, m.next p, ?_, order.take_whole node inner, ⟨rfl, rfl, rfl⟩, ?_, ?_, ?_⟩
    · unfold Heap.take
      rw [if_pos whole]
    · exact fun live => blocks.live _ live neighbour
    · exact (setPtr_size m p _ _).trans whole
    · exact fun a _ => setPtr_size m p _ a
  · have larger : n < m.size (m.next p) := Nat.lt_of_le_of_ne large (Ne.symm whole)
    obtain ⟨taken, fresh, others⟩ := order.take_end node neighbour positive larger
    have rest : unsigned (m.size (m.next p) - n) = m.size (m.next p) - n :=
      Nat.mod_eq_of_lt (by omega)
    refine ⟨_, _, m.next p + 16 * (m.size (m.next p) - n), ?_, taken, ⟨rfl, rfl, rfl⟩, fresh, ?_,
      ?_⟩
    · unfold Heap.take
      rw [if_neg whole]
      dsimp only
      rw [rest, setSize_size, if_pos rfl]
    · exact (setSize_size _ _ _ _).trans (if_pos rfl)
    · intro a live
      obtain ⟨notP, notB⟩ := others a live
      refine (setSize_size _ _ _ _).trans ?_
      rw [if_neg notB, setSize_size, if_neg notP]

end Heap

end LateOS
