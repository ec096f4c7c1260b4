import LateOS.Heap.Sizes

/-!
# The order of frees

The free blocks are what the live blocks leave of the regions, merged wherever they touch. So the
free list is known once the live blocks are, and the order in which blocks were freed leaves no
trace in it.
-/
namespace LateOS

open Lib

namespace Heap

variable {m m' : Heap} {F F' U : Finset Nat} {r : Nat × Nat} {fuel p : Nat} {nu : Int}

/-! ## The free list as a set of intervals -/

/-- The free blocks besides `base`, each with its address and its units. -/
def freeUnits (m : Heap) (F : Finset Nat) : Set (Nat × Nat) :=
  {r | r.1 ∈ F ∧ r.1 ≠ m.base ∧ r.2 = m.size r.1}

/-- The bytes of a block or a region. -/
def bytes (r : Nat × Nat) : Nat × Nat := (r.1, 16 * r.2)

theorem bytes_injective : Function.Injective bytes := by
  intro r s same
  have start : r.1 = s.1 := (Prod.ext_iff.mp same).1
  have length : 16 * r.2 = 16 * s.2 := (Prod.ext_iff.mp same).2
  apply Prod.ext start
  omega

/-- A free block that ends where another begins would have been merged with it. -/
theorem InOrder.apart (order : m.InOrder F U) {a b : Nat} (freeA : a ∈ F) (freeB : b ∈ F)
    (less : a < b) : a + 16 * m.size a < b := by
  have blocks := order.blocks
  have next := blocks.ring.next_mem freeA
  have room := blocks.disjoint a b (Or.inl freeA) (Or.inl freeB) less
  apply Nat.lt_of_le_of_ne room
  intro touch
  rcases (blocks.ring a freeA).2 with ⟨above, nearest⟩ | ⟨_, all⟩
  · -- Between `a` and `b` there is no room for another block.
    have behind := blocks.disjoint a (m.next a) (Or.inl freeA) (Or.inl next) above
    rcases nearest b freeB with before | past
    · omega
    · rcases order.merged a freeA with none | own | gap
      · exact none.elim
      · omega
      · omega
  -- `a` is the last block of the list, and nothing lies behind it.
  · have last := (all b freeB).2
    omega

theorem InOrder.separated (order : m.InOrder F U) : Separated (bytes '' m.freeUnits F) := by
  have blocks := order.blocks
  constructor
  · rintro _ ⟨r, ⟨free, other, units⟩, rfl⟩
    have positive := blocks.pos r.1 (Or.inl free) other
    change 0 < 16 * r.2
    omega
  · rintro _ ⟨r, ⟨freeR, otherR, unitsR⟩, rfl⟩ _ ⟨s, ⟨freeS, otherS, unitsS⟩, rfl⟩
    simp only [bytes]
    rcases Nat.lt_trichotomy r.1 s.1 with less | same | more
    · have gap := order.apart freeR freeS less
      omega
    · left
      rw [unitsR, unitsS, same]
    · have gap := order.apart freeS freeR more
      omega

/-- Regions, too, are apart. -/
theorem Regions.separated (regions : m.Regions) (filled : ∀ r ∈ m.regions, 0 < r.2) :
    Separated (bytes '' {r | r ∈ m.regions}) := by
  constructor
  · rintro _ ⟨r, inR, rfl⟩
    have positive := filled r inR
    change 0 < 16 * r.2
    omega
  · rintro _ ⟨r, inR, rfl⟩ _ ⟨s, inS, rfl⟩
    simp only [bytes]
    -- `sbrk` never hands out regions that touch.
    rcases regions.gap r inR s inS with rfl | before | behind
    · exact Or.inl rfl
    · exact Or.inr (Or.inl before)
    · exact Or.inr (Or.inr behind)

/-- The free blocks cover what the live ones leave of the regions. -/
theorem Blocks.free_covered (blocks : m.Blocks F U) : covered (bytes '' m.freeUnits F) =
    {x | x ∈ covered (bytes '' {r | r ∈ m.regions}) ∧ ∀ b ∈ U, ¬(b ≤ x ∧ x < b + 16 * m.size b)} := by
  ext x
  constructor
  · rintro ⟨_, ⟨r, ⟨free, other, units⟩, rfl⟩, low, high⟩
    simp only [bytes, units] at low high
    obtain ⟨q, inQ, start, stop⟩ := blocks.inside r.1 (Or.inl free) other
    have inside : x ∈ covered (bytes '' {r | r ∈ m.regions}) := by
      refine ⟨bytes q, ⟨q, inQ, rfl⟩, ?_, ?_⟩
      · exact Nat.le_trans start low
      · exact Nat.lt_of_lt_of_le high stop
    refine ⟨inside, fun b live within => ?_⟩
    -- No block overlaps another, and so a free one has no byte of a live one.
    have apart : r.1 ≠ b := fun same => blocks.live b live (same ▸ free)
    rcases Nat.lt_or_gt_of_ne apart with less | more
    · have room := blocks.disjoint r.1 b (Or.inl free) (Or.inr live) less
      omega
    · have room := blocks.disjoint b r.1 (Or.inr live) (Or.inl free) more
      omega
  -- The blocks tile the regions: a byte is in some block, and it is not a live one.
  · rintro ⟨⟨_, ⟨r, inR, rfl⟩, low, high⟩, unused⟩
    obtain ⟨a, free | live, other, start, stop⟩ := blocks.tiles inR low high
    · exact ⟨bytes (a, m.size a), ⟨(a, m.size a), ⟨free, other, rfl⟩, rfl⟩, start, stop⟩
    · exact absurd ⟨start, stop⟩ (unused a live)

/-- The live blocks determine the free ones. -/
theorem InOrder.determined (order : m.InOrder F U) (order' : m'.InOrder F' U)
    (regions : m'.regions = m.regions) (size : ∀ b ∈ U, m'.size b = m.size b) : m.freeUnits F = m'.freeUnits F' := by
  have same : covered (bytes '' m.freeUnits F) = covered (bytes '' m'.freeUnits F') := by
    rw [order.blocks.free_covered, order'.blocks.free_covered, regions]
    ext x
    constructor
    · rintro ⟨inside, unused⟩
      refine ⟨inside, fun b live => ?_⟩
      rw [size b live]
      exact unused b live
    · rintro ⟨inside, unused⟩
      refine ⟨inside, fun b live => ?_⟩
      rw [← size b live]
      exact unused b live
  -- Intervals with room between them are known by the numbers that they cover.
  exact (Set.image_injective.mpr bytes_injective) (order.separated.ext order'.separated same)

/-- Without live blocks, the free ones are the regions. -/
theorem InOrder.all_free (order : m.InOrder F ∅) (filled : ∀ r ∈ m.regions, 0 < r.2) :
    m.freeUnits F = {r | r ∈ m.regions} := by
  apply Set.image_injective.mpr bytes_injective
  apply order.separated.ext (order.blocks.regions.separated filled)
  rw [order.blocks.free_covered]
  ext x
  constructor
  · exact fun both => both.1
  · exact fun inside => ⟨inside, fun b live => absurd live (Finset.notMem_empty b)⟩

/-! ## The regions are distinct -/

/-- No region has been counted twice. -/
structure Distinct (m : Heap) : Prop where
  once : m.regions.Nodup
  below : ∀ r ∈ m.regions, r.1 < m.brk

theorem Distinct.of_same (distinct : m.Distinct) (same : SameRegions m m') : m'.Distinct := by
  obtain ⟨_, brk, regions⟩ := same
  obtain ⟨once, below⟩ := distinct
  constructor
  · rwa [regions]
  · rwa [regions, brk]

/-- A new region begins at the break, behind all others. -/
theorem Distinct.morecore (distinct : m.Distinct) (more : m.morecore fuel nu = some (m', p)) :
    m'.Distinct := by
  obtain ⟨once, below⟩ := distinct
  rcases morecore_cases more with ⟨_, _, rfl⟩ | ⟨_, freed⟩
  · exact ⟨once, fun r inR => Nat.lt_add_right _ (below r inR)⟩
  · by_cases empty : regionBytes (asked nu) = 0
    · -- With no page mapped, the program has ended, unless `sbrk` failed.
      rw [morecore_eq, if_pos empty] at more
      split at more
      · cases more
        exact ⟨once, fun r inR => Nat.lt_add_right _ (below r inR)⟩
      · cases more
    · have grown : (m.grown (asked nu)).Distinct := by
        constructor
        · apply List.nodup_cons.mpr
          exact ⟨fun old => Nat.lt_irrefl _ (below _ old), once⟩
        · intro r inR
          rcases List.mem_cons.mp inR with rfl | old
          · exact Nat.lt_add_of_pos_right (Nat.pos_of_ne_zero empty)
          · exact Nat.lt_add_right _ (below r old)
      exact grown.of_same (free_regions freed)

/-! ## The list that a program sees -/

/-- `base` and the other free blocks are what is reached from `freep`. -/
theorem InOrder.reached (order : m.InOrder F U) :
    {r : Nat × Nat | (∃ n, m.next^[n] m.freep = r.1) ∧ r.2 = m.size r.1} =
      insert (m.base, 0) (m.freeUnits F) := by
  have blocks := order.blocks
  have ring := blocks.ring
  ext r
  constructor
  · rintro ⟨⟨n, here⟩, units⟩
    have free : r.1 ∈ F := here ▸ ring.iterate_mem order.freep n
    by_cases same : r.1 = m.base
    · left
      rw [same, blocks.base_size] at units
      exact Prod.ext same units
    · exact Or.inr ⟨free, same, units⟩
  · rintro (rfl | ⟨free, _, units⟩)
    · exact ⟨ring.reaches order.freep blocks.base_free, blocks.base_size.symm⟩
    · exact ⟨ring.reaches order.freep free, units⟩

end Heap

namespace Session

variable {s s' t t' : Session} {c : HeapCall} {bs bs' : List Nat}

/-- The blocks on the free list, each with its address and its units. -/
def freeBlocks (s : Session) : Set (Nat × Nat) :=
  {r | (∃ n, s.heap.next^[n] s.heap.freep = r.1) ∧ r.2 = s.heap.size r.1}

/-- The blocks `bs` are freed one after the other. -/
def Frees : Session → List Nat → Session → Prop
  | s, [], t => t = s
  | s, b :: rest, t => ∃ s', s.Step (.free (b + headerSize)) s' ∧ Frees s' rest t

/-- In whatever order live blocks are freed, the free blocks are the same in the end; and when none
is left live, they are `base` and the regions. -/
structure Commutes (s : Session) : Prop where
  order : ∀ bs bs' : List Nat, bs.Nodup → (∀ b ∈ bs, b ∈ s.live) → bs.Perm bs' →
    ∃ t t', s.Frees bs t ∧ s.Frees bs' t' ∧ t.freeBlocks = t'.freeBlocks
  all : s.heap.freep ≠ 0 → ∀ bs : List Nat, bs.Nodup → (∀ b, b ∈ bs ↔ b ∈ s.live) →
    ∃ t, s.Frees bs t ∧ t.freeBlocks = insert (s.heap.base, 0) {r | r ∈ s.heap.regions}
  once : s.heap.regions.Nodup

/-- What remains to be said of the run does not depend on how it is reached. -/
theorem Frees.unique (left : s.Frees bs t) (right : s.Frees bs t') : t = t' := by
  induction bs generalizing s with
  | nil => exact left.trans right.symm
  | cons b rest ih =>
    obtain ⟨s₁, step₁, left⟩ := left
    obtain ⟨s₂, step₂, right⟩ := right
    rw [step₁.unique step₂] at left
    exact ih left right

/-! ## Freeing several blocks -/

/-- Frees of live blocks return, and touch no other live block. -/
theorem frees {free : Finset Nat} (order : s.heap.InOrder free s.live) (distinct : bs.Nodup)
    (live : ∀ b ∈ bs, b ∈ s.live) : ∃ t, s.Frees bs t ∧ (∃ free', t.heap.InOrder free' t.live) ∧
      Heap.SameRegions s.heap t.heap ∧ (∀ b, b ∈ t.live ↔ b ∈ s.live ∧ b ∉ bs) ∧
      ∀ b ∈ t.live, t.heap.size b = s.heap.size b := by
  induction bs generalizing s free with
  | nil => exact ⟨s, rfl, ⟨free, order⟩, ⟨rfl, rfl, rfl⟩, by simp, fun _ _ => rfl⟩
  | cons b rest ih =>
    obtain ⟨fresh, distinct⟩ := List.nodup_cons.mp distinct
    have ordered := (Ordered.of_order order).1
    obtain ⟨s', step, ⟨free', order'⟩, same, fewer, _, size⟩ :=
      ordered.free ⟨b, live b List.mem_cons_self, rfl⟩
    rw [Nat.add_sub_cancel] at fewer
    have live' : ∀ x ∈ rest, x ∈ s'.live := by
      intro x member
      rw [fewer]
      apply Finset.mem_erase.mpr
      exact ⟨fun here => fresh (here ▸ member), live x (List.mem_cons_of_mem b member)⟩
    -- The others are still live behind the first `free`, and keep their sizes.
    obtain ⟨t, freed, after, same', left, size'⟩ := ih order' distinct live'
    refine ⟨t, ⟨s', step, freed⟩, after, ?_, ?_, ?_⟩
    · exact ⟨same'.base.trans same.base, same'.brk.trans same.brk,
        same'.regions.trans same.regions⟩
    · intro x
      rw [left, fewer, Finset.mem_erase, List.mem_cons, not_or]
      tauto
    · intro x member
      rw [size' x member, size x ((left x).mp member).1]

/-- The heap is in order, with `base` below it and its regions distinct. -/
structure Kept (s : Session) : Prop where
  ordered : ∃ free, s.Ordered free
  placed : s.heap.Placed
  distinct : s.heap.Distinct

theorem Fresh.kept (fresh : s.Fresh) (low : s.heap.base + headerSize < s.heap.brk) : s.Kept := by
  have none : s.heap.regions = [] := fresh.regions
  refine ⟨⟨_, fresh.ordered⟩, (fresh.settled low).2, ?_, ?_⟩
  · rw [none]
    exact List.nodup_nil
  · rw [none]
    exact fun r inR => absurd inR List.not_mem_nil

theorem Kept.step (kept : s.Kept) (fits : s.Fits c) (step : s.Step c s') : s'.Kept := by
  obtain ⟨⟨free, ordered⟩, placed, distinct⟩ := kept
  have placed' : s'.heap.Placed :=
    step.keeps Heap.Placed.of_same (fun before more => before.morecore more) placed
  have distinct' : s'.heap.Distinct :=
    step.keeps Heap.Distinct.of_same (fun before more => before.morecore more) distinct
  have apart : s'.BaseApart := fun r inR => Or.inl (placed'.apart r inR)
  exact ⟨(ordered.step step fits apart).1, placed', distinct'⟩

/-- Two runs of frees that leave the same live blocks leave the same free ones. -/
theorem Kept.commutes (kept : s.Kept) : s.Commutes := by
  obtain ⟨⟨free, ordered⟩, placed, distinct⟩ := kept
  refine ⟨?_, ?_, distinct.once⟩
  · intro bs bs' different live perm
    by_cases unset : s.heap.freep = 0
    · -- Before the first `malloc` there is nothing to free.
      have none : bs = [] := by
        apply List.eq_nil_iff_forall_not_mem.mpr
        intro b member
        have inside := live b member
        rw [ordered.unused unset] at inside
        exact Finset.notMem_empty b inside
      subst none
      rw [List.nil_perm] at perm
      subst perm
      exact ⟨s, s, rfl, rfl, rfl⟩
    · have order := ordered.used unset
      obtain ⟨t, freed, ⟨F, after⟩, same, left, size⟩ := frees order different live
      obtain ⟨t', freed', ⟨F', after'⟩, same', left', size'⟩ :=
        frees order (perm.nodup_iff.mp different) fun b member => live b (perm.mem_iff.mpr member)
      have still : t'.live = t.live := by
        ext b
        rw [left, left', perm.mem_iff]
      rw [still] at after' size'
      -- Both heaps have the same regions and the same live blocks.
      have units := after.determined after' (same'.regions.trans same.regions.symm) fun b member =>
        (size' b member).trans (size b member).symm
      refine ⟨t, t', freed, freed', ?_⟩
      unfold freeBlocks
      rw [after.reached, after'.reached, same.base, same'.base, units]
  · intro used bs different every
    obtain ⟨t, freed, ⟨F, after⟩, same, left, _⟩ :=
      frees (ordered.used used) different fun b member => (every b).mp member
    have none : t.live = ∅ := by
      apply Finset.eq_empty_of_forall_notMem
      intro b member
      obtain ⟨live, out⟩ := (left b).mp member
      exact out ((every b).mpr live)
    rw [none] at after
    have filled : ∀ r ∈ t.heap.regions, 0 < r.2 := by
      rw [same.regions]
      exact placed.filled
    refine ⟨t, freed, ?_⟩
    unfold freeBlocks
    rw [after.reached, after.all_free filled, same.base, same.regions]

/-! ## Whole programs -/

theorem Kept.along {run : List (HeapCall × Session)} (kept : s.Kept) (ran : Along Step s run)
    (fits : Along (fun s c _ => s.Fits c) s run) : Along (fun _ _ s' => s'.Kept) s run := by
  have preserved (s : Session) (c : HeapCall) (s' : Session) (kept : s.Kept)
      (step : s.Fits c ∧ s.Step c s') : s'.Kept := kept.step step.1 step.2
  exact (Along.invariant preserved kept (fits.and ran)).mono fun _ _ _ step => step.2.2

/-- While no unit count is cut to zero or too large, the order of frees does not matter in any state
that a program reaches. -/
theorem frees_commute {start : Session} {run : List (HeapCall × Session)} (fresh : start.Fresh)
    (low : start.heap.base + headerSize < start.heap.brk) (ran : Along Step start run)
    (fits : Along (fun s c _ => s.Fits c) start run) :
    start.Commutes ∧ Along (fun _ _ s' => s'.Commutes) start run := by
  have kept := fresh.kept low
  exact ⟨kept.commutes, (kept.along ran fits).mono fun _ _ _ after => after.commutes⟩

theorem mergingRun_fits : Along (fun s c _ => s.Fits c) idleHeap mergingRun :=
  mergingRun_valid.mono fun _ _ _ step => step.1.fits

/-- With three blocks to free, and with the one that is left. -/
theorem frees_commute_of_merging : threeBlocks.Commutes ∧ merged.Commutes := by
  have commute := (frees_commute idleHeap_fresh (by decide) mergingRun_along mergingRun_fits).2
  simp only [mergingRun, along_cons] at commute
  exact ⟨commute.2.2.1, commute.2.2.2.2.1⟩

/-! ## A unit count that is cut to zero -/

/-- The request is 2^32 units with its header. -/
def cutToZero : Session := (oneBlock.call 4 (.malloc (2 ^ 36 - 16))).getD oneBlock

/-- Its block is the one already handed out, which loses its units: when it is freed, two units of
the region are missing. -/
theorem units_lost : idleHeap.Step (.malloc 10) oneBlock ∧
    oneBlock.Step (.malloc (2 ^ 36 - 16)) cutToZero ∧ cutToZero.live = oneBlock.live ∧
    ¬cutToZero.Commutes := by
  have live : cutToZero.live = {0x4B0FFFFF3FE0} := by decide
  refine ⟨⟨4, fun _ => rfl⟩, ⟨4, fun _ => rfl⟩, by decide, fun commutes => ?_⟩
  obtain ⟨t, freed, all⟩ := commutes.all (by decide) [0x4B0FFFFF3FE0] (by simp) (by simp [live])
  have known : cutToZero.Frees [0x4B0FFFFF3FE0]
      ((cutToZero.call 4 (.free 0x4B0FFFFF3FF0)).getD cutToZero) :=
    ⟨_, ⟨4, fun _ => rfl⟩, rfl⟩
  -- The whole region should be free again, with its 1024 units.
  have region : (0x4B0FFFFF0000, 1024) ∈ t.freeBlocks := by
    rw [all]
    exact Or.inr (by decide)
  rw [freed.unique known] at region
  exact absurd region.2 (by decide)

end Session

end LateOS
