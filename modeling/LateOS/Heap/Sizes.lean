import LateOS.Heap.Session

/-!
# Request sizes

On its way to the kernel the size of a request is rounded to units, cut to 32 bits, taken for an
`int`, and multiplied back into an `int`. Where all of it fits, `malloc` hands out a block that the
kernel has mapped; where a conversion loses something, it never does.
-/
namespace LateOS

open Lib

namespace Heap

variable {m m' : Heap} {F U : Finset Nat} {r : Nat × Nat} {a b n p bp nbytes fuel : Nat}

/-! ## The conversions -/

theorem int_le {n : Nat} (large : 2 ^ 31 ≤ n) : int n + 2 ^ 32 ≤ n := by
  unfold int
  rw [BitVec.toInt_eq_toNat_cond, BitVec.toNat_ofNat]
  split
  next low =>
    have low : 2 * (n % 2 ^ 32) < 2 ^ 32 := low
    omega
  next => omega

/-- Some bytes at the end of a region that does not fit an `int` are never mapped. -/
theorem regionBytes_large (large : 2 ^ 27 ≤ n) : regionBytes n + 16 ≤ 16 * n := by
  have lost := int_le (n := n * headerSize) (by simp only [headerSize]; omega)
  unfold regionBytes
  simp only [headerSize, pageSize] at lost ⊢
  generalize int (n * 16) = i at lost ⊢
  rcases Int.lt_or_le i 0 with negative | natural
  · obtain ⟨k, rfl⟩ : ∃ k : Nat, i = -k := ⟨i.natAbs, by omega⟩
    rw [Int.neg_tdiv, ← Int.ofNat_tdiv]
    omega
  · obtain ⟨k, rfl⟩ := Int.eq_ofNat_of_zero_le natural
    rw [← Int.ofNat_tdiv]
    omega

theorem units_le (nbytes : Nat) : units nbytes ≤ Session.requestUnits nbytes := by
  unfold units Session.requestUnits unsigned
  simp only [headerSize]
  omega

/-- A unit count that has become small stands for a huge request. -/
theorem units_wrapped (size : nbytes < 2 ^ 64) (large : 2 ^ 27 ≤ Session.requestUnits nbytes)
    (small : units nbytes < 2 ^ 27) : 2 ^ 35 ≤ nbytes := by
  unfold units unsigned at small
  unfold Session.requestUnits at large
  simp only [headerSize] at small large
  omega

theorem asked_pos (nu : Int) : 0 < asked nu := by
  unfold asked
  simp only [nalloc]
  split <;> omega

/-! ## What the kernel has mapped -/

/-- The byte at `x` is in a page that `sbrk` has added to the heap. -/
def Mapped (m : Heap) (x : Nat) : Prop := ∃ r ∈ m.regions, r.1 ≤ x ∧ x < r.1 + regionBytes r.2

/-- `base` is static, below the heap, and no region is empty. -/
structure Placed (m : Heap) : Prop where
  below : m.base + headerSize < m.brk
  apart : ∀ r ∈ m.regions, m.base + headerSize < r.1
  filled : ∀ r ∈ m.regions, 0 < r.2

theorem Placed.of_same (placed : m.Placed) (same : SameRegions m m') : m'.Placed := by
  obtain ⟨base, brk, regions⟩ := same
  obtain ⟨below, apart, filled⟩ := placed
  constructor
  · rw [base, brk]
    exact below
  · rw [base, regions]
    exact apart
  · rw [regions]
    exact filled

theorem Placed.grown (placed : m.Placed) (positive : 0 < n) : (m.grown n).Placed := by
  obtain ⟨below, apart, filled⟩ := placed
  constructor
  · exact Nat.lt_add_right _ below
  · exact List.forall_mem_cons.mpr ⟨below, apart⟩
  · exact List.forall_mem_cons.mpr ⟨positive, filled⟩

/-- Every region has a block in it, since the blocks share out all of them. -/
theorem Blocks.occupied (blocks : m.Blocks F U) (inR : r ∈ m.regions) (filled : 0 < r.2) :
    ∃ c, (c ∈ F ∨ c ∈ U) ∧ c ≠ m.base ∧ r.1 ≤ c ∧ c + 16 * m.size c ≤ r.1 + 16 * r.2 := by
  obtain ⟨c, member, other, low, high⟩ := blocks.tiles inR (Nat.le_refl _) (by omega)
  obtain ⟨q, inQ, start, stop⟩ := blocks.inside c member other
  rcases blocks.regions.gap r inR q inQ with rfl | behind | before
  · exact ⟨c, member, other, start, stop⟩
  · omega
  · omega

/-- From inside a region, no more than 32 GiB can be mapped without another block in the way. -/
theorem Blocks.crowded (blocks : m.Blocks F U) (placed : m.Placed) (inR : r ∈ m.regions)
    (start : r.1 ≤ b) (stop : b ≤ r.1 + 16 * r.2) (large : 2 ^ 35 ≤ nbytes)
    (mapped : ∀ x, b + headerSize ≤ x → x < b + headerSize + nbytes → m.Mapped x) :
    ∃ c, (c ∈ F ∨ c ∈ U) ∧ c ≠ m.base ∧ r.1 + 16 * r.2 < c ∧ c < b + headerSize + nbytes := by
  simp only [headerSize] at mapped ⊢
  have small {q : Nat × Nat} (inQ : q ∈ m.regions) : regionBytes q.2 ≤ 16 * q.2 + 4096 := by
    rw [regionBytes_small (blocks.regions.small q inQ)]
    simp only [pageSize, headerSize]
    omega
  have boundR := blocks.regions.small r inR
  have bytesR := small inR
  -- A byte behind the pages of this region is in those of a later one.
  obtain ⟨q, inQ, low, high⟩ := mapped (r.1 + 2 ^ 31 + 8192) (by omega) (by omega)
  have boundQ := blocks.regions.small q inQ
  have bytesQ := small inQ
  have later : r.1 + 16 * r.2 < q.1 := by
    rcases blocks.regions.gap r inR q inQ with rfl | behind | before
    · omega
    · exact behind
    · omega
  obtain ⟨c, member, other, startC, stopC⟩ := blocks.occupied inQ (placed.filled q inQ)
  exact ⟨c, member, other, by omega, by omega⟩

/-! ## Fuel -/

theorem findSlot_mono {q : Nat} (found : m.findSlot bp fuel p = some q) (k : Nat) :
    m.findSlot bp (fuel + k) p = some q := by
  induction fuel generalizing p with
  | zero => cases found
  | succ fuel ih =>
    rw [findSlot_succ] at found
    rw [Nat.add_right_comm, findSlot_succ]
    split at found
    next here => rw [if_pos here, found]
    next away => rw [if_neg away, ih found]

theorem free_mono {ap : Nat} (freed : m.free fuel ap = some m') (k : Nat) :
    m.free (fuel + k) ap = some m' := by
  obtain ⟨p, found, rfl⟩ := Option.map_eq_some_iff.mp freed
  unfold Heap.free
  dsimp only
  rw [findSlot_mono found]
  rfl

theorem Placed.morecore (placed : m.Placed) {nu : Int}
    (more : m.morecore fuel nu = some (m', p)) : m'.Placed := by
  rcases morecore_cases more with ⟨_, _, rfl⟩ | ⟨_, freed⟩
  · exact ⟨Nat.lt_add_right _ placed.below, placed.apart, placed.filled⟩
  · exact (placed.grown (asked_pos nu)).of_same (free_regions freed)

theorem take_regions (m : Heap) (prev p n : Nat) : SameRegions m (m.take prev p n).1 := by
  unfold Heap.take
  split <;> exact ⟨rfl, rfl, rfl⟩

/-- However much fuel `morecore` has had, it leaves the heap in order. -/
theorem InOrder.morecore_order (order : m.InOrder F U) (placed : m.Placed) {nu : Int}
    (fits : asked nu < 2 ^ 27) (more : m.morecore fuel nu = some (m', p)) :
    (∃ F', m'.InOrder F' U) ∧ m'.Placed ∧ p = m'.freep := by
  rcases morecore_cases more with ⟨top, _⟩ | ⟨same, freed⟩
  · exact absurd top order.page
  · have positive := asked_pos nu
    obtain ⟨grownOrder, fresh⟩ :=
      order.grown positive fits (Or.inl placed.below)
    obtain ⟨m₁, F₁, ⟨k, returns⟩, order₁, _⟩ :=
      grownOrder.free (Finset.mem_insert_self m.brk U)
    rw [Finset.erase_insert fresh] at order₁
    have both := free_mono freed k
    rw [returns fuel] at both
    cases both
    exact ⟨⟨F₁, order₁⟩, placed.morecore more, same⟩

/-- The loop of `malloc` only adds regions at the break. -/
theorem search_placed {prev ap : Nat} (placed : m.Placed)
    (found : search n fuel m prev p = some (m', ap)) : m'.Placed := by
  refine search_inv (P := Heap.Placed) (fun s prev p before => ?_) (fun s s₁ fuel p before more => ?_)
    placed found
  · exact before.of_same (take_regions s prev p n)
  · exact before.morecore more

/-! ## Sizes that are too large for an int -/

/-- A unit count that is negative as an `int` gets a region of the least size each time that the
loop comes round, and no region is ever large enough. -/
theorem InOrder.search_never (order : m.InOrder F U) (placed : m.Placed) (large : 2 ^ 31 ≤ n)
    (word : n < 2 ^ 32) (fuel : Nat) (node : p ∈ F) :
    Heap.search n fuel m p (m.next p) = none := by
  have least : asked (int n) = nalloc := by
    have lost := int_le large
    unfold asked
    rw [if_pos (by simp only [nalloc]; omega)]
    rfl
  induction fuel generalizing m F p with
  | zero => rfl
  | succ fuel ih =>
    have small := order.blocks.size_small (Or.inl (order.blocks.ring.next_mem node))
    rw [search_succ, if_neg (by omega)]
    split
    · unfold Heap.regrow
      split
      · rfl
      next m₁ p₁ more =>
        obtain ⟨⟨F₁, order₁⟩, placed₁, rfl⟩ :=
          order.morecore_order placed (by rw [least]; decide) more
        rw [if_neg (order₁.node_pos (Or.inl order₁.freep))]
        exact ih order₁ placed₁ order₁.freep
    · exact ih order placed (order.blocks.ring.next_mem node)

/-! ## Sizes whose bytes are too large for an int -/

theorem asked_large (large : 2 ^ 27 ≤ n) (small : n < 2 ^ 31) : asked (int n) = n := by
  rw [int_small small, asked_natCast]
  unfold grant
  rw [if_neg (by simp only [nalloc]; omega)]

/-- With no page mapped, `morecore` faults at the header. -/
theorem InOrder.regrow_unmapped (order : m.InOrder F U) (large : 2 ^ 27 ≤ n) (small : n < 2 ^ 31)
    (none : regionBytes n = 0) (fuel : Nat) : Heap.regrow n fuel m = Option.none := by
  have faults : m.morecore fuel (int n) = Option.none := by
    rw [morecore_eq, asked_large large small, if_neg order.page, if_pos none]
  unfold Heap.regrow
  rw [faults]

/-- All blocks end below the break. -/
theorem InOrder.below_brk (order : m.InOrder F U) (placed : m.Placed) (member : a ∈ F ∨ a ∈ U) :
    a + 16 * m.size a < m.brk := by
  by_cases here : a = m.base
  · have below := placed.below
    rw [here, order.blocks.base_size]
    omega
  · obtain ⟨r, inR, _, stop⟩ := order.blocks.inside a member here
    have under := order.blocks.regions.below r inR
    omega

/-- The new block joins no other, and `free` sets `freep` to the one before it. -/
theorem InOrder.free_grown (order : m.InOrder F U) (placed : m.Placed) :
    ∃ p ∈ F, ∃ k, ∀ fuel, (m.grown n).free (fuel + k) (m.brk + headerSize) =
      some (((m.grown n).link p m.brk).setFreep p) := by
  have fresh : m.brk ∉ F := fun member => by
    have below := order.below_brk placed (Or.inl member)
    omega
  have next : (m.grown n).next = m.next := funext fun x => grown_next m n x
  have ring : CyclicList F (m.grown n).next := by
    rw [next]
    exact order.blocks.ring
  obtain ⟨p, node, place, k, found⟩ := findSlot_returns ring order.freep fresh
  refine ⟨p, node, k, fun fuel => ?_⟩
  have behind : m.next p ∈ F := order.blocks.ring.next_mem node
  have belowP := order.below_brk placed (Or.inl node)
  have belowQ := order.below_brk placed (Or.inl behind)
  have apart : p ≠ m.brk := by omega
  have upper : ¬m.brk + 16 * ((m.grown n).link p m.brk).size m.brk =
      ((m.grown n).link p m.brk).next m.brk := by
    rw [link_next, if_neg (Ne.symm apart), if_pos rfl, next]
    omega
  have lower : ¬p + 16 * ((m.grown n).link p m.brk).size p = ((m.grown n).link p m.brk).next p := by
    rw [link_next, if_pos rfl, link_size, grown_size, if_neg apart]
    omega
  have spliced : (m.grown n).splice p m.brk = ((m.grown n).link p m.brk).setFreep p := by
    rw [splice_eq apart (fun touch => by rw [next] at touch; omega)]
    unfold absorb
    rw [if_neg upper, if_neg lower]
  unfold Heap.free
  dsimp only
  have start : (m.grown n).freep = m.freep := rfl
  rw [Nat.add_sub_cancel, start, found fuel]
  exact congrArg some spliced

/-- A region of which only some pages are mapped is handed out whole. -/
theorem InOrder.regrow_partly (order : m.InOrder F U) (placed : m.Placed) (large : 2 ^ 27 ≤ n)
    (small : n < 2 ^ 31) (some1 : regionBytes n ≠ 0) :
    ∃ m', (∃ d, ∀ fuel, Heap.regrow n (fuel + d) m = some (m', m.brk + headerSize)) ∧
      m'.regions = (m.brk, n) :: m.regions := by
  obtain ⟨p, node, k, freed⟩ := order.free_grown (n := n) placed
  have positive : p ≠ 0 := order.node_pos (Or.inl node)
  have shape : ∃ h : Heap, (∀ fuel, m.morecore (fuel + k) (int n) = some (h, p)) ∧
      h.next p = m.brk ∧ h.size m.brk = n ∧ h.regions = (m.brk, n) :: m.regions := by
    refine ⟨((m.grown n).link p m.brk).setFreep p, fun fuel => ?_, ?_, ?_, rfl⟩
    · rw [morecore_eq, asked_large large small, if_neg order.page, if_neg some1, freed]
      rfl
    · change ((m.grown n).link p m.brk).next p = m.brk
      rw [link_next, if_pos rfl]
    · change ((m.grown n).link p m.brk).size m.brk = n
      rw [link_size, grown_size, if_pos rfl]
  obtain ⟨h, more, behind, size, regions⟩ := shape
  refine ⟨(h.setPtr p (h.next m.brk)).setFreep p, ⟨k + 1, fun fuel => ?_⟩, regions⟩
  unfold Heap.regrow
  rw [← Nat.add_assoc, Nat.add_right_comm, more (fuel + 1)]
  dsimp only
  -- The loop goes on behind `p`, which is where the new block is.
  rw [if_neg positive, Nat.add_right_comm, search_succ, behind, size, if_pos (Nat.le_refl n)]
  unfold Heap.take
  rw [size, if_pos rfl]

/-- A request for no units gets the bytes behind a free block, or those behind `base`. -/
theorem InOrder.search_zero (order : m.InOrder F U) (fuel : Nat) :
    ∃ m' b, Heap.search 0 (fuel + 1) m m.freep (m.next m.freep) = some (m', b + headerSize) ∧
      m'.regions = m.regions ∧
      (b = m.base ∨ m'.freep = m.freep ∧ m'.next = m.next ∧ m'.base = m.base ∧
        (∀ c, c ≠ b → m'.size c = m.size c) ∧
        ∃ r ∈ m.regions, r.1 ≤ b ∧ b ≤ r.1 + 16 * r.2) := by
  have member := order.blocks.ring.next_mem order.freep
  rw [search_succ, if_pos (Nat.zero_le _)]
  generalize m.next m.freep = p at member ⊢
  unfold Heap.take
  by_cases empty : m.size p = 0
  · rw [if_pos empty]
    refine ⟨_, p, rfl, rfl, Or.inl ?_⟩
    by_contra other
    have positive := order.blocks.pos p (Or.inl member) other
    omega
  · have other : p ≠ m.base := by
      rintro rfl
      exact empty order.blocks.base_size
    have small := order.blocks.size_small (Or.inl member)
    have whole : unsigned (m.size p - 0) = m.size p := Nat.mod_eq_of_lt (by omega)
    obtain ⟨r, inR, start, stop⟩ := order.blocks.inside p (Or.inl member) other
    have cut : (m.setSize p (m.size p)).size p = m.size p := by
      rw [setSize_size, if_pos rfl]
    rw [if_neg empty, whole]
    dsimp only
    rw [cut]
    refine ⟨_, p + headerSize * m.size p, rfl, rfl, Or.inr ⟨rfl, ?_, rfl, fun c away => ?_, r, inR,
      Nat.le_trans start (Nat.le_add_right _ _), stop⟩⟩
    · funext x
      exact (setSize_next _ _ _ _).trans (setSize_next _ _ _ _)
    · refine (setSize_size _ _ _ _).trans ?_
      rw [if_neg away, setSize_size]
      split
      next here => rw [here]
      next => rfl

end Heap

namespace Session

variable {s s' : Session} {free : Finset Nat} {nbytes b : Nat} {m' : Heap}

/-! ## What a request is promised -/

/-- No block in use and no free one reaches into the `nbytes` bytes of the block at `b`. -/
def Alone (s : Session) (nbytes : Nat) (m' : Heap) (b : Nat) : Prop :=
  ∀ c, (c ∈ s.live ∨ ∃ n, m'.next^[n] m'.freep = c) →
    c + ({ s with heap := m' } : Session).extent c ≤ b + headerSize ∨
      b + headerSize + nbytes ≤ c

/-- The block at `b` is a new one; its bytes are mapped, and they are in no other block. -/
structure NewBlock (s : Session) (nbytes : Nat) (m' : Heap) (b : Nat) : Prop where
  fresh : b ∉ s.live
  mapped : ∀ x, b + headerSize ≤ x → x < b + headerSize + nbytes → m'.Mapped x
  alone : s.Alone nbytes m' b

/-- The answer `ap` is NULL or the address behind the header of a new block. -/
def Answer (s : Session) (nbytes : Nat) (m' : Heap) (ap : Nat) : Prop :=
  ap = 0 ∨ ∃ b, ap = b + headerSize ∧ s.NewBlock nbytes m' b

/-- `malloc` returns, with such an answer. -/
def Hands (s : Session) (nbytes : Nat) : Prop :=
  ∃ m' ap, (∃ d, ∀ fuel, s.heap.malloc (fuel + d) nbytes = some (m', ap)) ∧ s.Answer nbytes m' ap

/-- No conversion changes the unit count, nor the bytes that `sbrk` is asked for. -/
structure NoWrap (nbytes : Nat) : Prop where
  nunits : Heap.units nbytes = requestUnits nbytes
  nu : int (Heap.units nbytes) = Heap.units nbytes
  increment : int (Heap.grant (Heap.units nbytes) * headerSize) =
    Heap.grant (Heap.units nbytes) * headerSize

/-- What `malloc` is to do with a request. -/
structure Promise (s : Session) (nbytes : Nat) : Prop where
  hands : s.Hands nbytes
  exact : NoWrap nbytes

theorem Answer.block (answer : s.Answer nbytes m' (b + headerSize)) : s.NewBlock nbytes m' b := by
  rcases answer with null | ⟨c, same, block⟩
  · cases null
  · rw [Nat.add_right_cancel same]
    exact block

theorem fits_iff (nbytes : Nat) : requestUnits nbytes * headerSize < 2 ^ 31 ↔ nbytes + 32 ≤ 2 ^ 31 := by
  unfold requestUnits
  simp only [headerSize]
  omega

/-! ## Sizes that fit -/

theorem noWrap_of_fits (fits : requestUnits nbytes * headerSize < 2 ^ 31) : NoWrap nbytes := by
  obtain ⟨same, _, bound, _⟩ := requestUnits_fit fits
  have most := Heap.le_grant (requestUnits nbytes)
  rw [← same] at bound most
  constructor
  case nunits => exact same
  case nu => exact Heap.int_small (by omega)
  case increment =>
    have small : Heap.grant (Heap.units nbytes) * headerSize < 2 ^ 31 := by
      simp only [headerSize]
      omega
    rw [Heap.int_small small]
    rfl

theorem Ready.hands (ready : s.Ready free) (placed : s.heap.started.Placed)
    (fits : requestUnits nbytes * headerSize < 2 ^ 31) : s.Hands nbytes := by
  have room : s.RoomFor (.malloc nbytes) := by
    obtain ⟨base, brk⟩ := started_frame s.heap
    have below := placed.below
    rw [base, brk] at below
    exact Or.inl below
  obtain ⟨m', b, returns, fresh, used, F', ready'⟩ := ready.malloc_block fits (Or.inl room)
  have sound := ready'.sound used
  have blocks : m'.Blocks F' (insert b s.live) := (ready'.ordered.used used).blocks
  have live : b ∈ insert b s.live := Finset.mem_insert_self b s.live
  have free : b ∉ F' := blocks.live b live
  have other : b ≠ m'.base := fun same => free (same ▸ blocks.base_free)
  have served : headerSize + nbytes ≤ headerSize * m'.size b := by
    have enough : headerSize + Function.update s.request b nbytes b ≤ headerSize * m'.size b :=
      sound.served b live
    rw [Function.update_self] at enough
    exact enough
  refine ⟨m', b + headerSize, returns, Or.inr ⟨b, rfl, fresh, fun x above below => ?_,
    fun c member => ?_⟩⟩
  · obtain ⟨r, inR, start, stop⟩ := blocks.inside b (Or.inr live) other
    refine ⟨r, inR, by omega, ?_⟩
    rw [Heap.regionBytes_small (blocks.regions.small r inR)]
    simp only [headerSize, pageSize] at above below served ⊢
    omega
  · have known : c ∈ F' ∨ c ∈ insert b s.live :=
      member.symm.imp (sound.reached c).mpr fun old => Finset.mem_insert_of_mem old
    have apart : c ≠ b := by
      rintro rfl
      rcases member with old | reached
      · exact fresh old
      · exact free ((sound.reached c).mpr reached)
    rcases sound.disjoint c b known (Or.inr live) apart with before | behind
    · left
      exact Nat.le_trans before (Nat.le_add_right _ _)
    · right
      have whole : b + headerSize * m'.size b ≤ c :=
        Nat.le_trans (Nat.add_le_add_left (if_neg other).ge b) behind
      omega

/-! ## Sizes that do not -/

/-- Another block lies behind the few bytes that this one has. -/
theorem NewBlock.crowded {m : Heap} {F U : Finset Nat} {r : Nat × Nat}
    (block : s.NewBlock nbytes m' b) (blocks : m.Blocks F U) (placed : m.Placed)
    (inR : r ∈ m.regions) (start : r.1 ≤ b) (stop : b ≤ r.1 + 16 * r.2) (large : 2 ^ 35 ≤ nbytes)
    (regions : m'.regions = m.regions) (base : m'.base = m.base)
    (reached : ∀ c ∈ F, ∃ n, m'.next^[n] m'.freep = c) (live : ∀ c ∈ U, c ≠ b → c ∈ s.live)
    (size : ∀ c, c ≠ b → m'.size c = m.size c) : False := by
  have mapped : ∀ x, b + headerSize ≤ x → x < b + headerSize + nbytes → m.Mapped x := by
    intro x above below
    have there := block.mapped x above below
    unfold Heap.Mapped at there
    rw [regions] at there
    exact there
  obtain ⟨c, member, other, above, below⟩ := blocks.crowded placed inR start stop large mapped
  have away : c ≠ b := by omega
  have positive := blocks.pos c member other
  have extent : ({ s with heap := m' } : Session).extent c = headerSize * m.size c := by
    unfold Session.extent
    rw [if_neg (by rw [base]; exact other), size c away]
  have clear := block.alone c (member.symm.imp (fun old => live c old away) (reached c))
  rw [extent] at clear
  simp only [headerSize] at clear below
  omega

variable {m : Heap} {n ap d : Nat}

/-- A count that has become small, but not zero, gets a block of that many units. -/
theorem Answer.not_small (answer : s.Answer nbytes m' ap) (order : m.InOrder free s.live)
    (placed : m.Placed) (positive : 0 < n) (small : n < 2 ^ 27) (large : 2 ^ 35 ≤ nbytes)
    (returns : ∀ fuel, Heap.search n (fuel + d) m m.freep (m.next m.freep) = some (m', ap)) :
    False := by
  have fits : Heap.grant n < 2 ^ 27 := by
    unfold Heap.grant
    split
    · decide
    · exact small
  obtain ⟨m₁, b, ⟨d₁, found⟩, ⟨F₁, order₁⟩, _⟩ :=
    order.search positive fits (Or.inl (Or.inl placed.below))
  have same := returns d₁
  rw [Nat.add_comm, found] at same
  cases same
  have placed₁ := Heap.search_placed placed (found 0)
  have blocks := order₁.blocks
  have live := Finset.mem_insert_self b s.live
  have other : b ≠ m'.base := fun same => blocks.live b live (same ▸ blocks.base_free)
  obtain ⟨r, inR, start, stop⟩ := blocks.inside b (Or.inr live) other
  exact answer.block.crowded blocks placed₁ inR start (by omega) large rfl rfl
    (fun c member => blocks.ring.reaches order₁.freep member)
    (fun c member away => Finset.mem_of_mem_insert_of_ne member away) fun c _ => rfl

/-- A count that has become zero gets the bytes behind a block, which no region has room for. -/
theorem Answer.not_zero (answer : s.Answer nbytes m' ap) (order : m.InOrder free s.live)
    (placed : m.Placed) (large : 2 ^ 35 ≤ nbytes)
    (returns : ∀ fuel, Heap.search 0 (fuel + d) m m.freep (m.next m.freep) = some (m', ap)) :
    False := by
  obtain ⟨m₁, b, found, regions, place⟩ := order.search_zero d
  have same := returns 1
  rw [Nat.add_comm, found] at same
  cases same
  have block := answer.block
  rcases place with rfl | ⟨freep, next, base, size, r, inR, start, stop⟩
  · -- Nothing is mapped behind `base`.
    obtain ⟨r, inR, start, _⟩ := block.mapped (m.base + headerSize) (Nat.le_refl _) (by omega)
    rw [regions] at inR
    have apart := placed.apart r inR
    omega
  · refine block.crowded order.blocks placed inR start stop large regions base (fun c member => ?_)
      (fun c old _ => old) size
    rw [next, freep]
    exact order.blocks.ring.reaches order.freep member

/-- A count whose bytes do not fit an `int` gets a block that is not all mapped, or none. -/
theorem Answer.not_mapped (answer : s.Answer nbytes m' ap) (order : m.InOrder free s.live)
    (placed : m.Placed) (large : 2 ^ 27 ≤ n) (small : n < 2 ^ 31) (enough : 16 * n < nbytes + 32)
    (returns : ∀ fuel, Heap.search n (fuel + d) m m.freep (m.next m.freep) = some (m', ap)) :
    False := by
  have ring := order.blocks.ring
  obtain ⟨steps, reached⟩ := ring.reaches (ring.next_mem order.freep) order.freep
  rcases Heap.search_walk ring n order.freep reached with ⟨p, node, fits, _⟩ | ⟨_, d₁, grows⟩
  · have bound := order.blocks.size_small (Or.inl (ring.next_mem node))
    omega
  · have regrown (fuel : Nat) : Heap.regrow n (fuel + d) m = some (m', ap) := by
      rw [← grows, Nat.add_right_comm]
      exact returns (fuel + d₁)
    by_cases none : Heap.regionBytes n = 0
    · have faults := regrown 0
      rw [order.regrow_unmapped large small none] at faults
      cases faults
    · obtain ⟨m₁, ⟨d₂, found⟩, regions⟩ := order.regrow_partly placed large small none
      have same := regrown d₂
      rw [Nat.add_comm, found] at same
      cases same
      -- The first byte behind the mapped pages of the new region is in no region.
      have bytes := Heap.regionBytes_large large
      have page : pageSize ≤ Heap.regionBytes n :=
        Nat.le_of_dvd (Nat.pos_of_ne_zero none) (Nat.dvd_mul_right _ _)
      simp only [pageSize] at page
      obtain ⟨r, inR, start, stop⟩ := answer.block.mapped (m.brk + Heap.regionBytes n)
        (by simp only [headerSize]; omega) (by simp only [headerSize]; omega)
      rw [regions] at inR
      rcases List.mem_cons.mp inR with rfl | old
      · exact absurd stop (Nat.lt_irrefl _)
      · have below := order.blocks.regions.below r old
        rw [Heap.regionBytes_small (order.blocks.regions.small r old)] at stop
        simp only [pageSize, headerSize] at stop
        omega

theorem Ready.not_hands (ready : s.Ready free) (placed : s.heap.started.Placed)
    (size : nbytes < 2 ^ 64) (lost : ¬requestUnits nbytes * headerSize < 2 ^ 31) :
    ¬s.Hands nbytes := by
  rintro ⟨m', ap, ⟨d, returns⟩, answer⟩
  have order := ready.order
  have large : 2 ^ 27 ≤ requestUnits nbytes := by
    simp only [headerSize] at lost
    omega
  by_cases small : Heap.units nbytes < 2 ^ 27
  · have huge := Heap.units_wrapped size large small
    by_cases zero : Heap.units nbytes = 0
    · have returns (fuel : Nat) := returns fuel
      unfold Heap.malloc at returns
      rw [zero] at returns
      exact answer.not_zero order placed huge returns
    · exact answer.not_small order placed (Nat.pos_of_ne_zero zero) small huge returns
  · by_cases fits : Heap.units nbytes < 2 ^ 31
    · have most := Heap.units_le nbytes
      have enough : 16 * Heap.units nbytes < nbytes + 32 := by
        unfold requestUnits at most
        simp only [headerSize] at most
        omega
      exact answer.not_mapped order placed (by omega) fits enough returns
    · have word : Heap.units nbytes < 2 ^ 32 := Nat.mod_lt _ (by decide)
      have never := order.search_never placed (Nat.le_of_not_lt fits) word (0 + d) order.freep
      have found := returns 0
      unfold Heap.malloc at found
      dsimp only at found
      rw [never] at found
      cases found

/-! ## Whole programs -/

theorem started_same (m : Heap) : Heap.SameRegions m m.started := by
  unfold Heap.started
  split <;> exact ⟨rfl, rfl, rfl⟩

/-- The heap is in order, and `base` lies below it. -/
def Settled (s : Session) : Prop := (∃ free, s.Ready free) ∧ s.heap.Placed

theorem Fresh.settled (fresh : s.Fresh) (low : s.heap.base + headerSize < s.heap.brk) :
    s.Settled := by
  have none : ∀ r, r ∉ s.heap.regions := by
    rw [fresh.regions]
    exact fun r => List.not_mem_nil
  exact ⟨⟨_, fresh.ready⟩, low, fun r inR => absurd inR (none r), fun r inR => absurd inR (none r)⟩

/-- What `free` and `morecore` keep, a call keeps. -/
theorem Step.keeps {P : Heap → Prop} {c : HeapCall}
    (of_same : ∀ {m m'}, P m → Heap.SameRegions m m' → P m')
    (more : ∀ {m m' fuel nu p}, P m → Heap.morecore m fuel nu = some (m', p) → P m')
    (step : s.Step c s') (holds : P s.heap) : P s'.heap := by
  obtain ⟨d, returned⟩ := step
  have found := returned 0
  cases c with
  | malloc nbytes =>
    obtain ⟨⟨m', ap⟩, searched, rfl⟩ := Option.map_eq_some_iff.mp found
    have after : P m' := Heap.search_inv (fun m prev p before =>
      of_same before (Heap.take_regions m prev p _)) (fun m m' fuel p before => more before)
      (of_same holds (started_same s.heap)) searched
    dsimp only
    split <;> exact after
  | free ap =>
    obtain ⟨m', freed, rfl⟩ := Option.map_eq_some_iff.mp found
    exact of_same holds (Heap.free_regions freed)
  | write a cell =>
    cases found
    exact of_same holds ⟨rfl, rfl, rfl⟩

theorem Settled.step {c : HeapCall} (settled : s.Settled) (valid : s.Valid c) (step : s.Step c s') :
    s'.Settled := by
  obtain ⟨⟨free, ready⟩, placed⟩ := settled
  have after : s'.heap.Placed := step.keeps Heap.Placed.of_same (fun before more => before.morecore more) placed
  have apart : s'.BaseApart := fun r inR => Or.inl (after.apart r inR)
  exact ⟨(ready.step step valid apart).1, after⟩

theorem Settled.hands_iff (settled : s.Settled) (size : nbytes < 2 ^ 64) :
    s.Hands nbytes ↔ nbytes + 32 ≤ 2 ^ 31 := by
  obtain ⟨⟨free, ready⟩, placed⟩ := settled
  have placed' := placed.of_same (started_same s.heap)
  rw [← fits_iff]
  constructor
  · intro hands
    by_contra lost
    exact ready.not_hands placed' size lost hands
  · exact ready.hands placed'

/-- In every heap that a program can have made with requests that fit, `malloc` keeps its promise
exactly for those that fit again: for any other, it does not even hand out a block. -/
theorem malloc_promise_iff {start : Session} {run : List (HeapCall × Session)} (fresh : start.Fresh)
    (low : start.heap.base + headerSize < start.heap.brk) (ran : Along Step start run)
    (valid : Along (fun s c _ => s.Valid c) start run) (size : nbytes < 2 ^ 64) :
    ((lastState start run).Promise nbytes ↔ nbytes + 32 ≤ 2 ^ 31) ∧
      ((lastState start run).Hands nbytes ↔ nbytes + 32 ≤ 2 ^ 31) := by
  have settled : (lastState start run).Settled :=
    (ran.and valid).invariant_last
      (fun s c s' settled step => settled.step step.2 step.1) (fresh.settled low)
  have hands := settled.hands_iff size
  refine ⟨⟨fun promise => hands.mp promise.hands, fun fits => ?_⟩, hands⟩
  exact ⟨hands.mpr fits, noWrap_of_fits ((fits_iff nbytes).mpr fits)⟩

/-- With a free block of 10 units beside the block in use. -/
theorem malloc_promise_iff_of_merging : merged.Promise 5000 ∧ ¬merged.Promise (2 ^ 31 - 31) := by
  have valid : Along (fun s c _ => s.Valid c) idleHeap mergingRun :=
    mergingRun_valid.mono fun _ _ _ step => step.1
  constructor
  · have large := malloc_promise_iff idleHeap_fresh (by decide) mergingRun_along valid
      (show 5000 < 2 ^ 64 by decide)
    exact large.1.mpr (by decide)
  · intro promise
    have larger := malloc_promise_iff idleHeap_fresh (by decide) mergingRun_along valid
      (show 2 ^ 31 - 31 < 2 ^ 64 by decide)
    exact absurd (larger.1.mp promise) (by decide)

/-- The largest request there is gets the address behind the last byte of its region, with no bytes
of its own. -/
theorem largest_request_wraps : ∃ m', (∀ fuel,
    idleHeap.heap.malloc (fuel + 4) (2 ^ 64 - 1) = some (m', 0x4B0FFFFF4000)) ∧
      m'.size 0x4B0FFFFF3FF0 = 1 ∧ m'.regions = [(0x4B0FFFFF0000, 1024)] ∧
      ¬idleHeap.Hands (2 ^ 64 - 1) := by
  have settled := idleHeap_fresh.settled (by decide)
  have wraps : ¬idleHeap.Hands (2 ^ 64 - 1) := fun hands =>
    absurd ((settled.hands_iff (by decide)).mp hands) (by decide)
  exact ⟨_, fun fuel => rfl, rfl, rfl, wraps⟩

end Session

end LateOS
