import LateOS.Heap.Calls

/-!
# Growth

`morecore` and the loop of `malloc`, which calls it when a full round has found no block
that is large enough.
-/
namespace LateOS

open Lib

namespace Heap

variable {m : Heap} {F U : Finset Nat} {p : Nat}

/-! ## morecore -/

/-- The units that `morecore` asks for. -/
def grant (nu : Nat) : Nat := if nu < nalloc then nalloc else nu

theorem grant_pos (nu : Nat) : 0 < grant nu := by
  unfold grant
  split
  · decide
  next large => exact Nat.lt_of_lt_of_le (by decide) (Nat.le_of_not_lt large)

theorem le_grant (nu : Nat) : nu ≤ grant nu := by
  unfold grant
  split
  next small => exact Nat.le_of_lt small
  next => exact Nat.le_refl nu

theorem int_small {n : Nat} (small : n < 2 ^ 31) : int n = n := by
  have value : n % 2 ^ 32 = n := Nat.mod_eq_of_lt (by omega)
  unfold int
  rw [BitVec.toInt_eq_toNat_cond, BitVec.toNat_ofNat, value, if_pos (by omega)]

/-- The bytes that `sbrk` maps for a region of `nu` units. -/
def regionBytes (nu : Nat) : Nat :=
  pageSize * ((int (nu * headerSize)).tdiv pageSize + 1).toNat

/-- While they fit an `int`, they are the pages that begin within the region. -/
theorem regionBytes_small {nu : Nat} (fits : nu < 2 ^ 27) :
    regionBytes nu = pageSize * (nu * headerSize / pageSize + 1) := by
  have small : nu * headerSize < 2 ^ 31 := by
    simp only [headerSize]
    omega
  unfold regionBytes
  rw [int_small small, ← Int.ofNat_tdiv]
  rfl

/-- The units that `morecore` asks for, whatever `int` it is given. -/
def asked (nu : Int) : Nat := (if nu < nalloc then (nalloc : Int) else nu).toNat

theorem asked_natCast (nu : Nat) : asked nu = grant nu := by
  unfold asked grant
  by_cases small : nu < nalloc
  · rw [if_pos small, if_pos (Int.ofNat_lt.mpr small), Int.toNat_natCast]
  · rw [if_neg small, if_neg (mt Int.ofNat_lt.mp small), Int.toNat_natCast]

theorem asked_int {n : Nat} (fits : grant n < 2 ^ 27) : asked (int n) = grant n := by
  have bound := le_grant n
  rw [int_small (by omega), asked_natCast]

/-- The heap that `morecore` hands to `free`, with a region of `nu` units. -/
def grown (m : Heap) (nu : Nat) : Heap :=
  { m.setSize m.brk nu with
    brk := m.brk + regionBytes nu, regions := (m.brk, nu) :: m.regions }

/-- `sbrk` goes no further only for a region of no bytes. -/
theorem ite_above {α : Type} (brk bytes : Nat) (x y : α) :
    (if brk + bytes ≤ brk then x else y) = if bytes = 0 then x else y := by
  by_cases empty : bytes = 0
  · rw [if_pos (show brk + bytes ≤ brk by omega), if_pos empty]
  · rw [if_neg (show ¬brk + bytes ≤ brk by omega), if_neg empty]

/-- `morecore` in terms of the region that it asks for. -/
theorem morecore_eq (m : Heap) (fuel : Nat) (nu : Int) : m.morecore fuel nu =
    if m.brk = 2 ^ 64 - 1 then some ({ m with brk := m.brk + regionBytes (asked nu) }, 0)
    else if regionBytes (asked nu) = 0 then none
    else ((m.grown (asked nu)).free fuel (m.brk + headerSize)).map fun m => (m, m.freep) := by
  change (if m.brk = 2 ^ 64 - 1 then _ else if m.brk + regionBytes (asked nu) ≤ m.brk then none
    else _) = _
  rw [ite_above]
  rfl

/-- When `morecore` returns, `sbrk` has failed or a new region has been freed. -/
theorem morecore_cases {fuel p : Nat} {nu : Int} {m' : Heap}
    (more : m.morecore fuel nu = some (m', p)) :
    (m.brk = 2 ^ 64 - 1 ∧ p = 0 ∧ m' = { m with brk := m.brk + regionBytes (asked nu) }) ∨
    (p = m'.freep ∧ (m.grown (asked nu)).free fuel (m.brk + headerSize) = some m') := by
  rw [morecore_eq] at more
  by_cases top : m.brk = 2 ^ 64 - 1
  · rw [if_pos top] at more
    cases more
    exact Or.inl ⟨top, rfl, rfl⟩
  · rw [if_neg top] at more
    split at more
    · cases more
    · obtain ⟨m₁, freed, same⟩ := Option.map_eq_some_iff.mp more
      cases same
      exact Or.inr ⟨rfl, freed⟩

theorem grown_size (m : Heap) (nu x : Nat) :
    (m.grown nu).size x = if x = m.brk then nu else m.size x := setSize_size _ _ _ x

theorem grown_next (m : Heap) (nu x : Nat) : (m.grown nu).next x = m.next x :=
  setSize_next _ _ _ x

theorem Regions.grown (before : m.Regions) {nu : Nat} (fits : nu < 2 ^ 27)
    (room : Apart m.base (m.brk, nu)) : (m.grown nu).Regions := by
  obtain ⟨break_pos, page, base_pos, start, small, under, gap, apart⟩ := before
  have brk : (m.grown nu).brk = m.brk + pageSize * (nu * headerSize / pageSize + 1) := by
    rw [← regionBytes_small fits]
    rfl
  have base : (m.grown nu).base = m.base := rfl
  have regions : (m.grown nu).regions = (m.brk, nu) :: m.regions := rfl
  have beyond : m.brk + 16 * nu < (m.grown nu).brk := by
    rw [brk]
    simp only [pageSize, headerSize]
    omega
  refine ⟨by omega, ?_, base_pos, ?_, ?_, ?_, ?_, ?_⟩
  · rw [brk]
    exact Nat.dvd_add page (Nat.dvd_mul_right _ _)
  · rw [regions]
    exact List.forall_mem_cons.mpr ⟨break_pos, start⟩
  · rw [regions]
    exact List.forall_mem_cons.mpr ⟨fits, small⟩
  · rw [regions]
    refine List.forall_mem_cons.mpr ⟨beyond, fun r inR => ?_⟩
    have before := under r inR
    omega
  · rw [regions]
    intro r inR s inS
    rcases List.mem_cons.mp inR with rfl | inR
    · rcases List.mem_cons.mp inS with rfl | inS
      · exact Or.inl rfl
      · exact Or.inr (Or.inr (under s inS))
    · rcases List.mem_cons.mp inS with rfl | inS
      · exact Or.inr (Or.inl (under r inR))
      · exact gap r inR s inS
  · rw [regions, base]
    exact List.forall_mem_cons.mpr ⟨room, apart⟩

/-- A new region counts as a live block of its own until it is freed. -/
theorem InOrder.grown (order : m.InOrder F U) {nu : Nat} (positive : 0 < nu)
    (fits : nu < 2 ^ 27) (room : Apart m.base (m.brk, nu)) :
    (m.grown nu).InOrder F (insert m.brk U) ∧ m.brk ∉ U := by
  have blocks := order.blocks
  have away : m.brk ≠ m.base := by
    rcases room with below | above
    · dsimp only at below
      omega
    · dsimp only at above
      omega
  have below {x : Nat} (member : x ∈ F ∨ x ∈ U) (other : x ≠ m.base) :
      x + 16 * m.size x < m.brk := by
    obtain ⟨r, inR, _, stop⟩ := blocks.inside x member other
    have under := blocks.regions.below r inR
    omega
  have fresh {x : Nat} (member : x ∈ F ∨ x ∈ U) : x ≠ m.brk := by
    by_cases here : x = m.base
    · rw [here]
      exact Ne.symm away
    · have under := below member here
      omega
  have size {x : Nat} (member : x ∈ F ∨ x ∈ U) : (m.grown nu).size x = m.size x := by
    rw [grown_size, if_neg (fresh member)]
  have sizeNew : (m.grown nu).size m.brk = nu := by rw [grown_size, if_pos rfl]
  refine ⟨⟨?_, ?_, order.freep⟩, fun live => fresh (Or.inr live) rfl⟩
  · refine blocks.insert_live (blocks.regions.grown fits room) rfl (grown_next m nu)
      (fun r inR => List.mem_cons_of_mem _ inR) (fun x old => Nat.le_of_eq (size old))
      (fun x old other => ?_) (by rw [sizeNew]; exact positive) (fun _ => fresh) (fun x old => ?_)
      ⟨(m.brk, nu), List.mem_cons_self, Nat.le_refl _, Nat.le_of_eq (by rw [sizeNew])⟩ ?_
    · rw [size old]
      exact blocks.pos x old other
    · rw [sizeNew, size old]
      by_cases here : x = m.base
      · rw [here, blocks.base_size]
        rcases room with before | above
        · dsimp only at before
          omega
        · dsimp only at above
          omega
      · exact Or.inl (Nat.le_of_lt (below old here))
    · change _ = nu + (m.regions.map Prod.snd).sum
      rw [sizeNew, Finset.sum_congr rfl fun x free => size (Or.inl free),
        Finset.sum_congr rfl fun x live => size (Or.inr live), blocks.total]
  · intro x free
    rw [grown_next, size (Or.inl free)]
    exact order.merged x free

theorem InOrder.page (order : m.InOrder F U) : m.brk ≠ 2 ^ 64 - 1 := by
  intro top
  have page := order.blocks.regions.page
  rw [top] at page
  exact absurd page (by decide)

/-- `morecore` returns, and one free block is then as large as was asked for. -/
theorem InOrder.morecore (order : m.InOrder F U) {nu : Nat} (fits : grant nu < 2 ^ 27)
    (room : Apart m.base (m.brk, grant nu)) : ∃ m' F',
    (∃ n, ∀ fuel, m.morecore (fuel + n) nu = some (m', m'.freep)) ∧ m'.InOrder F' U ∧
    m'.base = m.base ∧ m'.regions = (m.brk, grant nu) :: m.regions ∧
    (∀ a ∈ U, m'.size a = m.size a) ∧ ∃ a ∈ F', nu ≤ m'.size a := by
  obtain ⟨grownOrder, fresh⟩ := order.grown (grant_pos nu) fits room
  obtain ⟨m', F', ⟨n, freed⟩, order', same, sizes, a, member, large⟩ :=
    grownOrder.free (Finset.mem_insert_self m.brk U)
  rw [Finset.erase_insert fresh] at order' sizes
  refine ⟨m', F', ⟨n, fun fuel => ?_⟩, order', same.base, same.regions, ?_, a, member, ?_⟩
  · have some1 : regionBytes (grant nu) ≠ 0 := by
      rw [regionBytes_small fits]
      exact Nat.ne_of_gt (Nat.mul_pos (by decide) (Nat.succ_pos _))
    rw [morecore_eq, asked_natCast, if_neg order.page, if_neg some1, freed]
    rfl
  · intro x live
    rw [sizes x live, grown_size, if_neg (fun here : x = m.brk => fresh (here ▸ live))]
  · refine Nat.le_trans ?_ large
    rw [grown_size, if_pos rfl]
    exact le_grant nu

/-! ## The loop of malloc -/

/-- How the loop goes on when it comes to `freep` in vain. -/
def regrow (n fuel : Nat) (m : Heap) : Option (Heap × Nat) :=
  match m.morecore fuel (int n) with
  | none => none
  | some (m, p) => if p = 0 then some (m, 0) else search n fuel m p (m.next p)

theorem search_succ (n fuel : Nat) (m : Heap) (prev p : Nat) :
    search n (fuel + 1) m prev p =
      if n ≤ m.size p then some (m.take prev p n)
      else if p = m.freep then regrow n fuel m
      else search n fuel m p (m.next p) := by
  rw [search]
  rfl

/-- `malloc`'s loop from the node behind `prev` either takes a block, or comes to `freep`
having seen only smaller ones. -/
theorem search_walk (ring : CyclicList F m.next) (n : Nat) {prev : Nat} (node : prev ∈ F)
    {steps : Nat} (reached : m.next^[steps] (m.next prev) = m.freep) :
    (∃ p ∈ F, n ≤ m.size (m.next p) ∧ ∃ d, ∀ fuel,
      search n (fuel + d) m prev (m.next prev) = some (m.take p (m.next p) n)) ∨
    (∃ i, m.next^[i] (m.next prev) = m.freep ∧
        ∀ j ≤ i, m.size (m.next^[j] (m.next prev)) < n) ∧
      ∃ d, ∀ fuel, search n (fuel + d) m prev (m.next prev) = regrow n fuel m := by
  induction steps generalizing prev with
  | zero =>
    have here : m.next prev = m.freep := reached
    by_cases large : n ≤ m.size (m.next prev)
    · refine Or.inl ⟨prev, node, large, 1, fun fuel => ?_⟩
      rw [search_succ, if_pos large]
    · refine Or.inr ⟨⟨0, reached, fun j none => ?_⟩, 1, fun fuel => ?_⟩
      · rw [Nat.le_zero.mp none]
        exact Nat.lt_of_not_le large
      · rw [search_succ, if_neg large, if_pos here]
  | succ steps ih =>
    by_cases large : n ≤ m.size (m.next prev)
    · refine Or.inl ⟨prev, node, large, 1, fun fuel => ?_⟩
      rw [search_succ, if_pos large]
    · by_cases here : m.next prev = m.freep
      · refine Or.inr ⟨⟨0, here, fun j none => ?_⟩, 1, fun fuel => ?_⟩
        · rw [Nat.le_zero.mp none]
          exact Nat.lt_of_not_le large
        · rw [search_succ, if_neg large, if_pos here]
      · rcases ih (ring.next_mem node) reached with
          ⟨p, member, enough, d, taken⟩ | ⟨⟨i, back, smaller⟩, d, grows⟩
        · refine Or.inl ⟨p, member, enough, d + 1, fun fuel => ?_⟩
          rw [← Nat.add_assoc, search_succ, if_neg large, if_neg here]
          exact taken fuel
        · refine Or.inr ⟨⟨i + 1, back, fun j bound => ?_⟩, d + 1, fun fuel => ?_⟩
          · cases j with
            | zero => exact Nat.lt_of_not_le large
            | succ j => exact smaller j (Nat.le_of_succ_le_succ bound)
          · rw [← Nat.add_assoc, search_succ, if_neg large, if_neg here]
            exact grows fuel

/-- A loop that starts behind `freep` and comes back has seen every free block. -/
private theorem InOrder.walked_all (order : m.InOrder F U) {n i : Nat}
    (back : m.next^[i] (m.next m.freep) = m.freep)
    (smaller : ∀ j ≤ i, m.size (m.next^[j] (m.next m.freep)) < n) :
    ∀ a ∈ F, m.size a < n := by
  have ring := order.blocks.ring
  have seen : ∀ a ∈ F, ∃ j ≤ i, m.next^[j] (m.next m.freep) = a := by
    refine ring.closed (ring.next_mem order.freep) ⟨0, Nat.zero_le i, rfl⟩ ?_
    rintro b _ ⟨j, bound, rfl⟩
    rcases Nat.lt_or_eq_of_le bound with earlier | last
    · exact ⟨j + 1, earlier, Function.iterate_succ_apply' _ _ _⟩
    · refine ⟨0, Nat.zero_le i, ?_⟩
      rw [last, back]
      rfl
  intro a member
  obtain ⟨j, bound, here⟩ := seen a member
  rw [← here]
  exact smaller j bound

/-- What a successful `malloc` of `n` units has done. -/
structure Served (m : Heap) (U : Finset Nat) (n : Nat) (m' : Heap) (b : Nat) : Prop where
  order : ∃ F', m'.InOrder F' (insert b U)
  fresh : b ∉ U
  size : m'.size b = n
  kept : ∀ a ∈ U, m'.size a = m.size a

theorem InOrder.node_pos (order : m.InOrder F U) (member : p ∈ F ∨ p ∈ U) : p ≠ 0 := by
  rintro rfl
  by_cases here : 0 = m.base
  · have positive := order.blocks.regions.base_pos
    omega
  · obtain ⟨r, inR, start, _⟩ := order.blocks.inside 0 member here
    have positive := order.blocks.regions.start r inR
    omega

/-- With room for a new region, the loop that came to `freep` in vain returns a block. -/
private theorem InOrder.regrow (order : m.InOrder F U) {n : Nat} (positive : 0 < n)
    (fits : grant n < 2 ^ 27) (room : Apart m.base (m.brk, grant n)) : ∃ m' b,
    (∃ d, ∀ fuel, regrow n (fuel + d) m = some (m', b + headerSize)) ∧ Served m U n m' b := by
  obtain ⟨m₁, F₁, ⟨d₁, more⟩, order₁, base₁, regions₁, sizes₁, a, member, enough⟩ :=
    order.morecore fits room
  have ring₁ := order₁.blocks.ring
  obtain ⟨steps₁, reached₁⟩ := ring₁.reaches (ring₁.next_mem order₁.freep) order₁.freep
  have found : m₁.freep ≠ 0 := order₁.node_pos (Or.inl order₁.freep)
  -- the block that `morecore` has freed is found before the loop comes round again
  rcases search_walk ring₁ n order₁.freep reached₁ with
    ⟨p, node, large, d₂, taken⟩ | ⟨⟨i, back, smaller⟩, _⟩
  · obtain ⟨m', F', b, took, order', same, fresh, size, kept⟩ := order₁.take node positive large
    refine ⟨m', b, ⟨d₂ + d₁, fun fuel => ?_⟩, ⟨F', order'⟩, fresh, size, fun x live => ?_⟩
    · have small := le_grant n
      rw [Heap.regrow, ← Nat.add_assoc, int_small (by omega), more]
      dsimp only
      rw [if_neg found, Nat.add_right_comm, taken, took]
    · rw [kept x live, sizes₁ x live]
  · exact absurd (order₁.walked_all back smaller a member) (Nat.not_lt_of_le enough)

/-- `m'` has the same `base` and all the regions. -/
def Extends (m m' : Heap) : Prop := m'.base = m.base ∧ ∀ r ∈ m.regions, r ∈ m'.regions

private theorem Extends.trans {m m₁ m₂ : Heap} (first : Extends m m₁) (second : Extends m₁ m₂) :
    Extends m m₂ := ⟨second.1.trans first.1, fun r inR => second.2 r (first.2 r inR)⟩

private theorem take_extends (m : Heap) (prev p n : Nat) : Extends m (m.take prev p n).1 := by
  unfold Heap.take
  split <;> exact ⟨rfl, fun _ inR => inR⟩

theorem free_regions {fuel ap : Nat} {m' : Heap} (freed : m.free fuel ap = some m') :
    SameRegions m m' := by
  obtain ⟨p, _, rfl⟩ := Option.map_eq_some_iff.mp freed
  unfold splice joinLower joinUpper
  split
  · dsimp only
    split <;> exact ⟨rfl, rfl, rfl⟩
  · dsimp only
    split <;> exact ⟨rfl, rfl, rfl⟩

private theorem morecore_regions {fuel p : Nat} {nu : Int} {m' : Heap}
    (more : m.morecore fuel nu = some (m', p)) (page : m.brk ≠ 2 ^ 64 - 1) :
    m'.regions = (m.brk, asked nu) :: m.regions := by
  rcases morecore_cases more with ⟨top, _⟩ | ⟨_, freed⟩
  · exact absurd top page
  · exact (free_regions freed).regions

private theorem morecore_extends {fuel p : Nat} {nu : Int} {m' : Heap}
    (more : m.morecore fuel nu = some (m', p)) : Extends m m' := by
  rcases morecore_cases more with ⟨_, _, rfl⟩ | ⟨_, freed⟩
  · exact ⟨rfl, fun _ inR => inR⟩
  · obtain ⟨base, _, regions⟩ := free_regions freed
    refine ⟨base, fun r inR => ?_⟩
    rw [regions]
    exact List.mem_cons_of_mem _ inR

/-- What taking a block and growing the heap both keep, the loop of `malloc` keeps. -/
theorem search_inv {P : Heap → Prop} {n fuel : Nat} {m m' : Heap} {prev p ap : Nat}
    (taken : ∀ s prev p, P s → P (s.take prev p n).1)
    (grown : ∀ s s₁ fuel p, P s → s.morecore fuel (int n) = some (s₁, p) → P s₁) (holds : P m)
    (found : search n fuel m prev p = some (m', ap)) : P m' := by
  induction fuel generalizing m prev p with
  | zero => cases found
  | succ fuel ih =>
    rw [search_succ] at found
    split at found
    · have same : (m.take prev p n).1 = m' := congrArg Prod.fst (Option.some.inj found)
      exact same ▸ taken m prev p holds
    · split at found
      · unfold Heap.regrow at found
        split at found
        · cases found
        next m₁ p₁ more =>
          have first := grown m m₁ fuel p₁ holds more
          split at found
          · cases found
            exact first
          · exact ih first found
      · exact ih holds found

/-- The loop of `malloc` gives back no region. -/
theorem search_extends {n fuel : Nat} {m m' : Heap} {prev p ap : Nat}
    (found : search n fuel m prev p = some (m', ap)) : Extends m m' := by
  refine search_inv (P := Extends m) (fun s prev p before => ?_) (fun s s₁ fuel p before more => ?_)
    ⟨rfl, fun _ inR => inR⟩ found
  · exact before.trans (take_extends s prev p n)
  · exact before.trans (morecore_extends more)

/-- A loop that grew the heap has obtained the region at the old break. -/
private theorem regrow_regions {n fuel ap : Nat} {m' : Heap}
    (found : regrow n fuel m = some (m', ap)) (page : m.brk ≠ 2 ^ 64 - 1)
    (fits : grant n < 2 ^ 27) : (m.brk, grant n) ∈ m'.regions := by
  unfold Heap.regrow at found
  split at found
  · cases found
  next m₁ p₁ more =>
    have inR₁ : (m.brk, grant n) ∈ m₁.regions := by
      rw [morecore_regions more page, asked_int fits]
      exact List.mem_cons_self
    split at found
    · cases found
      exact inR₁
    · exact (search_extends found).2 _ inR₁

/-- The loop of `malloc` returns a block, given room for one more region; or if it has
returned, and the regions that the heap then has keep clear of `base`. -/
theorem InOrder.search (order : m.InOrder F U) {n : Nat} (positive : 0 < n)
    (fits : grant n < 2 ^ 27)
    (room : Apart m.base (m.brk, grant n) ∨ ∃ m', (∀ r ∈ m'.regions, Apart m.base r) ∧
      ∃ d, ∀ fuel, ∃ ap, search n (fuel + d) m m.freep (m.next m.freep) = some (m', ap)) :
    ∃ m' b, (∃ d, ∀ fuel, search n (fuel + d) m m.freep (m.next m.freep) =
      some (m', b + headerSize)) ∧ Served m U n m' b := by
  have ring := order.blocks.ring
  obtain ⟨steps, reached⟩ := ring.reaches (ring.next_mem order.freep) order.freep
  rcases search_walk ring n order.freep reached with
    ⟨p, node, large, d, taken⟩ | ⟨_, d, grows⟩
  · obtain ⟨m', F', b, took, order', same, fresh, size, kept⟩ := order.take node positive large
    refine ⟨m', b, ⟨d, fun fuel => ?_⟩, ⟨F', order'⟩, fresh, size, kept⟩
    rw [taken fuel, took]
  · have room : Apart m.base (m.brk, grant n) := by
      rcases room with room | ⟨m', apart, d', returned⟩
      · exact room
      · obtain ⟨ap, found⟩ := returned d
        rw [Nat.add_comm, grows] at found
        exact apart _ (regrow_regions found order.page fits)
    obtain ⟨m', b, ⟨d', regrown⟩, served⟩ := order.regrow positive fits room
    refine ⟨m', b, ⟨d' + d, fun fuel => ?_⟩, served⟩
    rw [← Nat.add_assoc, grows, regrown]

/-! ## A break that cannot be moved -/

/-- The heap of a program whose `sbrk` answers -1. -/
def refused (m : Heap) : Heap := { m with brk := 2 ^ 64 - 1 }

private theorem regrow_refused (m : Heap) (n : Nat) : ∃ m',
    (∀ fuel, regrow n fuel m.refused = some (m', 0)) ∧ m'.hdr = m.hdr ∧ m'.freep = m.freep := by
  have top : m.refused.brk = 2 ^ 64 - 1 := rfl
  refine ⟨{ m.refused with brk := m.refused.brk + regionBytes (asked (int n)) }, fun fuel => ?_,
    rfl, rfl⟩
  have failed := morecore_eq m.refused fuel (int n)
  rw [if_pos top] at failed
  unfold Heap.regrow
  rw [failed]
  rfl

/-- `morecore` sees the failure, and `malloc` answers NULL and leaves the free list as it is. -/
theorem malloc_refused {nbytes : Nat} (order : m.started.InOrder F U)
    (small : ∀ a ∈ F, m.started.size a < units nbytes) : ∃ m',
    (∃ d, ∀ fuel, m.refused.malloc (fuel + d) nbytes = some (m', 0)) ∧
      m'.hdr = m.started.hdr ∧ m'.freep = m.started.freep := by
  have same : m.refused.started = m.started.refused := by
    unfold started
    by_cases unset : m.freep = 0
    · rw [if_pos unset]
      exact if_pos unset
    · rw [if_neg unset]
      exact if_neg unset
  have ring : CyclicList F m.started.refused.next := order.blocks.ring
  obtain ⟨steps, reached⟩ := ring.reaches (ring.next_mem order.freep) order.freep
  rcases search_walk (m := m.started.refused) ring (units nbytes) order.freep reached with
    ⟨p, node, large, _⟩ | ⟨_, d, grows⟩
  · exact absurd (small _ (ring.next_mem node)) (Nat.not_lt_of_le large)
  · obtain ⟨m', failed, kept⟩ := regrow_refused m.started (units nbytes)
    refine ⟨m', ⟨d, fun fuel => ?_⟩, kept⟩
    rw [Heap.malloc, same]
    exact (grows fuel).trans (failed fuel)

end Heap

end LateOS
