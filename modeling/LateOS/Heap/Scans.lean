import LateOS.Heap.Frees

/-!
# The loops of the allocator

`free` and `malloc` go round a list that has no end. Each is set down once more with a log of the
nodes that its loop looks at: on a heap in order, `free` meets no node twice, and `malloc` none more
than twice, with one call of `morecore` between its rounds.
-/
namespace LateOS

open Lib

/-- What a loop of the allocator does that a log keeps. -/
inductive HeapEvent where
  | node (p : Nat)
  | morecore
  deriving DecidableEq, Repr

namespace Heap

variable {m m' : Heap} {F U : Finset Nat} {a p q prev bp n k fuel : Nat}

/-! ## The functions with their logs -/

/-- `findSlot` and the nodes it has looked at. -/
def findSlotLog (m : Heap) (bp : Nat) : Nat → Nat → Option (Nat × List Nat)
  | 0, _ => none
  | fuel + 1, p =>
    if p < bp ∧ bp < m.next p then some (p, [p])
    else if m.next p ≤ p ∧ (p < bp ∨ bp < m.next p) then some (p, [p])
    else (findSlotLog m bp fuel (m.next p)).map fun (q, seen) => (q, p :: seen)

def freeLog (m : Heap) (fuel ap : Nat) : Option (Heap × List Nat) :=
  let bp := ap - headerSize
  (m.findSlotLog bp fuel m.freep).map fun (p, seen) => (m.splice p bp, seen)

def morecoreLog (m : Heap) (fuel : Nat) (nu : Int) : Option ((Heap × Nat) × List Nat) :=
  let nu := (if nu < nalloc then (nalloc : Int) else nu).toNat
  let (cp, m) := m.sbrk (int (nu * headerSize))
  if cp = 2 ^ 64 - 1 then some ((m, 0), [])
  else if m.brk ≤ cp then none
  else
    let m := { m.setSize cp nu with regions := (cp, nu) :: m.regions }
    (m.freeLog fuel (cp + headerSize)).map fun (m, seen) => ((m, m.freep), seen)

def searchLog (nunits : Nat) : Nat → Heap → Nat → Nat → Option ((Heap × Nat) × List HeapEvent)
  | 0, _, _, _ => none
  | fuel + 1, m, prevp, p =>
    if nunits ≤ m.size p then some (m.take prevp p nunits, [.node p])
    else if p = m.freep then
      match m.morecoreLog fuel (int nunits) with
      | none => none
      | some ((m, q), seen) =>
        let log := .node p :: .morecore :: seen.map .node
        if q = 0 then some ((m, 0), log)
        else (searchLog nunits fuel m q (m.next q)).map fun (r, later) => (r, log ++ later)
    else (searchLog nunits fuel m p (m.next p)).map fun (r, later) => (r, .node p :: later)

def mallocLog (m : Heap) (fuel nbytes : Nat) : Option ((Heap × Nat) × List HeapEvent) :=
  let m := m.started
  searchLog (units nbytes) fuel m m.freep (m.next m.freep)

/-! ## Without the logs, they are the functions -/

theorem findSlotLog_fst (m : Heap) (bp fuel p : Nat) :
    (m.findSlotLog bp fuel p).map Prod.fst = m.findSlot bp fuel p := by
  induction fuel generalizing p with
  | zero => rfl
  | succ fuel ih =>
    rw [findSlotLog, findSlot, ← ih]
    split
    · rfl
    · split
      · rfl
      · rw [Option.map_map]
        rfl

theorem freeLog_fst (m : Heap) (fuel ap : Nat) :
    (m.freeLog fuel ap).map Prod.fst = m.free fuel ap := by
  unfold freeLog Heap.free
  dsimp only
  rw [← findSlotLog_fst, Option.map_map, Option.map_map]
  rfl

theorem morecoreLog_eq (m : Heap) (fuel : Nat) (nu : Int) : m.morecoreLog fuel nu =
    if m.brk = 2 ^ 64 - 1 then some (({ m with brk := m.brk + regionBytes (asked nu) }, 0), [])
    else if regionBytes (asked nu) = 0 then none
    else ((m.grown (asked nu)).freeLog fuel (m.brk + headerSize)).map fun (m, seen) =>
      ((m, m.freep), seen) := by
  change (if m.brk = 2 ^ 64 - 1 then _ else if m.brk + regionBytes (asked nu) ≤ m.brk then none
    else _) = _
  rw [ite_above]
  rfl

theorem morecoreLog_fst (m : Heap) (fuel : Nat) (nu : Int) :
    (m.morecoreLog fuel nu).map Prod.fst = m.morecore fuel nu := by
  rw [morecoreLog_eq, morecore_eq]
  split
  · rfl
  · split
    · rfl
    · rw [← freeLog_fst, Option.map_map, Option.map_map]
      rfl

theorem searchLog_fst (nunits fuel : Nat) (m : Heap) (prevp p : Nat) :
    (searchLog nunits fuel m prevp p).map Prod.fst = search nunits fuel m prevp p := by
  induction fuel generalizing m prevp p with
  | zero => rfl
  | succ fuel ih =>
    rw [searchLog, search, ← morecoreLog_fst]
    split
    · rfl
    · split
      · cases m.morecoreLog fuel (int nunits) with
        | none => rfl
        | some result =>
          obtain ⟨⟨m₁, q⟩, seen⟩ := result
          dsimp only [Option.map_some]
          rw [← ih]
          split
          · rfl
          · rw [Option.map_map]
            rfl
      · rw [← ih, Option.map_map]
        rfl

theorem mallocLog_fst (m : Heap) (fuel nbytes : Nat) :
    (m.mallocLog fuel nbytes).map Prod.fst = m.malloc fuel nbytes := searchLog_fst ..

/-! ## One round -/

theorem findSlotLog_succ (m : Heap) (bp fuel p : Nat) : m.findSlotLog bp (fuel + 1) p =
    if Between p (m.next p) bp then some (p, [p])
    else (m.findSlotLog bp fuel (m.next p)).map fun (q, seen) => (q, p :: seen) := by
  rw [findSlotLog, ite_between]

/-- The loop of `free` looks at the nodes up to the first behind which the block belongs. -/
theorem findSlotLog_walk (before : ∀ i < k, ¬Between (m.next^[i] a) (m.next (m.next^[i] a)) bp)
    (place : Between (m.next^[k] a) (m.next (m.next^[k] a)) bp) (fuel : Nat) :
    m.findSlotLog bp (fuel + (k + 1)) a = some (m.next^[k] a, List.iterate m.next a (k + 1)) := by
  induction k generalizing a with
  | zero =>
    have here : Between a (m.next a) bp := place
    rw [findSlotLog_succ, if_pos here]
    rfl
  | succ k ih =>
    have first : ¬Between a (m.next a) bp := before 0 (Nat.succ_pos k)
    have rest := ih (fun i less => before (i + 1) (Nat.succ_lt_succ less)) place
    rw [← Nat.add_assoc, findSlotLog_succ, if_neg first, rest]
    rfl

/-- On a heap in order, `free` looks at no node twice, and links the block in where the loop has
come to. -/
theorem InOrder.freeLog (order : m.InOrder F U) (block : bp ∈ U) : ∃ p, ∃ seen : List Nat, p ∈ F ∧
    Between p (m.next p) bp ∧ seen.Nodup ∧ (∀ q ∈ seen, q ∈ F) ∧
    ∀ fuel, m.freeLog (fuel + seen.length) (bp + headerSize) = some (m.splice p bp, seen) := by
  classical
  have ring := order.blocks.ring
  obtain ⟨target, member, place⟩ :=
    ring.exists_between order.freep (order.blocks.live bp block)
  obtain ⟨steps, reached⟩ := ring.reaches order.freep member
  -- The loop stops at the first place on its way, and there is one on the ring.
  have found : ∃ k, Between (m.next^[k] m.freep) (m.next (m.next^[k] m.freep)) bp :=
    ⟨steps, by rwa [reached]⟩
  have before : ∀ i < Nat.find found,
      ¬Between (m.next^[i] m.freep) (m.next (m.next^[i] m.freep)) bp :=
    fun i less => Nat.find_min found less
  have place := Nat.find_spec found
  refine ⟨_, List.iterate m.next m.freep (Nat.find found + 1), ring.iterate_mem order.freep _, place,
    walk_nodup (P := fun p => Between p (m.next p) bp) before place, fun q seen => ?_, fun fuel => ?_⟩
  · obtain ⟨i, _, rfl⟩ := List.mem_iterate.mp seen
    exact ring.iterate_mem order.freep i
  · unfold Heap.freeLog
    dsimp only
    rw [Nat.add_sub_cancel, List.length_iterate, findSlotLog_walk before place]
    rfl

/-- How the loop of `malloc` goes on when it comes to `freep` in vain. -/
def regrowLog (n fuel : Nat) (m : Heap) : Option ((Heap × Nat) × List HeapEvent) :=
  match m.morecoreLog fuel (int n) with
  | none => none
  | some ((m, q), seen) =>
    if q = 0 then some ((m, 0), .morecore :: seen.map .node)
    else (searchLog n fuel m q (m.next q)).map fun (r, later) =>
      (r, .morecore :: seen.map .node ++ later)

theorem searchLog_succ (n fuel : Nat) (m : Heap) (prev p : Nat) : searchLog n (fuel + 1) m prev p =
    if n ≤ m.size p then some (m.take prev p n, [.node p])
    else (if p = m.freep then regrowLog n fuel m
      else searchLog n fuel m p (m.next p)).map fun (r, later) => (r, .node p :: later) := by
  rw [searchLog, regrowLog]
  split
  · rfl
  · split
    · cases m.morecoreLog fuel (int n) with
      | none => rfl
      | some result =>
        obtain ⟨⟨m₁, q⟩, seen⟩ := result
        dsimp only
        split
        · rfl
        · rw [Option.map_map]
          rfl
    · rfl

/-- The loop of `malloc` looks at the nodes up to the first that is large enough or is `freep`. -/
theorem searchLog_walk (before : ∀ i < k, ¬(n ≤ m.size (m.next^[i + 1] prev) ∨
      m.next^[i + 1] prev = m.freep))
    (stop : n ≤ m.size (m.next^[k + 1] prev) ∨ m.next^[k + 1] prev = m.freep) (fuel : Nat) :
    searchLog n (fuel + (k + 1)) m prev (m.next prev) =
      (if n ≤ m.size (m.next^[k + 1] prev) then
        some (m.take (m.next^[k] prev) (m.next^[k + 1] prev) n, [])
      else regrowLog n fuel m).map fun (r, later) =>
        (r, (List.iterate m.next (m.next prev) (k + 1)).map .node ++ later) := by
  induction k generalizing prev with
  | zero =>
    have here : n ≤ m.size (m.next prev) ∨ m.next prev = m.freep := stop
    rw [searchLog_succ]
    by_cases large : n ≤ m.size (m.next prev)
    · rw [if_pos large, if_pos (show n ≤ m.size (m.next^[0 + 1] prev) from large)]
      rfl
    · rw [if_neg large, if_neg (show ¬n ≤ m.size (m.next^[0 + 1] prev) from large),
        if_pos (here.resolve_left large)]
      rfl
  | succ k ih =>
    have first : ¬(n ≤ m.size (m.next prev) ∨ m.next prev = m.freep) := before 0 (Nat.succ_pos k)
    rw [not_or] at first
    have rest := @ih (m.next prev) (fun i less => before (i + 1) (Nat.succ_lt_succ less)) stop
    rw [← Nat.add_assoc, searchLog_succ, if_neg first.1, if_neg first.2, rest, Option.map_map]
    rfl

/-! ## The call of morecore between the rounds -/

/-- A block that touches neither neighbour is only linked in. -/
theorem splice_apart (below : p + 16 * m.size p ≠ bp) (above : bp + 16 * m.size bp ≠ m.next p) :
    m.splice p bp = (m.link p bp).setFreep p := by
  have upper : m.joinUpper p bp = m.setPtr bp (m.next p) := if_neg above
  have lower : (m.setPtr bp (m.next p)).joinLower p bp = m.link p bp := by
    apply if_neg
    rw [setPtr_size]
    exact below
  unfold Heap.splice
  rw [upper, lower]

/-- Every block ends below the break. -/
theorem Blocks.below_break (blocks : m.Blocks F U) (low : m.base + headerSize < m.brk)
    (node : p ∈ F) : p + 16 * m.size p < m.brk := by
  by_cases here : p = m.base
  · rw [here, blocks.base_size]
    simp only [headerSize] at low
    omega
  · obtain ⟨r, inR, _, stop⟩ := blocks.inside p (Or.inl node) here
    have below := blocks.regions.below r inR
    omega

/-- `morecore` links its region in right behind the new `freep`, where the loop goes on. -/
theorem InOrder.regrowLog (order : m.InOrder F U) (low : m.base + headerSize < m.brk)
    (fits : grant n < 2 ^ 27) : ∃ r, ∃ seen : List Nat, seen.Nodup ∧ (∀ q ∈ seen, q ∈ F) ∧
      ∃ d, ∀ fuel, Heap.regrowLog n (fuel + d) m =
        some (r, .morecore :: seen.map .node ++ [.node m.brk]) := by
  obtain ⟨grownOrder, fresh⟩ := order.grown (grant_pos n) fits (Or.inl low)
  obtain ⟨p, seen, node, _, distinct, known, freed⟩ :=
    grownOrder.freeLog (Finset.mem_insert_self m.brk U)
  -- `sbrk` leaves room in front of a new region, and there is none behind it.
  have below := order.blocks.below_break low node
  have above := order.blocks.below_break low (order.blocks.ring.next_mem node)
  have apart : p ≠ m.brk := by
    rintro rfl
    exact grownOrder.blocks.live _ (Finset.mem_insert_self _ U) node
  have sizeNew : (m.grown (grant n)).size m.brk = grant n := by rw [grown_size, if_pos rfl]
  have linked : (m.grown (grant n)).splice p m.brk =
      ((m.grown (grant n)).link p m.brk).setFreep p := by
    apply splice_apart
    · rw [grown_size, if_neg apart]
      exact Nat.ne_of_lt below
    · rw [sizeNew, grown_next]
      omega
  -- The loop goes on at the successor of the new `freep`, and that is the new block.
  have behind : ((m.grown (grant n)).splice p m.brk).next p = m.brk := by
    rw [linked]
    exact (link_next _ _ _ _).trans (if_pos rfl)
  have large : n ≤ ((m.grown (grant n)).splice p m.brk).size m.brk := by
    rw [linked, setFreep_size, link_size, sizeNew]
    exact le_grant n
  -- The request is for at least one page, and so `sbrk` goes on.
  have mapped : regionBytes (grant n) ≠ 0 := by
    rw [regionBytes_small fits]
    exact Nat.ne_of_gt (Nat.mul_pos (by decide) (Nat.succ_pos _))
  have bound := le_grant n
  have more (fuel : Nat) : m.morecoreLog (fuel + (seen.length + 1)) (int n) =
      some (((m.grown (grant n)).splice p m.brk, p), seen) := by
    rw [morecoreLog_eq, asked_int fits, if_neg order.page, if_neg mapped, Nat.add_comm seen.length,
      ← Nat.add_assoc, freed]
    rfl
  refine ⟨((m.grown (grant n)).splice p m.brk).take p m.brk n, seen, distinct, known,
    seen.length + 1, fun fuel => ?_⟩
  rw [Heap.regrowLog, more fuel]
  dsimp only
  rw [if_neg (order.node_pos (Or.inl node)), behind, ← Nat.add_assoc, searchLog_succ,
    if_pos large]
  rfl

/-- What the loop of `malloc` has done when it returns: not more than one call of `morecore`, and no
node met more than twice. -/
structure Brief (log : List HeapEvent) : Prop where
  grown : log.count .morecore ≤ 1
  nodes : ∀ p, log.count (.node p) ≤ 2

private theorem count_node {l : List Nat} (distinct : l.Nodup) (p : Nat) :
    (l.map HeapEvent.node).count (.node p) ≤ 1 := by
  have injective : Function.Injective HeapEvent.node := by
    intro a b same
    cases same
    rfl
  exact List.nodup_iff_count_le_one.mp (distinct.map injective) _

private theorem count_morecore (l : List Nat) :
    (l.map HeapEvent.node).count .morecore = 0 := by
  apply List.count_eq_zero.mpr
  intro member
  obtain ⟨q, _, same⟩ := List.mem_map.mp member
  cases same

theorem brief_round {l : List Nat} (distinct : l.Nodup) : Brief (l.map .node) := by
  constructor
  · rw [count_morecore]
    exact Nat.zero_le 1
  · intro p
    exact Nat.le_succ_of_le (count_node distinct p)

/-- The second round ends at the new block, which the others have not met. -/
theorem brief_rounds {l seen : List Nat} {b : Nat} (distinct : l.Nodup) (once : seen.Nodup)
    (out : b ∉ l) (unseen : b ∉ seen) :
    Brief (l.map .node ++ (.morecore :: seen.map .node ++ [.node b])) := by
  constructor
  · simp [count_morecore]
  · intro p
    -- Only the new block is met behind both rounds, and it was in neither.
    have first := count_node distinct p
    have second := count_node once p
    by_cases here : p = b
    · subst here
      have none : (l.map HeapEvent.node).count (.node p) = 0 := by
        apply List.count_eq_zero.mpr
        simpa using out
      simp [none]
      omega
    · have last : [HeapEvent.node b].count (.node p) = 0 := by
        apply List.count_eq_zero.mpr
        simpa using here
      simp [last]
      omega

theorem InOrder.searchLog (order : m.InOrder F U) (low : m.base + headerSize < m.brk)
    (fits : grant n < 2 ^ 27) : ∃ r log, Brief log ∧
      ∃ d, ∀ fuel, Heap.searchLog n (fuel + d) m m.freep (m.next m.freep) = some (r, log) := by
  classical
  have ring := order.blocks.ring
  obtain ⟨steps, reached⟩ := ring.reaches (ring.next_mem order.freep) order.freep
  -- Going round the ring, the loop comes back to `freep` at the latest.
  have found : ∃ k, n ≤ m.size (m.next^[k + 1] m.freep) ∨ m.next^[k + 1] m.freep = m.freep :=
    ⟨steps, Or.inr reached⟩
  have before : ∀ i < Nat.find found,
      ¬(n ≤ m.size (m.next^[i + 1] m.freep) ∨ m.next^[i + 1] m.freep = m.freep) :=
    fun i less => Nat.find_min found less
  have stop := Nat.find_spec found
  generalize Nat.find found = k at before stop
  have distinct : (List.iterate m.next (m.next m.freep) (k + 1)).Nodup :=
    walk_nodup (P := fun p => n ≤ m.size p ∨ p = m.freep) before stop
  have walked := searchLog_walk before stop
  by_cases large : n ≤ m.size (m.next^[k + 1] m.freep)
  · refine ⟨m.take (m.next^[k] m.freep) (m.next^[k + 1] m.freep) n, _, brief_round distinct, k + 1,
      fun fuel => ?_⟩
    rw [walked, if_pos large]
    simp
  · obtain ⟨r, seen, once, known, d, regrown⟩ := order.regrowLog low fits
    -- The break is no node of the list.
    have new : m.brk ∉ F := by
      intro old
      have below := order.blocks.below_break low old
      omega
    have out : m.brk ∉ List.iterate m.next (m.next m.freep) (k + 1) := by
      intro member
      obtain ⟨i, _, here⟩ := List.mem_iterate.mp member
      exact new (here ▸ ring.iterate_mem (ring.next_mem order.freep) i)
    refine ⟨r, _, brief_rounds distinct once out fun member => new (known _ member), d + (k + 1),
      fun fuel => ?_⟩
    rw [← Nat.add_assoc, walked, if_neg large, regrown, Option.map_some]

end Heap

namespace Session

variable {s s' : Session} {c : HeapCall}

/-- Every valid `free` stops within one round of the free list, and every `malloc` whose units fit
`sbrk`'s `int` returns after one call of `morecore` at most, with no node met more than twice. -/
structure ScansEnd (s : Session) : Prop where
  free : ∀ ap, s.Valid (.free ap) → ∃ m', ∃ seen : List Nat, seen.Nodup ∧
    (∀ p ∈ seen, ∃ n, s.heap.next^[n] s.heap.freep = p) ∧
    ∀ fuel, s.heap.freeLog (fuel + seen.length) ap = some (m', seen)
  malloc : ∀ nbytes, Heap.units nbytes * headerSize < 2 ^ 31 → ∃ r log, Heap.Brief log ∧
    ∃ d, ∀ fuel, s.heap.mallocLog (fuel + d) nbytes = some (r, log)

theorem Kept.scansEnd (kept : s.Kept) : s.ScansEnd := by
  obtain ⟨⟨free, ordered⟩, placed, _⟩ := kept
  constructor
  · rintro _ ⟨b, live, rfl⟩
    have order := ordered.order
    rw [ordered.in_use live] at order
    obtain ⟨p, seen, _, _, distinct, known, freed⟩ := order.freeLog live
    refine ⟨s.heap.splice p b, seen, distinct, fun q member => ?_, freed⟩
    exact order.blocks.ring.reaches order.freep (known q member)
  · intro nbytes fits
    obtain ⟨base, brk⟩ := started_frame s.heap
    have low : s.heap.started.base + headerSize < s.heap.started.brk := by
      rw [base, brk]
      exact placed.below
    exact ordered.order.searchLog low (grant_fits fits)

/-- In every state that a program reaches with requests whose unit counts are neither cut to zero
nor too large, the loops of the allocator end. -/
theorem scans_end {start : Session} {run : List (HeapCall × Session)} (fresh : start.Fresh)
    (low : start.heap.base + headerSize < start.heap.brk) (ran : Along Step start run)
    (fits : Along (fun s c _ => s.Fits c) start run) :
    start.ScansEnd ∧ Along (fun _ _ s' => s'.ScansEnd) start run := by
  have kept := fresh.kept low
  exact ⟨kept.scansEnd, (kept.along ran fits).mono fun _ _ _ after => after.scansEnd⟩

theorem scans_end_of_merging : threeBlocks.ScansEnd ∧ merged.ScansEnd := by
  have ended := (scans_end idleHeap_fresh (by decide) mergingRun_along mergingRun_fits).2
  simp only [mergingRun, along_cons] at ended
  exact ⟨ended.2.2.1, ended.2.2.2.2.1⟩

/-- The first request of all, when its unit count is cut to zero, is served with `base`. -/
def baseTaken : Session := (idleHeap.call 4 (.malloc (2 ^ 36 - 16))).getD idleHeap

/-- `base` alone is its own successor, and never has a place for itself. -/
theorem base_never_freed : idleHeap.Step (.malloc (2 ^ 36 - 16)) baseTaken ∧
    baseTaken.Valid (.free (0x600000 + headerSize)) ∧
    (∀ fuel, baseTaken.heap.free fuel (0x600000 + headerSize) = none) ∧ ¬baseTaken.ScansEnd := by
  have valid : baseTaken.Valid (.free (0x600000 + headerSize)) := ⟨0x600000, by decide, rfl⟩
  have own : baseTaken.heap.next 0x600000 = 0x600000 := rfl
  -- The induction is on the fuel: each round ends where it began.
  have never (fuel : Nat) : baseTaken.heap.findSlot 0x600000 fuel 0x600000 = none := by
    induction fuel with
    | zero => rfl
    | succ fuel ih =>
      rw [Heap.findSlot_succ, own, if_neg (by decide)]
      exact ih
  have stuck (fuel : Nat) : baseTaken.heap.free fuel (0x600000 + headerSize) = none :=
    Option.map_eq_none_iff.mpr (never fuel)
  refine ⟨⟨4, fun _ => rfl⟩, valid, stuck, fun ends => ?_⟩
  obtain ⟨m', seen, _, _, returns⟩ := ends.free _ valid
  have freed := Heap.freeLog_fst baseTaken.heap (0 + seen.length) (0x600000 + headerSize)
  rw [returns, stuck] at freed
  cases freed

end Session

end LateOS
