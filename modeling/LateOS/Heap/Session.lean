import LateOS.Lib.Trace
import LateOS.Heap.Growth

/-!
# Sessions

A user program's calls of `malloc` and `free`, in any order. After every call the free
blocks form one ascending ring through `base`, nothing overlaps, and nothing is lost.
-/
namespace LateOS

open Lib

/-! ## Calls in any order -/

/-- A heap in use: the blocks handed out and not yet freed, and the bytes each was asked
for. -/
structure Session where
  heap : Heap
  live : Finset Nat
  request : Nat → Nat

/-- What a program does to its heap; `write` is a store into a block it owns. -/
inductive HeapCall where
  | malloc (nbytes : Nat)
  | free (ap : Nat)
  | write (a : Nat) (cell : Header)

namespace Session

variable {s s' : Session} {c : HeapCall}

def call (s : Session) (fuel : Nat) : HeapCall → Option Session
  | .malloc nbytes => (s.heap.malloc fuel nbytes).map fun (heap, ap) =>
      if ap = 0 then { s with heap := heap }
      else
        let b := ap - headerSize
        ⟨heap, insert b s.live, Function.update s.request b nbytes⟩
  | .free ap => (s.heap.free fuel ap).map fun heap =>
      { s with heap := heap, live := s.live.erase (ap - headerSize) }
  | .write a cell => some { s with heap :=
      { s.heap with hdr := Function.update s.heap.hdr a cell } }

/-- The call returns and leaves `s'`. -/
def Step (s : Session) (c : HeapCall) (s' : Session) : Prop :=
  ∃ n, ∀ fuel, s.call (fuel + n) c = some s'

/-- The unit count of a request. -/
def requestUnits (nbytes : Nat) : Nat := (nbytes + headerSize - 1) / headerSize + 1

/-- The units of a request fit `sbrk`'s `int`, what is freed is a block in use, and what is
written lies behind the header of one. -/
def Valid (s : Session) : HeapCall → Prop
  | .malloc nbytes => requestUnits nbytes * headerSize < 2 ^ 31
  | .free ap => ∃ b ∈ s.live, ap = b + headerSize
  | .write a _ => ∃ b ∈ s.live, b + headerSize ≤ a ∧
      a + headerSize ≤ b + headerSize * s.heap.size b

/-- The regions obtained so far keep clear of `base`. -/
def BaseApart (s : Session) : Prop := ∀ r ∈ s.heap.regions, Apart s.heap.base r

/-- So does the one that the call would obtain next. -/
def RoomFor (s : Session) : HeapCall → Prop
  | .malloc nbytes => Apart s.heap.base (s.heap.brk, Heap.grant (requestUnits nbytes))
  | _ => True

/-- Before the first call: no ring yet, and the break at a page boundary. -/
structure Fresh (s : Session) : Prop where
  freep : s.heap.freep = 0
  live : s.live = ∅
  regions : s.heap.regions = []
  brk : 0 < s.heap.brk
  page : pageSize ∣ s.heap.brk
  base : 0 < s.heap.base

/-- The bytes of a block; `base` has no units, only its header. -/
def extent (s : Session) (a : Nat) : Nat :=
  if a = s.heap.base then headerSize else headerSize * s.heap.size a

/-- The heap is sound, and `free` are the blocks reached from `freep`. -/
structure Sound (s : Session) (free : Finset Nat) : Prop where
  reached : ∀ a, a ∈ free ↔ ∃ n, s.heap.next^[n] s.heap.freep = a
  cycle : ∀ a ∈ free, ∃ n, s.heap.next^[n] a = s.heap.freep
  through : s.heap.base ∈ free
  ascending : ∃! a, a ∈ free ∧ s.heap.next a ≤ a
  merged : ∀ a ∈ free, s.heap.next a ≠ a → a + headerSize * s.heap.size a ≠ s.heap.next a
  separate : Disjoint free s.live
  disjoint : ∀ a b, a ∈ free ∨ a ∈ s.live → b ∈ free ∨ b ∈ s.live → a ≠ b →
    a + s.extent a ≤ b ∨ b + s.extent b ≤ a
  served : ∀ b ∈ s.live, headerSize + s.request b ≤ headerSize * s.heap.size b
  total : ∑ a ∈ free, s.heap.size a + ∑ a ∈ s.live, s.heap.size a =
    (s.heap.regions.map Prod.snd).sum

/-- Every call that keeps to the rules returns. -/
def Answers (s : Session) : Prop := ∀ c, s.Valid c → s.RoomFor c → ∃ s', s.Step c s'

/-- The heap is in order, once the ring exists. -/
structure Ordered (s : Session) (free : Finset Nat) : Prop where
  order : s.heap.started.InOrder free s.live
  unused : s.heap.freep = 0 → s.live = ∅

/-- What keeps the heap in order: the unit count, to which the request may have been cut, is not
zero, and its bytes fit `sbrk`'s `int`. -/
def Fits (s : Session) : HeapCall → Prop
  | .malloc nbytes => 0 < Heap.units nbytes ∧ Heap.units nbytes * headerSize < 2 ^ 31
  | .free ap => s.Valid (.free ap)
  | .write a cell => s.Valid (.write a cell)

/-- The session with its heap in order, once the ring exists. -/
structure Ready (s : Session) (free : Finset Nat) : Prop where
  order : s.heap.started.InOrder free s.live
  unused : s.heap.freep = 0 → s.live = ∅
  served : ∀ b ∈ s.live, headerSize + s.request b ≤ headerSize * s.heap.size b

/-! ## Each call -/

theorem requestUnits_fit {nbytes : Nat} (fits : requestUnits nbytes * headerSize < 2 ^ 31) :
    Heap.units nbytes = requestUnits nbytes ∧ 0 < requestUnits nbytes ∧
      Heap.grant (requestUnits nbytes) < 2 ^ 27 ∧
      headerSize + nbytes ≤ headerSize * requestUnits nbytes := by
  unfold requestUnits at fits ⊢
  simp only [headerSize] at fits ⊢
  refine ⟨?_, Nat.succ_pos _, ?_, by omega⟩
  · unfold Heap.units unsigned
    simp only [headerSize]
    omega
  · unfold Heap.grant
    split
    · decide
    · omega

/-- The first `malloc` sets up the ring of `base` alone. -/
theorem Fresh.ordered (fresh : s.Fresh) : s.Ordered {s.heap.base} := by
  have started : s.heap.started =
      ((s.heap.setPtr s.heap.base s.heap.base).setFreep s.heap.base).setSize s.heap.base 0 :=
    if_pos fresh.freep
  have regions : s.heap.started.regions = [] := by
    rw [started]
    exact fresh.regions
  have only {a : Nat} (member : a ∈ ({s.heap.base} : Finset Nat) ∨ a ∈ s.live) :
      a = s.heap.base := by
    rw [fresh.live, Finset.mem_singleton] at member
    exact member.elim id fun none => absurd none (Finset.notMem_empty a)
  have base : s.heap.started.base = s.heap.base := by
    rw [started]
    rfl
  have next : s.heap.started.next s.heap.base = s.heap.base := by
    rw [started, Heap.setSize_next]
    exact (Heap.setPtr_next _ _ _ _).trans (if_pos rfl)
  have size : s.heap.started.size s.heap.base = 0 := by
    rw [started, Heap.setSize_size, if_pos rfl]
  refine ⟨⟨⟨⟨?_, ?_, ?_, ?_, ?_, ?_, ?_, ?_⟩, ?_, ?_, ?_, ?_, ?_, ?_, ?_, ?_⟩, ?_, ?_⟩, ?_⟩
  · rw [started]
    exact fresh.brk
  · rw [started]
    exact fresh.page
  · rw [started]
    exact fresh.base
  · simp [regions]
  · simp [regions]
  · simp [regions]
  · simp [regions]
  · simp [regions]
  · intro a member
    rw [Finset.mem_singleton] at member
    subst member
    rw [next]
    exact ⟨Finset.mem_singleton_self _, Or.inr ⟨Nat.le_refl _, by simp⟩⟩
  · rw [base]
    exact Finset.mem_singleton_self _
  · rw [base, size]
  · intro a live
    rw [fresh.live] at live
    exact absurd live (Finset.notMem_empty a)
  · intro a member other
    rw [base] at other
    exact absurd (only member) other
  · intro a b memberA memberB less
    rw [only memberA, only memberB] at less
    exact absurd less (Nat.lt_irrefl _)
  · intro a member other
    rw [base] at other
    exact absurd (only member) other
  · rw [fresh.live, Finset.sum_singleton, size, regions]
    rfl
  · intro a member
    rw [only (Or.inl member)]
    exact Or.inr (Or.inl next)
  · rw [started]
    exact Finset.mem_singleton_self _
  · exact fun _ => fresh.live

theorem Fresh.ready (fresh : s.Fresh) : s.Ready {s.heap.base} := by
  obtain ⟨order, unused⟩ := fresh.ordered
  refine ⟨order, unused, fun b live => ?_⟩
  rw [fresh.live] at live
  exact absurd live (Finset.notMem_empty b)

theorem Ready.ordered {free : Finset Nat} (ready : s.Ready free) : s.Ordered free :=
  ⟨ready.order, ready.unused⟩

theorem Valid.fits (valid : s.Valid c) : s.Fits c := by
  cases c with
  | malloc nbytes =>
    obtain ⟨units, positive, _⟩ := requestUnits_fit valid
    have fits : 0 < Heap.units nbytes ∧ Heap.units nbytes * headerSize < 2 ^ 31 := by
      rw [units]
      exact ⟨positive, valid⟩
    exact fits
  | free ap => exact valid
  | write a cell => exact valid

/-- Once `freep` is set, `malloc` leaves the ring as it is. -/
private theorem started_eq {m : Heap} {F U : Finset Nat} (order : m.InOrder F U) :
    m.started = m := if_neg (order.node_pos (Or.inl order.freep))

/-- With a block in use, `freep` is set. -/
theorem Ordered.in_use {free : Finset Nat} (ordered : s.Ordered free) {b : Nat}
    (live : b ∈ s.live) : s.heap.started = s.heap := by
  refine if_neg fun none => ?_
  rw [ordered.unused none] at live
  exact absurd live (Finset.notMem_empty b)

theorem Ordered.used {free : Finset Nat} (ordered : s.Ordered free) (used : s.heap.freep ≠ 0) :
    s.heap.InOrder free s.live := by
  have order := ordered.order
  rwa [Heap.started, if_neg used] at order

/-- What a session is like after a call. -/
theorem Ordered.of_order {free : Finset Nat} (order : s.heap.InOrder free s.live) :
    s.Ordered free ∧ s.heap.freep ≠ 0 := by
  have used := order.node_pos (Or.inl order.freep)
  refine ⟨⟨?_, fun none => absurd none used⟩, used⟩
  rw [started_eq order]
  exact order

theorem started_frame (m : Heap) :
    m.started.base = m.base ∧ m.started.brk = m.brk := by
  unfold Heap.started
  split <;> exact ⟨rfl, rfl⟩

theorem grant_fits {n : Nat} (fits : n * headerSize < 2 ^ 31) : Heap.grant n < 2 ^ 27 := by
  simp only [headerSize] at fits
  unfold Heap.grant
  split
  · decide
  · omega

/-- `malloc` hands out a new block of the units it has counted, whether there is known to be room
for a new region or it is known to have returned. -/
theorem Ordered.malloc_block {free : Finset Nat} (ordered : s.Ordered free) {nbytes : Nat}
    (fits : s.Fits (.malloc nbytes))
    (room : Apart s.heap.base (s.heap.brk, Heap.grant (Heap.units nbytes)) ∨
      ∃ s', s'.BaseApart ∧ s.Step (.malloc nbytes) s') :
    ∃ m' b, (∃ d, ∀ fuel, s.heap.malloc (fuel + d) nbytes = some (m', b + headerSize)) ∧
      Heap.Served s.heap.started s.live (Heap.units nbytes) m' b := by
  obtain ⟨base, brk⟩ := started_frame s.heap
  refine ordered.order.search fits.1 (grant_fits fits.2) (room.imp (fun room => ?_) ?_)
  · rw [base, brk]
    exact room
  · rintro ⟨s', apart, d, returned⟩
    have heap (fuel : Nat) : ∃ ap, Heap.search (Heap.units nbytes) (fuel + d) s.heap.started
        s.heap.started.freep (s.heap.started.next s.heap.started.freep) = some (s'.heap, ap) := by
      obtain ⟨⟨m', ap⟩, found, same⟩ := Option.map_eq_some_iff.mp (returned fuel)
      rw [Heap.malloc] at found
      refine ⟨ap, ?_⟩
      rw [← same]
      dsimp only
      split <;> exact found
    obtain ⟨ap, found⟩ := heap 0
    have same := (Heap.search_extends found).1
    refine ⟨s'.heap, fun r inR => ?_, d, heap⟩
    rw [← same]
    exact apart r inR

/-- The session after a `malloc` that has handed out `b`. -/
def handed (s : Session) (nbytes : Nat) (m' : Heap) (b : Nat) : Session :=
  ⟨m', insert b s.live, Function.update s.request b nbytes⟩

private theorem step_handed {nbytes b : Nat} {m' : Heap}
    (returns : ∃ d, ∀ fuel, s.heap.malloc (fuel + d) nbytes = some (m', b + headerSize)) :
    s.Step (.malloc nbytes) (s.handed nbytes m' b) := by
  obtain ⟨d, returns⟩ := returns
  refine ⟨d, fun fuel => ?_⟩
  unfold call
  dsimp only
  rw [returns fuel]
  rfl

/-- `free` leaves the heap in order, and the other blocks as they are. -/
theorem Ordered.free {free : Finset Nat} (ordered : s.Ordered free) {ap : Nat}
    (valid : s.Valid (.free ap)) :
    ∃ s', s.Step (.free ap) s' ∧ (∃ free', s'.heap.InOrder free' s'.live) ∧
      Heap.SameRegions s.heap s'.heap ∧ s'.live = s.live.erase (ap - headerSize) ∧
      s'.request = s.request ∧ ∀ x ∈ s'.live, s'.heap.size x = s.heap.size x := by
  obtain ⟨b, live, rfl⟩ := valid
  have order := ordered.order
  rw [ordered.in_use live] at order
  obtain ⟨m', F', ⟨n, freed⟩, order', same, kept, _⟩ := order.free live
  refine ⟨{ s with heap := m', live := s.live.erase b }, ⟨n, fun fuel => ?_⟩, ⟨F', order'⟩, same,
    rfl, rfl, kept⟩
  unfold call
  dsimp only
  rw [freed fuel, Nat.add_sub_cancel]
  rfl

/-- A store into a block in use touches no header. -/
private theorem Ordered.write {free : Finset Nat} (ordered : s.Ordered free) {a : Nat}
    {cell : Header} (valid : s.Valid (.write a cell)) :
    ∃ m', s.Step (.write a cell) { s with heap := m' } ∧ m'.InOrder free s.live ∧
      Heap.SameRegions s.heap m' ∧ ∀ x ∈ s.live, m'.size x = s.heap.size x := by
  obtain ⟨b, live, above, below⟩ := valid
  have order := ordered.order
  rw [ordered.in_use live] at order
  have blocks := order.blocks
  simp only [headerSize] at above below
  have away {x : Nat} (member : x ∈ free ∨ x ∈ s.live) : x ≠ a := by
    rintro rfl
    have room := blocks.disjoint b x (Or.inr live) member (by omega)
    omega
  let written : Heap := { s.heap with hdr := Function.update s.heap.hdr a cell }
  have header {x : Nat} (member : x ∈ free ∨ x ∈ s.live) : written.hdr x = s.heap.hdr x :=
    Function.update_of_ne (away member) _ _
  have size {x : Nat} (member : x ∈ free ∨ x ∈ s.live) : written.size x = s.heap.size x :=
    congrArg Header.size (header member)
  have next {x : Nat} (member : x ∈ free) : written.next x = s.heap.next x :=
    congrArg Header.ptr (header (Or.inl member))
  have order' : written.InOrder free s.live := by
    refine ⟨blocks.reassign (blocks.regions.congr rfl rfl rfl) rfl rfl (fun _ => size)
      (blocks.ring.congr fun x member => next member) blocks.base_free (fun _ => id) blocks.live
      rfl, fun x member => ?_, order.freep⟩
    rw [next member, size (Or.inl member)]
    exact order.merged x member
  exact ⟨written, ⟨0, fun _ => rfl⟩, order', ⟨rfl, rfl, rfl⟩, fun x member => size (Or.inr member)⟩

/-- `malloc` hands out a new block that is large enough. -/
theorem Ready.malloc_block {free : Finset Nat} (ready : s.Ready free) {nbytes : Nat}
    (valid : s.Valid (.malloc nbytes))
    (room : s.RoomFor (.malloc nbytes) ∨
      ∃ s', s'.BaseApart ∧ s.Step (.malloc nbytes) s') :
    ∃ m' b, (∃ d, ∀ fuel, s.heap.malloc (fuel + d) nbytes = some (m', b + headerSize)) ∧
      b ∉ s.live ∧ m'.freep ≠ 0 ∧ ∃ free', Ready (s.handed nbytes m' b) free' := by
  obtain ⟨units, _, _, enough⟩ := requestUnits_fit valid
  have room : Apart s.heap.base (s.heap.brk, Heap.grant (Heap.units nbytes)) ∨
      ∃ s', s'.BaseApart ∧ s.Step (.malloc nbytes) s' := by
    rw [units]
    exact room
  obtain ⟨m', b, returns, ⟨F', order'⟩, fresh, size, kept⟩ :=
    ready.ordered.malloc_block (Valid.fits valid) room
  have served : ∀ x ∈ insert b s.live, headerSize + Function.update s.request b nbytes x ≤
      headerSize * m'.size x := by
    intro x live
    by_cases here : x = b
    · subst here
      rw [Function.update_self, size, units]
      exact enough
    · have old := Finset.mem_of_mem_insert_of_ne live here
      have same := kept x old
      rw [ready.ordered.in_use old] at same
      rw [Function.update_of_ne here, same]
      exact ready.served x old
  obtain ⟨⟨started, unused⟩, used⟩ := Ordered.of_order (s := s.handed nbytes m' b) order'
  exact ⟨m', b, returns, fresh, used, F', started, unused, served⟩

private theorem Ready.malloc {free : Finset Nat} (ready : s.Ready free) {nbytes : Nat}
    (valid : s.Valid (.malloc nbytes))
    (room : s.RoomFor (.malloc nbytes) ∨
      ∃ s', s'.BaseApart ∧ s.Step (.malloc nbytes) s') :
    ∃ s', s.Step (.malloc nbytes) s' ∧ (∃ free', s'.Ready free') ∧ s'.heap.freep ≠ 0 := by
  obtain ⟨m', b, returns, _, used, ready'⟩ := ready.malloc_block valid room
  exact ⟨s.handed nbytes m' b, step_handed returns, ready', used⟩

private theorem Ready.free {free : Finset Nat} (ready : s.Ready free) {ap : Nat}
    (valid : s.Valid (.free ap)) :
    ∃ s', s.Step (.free ap) s' ∧ (∃ free', s'.Ready free') ∧ s'.heap.freep ≠ 0 := by
  obtain ⟨s', step, ⟨F', order'⟩, _, fewer, requests, kept⟩ := ready.ordered.free valid
  obtain ⟨⟨started, unused⟩, used⟩ := Ordered.of_order order'
  refine ⟨s', step, ⟨F', started, unused, fun x old => ?_⟩, used⟩
  rw [kept x old, requests]
  rw [fewer] at old
  exact ready.served x (Finset.mem_of_mem_erase old)

private theorem Ready.write {free : Finset Nat} (ready : s.Ready free) {a : Nat} {cell : Header}
    (valid : s.Valid (.write a cell)) :
    ∃ s', s.Step (.write a cell) s' ∧ (∃ free', s'.Ready free') ∧ s'.heap.freep ≠ 0 := by
  obtain ⟨m', step, order', _, kept⟩ := ready.ordered.write valid
  obtain ⟨⟨started, unused⟩, used⟩ := Ordered.of_order (s := { s with heap := m' }) order'
  refine ⟨{ s with heap := m' }, step, ⟨free, started, unused, fun x old => ?_⟩, used⟩
  change headerSize + s.request x ≤ headerSize * m'.size x
  rw [kept x old]
  exact ready.served x old

/-- The result of a call does not depend on the fuel. -/
theorem Step.unique {t : Session} (left : s.Step c s') (right : s.Step c t) : s' = t := by
  obtain ⟨n, left⟩ := left
  obtain ⟨k, right⟩ := right
  have both := left k
  rw [Nat.add_comm, right n] at both
  exact (Option.some.inj both).symm

theorem Ready.answers {free : Finset Nat} (ready : s.Ready free) : s.Answers := by
  intro c valid room
  cases c with
  | malloc nbytes =>
    obtain ⟨s', step, _⟩ := ready.malloc valid (Or.inl room)
    exact ⟨s', step⟩
  | free ap =>
    obtain ⟨s', step, _⟩ := ready.free valid
    exact ⟨s', step⟩
  | write a cell =>
    obtain ⟨s', step, _⟩ := ready.write valid
    exact ⟨s', step⟩

theorem Ordered.step {free : Finset Nat} (ordered : s.Ordered free) (step : s.Step c s')
    (fits : s.Fits c) (apart : s'.BaseApart) :
    (∃ free', s'.Ordered free') ∧ s'.heap.freep ≠ 0 := by
  cases c with
  | malloc nbytes =>
    obtain ⟨m', b, returns, ⟨F', order'⟩, _⟩ :=
      ordered.malloc_block fits (Or.inr ⟨s', apart, step⟩)
    rw [step.unique (step_handed returns)]
    obtain ⟨after, used⟩ := Ordered.of_order (s := s.handed nbytes m' b) order'
    exact ⟨⟨F', after⟩, used⟩
  | free ap =>
    obtain ⟨t, stepped, ⟨F', order'⟩, _⟩ := ordered.free fits
    rw [step.unique stepped]
    obtain ⟨after, used⟩ := Ordered.of_order order'
    exact ⟨⟨F', after⟩, used⟩
  | write a cell =>
    obtain ⟨m', stepped, order', _⟩ := ordered.write fits
    rw [step.unique stepped]
    obtain ⟨after, used⟩ := Ordered.of_order (s := { s with heap := m' }) order'
    exact ⟨⟨free, after⟩, used⟩

theorem Ready.step {free : Finset Nat} (ready : s.Ready free) (step : s.Step c s')
    (valid : s.Valid c) (apart : s'.BaseApart) :
    (∃ free', s'.Ready free') ∧ s'.heap.freep ≠ 0 := by
  cases c with
  | malloc nbytes =>
    obtain ⟨t, stepped, ready'⟩ := ready.malloc valid (Or.inr ⟨s', apart, step⟩)
    rwa [step.unique stepped]
  | free ap =>
    obtain ⟨t, stepped, ready'⟩ := ready.free valid
    rwa [step.unique stepped]
  | write a cell =>
    obtain ⟨t, stepped, ready'⟩ := ready.write valid
    rwa [step.unique stepped]

/-- A heap in order is sound. -/
theorem Ready.sound {free : Finset Nat} (ready : s.Ready free) (used : s.heap.freep ≠ 0) :
    s.Sound free := by
  have order := ready.ordered.used used
  have blocks := order.blocks
  have ring := blocks.ring
  have extent {a : Nat} (member : a ∈ free ∨ a ∈ s.live) (other : a ≠ s.heap.base) :
      s.extent a = headerSize * s.heap.size a := if_neg other
  have clear {a : Nat} (member : a ∈ free ∨ a ∈ s.live) (other : a ≠ s.heap.base) :
      s.heap.base + headerSize ≤ a ∨ a + headerSize * s.heap.size a ≤ s.heap.base := by
    obtain ⟨r, inR, start, stop⟩ := blocks.inside a member other
    simp only [headerSize]
    rcases blocks.regions.apart r inR with below | above
    · left
      omega
    · right
      omega
  refine ⟨fun a => ?_, fun a member => ring.reaches member order.freep, blocks.base_free,
    ring.one_wrap blocks.base_free, ?_, ?_, ?_, ready.served, blocks.total⟩
  · constructor
    · exact fun member => ring.reaches order.freep member
    · rintro ⟨n, rfl⟩
      exact ring.iterate_mem order.freep n
  · intro a member several
    rcases order.merged a member with none | alone | apart
    · exact none.elim
    · exact absurd alone several
    · exact apart
  · exact Finset.disjoint_left.mpr fun a member live => blocks.live a live member
  · intro a b memberA memberB apart
    by_cases baseA : a = s.heap.base
    · have other : b ≠ s.heap.base := fun same => apart (baseA.trans same.symm)
      rw [extent memberB other, Session.extent, if_pos baseA, baseA]
      exact clear memberB other
    · rw [extent memberA baseA]
      by_cases baseB : b = s.heap.base
      · rw [Session.extent, if_pos baseB, baseB]
        exact (clear memberA baseA).symm
      · rw [extent memberB baseB]
        rcases Nat.lt_or_gt_of_ne apart with less | more
        · exact Or.inl (blocks.disjoint a b memberA memberB less)
        · exact Or.inr (blocks.disjoint b a memberB memberA more)

/-- The heap of a user program is sound after every call, whatever calls it makes, and every
call it may make returns. -/
theorem heap_sound (start : Session) (fresh : start.Fresh) (run : List (HeapCall × Session))
    (ran : Along Step start run) (valid : Along (fun s c _ => s.Valid c) start run)
    (apart : Along (fun _ _ s' => s'.BaseApart) start run) :
    start.Answers ∧ Along (fun _ _ s' => (∃ free, s'.Sound free) ∧ s'.Answers) start run := by
  have preserved (s : Session) (c : HeapCall) (s' : Session) (ready : ∃ free, s.Ready free)
      (step : s.Step c s' ∧ s.Valid c ∧ s'.BaseApart) : ∃ free, s'.Ready free := by
    obtain ⟨free, ready⟩ := ready
    exact (ready.step step.1 step.2.1 step.2.2).1
  have along := Along.invariant preserved ⟨_, fresh.ready⟩ (ran.and (valid.and apart))
  refine ⟨fresh.ready.answers, along.mono fun s c s' step => ?_⟩
  obtain ⟨⟨free, ready⟩, ⟨stepped, valid, apart⟩, ⟨free', ready'⟩⟩ := step
  exact ⟨⟨free', ready'.sound (ready.step stepped valid apart).2⟩, ready'.answers⟩

/-- A program that has made no call yet, its `base` below the kernel's heap area. -/
def idleHeap : Session :=
  ⟨⟨fun _ => ⟨0, 0⟩, 0x600000, 0, 0x4B0FFFFF0000, []⟩, ∅, fun _ => 0⟩

def oneBlock : Session := (idleHeap.call 4 (.malloc 10)).getD idleHeap

/-- The headers that have been written, the last one first. -/
def written : List (Nat × Header) → Nat → Header
  | [] => fun _ => ⟨0, 0⟩
  | (a, cell) :: earlier => Function.update (written earlier) a cell

/-- The program after its calls, with one region. -/
def afterCalls (cells : List (Nat × Header)) (freep : Nat) (live : Finset Nat)
    (request : Nat → Nat) : Session :=
  ⟨⟨written cells, 0x600000, freep, 0x4B0FFFFF5000, [(0x4B0FFFFF0000, 1024)]⟩, live, request⟩

def oneCells : List (Nat × Header) :=
  [(0x4B0FFFFF3FE0, ⟨0, 2⟩), (0x4B0FFFFF0000, ⟨0x600000, 1022⟩), (0x600000, ⟨0x4B0FFFFF0000, 0⟩),
    (0x4B0FFFFF0000, ⟨0x600000, 1024⟩), (0x4B0FFFFF0000, ⟨0, 1024⟩), (0x600000, ⟨0x600000, 0⟩),
    (0x600000, ⟨0x600000, 0⟩)]

def twoCells : List (Nat × Header) :=
  (0x4B0FFFFF3F60, ⟨0, 8⟩) :: (0x4B0FFFFF0000, ⟨0x600000, 1014⟩) :: oneCells

def threeCells : List (Nat × Header) :=
  (0x4B0FFFFF3F30, ⟨0, 3⟩) :: (0x4B0FFFFF0000, ⟨0x600000, 1011⟩) :: twoCells

def freedCells : List (Nat × Header) :=
  (0x4B0FFFFF0000, ⟨0x4B0FFFFF3F60, 1011⟩) :: (0x4B0FFFFF3F60, ⟨0x600000, 8⟩) :: threeCells

def mergedCells : List (Nat × Header) :=
  (0x4B0FFFFF3F60, ⟨0x600000, 10⟩) :: (0x4B0FFFFF3F60, ⟨0x600000, 10⟩) ::
    (0x4B0FFFFF3FE0, ⟨0x600000, 2⟩) :: freedCells

def requestOne : Nat → Nat := Function.update (fun _ => 0) 0x4B0FFFFF3FE0 10

def requestTwo : Nat → Nat := Function.update requestOne 0x4B0FFFFF3F60 100

def requestThree : Nat → Nat := Function.update requestTwo 0x4B0FFFFF3F30 20

def twoBlocks : Session :=
  afterCalls twoCells 0x600000 {0x4B0FFFFF3F60, 0x4B0FFFFF3FE0} requestTwo

def threeBlocks : Session :=
  afterCalls threeCells 0x600000 {0x4B0FFFFF3F30, 0x4B0FFFFF3F60, 0x4B0FFFFF3FE0} requestThree

/-- The block in the middle is free, between two that are in use. -/
def middleFreed : Session :=
  afterCalls freedCells 0x4B0FFFFF0000 {0x4B0FFFFF3F30, 0x4B0FFFFF3FE0} requestThree

/-- It has merged with the one above it. -/
def merged : Session := afterCalls mergedCells 0x4B0FFFFF3F60 {0x4B0FFFFF3F30} requestThree

def mergingRun : List (HeapCall × Session) :=
  [(.malloc 10, oneBlock), (.malloc 100, twoBlocks), (.malloc 20, threeBlocks),
    (.free 0x4B0FFFFF3F70, middleFreed), (.free 0x4B0FFFFF3FF0, merged)]

theorem idleHeap_fresh : idleHeap.Fresh := ⟨rfl, rfl, rfl, by decide, by decide, by decide⟩

theorem oneBlock_eq : oneBlock = afterCalls oneCells 0x600000 {0x4B0FFFFF3FE0} requestOne := rfl

theorem mergingRun_along : Along Step idleHeap mergingRun := by
  simp only [mergingRun, along_cons]
  refine ⟨⟨4, fun _ => rfl⟩, ?_, ⟨4, fun _ => rfl⟩, ⟨4, fun _ => rfl⟩, ⟨4, fun _ => rfl⟩,
    along_nil _ _⟩
  rw [oneBlock_eq]
  exact ⟨4, fun _ => rfl⟩

theorem apart_of_region {s : Session} (base : s.heap.base = 0x600000)
    (regions : s.heap.regions = [(0x4B0FFFFF0000, 1024)]) : s.BaseApart := by
  intro r inR
  rw [regions, List.mem_singleton] at inR
  rw [base, inR]
  exact Or.inl (by decide)

theorem mergingRun_valid : Along (fun s c s' => s.Valid c ∧ s'.BaseApart) idleHeap mergingRun := by
  have small {s : Session} {nbytes : Nat} (fits : requestUnits nbytes * headerSize < 2 ^ 31) :
      s.Valid (.malloc nbytes) := fits
  simp only [mergingRun, along_cons]
  refine ⟨⟨small (by decide), ?_⟩, ⟨small (by decide), apart_of_region rfl rfl⟩,
    ⟨small (by decide), apart_of_region rfl rfl⟩,
    ⟨⟨0x4B0FFFFF3F60, by decide, rfl⟩, apart_of_region rfl rfl⟩,
    ⟨⟨0x4B0FFFFF3FE0, by decide, rfl⟩, apart_of_region rfl rfl⟩, along_nil _ _⟩
  rw [oneBlock_eq]
  exact apart_of_region rfl rfl

/-- Of three blocks the two above are freed: they become one, and the third stays in use. -/
theorem heap_sound_of_merging : middleFreed.heap.size 0x4B0FFFFF3F60 = 8 ∧
    merged.heap.size 0x4B0FFFFF3F60 = 10 ∧ (∃ free, merged.Sound free) ∧ merged.Answers := by
  have sound := heap_sound idleHeap idleHeap_fresh mergingRun mergingRun_along
    (mergingRun_valid.mono fun _ _ _ step => step.1)
    (mergingRun_valid.mono fun _ _ _ step => step.2)
  simp only [mergingRun, along_cons] at sound
  exact ⟨rfl, rfl, sound.2.2.2.2.2.1⟩

end Session

end LateOS
