import LateOS.Boot.Freelist

/-!
# Which frames are listed

For a memory map of disjoint regions with aligned bases in low memory, `initializeFreelist`
lists every whole frame above the kernel, the last one of each region apart, in order.
-/
namespace LateOS

open Lib

namespace Scan

variable {physfree : Word} {s s' s'' : Scan} {a : Option Nat}

/-- The state after `n` rounds. -/
def steps (physfree : Word) : Nat → Scan → Option Scan
  | 0, s => some s
  | n + 1, s => (s.step physfree).bind fun next => steps physfree n next.2

theorem steps_add {m n : Nat} (first : steps physfree m s = some s')
    (second : steps physfree n s' = some s'') : steps physfree (m + n) s = some s'' := by
  induction m generalizing s with
  | zero =>
    cases first
    rw [Nat.zero_add]
    exact second
  | succ m ih =>
    obtain ⟨next, taken, later⟩ := Option.bind_eq_some_iff.mp first
    rw [Nat.succ_add, steps, taken]
    exact ih later

theorem steps_one (ran : s.step physfree = some (a, s')) : steps physfree 1 s = some s' := by
  rw [steps, ran]
  rfl

theorem finish_steps {m n : Nat} {fl : Freelist} (first : steps physfree m s = some s')
    (second : finish physfree n s' = some fl) : finish physfree (m + n) s = some fl := by
  induction m generalizing s with
  | zero =>
    cases first
    rw [Nat.zero_add]
    exact second
  | succ m ih =>
    obtain ⟨next, taken, later⟩ := Option.bind_eq_some_iff.mp first
    rw [Nat.succ_add, finish, taken]
    exact ih later

/-- More rounds than are needed change nothing. -/
theorem finish_mono {m n : Nat} (more : n ≤ m) {fl : Freelist}
    (finished : finish physfree n s = some fl) : finish physfree m s = some fl := by
  induction n generalizing m s with
  | zero => cases finished
  | succ n ih =>
    obtain ⟨m, rfl⟩ := Nat.exists_eq_add_of_le' (Nat.lt_of_lt_of_le (Nat.succ_pos n) more)
    rw [finish] at finished ⊢
    split at finished
    next => exact finished
    next => exact ih (Nat.le_of_succ_le_succ more) finished

end Scan

/-! ## One region -/

/-- The region lies below frame 75000, and starts at a frame. -/
structure Smap.Low (r : Smap) : Prop where
  aligned : 4096 ∣ r.base.toNat
  below : r.base.toNat + r.length.toNat ≤ 4096 * 75000

/-- The first `n` frames of a region that are listed. -/
def Smap.listed (physfree : Word) (r : Smap) (n : Nat) : List Nat :=
  ((List.range n).map fun k => r.base.toNat + 4096 * k).filter fun a => Scan.Enters physfree r a

/-- The number of frames that begin in a region. -/
def Smap.rounds (r : Smap) : Nat := (r.length.toNat + 4095) / 4096

/-- All that are listed. -/
def Smap.frames (physfree : Word) (r : Smap) : List Nat :=
  if r.Usable then r.listed physfree r.rounds else []

variable {physfree : Word} {r : Smap} {rest : List Smap} {s : Scan} {addresses : List Nat}

theorem Smap.Low.stop (low : r.Low) : r.stop = r.base.toNat + r.length.toNat := by
  have below := low.below
  unfold Smap.stop
  exact wrap_of_lt (by omega)

theorem Smap.listed_succ (n : Nat) : r.listed physfree (n + 1) = r.listed physfree n ++
    if Scan.Enters physfree r (r.base.toNat + 4096 * n) then [r.base.toNat + 4096 * n] else [] := by
  unfold Smap.listed
  rw [List.range_succ, List.map_append, List.filter_append, List.map_singleton]
  congr 1
  split
  next enters => simp [enters]
  next skips => simp [skips]

theorem Smap.mem_listed {n a : Nat} : a ∈ r.listed physfree n ↔
    (∃ k < n, a = r.base.toNat + 4096 * k) ∧ Scan.Enters physfree r a := by
  unfold Smap.listed
  rw [List.mem_filter, decide_eq_true_iff]
  refine and_congr_left fun _ => ?_
  simp only [List.mem_map, List.mem_range, eq_comm]

/-- `n` rounds in a region list its first frames behind what has been listed before. -/
theorem Scan.Lists.rounds (lists : s.Lists addresses) (low : r.Low) (usable : r.Usable)
    (here : s.smap = r :: rest) (first : s.base = r.base.toNat)
    (fresh : ∀ a ∈ addresses, ∀ k < r.rounds, a ≠ r.base.toNat + 4096 * k) {n : Nat} (inside : n ≤ r.rounds) :
    ∃ s', Scan.steps physfree n s = some s' ∧ s'.Lists (addresses ++ r.listed physfree n) ∧
      s'.smap = r :: rest ∧ s'.base = r.base.toNat + 4096 * n := by
  induction n with
  | zero =>
    refine ⟨s, rfl, ?_, here, by rw [first, Nat.mul_zero, Nat.add_zero]⟩
    simpa [Smap.listed] using lists
  | succ n ih =>
    obtain ⟨s', ran, lists', here', base⟩ := ih (by omega)
    have below := low.below
    have more : s'.base < r.stop := by
      rw [low.stop, base]
      unfold Smap.rounds at inside
      omega
    -- Low memory is far from the end of the address space, so the sum does not wrap around.
    have next : nextFrame s'.base = r.base.toNat + 4096 * (n + 1) := by
      rw [low.stop] at more
      rw [nextFrame_of_lt (by omega), base]
      omega
    rw [Smap.listed_succ, ← List.append_assoc]
    -- Either way the loop goes on to the next frame; only an entered one joins the list.
    by_cases enters : Enters physfree r s'.base
    · have step : s'.step physfree = some (some s'.base, s'.enter.advance) := by
        unfold Scan.step
        rw [here']
        exact (if_pos ⟨usable, more⟩).trans (if_pos enters)
      have aligned : 4096 ∣ s'.base := by
        rw [base]
        exact (Nat.dvd_add_right low.aligned).mpr (Nat.dvd_mul_right _ _)
      -- Neither an earlier region nor an earlier round has listed this frame.
      have new : s'.base ∉ addresses ++ r.listed physfree n := by
        rw [List.mem_append, not_or, base]
        refine ⟨fun member => fresh _ member n inside rfl, fun member => ?_⟩
        obtain ⟨⟨k, before, same⟩, _⟩ := Smap.mem_listed.mp member
        omega
      have entered := (lists'.enter aligned new).advance
      refine ⟨s'.enter.advance, Scan.steps_add ran (Scan.steps_one step), ?_, ?_, ?_⟩
      · rw [base] at entered enters
        rw [if_pos enters]
        exact entered
      · rw [Scan.advance_smap, Scan.enter_smap, here']
      · rw [Scan.advance_base, Scan.enter_base, next]
    · have step : s'.step physfree = some (none, s'.advance) := by
        unfold Scan.step
        rw [here']
        exact (if_pos ⟨usable, more⟩).trans (if_neg enters)
      refine ⟨s'.advance, Scan.steps_add ran (Scan.steps_one step), ?_, ?_, ?_⟩
      · rw [base] at enters
        rw [if_neg enters, List.append_nil]
        exact lists'.advance
      · rw [Scan.advance_smap, here']
      · rw [Scan.advance_base, next]

/-- The loop over a region lists its frames and goes on to the next region. -/
theorem Scan.Lists.region (lists : s.Lists addresses) (low : r.Usable → r.Low)
    (here : s.smap = r :: rest) (first : s.base = r.base.toNat)
    (fresh : r.Usable → ∀ a ∈ addresses, ∀ k < r.rounds, a ≠ r.base.toNat + 4096 * k) :
    ∃ n s', Scan.steps physfree n s = some s' ∧ s'.Lists (addresses ++ r.frames physfree) ∧
      ∃ before : Scan, s' = before.enterRegion rest := by
  unfold Smap.frames
  by_cases usable : r.Usable
  · rw [if_pos usable]
    have low := low usable
    obtain ⟨s', ran, lists', here', base⟩ := lists.rounds low usable here first (fresh usable)
      (Nat.le_refl _)
    -- After all its rounds the scan stands at or behind the end of the region.
    have past : ¬(r.Usable ∧ s'.base < r.stop) := by
      rw [low.stop, base, Smap.rounds]
      omega
    have step : s'.step physfree = some (none, s'.enterRegion rest) := by
      unfold Scan.step
      rw [here']
      exact if_neg past
    exact ⟨_, _, Scan.steps_add ran (Scan.steps_one step), ⟨lists'.list, lists'.last⟩, s', rfl⟩
  · rw [if_neg usable, List.append_nil]
    have step : s.step physfree = some (none, s.enterRegion rest) := by
      unfold Scan.step
      rw [here]
      exact if_neg fun both => usable both.1
    exact ⟨1, _, Scan.steps_one step, ⟨lists.list, lists.last⟩, s, rfl⟩

/-! ## The whole map -/

/-- The addresses of a region, as numbers. -/
def Smap.Holds (r : Smap) (a : Nat) : Prop :=
  r.base.toNat ≤ a ∧ a < r.base.toNat + r.length.toNat

/-- A whole frame inside a region. -/
def Smap.WholeFrame (r : Smap) (a : Nat) : Prop :=
  4096 ∣ a ∧ r.base.toNat ≤ a ∧ a + 4096 ≤ r.base.toNat + r.length.toNat

/-- No address lies in two regions that are used. -/
def DisjointRegions (smap : List Smap) : Prop :=
  smap.Pairwise fun r r' => r.Usable → r'.Usable → ∀ a, r.Holds a → ¬r'.Holds a

theorem Smap.mem_frames {a : Nat} : a ∈ r.frames physfree ↔ r.Usable ∧
    (∃ k < r.rounds, a = r.base.toNat + 4096 * k) ∧ Scan.Enters physfree r a := by
  unfold Smap.frames
  split
  next usable => rw [Smap.mem_listed]; exact ⟨fun h => ⟨usable, h⟩, fun h => h.2⟩
  next unused => exact iff_of_false List.not_mem_nil fun both => unused both.1

theorem Smap.Low.holds_of_mem (low : r.Low) {a : Nat} (member : a ∈ r.frames physfree) :
    r.Holds a ∧ a + 4096 < r.base.toNat + r.length.toNat ∧
      wrap (physfree.toNat + 0x1000) < a := by
  obtain ⟨_, ⟨k, before, rfl⟩, above, fits⟩ := Smap.mem_frames.mp member
  have below := low.below
  have stop := low.stop
  unfold Smap.rounds at before
  rw [stop, nextFrame_of_lt (by omega)] at fits
  exact ⟨⟨by omega, by omega⟩, fits, above⟩

theorem Scan.Lists.regions {smap : List Smap} (lists : s.Lists addresses)
    (low : ∀ r ∈ smap, r.Usable → r.Low) (disjoint : DisjointRegions smap)
    (here : ∃ before, s = Scan.enterRegion before smap)
    (fresh : ∀ a ∈ addresses, ∀ r ∈ smap, r.Usable → ¬r.Holds a) :
    ∃ n fl, Scan.finish physfree n s = some fl ∧
      fl.Lists (addresses ++ smap.flatMap fun r => r.frames physfree) := by
  induction smap generalizing s addresses with
  | nil =>
    obtain ⟨before, rfl⟩ := here
    refine ⟨1, (Scan.enterRegion before []).freelist, rfl, ?_⟩
    rw [List.flatMap_nil, List.append_nil]
    exact lists.list
  | cons r rest ih =>
    obtain ⟨before, rfl⟩ := here
    obtain ⟨apart, disjoint⟩ := List.pairwise_cons.mp disjoint
    have lowR := low r List.mem_cons_self
    have member {r' : Smap} (inside : r' ∈ rest) : r' ∈ r :: rest := List.mem_cons_of_mem r inside
    -- An address of the region that is listed already would lie in two regions.
    have new : r.Usable → ∀ a ∈ addresses, ∀ k < r.rounds, a ≠ r.base.toNat + 4096 * k := by
      rintro usable a listed k before rfl
      refine fresh _ listed r List.mem_cons_self usable ⟨Nat.le_add_right _ _, ?_⟩
      unfold Smap.rounds at before
      omega
    obtain ⟨n, s', ran, lists', next⟩ := lists.region lowR rfl rfl new
    have fresh' : ∀ a ∈ addresses ++ r.frames physfree, ∀ r' ∈ rest, r'.Usable → ¬r'.Holds a := by
      intro a listed r' inside usable
      rcases List.mem_append.mp listed with old | here
      · exact fresh a old r' (member inside) usable
      · have usableR := (Smap.mem_frames.mp here).1
        exact apart r' inside usableR usable a ((lowR usableR).holds_of_mem here).1
    obtain ⟨m, fl, finished, done⟩ := ih lists' (fun r' inside => low r' (member inside)) disjoint
      next fresh'
    refine ⟨n + m, fl, Scan.finish_steps ran finished, ?_⟩
    rw [List.flatMap_cons, ← List.append_assoc]
    exact done

/-! ## What is listed -/

/-- Nothing above the kernel is left out but the last whole frame. -/
theorem Smap.Low.listed_or_last (low : r.Low) (usable : r.Usable) {a : Nat}
    (whole : r.WholeFrame a) (above : wrap (physfree.toNat + 0x1000) < a)
    (out : a ∉ r.frames physfree) : ∀ b, r.WholeFrame b → b ≤ a := by
  intro b wholeB
  obtain ⟨⟨m, rfl⟩, lower, upper⟩ := whole
  obtain ⟨⟨n, rfl⟩, _, upperB⟩ := wholeB
  have below := low.below
  obtain ⟨c, start⟩ := low.aligned
  by_contra higher
  -- A frame with another whole one above it passes the test, since `<` only fails at the end.
  refine out (Smap.mem_frames.mpr ⟨usable, ⟨m - c, ?_, ?_⟩, above, ?_⟩)
  · unfold Smap.rounds
    omega
  · omega
  · rw [nextFrame_of_lt (by omega), low.stop]
    omega

theorem Smap.frames_ascending : (r.frames physfree).Pairwise (· < ·) := by
  unfold Smap.frames
  split
  · unfold Smap.listed
    refine List.Pairwise.filter _ (List.Pairwise.map _ ?_ List.pairwise_lt_range)
    intro k l before
    omega
  · exact List.Pairwise.nil

/-- Calls that touch `pagelist` once it has been built. -/
inductive FrameCall where
  | getFreeFrame | addRef (i : Nat)

/-- The frames that a sequence of calls gets, up to the end of the list. -/
def Freelist.serve : Freelist → List FrameCall → List Nat
  | _, [] => []
  | fl, .addRef i :: calls => (fl.addRef i).serve calls
  | fl, .getFreeFrame :: calls =>
    match fl.getFreeFrame with
    | none => []
    | some (address, fl) => address :: fl.serve calls

theorem Freelist.Lists.addRef {fl : Freelist} (lists : fl.Lists addresses) (i : Nat) :
    (fl.addRef i).Lists addresses := by
  have next : (fun j => ((fl.addRef i).pagelist j).next) = fun j => (fl.pagelist j).next := by
    unfold Freelist.addRef
    dsimp only
    rw [update_next, Function.update_eq_self]
  have address (j : Nat) : ((fl.addRef i).pagelist j).address = (fl.pagelist j).address := by
    unfold Freelist.addRef
    by_cases same : j = i
    · rw [same]
      simp
    · simp [same]
  refine ⟨?_, fun a member => ?_, lists.nodup⟩
  · rw [next]
    exact lists.linked
  · rw [address]
    exact lists.address a member

/-- `getFreeFrame` takes the first frame of the list. -/
theorem Freelist.Lists.getFreeFrame {fl : Freelist} {a : Nat} {later : List Nat}
    (lists : fl.Lists (a :: later)) :
    ∃ fl', fl.getFreeFrame = some (a, fl') ∧ fl'.Lists later := by
  obtain ⟨head, rest⟩ := lists.linked
  have entry := lists.address a List.mem_cons_self
  have indices := List.nodup_cons.mp lists.indices
  -- Marking the first entry as used leaves the other entries alone.
  have kept {b : Nat} (member : b ∈ later) : b / 4096 ≠ a / 4096 := by
    intro same
    refine indices.1 ?_
    change a / 4096 ∈ _
    rw [← same]
    exact List.mem_map_of_mem (f := (· / 4096)) member
  refine ⟨{ pagelist := Function.update fl.pagelist (a / 4096)
              { fl.pagelist (a / 4096) with refCount := 1 },
            head := (fl.pagelist (a / 4096)).next }, ?_, ?_⟩
  · unfold Freelist.getFreeFrame
    rw [head]
    simp only [entry.1]
  · refine ⟨?_, fun b member => ?_, (List.nodup_cons.mp lists.nodup).2⟩
    · refine rest.congr fun j member => ?_
      obtain ⟨b, inside, rfl⟩ := List.mem_map.mp member
      simp [kept inside]
    · simp only [Function.update_of_ne (kept member)]
      exact lists.address b (List.mem_cons_of_mem a member)

theorem Freelist.Lists.getFreeFrame_nil {fl : Freelist} (lists : fl.Lists []) :
    fl.getFreeFrame = none := by
  have head : fl.head = none := lists.linked
  unfold Freelist.getFreeFrame
  rw [head]

/-- Any calls get the frames of the list in its order. -/
theorem Freelist.Lists.serve_prefix {fl : Freelist} (lists : fl.Lists addresses)
    (calls : List FrameCall) : fl.serve calls <+: addresses := by
  induction calls generalizing fl addresses with
  | nil => exact List.nil_prefix
  | cons call calls ih =>
    cases call with
    | addRef i => exact ih (lists.addRef i)
    | getFreeFrame =>
      rw [Freelist.serve]
      cases addresses with
      | nil => rw [lists.getFreeFrame_nil]
      | cons a later =>
        obtain ⟨fl', got, lists'⟩ := lists.getFreeFrame
        rw [got]
        exact List.prefix_cons_inj a |>.mpr (ih lists')

/-- What the free list is for a memory map in low memory: the frames of the regions in order,
each where `pagelist` has it, none in the kernel, and none handed out twice. -/
theorem freelist_built (smap : List Smap) (physfree : Word)
    (low : ∀ r ∈ smap, r.Usable → r.Low) (disjoint : DisjointRegions smap)
    (fits : physfree.toNat + 0x1000 < 2 ^ 64) :
    ∃ n fl, (∀ m, n ≤ m → Scan.finish physfree m (.start smap) = some fl) ∧
      fl.Lists (smap.flatMap fun r => r.frames physfree) ∧
      (∀ r ∈ smap, (r.frames physfree).Pairwise (· < ·) ∧
        (∀ a ∈ r.frames physfree, r.Usable ∧ r.WholeFrame a ∧ physfree.toNat + 0x1000 < a ∧
          ∃ i < 75000, a = 4096 * i ∧ (fl.pagelist i).address = a) ∧
        ∀ a, r.Usable → r.WholeFrame a → physfree.toNat + 0x1000 < a → a ∉ r.frames physfree →
          ∀ b, r.WholeFrame b → b ≤ a) ∧
      ∀ calls, (fl.serve calls).Nodup ∧ ∀ a ∈ fl.serve calls, physfree.toNat < a := by
  have start : (Scan.start smap).Lists [] := ⟨Freelist.zeroed_lists, rfl⟩
  obtain ⟨n, fl, finished, lists⟩ : ∃ n fl, Scan.finish physfree n (.start smap) = some fl ∧
      fl.Lists ([] ++ smap.flatMap fun r => r.frames physfree) :=
    start.regions low disjoint ⟨_, rfl⟩ nofun
  rw [List.nil_append] at lists
  have limit : wrap (physfree.toNat + 0x1000) = physfree.toNat + 0x1000 := wrap_of_lt fits
  have facts {r : Smap} (member : r ∈ smap) {a : Nat} (here : a ∈ r.frames physfree) :
      r.Usable ∧ r.WholeFrame a ∧ physfree.toNat + 0x1000 < a ∧
        ∃ i < 75000, a = 4096 * i ∧ (fl.pagelist i).address = a := by
    have usable := (Smap.mem_frames.mp here).1
    obtain ⟨⟨lower, _⟩, upper, above⟩ := (low r member usable).holds_of_mem here
    have below := (low r member usable).below
    obtain ⟨address, i, shape⟩ := lists.address a (List.mem_flatMap.mpr ⟨r, member, here⟩)
    rw [limit] at above
    refine ⟨usable, ⟨⟨i, shape⟩, lower, Nat.le_of_lt upper⟩, above, i, by omega, shape, ?_⟩
    rwa [shape, Nat.mul_div_cancel_left i (by decide), ← shape] at address
  refine ⟨n, fl, fun m more => Scan.finish_mono more finished, lists, fun r member =>
    ⟨Smap.frames_ascending, fun a here => facts member here, fun a usable whole above out => ?_⟩,
    fun calls => ?_⟩
  · rw [← limit] at above
    exact (low r member usable).listed_or_last usable whole above out
  · have served := lists.serve_prefix calls
    refine ⟨lists.nodup.sublist served.sublist, fun a got => ?_⟩
    obtain ⟨r, member, here⟩ := List.mem_flatMap.mp (served.mem got)
    have above := (facts member here).2.2.1
    omega

/-- A small memory map: the kernel lies in the first region. -/
def smallMap : List Smap := [⟨0, 0x9000, 1⟩, ⟨0x10000, 0x3000, 2⟩, ⟨0x20000, 0x4800, 1⟩]

theorem freelist_built_of_smallMap :
    smallMap.flatMap (fun r => r.frames 0x3000) = [0x5000, 0x6000, 0x7000, 0x20000, 0x21000,
      0x22000, 0x23000] ∧
    ∃ n fl, (∀ m, n ≤ m → Scan.finish 0x3000 m (.start smallMap) = some fl) ∧
      fl.Lists (smallMap.flatMap fun r => r.frames 0x3000) := by
  have low : ∀ r ∈ smallMap, r.Usable → r.Low := by
    intro r member _
    simp only [smallMap, List.mem_cons, List.not_mem_nil, or_false] at member
    rcases member with rfl | rfl | rfl <;> exact ⟨by decide, by decide⟩
  have disjoint : DisjointRegions smallMap := by
    unfold DisjointRegions smallMap
    simp [Smap.Holds, Smap.Usable]
    omega
  obtain ⟨n, fl, finished, lists, _⟩ := freelist_built smallMap 0x3000 low disjoint (by decide)
  exact ⟨by decide +kernel, n, fl, finished, lists⟩

/-- With a kernel that ends in the last page of the address space the sum wraps around, and the
list starts below the end of the kernel. -/
theorem frame_below_kernel_end : ¬∀ smap (physfree : Word), (∀ r ∈ smap, r.Usable → r.Low) →
    DisjointRegions smap → ∀ n fl, Scan.finish physfree n (.start smap) = some fl →
      ∀ a fl', fl.getFreeFrame = some (a, fl') → physfree.toNat < a := by
  intro all
  have low : ∀ r ∈ [(⟨0x1000, 0x3000, 1⟩ : Smap)], r.Usable → r.Low := by
    intro r member _
    rw [List.mem_singleton] at member
    subst member
    exact ⟨by decide, by decide⟩
  have built : ((Scan.finish 0xFFFFFFFFFFFFF000 5 (.start [⟨0x1000, 0x3000, 1⟩])).bind fun fl =>
      fl.getFreeFrame.map Prod.fst) = some 0x1000 := by decide +kernel
  obtain ⟨fl, finished, got⟩ := Option.bind_eq_some_iff.mp built
  obtain ⟨⟨a, fl'⟩, frame, first⟩ := Option.map_eq_some_iff.mp got
  have above := all _ 0xFFFFFFFFFFFFF000 low (List.pairwise_singleton _ _) 5 fl finished a fl' frame
  change a = 0x1000 at first
  subst first
  exact absurd above (by decide)

end LateOS
