import LateOS.Boot.Frames

/-!
# Any memory map

Nothing in `initializeFreelist` looks at the size of `pagelist` or at the alignment of a region.
Whether it stays inside the array, and lists frames only, depends on each region up to the
first whose loop never ends.
-/
namespace LateOS

open Lib

/-- `pagelist` has 75000 entries, and a frame starts at a multiple of its size. -/
def FrameOk (a : Nat) : Prop := a / 4096 < 75000 ∧ 4096 ∣ a

instance (a : Nat) : Decidable (FrameOk a) := inferInstanceAs (Decidable (_ ∧ _))

namespace Smap

variable (physfree : Word) (r : Smap)

/-- The last frame that begins in the region. -/
@[irreducible] def lastBase : Nat := r.base.toNat + (r.stop - 1 - r.base.toNat) / 4096 * 4096

/-- The loop over the region never ends: the frame behind the last one is the first in memory. -/
def Endless : Prop := r.base.toNat < r.stop ∧ 2 ^ 64 ≤ r.lastBase + 4096

/-- The frame before the last one is the highest that may be listed; if it is, then the region
has to be aligned and that frame has to be low. In a region whose loop does not end also the
last frame may be listed, and must not. -/
structure Fits : Prop where
  ends : ¬r.Endless → r.base.toNat < r.stop → r.base.toNat < r.lastBase →
    wrap (physfree.toNat + 0x1000) < r.lastBase - 4096 → FrameOk (r.lastBase - 4096)
  endless : r.Endless → r.lastBase ≤ wrap (physfree.toNat + 0x1000)

end Smap

/-- Every region up to the first whose loop never ends fits. -/
def MapFits (physfree : Word) : List Smap → Prop
  | [] => True
  | r :: rest =>
    if r.Usable then r.Fits physfree ∧ (¬r.Endless → MapFits physfree rest)
    else MapFits physfree rest

namespace Scan

variable (physfree : Word)

/-- From `s` on only proper frames are entered. -/
def Safe (s : Scan) : Prop := ∀ n s1, steps physfree n s = some s1 →
  ∀ a s2, Step physfree s1 (some a) s2 → FrameOk a

variable {physfree} {s s' : Scan} {a : Option Nat} {r : Smap} {rest : List Smap}

theorem safe_done (done : s.step physfree = none) : s.Safe physfree := by
  intro n s1 ran b s2 entered
  cases n with
  | zero =>
    cases ran
    rw [Step, done] at entered
    cases entered
  | succ n =>
    rw [steps, done] at ran
    cases ran

theorem safe_step (step : s.step physfree = some (a, s')) :
    s.Safe physfree ↔ (∀ b, a = some b → FrameOk b) ∧ s'.Safe physfree := by
  constructor
  · intro safe
    refine ⟨fun b entered => ?_, fun n s1 ran => ?_⟩
    · subst entered
      exact safe 0 s rfl b s' step
    · refine safe (n + 1) s1 ?_
      rw [steps, step]
      exact ran
  · rintro ⟨now, later⟩ n s1 ran b s2 entered
    cases n with
    | zero =>
      cases ran
      rw [Step, step] at entered
      cases entered
      exact now b rfl
    | succ n =>
      rw [steps, step] at ran
      exact later n s1 ran b s2 entered

theorem step_leave (here : s.smap = r :: rest) (past : ¬(r.Usable ∧ s.base < r.stop)) :
    s.step physfree = some (none, s.enterRegion rest) := by
  unfold step
  rw [here]
  exact if_neg past

/-- A frame that is looked at is entered or not, and the next one follows. -/
theorem safe_round (physfree : Word) (here : s.smap = r :: rest) (usable : r.Usable) (more : s.base < r.stop) :
    ∃ s' : Scan, s'.smap = r :: rest ∧ s'.base = nextFrame s.base ∧
      (s.Safe physfree ↔ (Enters physfree r s.base → FrameOk s.base) ∧ s'.Safe physfree) := by
  by_cases enters : Enters physfree r s.base
  · have step : s.step physfree = some (some s.base, s.enter.advance) := by
      unfold Scan.step
      rw [here]
      exact (if_pos ⟨usable, more⟩).trans (if_pos enters)
    refine ⟨s.enter.advance, by simp [here], by simp, ?_⟩
    rw [safe_step step]
    refine and_congr_left fun _ => ?_
    constructor
    · exact fun ok _ => ok s.base rfl
    · intro ok b same
      cases same
      exact ok enters
  · have step : s.step physfree = some (none, s.advance) := by
      unfold Scan.step
      rw [here]
      exact (if_pos ⟨usable, more⟩).trans (if_neg enters)
    refine ⟨s.advance, by simp [here], by simp, ?_⟩
    rw [safe_step step]
    refine and_congr_left fun _ => ?_
    exact iff_of_true nofun fun yes => absurd yes enters

/-- Past the end of a region no frame of it is looked at. -/
theorem safe_past {P : Prop} (next : ∀ before : Scan, (before.enterRegion rest).Safe physfree ↔ P)
    (here : s.smap = r :: rest) (past : r.stop ≤ s.base) :
    s.Safe physfree ↔ (∀ j, s.base + 4096 * j < r.stop → Enters physfree r (s.base + 4096 * j) →
      FrameOk (s.base + 4096 * j)) ∧ P := by
  rw [safe_step (step_leave here fun both => absurd both.2 (by omega)), next]
  constructor
  · rintro ⟨_, holds⟩
    exact ⟨fun j inside => by omega, holds⟩
  · exact fun both => ⟨nofun, both.2⟩

/-- A loop that ends looks at each frame once, and then at the next region. -/
theorem safe_loop {P : Prop} (next : ∀ before : Scan, (before.enterRegion rest).Safe physfree ↔ P)
    (usable : r.Usable) {n : Nat} (here : s.smap = r :: rest) (near : r.stop ≤ s.base + 4096 * n)
    (ends : ∀ j, s.base + 4096 * j < r.stop → s.base + 4096 * j + 4096 < 2 ^ 64) :
    s.Safe physfree ↔ (∀ j, s.base + 4096 * j < r.stop → Enters physfree r (s.base + 4096 * j) →
      FrameOk (s.base + 4096 * j)) ∧ P := by
  induction n generalizing s with
  | zero => exact safe_past next here (by omega)
  | succ n ih =>
    by_cases more : s.base < r.stop
    · obtain ⟨s', here', base, safe⟩ := safe_round physfree here usable more
      have first := ends 0 more
      rw [nextFrame_of_lt (by omega)] at base
      -- Frame `j` of what is left is frame `j + 1` from here.
      have shift (j : Nat) : s'.base + 4096 * j = s.base + 4096 * (j + 1) := by omega
      rw [safe, ih here' (by omega) fun j inside => by
        rw [shift] at inside ⊢
        exact ends (j + 1) inside]
      constructor
      · rintro ⟨now, later, holds⟩
        refine ⟨fun j inside => ?_, holds⟩
        cases j with
        | zero => exact now
        | succ j =>
          rw [← shift] at inside ⊢
          exact later j inside
      · rintro ⟨all, holds⟩
        refine ⟨all 0 more, fun j inside => ?_, holds⟩
        rw [shift] at inside ⊢
        exact all (j + 1) inside
    · exact safe_past next here (by omega)

/-- An endless loop comes by its last frame. -/
theorem safe_reaches {n : Nat} (usable : r.Usable) (here : s.smap = r :: rest)
    (inside : s.base + 4096 * n < r.stop) (short : s.base + 4096 * n < 2 ^ 64)
    (safe : s.Safe physfree) : Enters physfree r (s.base + 4096 * n) → FrameOk (s.base + 4096 * n) := by
  induction n generalizing s with
  | zero =>
    obtain ⟨s', here', base, both⟩ := safe_round physfree here usable inside
    exact (both.mp safe).1
  | succ n ih =>
    obtain ⟨s', here', base, both⟩ := safe_round physfree here usable (by omega)
    have later : 4096 ≤ 4096 * (n + 1) := Nat.le_mul_of_pos_right 4096 n.succ_pos
    have fits : s.base + 4096 < 2 ^ 64 := Nat.lt_of_le_of_lt (Nat.add_le_add_left later _) short
    rw [nextFrame_of_lt fits] at base
    have shift : s.base + 4096 * (n + 1) = s'.base + 4096 * n := by omega
    rw [shift] at inside short ⊢
    exact ih here' inside short (both.mp safe).2

/-- The frame behind the last one wraps around to the start of memory. -/
theorem nextFrame_below {base top : Nat} (high : 2 ^ 64 ≤ top + 4096) (fits : top < 2 ^ 64)
    (same : base % 4096 = top % 4096) :
    nextFrame base ≤ top ∧ nextFrame base % 4096 = top % 4096 := by
  unfold nextFrame wrap
  omega

/-- An endless loop never gets above its last frame. -/
theorem endless_steps {top n : Nat} (usable : r.Usable) (last : top < r.stop)
    (high : 2 ^ 64 ≤ top + 4096) (fits : top < 2 ^ 64) (here : s.smap = r :: rest)
    (below : s.base ≤ top) (same : s.base % 4096 = top % 4096)
    (ran : steps physfree n s = some s') :
    s'.smap = r :: rest ∧ s'.base ≤ top := by
  induction n generalizing s with
  | zero =>
    cases ran
    exact ⟨here, below⟩
  | succ n ih =>
    obtain ⟨⟨a, next⟩, step, later⟩ := Option.bind_eq_some_iff.mp ran
    obtain ⟨below', same'⟩ := nextFrame_below high fits same
    have more : r.Usable ∧ s.base < r.stop := ⟨usable, by omega⟩
    have shape : next.smap = r :: rest ∧ next.base = nextFrame s.base := by
      unfold Scan.step at step
      rw [here] at step
      dsimp only at step
      rw [if_pos more] at step
      split at step
      · cases step
        exact ⟨by simp [here], by simp⟩
      · cases step
        exact ⟨by simp [here], by simp⟩
    exact ih shape.1 (shape.2 ▸ below') (shape.2 ▸ same') later

theorem safe_endless {top : Nat} (usable : r.Usable) (last : top < r.stop)
    (high : 2 ^ 64 ≤ top + 4096) (fits : top < 2 ^ 64)
    (low : top ≤ wrap (physfree.toNat + 0x1000)) (here : s.smap = r :: rest)
    (below : s.base ≤ top) (same : s.base % 4096 = top % 4096) : s.Safe physfree := by
  intro n s1 ran a s2 entered
  obtain ⟨here', below'⟩ := endless_steps usable last high fits here below same ran
  -- Nothing up to the last frame is above the kernel.
  have skips : ¬Enters physfree r s1.base := fun enters => by
    have above := enters.1
    omega
  have more : r.Usable ∧ s1.base < r.stop := ⟨usable, by omega⟩
  unfold Step Scan.step at entered
  rw [here'] at entered
  dsimp only at entered
  rw [if_pos more, if_neg skips] at entered
  cases entered

/-! ## One region -/

theorem stop_lt (r : Smap) : r.stop < 2 ^ 64 := by
  unfold Smap.stop wrap
  exact Nat.mod_lt _ (by decide)

/-- In a region that ends, the frame before the last one decides. -/
theorem fits_iff_frames (inside : r.base.toNat < r.stop) (ends : ¬r.Endless) :
    r.Fits physfree ↔ ∀ j, r.base.toNat + 4096 * j < r.stop →
      Enters physfree r (r.base.toNat + 4096 * j) → FrameOk (r.base.toNat + 4096 * j) := by
  have stop := stop_lt r
  -- The loop ends, so no sum in it wraps around.
  have room : r.lastBase + 4096 < 2 ^ 64 := Nat.lt_of_not_le fun high => ends ⟨inside, high⟩
  constructor
  · intro fits j before enters
    have low := fits.ends ends inside
    unfold Smap.lastBase FrameOk at *
    obtain ⟨above, small⟩ := enters
    rw [nextFrame_of_lt (by omega)] at small
    obtain ⟨low, aligned⟩ := low (by omega) (by omega)
    exact ⟨by omega, by omega⟩
  · intro all
    refine ⟨fun _ _ more above => ?_, fun endless => absurd endless ends⟩
    unfold Smap.lastBase at *
    -- The frame before the last one is frame `m`; only it has to be tested.
    obtain ⟨m, frames⟩ : ∃ m, (r.stop - 1 - r.base.toNat) / 4096 = m + 1 :=
      ⟨(r.stop - 1 - r.base.toNat) / 4096 - 1, by omega⟩
    have same : r.base.toNat + (r.stop - 1 - r.base.toNat) / 4096 * 4096 - 4096 =
        r.base.toNat + 4096 * m := by omega
    rw [same] at above ⊢
    refine all m (by omega) ⟨above, ?_⟩
    rw [nextFrame_of_lt (by omega)]
    omega

theorem fits_iff_endless (endless : r.Endless) :
    r.Fits physfree ↔ r.lastBase ≤ wrap (physfree.toNat + 0x1000) :=
  ⟨fun fits => fits.endless endless, fun low => ⟨fun ends => absurd endless ends, fun _ => low⟩⟩

/-- A region whose loop is not even entered. -/
theorem fits_of_empty (out : ¬r.base.toNat < r.stop) : r.Fits physfree ∧ ¬r.Endless :=
  ⟨⟨fun _ inside => absurd inside out, fun endless => absurd endless.1 out⟩,
    fun endless => out endless.1⟩

theorem safe_endless_iff (usable : r.Usable) (endless : r.Endless) (here : s.smap = r :: rest)
    (first : s.base = r.base.toNat) :
    s.Safe physfree ↔ r.lastBase ≤ wrap (physfree.toNat + 0x1000) := by
  have stop := stop_lt r
  obtain ⟨inside, high⟩ := endless
  have top : r.lastBase = s.base + 4096 * ((r.stop - 1 - r.base.toNat) / 4096) := by
    unfold Smap.lastBase
    omega
  have last : r.lastBase < r.stop := by
    unfold Smap.lastBase
    omega
  constructor
  · intro safe
    by_contra above
    -- If the last frame were above the kernel the loop would come to it, and its index is huge.
    have reaches := safe_reaches (n := (r.stop - 1 - r.base.toNat) / 4096) usable here
      (by omega) (by omega) safe
    rw [← top] at reaches
    obtain ⟨low, _⟩ := reaches ⟨by omega, by unfold nextFrame wrap; omega⟩
    omega
  · intro low
    exact safe_endless usable last high (by omega) low here (by omega) (by omega)

theorem safe_region {P : Prop} (next : ∀ before : Scan, (before.enterRegion rest).Safe physfree ↔ P)
    (usable : r.Usable) (here : s.smap = r :: rest) (first : s.base = r.base.toNat) :
    s.Safe physfree ↔ r.Fits physfree ∧ (¬r.Endless → P) := by
  have stop := stop_lt r
  by_cases endless : r.Endless
  · rw [safe_endless_iff usable endless here first, fits_iff_endless endless]
    exact ⟨fun low => ⟨low, fun ends => absurd endless ends⟩, fun both => both.1⟩
  · have holds : (¬r.Endless → P) ↔ P := ⟨fun h => h endless, fun h _ => h⟩
    rw [holds]
    by_cases inside : r.base.toNat < r.stop
    · have room : r.lastBase + 4096 < 2 ^ 64 := Nat.lt_of_not_le fun high => endless ⟨inside, high⟩
      rw [fits_iff_frames inside endless,
        safe_loop (n := r.stop) next usable here (by omega) fun j before => ?_, first]
      unfold Smap.lastBase at room
      omega
    · have past : ¬(r.Usable ∧ s.base < r.stop) := fun both => inside (first ▸ both.2)
      rw [safe_step (step_leave here past), next]
      exact ⟨fun both => ⟨(fits_of_empty inside).1, both.2⟩, fun both => ⟨nofun, both.2⟩⟩

/-! ## The whole map -/

theorem safe_regions (smap : List Smap) (before : Scan) :
    (before.enterRegion smap).Safe physfree ↔ MapFits physfree smap := by
  induction smap generalizing before with
  | nil => exact iff_of_true (safe_done rfl) trivial
  | cons r rest ih =>
    rw [MapFits]
    split
    next usable => exact safe_region ih usable rfl rfl
    next unused =>
      have past : ¬(r.Usable ∧ (before.enterRegion (r :: rest)).base < r.stop) :=
        fun both => unused both.1
      rw [safe_step (step_leave rfl past), ih]
      exact ⟨fun both => both.2, fun holds => ⟨nofun, holds⟩⟩

/-- Whatever the memory map, `initializeFreelist` only uses entries of `pagelist` and only lists
multiples of 4096 exactly when every region that is reached fits. -/
theorem any_map_iff (smap : List Smap) (physfree : Word) :
    (∀ n s, steps physfree n (start smap) = some s →
      ∀ a s', Step physfree s (some a) s' → a / 4096 < 75000 ∧ 4096 ∣ a) ↔
    MapFits physfree smap := safe_regions smap _

/-- The usable memory of a machine with 512 MiB. -/
def halfGigabyte : Smap := ⟨0x100000, 0x1FF00000, 1⟩

theorem halfGigabyte_usable : halfGigabyte.Usable := by decide

theorem halfGigabyte_unfit : ¬halfGigabyte.Fits 0x300000 := by
  intro fits
  have stop : halfGigabyte.stop = 0x20000000 := by decide +kernel
  have last : halfGigabyte.lastBase = 0x1FFFF000 := by decide +kernel
  have limit : wrap ((0x300000 : Word).toNat + 0x1000) = 0x301000 := by decide +kernel
  have ends : ¬halfGigabyte.Endless := fun endless => by
    have high := endless.2
    omega
  have low := fits.ends ends
  rw [stop, last, limit] at low
  exact absurd (low (by decide) (by decide) (by decide)) (by decide)

/-- Its frames go past the end of `pagelist`. -/
theorem pagelist_overrun : ¬∀ smap (physfree : Word), ∀ n s,
    steps physfree n (start smap) = some s →
      ∀ a s', Step physfree s (some a) s' → a / 4096 < 75000 ∧ 4096 ∣ a := by
  intro all
  have fits := (safe_regions [halfGigabyte] _).mp (all _ 0x300000)
  rw [MapFits, if_pos halfGigabyte_usable] at fits
  exact halfGigabyte_unfit fits.1

end Scan

end LateOS
