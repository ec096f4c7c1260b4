import Mathlib.Data.BitVec

/-!
# Page-table entries

The 64-bit words of physical memory, as entries of page tables and as eight bytes of data,
and the parts of a virtual address.
-/
namespace LateOS

/-- A word of memory, and the physical address of a frame. -/
abbrev Word := BitVec 64

abbrev Byte := BitVec 8

def kernbase : Nat := 0xffffffff80000000

def validatebits : Word := 0xFFFFFFFFFFFFF000

/-- The frame an entry leads to. -/
def frame (e : Word) : Word := e &&& validatebits

/-- The present bit. -/
def present (e : Word) : Bool := e &&& 1 != 0

/-- The entry for frame `f`: 3 is present and writable, 7 is open to user code too. -/
def entry (f flags : Word) : Word := (f &&& validatebits) ||| flags

/-- What `copytables` makes of a leaf entry: not writable, and marked in bit 9. -/
def share (e : Word) : Word := (e &&& 0xFFFFFFFFFFFFFFFD) ||| 0x200

/-- Marked as shared and not writable. -/
def Shared (e : Word) : Prop := e &&& 2 = 0 ∧ e &&& 512 ≠ 0

instance (e : Word) : Decidable (Shared e) := inferInstanceAs (Decidable (_ ∧ _))

/-- An entry with one of the masks below keeps the mask's own bits. -/
theorem entry_and (f flags mask : Word) (low : validatebits &&& mask = 0#64) :
    entry f flags &&& mask = flags &&& mask := by
  rw [entry, BitVec.and_or_distrib_right, BitVec.and_assoc, low, BitVec.and_zero,
    BitVec.zero_or]

theorem frame_entry (f flags : Word) (low : flags &&& validatebits = 0#64) :
    frame (entry f flags) = frame f := by
  rw [frame, entry, BitVec.and_or_distrib_right, BitVec.and_assoc, BitVec.and_self, low,
    BitVec.or_zero]
  rfl

@[simp] theorem frame_frame (e : Word) : frame (frame e) = frame e := by
  rw [frame, frame, BitVec.and_assoc, BitVec.and_self]

@[simp] theorem frame_entry_seven (f : Word) : frame (entry f 7#64) = frame f :=
  frame_entry f 7 (by decide)

@[simp] theorem frame_entry_three (f : Word) : frame (entry f 3#64) = frame f :=
  frame_entry f 3 (by decide)

theorem entry_seven_and (f mask : Word) (low : validatebits &&& mask = 0#64) :
    entry f 7 &&& mask = 7 &&& mask := entry_and f 7 mask low

@[simp] theorem present_entry_seven (f : Word) : present (entry f 7#64) = true := by
  rw [present, entry_and f 7#64 1 (by decide)]
  decide

@[simp] theorem present_entry_three (f : Word) : present (entry f 3#64) = true := by
  rw [present, entry_and f 3#64 1 (by decide)]
  decide

@[simp] theorem present_zero : present 0#64 = false := by decide

theorem share_and (e mask : Word) : share e &&& mask =
    (e &&& (0xFFFFFFFFFFFFFFFD &&& mask)) ||| (0x200 &&& mask) := by
  rw [share, BitVec.and_or_distrib_right, BitVec.and_assoc]

@[simp] theorem frame_share (e : Word) : frame (share e) = frame e := by
  rw [frame, share_and, show (0x200 : Word) &&& validatebits = 0#64 by decide, BitVec.or_zero,
    show (0xFFFFFFFFFFFFFFFD : Word) &&& validatebits = validatebits by decide]
  rfl

@[simp] theorem present_share (e : Word) : present (share e) = present e := by
  rw [present, share_and, show (0x200 : Word) &&& 1 = 0#64 by decide, BitVec.or_zero,
    show (0xFFFFFFFFFFFFFFFD : Word) &&& 1 = 1 by decide]
  rfl

theorem shared_share (e : Word) : Shared (share e) := by
  constructor
  · rw [share_and, show (0x200 : Word) &&& 2 = 0#64 by decide, BitVec.or_zero,
      show (0xFFFFFFFFFFFFFFFD : Word) &&& 2 = 0#64 by decide, BitVec.and_zero]
    rfl
  · intro clear
    have bit := congrArg (fun w => w.getLsbD 9) clear
    rw [share_and] at bit
    simp at bit

theorem share_user (e : Word) : share e &&& 5 = e &&& 5 := by
  rw [share_and, show (0x200 : Word) &&& 5 = 0#64 by decide, BitVec.or_zero,
    show (0xFFFFFFFFFFFFFFFD : Word) &&& 5 = 5 by decide]

/-- A user entry that is writable permits everything. -/
theorem seven_of_writable {e : Word} (user : e &&& 5 = 5) (writable : e &&& 2 ≠ 0) :
    e &&& 7 = 7 := by
  -- The permission bits are present and user, and writable, apart.
  have split : e &&& 7 = (e &&& 5) ||| (e &&& 2) := by
    rw [← BitVec.and_or_distrib_left]
    rfl
  have bit : e &&& 2 = 2 := by
    have power : (2 : Word) = BitVec.twoPow 64 1 := by decide
    rw [power, BitVec.and_twoPow] at writable ⊢
    split at writable
    next set => rw [if_pos set]
    next => exact absurd rfl writable
  rw [split, user, bit]
  rfl

private theorem validatebits_getLsbD (i : Nat) :
    validatebits.getLsbD i = decide (12 ≤ i ∧ i < 64) := by
  by_cases low : i < 64
  · have all : ∀ j < 64, validatebits.getLsbD j = decide (12 ≤ j ∧ j < 64) := by decide
    exact all i low
  · rw [BitVec.getLsbD_of_ge _ _ (Nat.le_of_not_lt low), decide_eq_false fun both => low both.2]

/-- A frame's own address is page-aligned. -/
theorem frame_aligned {f : Word} (aligned : 4096 ∣ f.toNat) : frame f = f := by
  obtain ⟨n, shape⟩ := aligned
  apply BitVec.eq_of_getLsbD_eq
  intro i bound
  rw [frame, BitVec.getLsbD_and, validatebits_getLsbD]
  -- The offset bits of an aligned address are clear already; the mask keeps the others.
  by_cases high : 12 ≤ i
  · rw [decide_eq_true ⟨high, bound⟩, Bool.and_true]
  · have clear : f.getLsbD i = false := by
      have power : 4096 = 2 ^ 12 := by decide
      rw [BitVec.getLsbD, shape, power, Nat.testBit_two_pow_mul, decide_eq_false high]
      rfl
    rw [clear, Bool.false_and]

/-! ## Addresses -/

def pml4Index (v : Nat) : Nat := (v >>> (12 + 9 + 9 + 9)) &&& 511

def pdptIndex (v : Nat) : Nat := (v >>> (12 + 9 + 9)) &&& 511

def pdIndex (v : Nat) : Nat := (v >>> (12 + 9)) &&& 511

def ptIndex (v : Nat) : Nat := (v >>> 12) &&& 511

theorem index_eq (v n : Nat) : (v >>> n) &&& 511 = v / 2 ^ n % 512 := by
  rw [Nat.shiftRight_eq_div_pow, show 511 = 2 ^ 9 - 1 from rfl, Nat.and_two_pow_sub_one_eq_mod]

theorem index_lt (v n : Nat) : (v >>> n) &&& 511 < 512 := by
  rw [index_eq]
  exact Nat.mod_lt _ (by decide)

/-! ## Bytes of a word -/

def getByte (w : Word) (k : Nat) : Byte := w.extractLsb' (8 * k) 8

def setByte (w : Word) (k : Nat) (b : Byte) : Word :=
  (w &&& ~~~((255 : Word) <<< (8 * k))) ||| (b.zeroExtend 64 <<< (8 * k))

private theorem low_mask (i : Nat) : (255#64).getLsbD i = decide (i < 8) := by
  by_cases low : i < 8
  · have all : ∀ j < 8, (255#64).getLsbD j = decide (j < 8) := by decide
    exact all i low
  · rw [BitVec.getLsbD_ofNat, Nat.testBit_lt_two_pow]
    · simp [low]
    · calc 255 < 2 ^ 8 := by decide
        _ ≤ 2 ^ i := Nat.pow_le_pow_right (by decide) (Nat.le_of_not_lt low)

theorem getByte_setByte (w : Word) (k : Nat) (b : Byte) (inside : k < 8) :
    getByte (setByte w k b) k = b := by
  ext i bound
  have bit : 8 * k + i < 64 := by omega
  have same : b.getLsbD i = b[i] := BitVec.getLsbD_eq_getElem bound
  have short : i < 64 := by omega
  -- The mask clears the old byte, so only the new one is left.
  have mask : (255#64)[i] = true := by
    rw [← BitVec.getLsbD_eq_getElem, low_mask, decide_eq_true bound]
  have above : ¬8 * k + i < 8 * k := by omega
  simp only [getByte, setByte, BitVec.ofNat_eq_ofNat, BitVec.truncate_eq_setWidth,
    BitVec.getElem_extractLsb', bit, BitVec.getLsbD_eq_getElem, BitVec.getElem_or,
    BitVec.getElem_and, BitVec.getElem_not, BitVec.getElem_shiftLeft, decide_eq_false above,
    Bool.not_false, Nat.add_sub_cancel_left, mask, Bool.and_self, Bool.not_true, Bool.and_false,
    BitVec.getElem_setWidth, same, Bool.true_and, Bool.false_or]

theorem getByte_setByte_of_ne (w : Word) {k j : Nat} (b : Byte) (apart : j ≠ k) :
    getByte (setByte w k b) j = getByte w j := by
  ext i bound
  -- A bit outside byte `k` lies below the shifted mask or above it.
  by_cases below : 8 * j + i < 8 * k
  · simp [getByte, setByte, below]
    exact fun set => BitVec.lt_of_getLsbD set
  · have high : ¬8 * j + i - 8 * k < 8 := by omega
    have clear : b.getLsbD (8 * j + i - 8 * k) = false :=
      BitVec.getLsbD_of_ge b _ (Nat.le_of_not_lt high)
    have mask : (255#64).getLsbD (8 * j + i - 8 * k) = false := by
      rw [low_mask, decide_eq_false high]
    simp [getByte, setByte, mask, clear]
    exact fun set => BitVec.lt_of_getLsbD set

end LateOS
