import LateOS.Lib.Moves
import LateOS.Memory.Contents

/-!
# The copy of the kernel

`memcpy` of `sys/process.c`, whose two ranges may overlap. A range does not run past the last
address, so that addresses are numbers, and the count is not negative.
-/
namespace LateOS

open Lib

/-- `while(n--) *retDest++ = *retSrc++;` -/
def copyForward : Nat → (Nat → Byte) → Nat → Nat → Nat → Byte
  | 0, memory, _, _ => memory
  | n + 1, memory, retDest, retSrc =>
    copyForward n (Function.update memory retDest (memory retSrc)) (retDest + 1) (retSrc + 1)

/-- `for(…; n--;) *(--retDest) = *(--retSrc);` -/
def copyBackward : Nat → (Nat → Byte) → Nat → Nat → Nat → Byte
  | 0, memory, _, _ => memory
  | n + 1, memory, retDest, retSrc =>
    -- Both pointers start behind their ranges, and go down before each byte.
    copyBackward n (Function.update memory (retDest - 1) (memory (retSrc - 1))) (retDest - 1)
      (retSrc - 1)

/-- The pointer that is returned, and the memory behind the call. -/
def memcpy (memory : Nat → Byte) (dest src n : Nat) : Nat × (Nat → Byte) :=
  (dest,
    if src < dest then copyBackward n memory (dest + n) (src + n)
    else copyForward n memory dest src)

/-! ## The order of the moves -/

variable {memory : Nat → Byte} {dest src n : Nat}

/-- The moves from the first byte to the last. -/
def upward (dest src n : Nat) : List (Nat × Nat) :=
  (List.range n).map fun i => (dest + i, src + i)

theorem upward_succ (dest src n : Nat) :
    upward dest src (n + 1) = (dest, src) :: upward (dest + 1) (src + 1) n := by
  unfold upward
  rw [List.range_succ_eq_map, List.map_cons, List.map_map]
  refine congrArg _ (List.map_congr_left fun i _ => ?_)
  rw [Function.comp_apply, Nat.succ_eq_add_one, Nat.add_assoc, Nat.add_assoc, Nat.add_comm 1 i]

theorem upward_concat (dest src n : Nat) :
    upward dest src (n + 1) = upward dest src n ++ [(dest + n, src + n)] := by
  unfold upward
  rw [List.range_succ, List.map_append, List.map_singleton]

theorem copyForward_eq (memory : Nat → Byte) (dest src n : Nat) :
    copyForward n memory dest src = carryOut (upward dest src n) memory := by
  induction n generalizing memory dest src with
  | zero => rfl
  | succ n ih => rw [copyForward, ih, upward_succ, carryOut]

theorem copyBackward_eq (memory : Nat → Byte) (dest src n : Nat) :
    copyBackward n memory (dest + n) (src + n) = carryOut (upward dest src n).reverse memory := by
  induction n generalizing memory with
  | zero => rfl
  | succ n ih =>
    rw [upward_concat, List.reverse_append, List.reverse_singleton, List.singleton_append, carryOut,
      ← ih]
    rfl

theorem mem_upward {move : Nat × Nat} :
    move ∈ upward dest src n ↔ ∃ i < n, move = (dest + i, src + i) := by
  unfold upward
  rw [List.mem_map]
  constructor
  · rintro ⟨i, below, rfl⟩
    exact ⟨i, List.mem_range.mp below, rfl⟩
  · rintro ⟨i, below, rfl⟩
    exact ⟨i, List.mem_range.mpr below, rfl⟩

theorem upward_writes (dest src n : Nat) : ((upward dest src n).map Prod.fst).Nodup := by
  unfold upward
  rw [List.map_map]
  exact List.Nodup.map (fun i j same => Nat.add_left_cancel same) List.nodup_range

/-- Upwards, a byte is read before its place is reached if the destination is not above. -/
theorem upward_readsFirst (below : dest ≤ src) : ReadsFirst (upward dest src n) := by
  refine ⟨?_, upward_writes dest src n⟩
  unfold upward
  rw [List.pairwise_map]
  refine List.pairwise_lt_range.imp fun {i j} earlier => ?_
  dsimp only
  omega

/-- Downwards, it is if the destination is above. -/
theorem downward_readsFirst (above : src < dest) : ReadsFirst (upward dest src n).reverse := by
  refine ⟨?_, ?_⟩
  · unfold upward
    rw [List.pairwise_reverse, List.pairwise_map]
    refine List.pairwise_lt_range.imp fun {i j} earlier => ?_
    dsimp only
    omega
  · rw [List.map_reverse, List.nodup_reverse]
    exact upward_writes dest src n

/-- One of the two orders is taken, and it is right for the two ranges. -/
theorem memcpy_order (memory : Nat → Byte) (dest src n : Nat) :
    ∃ moves, (memcpy memory dest src n).2 = carryOut moves memory ∧ ReadsFirst moves ∧
      ∀ move, move ∈ moves ↔ move ∈ upward dest src n := by
  unfold memcpy
  dsimp only
  split
  next above =>
    exact ⟨_, copyBackward_eq memory dest src n, downward_readsFirst above,
      fun move => List.mem_reverse⟩
  next above =>
    exact ⟨_, copyForward_eq memory dest src n, upward_readsFirst (Nat.le_of_not_lt above),
      fun move => Iff.rfl⟩

theorem memcpy_here {i : Nat} (below : i < n) :
    (memcpy memory dest src n).2 (dest + i) = memory (src + i) := by
  obtain ⟨moves, ran, first, same⟩ := memcpy_order memory dest src n
  rw [ran]
  exact carryOut_of_mem first ((same _).mpr (mem_upward.mpr ⟨i, below, rfl⟩))

theorem memcpy_rest {a : Nat} (outside : a < dest ∨ dest + n ≤ a) :
    (memcpy memory dest src n).2 a = memory a := by
  obtain ⟨moves, ran, _, same⟩ := memcpy_order memory dest src n
  rw [ran]
  refine carryOut_other fun member => ?_
  obtain ⟨move, inside, rfl⟩ := List.mem_map.mp member
  obtain ⟨i, below, rfl⟩ := mem_upward.mp ((same move).mp inside)
  dsimp only at outside
  omega

/-- The destination holds what the source held, and all else is as it was. -/
theorem memcpy_copies (memory : Nat → Byte) (dest src n : Nat) :
    (memcpy memory dest src n).1 = dest ∧
      (∀ i < n, (memcpy memory dest src n).2 (dest + i) = memory (src + i)) ∧
      ∀ a, a < dest ∨ dest + n ≤ a → (memcpy memory dest src n).2 a = memory a :=
  ⟨rfl, fun _ below => memcpy_here below, fun _ outside => memcpy_rest outside⟩

/-- A range that is moved up by one byte goes from its end, and one that is moved down does not. -/
example : (List.range 4).map (memcpy (fun a => BitVec.ofNat 8 a) 1 0 3).2 = [0, 0, 1, 2] ∧
    (List.range 4).map (memcpy (fun a => BitVec.ofNat 8 a) 0 1 3).2 = [1, 2, 3, 3] := by decide

/-! ## The copies of the loaders -/

variable {m m' : Machine} {use : Word → Use} {r : Word} {given : Nat → Option Byte} {v : Nat}

/-- The loaders copy through the tables of a task. What the task finds afterwards is what `memcpy`
leaves in a memory that has the bytes of the file from `src` on. -/
theorem poured_copied (poured : m.Poured use r dest n given m')
    (file : ∀ k < n, given k = some (memory (src + k))) (user : UserAddress v)
    (canonical : ∀ k < n, Machine.SameByte (dest + k) v → v = dest + k)
    (before : m.byteAt r v = some (memory v)) :
    m'.byteAt r v = some ((memcpy memory dest src n).2 v) := by
  by_cases inside : ∃ k < n, v = dest + k
  · obtain ⟨k, below, rfl⟩ := inside
    rw [poured.here k below, file k below, memcpy_here below]
  -- No byte of the range has another address, so that no store changes this one.
  · have apart : ∀ k < n, ¬Machine.SameByte (dest + k) v := fun k below same =>
      inside ⟨k, below, canonical k below same⟩
    have outside : v < dest ∨ dest + n ≤ v := by
      by_contra between
      exact inside ⟨v - dest, by omega, by omega⟩
    rw [poured.rest v user apart, before, memcpy_rest outside]

end LateOS
