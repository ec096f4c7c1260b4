import LateOS.Files.Archive

/-!
# The scan of arbitrary bytes

`init_tarfs` trusts the size fields that it meets. A step goes at least one block on, unless the
field says 2^32 - 512, where the product of `moveTarfsHeader` wraps around to 0, or the pointer
itself wraps around.
-/
namespace LateOS

variable {memory : Nat → UInt8} {start stop : Nat} {n : Nat}

/-- How far `moveTarfsHeader` goes for a size. -/
def advance (size : Nat) : Nat :=
  (size / 512 + 1) * 512 % 2 ^ 32 + if size % 512 ≠ 0 then 512 else 0

theorem TarHeader.move_eq (h : TarHeader) (tarfsAddr : Nat) :
    h.moveTarfsHeader tarfsAddr = tarfsAddr + advance h.getsize := by
  unfold moveTarfsHeader advance
  dsimp only
  split <;> omega

theorem advance_zero {size : Nat} (word : size < 2 ^ 32) : advance size = 0 ↔ size = 2 ^ 32 - 512 := by
  unfold advance
  split <;> omega

theorem advance_block {size : Nat} (moves : advance size ≠ 0) : 512 ≤ advance size := by
  unfold advance at moves ⊢
  by_cases whole : size % 512 = 0
  · simp only [whole, ne_eq, not_true, if_false] at moves ⊢
    omega
  · simp [whole]

/-- The addresses at which the loop of `init_tarfs` looks; its pointer has 64 bits. -/
def scan (memory : Nat → UInt8) (start : Nat) : Nat → Nat
  | 0 => start
  | n + 1 =>
    TarHeader.moveTarfsHeader ⟨memory, scan memory start n⟩ (scan memory start n) % 2 ^ 64

/-- The loop comes to its step `n`. -/
def Visits (memory : Nat → UInt8) (start stop n : Nat) : Prop :=
  ∀ m ≤ n, scan memory start m < stop

/-- Each step goes at least one block on, and the loop ends after as many steps as there are
blocks, and one more at most. -/
structure Advances (memory : Nat → UInt8) (start stop : Nat) : Prop where
  block : ∀ n, Visits memory start stop n → scan memory start n + 512 ≤ scan memory start (n + 1)
  ends : ∃ n ≤ (stop - start) / 512 + 1, stop ≤ scan memory start n

theorem getsize_lt (h : TarHeader) : h.getsize < 2 ^ 32 := by
  unfold TarHeader.getsize
  omega

theorem scan_zero (memory : Nat → UInt8) (start : Nat) : scan memory start 0 = start := rfl

theorem scan_succ (memory : Nat → UInt8) (start n : Nat) : scan memory start (n + 1) =
    (scan memory start n + advance (TarHeader.getsize ⟨memory, scan memory start n⟩)) % 2 ^ 64 := by
  rw [scan, TarHeader.move_eq]

/-- The size field at `addr` neither wraps the product around to 0 nor the pointer. -/
def Passable (memory : Nat → UInt8) (addr : Nat) : Prop :=
  TarHeader.getsize ⟨memory, addr⟩ ≠ 2 ^ 32 - 512 ∧
    addr + advance (TarHeader.getsize ⟨memory, addr⟩) < 2 ^ 64

/-- One step goes a block on exactly when the size field lets it. -/
theorem scan_block_iff (memory : Nat → UInt8) (start n : Nat) :
    scan memory start n + 512 ≤ scan memory start (n + 1) ↔
      Passable memory (scan memory start n) := by
  have word := getsize_lt ⟨memory, scan memory start n⟩
  have short : advance (TarHeader.getsize ⟨memory, scan memory start n⟩) < 2 ^ 33 := by
    unfold advance
    split <;> omega
  rw [scan_succ, Passable, ne_eq, ← advance_zero word]
  constructor
  · intro block
    refine ⟨fun stays => ?_, ?_⟩
    · rw [stays] at block
      have := Nat.mod_le (scan memory start n) (2 ^ 64)
      omega
    · by_contra wraps
      omega
  · rintro ⟨moves, fits⟩
    have := advance_block moves
    rw [Nat.mod_eq_of_lt fits]
    omega

/-- After `n` steps of at least a block each. -/
theorem scan_far (block : ∀ n, Visits memory start stop n →
      scan memory start n + 512 ≤ scan memory start (n + 1)) (n : Nat) :
    (∃ m ≤ n, stop ≤ scan memory start m) ∨ start + 512 * n ≤ scan memory start n := by
  induction n with
  | zero => exact Or.inr (Nat.le_of_eq (scan_zero memory start).symm)
  | succ n ih =>
    by_cases ended : ∃ m ≤ n, stop ≤ scan memory start m
    · obtain ⟨m, early, past⟩ := ended
      exact Or.inl ⟨m, by omega, past⟩
    -- The loop has not ended, and so it comes to step `n`.
    · have visits : Visits memory start stop n := by
        intro m early
        by_contra past
        exact ended ⟨m, early, by omega⟩
      have far := ih.resolve_left ended
      have next := block n visits
      rw [Nat.mul_succ, ← Nat.add_assoc]
      exact Or.inr ((Nat.add_le_add_right far 512).trans next)

/-- For any bytes, every step of the scan goes at least one block on, and the scan ends in time,
exactly when every size field that it meets lets it pass. -/
theorem scan_advances_iff (memory : Nat → UInt8) (start stop : Nat) :
    Advances memory start stop ↔
      ∀ n, Visits memory start stop n → Passable memory (scan memory start n) := by
  constructor
  · intro advances n visits
    exact (scan_block_iff memory start n).mp (advances.block n visits)
  · intro passable
    have block (n : Nat) (visits : Visits memory start stop n) :
        scan memory start n + 512 ≤ scan memory start (n + 1) :=
      (scan_block_iff memory start n).mpr (passable n visits)
    refine ⟨block, ?_⟩
    -- So many blocks behind `start` lies the end.
    rcases scan_far block ((stop - start) / 512 + 1) with ended | far
    · exact ended
    · exact ⟨_, Nat.le_refl _, by omega⟩

/-- A block whose size field is 37777777000. -/
def standstill : Nat → UInt8 := fun k =>
  if k = 124 then 51 else if 125 ≤ k ∧ k < 132 then 55 else if 132 ≤ k ∧ k < 135 then 48 else 0

theorem scan_stands_still : ¬∀ memory start stop, start ≤ stop → Advances memory start stop := by
  intro all
  have first : TarHeader.getsize ⟨standstill, 0⟩ = 2 ^ 32 - 512 := by decide +kernel
  have block := (all standstill 0 512 (by decide)).block 0 fun m none => by
    rw [Nat.le_zero.mp none, scan_zero]
    decide
  rw [scan_succ, scan_zero, first] at block
  revert block
  decide

end LateOS
