import LateOS.Files.Reading
import LateOS.Process.Lines

/-!
# Counts of reads

How many bytes the read system call stores in the buffer of its caller, from the terminal and
from a file.
-/
namespace LateOS

/-- What one round of the loop of `intRead` stores, from the start of the caller's buffer on. -/
def Terminal.stored (t : Terminal) : List UInt8 :=
  if 0 < t.lineCount then (t.readLine (4096 - t.offset).toNat t.offset).1 else []

/-- The characters in front of the next newline, or of the end of `inpStr`. -/
def Terminal.pending (t : Terminal) : List UInt8 :=
  (cells t.inpStr t.offset (4096 - t.offset).toNat).takeWhile (· ≠ 10)

/-- What `setFilePath` stores, the terminator included. -/
def Descriptors.stored (task : Descriptors) (fd count : Int) : List (List UInt8) :=
  (task.readTarfsFile fd count).toList.map fun read => read.1 ++ [0]

/-- Case 0 of `isr128`: what is stored at the start of the buffer, by each round of a read from the
terminal, or by a read from a file. `rounds` are the terminals that the rounds find. -/
def readStores (rounds : List Terminal) (task : Descriptors) (fd count : Int) :
    List (List UInt8) :=
  -- The count does not reach `intRead`.
  if fd = 0 then rounds.map Terminal.stored else task.stored fd count

/-- No store lies behind the first `count` bytes of the buffer. -/
def KeepsCount (rounds : List Terminal) (task : Descriptors) (fd : Int) (count : Nat) : Prop :=
  ∀ stored ∈ readStores rounds task fd count, stored.length ≤ count

variable {task : Descriptors} {fd : Int} {count : Nat}

/-! ## The terminal -/

theorem Terminal.readLine_takeWhile (t : Terminal) (n : Nat) (i : Int) :
    (t.readLine n i).1 = (cells t.inpStr i n).takeWhile (· ≠ 10) := by
  induction n generalizing t i with
  | zero => rfl
  | succ n ih =>
    rw [readLine, cells]
    by_cases newline : t.inpStr i = 10
    · rw [if_pos newline, newline]
      rfl
    · -- The cell that has been moved out is cleared, and the scan does not come back to it.
      have kept : cells (Function.update t.inpStr i 0) (i + 1) n = cells t.inpStr (i + 1) n :=
        cells_congr fun j above _ => Function.update_of_ne (by omega) _ _
      rw [if_neg newline, List.takeWhile_cons_of_pos (by simpa using newline)]
      dsimp only
      rw [ih, kept]

theorem Terminal.stored_length (t : Terminal) :
    t.stored.length ≤ count ↔ (0 < t.lineCount → t.pending.length ≤ count) := by
  unfold stored pending
  split
  next line => simp only [readLine_takeWhile, line, forall_const]
  next none => simp [none]

/-! ## Files -/

theorem Descriptors.stored_length (opened : (task.fd fd).address.isSome) (small : count < 2 ^ 31) :
    (∀ stored ∈ task.stored fd count, stored.length ≤ count) ↔ (task.fd fd).size < count := by
  obtain ⟨h, address⟩ := Option.isSome_iff_exists.mp opened
  have unsigned : ((count : Int) % 2 ^ 64).toNat = count := by omega
  unfold Descriptors.stored readTarfsFile
  simp only [address, unsigned, Option.bind_eq_bind, Option.bind_some, Option.toList_some,
    List.map_cons, List.map_nil, List.forall_mem_singleton, List.length_append, setFilePath,
    List.length_map, List.length_range, List.length_singleton]
  split
  next less =>
    -- The file is shorter, so there is room for the terminator.
    rw [wrapInt_small (Nat.lt_trans less small)]
    exact ⟨fun _ => less, fun _ => Nat.succ_le_of_lt less⟩
  next more =>
    refine ⟨fun fits => ?_, fun less => absurd less more⟩
    exact absurd fits (Nat.not_succ_le_self count)

/-! ## Both -/

/-- A read keeps to its count when the line, or the file with its terminator, is short enough. -/
theorem read_keepsCount_iff (rounds : List Terminal) (task : Descriptors) (fd : Int) (count : Nat)
    (small : count < 2 ^ 31) (opened : fd ≠ 0 → (task.fd fd).address.isSome) :
    KeepsCount rounds task fd count ↔
      if fd = 0 then ∀ t ∈ rounds, 0 < t.lineCount → t.pending.length ≤ count
      else (task.fd fd).size < count := by
  unfold KeepsCount readStores
  split
  · simp only [List.forall_mem_map, Terminal.stored_length]
  next file => exact Descriptors.stored_length (opened file) small

/-- The line `hello` has been typed. -/
def hello : Terminal :=
  [35, 18, 38, 38, 24, 28].foldl (fun t code => (t.intWrite code).1) .initial

theorem hello_pending : hello.pending = [104, 101, 108, 108, 111] := by decide +kernel

/-- `gets` asks for 4096 bytes. -/
theorem hello_gets : KeepsCount [hello] .none 0 4096 := by
  refine (read_keepsCount_iff [hello] .none 0 4096 (by decide) nofun).mpr ?_
  rw [if_pos rfl]
  intro t member _
  rw [List.mem_singleton.mp member, hello_pending]
  decide

/-- `getchar` asks for one byte, and has room for four. -/
theorem hello_getchar : ¬KeepsCount [hello] .none 0 1 ∧
    readStores [hello] .none 0 1 = [[104, 101, 108, 108, 111]] := by
  have stores : readStores [hello] .none 0 1 = [[104, 101, 108, 108, 111]] := by decide +kernel
  have member : [104, 101, 108, 108, 111] ∈ readStores [hello] .none 0 1 := by
    rw [stores]
    exact List.mem_singleton_self _
  refine ⟨fun keeps => ?_, stores⟩
  exact absurd (keeps _ member) (by decide)

end LateOS
