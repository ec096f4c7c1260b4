import LateOS.Strings.Numbers
import LateOS.Process.Zombie

/-!
# ps and kill

What `ps` writes of the tasks, and the program `kill`, which takes a pid from its arguments.
-/
namespace LateOS

open Lib

/-! ## ps -/

/-- `PID : %d` and a newline. -/
def pidFormat : List UInt8 := [80, 73, 68, 32, 58, 32, 37, 100, 10]

/-- `Process : %s` and a newline. -/
def nameFormat : List UInt8 := [80, 114, 111, 99, 101, 115, 115, 32, 58, 32, 37, 115, 10]

/-- `------START-------` and a newline. -/
def startFormat : List UInt8 :=
  List.replicate 6 45 ++ [83, 84, 65, 82, 84] ++ List.replicate 7 45 ++ [10]

/-- `------END-------` and a newline. -/
def endFormat : List UInt8 := List.replicate 6 45 ++ [69, 78, 68] ++ List.replicate 7 45 ++ [10]

/-- A round of the loop of `ps`. -/
def psTask (t : TaskStruct) : Option (List UInt8) :=
  if t.state.Live then do
    let pid ← kprintf pidFormat [.word (BitVec.ofInt 64 t.pid)]
    let name ← kprintf nameFormat [.text t.name]
    let gap ← kprintf [10] []
    some (pid ++ name ++ gap)
  else some []

def psLoop (q : TaskQueue) : Nat → Int → Option (List UInt8)
  | 0, _ => some []
  | n + 1, i => do
    let task ← psTask (q i)
    let rest ← psLoop q n (i + 1)
    some (task ++ rest)

/-- What `ps` writes to the screen. -/
def ps (q : TaskQueue) : Option (List UInt8) := do
  let head ← kprintf startFormat []
  let tasks ← psLoop q 1100 0
  let foot ← kprintf endFormat []
  some (head ++ tasks ++ foot)

/-! ## kill -/

namespace KillProgram

/-- What the program does through the C library. -/
inductive Request where
  | puts (s : List UInt8)
  | kill (pid : Int)
  deriving DecidableEq

/-- `Must use : kill -9 PID` and a newline. -/
def usage : List UInt8 :=
  [77, 117, 115, 116, 32, 117, 115, 101, 32, 58, 32, 107, 105, 108, 108, 32, 45, 57, 32, 80, 73, 68,
    10]

/-- `Incorrect PID` and a newline. -/
def incorrect : List UInt8 := [73, 110, 99, 111, 114, 114, 101, 99, 116, 32, 80, 73, 68, 10]

def validateARGS (fuel : Nat) (mem : Bytes) (argc : Int) (pName : Nat) :
    Option (List Request × Int) :=
  if argc < 3 then some ([.puts usage], -1)
  else do
    let pid ← Strings.strtoInt fuel mem pName
    if pid < 0 then some ([.puts incorrect], -1) else some ([], 0)

/-- `main`, which does not look at `argv[1]`. -/
def main (fuel : Nat) (mem : Bytes) (argc : Int) (argv : Nat → Nat) :
    Option (List Request × Int) := do
  let (said, valid) ← validateARGS fuel mem argc (argv 2)
  if valid = -1 then some (said, -1)
  else
    let pid ← Strings.strtoInt fuel mem (argv 2)
    some (said ++ [.kill pid], 0)

end KillProgram

open Strings (intOf signed)

variable {fuel n : Nat} {mem : Bytes} {argc : Int} {argv : Nat → Nat} {s : List UInt8}
  {t : TaskStruct} {v : BitVec 32}

/-! ## Reading a pid -/

theorem KillProgram.main_eq (enough : 3 ≤ argc) (argument : StringAt mem (argv 2) s)
    (fits : s.length < fuel) : main fuel mem argc argv =
      some (if intOf s < 0 then ([.puts incorrect], -1) else ([.kill (intOf s)], 0)) := by
  have read := Strings.strtoInt_eq argument fits
  have valid : validateARGS fuel mem argc (argv 2) =
      some (if intOf s < 0 then ([.puts incorrect], -1) else ([], 0)) := by
    rw [validateARGS, if_neg (by omega), read, Option.bind_eq_bind, Option.bind_some]
    split <;> rfl
  rw [main, valid, read]
  by_cases negative : intOf s < 0
  · rw [if_pos negative, if_pos negative]
    rfl
  · rw [if_neg negative, if_neg negative]
    rfl

theorem main_kills (enough : 3 ≤ argc) (argument : StringAt mem (argv 2) s)
    (fits : s.length < fuel) (read : intOf s = n) :
    KillProgram.main fuel mem argc argv = some ([.kill n], 0) := by
  rw [KillProgram.main_eq enough argument fits, read, if_neg (by omega)]

/-! ## Writing a pid -/

theorem signed_digitChar : ∀ d : Nat, d < 80 → signed (UInt8.ofInt (48 + (d : Int))) = 48 + d := by
  decide +kernel

/-- Of what `%d` writes, with its weights 50 and 5, a fifth of the number can be read back. -/
theorem intOf_decimal (value : v.toInt = n) (small : n < 4000) :
    intOf (decimal v) = (n / 5 : Nat) := by
  have zero : v = 0 ↔ n = 0 := by
    rw [← BitVec.toInt_inj, value]
    exact Int.natCast_eq_zero
  have positive : ¬v.toInt < 0 := by omega
  rw [decimal, if_neg positive, value, decimalLoop_eq]
  by_cases none : n = 0
  · rw [if_pos (zero.mpr none), none]
    decide
  rw [if_neg (mt zero.mp none), List.nil_append]
  by_cases tiny : n < 5
  · rw [if_pos (by omega), if_pos tiny, Nat.div_eq_of_lt tiny]
    rfl
  have whole {x : Int} (low : 0 ≤ x) (high : x < 1000) : wrapInt x = x :=
    Int.bmod_eq_of_le (by omega) (by omega)
  by_cases low : n < 50
  · rw [if_pos low, if_neg tiny, Strings.intOf_eq, List.foldl_cons, List.foldl_nil,
      signed_digitChar _ (by omega), whole (by omega) (by omega)]
    omega
  · rw [if_neg low, Strings.intOf_eq, List.foldl_cons, List.foldl_cons, List.foldl_nil,
      signed_digitChar _ (by omega), signed_digitChar _ (by omega), whole (by omega) (by omega)]
    omega

/-! ## The listing -/

/-- The pid of a task as `ps` shows it. -/
def shownPid (t : TaskStruct) : List UInt8 := decimal ((BitVec.ofInt 64 t.pid).setWidth 32)

/-- What `ps` writes of a task: `PID : ` and its pid, `Process : ` and its name, and an empty line. -/
def psEntry (t : TaskStruct) : List UInt8 :=
  [80, 73, 68, 32, 58, 32] ++ shownPid t ++ [10] ++
    ([80, 114, 111, 99, 101, 115, 115, 32, 58, 32] ++ t.name ++ [10]) ++ [10]

/-- The tasks that `ps` shows, in their order. -/
def liveSlots (q : TaskQueue) : List Nat :=
  (List.range 1100).filter fun i : Nat => (q i).state.Live

theorem psTask_eq (live : t.state.Live) : psTask t = some (psEntry t) := by
  have pid : kprintf pidFormat [.word (BitVec.ofInt 64 t.pid)] =
      some ([80, 73, 68, 32, 58, 32] ++ (shownPid t ++ [10])) := rfl
  have name : kprintf nameFormat [.text t.name] =
      some ([80, 114, 111, 99, 101, 115, 115, 32, 58, 32] ++ (t.name ++ [10])) := rfl
  have gap : kprintf [10] [] = some [10] := rfl
  rw [psTask, if_pos live, pid, name, gap]
  simp [psEntry]

/-- The induction is on the rounds that are left. -/
theorem psLoop_eq (q : TaskQueue) (rounds i : Nat) : psLoop q rounds i =
    some (((List.range' i rounds).filter fun j : Nat => (q j).state.Live).flatMap fun j : Nat =>
      psEntry (q j)) := by
  induction rounds generalizing i with
  | zero => rfl
  | succ rounds ih =>
    have rest := ih (i + 1)
    rw [Int.natCast_add, Int.natCast_one] at rest
    rw [psLoop, rest, List.range'_succ]
    by_cases live : (q i).state.Live
    · rw [psTask_eq live, List.filter_cons_of_pos (by simpa using live), List.flatMap_cons]
      rfl
    · rw [psTask, if_neg live, List.filter_cons_of_neg (by simpa using live)]
      rfl

/-- `ps` writes an entry for each live task. -/
theorem ps_eq (q : TaskQueue) : ps q =
    some (startFormat ++ (liveSlots q).flatMap (fun i : Nat => psEntry (q i)) ++ endFormat) := by
  have head : kprintf startFormat [] = some startFormat := rfl
  have foot : kprintf endFormat [] = some endFormat := rfl
  have tasks := psLoop_eq q 1100 0
  rw [← List.range_eq_range'] at tasks
  rw [ps, head, show psLoop q 1100 0 = _ from tasks, foot]
  rfl

theorem pid_toInt (small : n < 1100) : ((BitVec.ofInt 64 (n : Int)).setWidth 32).toInt = n := by
  have toNat : ((BitVec.ofInt 64 (n : Int)).setWidth 32).toNat = n := by
    rw [BitVec.toNat_setWidth, BitVec.ofInt_natCast, BitVec.toNat_ofNat]
    omega
  rw [BitVec.toInt_eq_toNat_of_lt (by omega), toNat]

/-- In every state that a run from boot reaches, and for every live task: `kill` with the numeral
of its pid kills it, and with the pid as `ps` shows it in its entry kills the task of a fifth of the
pid. -/
theorem Kernel.listed_killed {run : List (Action × Kernel)} (along : Along Step boot run) {i : Int}
    (inside : InTable i) (live : ((lastState boot run).taskQueue i).state.Live) :
    (∀ fuel mem argc argv s, Numeral 10 i.toNat s → 3 ≤ argc → StringAt mem (argv 2) s →
      s.length < fuel → KillProgram.main fuel mem argc argv = some ([.kill i], 0)) ∧
    ps (lastState boot run).taskQueue = some (startFormat ++
      (liveSlots (lastState boot run).taskQueue).flatMap
        (fun j : Nat => psEntry ((lastState boot run).taskQueue j)) ++ endFormat) ∧
    i.toNat ∈ liveSlots (lastState boot run).taskQueue ∧
    ∀ fuel mem argc argv, 3 ≤ argc →
      StringAt mem (argv 2) (shownPid ((lastState boot run).taskQueue i)) →
      (shownPid ((lastState boot run).taskQueue i)).length < fuel →
      KillProgram.main fuel mem argc argv = some ([.kill (i / 5)], 0) := by
  have seated : (lastState boot run).Seated :=
    Along.invariant_last (I := Seated) (fun _ _ _ seated ran => seated.step ran) Seated.boot along
  have pid := seated.pids i inside live
  obtain ⟨n, rfl⟩ := Int.eq_ofNat_of_zero_le inside.1
  have small : n < 1100 := Int.ofNat_lt.mp inside.2
  refine ⟨?_, ps_eq _, ?_, ?_⟩
  · intro fuel mem argc argv s numeral enough argument fits
    refine main_kills enough argument fits ?_
    rw [Strings.intOf_numeral numeral]
    exact Int.bmod_eq_of_le (by omega) (by omega)
  · exact List.mem_filter.mpr ⟨List.mem_range.mpr small, by simpa using live⟩
  · intro fuel mem argc argv enough argument fits
    refine main_kills enough argument fits ?_
    rw [shownPid, pid]
    exact intOf_decimal (pid_toInt small) (by omega)

/-- The first program has forked three times. -/
def threeForks : List Action := [.fork 0 [], .fork 0 [], .fork 0 []]

/-- `kill -9 5` kills the last of them, which `ps` shows as 1, and `kill -9 1` kills idle. -/
theorem Kernel.listed_killed_of_forks :
    let q := (lastState boot (follow step boot threeForks)).taskQueue
    liveSlots q = [0, 1, 2, 3, 4, 5] ∧ shownPid (q 5) = [49] ∧
    KillProgram.main 2 (overlay (fun _ => 0) 0 [53, 0]) 3 (fun _ => 0) = some ([.kill 5], 0) ∧
    KillProgram.main 2 (overlay (fun _ => 0) 0 [49, 0]) 3 (fun _ => 0) = some ([.kill 1], 0) := by
  have slots : liveSlots (lastState boot (follow step boot threeForks)).taskQueue =
      [0, 1, 2, 3, 4, 5] := by
    decide +kernel
  have shown : shownPid ((lastState boot (follow step boot threeForks)).taskQueue 5) = [49] := by
    decide +kernel
  have live : ((lastState boot (follow step boot threeForks)).taskQueue 5).state.Live := by
    decide +kernel
  have numeral : Numeral 10 5 [53] := ⟨[5], by decide, by decide, by decide, by decide, by decide⟩
  have argument (c : UInt8) (some : c ≠ 0) :
      StringAt (overlay (fun _ => 0) 0 [c, 0]) 0 [c] :=
    overlay_terminated (s := [c]) (by simpa using some.symm)
  obtain ⟨killed, -, -, other⟩ := @listed_killed _ (along_follow step boot threeForks) 5 (by decide)
    live
  rw [shown] at other
  exact ⟨slots, shown, killed 2 _ 3 (fun _ => 0) [53] numeral (by decide)
    (argument 53 (by decide)) (by decide),
    other 2 _ 3 (fun _ => 0) (by decide) (argument 49 (by decide)) (by decide)⟩

end LateOS
