import LateOS.Strings.Compare
import LateOS.Screen.Format

/-!
# Numbers in strings

`strtoInt` of the C library, on memory. It takes every character for a digit and goes on past 2^31.
-/
namespace LateOS

open Lib

namespace Strings

/-- `(num * 10) + (str[i] - '0')`. -/
def digitStep (num : Int) (c : UInt8) : Int := wrapInt (wrapInt (num * 10) + (signed c - 48))

/-- The loop looks for the end of the string in front of every round. -/
def strtoIntLoop (limit : Nat) (mem : Bytes) (str : Nat) : Nat → Int → Nat → Option Int
  | 0, _, _ => none
  | rounds + 1, num, i => do
    if (i : Int) < (← strlen limit mem str) then
      strtoIntLoop limit mem str rounds (digitStep num (mem (str + i))) (i + 1)
    else some num

def strtoInt (fuel : Nat) (mem : Bytes) (str : Nat) : Option Int :=
  strtoIntLoop fuel mem str fuel 0 0

/-- The number that is made of the characters. -/
def intOf (s : List UInt8) : Int := s.foldl digitStep 0

variable {mem : Bytes} {a fuel rounds n : Nat} {s : List UInt8} {num x : Int} {c : UInt8}

theorem strtoIntLoop_eq (string : StringAt mem a s) (enough : s.length < fuel) {i : Nat}
    (inside : i ≤ s.length) (left : s.length - i < rounds) :
    strtoIntLoop fuel mem a rounds num i = some ((s.drop i).foldl digitStep num) := by
  induction rounds generalizing num i with
  | zero => exact absurd left (Nat.not_lt_zero _)
  | succ rounds ih =>
    rw [strtoIntLoop, strlen_eq string enough, Option.bind_eq_bind, Option.bind_some]
    by_cases last : i < s.length
    · rw [if_pos (Int.ofNat_lt.mpr last), ih last (by omega), string.cell last,
        List.drop_eq_getElem_cons last, List.foldl_cons]
    · rw [if_neg (by omega), List.drop_eq_nil_of_le (Nat.le_of_not_lt last), List.foldl_nil]

theorem strtoInt_eq (string : StringAt mem a s) (enough : s.length < fuel) :
    strtoInt fuel mem a = some (intOf s) :=
  strtoIntLoop_eq string enough (Nat.zero_le _) (by omega)

/-! ## Numerals -/

/-- Wrapping in between makes no difference. -/
theorem digitStep_wrap : digitStep (wrapInt x) c = wrapInt (x * 10 + (signed c - 48)) := by
  simp only [digitStep, wrapInt]
  rw [Int.bmod_add_bmod, ← Int.bmod_add_bmod, Int.bmod_mul_bmod, Int.bmod_add_bmod]

theorem foldl_digitStep (s : List UInt8) : s.foldl digitStep (wrapInt x) =
    wrapInt (s.foldl (fun num c => num * 10 + (signed c - 48)) x) := by
  induction s generalizing x with
  | nil => rfl
  | cons c s ih => rw [List.foldl_cons, List.foldl_cons, digitStep_wrap, ih]

/-- One wrap at the end is enough. -/
theorem intOf_eq (s : List UInt8) :
    intOf s = wrapInt (s.foldl (fun num c => num * 10 + (signed c - 48)) 0) := by
  rw [← foldl_digitStep]
  rfl

theorem signed_digit {d : Nat} (digit : digitValue c = some d) (low : d < 10) :
    signed c = 48 + d := by
  unfold digitValue at digit
  simp only [UInt8.le_iff_toNat_le] at digit
  have small := c.toNat_lt
  split at digit
  next decimal =>
    have toInt : signed c = c.toNat := BitVec.toInt_eq_toNat_of_lt (by simp at decimal ⊢; omega)
    rw [toInt, ← Option.some.inj digit]
    simp at decimal
    omega
  next =>
    split at digit
    next upper =>
      have value := Option.some.inj digit
      simp at upper
      omega
    next =>
      split at digit
      next lower =>
        have value := Option.some.inj digit
        simp at lower
        omega
      next => cases digit

/-- Digits are worth what they say, highest first. -/
theorem foldl_digits {ds : List Nat} (digits : s.map digitValue = ds.map some)
    (low : ∀ d ∈ ds, d < 10) :
    s.foldl (fun num c => num * 10 + (signed c - 48)) x =
      x * 10 ^ s.length + (Nat.ofDigits 10 ds.reverse : Nat) := by
  induction s generalizing x ds with
  | nil =>
    obtain rfl : ds = [] := by simpa using digits.symm
    simp
  | cons c s ih =>
    obtain ⟨d, rest, rfl⟩ : ∃ d rest, ds = d :: rest := by
      cases ds with
      | nil => cases digits
      | cons d rest => exact ⟨d, rest, rfl⟩
    obtain ⟨first, others⟩ := List.cons.inj digits
    have lengths : s.length = rest.length := by simpa using congrArg List.length others
    rw [List.foldl_cons, ih others fun d later => low d (List.mem_cons_of_mem _ later),
      signed_digit first (low d List.mem_cons_self), List.reverse_cons, Nat.ofDigits_append,
      Nat.ofDigits_singleton, List.length_reverse, List.length_cons, lengths]
    push_cast
    ring

/-- `strtoInt` reads every numeral back, modulo 2^32. -/
theorem intOf_numeral (numeral : Numeral 10 n s) : intOf s = wrapInt n := by
  obtain ⟨ds, digits, canonical⟩ := numeral
  rw [intOf_eq, foldl_digits digits fun d member =>
    canonical.digits d (List.mem_reverse.mp member), List.reverse_reverse, canonical.value,
    Int.zero_mul, Int.zero_add]

end Strings

end LateOS
