import Mathlib.Data.Nat.Digits.Lemmas

/-!
# Numerals

The canonical numeral of a number in a base: its digits from the lowest on, at least one, and
no zero in front of the others.
-/
namespace LateOS.Lib

variable {b n : Nat} {ds : List Nat}

structure Canonical (b n : Nat) (ds : List Nat) : Prop where
  digits : ∀ d ∈ ds, d < b
  nonempty : ds ≠ []
  front : ds.getLast? = some 0 → ds = [0]
  value : Nat.ofDigits b ds = n

theorem canonical_digits (base : 1 < b) (positive : n ≠ 0) : Canonical b n (Nat.digits b n) := by
  have nonempty : Nat.digits b n ≠ [] := Nat.digits_ne_nil_iff_ne_zero.mpr positive
  refine ⟨fun d member => Nat.digits_lt_base base member, nonempty, fun zero => ?_,
    Nat.ofDigits_digits b n⟩
  rw [List.getLast?_eq_some_getLast nonempty] at zero
  exact absurd (Option.some.inj zero) (Nat.getLast_digit_ne_zero b positive)

theorem canonical_zero (base : 1 < b) : Canonical b 0 [0] :=
  ⟨fun d member => List.mem_singleton.mp member ▸ Nat.zero_lt_of_lt base, by simp, fun _ => rfl, by simp⟩

/-- A number is below what its digits can say. -/
theorem Canonical.lt (canonical : Canonical b n ds) (base : 1 < b) : n < b ^ ds.length := by
  rw [← canonical.value]
  exact Nat.ofDigits_lt_base_pow_length base canonical.digits

end LateOS.Lib
