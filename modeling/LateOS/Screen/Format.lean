import LateOS.Lib.Numerals
import LateOS.Screen.Echo

/-!
# Formats

`kprintf`, as the characters that it gives to `writeToSbush`, and how it writes numbers.
-/
namespace LateOS

open Lib

/-- An argument slot: a word, or a pointer to a string. -/
inductive VaArg where
  | word (w : BitVec 64)
  | text (s : List UInt8)

/-- The loop of `%d` for so many rounds; `offset` is the weight of the next digit. -/
def decimalLoop : Nat → Int → Bool → Int → List UInt8
  | 0, _, _, _ => []
  | rounds + 1, offset, zeroes, intVal =>
    if offset = 0 then []
    else
      let modVal := intVal.tdiv offset
      if zeroes ∧ modVal = 0 then decimalLoop rounds (offset.tdiv 10) zeroes intVal
      else UInt8.ofInt (48 + modVal) ::
        decimalLoop rounds (offset.tdiv 10) false (intVal.tmod offset)

/-- `%d`. The weights are 50 and 5. -/
def decimal (intVal : BitVec 32) : List UInt8 :=
  (if intVal = 0 then [48] else []) ++
    if intVal.toInt < 0 then 45 :: decimalLoop 3 (10 * 5) true (intVal * -1).toInt
    else decimalLoop 3 (10 * 5) true intVal.toInt

/-- The character for a remainder. -/
def hexDigit (r : Int) : UInt8 :=
  if r ≤ 9 then UInt8.ofInt (48 + r) else UInt8.ofInt (65 + (r - 10))

/-- `outList`, which has 100 places. -/
def hexLoop : Nat → Int → List UInt8
  | 0, _ => []
  | places + 1, intVal =>
    if intVal = 0 then [] else hexDigit (intVal.tmod 16) :: hexLoop places (intVal.tdiv 16)

/-- `%x`. -/
def hexadecimal (intVal : BitVec 32) : List UInt8 := (hexLoop 100 intVal.toInt).reverse

/-- `%p`. -/
def pointer (intVal : BitVec 64) : List UInt8 := 48 :: 120 :: (hexLoop 100 intVal.toNat).reverse

/-- What a format and its arguments write. A conversion without an argument of its kind reads what
happens to be there. -/
def kprintf : List UInt8 → List VaArg → Option (List UInt8)
  | [], _ => some []
  -- `\n` and `\r` as two characters each.
  | 92 :: 110 :: fmt, args => (kprintf fmt args).map (10 :: ·)
  | 92 :: 114 :: fmt, args => (kprintf fmt args).map (13 :: ·)
  | 37 :: 100 :: fmt, .word w :: args => (kprintf fmt args).map (decimal (w.setWidth 32) ++ ·)
  | 37 :: 99 :: fmt, .word w :: args => (kprintf fmt args).map (⟨w.setWidth 8⟩ :: ·)
  | 37 :: 115 :: fmt, .text s :: args => (kprintf fmt args).map (s ++ ·)
  | 37 :: 120 :: fmt, .word w :: args => (kprintf fmt args).map (hexadecimal (w.setWidth 32) ++ ·)
  | 37 :: 112 :: fmt, .word w :: args => (kprintf fmt args).map (pointer w ++ ·)
  | c :: fmt, args =>
    if c ≠ 37 then (kprintf fmt args).map (c :: ·)
    -- The character behind another `%` is read again, as any character.
    else
      match fmt with
      | [] => some []
      | d :: _ => if d ∈ [100, 99, 115, 120, 112] then none else kprintf fmt args

/-- The characters on their way to the screen. -/
def Video.kprintf (v : Video) (fmt : List UInt8) (args : List VaArg) : Option Video :=
  (LateOS.kprintf fmt args).map fun chars => chars.foldl writeToSbush v

/-- The formats of `intWrite`. -/
theorem Video.kprintf_echo (v : Video) (c : UInt8) :
    v.kprintf [10] [] = some (v.writeToSbush 10) ∧
      v.kprintf [37, 99] [.word (c.toBitVec.setWidth 64)] = some (v.writeToSbush c) := by
  refine ⟨rfl, ?_⟩
  have low : (⟨(c.toBitVec.setWidth 64).setWidth 8⟩ : UInt8) = c := by
    cases c
    simp
  change some (v.writeToSbush _) = _
  rw [low]

/-! ## Numerals -/

/-- The value of a digit, which may be a letter of either case. -/
def digitValue (c : UInt8) : Option Nat :=
  if 48 ≤ c ∧ c ≤ 57 then some (c.toNat - 48)
  else if 65 ≤ c ∧ c ≤ 70 then some (c.toNat - 55)
  else if 97 ≤ c ∧ c ≤ 102 then some (c.toNat - 87)
  else none

/-- The string is the canonical numeral of `n`, highest digit first. -/
def Numeral (b n : Nat) (s : List UInt8) : Prop :=
  ∃ ds, s.map digitValue = ds.reverse.map some ∧ Canonical b n ds

/-- A negative number has a minus sign in front. -/
def SignedNumeral (n : Int) (s : List UInt8) : Prop :=
  if n < 0 then ∃ t, s = 45 :: t ∧ Numeral 10 n.natAbs t else Numeral 10 n.natAbs s

/-- The format writes a string with this property. -/
def Prints (fmt : List UInt8) (args : List VaArg) (P : List UInt8 → Prop) : Prop :=
  ∃ s, kprintf fmt args = some s ∧ P s

variable {b n : Nat} {s : List UInt8}

theorem Numeral.lt (numeral : Numeral b n s) (base : 1 < b) : n < b ^ s.length := by
  obtain ⟨ds, same, canonical⟩ := numeral
  have lengths := congrArg List.length same
  rw [List.length_map, List.length_map, List.length_reverse] at lengths
  rw [lengths]
  exact canonical.lt base

/-- A numeral is worth what its digits say. -/
theorem Numeral.value {high : List Nat} (numeral : Numeral b n s)
    (digits : s.map digitValue = high.map some) : Nat.ofDigits b high.reverse = n := by
  obtain ⟨ds, same, canonical⟩ := numeral
  have back : high = ds.reverse :=
    List.map_injective_iff.mpr (Option.some_injective Nat) (digits.symm.trans same)
  rw [back, List.reverse_reverse]
  exact canonical.value

/-! ## Hexadecimal numerals -/

theorem digitValue_hexDigit : ∀ d : Nat, d < 16 → digitValue (hexDigit d) = some d := by decide

/-- A negative remainder gives no digit. -/
theorem digitValue_negative : ∀ d : Nat, d < 16 → d ≠ 0 →
    digitValue (hexDigit (-(d : Int))) = none := by decide

/-- The loop gives the digits of a number, lowest first. -/
theorem hexLoop_digits {places : Nat} (fits : n < 16 ^ places) :
    hexLoop places n = (Nat.digits 16 n).map fun d : Nat => hexDigit d := by
  induction places generalizing n with
  | zero =>
    have none : n = 0 := by simpa using fits
    subst none
    rfl
  | succ places ih =>
    rw [hexLoop]
    split
    next none =>
      have none : n = 0 := Int.natCast_eq_zero.mp none
      subst none
      simp
    next some =>
      have positive : 0 < n := Nat.pos_of_ne_zero fun none => some (by rw [none]; rfl)
      have quotient : (n : Int).tdiv 16 = ((n / 16 : Nat) : Int) := rfl
      have remainder : (n : Int).tmod 16 = ((n % 16 : Nat) : Int) := rfl
      have smaller : n / 16 < 16 ^ places := by
        rw [Nat.div_lt_iff_lt_mul (by decide), ← Nat.pow_succ]
        exact fits
      rw [quotient, remainder, ih smaller, Nat.digits_def' (by decide) positive, List.map_cons]

theorem hexLoop_numeral {places : Nat} (positive : n ≠ 0) (fits : n < 16 ^ places) :
    Numeral 16 n (hexLoop places n).reverse := by
  refine ⟨Nat.digits 16 n, ?_, canonical_digits (by decide) positive⟩
  rw [hexLoop_digits fits, List.map_reverse, List.map_reverse, List.map_map]
  congr 1
  refine List.map_congr_left fun d member => ?_
  exact digitValue_hexDigit d (Nat.digits_lt_base (by decide) member)

/-- The last quotient of a negative number leaves a negative remainder. -/
theorem hexLoop_negative {places : Nat} (negative : n ≠ 0) (fits : n < 16 ^ places) :
    ∃ c ∈ hexLoop places (-(n : Int)), digitValue c = none := by
  induction places generalizing n with
  | zero =>
    have none : n = 0 := by simpa using fits
    exact absurd none negative
  | succ places ih =>
    have quotient : (-(n : Int)).tdiv 16 = -((n / 16 : Nat) : Int) := by
      rw [Int.neg_tdiv]
      rfl
    have remainder : (-(n : Int)).tmod 16 = -((n % 16 : Nat) : Int) := by
      rw [Int.neg_tmod]
      rfl
    have smaller : n / 16 < 16 ^ places := by
      rw [Nat.div_lt_iff_lt_mul (by decide), ← Nat.pow_succ]
      exact fits
    rw [hexLoop, if_neg (by omega), quotient, remainder]
    by_cases last : n / 16 = 0
    · refine ⟨_, List.mem_cons_self, digitValue_negative (n % 16) (Nat.mod_lt n (by decide)) ?_⟩
      omega
    · obtain ⟨c, member, wrong⟩ := ih last smaller
      exact ⟨c, List.mem_cons_of_mem _ member, wrong⟩

theorem not_numeral_of_mem {c : UInt8} (member : c ∈ s) (wrong : digitValue c = none) :
    ¬Numeral b n s := by
  rintro ⟨ds, same, _⟩
  have bad : none ∈ ds.reverse.map some := by
    rw [← same]
    exact List.mem_map.mpr ⟨c, member, wrong⟩
  simp at bad

theorem not_numeral_nil : ¬Numeral b n [] := by
  rintro ⟨ds, same, canonical⟩
  have empty : ds = [] := by simpa using same.symm
  exact canonical.nonempty empty

/-! ## Decimal numerals -/

/-- Two weights make two digits at most. -/
theorem decimalLoop_eq (n : Nat) : decimalLoop 3 (10 * 5) true n =
    if n < 50 then if n < 5 then [] else [UInt8.ofInt (48 + (n / 5 : Nat))]
    else [UInt8.ofInt (48 + (n / 50 : Nat)), UInt8.ofInt (48 + (n % 50 / 5 : Nat))] := by
  have high : (n : Int).tdiv 50 = ((n / 50 : Nat) : Int) := rfl
  have low : (n : Int).tdiv 5 = ((n / 5 : Nat) : Int) := rfl
  have rest : ((n : Int).tmod 50).tdiv 5 = ((n % 50 / 5 : Nat) : Int) := rfl
  have next : (50 : Int).tdiv 10 = 5 := rfl
  have last : (5 : Int).tdiv 10 = 0 := rfl
  have above : (n : Int) / 50 = 0 ↔ n < 50 := by omega
  have ones : (n : Int) / 5 = 0 ↔ n < 5 := by omega
  simp [decimalLoop, high, low, rest, next, last, above, ones]

theorem decimalLoop_length (rounds : Nat) (offset : Int) (zeroes : Bool) (intVal : Int) :
    (decimalLoop rounds offset zeroes intVal).length ≤ rounds := by
  induction rounds generalizing offset zeroes intVal with
  | zero => exact Nat.le_refl 0
  | succ rounds ih =>
    rw [decimalLoop]
    split
    · exact Nat.zero_le _
    dsimp only
    split
    · exact Nat.le_succ_of_le (ih ..)
    · exact Nat.succ_le_succ (ih ..)

theorem digitValue_decimal : ∀ d : Nat, d < 10 → digitValue (UInt8.ofInt (48 + (d : Int))) = some d := by
  decide

/-- What is written of a number is worth less, if it is a numeral. -/
theorem decimalLoop_wrong (n : Nat) : ¬Numeral 10 n (decimalLoop 3 (10 * 5) true n) := by
  intro numeral
  have short := decimalLoop_eq n
  by_cases tiny : n < 5
  · rw [if_pos (Nat.lt_trans tiny (by decide)), if_pos tiny] at short
    rw [short] at numeral
    exact not_numeral_nil numeral
  by_cases low : n < 50
  · rw [if_pos low, if_neg tiny] at short
    rw [short] at numeral
    have digits : [UInt8.ofInt (48 + (n / 5 : Nat))].map digitValue = [n / 5].map some := by
      rw [List.map_singleton, digitValue_decimal (n / 5) (by omega)]
      rfl
    have value := numeral.value digits
    rw [List.reverse_singleton, Nat.ofDigits_singleton] at value
    omega
  · rw [if_neg low] at short
    rw [short] at numeral
    have small := numeral.lt (by decide)
    change n < 10 ^ 2 at small
    have digits : [UInt8.ofInt (48 + (n / 50 : Nat)), UInt8.ofInt (48 + (n % 50 / 5 : Nat))].map
        digitValue = [n / 50, n % 50 / 5].map some := by
      simp only [List.map_cons, List.map_nil]
      rw [digitValue_decimal (n / 50) (by omega), digitValue_decimal (n % 50 / 5) (by omega)]
    have value := numeral.value digits
    simp only [List.reverse_cons, List.reverse_nil, List.nil_append, List.cons_append,
      Nat.ofDigits_cons, Nat.ofDigits_nil] at value
    omega

/-- `%d` is right for zero alone. -/
theorem decimal_iff (v : BitVec 32) : SignedNumeral v.toInt (decimal v) ↔ v = 0 := by
  constructor
  · intro numeral
    by_contra some
    have notZero : v.toInt ≠ 0 := fun zero => some (BitVec.toInt_inj.mp zero)
    have range : -2 ^ 31 ≤ v.toInt ∧ v.toInt < 2 ^ 31 := ⟨v.le_toInt, v.toInt_lt⟩
    unfold SignedNumeral decimal at numeral
    rw [if_neg some, List.nil_append] at numeral
    by_cases negative : v.toInt < 0
    · rw [if_pos negative, if_pos negative] at numeral
      obtain ⟨t, same, numeral⟩ := numeral
      have body := (List.cons.inj same).2
      rw [← body] at numeral
      have small : v.toInt.natAbs < 10 ^ 3 :=
        Nat.lt_of_lt_of_le (numeral.lt (by decide))
          (Nat.pow_le_pow_right (by decide) (decimalLoop_length ..))
      -- So it is not the one number whose negation overflows.
      have negated : (v * -1).toInt = (v.toInt.natAbs : Int) := by
        have negation : v * -1 = -v :=
          (BitVec.mul_neg v 1).trans (congrArg Neg.neg (BitVec.mul_one v))
        rw [negation, BitVec.toInt_neg, Int.bmod_eq_of_le (by omega) (by omega)]
        omega
      rw [negated] at numeral
      exact decimalLoop_wrong _ numeral
    · rw [if_neg negative, if_neg negative] at numeral
      have same : v.toInt = (v.toInt.natAbs : Int) := by omega
      rw [same, Int.natAbs_natCast] at numeral
      exact decimalLoop_wrong _ numeral
  · rintro rfl
    refine ⟨[0], by decide, canonical_zero (by decide)⟩

/-- `%x` writes nothing for zero, and no digits for a negative number. -/
theorem hexadecimal_iff (v : BitVec 32) : Numeral 16 v.toNat (hexadecimal v) ↔ 0 < v.toInt := by
  have range : v.toNat < 2 ^ 32 := v.isLt
  have signed := BitVec.toInt_eq_toNat_cond v
  unfold hexadecimal
  constructor
  · intro numeral
    by_contra other
    by_cases none : v.toInt = 0
    · rw [none] at numeral
      exact not_numeral_nil numeral
    · have same : v.toInt = -(v.toInt.natAbs : Int) := by omega
      have fits : v.toInt.natAbs < 16 ^ 100 := by
        have small : v.toInt.natAbs < 2 ^ 32 := by
          split at signed <;> omega
        exact Nat.lt_of_lt_of_le small (by decide)
      rw [same] at numeral
      obtain ⟨c, member, wrong⟩ := hexLoop_negative (by omega) fits
      exact not_numeral_of_mem (List.mem_reverse.mpr member) wrong numeral
  · intro positive
    have same : v.toInt = v.toNat := by
      split at signed
      · exact signed
      · omega
    rw [same]
    exact hexLoop_numeral (by omega) (Nat.lt_of_lt_of_le range (by decide))

/-- `%p` writes no digit for zero. -/
theorem pointer_iff (v : BitVec 64) :
    (∃ t, pointer v = 48 :: 120 :: t ∧ Numeral 16 v.toNat t) ↔ v ≠ 0 := by
  unfold pointer
  constructor
  · rintro ⟨t, same, numeral⟩ rfl
    have body := (List.cons.inj (List.cons.inj same).2).2
    rw [← body] at numeral
    exact not_numeral_nil numeral
  · intro some
    have positive : v.toNat ≠ 0 := fun zero => some (BitVec.eq_of_toNat_eq zero)
    exact ⟨_, rfl, hexLoop_numeral positive (Nat.lt_of_lt_of_le v.isLt (by decide))⟩

/-! ## The three conversions -/

/-- What the three conversions should write of an argument. -/
structure WritesNumeral (w : BitVec 64) : Prop where
  d : Prints [37, 100] [.word w] (SignedNumeral (w.setWidth 32).toInt)
  x : Prints [37, 120] [.word w] (Numeral 16 (w.setWidth 32).toNat)
  p : Prints [37, 112] [.word w] fun s => ∃ t, s = 48 :: 120 :: t ∧ Numeral 16 w.toNat t

theorem prints_some {fmt : List UInt8} {args : List VaArg} {P : List UInt8 → Prop}
    (same : kprintf fmt args = some s) : Prints fmt args P ↔ P s := by
  unfold Prints
  rw [same]
  simp

/-- `%d` writes the numeral of zero alone, `%x` those of positive numbers, and `%p` those of all
numbers but zero. -/
theorem conversions_iff (w : BitVec 64) :
    (Prints [37, 100] [.word w] (SignedNumeral (w.setWidth 32).toInt) ↔ w.setWidth 32 = 0) ∧
    (Prints [37, 120] [.word w] (Numeral 16 (w.setWidth 32).toNat) ↔ 0 < (w.setWidth 32).toInt) ∧
    (Prints [37, 112] [.word w] (fun s => ∃ t, s = 48 :: 120 :: t ∧ Numeral 16 w.toNat t) ↔
      w ≠ 0) := by
  have d : kprintf [37, 100] [.word w] = some (decimal (w.setWidth 32)) := by simp [kprintf]
  have x : kprintf [37, 120] [.word w] = some (hexadecimal (w.setWidth 32)) := by simp [kprintf]
  have p : kprintf [37, 112] [.word w] = some (pointer w) := by simp [kprintf]
  rw [prints_some d, prints_some x, prints_some p]
  exact ⟨decimal_iff _, hexadecimal_iff _, pointer_iff w⟩

/-- For 7, `%d` writes `1`. -/
theorem seven_written : ¬∀ w, WritesNumeral w := by
  intro all
  obtain ⟨s, written, numeral⟩ := (all 7).d
  have one : kprintf [37, 100] [.word 7] = some [49] := by decide
  rw [one] at written
  cases written
  have digits : [49].map digitValue = [1].map some := by decide
  exact absurd (numeral.value digits) (by decide)

end LateOS
