import Mathlib.Data.List.Induction
import Mathlib.Data.Nat.Digits.Defs
import LateOS.Files.Archive

/-!
# The two readings of a size field

`getsize` reads the field in octal. `toBinaryFile` reads it in decimal, and for each decimal
digit adds three decimal digits that look like the octal digit in binary. The two numbers are
compared from the lowest digit on: each decimal digit decides three more bits of the difference,
so that few numbers are left.
-/
namespace LateOS

variable {octal : List UInt8} {h : TarHeader}

/-! ## What lies around the table -/

/-- The second loop of `toBinaryFile`, where the stack holds `dict` from `octal_dict` on. -/
def toBinaryLoopIn (dict : Int → Int) : Nat → Int → Int → Int → Int
  | 0, _, _, bin => bin
  | n + 1, oct, i, bin =>
    if oct = 0 then bin
    else toBinaryLoopIn dict n (oct.tdiv 10) (wrapInt (i * 1000))
      (bin + wrapInt (dict (oct.tmod 10) * i))

def toBinaryFileIn (dict : Int → Int) (octal : List UInt8) : Nat :=
  let oct := octal.foldl (fun oct c => wrapInt (c.toBitVec.toInt - 48 + wrapInt (oct * 10))) 0
  (toBinaryLoopIn dict 10 oct 1 0 % 2 ^ 64).toNat

/-- The eight entries of `octal_dict` are in place. -/
def HoldsDict (dict : Int → Int) : Prop := ∀ temp, 0 ≤ temp → temp < 8 → dict temp = octalDict temp

theorem toBinaryLoopIn_octalDict (n : Nat) (oct i bin : Int) :
    toBinaryLoopIn octalDict n oct i bin = toBinaryLoop n oct i bin := by
  induction n generalizing oct i bin with
  | zero => rfl
  | succ n ih => simp only [toBinaryLoopIn, toBinaryLoop, ih]

theorem toBinaryFileIn_octalDict (octal : List UInt8) :
    toBinaryFileIn octalDict octal = toBinaryFile octal := by
  simp only [toBinaryFileIn, toBinaryFile, toBinaryLoopIn_octalDict]

/-- Both functions give the size that the field says. -/
def TarHeader.DecodersAgree (h : TarHeader) : Prop :=
  (∀ dict, HoldsDict dict → toBinaryFileIn dict h.size = h.getsize) ∧ h.getsize = h.octalSize

/-! ## The digits of a field -/

/-- The digits, the lowest first. -/
def fieldDigits (octal : List UInt8) : List Nat := (octal.map fun c => c.toNat - 48).reverse

/-- The field read in base `b`. -/
theorem foldl_digits (b : Nat) (octal : List UInt8) :
    octal.foldl (fun n c => b * n + (c.toNat - 48)) 0 = Nat.ofDigits b (fieldDigits octal) := by
  induction octal using List.reverseRecOn with
  | nil => rfl
  | append_singleton octal c ih =>
    simp only [fieldDigits, List.foldl_append, List.map_append, List.reverse_append, ih]
    simp [Nat.ofDigits_cons, Nat.add_comm]

theorem wrapInt_read (d oct : Int) :
    wrapInt (d + wrapInt (wrapInt oct * 10)) = wrapInt (d + 10 * oct) := by
  unfold wrapInt
  rw [Int.add_bmod_bmod, ← Int.add_bmod_bmod, Int.bmod_mul_bmod, Int.add_bmod_bmod, Int.mul_comm]

/-- The first loop of `toBinaryFile` reads the field in decimal, in an `int`. -/
theorem foldl_decimal (digits : ∀ c ∈ octal, 48 ≤ c ∧ c ≤ 55) :
    octal.foldl (fun oct c => wrapInt (c.toBitVec.toInt - 48 + wrapInt (oct * 10))) 0 =
      wrapInt (Nat.ofDigits 10 (fieldDigits octal) : Nat) := by
  induction octal using List.reverseRecOn with
  | nil => rfl
  | append_singleton octal c ih =>
    have digit := octal_toInt (digits c (by simp))
    have others := ih fun c member => digits c (by simp [member])
    have value : Nat.ofDigits 10 (fieldDigits (octal ++ [c])) =
        c.toNat - 48 + 10 * Nat.ofDigits 10 (fieldDigits octal) := by
      simp [fieldDigits, Nat.ofDigits_cons]
    rw [List.foldl_append, others, List.foldl_cons, List.foldl_nil, digit, value, wrapInt_read,
      Int.natCast_add, Int.natCast_mul]
    rfl

theorem fieldDigits_low (digits : ∀ c ∈ octal, 48 ≤ c ∧ c ≤ 55) :
    ∀ d ∈ fieldDigits octal, d ≤ 7 := by
  intro d member
  obtain ⟨c, inside, rfl⟩ := List.mem_map.mp (List.mem_reverse.mp member)
  have upper : c.toNat ≤ 55 := UInt8.le_iff_toNat_le.mp (digits c inside).2
  omega

/-! ## The second loop -/

/-- What the loop makes of the digits of `oct`, without overflow. -/
def spread : Nat → Nat → Int
  | 0, _ => 0
  | n + 1, oct => octalDict (oct % 10 : Nat) + 1000 * spread n (oct / 10)

theorem spread_zero (n : Nat) : spread n 0 = 0 := by
  induction n with
  | zero => rfl
  | succ n ih => simp [spread, ih, octalDict]

theorem toBinaryLoop_emod (n oct : Nat) (i bin : Int) :
    toBinaryLoop n oct i bin % 2 ^ 32 = (bin + i * spread n oct) % 2 ^ 32 := by
  induction n generalizing oct i bin with
  | zero => simp [toBinaryLoop, spread]
  | succ n ih =>
    rw [toBinaryLoop]
    split
    next zero =>
      rw [Int.natCast_eq_zero.mp zero, spread_zero, mul_zero, add_zero]
    next =>
      have digit : (oct : Int).tmod 10 = (oct % 10 : Nat) := rfl
      have others : (oct : Int).tdiv 10 = (oct / 10 : Nat) := rfl
      -- Both products may wrap around, and modulo 2^32 that makes no difference.
      have entry := wrapInt_emod (octalDict (oct % 10 : Nat) * i)
      have scale : (wrapInt (i * 1000) * spread n (oct / 10)) % 2 ^ 32 =
          (i * 1000 * spread n (oct / 10)) % 2 ^ 32 := by
        rw [Int.mul_emod, wrapInt_emod, ← Int.mul_emod]
      have value : bin + i * spread (n + 1) oct =
          bin + octalDict (oct % 10 : Nat) * i + i * 1000 * spread n (oct / 10) := by
        rw [spread]
        ring
      rw [digit, others, ih, value]
      omega

/-- The remainders of a negative `oct` index nothing but the zero in front. -/
theorem toBinaryLoop_negative (n : Nat) (oct i bin : Int) (negative : oct ≤ 0) :
    toBinaryLoop n oct i bin = bin := by
  induction n generalizing oct i bin with
  | zero => rfl
  | succ n ih =>
    obtain ⟨m, rfl⟩ : ∃ m : Nat, oct = -(m : Int) := ⟨oct.natAbs, by omega⟩
    have index : ((-(m : Int)).tmod 10).toNat = 0 := by
      rw [Int.neg_tmod]
      exact Int.toNat_neg_natCast (m % 10)
    have rest : (-(m : Int)).tdiv 10 ≤ 0 := by
      rw [Int.neg_tdiv]
      exact Int.neg_nonpos_of_nonneg (Int.natCast_nonneg (m / 10))
    rw [toBinaryLoop]
    split
    · rfl
    · rw [ih _ _ _ rest, octalDict, index]
      simp [wrapInt]

/-! ## The search -/

/-- The numbers `oct` of at most `n` decimal digits for which the digits of `oct + c`, read in
octal, come to `r + a * spread n oct` modulo 2^(3n+2), as far as the lowest digits tell. -/
def candidates : Nat → Int → Int → Nat → List Nat
  | 0, _, r, c => if c ≤ 7 ∧ (r - c) % 4 = 0 then [0] else []
  | n + 1, a, r, c =>
    (List.range 10).flatMap fun e : Nat =>
      let left := r + a * octalDict e - ((c + e) % 10 : Nat)
      if (c + e) % 10 ≤ 7 ∧ left % 8 = 0 then
        (candidates n (125 * a) (left / 8) ((c + e) / 10)).map fun oct => e + 10 * oct
      else []

theorem mem_candidates (n : Nat) (a r : Int) (c oct : Nat) (digits : List Nat)
    (length : digits.length = n + 1) (low : ∀ d ∈ digits, d ≤ 7) (bound : oct < 10 ^ n)
    (sum : Nat.ofDigits 10 digits = oct + c)
    (same : (2 : Int) ^ (3 * n + 2) ∣ r + a * spread n oct - (Nat.ofDigits 8 digits : Nat)) :
    oct ∈ candidates n a r c := by
  induction n generalizing a r c oct digits with
  | zero =>
    obtain ⟨d, rfl⟩ := List.length_eq_one_iff.mp length
    have digit : d ≤ 7 := low d (by simp)
    have none : oct = 0 := by omega
    have last : d = c := by simpa [none] using sum
    have rest : (r - c) % 4 = 0 := by
      apply Int.emod_eq_zero_of_dvd
      simpa [spread, last] using same
    subst last
    simp [candidates, none, rest, digit]
  | succ n ih =>
    obtain ⟨d, rest, rfl⟩ := List.exists_cons_of_length_eq_add_one length
    have digit : d ≤ 7 := low d (by simp)
    rw [Nat.ofDigits_cons] at sum
    have first : (c + oct % 10) % 10 = d := by omega
    have others : Nat.ofDigits 10 rest = oct / 10 + (c + oct % 10) / 10 := by omega
    -- The lowest three bits only depend on the lowest digits.
    have split : r + a * spread (n + 1) oct - (Nat.ofDigits 8 (d :: rest) : Nat) =
        (r + a * octalDict (oct % 10 : Nat) - d) +
          8 * (125 * a * spread n (oct / 10) - (Nat.ofDigits 8 rest : Nat)) := by
      rw [spread, Nat.ofDigits_cons]
      push_cast
      ring
    have modulus : (2 : Int) ^ (3 * (n + 1) + 2) = 8 * 2 ^ (3 * n + 2) := by ring
    rw [split, modulus] at same
    have low_bits : (8 : Int) ∣ r + a * octalDict (oct % 10 : Nat) - d :=
      (Int.dvd_add_left (Int.dvd_mul_right 8 _)).mp ((Int.dvd_mul_right 8 _).trans same)
    obtain ⟨left, here⟩ := low_bits
    rw [here, ← mul_add, Int.mul_dvd_mul_iff_left (by decide)] at same
    -- What is left has one digit less, and the carry of the addition.
    have member := ih (125 * a) left ((c + oct % 10) / 10) (oct / 10) rest
      (by simpa using length) (fun e inside => low e (by simp [inside]))
      (by rw [pow_succ] at bound; omega) others (by rwa [add_sub_assoc])
    rw [candidates, List.mem_flatMap]
    refine ⟨oct % 10, List.mem_range.mpr (by omega), ?_⟩
    dsimp only
    rw [first, here, Int.mul_ediv_cancel_left _ (by decide), if_pos ⟨digit, by simp⟩]
    exact List.mem_map.mpr ⟨oct / 10, member, by omega⟩

theorem candidates_small : ∀ k < 24, ∀ oct ∈ candidates 10 1 0 (k * 2 ^ 32), oct < 2 ^ 31 →
    k = 0 ∧ (oct = 0 ∨ oct = 1 ∨ oct = 2000000000 ∨ oct = 2000000001) := by
  decide +kernel

/-! ## Agreement -/

/-- The digits are those of the value. -/
theorem digits_unique {digits digits' : List Nat} (length : digits.length = digits'.length)
    (low : ∀ d ∈ digits, d ≤ 7) (low' : ∀ d ∈ digits', d ≤ 7)
    (same : Nat.ofDigits 8 digits = Nat.ofDigits 8 digits') : digits = digits' := by
  apply Nat.ofDigits_inj_of_len_eq (show 1 < 8 by decide) length _ _ same
  · intro d member
    have := low d member
    omega
  · intro d member
    have := low' d member
    omega

/-- Where the low 32 bits of the two readings agree, the field is one of four. -/
theorem reading_small (digits : List Nat) (length : digits.length = 11)
    (low : ∀ d ∈ digits, d ≤ 7) (small : Nat.ofDigits 8 digits < 2 ^ 31)
    (same : toBinaryLoop 10 (wrapInt (Nat.ofDigits 10 digits : Nat)) 1 0 % 2 ^ 32 =
      (Nat.ofDigits 8 digits : Nat) % 2 ^ 32) :
    Nat.ofDigits 10 digits = 0 ∨ Nat.ofDigits 10 digits = 1 ∨
      Nat.ofDigits 10 digits = 2000000000 ∨ Nat.ofDigits 10 digits = 2000000001 := by
  have below : Nat.ofDigits 10 digits < 10 ^ 11 := by
    rw [← length]
    apply Nat.ofDigits_lt_base_pow_length (by decide)
    intro d member
    have := low d member
    omega
  -- The decimal reading is an `int`: it is a number below 2^31, or negative.
  by_cases positive : 0 ≤ wrapInt (Nat.ofDigits 10 digits : Nat)
  · obtain ⟨oct, value⟩ := Int.eq_ofNat_of_zero_le positive
    have wrapped := wrapInt_emod (Nat.ofDigits 10 digits : Nat)
    have bound : oct < 2 ^ 31 := by
      have := Int.bmod_lt (x := (Nat.ofDigits 10 digits : Nat)) (show 0 < 2 ^ 32 by decide)
      unfold wrapInt at value
      omega
    rw [value] at wrapped same
    -- The reading differs from the digits by a multiple of 2^32, and by 23 of them at most.
    have sum : Nat.ofDigits 10 digits =
        oct + Nat.ofDigits 10 digits / 2 ^ 32 * 2 ^ 32 := by omega
    have member := mem_candidates 10 1 0 (Nat.ofDigits 10 digits / 2 ^ 32 * 2 ^ 32) oct digits length
      low (by omega) sum (by
        rw [toBinaryLoop_emod] at same
        apply Int.dvd_of_emod_eq_zero
        rw [zero_add] at same ⊢
        exact Int.emod_eq_emod_iff_emod_sub_eq_zero.mp same)
    obtain ⟨none, four⟩ := candidates_small _ (by omega) oct member bound
    rw [none, Nat.zero_mul, Nat.add_zero] at sum
    rwa [sum]
  · rw [toBinaryLoop_negative _ _ _ _ (by omega)] at same
    -- A negative reading gives 0, which only eleven zeros say.
    have zero : digits = List.replicate 11 0 := by
      apply digits_unique
      · simp [length]
      · exact low
      · simp
      · rw [Nat.ofDigits_replicate_zero]
        omega
    left
    rw [zero]
    rfl

/-- In a number of octal digits only the eight entries are read. -/
theorem toBinaryLoopIn_low {dict : Int → Int} (table : HoldsDict dict) (n oct : Nat)
    (low : ∀ j < n, oct / 10 ^ j % 10 < 8) (i bin : Int) :
    toBinaryLoopIn dict n oct i bin = toBinaryLoop n oct i bin := by
  induction n generalizing oct i bin with
  | zero => rfl
  | succ n ih =>
    have digit : (oct : Int).tmod 10 = (oct % 10 : Nat) := rfl
    have others : (oct : Int).tdiv 10 = (oct / 10 : Nat) := rfl
    have first : oct % 10 < 8 := by simpa using low 0 (by omega)
    have rest : ∀ j < n, oct / 10 / 10 ^ j % 10 < 8 := by
      intro j below
      rw [Nat.div_div_eq_div_mul, ← pow_succ']
      exact low (j + 1) (by omega)
    rw [toBinaryLoopIn, toBinaryLoop, digit, others, table _ (by omega) (by omega)]
    simp only [ih _ rest]

theorem cString_bytes (bytes : Nat → UInt8) (i limit : Nat) :
    cString bytes i limit =
      (List.range (cString bytes i limit).length).map fun j => bytes (i + j) := by
  induction limit generalizing i with
  | zero => rfl
  | succ limit ih =>
    by_cases zero : bytes i = 0
    · simp [cString, zero]
    · have rest := ih (i + 1)
      rw [cString, if_neg zero, List.length_cons, List.range_succ_eq_map, List.map_cons,
        List.map_map]
      nth_rewrite 1 [rest]
      congr 1
      apply List.map_congr_left
      intro j _
      exact congrArg bytes (by simp; omega)

theorem TarHeader.WellFormed.digits_eq (wf : h.WellFormed) : TarHeader.digits h = h.size := by
  have bytes := cString_bytes h.bytes 124 12
  change h.size = (List.range h.size.length).map _ at bytes
  rw [bytes, wf.length]
  rfl

/-- `getsize` reads every such field as it is meant. -/
theorem TarHeader.WellFormed.getsize (wf : h.WellFormed) (small : h.octalSize < 2 ^ 31) :
    h.getsize = h.octalSize := by
  have value : h.dataSize = h.octalSize := by
    rw [TarHeader.dataSize, wf.digits_eq, TarHeader.octalSize]
  have sized : h.Sized := by
    constructor
    · rw [wf.digits_eq]
      exact wf.digits
    · rwa [value]
  rw [sized.getsize, value]

/-- What `toBinaryFile` makes of a field of given digits, with a decimal reading that fits. -/
theorem TarHeader.WellFormed.toBinaryFileIn (wf : h.WellFormed) {dict : Int → Int}
    (table : HoldsDict dict) (digits : List Nat) (length : digits.length = 11)
    (low : ∀ d ∈ digits, d ≤ 7) (value : h.octalSize = Nat.ofDigits 8 digits)
    (fits : Nat.ofDigits 10 digits < 2 ^ 31)
    (entries : ∀ j < 10, Nat.ofDigits 10 digits / 10 ^ j % 10 < 8) :
    toBinaryFileIn dict h.size =
      (toBinaryLoop 10 (Nat.ofDigits 10 digits : Nat) 1 0 % 2 ^ 64).toNat := by
  have same : fieldDigits h.size = digits := by
    apply digits_unique
    · simp [fieldDigits, wf.length, length]
    · exact fieldDigits_low wf.digits
    · exact low
    · rw [← value]
      exact (foldl_digits 8 h.size).symm
  unfold LateOS.toBinaryFileIn
  rw [foldl_decimal wf.digits, same, wrapInt_small fits]
  simp only [toBinaryLoopIn_low table 10 _ entries]

/-- For a size field of eleven octal digits with a value below 2^31, `toBinaryFile` and `getsize`
both give that value exactly when it is one of the four on which the table and the factor 1000 do
no harm. -/
theorem decoders_agree_iff (h : TarHeader) (wf : h.WellFormed) (small : h.octalSize < 2 ^ 31) :
    h.DecodersAgree ↔
      h.octalSize = 0 ∨ h.octalSize = 1 ∨ h.octalSize = 2 ^ 28 ∨ h.octalSize = 2 ^ 28 + 1 := by
  have length : (fieldDigits h.size).length = 11 := by simp [fieldDigits, wf.length]
  have low := fieldDigits_low wf.digits
  have value : h.octalSize = Nat.ofDigits 8 (fieldDigits h.size) := foldl_digits 8 h.size
  have decimal := foldl_decimal wf.digits
  have agree : h.DecodersAgree ↔
      ∀ dict, HoldsDict dict → toBinaryFileIn dict h.size = h.octalSize := by
    rw [TarHeader.DecodersAgree, wf.getsize small, and_iff_left rfl]
  rw [agree]
  constructor
  · intro all
    -- One table is enough to find the four fields.
    have own := all octalDict fun _ _ _ => rfl
    simp only [toBinaryFileIn, decimal, toBinaryLoopIn_octalDict] at own
    have four := reading_small _ length low (by rwa [← value]) (by omega)
    rcases four with reads | reads | reads | reads <;> rw [reads] at own
    · exact Or.inl own.symm
    · exact Or.inr (Or.inl own.symm)
    · exact Or.inr (Or.inr (Or.inl own.symm))
    · exact Or.inr (Or.inr (Or.inr own.symm))
  · intro four dict table
    have reads := wf.toBinaryFileIn table
    rcases four with value | value | value | value
    · rw [value]
      exact reads (List.replicate 11 0) rfl (by decide) value (by decide) (by decide)
    · rw [value]
      exact reads (1 :: List.replicate 10 0) rfl (by decide) value (by decide) (by decide)
    · rw [value]
      exact reads (List.replicate 9 0 ++ [2, 0]) rfl (by decide) (value.trans (by decide))
        (by decide) (by decide)
    · rw [value]
      exact reads (1 :: List.replicate 8 0 ++ [2, 0]) rfl (by decide) (value.trans (by decide))
        (by decide) (by decide)

/-- A member of one byte. -/
def oneByte : TarHeader where
  addr := 0
  memory k := if 124 ≤ k ∧ k < 134 then 48 else if k = 134 then 49 else 0

theorem decoders_agree_on_one : oneByte.octalSize = 1 ∧
    (oneByte.DecodersAgree ↔ oneByte.octalSize = 0 ∨ oneByte.octalSize = 1 ∨
      oneByte.octalSize = 2 ^ 28 ∨ oneByte.octalSize = 2 ^ 28 + 1) :=
  ⟨by decide +kernel, decoders_agree_iff oneByte ⟨by decide +kernel, by decide +kernel⟩
    (by decide +kernel)⟩

/-- A member of two bytes is opened with the size 10. -/
theorem two_bytes_read_as_ten :
    ¬∀ h : TarHeader, h.WellFormed → h.octalSize < 2 ^ 31 → h.DecodersAgree := by
  intro all
  have agree := all small small_wellFormed (by decide +kernel)
  have own := agree.1 octalDict fun _ _ _ => rfl
  rw [toBinaryFileIn_octalDict, agree.2] at own
  revert own
  decide +kernel

end LateOS
