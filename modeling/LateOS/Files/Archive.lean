import Mathlib.Tactic.Ring
import LateOS.Files.Reading

/-!
# The archive

`init_tarfs` on an archive of the ustar format, and the two lookups in the table of headers that
it leaves behind. Addresses are natural numbers. The table is the list of the headers stored in it;
a list that ends stands for the NULL behind them.
-/
namespace LateOS

/-! ## The scan -/

/-- The loop of `getsize`, from the last digit to the first. -/
def getsizeLoop : List UInt8 → Int → Int → Int
  | [], size, _ => size
  | c :: rest, size, count =>
    getsizeLoop rest (wrapInt (size + wrapInt ((c.toBitVec.toInt - 48) * count)))
      (wrapInt (count * 8))

namespace TarHeader

variable (h : TarHeader)

/-- The first eleven bytes of the size field. -/
def digits : List UInt8 := (List.range 11).map fun j => h.bytes (124 + j)

def getsize : Nat := (getsizeLoop h.digits.reverse 0 1 % 2 ^ 32).toNat

/-- The product is one of `unsigned int`, the sum one of a pointer. -/
def moveTarfsHeader (tarfsAddr : Nat) : Nat :=
  let size := h.getsize
  let tarfsAddr := tarfsAddr + (size / 512 + 1) * 512 % 2 ^ 32
  if size % 512 ≠ 0 then tarfsAddr + 512 else tarfsAddr

end TarHeader

/-- The loop of `init_tarfs`, with `free` places left in the array `headers`. It is undefined when
it stores behind the array. -/
def initLoop (memory : Nat → UInt8) (stop : Nat) : Nat → Nat → Option (List TarHeader)
  | 0, tarfsAddr => if tarfsAddr < stop then none else some []
  | free + 1, tarfsAddr =>
    if tarfsAddr < stop then
      (initLoop memory stop free (TarHeader.moveTarfsHeader ⟨memory, tarfsAddr⟩ tarfsAddr)).map
        (⟨memory, tarfsAddr⟩ :: ·)
    else some []

/-- `init_tarfs`, between `_binary_tarfs_start` and `_binary_tarfs_end`. -/
def initTarfs (memory : Nat → UInt8) (start stop : Nat) : Option (List TarHeader) :=
  initLoop memory stop 200 start

/-- `get_file_address`; no address stands for -1. -/
def TarHeader.getFileAddress (headers : List TarHeader) (filename : List UInt8) : Option Nat :=
  (headers.find? fun h => h.name = filename).map TarHeader.addr

/-! ## The format -/

namespace TarHeader

variable (h : TarHeader)

/-- The name of the member, by the format: the field need not have a terminator. -/
def entryName : List UInt8 := cString h.bytes 0 100

/-- The size of the member, by the format. -/
def dataSize : Nat := h.digits.foldl (fun n c => 8 * n + (c.toNat - 48)) 0

/-- From this header to the next: the header, and the data in whole blocks. -/
def span : Nat := 512 + (h.dataSize + 511) / 512 * 512

/-- A size field of eleven octal digits, with a value below 2^31. -/
structure Sized : Prop where
  octal : ∀ c ∈ h.digits, 48 ≤ c ∧ c ≤ 55
  small : h.dataSize < 2 ^ 31

/-- The string at `name` ends in the field, or right behind it. -/
def Terminated : Prop := ∃ k ≤ 100, h.bytes k = 0

end TarHeader

/-- From `addr` on lie the headers of `members`, each with its data, and then zero blocks up to
`stop`. -/
inductive Ustar (memory : Nat → UInt8) (stop : Nat) : Nat → List TarHeader → Prop
  | close {addr blocks : Nat} (tail : stop = addr + 512 * (blocks + 1))
      (zero : ∀ k, addr ≤ k → k < stop → memory k = 0) : Ustar memory stop addr []
  | member {addr : Nat} {members : List TarHeader} (sized : TarHeader.Sized ⟨memory, addr⟩)
      (rest : Ustar memory stop (addr + TarHeader.span ⟨memory, addr⟩) members) :
      Ustar memory stop addr (⟨memory, addr⟩ :: members)

variable {memory : Nat → UInt8} {start stop addr free : Nat} {members headers : List TarHeader}
  {h : TarHeader}

/-! ## Octal numbers -/

/-- The value of a number, last digit first; the digits may be any bytes. -/
def digitsValue : List UInt8 → Int
  | [] => 0
  | c :: rest => c.toBitVec.toInt - 48 + 8 * digitsValue rest

theorem wrapInt_emod (n : Int) : wrapInt n % 2 ^ 32 = n % 2 ^ 32 := Int.bmod_emod

/-- The loop wraps around at each step, and so comes to the value modulo 2^32. -/
theorem getsizeLoop_emod (digits : List UInt8) (size count : Int) :
    getsizeLoop digits size count % 2 ^ 32 = (size + count * digitsValue digits) % 2 ^ 32 := by
  induction digits generalizing size count with
  | nil => simp [getsizeLoop, digitsValue]
  | cons c rest ih =>
    have digit := wrapInt_emod ((c.toBitVec.toInt - 48) * count)
    have sum := wrapInt_emod (size + wrapInt ((c.toBitVec.toInt - 48) * count))
    have scale : (wrapInt (count * 8) * digitsValue rest) % 2 ^ 32 =
        (count * 8 * digitsValue rest) % 2 ^ 32 := by
      rw [Int.mul_emod, wrapInt_emod, ← Int.mul_emod]
    have value : size + count * digitsValue (c :: rest) =
        size + (c.toBitVec.toInt - 48) * count + count * 8 * digitsValue rest := by
      rw [digitsValue]
      ring
    rw [getsizeLoop, ih, value]
    omega

theorem digitsValue_append (digits : List UInt8) (c : UInt8) :
    digitsValue (digits ++ [c]) =
      digitsValue digits + 8 ^ digits.length * (c.toBitVec.toInt - 48) := by
  induction digits with
  | nil => simp [digitsValue]
  | cons d rest ih =>
    rw [List.cons_append, digitsValue, digitsValue, ih, List.length_cons, pow_succ]
    ring

theorem octal_toInt {c : UInt8} (octal : 48 ≤ c ∧ c ≤ 55) :
    c.toBitVec.toInt - 48 = ((c.toNat - 48 : Nat) : Int) := by
  have lower : 48 ≤ c.toNat := UInt8.le_iff_toNat_le.mp octal.1
  have upper : c.toNat ≤ 55 := UInt8.le_iff_toNat_le.mp octal.2
  rw [BitVec.toInt_eq_toNat_of_lt]
  · change ((c.toNat : Int)) - 48 = _
    omega
  · change 2 * c.toNat < 2 ^ 8
    omega

theorem digitsValue_octal (digits : List UInt8) (octal : ∀ c ∈ digits, 48 ≤ c ∧ c ≤ 55) :
    digitsValue digits.reverse =
      ((digits.foldl (fun n c => 8 * n + (c.toNat - 48)) 0 : Nat) : Int) := by
  have general (n : Nat) : digitsValue digits.reverse + 8 ^ digits.length * (n : Int) =
      ((digits.foldl (fun n c => 8 * n + (c.toNat - 48)) n : Nat) : Int) := by
    induction digits generalizing n with
    | nil => simp [digitsValue]
    | cons c rest ih =>
      rw [List.foldl_cons, ← ih (fun c member => octal c (List.mem_cons_of_mem _ member)),
        List.reverse_cons, digitsValue_append, List.length_reverse, List.length_cons, pow_succ,
        octal_toInt (octal c List.mem_cons_self)]
      push_cast
      ring
  simpa using general 0

theorem TarHeader.Sized.getsize (sized : h.Sized) : h.getsize = h.dataSize := by
  have small := sized.small
  unfold TarHeader.getsize
  rw [getsizeLoop_emod, digitsValue_octal _ sized.octal]
  change ((0 + 1 * (h.dataSize : Int)) % 2 ^ 32).toNat = h.dataSize
  omega

theorem TarHeader.Sized.move (sized : h.Sized) :
    h.moveTarfsHeader addr = addr + h.span := by
  have small := sized.small
  unfold moveTarfsHeader span
  rw [sized.getsize]
  dsimp only
  split <;> omega

/-! ## Strings -/

section

variable {bytes : Nat → UInt8} {i n limit : Nat}

theorem cString_length (bytes : Nat → UInt8) (i limit : Nat) :
    (cString bytes i limit).length ≤ limit := by
  induction limit generalizing i with
  | zero => exact Nat.le_refl 0
  | succ limit ih =>
    rw [cString]
    split
    · exact Nat.zero_le _
    · exact Nat.succ_le_succ (ih (i := i + 1))

/-- A terminator among the first `n` bytes, or right behind them, ends the string. -/
theorem cString_ended (ended : ∃ k ≤ n, bytes (i + k) = 0) (bound : n ≤ limit) :
    cString bytes i limit = cString bytes i n := by
  induction n generalizing i limit with
  | zero =>
    obtain ⟨k, none, zero⟩ := ended
    rw [Nat.le_zero.mp none, Nat.add_zero] at zero
    cases limit with
    | zero => rfl
    | succ limit => simp [cString, zero]
  | succ n ih =>
    obtain ⟨limit, rfl⟩ : ∃ l, limit = l + 1 := ⟨limit - 1, by omega⟩
    rw [cString, cString]
    split
    · rfl
    next other =>
      obtain ⟨k, inside, zero⟩ := ended
      cases k with
      | zero => exact absurd zero other
      | succ k =>
        congr 1
        exact ih ⟨k, by omega, by rwa [Nat.add_assoc, Nat.add_comm 1 k]⟩ (by omega)

/-- Without one, the string is longer. -/
theorem cString_long (none : ∀ k ≤ n, bytes (i + k) ≠ 0) (bound : n < limit) :
    n < (cString bytes i limit).length := by
  induction n generalizing i limit with
  | zero =>
    obtain ⟨limit, rfl⟩ : ∃ l, limit = l + 1 := ⟨limit - 1, by omega⟩
    have first : bytes i ≠ 0 := none 0 (Nat.le_refl 0)
    rw [cString, if_neg first, List.length_cons]
    exact Nat.succ_pos _
  | succ n ih =>
    obtain ⟨limit, rfl⟩ : ∃ l, limit = l + 1 := ⟨limit - 1, by omega⟩
    have first : bytes i ≠ 0 := none 0 (Nat.zero_le _)
    rw [cString, if_neg first, List.length_cons]
    have later : ∀ k ≤ n, bytes (i + 1 + k) ≠ 0 := fun k inside => by
      have apart := none (k + 1) (by omega)
      rwa [Nat.add_assoc, Nat.add_comm 1 k]
    exact Nat.succ_lt_succ (ih later (by omega))

end

theorem TarHeader.Terminated.name (ended : h.Terminated) : h.name = h.entryName := by
  obtain ⟨k, inside, zero⟩ := ended
  exact cString_ended ⟨k, inside, by rwa [Nat.zero_add]⟩ (by decide)

theorem TarHeader.name_long (runs : ¬h.Terminated) : 100 < h.name.length := by
  refine cString_long (fun k inside => ?_) (by decide)
  rw [Nat.zero_add]
  exact fun zero => runs ⟨k, inside, zero⟩

theorem TarHeader.entryName_length (h : TarHeader) : h.entryName.length ≤ 100 :=
  cString_length h.bytes 0 100

/-! ## The zero blocks -/

/-- A zero block that is taken for a header. -/
structure TarHeader.Blank (h : TarHeader) : Prop where
  zero : ∀ k < 512, h.bytes k = 0

theorem TarHeader.Blank.name (blank : h.Blank) : h.name = [] := by
  have first := blank.zero 0 (by decide)
  rw [TarHeader.name, cString, if_pos first]

/-- The digits of a zero block are 48 too small each, which comes to more than a gibibyte. -/
theorem TarHeader.Blank.move (blank : h.Blank) :
    h.moveTarfsHeader addr = addr + 512 * 2396747 := by
  have digits : h.digits = List.replicate 11 0 := by
    unfold TarHeader.digits
    rw [List.map_congr_left (g := fun _ => 0) fun j member => ?_]
    · rfl
    · have below := List.mem_range.mp member
      exact blank.zero _ (by omega)
  have size : h.getsize = 1227133520 := by
    unfold TarHeader.getsize
    rw [digits]
    decide
  unfold moveTarfsHeader
  rw [size]
  rfl

theorem blank_of_zero {blocks : Nat} (tail : stop = addr + 512 * (blocks + 1))
    (zero : ∀ k, addr ≤ k → k < stop → memory k = 0) : TarHeader.Blank ⟨memory, addr⟩ :=
  ⟨fun k below => zero (addr + k) (by omega) (by omega)⟩

/-- In a tail of zero blocks the scan only finds zero blocks. -/
theorem initLoop_zero {blocks : Nat} (tail : stop = addr + 512 * blocks)
    (zero : ∀ k, addr ≤ k → k < stop → memory k = 0)
    (loaded : initLoop memory stop free addr = some headers) : ∀ h ∈ headers, h.Blank := by
  induction free generalizing addr blocks headers with
  | zero =>
    rw [initLoop] at loaded
    split at loaded
    · cases loaded
    · cases loaded
      nofun
  | succ free ih =>
    rw [initLoop] at loaded
    split at loaded
    next below =>
      obtain ⟨blocks, rfl⟩ : ∃ b, blocks = b + 1 := ⟨blocks - 1, by omega⟩
      have blank := blank_of_zero tail zero
      obtain ⟨rest, later, rfl⟩ := Option.map_eq_some_iff.mp loaded
      rw [blank.move] at later
      intro h member
      rcases List.mem_cons.mp member with rfl | member
      · exact blank
      · -- A block that lies past `stop` ends the scan.
        by_cases inside : addr + 512 * 2396747 < stop
        · have left : stop = addr + 512 * 2396747 + 512 * (blocks + 1 - 2396747) := by omega
          refine ih left (fun k above => ?_) later h member
          exact zero k (by omega)
        · have none : rest = [] := by
            cases free <;> simp [initLoop, inside] at later <;> exact later
          rw [none] at member
          cases member
    · cases loaded
      nofun

/-! ## The table -/

theorem Ustar.lt (archive : Ustar memory stop addr members) : addr < stop := by
  induction archive with
  | close tail _ => omega
  | member _ _ ih => omega

/-- The table is that of the members, and behind it one header or more for zero blocks. -/
theorem Ustar.table (archive : Ustar memory stop addr members)
    (loaded : initLoop memory stop free addr = some headers) :
    ∃ blanks, headers = members ++ blanks ∧ blanks ≠ [] ∧ ∀ h ∈ blanks, h.Blank := by
  induction archive generalizing free headers with
  | @close addr blocks tail zero =>
    refine ⟨headers, rfl, ?_, initLoop_zero tail zero loaded⟩
    rintro rfl
    have below : addr < stop := by omega
    cases free <;> simp [initLoop, below] at loaded
  | @member addr members sized rest ih =>
    have below := rest.lt
    have first : addr < stop := by omega
    cases free with
    | zero => simp [initLoop, first] at loaded
    | succ free =>
      rw [initLoop, if_pos first] at loaded
      obtain ⟨later, walked, rfl⟩ := Option.map_eq_some_iff.mp loaded
      rw [sized.move] at walked
      obtain ⟨blanks, rfl, some, all⟩ := ih walked
      exact ⟨blanks, rfl, some, all⟩

/-- The scan of an archive of less than a gibibyte ends behind its first zero block. -/
theorem Ustar.scanned (archive : Ustar memory stop addr members) (free : Nat)
    (few : members.length < free) (small : stop < addr + 2 ^ 30) :
    ∃ phantom, initLoop memory stop free addr = some (members ++ [phantom]) ∧ phantom.Blank := by
  induction archive generalizing free with
  | @close addr blocks tail zero =>
    have blank := blank_of_zero tail zero
    have below : addr < stop := by omega
    have past : ¬addr + 512 * 2396747 < stop := by omega
    obtain ⟨free, rfl⟩ : ∃ f, free = f + 1 := ⟨free - 1, by omega⟩
    refine ⟨⟨memory, addr⟩, ?_, blank⟩
    rw [initLoop, if_pos below, blank.move]
    cases free <;> simp [initLoop, past]
  | @member addr members sized rest ih =>
    have below := rest.lt
    have first : addr < stop := by omega
    obtain ⟨free, rfl⟩ : ∃ f, free = f + 1 := ⟨free - 1, by simp at few; omega⟩
    rw [List.length_cons] at few
    obtain ⟨phantom, later, blank⟩ := ih free (by omega) (by omega)
    refine ⟨phantom, ?_, blank⟩
    rw [initLoop, if_pos first, sized.move, later]
    rfl

end LateOS
