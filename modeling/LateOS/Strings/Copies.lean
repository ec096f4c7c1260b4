import LateOS.Files.Descriptor
import LateOS.Lib.Terminated

/-!
# Strings in memory

The functions of `sys/string.c` and `libc/string_sys.c`, which are the same in both, on memory by
bytes. Strings are shorter than 2^31 bytes, so that an `int` counts their characters.
-/
namespace LateOS

open Lib

abbrev Bytes := Nat → UInt8

/-- The string at an address. -/
abbrev StringAt (mem : Bytes) (a : Nat) (s : List UInt8) : Prop := Terminated 0 mem a s

namespace Strings

def strlenLoop : Nat → Bytes → Nat → Int → Option Int
  | 0, _, _, _ => none
  | fuel + 1, mem, string, length =>
    if mem string ≠ 0 then strlenLoop fuel mem (string + 1) (length + 1) else some length

def strlen (fuel : Nat) (mem : Bytes) (string : Nat) : Option Int := strlenLoop fuel mem string 0

def strcpy : Nat → Bytes → Nat → Nat → Option Bytes
  | 0, _, _, _ => none
  | fuel + 1, mem, string2, string1 =>
    if mem string1 ≠ 0 then
      strcpy fuel (Function.update mem string2 (mem string1)) (string2 + 1) (string1 + 1)
    else some (Function.update mem string2 0)

/-- The first loop of `strcat`. -/
def strcatEnd : Nat → Bytes → Nat → Option Nat
  | 0, _, _ => none
  | fuel + 1, mem, string1 =>
    if mem string1 ≠ 0 then strcatEnd fuel mem (string1 + 1) else some string1

/-- The second loop, which leaves `string1` at the terminator. -/
def strcatLoop : Nat → Bytes → Nat → Nat → Option (Bytes × Nat)
  | 0, _, _, _ => none
  | fuel + 1, mem, string1, string2 =>
    if mem string2 ≠ 0 then
      strcatLoop fuel (Function.update mem string1 (mem string2)) (string1 + 1) (string2 + 1)
    else some (Function.update mem string1 0, string1)

def strcat (fuel : Nat) (mem : Bytes) (string1 string2 : Nat) : Option (Bytes × Nat) := do
  strcatLoop fuel mem (← strcatEnd fuel mem string1) string2

variable {mem mem' : Bytes} {a b dst src fuel : Nat} {s t : List UInt8}

theorem strlenLoop_eq (string : StringAt mem a s) (enough : s.length < fuel) (length : Int) :
    strlenLoop fuel mem a length = some (length + s.length) := by
  induction s generalizing a fuel length with
  | nil =>
    obtain ⟨fuel, rfl⟩ : ∃ more, fuel = more + 1 := ⟨fuel - 1, by omega⟩
    rw [strlenLoop, Terminated.nil_iff.mp string, if_neg (by simp)]
    simp
  | cons c s ih =>
    obtain ⟨fuel, rfl⟩ : ∃ more, fuel = more + 1 := ⟨fuel - 1, by omega⟩
    obtain ⟨other, here, rest⟩ := Terminated.cons_iff.mp string
    rw [List.length_cons] at enough
    rw [strlenLoop, here, if_pos other.symm, ih rest (by omega)]
    congr 1
    push_cast [List.length_cons]
    omega

theorem strlen_eq (string : StringAt mem a s) (enough : s.length < fuel) :
    strlen fuel mem a = some (s.length : Int) := by
  unfold strlen
  rw [strlenLoop_eq string enough, Int.zero_add]

/-! ## Copying -/

theorem strcpy_eq : strcpy fuel mem dst src = (copyUntil 0 fuel mem dst src).map Prod.fst := by
  induction fuel generalizing mem dst src with
  | zero => rfl
  | succ fuel ih =>
    rw [strcpy, copyUntil, ih]
    by_cases last : mem src = 0
    · rw [if_neg (not_not_intro last), if_pos last]
      rfl
    · rw [if_pos last, if_neg last]

theorem strcatLoop_eq : strcatLoop fuel mem dst src = copyUntil 0 fuel mem dst src := by
  induction fuel generalizing mem dst src with
  | zero => rfl
  | succ fuel ih =>
    rw [strcatLoop, copyUntil, ih]
    by_cases last : mem src = 0
    · rw [if_neg (not_not_intro last), if_pos last]
    · rw [if_pos last, if_neg last]

theorem strcatEnd_eq (string : StringAt mem a s) (enough : s.length < fuel) :
    strcatEnd fuel mem a = some (a + s.length) := by
  induction s generalizing a fuel with
  | nil =>
    obtain ⟨fuel, rfl⟩ : ∃ more, fuel = more + 1 := ⟨fuel - 1, by omega⟩
    rw [strcatEnd, Terminated.nil_iff.mp string, if_neg (by simp)]
    rfl
  | cons c s ih =>
    obtain ⟨fuel, rfl⟩ : ∃ more, fuel = more + 1 := ⟨fuel - 1, by omega⟩
    obtain ⟨other, here, rest⟩ := Terminated.cons_iff.mp string
    rw [List.length_cons] at enough
    rw [strcatEnd, here, if_pos other.symm, ih rest (by omega), Nat.add_assoc, Nat.add_comm 1]
    rfl

theorem strcatEnd_short (string : StringAt mem a s) (short : fuel ≤ s.length) :
    strcatEnd fuel mem a = none := by
  induction fuel generalizing a s with
  | zero => rfl
  | succ fuel ih =>
    cases s with
    | nil => exact absurd short (Nat.not_succ_le_zero fuel)
    | cons c s =>
      obtain ⟨other, here, rest⟩ := Terminated.cons_iff.mp string
      rw [strcatEnd, here, if_pos other.symm]
      exact ih rest (Nat.le_of_succ_le_succ short)

/-- `strcpy` ends, with the string at its new place and nothing else changed, wherever the two
places are, but where the copy begins inside the string or at its terminator. -/
theorem strcpy_spec (string : StringAt mem src s) :
    ((∃ fuel mem', strcpy fuel mem dst src = some mem') ↔
      ¬(src < dst ∧ dst ≤ src + s.length)) ∧
    ∀ fuel mem', strcpy fuel mem dst src = some mem' → mem' = overlay mem dst (s ++ [0]) := by
  simp only [strcpy_eq]
  constructor
  · rw [← copyUntil_iff string]
    constructor
    · rintro ⟨fuel, mem', ended⟩
      obtain ⟨r, ended, -⟩ := Option.map_eq_some_iff.mp ended
      exact ⟨fuel, r, ended⟩
    · rintro ⟨fuel, r, ended⟩
      exact ⟨fuel, r.1, congrArg (Option.map Prod.fst) ended⟩
  · intro fuel mem' ended
    obtain ⟨r, copied, rfl⟩ := Option.map_eq_some_iff.mp ended
    rw [copyUntil_eq_some string copied]

/-- `strcat` ends, for any two strings at any two places, exactly if the end of the first is not
inside the second or at its terminator; so never where a string is appended to itself. Then the
second stands behind the first, and nothing else is changed. -/
theorem strcat_iff (one : StringAt mem dst t) (two : StringAt mem src s) :
    ((∃ fuel r, strcat fuel mem dst src = some r) ↔
      ¬(src < dst + t.length ∧ dst + t.length ≤ src + s.length)) ∧
    ∀ fuel mem' e, strcat fuel mem dst src = some (mem', e) →
      mem' = overlay mem (dst + t.length) (s ++ [0]) ∧ e = dst + t.length + s.length ∧
        StringAt mem' dst (t ++ s) := by
  have unfolded {fuel : Nat} (enough : t.length < fuel) :
      strcat fuel mem dst src = copyUntil 0 fuel mem (dst + t.length) src := by
    unfold strcat
    rw [strcatEnd_eq one enough, Option.bind_eq_bind, Option.bind_some, strcatLoop_eq]
  constructor
  · rw [← copyUntil_iff two]
    constructor
    · rintro ⟨fuel, r, ended⟩
      rcases Nat.lt_or_ge t.length fuel with enough | short
      · exact ⟨fuel, r, (unfolded enough).symm.trans ended⟩
      · unfold strcat at ended
        rw [strcatEnd_short one short] at ended
        cases ended
    · rintro ⟨fuel, r, ended⟩
      refine ⟨max fuel (t.length + 1), r, (unfolded (by omega)).trans ?_⟩
      exact copyUntil_mono ended (Nat.le_max_left _ _)
  · intro fuel mem' e ended
    have enough : t.length < fuel := by
      by_contra short
      unfold strcat at ended
      rw [strcatEnd_short one (by omega)] at ended
      cases ended
    obtain ⟨same, place⟩ := Prod.mk.inj (copyUntil_eq_some two ((unfolded enough).symm.trans ended))
    refine ⟨same, place, Terminated.append one.apart (fun i inside => ?_) ?_⟩
    · rw [same, overlay_outside (.inl (by omega))]
      exact one.cell inside
    · rw [same]
      exact overlay_terminated two.apart

theorem strcat_apart (one : StringAt mem dst t) (two : StringAt mem src s)
    (apart : dst + t.length ≤ src ∨ src + s.length < dst + t.length) (enough : t.length < fuel)
    (enough' : s.length < fuel) : strcat fuel mem dst src =
      some (overlay mem (dst + t.length) (s ++ [0]), dst + t.length + s.length) := by
  rw [strcat, strcatEnd_eq one enough, Option.bind_eq_bind, Option.bind_some, strcatLoop_eq,
    copyUntil_apart two apart enough']

/-! ## Writing -/

/-- What is written of the string at `s`: `kprintf` stops at its terminator, and does not look at
the length that the library's `puts` passes on. -/
def puts : Nat → Bytes → Nat → Option (List UInt8)
  | 0, _, _ => none
  | fuel + 1, mem, allChars =>
    if mem allChars ≠ 0 then (puts fuel mem (allChars + 1)).map (mem allChars :: ·) else some []

theorem puts_eq (string : StringAt mem a s) (enough : s.length < fuel) :
    puts fuel mem a = some s := by
  induction s generalizing a fuel with
  | nil =>
    obtain ⟨fuel, rfl⟩ : ∃ more, fuel = more + 1 := ⟨fuel - 1, by omega⟩
    rw [puts, Terminated.nil_iff.mp string, if_neg (by simp)]
  | cons c s ih =>
    obtain ⟨fuel, rfl⟩ : ∃ more, fuel = more + 1 := ⟨fuel - 1, by omega⟩
    obtain ⟨other, here, rest⟩ := Terminated.cons_iff.mp string
    rw [List.length_cons] at enough
    rw [puts, here, if_pos other.symm, ih rest (by omega)]
    rfl

/-- `bin/` at 0 and `ls` at 10. -/
def binMemory : Bytes := overlay (overlay (fun _ => 7) 0 [98, 105, 110, 47, 0]) 10 [108, 115, 0]

theorem binMemory_strings :
    StringAt binMemory 0 [98, 105, 110, 47] ∧ StringAt binMemory 10 [108, 115] := by
  constructor <;> refine .of_cells (by decide) (by decide) (by decide)

theorem strcat_iff_of_binMemory :
    (∃ fuel r, strcat fuel binMemory 0 10 = some r) ∧
      ¬∃ fuel r, strcat fuel binMemory 0 0 = some r :=
  ⟨(strcat_iff binMemory_strings.1 binMemory_strings.2).1.mpr (by decide), fun ended =>
    absurd ((strcat_iff binMemory_strings.1 binMemory_strings.1).1.mp ended) (by decide)⟩

end Strings

end LateOS
