import LateOS.Strings.Copies
import Mathlib.Order.Lex
import Mathlib.Data.List.Lex

/-!
# Comparing strings in memory

`strcmp`, `starts_with` and `substring`, and the two loops over the archive that use them. On the
strings that lie in memory they are the functions of `LateOS.Files.Descriptor`.
-/
namespace LateOS

open Lib

namespace Strings

/-- A `char`, which is signed. -/
def signed (c : UInt8) : Int := c.toBitVec.toInt

def strcmp : Nat → Bytes → Nat → Nat → Option Int
  | 0, _, _, _ => none
  | fuel + 1, mem, s, t =>
    if mem s = mem t then
      if mem s = 0 then some 0 else strcmp fuel mem (s + 1) (t + 1)
    else some (signed (mem s) - signed (mem t))

def starts_withLoop : Nat → Bytes → Nat → Nat → Int → Option Int
  | 0, _, _, _, _ => none
  | fuel + 1, mem, string1, string2, count =>
    if mem string1 = mem string2 ∧ mem string1 ≠ 0 then
      starts_withLoop fuel mem (string1 + 1) (string2 + 1) (count + 1)
    else some (count - 1)

def starts_with (fuel : Nat) (mem : Bytes) (string1 string2 : Nat) : Option Int :=
  starts_withLoop fuel mem string1 string2 0

def substringLoop : Nat → Bytes → Nat → Int → Int → Option Nat
  | 0, _, _, _, _ => none
  | fuel + 1, mem, string, index, i =>
    if mem string ≠ 0 then
      if i > index then some string else substringLoop fuel mem (string + 1) index (i + 1)
    else some string

def substring (fuel : Nat) (mem : Bytes) (string : Nat) (index : Int) : Option Nat :=
  substringLoop fuel mem string index 0

variable {mem mem' : Bytes} {a b dst src fuel : Nat} {s t : List UInt8} {c d : UInt8}

theorem signed_injective : Function.Injective signed := fun _ _ same =>
  UInt8.toBitVec_inj.mp (BitVec.eq_of_toInt_eq same)

/-- The first characters that differ decide. -/
theorem signed_sub (other : c ≠ d) (l r : List Int) :
    signed c - signed d ≠ 0 ∧ (signed c - signed d < 0 ↔ signed c :: l < signed d :: r) := by
  have differ : signed c ≠ signed d := fun same => other (signed_injective same)
  refine ⟨by omega, ?_⟩
  rw [List.cons_lt_cons_iff]
  constructor
  · intro below
    exact .inl (by omega)
  · rintro (below | ⟨same, -⟩)
    · omega
    · exact absurd same differ

/-- The sign of `strcmp` is the order of the strings with their terminators, by signed characters,
and it is 0 for equal strings. -/
theorem strcmp_spec (one : StringAt mem a s) (two : StringAt mem b t) :
    ∃ r : Int, (∀ fuel > s.length, strcmp fuel mem a b = some r) ∧ (r = 0 ↔ s = t) ∧
      (r < 0 ↔ (s ++ [0]).map signed < (t ++ [0]).map signed) := by
  induction s generalizing a b t with
  | nil =>
    have ended := Terminated.nil_iff.mp one
    cases t with
    | nil =>
      refine ⟨0, fun fuel enough => ?_, by simp, by simp⟩
      obtain ⟨fuel, rfl⟩ : ∃ more, fuel = more + 1 := ⟨fuel - 1, by omega⟩
      rw [strcmp, ended, Terminated.nil_iff.mp two, if_pos rfl, if_pos rfl]
    | cons d t =>
      obtain ⟨other, here, -⟩ := Terminated.cons_iff.mp two
      obtain ⟨nonzero, order⟩ := signed_sub other [] ((t ++ [0]).map signed)
      refine ⟨signed 0 - signed d, fun fuel enough => ?_, by simp [nonzero], order⟩
      obtain ⟨fuel, rfl⟩ : ∃ more, fuel = more + 1 := ⟨fuel - 1, by omega⟩
      rw [strcmp, ended, here, if_neg other]
  | cons c s ih =>
    obtain ⟨apart, first, rest⟩ := Terminated.cons_iff.mp one
    cases t with
    | nil =>
      obtain ⟨nonzero, order⟩ := signed_sub apart.symm ((s ++ [0]).map signed) []
      refine ⟨signed c - signed 0, fun fuel enough => ?_, by simp [nonzero], order⟩
      obtain ⟨fuel, rfl⟩ : ∃ more, fuel = more + 1 := ⟨fuel - 1, by omega⟩
      rw [strcmp, Terminated.nil_iff.mp two, first, if_neg apart.symm]
    | cons d t =>
      obtain ⟨-, here, back⟩ := Terminated.cons_iff.mp two
      by_cases same : c = d
      · subst same
        obtain ⟨r, runs, zero, below⟩ := ih rest back
        refine ⟨r, fun fuel enough => ?_, ?_, ?_⟩
        · obtain ⟨fuel, rfl⟩ : ∃ more, fuel = more + 1 := ⟨fuel - 1, by omega⟩
          rw [List.length_cons] at enough
          rw [strcmp, first, here, if_pos rfl, if_neg apart.symm]
          exact runs fuel (by omega)
        · rw [zero, List.cons.injEq, eq_self, true_and]
        · rw [below]
          simp
      · obtain ⟨nonzero, order⟩ :=
          signed_sub same ((s ++ [0]).map signed) ((t ++ [0]).map signed)
        refine ⟨signed c - signed d, fun fuel enough => ?_, by simp [nonzero, same], order⟩
        obtain ⟨fuel, rfl⟩ : ∃ more, fuel = more + 1 := ⟨fuel - 1, by omega⟩
        rw [strcmp, first, here, if_neg same]

/-! ## Prefixes -/

theorem starts_with_eq (one : StringAt mem a s) (two : StringAt mem b t)
    (enough : s.length < fuel) : starts_with fuel mem a b = some (startsWith s t) := by
  suffices loop : ∀ count, starts_withLoop fuel mem a b count = some (count + startsWith s t) by
    have start := loop 0
    rwa [Int.zero_add] at start
  intro count
  induction s generalizing a b t fuel count with
  | nil =>
    obtain ⟨fuel, rfl⟩ : ∃ more, fuel = more + 1 := ⟨fuel - 1, by omega⟩
    have none : startsWith [] t = -1 := by cases t <;> rfl
    rw [starts_withLoop, if_neg fun both => both.2 (Terminated.nil_iff.mp one), none]
    rfl
  | cons c s ih =>
    obtain ⟨fuel, rfl⟩ : ∃ more, fuel = more + 1 := ⟨fuel - 1, by omega⟩
    obtain ⟨apart, first, rest⟩ := Terminated.cons_iff.mp one
    rw [List.length_cons] at enough
    cases t with
    | nil =>
      have ended := Terminated.nil_iff.mp two
      rw [starts_withLoop, if_neg fun both => both.2 (both.1.trans ended)]
      rfl
    | cons d t =>
      obtain ⟨-, here, back⟩ := Terminated.cons_iff.mp two
      rw [starts_withLoop, first, here, startsWith]
      by_cases same : c = d
      · rw [if_pos ⟨same, apart.symm⟩, if_pos same, ih rest back (by omega)]
        congr 1
        omega
      · rw [if_neg fun both => same both.1, if_neg same]
        rfl

/-- The pointer that `substring` returns is to the string without its first characters. -/
theorem substring_eq (string : StringAt mem a s) (enough : s.length < fuel) (index : Int) :
    ∃ n, n ≤ s.length ∧ substring fuel mem a index = some (a + n) ∧
      LateOS.substring s index = s.drop n := by
  suffices loop : ∀ i : Nat, ∃ n, n ≤ s.length ∧
      substringLoop fuel mem a index i = some (a + n) ∧
        s.drop (index + 1 - i).toNat = s.drop n by
    obtain ⟨n, within, runs, same⟩ := loop 0
    exact ⟨n, within, runs, by simpa [LateOS.substring] using same⟩
  intro i
  induction s generalizing a fuel i with
  | nil =>
    obtain ⟨fuel, rfl⟩ : ∃ more, fuel = more + 1 := ⟨fuel - 1, by omega⟩
    refine ⟨0, Nat.le_refl 0, ?_, by simp⟩
    rw [substringLoop, if_neg (not_not_intro (Terminated.nil_iff.mp string))]
    rfl
  | cons c s ih =>
    obtain ⟨fuel, rfl⟩ : ∃ more, fuel = more + 1 := ⟨fuel - 1, by omega⟩
    obtain ⟨apart, first, rest⟩ := Terminated.cons_iff.mp string
    rw [List.length_cons] at enough
    rw [substringLoop, first, if_pos apart.symm]
    by_cases past : (i : Int) > index
    · have zero : (index + 1 - i).toNat = 0 := by omega
      exact ⟨0, Nat.zero_le _, if_pos past, by rw [zero]⟩
    · obtain ⟨n, within, runs, same⟩ := ih rest (Nat.lt_of_succ_lt_succ enough) (i + 1)
      have next : (index + 1 - i).toNat = (index + 1 - ((i + 1 : Nat) : Int)).toNat + 1 := by
        push_cast
        omega
      refine ⟨n + 1, Nat.succ_le_succ within, ?_, ?_⟩
      · rw [if_neg past]
        refine runs.trans ?_
        rw [Nat.add_assoc, Nat.add_comm 1 n]
      · rw [next, List.drop_succ_cons, List.drop_succ_cons, same]

/-! ## The archive -/

/-- The loop of `checkFile`, over the addresses of headers, of which the name is the first field. -/
def checkFileLoop (fuel : Nat) (mem : Bytes) (path : Nat) : List Nat → Nat → Option (Option Nat)
  | [], _ => some none
  | header :: headers, fileID => do
    if (← strcmp fuel mem header path) = 0 then some (some fileID)
    else checkFileLoop fuel mem path headers (fileID + 1)

def checkFile (fuel : Nat) (mem : Bytes) (headers : List Nat) (path : Nat) :
    Option (Option Nat) :=
  checkFileLoop fuel mem path (headers.take 32) 0

/-- The loop of `readDirTarfsFile`: the entry reached, and memory if it stores a name at `buf`.
`slash` is the address of `"/"`. -/
def readDirLoop (fuel : Nat) (mem : Bytes) (slash fileName buf : Nat) :
    List Nat → Int → Int → Option (Int × Option Bytes)
  | [], _, entry => some (entry, none)
  | header :: headers, count, entry => do
    let start ← starts_with fuel mem header fileName
    -- `isRootDirectory`
    let root ← strcmp fuel mem fileName slash
    if 0 < start ∨ root = 0 then
      if count = 0 ∧ entry = 0 then
        readDirLoop fuel mem slash fileName buf headers (count + 1) (entry + 1)
      else if count = entry then do
        let mem ← strcpy fuel mem buf (← substring fuel mem header start)
        some (entry + 1, some mem)
      else readDirLoop fuel mem slash fileName buf headers (count + 1) entry
    else readDirLoop fuel mem slash fileName buf headers count entry

/-- `readDirTarfsFile`: what it returns, the entry of the descriptor, and memory. -/
def readDirTarfsFile (fuel : Nat) (mem : Bytes) (slash fileName buf : Nat) (headers : List Nat)
    (entry : Int) : Option (Int × Int × Bytes) := do
  let (entry, stored) ← readDirLoop fuel mem slash fileName buf (headers.take 32) 0 entry
  match stored with
  | some mem => some (1, entry, mem)
  | none => some (0, entry, mem)

theorem cString_short {bytes : Nat → UInt8} {i limit : Nat}
    (ended : ∃ k < limit, bytes (i + k) = 0) : (cString bytes i limit).length < limit := by
  induction limit generalizing i with
  | zero =>
    obtain ⟨k, inside, -⟩ := ended
    exact absurd inside (Nat.not_lt_zero k)
  | succ limit ih =>
    rw [cString]
    split
    next => exact Nat.zero_lt_succ limit
    next other =>
      refine Nat.succ_lt_succ (ih ?_)
      obtain ⟨k, inside, zero⟩ := ended
      cases k with
      | zero => exact absurd zero other
      | succ k =>
        rw [Nat.add_comm k 1, ← Nat.add_assoc] at zero
        exact ⟨k, Nat.lt_of_succ_lt_succ inside, zero⟩

/-- A string that ends before the limit is the string at its address. -/
theorem cString_ends {bytes : Nat → UInt8} {i limit : Nat}
    (short : (cString bytes i limit).length < limit) :
    StringAt bytes i (cString bytes i limit) := by
  induction limit generalizing i with
  | zero => exact absurd short (Nat.not_lt_zero _)
  | succ limit ih =>
    rw [cString] at short ⊢
    by_cases here : bytes i = 0
    · rw [if_pos here]
      exact Terminated.nil_iff.mpr here
    · rw [if_neg here] at short ⊢
      exact Terminated.cons_iff.mpr ⟨Ne.symm here, rfl, ih (Nat.lt_of_succ_lt_succ short)⟩

/-- The headers lie in the memory, and their names end inside them. -/
structure Names (mem : Bytes) (headers : List TarHeader) : Prop where
  memory : ∀ h ∈ headers, h.memory = mem
  ended : ∀ h ∈ headers, ∃ k < 512, h.bytes k = 0

variable {headers : List TarHeader} {h : TarHeader} {fileName : List UInt8} {slash fn buf : Nat}

theorem Names.short (names : Names mem headers) (member : h ∈ headers) : h.name.length < 512 := by
  obtain ⟨k, inside, zero⟩ := names.ended h member
  exact cString_short ⟨k, inside, (Nat.zero_add k).symm ▸ zero⟩

theorem Names.string (names : Names mem headers) (member : h ∈ headers) :
    StringAt mem h.addr h.name := by
  have string : StringAt h.bytes 0 h.name := cString_ends (names.short member)
  refine .of_cells string.apart (fun i short => ?_) ?_
  · rw [← names.memory h member, ← string.cell short, Nat.zero_add]
    rfl
  · rw [← names.memory h member, ← string.last, Nat.zero_add]
    rfl

theorem Names.tail (names : Names mem (h :: headers)) : Names mem headers :=
  ⟨fun g later => names.memory g (.tail _ later), fun g later => names.ended g (.tail _ later)⟩

theorem Names.take (names : Names mem headers) (n : Nat) : Names mem (headers.take n) :=
  ⟨fun g member => names.memory g (List.mem_of_mem_take member),
    fun g member => names.ended g (List.mem_of_mem_take member)⟩

theorem readDirLoop_eq (names : Names mem headers) (file : StringAt mem fn fileName)
    (root : StringAt mem slash [47]) (enough : 512 ≤ fuel) (short : fileName.length < fuel)
    (apart : ∀ h ∈ headers, ¬(h.addr < buf ∧ buf ≤ h.addr + h.name.length)) (count entry : Int) :
    readDirLoop fuel mem slash fn buf (headers.map TarHeader.addr) count entry =
      some ((Descriptors.readDirLoop fileName headers count entry).1,
        (Descriptors.readDirLoop fileName headers count entry).2.map fun name =>
          overlay mem buf (name ++ [0])) := by
  induction headers generalizing count entry with
  | nil => rfl
  | cons h headers ih =>
    have string := names.string (.head _)
    have inside := names.short (.head _)
    have rest := ih names.tail fun g later => apart g (.tail _ later)
    obtain ⟨r, runs, zero, -⟩ := strcmp_spec file root
    rw [List.map_cons, readDirLoop, Descriptors.readDirLoop,
      starts_with_eq string file (Nat.lt_of_lt_of_le inside enough), Option.bind_eq_bind,
      Option.bind_some, runs fuel short, Option.bind_eq_bind, Option.bind_some]
    by_cases listed : 0 < startsWith h.name fileName ∨ fileName = [47]
    · rw [if_pos (listed.imp_right zero.mpr), if_pos listed]
      by_cases skipped : count = 0 ∧ entry = 0
      · rw [if_pos skipped, if_pos skipped, rest]
      rw [if_neg skipped, if_neg skipped]
      by_cases reached : count = entry
      · obtain ⟨n, within, found, same⟩ := substring_eq string
          (Nat.lt_of_lt_of_le inside enough) (startsWith h.name fileName)
        have beside := apart h (.head _)
        have length : (h.name.drop n).length = h.name.length - n := List.length_drop
        have copied : copyUntil 0 fuel mem buf (h.addr + n) = _ :=
          copyUntil_apart (string.drop within) (by omega) (by omega)
        rw [if_pos reached, if_pos reached, found, Option.bind_eq_bind, Option.bind_some, strcpy_eq,
          copied, ← same]
        rfl
      · rw [if_neg reached, if_neg reached, rest]
    · rw [if_neg fun either => listed (either.imp_right zero.mp), if_neg listed, rest]

/-- The headers of `bin/` and of `bin/ls`, and behind them the strings `/` and `bin/`. -/
def archiveMemory : Bytes := overlay (overlay (fun _ => 0) 0 [98, 105, 110, 47]) 512
  ([98, 105, 110, 47, 108, 115] ++ List.replicate 506 0 ++ [47, 0, 98, 105, 110, 47])

def archiveHeaders : List TarHeader := [⟨archiveMemory, 0⟩, ⟨archiveMemory, 512⟩]

theorem archiveHeaders_names : Names archiveMemory archiveHeaders where
  memory := by simp [archiveHeaders]
  ended := by
    simp only [archiveHeaders, List.mem_cons, List.not_mem_nil, or_false, forall_eq_or_imp,
      forall_eq]
    exact ⟨⟨4, by decide, by decide +kernel⟩, ⟨6, by decide, by decide +kernel⟩⟩

theorem binName_string : StringAt archiveMemory 1026 [98, 105, 110, 47] :=
  .of_cells (by decide) (by decide +kernel) (by decide +kernel)

/-- The comparison of characters finds the header that the comparison of names finds. -/
theorem checkFile_refines (names : Names mem headers) (path : StringAt mem a s)
    (enough : 512 ≤ fuel) :
    checkFile fuel mem (headers.map TarHeader.addr) a = some (Descriptors.checkFile headers s) := by
  unfold checkFile Descriptors.checkFile
  rw [← List.map_take]
  have names := names.take 32
  generalize headers.take 32 = headers at names
  suffices loop : ∀ n, checkFileLoop fuel mem a (headers.map TarHeader.addr) n =
      some ((headers.findIdx? fun h => h.name = s).map (· + n)) by
    have start := loop 0
    simpa using start
  induction headers with
  | nil => exact fun n => rfl
  | cons h headers ih =>
    intro n
    have short := names.short (.head _)
    obtain ⟨r, runs, zero, -⟩ := strcmp_spec (names.string (.head _)) path
    rw [List.map_cons, checkFileLoop, runs fuel (by omega), Option.bind_eq_bind,
      Option.bind_some, List.findIdx?_cons]
    by_cases same : h.name = s
    · rw [if_pos (zero.mpr same), if_pos (decide_eq_true same), Option.map_some, Nat.zero_add]
    · rw [if_neg fun here => same (zero.mp here), if_neg (by simpa using same), ih names.tail,
        Option.map_map]
      congr 2
      funext k
      exact (Nat.add_right_comm k 1 n).symm

/-- `bin/` is the first file. -/
theorem checkFile_refines_of_archiveMemory :
    checkFile 512 archiveMemory [0, 512] 1026 = some (some 0) :=
  (checkFile_refines archiveHeaders_names binName_string (Nat.le_refl 512)).trans
    (by decide +kernel)

/-- On a descriptor whose `file_name` lies in memory, `readDirTarfsFile` leaves the name of the
entry at `buf`, the cursor behind it, and every other byte as it was. -/
theorem readDirTarfsFile_refines (task : Descriptors) (fd : Int) (names : Names mem headers)
    (file : StringAt mem fn (task.fd fd).fileName) (root : StringAt mem slash [47])
    (short : (task.fd fd).fileName.length < 512) (enough : 512 ≤ fuel)
    (apart : ∀ h ∈ headers, ¬(h.addr < buf ∧ buf ≤ h.addr + h.name.length)) :
    readDirTarfsFile fuel mem slash fn buf (headers.map TarHeader.addr) (task.fd fd).entry =
      some (match task.readDirTarfsFile headers fd with
        | (some name, after) => (1, (after.fd fd).entry, overlay mem buf (name ++ [0]))
        | (none, after) => (0, (after.fd fd).entry, mem)) := by
  have loop := readDirLoop_eq (names.take 32) file root enough (Nat.lt_of_lt_of_le short enough)
    (fun h member => apart h (List.mem_of_mem_take member)) 0 (task.fd fd).entry
  rw [readDirTarfsFile, ← List.map_take, loop, Option.bind_eq_bind, Option.bind_some,
    Descriptors.readDirTarfsFile]
  cases stopped :
      (Descriptors.readDirLoop (task.fd fd).fileName (headers.take 32) 0 (task.fd fd).entry).2 with
  | none => simp [stopped]
  | some name => simp [stopped]

/-- A descriptor of `bin/` that has not been read. -/
def openedBin : Descriptors where
  fd := fun _ => ⟨3, [98, 105, 110, 47], 1, 0, 0, -1, 0, some ⟨archiveMemory, 0⟩⟩
  fdC := 1

theorem openedBin_read : (openedBin.readDirTarfsFile archiveHeaders 3).1 = some [108, 115] ∧
    ((openedBin.readDirTarfsFile archiveHeaders 3).2.fd 3).entry = 2 := by
  decide +kernel

/-- `ls` comes to address 2000. -/
theorem readDirTarfsFile_refines_of_archiveMemory :
    readDirTarfsFile 512 archiveMemory 1024 1026 2000 [0, 512] 0 =
      some (1, 2, overlay archiveMemory 2000 [108, 115, 0]) := by
  have root : StringAt archiveMemory 1024 [47] :=
    .of_cells (by decide) (by decide +kernel) (by decide +kernel)
  have apart : ∀ h ∈ archiveHeaders, ¬(h.addr < 2000 ∧ 2000 ≤ h.addr + h.name.length) := by
    decide +kernel
  have refined := readDirTarfsFile_refines openedBin 3 archiveHeaders_names binName_string root
    (by decide) (Nat.le_refl 512) apart
  obtain ⟨name, entry⟩ := openedBin_read
  generalize openedBin.readDirTarfsFile archiveHeaders 3 = reply at refined name entry
  obtain ⟨reply, after⟩ := reply
  obtain rfl : reply = some [108, 115] := name
  exact refined.trans (congrArg (fun e => some (1, e, _)) entry)

end Strings

end LateOS
