import LateOS.Lib.Layout
import LateOS.Boot.Freelist

/-!
# The records of the boot loader

What `initializeFreelist` does before it builds its list: it looks for the record with the memory
map, and goes over the entries in it. Memory is taken by bytes.
-/
namespace LateOS

open Lib

/-! ## Loads -/

section

variable (memory : Nat → Byte) (a : Nat)

/-- A load of four bytes, the lowest first. -/
def load32 : BitVec 32 := memory (a + 3) ++ memory (a + 2) ++ memory (a + 1) ++ memory a

def load64 : Word := load32 memory (a + 4) ++ load32 memory a

/-- The entry at `smap`. -/
def smapAt : Smap := ⟨load64 memory a, load64 memory (a + 8), load32 memory (a + 16)⟩

/-! ## The two loops -/

/-- `while(modulep[0] != 0x9001) modulep += modulep[1]+2;`, with the places that are looked at. The
sum has 32 bits, and the pointer is one to words of four bytes. -/
def findModule : Nat → Nat → Option (List Nat × Nat)
  | 0, _ => none
  | fuel + 1, modulep =>
    if load32 memory modulep ≠ 0x9001 then
      -- `modulep[1]` is a length in bytes, but words are counted here.
      (findModule fuel (modulep + 4 * (load32 memory (modulep + 4) + 2).toNat)).map
        fun (seen, found) => (modulep :: seen, found)
    else some ([modulep], modulep)

end

/-- The entries from `smap` on: `smap < stop; ++smap`. -/
def smapEntries (smap stop : Nat) : List Nat :=
  if smap < stop then smap :: smapEntries (smap + 20) stop else []
termination_by stop - smap

/-- The entries that are visited. The end is computed in bytes. -/
def visitedEntries (memory : Nat → Byte) (modulep : Nat) : List Nat :=
  smapEntries (modulep + 8) (modulep + (load32 memory (modulep + 4)).toNat + 8)

/-- `initializeFreelist`, with a bound on the rounds of each loop. -/
def initializeFreelist (memory : Nat → Byte) (modulep : Nat) (physfree : Word) (fuel : Nat) :
    Option Freelist := do
  let (_, modulep) ← findModule memory fuel modulep
  Scan.finish physfree fuel (Scan.start ((visitedEntries memory modulep).map (smapAt memory)))

/-! ## Records -/

/-- A record: its type, and its payload of whole words, whose length in bytes has 32 bits. -/
structure BootRecord where
  type : BitVec 32
  payload : List Byte
  whole : 4 ∣ payload.length
  fits : payload.length < 2 ^ 32

/-- The bytes of a word. -/
def bytes32 (w : BitVec 32) : List Byte :=
  [w.extractLsb' 0 8, w.extractLsb' 8 8, w.extractLsb' 16 8, w.extractLsb' 24 8]

namespace BootRecord

def size (r : BootRecord) : Nat := 8 + r.payload.length

def bytes (r : BootRecord) : List Byte :=
  bytes32 r.type ++ (bytes32 (BitVec.ofNat 32 r.payload.length) ++ r.payload)

theorem bytes_length (r : BootRecord) : r.bytes.length = r.size := by
  simp [bytes, size, bytes32]
  omega

theorem size_pos (r : BootRecord) : 0 < r.size := by
  unfold size
  omega

end BootRecord

theorem load32_bytes {memory : Nat → Byte} {a : Nat} {w : BitVec 32}
    (held : HeldAt memory a (bytes32 w)) : load32 memory a = w := by
  have zero : memory a = w.extractLsb' 0 8 := held 0 _ rfl
  have one : memory (a + 1) = w.extractLsb' 8 8 := held 1 _ rfl
  have two : memory (a + 2) = w.extractLsb' 16 8 := held 2 _ rfl
  have three : memory (a + 3) = w.extractLsb' 24 8 := held 3 _ rfl
  unfold load32
  rw [zero, one, two, three]
  apply BitVec.eq_of_getLsbD_eq
  intro i below
  simp only [BitVec.getLsbD_append, BitVec.getLsbD_extractLsb']
  grind

/-- The first record of type 0x9001, and the address that it begins at. -/
def firstModule : Nat → List BootRecord → Option (Nat × BootRecord)
  | _, [] => none
  | a, r :: rest => if r.type = 0x9001 then some (a, r) else firstModule (a + r.size) rest

/-- The entries that lie in the payload from their first byte to their last. -/
def wholeEntries (found : Nat) (r : BootRecord) : List Nat :=
  (List.range (r.payload.length / 20)).map fun j => found + 8 + 20 * j

/-- The first loop ends at the first record of type 0x9001 and looks only at the beginnings of
records, and the second one visits the whole entries of that record. -/
def ScansRecords (memory : Nat → Byte) (modulep : Nat) (records : List BootRecord) : Prop :=
  ∃ fuel seen found r, findModule memory fuel modulep = some (seen, found) ∧
    firstModule modulep records = some (found, r) ∧
    (∀ a ∈ seen, a ∈ starts BootRecord.size modulep records) ∧
    visitedEntries memory found = wholeEntries found r

/-- A record of `n` payload bytes makes the loop go on by `4 * n` bytes behind its header. Behind
each record that the loop comes to are others that take up the bytes that are too many. -/
inductive LeadsTo : List BootRecord → BootRecord → Prop where
  | here {r : BootRecord} {rest : List BootRecord} (type : r.type = 0x9001) : LeadsTo (r :: rest) r
  | skip {r target : BootRecord} {between rest : List BootRecord} (type : r.type ≠ 0x9001)
      (others : ∀ b ∈ between, b.type ≠ 0x9001)
      (long : roomOf BootRecord.size between = 3 * r.payload.length)
      (next : LeadsTo rest target) : LeadsTo (r :: (between ++ rest)) target

/-! ## What is stored -/

variable {memory : Nat → Byte} {modulep found next fuel : Nat} {seen : List Nat}
  {r : BootRecord} {records front rest : List BootRecord}

/-- The list of records in memory. -/
abbrev RecordsAt (memory : Nat → Byte) (modulep : Nat) (records : List BootRecord) : Prop :=
  HeldAt memory modulep (records.flatMap BootRecord.bytes)

theorem RecordsAt.type (stored : RecordsAt memory modulep (r :: rest)) :
    load32 memory modulep = r.type := by
  rw [RecordsAt, List.flatMap_cons] at stored
  exact load32_bytes stored.left.left

theorem RecordsAt.length (stored : RecordsAt memory modulep (r :: rest)) :
    (load32 memory (modulep + 4)).toNat = r.payload.length := by
  rw [RecordsAt, List.flatMap_cons] at stored
  have held : load32 memory (modulep + 4) = BitVec.ofNat 32 r.payload.length :=
    load32_bytes stored.left.right.left
  rw [held, BitVec.toNat_ofNat, Nat.mod_eq_of_lt r.fits]

theorem RecordsAt.past (stored : RecordsAt memory modulep (front ++ rest)) :
    RecordsAt memory (modulep + roomOf BootRecord.size front) rest :=
  HeldAt.past _ BootRecord.bytes_length stored

/-- The sum does not overflow, since the length is one of whole words. -/
theorem RecordsAt.step (stored : RecordsAt memory modulep (r :: rest)) :
    4 * (load32 memory (modulep + 4) + 2).toNat = r.size + 3 * r.payload.length := by
  have whole := r.whole
  have fits := r.fits
  rw [BitVec.toNat_add, stored.length, BootRecord.size]
  change 4 * ((r.payload.length + 2) % 2 ^ 32) = _
  omega

/-! ## The first loop -/

theorem findModule_head (ran : findModule memory fuel modulep = some (seen, found)) :
    modulep ∈ seen := by
  cases fuel with
  | zero => cases ran
  | succ fuel =>
    rw [findModule] at ran
    split at ran
    · obtain ⟨later, _, equal⟩ := Option.map_eq_some_iff.mp ran
      cases equal
      exact List.mem_cons_self
    · cases ran
      exact List.mem_cons_self

/-- The loop goes upwards. -/
theorem findModule_order (ran : findModule memory fuel modulep = some (seen, found)) :
    modulep ≤ found ∧ ∀ a ∈ seen, modulep ≤ a := by
  induction fuel generalizing modulep seen with
  | zero => cases ran
  | succ fuel ih =>
    rw [findModule] at ran
    split at ran
    · obtain ⟨⟨seen', found'⟩, later, equal⟩ := Option.map_eq_some_iff.mp ran
      cases equal
      obtain ⟨low, all⟩ := ih later
      refine ⟨by omega, fun a member => ?_⟩
      rcases List.mem_cons.mp member with rfl | member
      · exact Nat.le_refl _
      · have above := all a member
        omega
    · cases ran
      exact ⟨Nat.le_refl _, fun a member => (List.mem_singleton.mp member).ge⟩

/-! ## The first record of its type -/

theorem firstModule_split (first : firstModule modulep records = some (found, r)) :
    ∃ front rest, records = front ++ r :: rest ∧ found = modulep + roomOf BootRecord.size front := by
  induction records generalizing modulep with
  | nil => cases first
  | cons x records ih =>
    rw [firstModule] at first
    split at first
    · cases first
      exact ⟨[], records, rfl, rfl⟩
    · obtain ⟨front, rest, rfl, here⟩ := ih first
      refine ⟨x :: front, rest, rfl, ?_⟩
      rw [here, roomOf_cons, Nat.add_assoc]

theorem firstModule_skip (others : ∀ b ∈ front, b.type ≠ 0x9001) :
    firstModule modulep (front ++ rest) =
      firstModule (modulep + roomOf BootRecord.size front) rest := by
  induction front generalizing modulep with
  | nil => rfl
  | cons x front ih =>
    obtain ⟨other, others⟩ := List.forall_mem_cons.mp others
    rw [List.cons_append, firstModule, if_neg other, ih others, roomOf_cons, Nat.add_assoc]

/-- Records that end in front of it are of other types. -/
theorem firstModule_past (first : firstModule modulep (front ++ rest) = some (found, r))
    (past : modulep + roomOf BootRecord.size front ≤ found) : ∀ b ∈ front, b.type ≠ 0x9001 := by
  induction front generalizing modulep with
  | nil => nofun
  | cons x front ih =>
    rw [roomOf_cons] at past
    rw [List.cons_append, firstModule] at first
    split at first
    -- Not even the first record ends in front of itself.
    · cases first
      have positive := r.size_pos
      omega
    next other => exact List.forall_mem_cons.mpr ⟨other, ih first (by omega)⟩

/-! ## Where the first loop ends -/

/-- Each place that the loop looks at is the beginning of a record, so that the bytes that it steps
over are those of whole records. -/
theorem LeadsTo.of_scan (stored : RecordsAt memory modulep records)
    (ran : findModule memory fuel modulep = some (seen, found))
    (first : firstModule modulep records = some (found, r))
    (inside : ∀ a ∈ seen, a ∈ starts BootRecord.size modulep records) : LeadsTo records r := by
  induction fuel generalizing modulep records seen with
  | zero => cases ran
  | succ fuel ih =>
    cases records with
    | nil => cases first
    | cons x rest =>
      by_cases type : x.type = 0x9001
      · rw [firstModule, if_pos type] at first
        cases first
        exact .here type
      · rw [findModule, stored.type, if_pos type, stored.step] at ran
        obtain ⟨⟨later, found'⟩, ran, equal⟩ := Option.map_eq_some_iff.mp ran
        cases equal
        have positive := x.size_pos
        obtain ⟨low, all⟩ := findModule_order ran
        -- The next place is the beginning of a record behind this one.
        have next := inside _ (List.mem_cons_of_mem _ (findModule_head ran))
        rcases List.mem_cons.mp next with same | next
        · omega
        obtain ⟨between, y, back, rfl, here⟩ := starts_split next
        have place : modulep + (x.size + 3 * x.payload.length) =
            modulep + roomOf BootRecord.size (x :: between) := by
          rw [here, roomOf_cons, Nat.add_assoc]
        rw [place] at ran low all
        change firstModule modulep ((x :: between) ++ y :: back) = _ at first
        have others := firstModule_past first low
        rw [firstModule_skip others] at first
        have whole : RecordsAt memory modulep ((x :: between) ++ y :: back) := stored
        have rest : LeadsTo (y :: back) r := by
          refine ih whole.past ran first fun a member => ?_
          have start : a ∈ starts BootRecord.size modulep ((x :: between) ++ y :: back) :=
            inside a (List.mem_cons_of_mem _ member)
          exact starts_past BootRecord.size_pos start (all a member)
        rw [roomOf_cons] at place
        exact .skip type (List.forall_mem_cons.mp others).2 (by omega) rest

theorem LeadsTo.scan (leads : LeadsTo records r) (stored : RecordsAt memory modulep records) :
    ∃ fuel seen found, findModule memory fuel modulep = some (seen, found) ∧
      firstModule modulep records = some (found, r) ∧
      ∀ a ∈ seen, a ∈ starts BootRecord.size modulep records := by
  induction leads generalizing modulep with
  | here type =>
    refine ⟨1, [modulep], modulep, ?_, ?_, fun a member => ?_⟩
    · rw [findModule, stored.type, if_neg (not_not.mpr type)]
    · rw [firstModule, if_pos type]
    · rw [List.mem_singleton.mp member]
      exact List.mem_cons_self
  | @skip x target between rest type others long next ih =>
    have whole : RecordsAt memory modulep ((x :: between) ++ rest) := stored
    obtain ⟨fuel, seen, found, ran, first, inside⟩ := ih whole.past
    have place : modulep + (x.size + 3 * x.payload.length) =
        modulep + roomOf BootRecord.size (x :: between) := by
      rw [roomOf_cons, long]
    refine ⟨fuel + 1, modulep :: seen, found, ?_, ?_, fun a member => ?_⟩
    -- The step over this record ends behind those between.
    · rw [findModule, stored.type, if_pos type, stored.step, place, ran]
      rfl
    · change firstModule modulep ((x :: between) ++ rest) = _
      rw [firstModule_skip (List.forall_mem_cons.mpr ⟨type, others⟩), first]
    · rcases List.mem_cons.mp member with rfl | later
      · exact List.mem_cons_self
      · change a ∈ starts BootRecord.size modulep ((x :: between) ++ rest)
        rw [starts_append]
        exact List.mem_append_right _ (inside a later)

/-! ## The entries -/

/-- Every entry that begins before the end is visited. -/
theorem smapEntries_eq (smap n : Nat) : smapEntries smap (smap + n) =
    (List.range ((n + 19) / 20)).map fun j => smap + 20 * j := by
  induction n using Nat.strong_induction_on generalizing smap with
  | _ n ih =>
    rw [smapEntries]
    by_cases more : 0 < n
    · rw [if_pos (by omega)]
      by_cases last : n ≤ 20
      -- The last entry may reach past the end.
      · have one : (n + 19) / 20 = 1 := by omega
        rw [smapEntries, if_neg (by omega), one]
        rfl
      · have count : (n + 19) / 20 = (n - 20 + 19) / 20 + 1 := by omega
        have stop : smap + n = smap + 20 + (n - 20) := by omega
        rw [stop, ih (n - 20) (by omega), count, List.range_succ_eq_map, List.map_cons, List.map_map]
        refine congrArg _ (List.map_congr_left fun j _ => ?_)
        rw [Function.comp_apply]
        omega
    · have none : n = 0 := by omega
      subst none
      rw [if_neg (by omega)]
      rfl

/-- They are the whole entries if no part of one is left over. -/
theorem visited_iff (stored : RecordsAt memory modulep records)
    (first : firstModule modulep records = some (found, r)) :
    visitedEntries memory found = wholeEntries found r ↔ 20 ∣ r.payload.length := by
  obtain ⟨front, rest, rfl, rfl⟩ := firstModule_split first
  rw [visitedEntries, stored.past.length, Nat.add_right_comm _ r.payload.length, smapEntries_eq,
    wholeEntries]
  constructor
  · intro same
    have count := congrArg List.length same
    rw [List.length_map, List.length_map, List.length_range, List.length_range] at count
    omega
  · intro divides
    have count : (r.payload.length + 19) / 20 = r.payload.length / 20 := by omega
    rw [count]

/-- The two loops do what they are for exactly if the lengths of the records make up for the wrong
unit, and the memory map is one of whole entries. -/
theorem scansRecords_iff (stored : RecordsAt memory modulep records) :
    ScansRecords memory modulep records ↔ ∃ r, LeadsTo records r ∧ 20 ∣ r.payload.length := by
  constructor
  · rintro ⟨fuel, seen, found, r, ran, first, inside, visited⟩
    exact ⟨r, .of_scan stored ran first inside, (visited_iff stored first).mp visited⟩
  · rintro ⟨r, leads, divides⟩
    obtain ⟨fuel, seen, found, ran, first, inside⟩ := leads.scan stored
    exact ⟨fuel, seen, found, r, ran, first, inside, (visited_iff stored first).mpr divides⟩

/-! ## The memory map -/

/-- The bytes of a `uint64_t`. -/
def bytes64 (w : Word) : List Byte := bytes32 (w.extractLsb' 0 32) ++ bytes32 (w.extractLsb' 32 32)

/-- The bytes of a `smap_t`, which is packed. -/
def Smap.bytes (r : Smap) : List Byte := bytes64 r.base ++ (bytes64 r.length ++ bytes32 r.type)

theorem load64_bytes {a : Nat} {w : Word} (held : HeldAt memory a (bytes64 w)) :
    load64 memory a = w := by
  have low : load32 memory a = w.extractLsb' 0 32 := load32_bytes held.left
  have high : load32 memory (a + 4) = w.extractLsb' 32 32 := load32_bytes held.right
  unfold load64
  rw [low, high]
  apply BitVec.eq_of_getLsbD_eq
  intro i below
  simp only [BitVec.getLsbD_append, BitVec.getLsbD_extractLsb']
  grind

theorem smapAt_bytes {a : Nat} {entry : Smap} (held : HeldAt memory a entry.bytes) :
    smapAt memory a = entry := by
  unfold smapAt
  have base : load64 memory a = entry.base := load64_bytes held.left
  have length : load64 memory (a + 8) = entry.length := load64_bytes held.right.left
  have type : load32 memory (a + 16) = entry.type := load32_bytes held.right.right
  rw [base, length, type]

theorem smapAt_entries {a : Nat} {maps : List Smap}
    (held : HeldAt memory a (maps.flatMap Smap.bytes)) :
    ((List.range maps.length).map fun j => smapAt memory (a + 20 * j)) = maps := by
  induction maps generalizing a with
  | nil => rfl
  | cons entry rest ih =>
    rw [List.flatMap_cons] at held
    have later : HeldAt memory (a + 20) (rest.flatMap Smap.bytes) := held.right
    rw [List.length_cons, List.range_succ_eq_map, List.map_cons, List.map_map]
    refine congrArg₂ _ (smapAt_bytes held.left) ((List.map_congr_left fun j _ => ?_).trans (ih later))
    rw [Function.comp_apply]
    congr 1
    omega

theorem findModule_more (k : Nat) {result : List Nat × Nat}
    (ran : findModule memory fuel modulep = some result) :
    findModule memory (fuel + k) modulep = some result := by
  induction fuel generalizing modulep result with
  | zero => cases ran
  | succ fuel ih =>
    rw [findModule] at ran
    rw [Nat.add_right_comm, findModule]
    split at ran
    next other =>
      obtain ⟨later, ran, equal⟩ := Option.map_eq_some_iff.mp ran
      rw [if_pos other, ih ran]
      exact congrArg some equal
    next type =>
      rw [if_neg type]
      exact ran

/-- Where the loops do what they are for, the list of free frames is built from the memory map of
the boot loader. -/
theorem initializeFreelist_eq {maps : List Smap} {physfree : Word} (leads : LeadsTo records r)
    (stored : RecordsAt memory modulep records) (map : r.payload = maps.flatMap Smap.bytes) :
    ∃ n, ∀ fuel ≥ n, initializeFreelist memory modulep physfree fuel =
      Scan.finish physfree fuel (Scan.start maps) := by
  obtain ⟨n, seen, found, ran, first, _⟩ := leads.scan stored
  have length : r.payload.length = 20 * maps.length := by
    rw [map, flatMap_length (fun _ => 20) Smap.bytes fun _ => rfl]
    simp [roomOf, Nat.mul_comm]
  have visited := (visited_iff stored first).mpr ⟨maps.length, length⟩
  refine ⟨n, fun fuel enough => ?_⟩
  obtain ⟨k, rfl⟩ := Nat.exists_eq_add_of_le enough
  obtain ⟨front, rest, rfl, rfl⟩ := firstModule_split first
  have held := stored.past
  rw [RecordsAt, List.flatMap_cons] at held
  have payload : HeldAt memory (modulep + roomOf BootRecord.size front + 8)
      (maps.flatMap Smap.bytes) := map ▸ held.left.right.right
  have entries := smapAt_entries payload
  unfold initializeFreelist
  rw [findModule_more k ran]
  change Scan.finish _ _ (Scan.start ((visitedEntries memory _).map (smapAt memory))) = _
  rw [visited, wholeEntries, length, Nat.mul_div_cancel_left _ (by decide), List.map_map]
  exact congrArg (fun l => Scan.finish physfree (n + k) (Scan.start l)) entries

/-! ## Records in a memory of their own -/

def memoryOf (records : List BootRecord) : Nat → Byte := fun a =>
  (records.flatMap BootRecord.bytes).getD a 0

theorem recordsAt_memoryOf (records : List BootRecord) :
    RecordsAt (memoryOf records) 0 records := by
  intro i cell here
  rw [Nat.zero_add, memoryOf, List.getD_eq_getElem?_getD, here]
  rfl

/-- A record of a given number of words. -/
def zeroRecord (type : BitVec 32) (words : Nat) (few : 4 * words < 2 ^ 32) : BootRecord where
  type := type
  payload := List.replicate (4 * words) 0
  whole := by simp
  fits := by simpa using few

/-- Two records of one word each in front make up for each other. -/
theorem scansRecords_pair : ScansRecords
    (memoryOf [zeroRecord 1 1 (by decide), zeroRecord 2 1 (by decide),
      zeroRecord 0x9001 5 (by decide)]) 0
    [zeroRecord 1 1 (by decide), zeroRecord 2 1 (by decide), zeroRecord 0x9001 5 (by decide)] := by
  have leads : LeadsTo (zeroRecord 1 1 (by decide) :: ([zeroRecord 2 1 (by decide)] ++
      [zeroRecord 0x9001 5 (by decide)])) (zeroRecord 0x9001 5 (by decide)) :=
    .skip (by decide) (by decide) (by decide) (.here rfl)
  exact (scansRecords_iff (recordsAt_memoryOf _)).mpr ⟨_, leads, by decide⟩

/-- One such record in front sends the loop into the payload of the next. -/
theorem scansRecords_single :
    let records := [zeroRecord 1 1 (by decide), zeroRecord 0x9001 5 (by decide)]
    RecordsAt (memoryOf records) 0 records ∧ (∃ r ∈ records, r.type = 0x9001) ∧
      ¬ScansRecords (memoryOf records) 0 records := by
  refine ⟨recordsAt_memoryOf _, by decide, ?_⟩
  rintro ⟨fuel, seen, found, r, ran, first, inside, _⟩
  cases fuel with
  | zero => cases ran
  | succ fuel =>
    have type : load32 (memoryOf [zeroRecord 1 1 (by decide), zeroRecord 0x9001 5 (by decide)]) 0 =
        1 := by decide
    have length : load32 (memoryOf [zeroRecord 1 1 (by decide),
        zeroRecord 0x9001 5 (by decide)]) (0 + 4) = 4 := by decide
    rw [findModule, type, if_pos (by decide), length] at ran
    obtain ⟨⟨later, found'⟩, ran, equal⟩ := Option.map_eq_some_iff.mp ran
    cases equal
    have next := inside _ (List.mem_cons_of_mem _ (findModule_head ran))
    exact absurd next (by decide)

end LateOS
