import Mathlib.Data.List.Find
import LateOS.Files.Archive

/-!
# The two lookups

What `get_file_address` and `checkFile` find in the table that `init_tarfs` makes of an archive.
-/
namespace LateOS

/-- The table begins with the members, and each name that is not empty is looked up as the address
of its first member. -/
structure Indexed (members headers : List TarHeader) : Prop where
  listed : ∀ i < members.length, headers[i]? = members[i]?
  found : ∀ name ≠ [], TarHeader.getFileAddress headers name =
    (members.find? fun h => h.entryName = name).map TarHeader.addr

/-- The table holds the members and nothing else, no other name is found in it, and no path leads
`isValidDirectory` to an empty name. -/
structure NoPhantom (members headers : List TarHeader) : Prop where
  count : headers.length = members.length
  listed : ∀ i : Nat, headers[i]? = members[i]?
  unknown : ∀ name, (∀ h ∈ members, h.name ≠ name) →
    TarHeader.getFileAddress headers name = none ∧ Descriptors.checkFile headers name = none
  inspected : ∀ derive path (fileID : Nat), Descriptors.isfileexists headers derive path = some fileID →
    ∀ h ∈ headers[fileID]?, h.name ≠ []

/-- `checkFile` finds a name where `get_file_address` does, and at the same header. -/
structure LookupsAgree (headers : List TarHeader) (name : List UInt8) : Prop where
  both : Descriptors.checkFile headers name = none ↔ TarHeader.getFileAddress headers name = none
  same : ∀ fileID, Descriptors.checkFile headers name = some fileID →
    headers[fileID]?.map TarHeader.addr = TarHeader.getFileAddress headers name

variable {memory : Nat → UInt8} {start stop : Nat} {members headers blanks : List TarHeader}
  {name : List UInt8}

/-! ## Names -/

theorem blanks_name (all : ∀ h ∈ blanks, h.Blank) (named : name ≠ []) :
    ∀ h ∈ blanks, h.name ≠ name := by
  intro h member same
  rw [(all h member).name] at same
  exact named same.symm

/-- Zero blocks do not answer to a name that is not empty. -/
theorem getFileAddress_blanks (all : ∀ h ∈ blanks, h.Blank) (named : name ≠ []) :
    TarHeader.getFileAddress (members ++ blanks) name = TarHeader.getFileAddress members name := by
  have none : blanks.find? (fun h => h.name = name) = none := by
    rw [List.find?_eq_none]
    intro h member
    simpa using blanks_name all named h member
  unfold TarHeader.getFileAddress
  rw [List.find?_append, none, Option.or_none]

theorem getFileAddress_none :
    TarHeader.getFileAddress headers name = none ↔ ∀ h ∈ headers, h.name ≠ name := by
  simp [TarHeader.getFileAddress]

theorem checkFile_none :
    Descriptors.checkFile headers name = none ↔ ∀ h ∈ headers.take 32, h.name ≠ name := by
  unfold Descriptors.checkFile
  rw [List.findIdx?_eq_none_iff]
  simp

/-- `checkFile` stops at the first header of the name, as `get_file_address` does. -/
theorem checkFile_some {fileID : Nat} (found : Descriptors.checkFile headers name = some fileID) :
    headers[fileID]?.map TarHeader.addr = TarHeader.getFileAddress headers name := by
  obtain ⟨inside, here, before⟩ := List.findIdx?_eq_some_iff_getElem.mp found
  have below : fileID < headers.length := by
    rw [List.length_take] at inside
    omega
  have first : headers.find? (fun h => h.name = name) = some headers[fileID] := by
    rw [List.find?_eq_some_iff_getElem]
    refine ⟨?_, fileID, below, rfl, fun j earlier => ?_⟩
    · simpa using here
    · simpa using before j earlier
  unfold TarHeader.getFileAddress
  rw [first, List.getElem?_eq_getElem below]

/-! ## The index -/

/-- The archive is indexed as the format has it unless a name runs on behind its field. -/
theorem archive_index_iff (archive : Ustar memory stop start members) (few : members.length ≤ 199)
    (small : stop - start < 2 ^ 30) :
    (∃ headers, initTarfs memory start stop = some headers ∧ Indexed members headers) ↔
      ∀ h ∈ members, h.Terminated := by
  have ahead := archive.lt
  constructor
  · rintro ⟨headers, _, index⟩ h member
    by_contra runs
    have long := h.name_long runs
    have named : h.name ≠ [] := List.ne_nil_of_length_pos (by omega)
    -- By the format no member has this name; the table does.
    have none : members.find? (fun k => k.entryName = h.name) = none := by
      rw [List.find?_eq_none]
      intro k _ same
      have short := k.entryName_length
      rw [of_decide_eq_true same] at short
      omega
    have missing := index.found h.name named
    rw [none] at missing
    obtain ⟨i, below, here⟩ := List.mem_iff_getElem.mp member
    have stored := index.listed i below
    rw [List.getElem?_eq_getElem below, here] at stored
    exact getFileAddress_none.mp missing h (List.mem_of_getElem? stored) rfl
  · intro ended
    obtain ⟨phantom, scanned, blank⟩ := archive.scanned 200 (by omega) (by omega)
    refine ⟨_, scanned, ⟨fun i below => List.getElem?_append_left below, fun name named => ?_⟩⟩
    rw [getFileAddress_blanks (by simpa using blank) named, TarHeader.getFileAddress]
    congr 1
    exact List.find?_congr fun h member => by rw [(ended h member).name]

/-! ## The phantom -/

/-- The table never holds the members alone: a zero block follows them. -/
theorem phantom_recorded (archive : Ustar memory stop start members) :
    (¬∃ headers, initTarfs memory start stop = some headers ∧ NoPhantom members headers) ∧
      (members.length ≤ 199 → stop - start < 2 ^ 30 →
        ∃ phantom, initTarfs memory start stop = some (members ++ [phantom]) ∧
          phantom.name = []) := by
  refine ⟨?_, fun few small => ?_⟩
  · rintro ⟨headers, loaded, only⟩
    obtain ⟨blanks, rfl, some, _⟩ := archive.table loaded
    have count := only.count
    rw [List.length_append] at count
    exact some (List.length_eq_zero_iff.mp (by omega))
  · have ahead := archive.lt
    obtain ⟨phantom, scanned, blank⟩ := archive.scanned 200 (by omega) (by omega)
    exact ⟨phantom, scanned, blank.name⟩

/-! ## Agreement -/

/-- The lookups agree on a name unless its first member lies behind the 32nd header. -/
theorem lookups_agree_iff (archive : Ustar memory stop start members)
    (loaded : initTarfs memory start stop = some headers) (named : name ≠ []) :
    LookupsAgree headers name ↔
      ((∃ h ∈ members, h.name = name) → ∃ h ∈ members.take 32, h.name = name) := by
  obtain ⟨blanks, rfl, _, all⟩ := archive.table loaded
  have other := blanks_name all named
  have listed : TarHeader.getFileAddress (members ++ blanks) name = none ↔ ¬∃ h ∈ members, h.name = name := by
    rw [getFileAddress_blanks all named, getFileAddress_none]
    simp
  have looked : Descriptors.checkFile (members ++ blanks) name = none ↔
      ¬∃ h ∈ members.take 32, h.name = name := by
    rw [checkFile_none, List.take_append]
    constructor
    · rintro none ⟨h, member, same⟩
      exact none h (List.mem_append_left _ member) same
    · intro none h member same
      rcases List.mem_append.mp member with member | blank
      · exact none ⟨h, member, same⟩
      · exact other h (List.mem_of_mem_take blank) same
  constructor
  · intro agree found
    by_contra missing
    exact listed.mp (agree.both.mp (looked.mpr missing)) found
  · intro reach
    refine ⟨?_, fun fileID => checkFile_some⟩
    rw [looked, listed, not_iff_not]
    refine ⟨fun ⟨h, member, same⟩ => ⟨h, List.mem_of_mem_take member, same⟩, reach⟩

/-! ## Archives of empty members -/

/-- Kernel memory with an archive of empty members at address 512. -/
def flatArchive (names : List (List UInt8)) (k : Nat) : UInt8 :=
  if k < 512 then 0
  else match names[k / 512 - 1]? with
    | none => 0
    | some name =>
      let j := k % 512
      -- The name, and zeros for the digits of the mode and of the size.
      if j < 100 then name.getD j 0
      else if j < 107 ∨ 124 ≤ j ∧ j < 135 then 48 else 0

def flatMembers (names : List (List UInt8)) : List TarHeader :=
  (List.range names.length).map fun i => ⟨flatArchive names, 512 * (i + 1)⟩

/-- Two zero blocks close it. -/
def flatStop (names : List (List UInt8)) : Nat := 512 * (names.length + 3)

theorem flatArchive_digit (names : List (List UInt8)) {i j : Nat} (inside : i < names.length)
    (digit : j < 11) : flatArchive names (512 * (i + 1) + (124 + j)) = 48 := by
  have index : (512 * (i + 1) + (124 + j)) / 512 - 1 = i := by omega
  have offset : (512 * (i + 1) + (124 + j)) % 512 = 124 + j := by omega
  have far : ¬512 * (i + 1) + (124 + j) < 512 := by omega
  have name : ¬124 + j < 100 := by omega
  have size : 124 + j < 107 ∨ 124 ≤ 124 + j ∧ 124 + j < 135 := by omega
  unfold flatArchive
  rw [if_neg far, index, List.getElem?_eq_getElem inside, offset]
  dsimp only
  rw [if_neg name, if_pos size]

theorem flat_digits (names : List (List UInt8)) {i : Nat} (inside : i < names.length) :
    TarHeader.digits ⟨flatArchive names, 512 * (i + 1)⟩ = List.replicate 11 48 := by
  unfold TarHeader.digits TarHeader.bytes
  rw [List.map_congr_left (g := fun _ => 48) fun j member => ?_]
  · rfl
  · exact flatArchive_digit names inside (List.mem_range.mp member)

theorem flat_ustar (names : List (List UInt8)) :
    Ustar (flatArchive names) (flatStop names) 512 (flatMembers names) := by
  have from_ (count i : Nat) (total : i + count = names.length) :
      Ustar (flatArchive names) (flatStop names) (512 * (i + 1))
        ((List.range' i count).map fun i => ⟨flatArchive names, 512 * (i + 1)⟩) := by
    induction count generalizing i with
    | zero =>
      have tail : flatStop names = 512 * (i + 1) + 512 * (1 + 1) := by
        unfold flatStop
        omega
      refine .close tail fun k above _ => ?_
      have none : names[k / 512 - 1]? = none := List.getElem?_eq_none (by omega)
      unfold flatArchive
      rw [none]
      split <;> rfl
    | succ count ih =>
      have digits := flat_digits names (i := i) (by omega)
      have size : TarHeader.dataSize ⟨flatArchive names, 512 * (i + 1)⟩ = 0 := by
        unfold TarHeader.dataSize
        rw [digits]
        rfl
      have span : TarHeader.span ⟨flatArchive names, 512 * (i + 1)⟩ = 512 := by
        unfold TarHeader.span
        rw [size]
      rw [List.range'_succ, List.map_cons]
      refine .member ⟨fun c member => ?_, by rw [size]; decide⟩ ?_
      · rw [digits] at member
        rw [List.eq_of_mem_replicate member]
        decide
      · rw [span]
        exact ih (i + 1) (by omega)
  have all := from_ names.length 0 (Nat.zero_add _)
  unfold flatMembers
  rw [List.range_eq_range']
  exact all

def flatHeaders (names : List (List UInt8)) : List TarHeader :=
  (initTarfs (flatArchive names) 512 (flatStop names)).getD []

/-- The table of such an archive: its members, and one header for a zero block. -/
theorem flat_scanned (names : List (List UInt8)) (few : names.length < 200) :
    initTarfs (flatArchive names) 512 (flatStop names) = some (flatHeaders names) ∧
      ∃ phantom, flatHeaders names = flatMembers names ++ [phantom] ∧ phantom.Blank := by
  have count : (flatMembers names).length < 200 := by simpa [flatMembers] using few
  have small : flatStop names < 512 + 2 ^ 30 := by
    unfold flatStop
    omega
  obtain ⟨phantom, scanned, blank⟩ := (flat_ustar names).scanned 200 count small
  have loaded : initTarfs (flatArchive names) 512 (flatStop names) =
      some (flatMembers names ++ [phantom]) := scanned
  have table : flatHeaders names = flatMembers names ++ [phantom] := by
    rw [flatHeaders, loaded]
    rfl
  exact ⟨by rw [loaded, table], phantom, table, blank⟩

/-- One member, `a`. -/
theorem archive_index_of_one : ∃ headers,
    initTarfs (flatArchive [[97]]) 512 (flatStop [[97]]) = some headers ∧
      Indexed (flatMembers [[97]]) headers := by
  refine (archive_index_iff (flat_ustar [[97]]) (by decide) (by decide)).mpr fun h member => ?_
  rw [List.mem_singleton.mp member]
  exact ⟨1, by decide, rfl⟩

/-- One member, whose name has 100 characters. -/
def longName : List UInt8 := List.replicate 100 97

theorem archive_index_long :
    Ustar (flatArchive [longName]) (flatStop [longName]) 512 (flatMembers [longName]) ∧
      ¬∃ headers, initTarfs (flatArchive [longName]) 512 (flatStop [longName]) = some headers ∧
        Indexed (flatMembers [longName]) headers := by
  have loaded : (initTarfs (flatArchive [longName]) 512 (flatStop [longName])).map
      (TarHeader.getFileAddress · longName) = some none := by decide +kernel
  have listed : ((flatMembers [longName]).find? fun h => h.entryName = longName).map
      TarHeader.addr = some 512 := by decide +kernel
  refine ⟨flat_ustar [longName], ?_⟩
  rintro ⟨headers, scanned, index⟩
  rw [scanned, Option.map_some, index.found longName (by decide), listed] at loaded
  cases loaded

theorem phantom_of_one : ¬∃ headers,
    initTarfs (flatArchive [[97]]) 512 (flatStop [[97]]) = some headers ∧
      NoPhantom (flatMembers [[97]]) headers :=
  (phantom_recorded (flat_ustar [[97]])).1

/-- The empty name is found behind the only member. -/
theorem phantom_found : Ustar (flatArchive [[98]]) (flatStop [[98]]) 512 (flatMembers [[98]]) ∧
    ¬∃ headers, initTarfs (flatArchive [[98]]) 512 (flatStop [[98]]) = some headers ∧
      NoPhantom (flatMembers [[98]]) headers := by
  have loaded : (initTarfs (flatArchive [[98]]) 512 (flatStop [[98]])).map
      (TarHeader.getFileAddress · []) = some (some 1024) := by decide +kernel
  refine ⟨flat_ustar [[98]], ?_⟩
  rintro ⟨headers, scanned, only⟩
  have missing := (only.unknown [] fun h member => by
    rw [List.mem_singleton.mp member]
    decide).1
  rw [scanned, Option.map_some, missing] at loaded
  cases loaded

/-- Members `A`, `B` and so on, 33 of them. -/
def manyNames : List (List UInt8) := (List.range 33).map fun i => [UInt8.ofNat (65 + i)]

def manyHeaders : List TarHeader :=
  (initTarfs (flatArchive manyNames) 512 (flatStop manyNames)).getD []

theorem manyHeaders_loaded :
    initTarfs (flatArchive manyNames) 512 (flatStop manyNames) = some manyHeaders := by
  have few : manyNames.length < 200 := by decide
  exact (flat_scanned manyNames few).1

theorem lookups_agree_first : LookupsAgree manyHeaders [65] := by
  refine (lookups_agree_iff (flat_ustar manyNames) manyHeaders_loaded (by decide)).mpr fun _ => ?_
  exact ⟨⟨flatArchive manyNames, 512⟩, List.mem_of_getElem? (i := 0) rfl, by decide +kernel⟩

/-- The last member, `a`, is found by `get_file_address` alone. -/
theorem lookups_disagree_last :
    Ustar (flatArchive manyNames) (flatStop manyNames) 512 (flatMembers manyNames) ∧
      ¬LookupsAgree manyHeaders [97] := by
  refine ⟨flat_ustar manyNames, fun agree => ?_⟩
  have looked : Descriptors.checkFile manyHeaders [97] = none := by decide +kernel
  have listed : TarHeader.getFileAddress manyHeaders [97] = some (512 * 33) := by decide +kernel
  rw [agree.both.mp looked] at listed
  cases listed

end LateOS
