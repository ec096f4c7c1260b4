import Mathlib.Data.List.Sort
import LateOS.Files.Chdir

/-!
# Directory listings

Successive calls of `readDirTarfsFile` on the descriptor that `openDirFile` returns.
-/
namespace LateOS

open Descriptors (readDirLoop fileNameField isValidDirectory)

/-- The test of `readDirTarfsFile` on a header. -/
def Matches (fileName : List UInt8) (h : TarHeader) : Prop :=
  0 < startsWith h.name fileName ∨ fileName = [47]

instance (fileName : List UInt8) (h : TarHeader) : Decidable (Matches fileName h) :=
  inferInstanceAs (Decidable (_ ∨ _))

/-- The loop of `readDirTarfsFile`, with the header that it stops at in place of the name. -/
def readDirStop (fileName : List UInt8) : List TarHeader → Int → Int → Int × Option TarHeader
  | [], _, entry => (entry, none)
  | h :: rest, count, entry =>
    if Matches fileName h then
      if count = 0 ∧ entry = 0 then readDirStop fileName rest (count + 1) (entry + 1)
      else if count = entry then (entry + 1, some h)
      else readDirStop fileName rest (count + 1) entry
    else readDirStop fileName rest count entry

/-- What is stored for a header. -/
def listedName (fileName : List UInt8) (h : TarHeader) : List UInt8 :=
  substring h.name (startsWith h.name fileName)

/-- `n` calls, one after the other: the header that each stops at, and the name that it stores. -/
def listing (headers : List TarHeader) (fd : Int) :
    Nat → Descriptors → List (Option TarHeader × Option (List UInt8))
  | 0, _ => []
  | n + 1, task =>
    let (_, stop) :=
      readDirStop (task.fd fd).fileName (headers.take 32) 0 (task.fd fd).entry
    let (name, after) := task.readDirTarfsFile headers fd
    (stop, name) :: listing headers fd n after

/-! ## Directories and their members -/

/-- The name of the member goes on behind that of the directory. -/
def TarHeader.Inside (d h : TarHeader) : Prop :=
  d.entryName <+: h.entryName ∧ d.entryName ≠ h.entryName

instance (d h : TarHeader) : Decidable (d.Inside h) := inferInstanceAs (Decidable (_ ∧ _))

def TarHeader.Directory (h : TarHeader) : Prop := h.entryName.getLast? = some 47

instance (h : TarHeader) : Decidable h.Directory := inferInstanceAs (Decidable (_ = _))

/-- Each directory's header comes before those of its members. -/
def DirectoriesFirst (members : List TarHeader) : Prop :=
  ∀ d ∈ members, ∀ h ∈ members, d.Directory → d.Inside h → d.addr < h.addr

/-- What is in a directory; no header stands for the root. -/
def contents (members : List TarHeader) : Option TarHeader → List TarHeader
  | none => members
  | some d => members.filter d.Inside

def relativeName : Option TarHeader → TarHeader → List UInt8
  | none, h => h.entryName
  | some d, h => h.entryName.drop d.entryName.length

/-- `openDirFile` finds the directory under the path. -/
def OpensDirectory (headers : List TarHeader) (derive : List UInt8 → List UInt8)
    (path : List UInt8) : Option TarHeader → Prop
  | none => path = [47]
  | some d => path ≠ [47] ∧ isValidDirectory headers derive path = some d

/-- The calls return the names of what is in the directory, each once and in order, and then 0. -/
def ListsContents (members headers : List TarHeader) (dir : Option TarHeader) (fd : Int)
    (task : Descriptors) : Prop :=
  ∀ n, listing headers fd ((contents members dir).length + n) task =
    (contents members dir).map (fun h => (some h, some (relativeName dir h))) ++
      List.replicate n (none, none)

/-- The 52 bytes that are left of the name of the directory are all of it, and the name in it ends
in its field; or both are one byte off. -/
def Cut (d h : TarHeader) : Prop :=
  (h.Terminated ∧ (d.entryName.length < 52 ∨ d.entryName.length = 52 ∧ h.bytes 52 ≠ 1)) ∨
    (d.entryName.length = 52 ∧ h.name = d.entryName ++ List.replicate 49 1)

/-- For a directory: among the first 32 headers are all that is in it, and beside it no other that
begins with the same two characters. For the root: there are no members. -/
def Listable (members headers : List TarHeader) : Option TarHeader → Prop
  | none => members = [] ∧ headers.length = 1
  | some d =>
    (∀ h ∈ headers.take 32, d.entryName = [47] ∨ h.name.take 2 = d.entryName.take 2 →
      h = d ∨ (h ∈ members ∧ d.Inside h)) ∧
    (∀ h ∈ members, d.Inside h → h ∈ members.take 32 ∧ Cut d h)

/-! ## The cursor -/

section

variable {fileName : List UInt8} {headers : List TarHeader} {count entry : Int} {fd : Int}
  {task : Descriptors}

theorem readDirLoop_eq : readDirLoop fileName headers count entry =
    ((readDirStop fileName headers count entry).1,
      (readDirStop fileName headers count entry).2.map (listedName fileName)) := by
  induction headers generalizing count entry with
  | nil => rfl
  | cons h rest ih =>
    rw [readDirLoop, readDirStop]
    change (if Matches fileName h then _ else _) = _
    split
    · split
      · exact ih
      · split
        · rfl
        · exact ih
    · exact ih

/-- With the cursor past the first match, the loop stops at the match it is set to. -/
theorem readDirStop_set (skip : Nat) (set : entry ≠ 0) (ahead : entry = count + skip) :
    readDirStop fileName headers count entry =
      match (headers.filter (Matches fileName)).drop skip with
      | [] => (entry, none)
      | h :: _ => (entry + 1, some h) := by
  induction headers generalizing count skip with
  | nil => rw [List.filter_nil, List.drop_nil]; rfl
  | cons h rest ih =>
    rw [readDirStop]
    by_cases here : Matches fileName h
    · have start : ¬(count = 0 ∧ entry = 0) := fun both => set both.2
      rw [if_pos here, if_neg start, List.filter_cons_of_pos (by simpa using here)]
      cases skip with
      | zero =>
        rw [if_pos (by simpa using ahead.symm)]
        rfl
      | succ skip =>
        rw [if_neg (by omega)]
        exact ih skip (by omega)
    · rw [if_neg here, List.filter_cons_of_neg (by simpa using here)]
      exact ih skip ahead

/-- The first call steps over the first match. -/
theorem readDirStop_start : readDirStop fileName headers 0 0 =
    match headers.filter (Matches fileName) with
    | [] => (0, none)
    | [_] => (1, none)
    | _ :: h :: _ => (2, some h) := by
  induction headers with
  | nil => rfl
  | cons h rest ih =>
    rw [readDirStop]
    by_cases here : Matches fileName h
    · rw [if_pos here, if_pos ⟨rfl, rfl⟩, List.filter_cons_of_pos (by simpa using here)]
      have next : readDirStop fileName rest 1 1 = _ := readDirStop_set 0 (by decide) rfl
      rw [List.drop_zero] at next
      rw [Int.zero_add, next]
      cases rest.filter (Matches fileName) with
      | nil => rfl
      | cons second rest => rfl
    · rw [if_neg here, List.filter_cons_of_neg (by simpa using here)]
      exact ih

/-- The descriptor with its cursor at `entry`. -/
def Descriptors.setEntry (task : Descriptors) (fd entry : Int) : Descriptors :=
  { task with fd := Function.update task.fd fd { task.fd fd with entry := entry } }

@[simp] theorem setEntry_fileName :
    ((task.setEntry fd entry).fd fd).fileName = (task.fd fd).fileName := by
  simp [Descriptors.setEntry]

@[simp] theorem setEntry_entry : ((task.setEntry fd entry).fd fd).entry = entry := by
  simp [Descriptors.setEntry]

theorem listing_succ (n : Nat) : listing headers fd (n + 1) task =
    ((readDirStop (task.fd fd).fileName (headers.take 32) 0 (task.fd fd).entry).2,
      (readDirStop (task.fd fd).fileName (headers.take 32) 0 (task.fd fd).entry).2.map
        (listedName (task.fd fd).fileName)) ::
      listing headers fd n (task.setEntry fd
        (readDirStop (task.fd fd).fileName (headers.take 32) 0 (task.fd fd).entry).1) := by
  rw [listing]
  unfold Descriptors.readDirTarfsFile
  rw [readDirLoop_eq]
  rfl

/-- What a call gives for the header that it stops at. -/
def entryOf (fileName : List UInt8) (h : TarHeader) : Option TarHeader × Option (List UInt8) :=
  (some h, some (listedName fileName h))

/-- The calls that `found` serves, and after them the calls that find nothing. -/
def served (fileName : List UInt8) (found : List TarHeader) (n : Nat) :
    List (Option TarHeader × Option (List UInt8)) :=
  ((found.take n).map (entryOf fileName)) ++ List.replicate (n - found.length) (none, none)

theorem served_nil (n : Nat) : served fileName [] n = List.replicate n (none, none) := by
  simp [served]

theorem served_cons (h : TarHeader) (found : List TarHeader) (n : Nat) :
    served fileName (h :: found) (n + 1) = entryOf fileName h :: served fileName found n := by
  simp [served]

theorem listing_set (n e : Nat) (named : (task.fd fd).fileName = fileName)
    (set : (task.fd fd).entry = ((e + 1 : Nat) : Int)) :
    listing headers fd n task =
      served fileName (((headers.take 32).filter (Matches fileName)).drop (e + 1)) n := by
  induction n generalizing task e with
  | zero => simp [listing, served]
  | succ n ih =>
    have stop : readDirStop fileName (headers.take 32) 0 ((e + 1 : Nat) : Int) = _ :=
      readDirStop_set (e + 1) (by omega) (by omega)
    rw [listing_succ, named, set]
    cases left : ((headers.take 32).filter (Matches fileName)).drop (e + 1) with
    | nil =>
      rw [left] at stop
      rw [stop, ih e (by rw [setEntry_fileName, named]) setEntry_entry, left, served_nil, served_nil]
      rfl
    | cons h rest =>
      rw [left] at stop
      have next : ((headers.take 32).filter (Matches fileName)).drop (e + 1 + 1) = rest := by
        rw [← List.drop_drop, left, List.drop_one, List.tail_cons]
      rw [stop, ih (e + 1) (by rw [setEntry_fileName, named]) (by rw [setEntry_entry]; rfl), next,
        served_cons]
      rfl

/-- A fresh descriptor lists all matches but the first. -/
theorem listing_fresh (n : Nat) (named : (task.fd fd).fileName = fileName)
    (fresh : (task.fd fd).entry = 0) : listing headers fd n task =
      served fileName ((headers.take 32).filter (Matches fileName)).tail n := by
  induction n generalizing task with
  | zero => simp [listing, served]
  | succ n ih =>
    have stop : readDirStop fileName (headers.take 32) 0 0 = _ := readDirStop_start
    rw [listing_succ, named, fresh]
    cases found : (headers.take 32).filter (Matches fileName) with
    | nil =>
      rw [found] at stop
      rw [stop, ih (by rw [setEntry_fileName, named]) setEntry_entry, found, List.tail_nil,
        served_nil, served_nil]
      rfl
    | cons first rest =>
      rw [found] at stop
      cases rest with
      | nil =>
        rw [stop, listing_set n 0 (by rw [setEntry_fileName, named]) (by rw [setEntry_entry]; rfl),
          found, List.tail_cons, served_nil]
        exact congrArg _ (served_nil n)
      | cons h rest =>
        rw [stop, listing_set n 1 (by rw [setEntry_fileName, named]) (by rw [setEntry_entry]; rfl),
          found, List.tail_cons, served_cons]
        rfl

/-- What the calls give is what the directory holds exactly if the matches behind the first are. -/
theorem listsContents_iff {members : List TarHeader} {dir : Option TarHeader}
    (named : (task.fd fd).fileName = fileName) (fresh : (task.fd fd).entry = 0) :
    ListsContents members headers dir fd task ↔
      ((headers.take 32).filter (Matches fileName)).tail = contents members dir ∧
        ∀ h ∈ contents members dir, listedName fileName h = relativeName dir h := by
  unfold ListsContents
  simp only [listing_fresh _ named fresh]
  generalize ((headers.take 32).filter (Matches fileName)).tail = found
  generalize contents members dir = inside
  constructor
  · intro all
    have both := all found.length
    unfold served at both
    rw [List.take_of_length_le (Nat.le_add_left _ _), Nat.add_sub_cancel] at both
    -- The calls that find something come first on both sides.
    have hits := congrArg (List.filter fun answer => answer.1.isSome) both
    have kept (f : TarHeader → Option TarHeader × Option (List UInt8)) (l : List TarHeader)
        (hit : ∀ h, (f h).1.isSome) :
        (l.map f).filter (fun answer => answer.1.isSome) = l.map f := by
      rw [List.filter_eq_self]
      intro answer member
      obtain ⟨h, _, rfl⟩ := List.mem_map.mp member
      exact hit h
    have dropped (n : Nat) : (List.replicate n ((none, none) : Option TarHeader × Option
        (List UInt8))).filter (fun answer => answer.1.isSome) = [] := by
      rw [List.filter_eq_nil_iff]
      intro answer member
      rw [List.eq_of_mem_replicate member]
      decide
    rw [List.filter_append, List.filter_append, kept _ _ fun _ => rfl, kept _ _ fun _ => rfl,
      dropped, dropped, List.append_nil, List.append_nil] at hits
    have same : found = inside := by
      have stops := congrArg (List.map Prod.fst) hits
      rw [List.map_map, List.map_map] at stops
      exact List.map_injective_iff.mpr (Option.some_injective _) stops
    subst same
    refine ⟨rfl, fun h member => ?_⟩
    have name := List.map_inj_left.mp hits h member
    exact Option.some_inj.mp (congrArg Prod.snd name)
  · rintro ⟨rfl, names⟩ n
    unfold served
    rw [List.take_of_length_le (Nat.le_add_right _ _), Nat.add_sub_cancel_left]
    congr 1
    refine List.map_congr_left fun h member => ?_
    rw [entryOf, names h member]

end

/-! ## Names and their beginnings -/

section

variable {s t p : List UInt8} {d h : TarHeader} {members : List TarHeader}

theorem startsWith_low (s t : List UInt8) : -1 ≤ startsWith s t := by
  induction s generalizing t with
  | nil => simp [startsWith]
  | cons a s ih =>
    cases t with
    | nil => simp [startsWith]
    | cons b t =>
      have rest := ih t
      rw [startsWith]
      split <;> omega

/-- The test asks for two characters in common. -/
theorem startsWith_pos (two : 2 ≤ t.length) : 0 < startsWith s t ↔ s.take 2 = t.take 2 := by
  obtain ⟨c, d, t, rfl⟩ : ∃ c d rest, t = c :: d :: rest := by
    cases t with
    | nil => simp at two
    | cons c t =>
      cases t with
      | nil => simp at two
      | cons d t => exact ⟨c, d, t, rfl⟩
  cases s with
  | nil => simp [startsWith]
  | cons a s =>
    cases s with
    | nil =>
      simp only [startsWith]
      split <;> simp
    | cons b s =>
      have low := startsWith_low s t
      simp only [startsWith]
      by_cases first : a = c
      · by_cases second : b = d
        · simp only [first, second, if_true, List.take_succ_cons, List.take_zero, iff_true]
          omega
        · simp [first, second]
      · simp [first]

theorem startsWith_append (p s t : List UInt8) :
    startsWith (p ++ s) (p ++ t) = p.length + startsWith s t := by
  induction p with
  | nil => simp
  | cons c p ih =>
    rw [List.cons_append, List.cons_append, startsWith, if_pos rfl, ih, List.length_cons]
    omega

theorem cString_prefix {bytes : Nat → UInt8} {i n limit : Nat} (within : n ≤ limit) :
    cString bytes i n = (cString bytes i limit).take n := by
  induction n generalizing i limit with
  | zero => rfl
  | succ n ih =>
    obtain ⟨limit, rfl⟩ : ∃ l, limit = l + 1 := ⟨limit - 1, by omega⟩
    rw [cString, cString]
    split
    · rfl
    · have later : n ≤ limit := by omega
      rw [List.take_succ_cons, ih later]

theorem TarHeader.entryName_eq (h : TarHeader) : h.entryName = h.name.take 100 :=
  cString_prefix (by decide)

theorem TarHeader.entryName_min (h : TarHeader) :
    h.entryName.length = min 100 h.name.length := by
  rw [h.entryName_eq, List.length_take]

theorem TarHeader.name_char {k : Nat} (inside : k < h.name.length) :
    h.name[k]? = some (h.bytes k) := by
  unfold TarHeader.name at inside ⊢
  rw [List.getElem?_eq_getElem inside, cString_char, Nat.zero_add]

theorem TarHeader.terminated_iff : h.Terminated ↔ h.name = h.entryName := by
  refine ⟨fun ended => ended.name, fun same => ?_⟩
  by_contra runs
  have long := h.name_long runs
  have short := h.entryName_length
  rw [same] at long
  omega

theorem TarHeader.Directory.two (directory : d.Directory) :
    d.entryName = [47] ∨ 2 ≤ d.entryName.length := by
  obtain ⟨init, last⟩ := List.getLast?_eq_some_iff.mp directory
  cases init with
  | nil => exact Or.inl last
  | cons c init =>
    right
    rw [last]
    simp

/-- What `file_name` holds agrees with the name on the first two characters. -/
theorem fileNameField_two (two : 2 ≤ d.entryName.length) :
    2 ≤ (fileNameField d.name).length ∧ (fileNameField d.name).take 2 = d.entryName.take 2 := by
  rw [d.entryName_min] at two
  rw [TarHeader.entryName_eq, List.take_take]
  unfold fileNameField
  split
  · exact ⟨by omega, rfl⟩
  · refine ⟨?_, ?_⟩
    · simp only [List.length_append, List.length_take, List.length_singleton]
      omega
    · rw [List.take_append_of_le_length (by rw [List.length_take]; omega), List.take_take]
      rfl

theorem fileNameField_slash (slash : d.entryName = [47]) : fileNameField d.name = [47] := by
  have name : d.name = [47] := by
    rw [TarHeader.short_entryName (by rw [slash]; decide), slash]
  rw [name]
  rfl

theorem matches_iff (directory : d.Directory) : Matches (fileNameField d.name) h ↔
    d.entryName = [47] ∨ h.name.take 2 = d.entryName.take 2 := by
  rcases directory.two with slash | two
  · simp [Matches, slash, fileNameField_slash slash]
  · obtain ⟨long, same⟩ := fileNameField_two two
    have apart : fileNameField d.name ≠ [47] := by
      intro slash
      rw [slash] at long
      exact absurd long (by decide)
    have apart' : d.entryName ≠ [47] := by
      intro slash
      rw [slash] at two
      exact absurd two (by decide)
    rw [Matches, startsWith_pos long, same]
    simp [apart, apart']

/-- A directory and everything that begins with its name pass the test. -/
theorem matches_begins (directory : d.Directory) (inside : d.entryName <+: h.entryName) :
    Matches (fileNameField d.name) h := by
  rw [matches_iff directory]
  rcases directory.two with slash | two
  · exact Or.inl slash
  · right
    have whole : h.entryName.take 2 = h.name.take 2 := by
      rw [TarHeader.entryName_eq, List.take_take]
      rfl
    obtain ⟨rest, same⟩ := inside
    rw [← whole, ← same, List.take_append_of_le_length two]

/-- A list that is its own tail is constant. -/
theorem shift_replicate {c : UInt8} {l : List UInt8} (shift : l = (c :: l).take l.length) :
    l = List.replicate l.length c := by
  induction l with
  | nil => rfl
  | cons a l ih =>
    rw [List.length_cons, List.take_succ_cons] at shift
    obtain ⟨rfl, rest⟩ := List.cons.inj shift
    rw [List.length_cons, List.replicate_succ, ← ih rest]

theorem startsWith_nil (s : List UInt8) : startsWith s [] = -1 := by
  cases s <;> rfl

theorem startsWith_one (s : List UInt8) :
    startsWith s [1] = if s.head? = some 1 then 0 else -1 := by
  cases s with
  | nil => rfl
  | cons c s =>
    rw [startsWith, startsWith_nil]
    simp

theorem TarHeader.Inside.prefix_name (inside : d.Inside h) : d.entryName <+: h.name :=
  inside.1.trans (h.entryName_eq ▸ List.take_prefix 100 h.name)

theorem TarHeader.Inside.longer (inside : d.Inside h) :
    d.entryName.length < h.entryName.length := by
  have most := inside.1.length_le
  have other : d.entryName.length ≠ h.entryName.length := fun same =>
    inside.2 (inside.1.eq_of_length same)
  omega

/-- A directory name of less than 52 characters is compared as a whole. -/
theorem listedName_short (inside : d.Inside h) (short : d.name.length < 52) :
    listedName (fileNameField d.name) h = h.name.drop d.entryName.length := by
  have name : d.name = d.entryName := TarHeader.short_name (by omega)
  obtain ⟨rest, whole⟩ := inside.prefix_name
  have starts : startsWith h.name d.entryName = d.entryName.length - 1 := by
    have split_ := startsWith_append d.entryName rest []
    rw [whole, List.append_nil, startsWith_nil] at split_
    omega
  rw [fileNameField, if_pos short, name, listedName, starts, substring]
  congr 1
  omega

/-- Of a longer one, only the first 52 characters are, and the byte 1 behind them. -/
theorem listedName_long (inside : d.Inside h) (long : ¬d.name.length < 52) :
    52 ≤ d.entryName.length ∧ listedName (fileNameField d.name) h =
      h.name.drop (if h.bytes 52 = 1 then 53 else 52) := by
  have cut : 52 ≤ d.entryName.length := by
    rw [d.entryName_min]
    omega
  have ahead : d.name.take 52 = h.name.take 52 := by
    have first : d.entryName.take 52 = d.name.take 52 := by
      rw [TarHeader.entryName_eq, List.take_take]
      rfl
    obtain ⟨rest, whole⟩ := inside.prefix_name
    rw [← first, ← whole, List.take_append_of_le_length cut]
  have more := inside.longer
  have most := h.entryName_min
  have behind : (h.name.drop 52).head? = some (h.bytes 52) := by
    rw [List.head?_drop, TarHeader.name_char (by omega)]
  have starts : startsWith h.name (h.name.take 52 ++ [1]) =
      52 + if h.bytes 52 = 1 then 0 else -1 := by
    have split_ := startsWith_append (h.name.take 52) (h.name.drop 52) [1]
    rw [List.take_append_drop, startsWith_one, behind, List.length_take] at split_
    rw [split_]
    simp only [Option.some_inj]
    omega
  refine ⟨cut, ?_⟩
  rw [fileNameField, if_neg long, ahead, listedName, starts, substring]
  split <;> rfl

/-- With a byte 1 there, one character too many is left out, which only shows no difference where
the rest of the name is that byte, and one longer than its field. -/
theorem shifted_iff (directory : d.Directory) (inside : d.Inside h)
    (cut : 52 ≤ d.entryName.length) (one : h.bytes 52 = 1) :
    h.name.drop 53 = h.entryName.drop d.entryName.length ↔
      d.entryName.length = 52 ∧ h.name = d.entryName ++ List.replicate 49 1 := by
  have more := inside.longer
  have most := h.entryName_min
  obtain ⟨rest, whole⟩ := inside.prefix_name
  constructor
  · intro same
    have lengths := congrArg List.length same
    rw [List.length_drop, List.length_drop] at lengths
    have length : d.entryName.length = 52 := by
      by_contra other
      have next : d.entryName.length = 53 := by omega
      -- The last character of the directory is a `/`, and not the byte 1.
      have last : d.entryName[52]? = some 47 := by
        rw [← directory, List.getLast?_eq_getElem?, next]
      have here : h.name[52]? = some (h.bytes 52) := TarHeader.name_char (by omega)
      rw [← whole, List.getElem?_append_left (by omega), last, one] at here
      cases here
    have long : h.name.length = 101 := by omega
    have tail : rest.length = 49 := by
      have sum := congrArg List.length whole
      rw [List.length_append] at sum
      omega
    refine ⟨length, ?_⟩
    rw [← whole]
    congr 1
    obtain ⟨c, z, rfl⟩ := List.exists_cons_of_length_eq_add_one tail
    rw [List.length_cons] at tail
    have first : c = 1 := by
      have here : h.name[52]? = some (h.bytes 52) := TarHeader.name_char (by omega)
      rw [← whole, List.getElem?_append_right (by omega), length, Nat.sub_self,
        List.getElem?_cons_zero, one, Option.some_inj] at here
      exact here
    subst first
    have shift : z = (1 :: z).take z.length := by
      rw [h.entryName_eq, ← whole, length, List.drop_take, ← length, List.drop_left,
        List.drop_append, List.drop_eq_nil_of_le (by omega), List.nil_append, length,
        List.drop_one, List.tail_cons] at same
      rw [show z.length = 100 - 52 by omega]
      exact same
    rw [shift_replicate shift, show z.length = 48 by omega]
    rfl
  · rintro ⟨length, ones⟩
    have stored : h.name.drop 53 = List.replicate 48 1 := by
      have behind : d.entryName.length ≤ 53 := by omega
      rw [ones, List.drop_append, List.drop_eq_nil_of_le behind, length]
      rfl
    have relative : h.entryName.drop d.entryName.length = List.replicate 48 1 := by
      have within : d.entryName.length ≤ 100 := by omega
      rw [h.entryName_eq, ones, List.take_append, List.take_of_length_le within, List.drop_left,
        length]
      rfl
    rw [stored, relative]

/-- The name stored is the one relative to the directory as `Cut` has it. -/
theorem listedName_iff (directory : d.Directory) (inside : d.Inside h) :
    listedName (fileNameField d.name) h = h.entryName.drop d.entryName.length ↔ Cut d h := by
  have more := inside.longer
  have most := h.entryName_min
  obtain ⟨rest, whole⟩ := inside.prefix_name
  by_cases short : d.name.length < 52
  · have few : d.entryName.length < 52 := by
      rw [d.entryName_min]
      omega
    rw [listedName_short inside short]
    constructor
    · intro same
      refine Or.inl ⟨TarHeader.terminated_iff.mpr ?_, Or.inl few⟩
      obtain ⟨rest', whole'⟩ := inside.1
      rw [← whole, ← whole', List.drop_left, List.drop_left] at same
      rw [← whole, ← whole', same]
    · rintro (⟨ended, _⟩ | ⟨exact_, _⟩)
      · rw [ended.name]
      · omega
  · obtain ⟨cut, name⟩ := listedName_long inside short
    rw [name]
    by_cases one : h.bytes 52 = 1
    · rw [if_pos one, shifted_iff directory inside cut one]
      constructor
      · exact Or.inr
      · rintro (⟨_, few | ⟨_, other⟩⟩ | shifted)
        · omega
        · exact absurd one other
        · exact shifted
    · rw [if_neg one]
      constructor
      · intro same
        have lengths := congrArg List.length same
        rw [List.length_drop, List.length_drop] at lengths
        refine Or.inl ⟨TarHeader.terminated_iff.mpr ?_, Or.inr ⟨by omega, one⟩⟩
        rw [TarHeader.entryName_eq, List.take_of_length_le (by omega)]
      · rintro (⟨ended, few | ⟨length, _⟩⟩ | ⟨length, ones⟩)
        · omega
        · rw [ended.name, length]
        · have here : h.name[52]? = some (h.bytes 52) := TarHeader.name_char (by omega)
          rw [ones, List.getElem?_append_right (by omega), length] at here
          exact absurd (Option.some_inj.mp here).symm one

end

/-! ## The order of the archive -/

/-- The header `a` lies in front of `b`. -/
def TarHeader.Before (a b : TarHeader) : Prop := a.addr < b.addr

instance : Std.Irrefl TarHeader.Before := ⟨fun a => Nat.lt_irrefl a.addr⟩

instance : Std.Antisymm TarHeader.Before :=
  ⟨fun _ _ before after => absurd (Nat.lt_trans before after) (Nat.lt_irrefl _)⟩

section

variable {memory : Nat → UInt8} {start stop addr : Nat} {members headers : List TarHeader}
  {d h : TarHeader} {derive : List UInt8 → List UInt8} {path : List UInt8} {dir : Option TarHeader}

theorem Ustar.above (archive : Ustar memory stop addr members) (member : h ∈ members) :
    addr ≤ h.addr := by
  induction archive with
  | close _ _ => cases member
  | member sized rest ih =>
    rcases List.mem_cons.mp member with rfl | later
    · exact Nat.le_refl _
    · exact Nat.le_trans (Nat.le_add_right _ _) (ih later)

theorem Ustar.ascending (archive : Ustar memory stop addr members) :
    members.Pairwise TarHeader.Before := by
  induction archive with
  | close _ _ => exact List.Pairwise.nil
  | @member addr members sized rest ih =>
    refine List.Pairwise.cons (fun h later => ?_) ih
    have above := rest.above later
    unfold TarHeader.span at above
    change addr < h.addr
    omega

/-- The size field of a member is not zero. -/
theorem Ustar.not_blank (archive : Ustar memory stop addr members) (member : h ∈ members) :
    ¬h.Blank := by
  induction archive with
  | close _ _ => cases member
  | @member addr members sized rest ih =>
    rcases List.mem_cons.mp member with rfl | later
    · intro blank
      have digit : TarHeader.bytes ⟨memory, addr⟩ 124 ∈ TarHeader.digits ⟨memory, addr⟩ :=
        List.mem_map.mpr ⟨0, by simp, rfl⟩
      have low := (sized.octal _ digit).1
      rw [blank.zero 124 (by decide)] at low
      exact absurd low (by decide)
    · exact ih later

/-- A member among the first 32 headers is one of the first 32 members. -/
theorem Ustar.take_of_mem (archive : Ustar memory stop start members)
    (loaded : initTarfs memory start stop = some headers) (here : h ∈ headers.take 32)
    (member : h ∈ members) : h ∈ members.take 32 := by
  obtain ⟨blanks, rfl, _, all⟩ := archive.table loaded
  rw [List.take_append] at here
  rcases List.mem_append.mp here with own | blank
  · exact own
  · exact absurd (all h (List.mem_of_mem_take blank)) (archive.not_blank member)

/-- If nothing else passes the test and nothing is out of reach, what passes is the directory and
what it holds. -/
theorem matches_whole (archive : Ustar memory stop start members)
    (loaded : initTarfs memory start stop = some headers) (first : DirectoriesFirst members)
    (listed : d ∈ headers.take 32) (member : d ∈ members) (directory : d.Directory)
    (only : ∀ h ∈ headers.take 32, Matches (fileNameField d.name) h →
      h = d ∨ (h ∈ members ∧ d.Inside h))
    (reach : ∀ h ∈ members, d.Inside h → h ∈ members.take 32) :
    (headers.take 32).filter (Matches (fileNameField d.name)) = d :: members.filter d.Inside := by
  refine List.Pairwise.eq_of_mem_iff (r := TarHeader.Before) ?_ ?_ fun h => ?_
  · -- The zero blocks do not pass the test, and the members stand in order.
    obtain ⟨blanks, rfl, _, all⟩ := archive.table loaded
    have none : (blanks.take (32 - members.length)).filter (Matches (fileNameField d.name)) = [] := by
      rw [List.filter_eq_nil_iff]
      intro h here test
      have blank := all h (List.mem_of_mem_take here)
      have within : h ∈ (members ++ blanks).take 32 := by
        rw [List.take_append]
        exact List.mem_append_right _ here
      rcases only h within (by simpa using test) with rfl | ⟨member_, _⟩
      · exact archive.not_blank member blank
      · exact archive.not_blank member_ blank
    rw [List.take_append, List.filter_append, none, List.append_nil]
    exact (archive.ascending.sublist (List.take_sublist 32 members)).filter _
  · refine List.Pairwise.cons (fun h later => ?_) (archive.ascending.filter _)
    obtain ⟨member_, within⟩ := List.mem_filter.mp later
    exact first d member h member_ directory (by simpa using within)
  · constructor
    · intro here
      obtain ⟨here, test⟩ := List.mem_filter.mp here
      rcases only h here (by simpa using test) with rfl | ⟨member_, within⟩
      · exact List.mem_cons_self
      · exact List.mem_cons_of_mem d (List.mem_filter.mpr ⟨member_, by simpa using within⟩)
    · intro here
      rcases List.mem_cons.mp here with rfl | later
      · exact List.mem_filter.mpr
          ⟨listed, by simpa using matches_begins directory (List.prefix_refl _)⟩
      · obtain ⟨member_, within⟩ := List.mem_filter.mp later
        have inside : d.Inside h := by simpa using within
        exact List.mem_filter.mpr ⟨archive.take_mem loaded (reach h member_ inside),
          by simpa using matches_begins directory inside.1⟩

/-- A directory's own header is the one that is stepped over, and what follows is what it holds,
if nothing else passes the test and nothing is out of reach. -/
theorem tail_iff (archive : Ustar memory stop start members)
    (loaded : initTarfs memory start stop = some headers) (first : DirectoriesFirst members)
    (listed : d ∈ headers.take 32) (member : d ∈ members) (directory : d.Directory) :
    ((headers.take 32).filter (Matches (fileNameField d.name))).tail =
        members.filter d.Inside ↔
      (∀ h ∈ headers.take 32, Matches (fileNameField d.name) h →
        h = d ∨ (h ∈ members ∧ d.Inside h)) ∧
      ∀ h ∈ members, d.Inside h → h ∈ members.take 32 := by
  have own : d ∈ (headers.take 32).filter (Matches (fileNameField d.name)) :=
    List.mem_filter.mpr ⟨listed, by simpa using matches_begins directory (List.prefix_refl _)⟩
  constructor
  · intro same
    have inside (h : TarHeader) (later : h ∈ ((headers.take 32).filter
        (Matches (fileNameField d.name))).tail) : h ∈ members ∧ d.Inside h := by
      rw [same] at later
      simpa using later
    cases found : (headers.take 32).filter (Matches (fileNameField d.name)) with
    | nil =>
      rw [found] at own
      cases own
    | cons head rest =>
      rw [found, List.tail_cons] at inside same
      -- The directory is not in itself, and so not behind the first match.
      have head_ : d = head := by
        rw [found] at own
        rcases List.mem_cons.mp own with here | later
        · exact here
        · exact absurd rfl (inside d later).2.2
      refine ⟨fun h here test => ?_, fun h member_ within => ?_⟩
      · have hit : h ∈ head :: rest := by
          rw [← found]
          exact List.mem_filter.mpr ⟨here, by simpa using test⟩
        rcases List.mem_cons.mp hit with rfl | later
        · exact Or.inl head_.symm
        · exact Or.inr (inside h later)
      · have later : h ∈ rest := by
          rw [same]
          exact List.mem_filter.mpr ⟨member_, by simpa using within⟩
        have here : h ∈ (headers.take 32).filter (Matches (fileNameField d.name)) := by
          rw [found]
          exact List.mem_cons_of_mem head later
        exact archive.take_of_mem loaded (List.mem_filter.mp here).1 member_
  · rintro ⟨only, reach⟩
    have whole := matches_whole archive loaded first listed member directory only reach
    rw [whole, List.tail_cons]

/-- Everything passes the test for the root, the zero block too, and the first member is stepped
over. -/
theorem root_tail_iff (archive : Ustar memory stop start members)
    (loaded : initTarfs memory start stop = some headers) :
    ((headers.take 32).filter (Matches [47])).tail = members ↔ members = [] ∧ headers.length = 1 := by
  have all : (headers.take 32).filter (Matches [47]) = headers.take 32 := by
    rw [List.filter_eq_self]
    intro h _
    simp [Matches]
  obtain ⟨blanks, rfl, some, blank⟩ := archive.table loaded
  rw [all]
  constructor
  · intro same
    cases members with
    | nil =>
      refine ⟨rfl, ?_⟩
      have short := congrArg List.length same
      have long := List.length_pos_iff.mpr some
      simp at short ⊢
      omega
    | cons first rest =>
      rw [List.cons_append, List.take_succ_cons, List.tail_cons] at same
      have again : first ∈ (rest ++ blanks).take 31 := by
        rw [same]
        exact List.mem_cons_self
      rcases List.mem_append.mp (List.mem_of_mem_take again) with later | zero
      · have before := (List.pairwise_cons.mp archive.ascending).1 first later
        exact absurd before (Nat.lt_irrefl _)
      · exact absurd (blank first zero) (archive.not_blank List.mem_cons_self)
  · rintro ⟨rfl, one⟩
    rw [List.nil_append] at one ⊢
    obtain ⟨zero, rfl⟩ := List.length_eq_one_iff.mp one
    rfl

theorem opened_listing (opens : OpensDirectory headers derive path dir) (task : Descriptors) :
    let opened := task.openDirFile headers derive path
    (opened.2.fd opened.1).entry = 0 ∧ (opened.2.fd opened.1).fileName =
      dir.elim [47] fun d => fileNameField d.name := by
  cases dir with
  | none =>
    have root : path = [47] := opens
    simp [Descriptors.openDirFile, root]
  | some d =>
    obtain ⟨other, found⟩ := opens
    simp [Descriptors.openDirFile, other, found, Descriptors.setCurrentTaskVal]

/-- The calls on a descriptor for the root or a directory list what is in it exactly where it is
listable. -/
theorem listing_iff (archive : Ustar memory stop start members)
    (loaded : initTarfs memory start stop = some headers) (first : DirectoriesFirst members)
    (opens : OpensDirectory headers derive path dir)
    (own : ∀ d ∈ dir, d ∈ members ∧ d.Directory) (task : Descriptors) :
    ListsContents members headers dir (task.openDirFile headers derive path).1
        (task.openDirFile headers derive path).2 ↔
      Listable members headers dir := by
  obtain ⟨fresh, named⟩ := opened_listing opens task
  rw [listsContents_iff named fresh]
  cases dir with
  | none =>
    change (_ ∧ _) ↔ (_ ∧ _)
    rw [show contents members none = members from rfl, Option.elim_none,
      root_tail_iff archive loaded]
    constructor
    · exact fun both => both.1
    · rintro ⟨rfl, one⟩
      exact ⟨⟨rfl, one⟩, nofun⟩
  | some d =>
    obtain ⟨member, directory⟩ := own d rfl
    obtain ⟨_, found⟩ := opens
    rw [isValidDirectory_eq] at found
    have listed := List.mem_of_find?_eq_some (Option.filter_eq_some_iff.mp found).1
    rw [show contents members (some d) = members.filter d.Inside from rfl, Option.elim_some,
      tail_iff archive loaded first listed member directory]
    have names : (∀ h ∈ members.filter d.Inside, listedName (fileNameField d.name) h =
        relativeName (some d) h) ↔ ∀ h ∈ members, d.Inside h → Cut d h := by
      constructor
      · intro all h member_ inside
        rw [← listedName_iff directory inside]
        exact all h (List.mem_filter.mpr ⟨member_, by simpa using inside⟩)
      · intro all h here
        obtain ⟨member_, within⟩ := List.mem_filter.mp here
        have inside : d.Inside h := by simpa using within
        exact (listedName_iff directory inside).mpr (all h member_ inside)
    rw [names]
    simp only [matches_iff directory]
    constructor
    · rintro ⟨⟨only, reach⟩, cut⟩
      exact ⟨only, fun h member_ inside => ⟨reach h member_ inside, cut h member_ inside⟩⟩
    · rintro ⟨only, both⟩
      exact ⟨⟨only, fun h member_ inside => (both h member_ inside).1⟩,
        fun h member_ inside => (both h member_ inside).2⟩

end

/-! ## An archive with a directory -/

/-- The directory `b/`, with `b/x` and `b/yz` in it, and `c` beside it. -/
def populated : List (List UInt8) := [[98, 47], [98, 47, 120], [98, 47, 121, 122], [99]]

def populatedHeader (i : Nat) : TarHeader := ⟨flatArchive populated, 512 * (i + 1)⟩

def populatedDirectory : TarHeader := populatedHeader 0

theorem populated_members : flatMembers populated =
    [populatedDirectory, populatedHeader 1, populatedHeader 2, populatedHeader 3] := rfl

theorem populated_first : DirectoriesFirst (flatMembers populated) := by
  unfold DirectoriesFirst
  decide +kernel

theorem populated_inside : populatedDirectory.Inside (populatedHeader 1) ∧
    populatedDirectory.Inside (populatedHeader 2) ∧
    ¬populatedDirectory.Inside (populatedHeader 3) := by
  decide +kernel

theorem populated_listable :
    Listable (flatMembers populated) (flatHeaders populated) (some populatedDirectory) := by
  obtain ⟨-, phantom, table, blank⟩ := flat_scanned populated (by decide)
  obtain ⟨first, second, beside⟩ := populated_inside
  have short : populatedDirectory.entryName.length < 52 := by decide +kernel
  refine ⟨fun h here same => ?_, fun h member within => ?_⟩
  · rw [table, populated_members] at here
    simp only [List.cons_append, List.nil_append, List.take_succ_cons, List.take_nil,
      List.mem_cons, List.not_mem_nil, or_false] at here
    rcases here with rfl | rfl | rfl | rfl | rfl
    · exact Or.inl rfl
    · exact Or.inr ⟨by simp [populated_members], first⟩
    · exact Or.inr ⟨by simp [populated_members], second⟩
    · exact absurd same (by decide +kernel)
    · rw [blank.name] at same
      exact absurd same (by decide +kernel)
  · rw [populated_members] at member ⊢
    simp only [List.mem_cons, List.not_mem_nil, or_false] at member
    rcases member with rfl | rfl | rfl | rfl
    · exact absurd rfl within.2
    · exact ⟨by simp, Or.inl ⟨⟨3, by decide, by decide +kernel⟩, Or.inl short⟩⟩
    · exact ⟨by simp, Or.inl ⟨⟨4, by decide, by decide +kernel⟩, Or.inl short⟩⟩
    · exact absurd within beside

/-- Descriptors of which none was opened. -/
def closedFiles : Descriptors where
  fd _ := ⟨0, [], 0, 0, 0, 0, 0, none⟩
  fdC := 0

/-- `b/` is listed: `x`, `yz`, and then 0. -/
theorem listing_populated :
    ListsContents (flatMembers populated) (flatHeaders populated) (some populatedDirectory) 3
      (closedFiles.openDirFile (flatHeaders populated) id [98, 47]).2 := by
  obtain ⟨loaded, phantom, table, blank⟩ := flat_scanned populated (by decide)
  have name : populatedDirectory.name = [98, 47] := by decide +kernel
  have last : populatedDirectory.lastChar = 47 := by decide +kernel
  have found : isValidDirectory (flatHeaders populated) id [98, 47] = some populatedDirectory := by
    rw [isValidDirectory_eq, table, populated_members]
    simp [name, last]
  have opened : (closedFiles.openDirFile (flatHeaders populated) id [98, 47]).1 = 3 := by
    simp [Descriptors.openDirFile, found, Descriptors.setCurrentTaskVal, closedFiles]
  have opens : OpensDirectory (flatHeaders populated) id [98, 47] (some populatedDirectory) :=
    ⟨by decide, found⟩
  have own : ∀ d ∈ some populatedDirectory, d ∈ flatMembers populated ∧ d.Directory := by
    rintro d ⟨⟩
    rw [populated_members]
    exact ⟨List.mem_cons_self, by decide +kernel⟩
  rw [← opened]
  exact (listing_iff (flat_ustar populated) loaded populated_first opens own closedFiles).mpr
    populated_listable

/-- The directory `b/`, and `b/x` in it. -/
def nested : List (List UInt8) := [[98, 47], [98, 47, 120]]

/-- Its root is not listed: the first call gives `b/x`. -/
theorem listing_root : Ustar (flatArchive nested) (flatStop nested) 512 (flatMembers nested) ∧
    DirectoriesFirst (flatMembers nested) ∧
    ¬ListsContents (flatMembers nested) (flatHeaders nested) none 3
      (closedFiles.openDirFile (flatHeaders nested) id [47]).2 := by
  have first : DirectoriesFirst (flatMembers nested) := by
    unfold DirectoriesFirst
    decide +kernel
  refine ⟨flat_ustar nested, first, fun all => ?_⟩
  have calls := congrArg (List.map Prod.snd) (all 0)
  have given : (listing (flatHeaders nested) 3 2
      (closedFiles.openDirFile (flatHeaders nested) id [47]).2).map Prod.snd =
      [some [98, 47, 120], some []] := by decide +kernel
  rw [show (contents (flatMembers nested) none).length + 0 = 2 from rfl, given] at calls
  have wanted : (((contents (flatMembers nested) none).map fun h =>
      (some h, some (relativeName none h))) ++ List.replicate 0 (none, none)).map Prod.snd =
      [some [98, 47], some [98, 47, 120]] := by decide +kernel
  rw [wanted] at calls
  cases calls

end LateOS
