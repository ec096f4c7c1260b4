import LateOS.Files.Descriptor

/-!
# Reading a file

What a sequence of `readTarfsFile` calls on a new descriptor delivers, and what the member of the
archive holds.
-/
namespace LateOS

namespace TarHeader

variable (h : TarHeader)

/-- The size of the data, by the format: the size field in octal. -/
def octalSize : Nat := h.size.foldl (fun n c => 8 * n + (c.toNat - 48)) 0

/-- The data begin 512 bytes behind the header's address. -/
def data : List UInt8 := (List.range h.octalSize).map fun k => h.bytes (512 + k)

/-- The size field holds eleven octal digits. -/
structure WellFormed : Prop where
  length : h.size.length = 11
  digits : ∀ c ∈ h.size, 48 ≤ c ∧ c ≤ 55

/-- From `pos` on, what each call delivers is in the data too. -/
def Repeats : Nat → List Nat → Prop
  | _, [] => True
  | pos, count :: counts =>
    (∀ k < min (toBinaryFile h.size) count, h.bytes (1 + k) = h.bytes (512 + pos + k)) ∧
      Repeats (pos + min (toBinaryFile h.size) count) counts

end TarHeader

/-- Counts that an `int` can hold. -/
def Counts (counts : List Nat) : Prop := ∀ c ∈ counts, c < 2 ^ 31

/-- The calls together deliver the data up to the sum of the counts, and return how many bytes
each of them delivered. -/
def Delivers (task : Descriptors) (fd : Int) (h : TarHeader) (counts : List Nat) : Prop :=
  ∃ results, counts.mapM (fun c : Nat => task.readTarfsFile fd c) = some results ∧
    (results.map Prod.fst).flatten = h.data.take counts.sum ∧
    ∀ r ∈ results, r.2 = r.1.length

variable {h : TarHeader} {task : Descriptors} {fd : Int} {c n : Nat} {counts : List Nat}

/-- What a call delivers of an open file. -/
def TarHeader.chunk (h : TarHeader) (c : Nat) : List UInt8 :=
  (List.range (min (toBinaryFile h.size) c)).map fun k => h.bytes (1 + k)

theorem wrapInt_small (small : n < 2 ^ 31) : wrapInt n = n := by
  unfold wrapInt
  rw [Int.bmod_def]
  omega

/-- The descriptor has been opened for the member `h`. -/
structure Opened (task : Descriptors) (fd : Int) (h : TarHeader) : Prop where
  size : (task.fd fd).size = toBinaryFile h.size
  address : (task.fd fd).address = some h

theorem Opened.read (opened : Opened task fd h) (small : c < 2 ^ 31) :
    task.readTarfsFile fd c = some (h.chunk c, ((h.chunk c).length : Int)) := by
  have unsigned : ((c : Int) % 2 ^ 64).toNat = c := by omega
  unfold Descriptors.readTarfsFile
  simp only [opened.address, opened.size, unsigned, Option.bind_eq_bind, Option.bind_some]
  unfold Descriptors.setFilePath TarHeader.chunk
  split
  next less =>
    rw [wrapInt_small (Nat.lt_trans less small), Nat.min_eq_left (Nat.le_of_lt less)]
    simp
  next more =>
    rw [Nat.min_eq_right (Nat.le_of_not_lt more)]
    simp

theorem Opened.reads (opened : Opened task fd h) (small : Counts counts) :
    counts.mapM (fun c : Nat => task.readTarfsFile fd c) =
      some (counts.map fun c => (h.chunk c, ((h.chunk c).length : Int))) := by
  induction counts with
  | nil => rfl
  | cons c rest ih =>
    rw [List.mapM_cons, opened.read (small c (by simp)),
      ih fun c member => small c (List.mem_cons_of_mem _ member)]
    rfl

/-! ## When the two agree -/

theorem TarHeader.data_take (h : TarHeader) (n : Nat) :
    h.data.take n = (List.range (min n h.octalSize)).map fun k => h.bytes (512 + k) := by
  unfold data
  rw [← List.map_take, List.take_range]

theorem TarHeader.chunk_length (h : TarHeader) (c : Nat) :
    (h.chunk c).length = min (toBinaryFile h.size) c := by
  simp [chunk]

theorem TarHeader.chunks_length (h : TarHeader) (counts : List Nat) :
    ((counts.map h.chunk).flatten).length = (counts.map (min (toBinaryFile h.size))).sum := by
  rw [List.length_flatten, List.map_map]
  congr 1
  exact List.map_congr_left fun c _ => h.chunk_length c

/-- What the calls deliver is a piece of the data exactly when it repeats the data. -/
theorem TarHeader.chunks_iff (h : TarHeader) (pos : Nat) (counts : List Nat) :
    (counts.map h.chunk).flatten =
        (List.range (counts.map (min (toBinaryFile h.size))).sum).map
          (fun k => h.bytes (512 + pos + k)) ↔ h.Repeats pos counts := by
  induction counts generalizing pos with
  | nil => simp [Repeats]
  | cons c rest ih =>
    -- Both sides split where the first call ends.
    simp only [List.map_cons, List.flatten_cons, List.sum_cons, List.range_add, List.map_append,
      List.map_map, Repeats, ← ih]
    constructor
    · intro equal
      obtain ⟨now, later⟩ := List.append_inj equal (by simp [chunk])
      refine ⟨?_, ?_⟩
      · simpa [chunk, List.map_inj_left] using now
      · rw [later]
        exact List.map_congr_left fun k _ => by simp [Nat.add_assoc]
    · rintro ⟨now, later⟩
      congr 1
      · simpa [chunk, List.map_inj_left] using now
      · rw [later]
        exact List.map_congr_left fun k _ => by simp [Nat.add_assoc]

theorem Opened.delivers_iff (opened : Opened task fd h) (small : Counts counts) :
    Delivers task fd h counts ↔
      (counts.map (min (toBinaryFile h.size))).sum = min h.octalSize counts.sum ∧
        h.Repeats 0 counts := by
  have firsts : ((counts.map fun c => (h.chunk c, ((h.chunk c).length : Int))).map Prod.fst).flatten =
      (counts.map h.chunk).flatten := by
    rw [List.map_map]
    rfl
  unfold Delivers
  rw [opened.reads small, ← h.chunks_iff 0 counts]
  constructor
  · rintro ⟨results, ran, equal, _⟩
    cases ran
    rw [firsts] at equal
    -- The lengths have to agree first, then the bytes position by position.
    have total : (counts.map (min (toBinaryFile h.size))).sum = min h.octalSize counts.sum := by
      rw [← h.chunks_length, equal, h.data_take]
      simp [Nat.min_comm]
    refine ⟨total, ?_⟩
    rw [equal, h.data_take, total, Nat.min_comm]
  · rintro ⟨total, equal⟩
    refine ⟨_, rfl, ?_, ?_⟩
    · rw [firsts, equal, h.data_take, total, Nat.min_comm]
    · intro r member
      obtain ⟨c, _, rfl⟩ := List.mem_map.mp member
      rfl

/-! ## Empty members -/

theorem foldl_octal_zero (digits : List UInt8) (acc : Nat)
    (zero : digits.foldl (fun n c => 8 * n + (c.toNat - 48)) acc = 0) :
    acc = 0 ∧ ∀ c ∈ digits, c.toNat ≤ 48 := by
  induction digits generalizing acc with
  | nil => exact ⟨zero, nofun⟩
  | cons c rest ih =>
    obtain ⟨first, others⟩ := ih (8 * acc + (c.toNat - 48)) zero
    refine ⟨by omega, fun d member => ?_⟩
    rcases List.mem_cons.mp member with rfl | member
    · omega
    · exact others d member

theorem toBinaryFile_zero (digits : List UInt8) (zero : ∀ c ∈ digits, c = 48) :
    toBinaryFile digits = 0 := by
  have oct : digits.foldl
      (fun oct c => wrapInt (c.toBitVec.toInt - 48 + wrapInt (oct * 10))) 0 = 0 := by
    induction digits with
    | nil => rfl
    | cons c rest ih =>
      have here : c = 48 := zero c (by simp)
      subst here
      exact ih fun c member => zero c (List.mem_cons_of_mem _ member)
  unfold toBinaryFile
  rw [oct]
  rfl

theorem TarHeader.WellFormed.size_zero (wf : h.WellFormed) (empty : h.octalSize = 0) :
    toBinaryFile h.size = 0 := by
  obtain ⟨-, low⟩ := foldl_octal_zero h.size 0 empty
  refine toBinaryFile_zero h.size fun c member => ?_
  have above : 48 ≤ c.toNat := UInt8.le_iff_toNat_le.mp (wf.digits c member).1
  exact UInt8.toNat_inj.mp (Nat.le_antisymm (low c member) above)

theorem TarHeader.data_nil : h.data = [] ↔ h.octalSize = 0 := by
  simp [data]

theorem repeats_zero (empty : toBinaryFile h.size = 0) (pos : Nat) (counts : List Nat) :
    h.Repeats pos counts := by
  induction counts generalizing pos with
  | nil => trivial
  | cons c rest ih =>
    refine ⟨fun k below => ?_, ih _⟩
    rw [empty, Nat.zero_min] at below
    cases below

/-- Single bytes are enough to tell. -/
theorem Opened.all_iff (opened : Opened task fd h) (wf : h.WellFormed) :
    (∀ counts, Counts counts → Delivers task fd h counts) ↔ h.data = [] := by
  rw [TarHeader.data_nil]
  constructor
  · intro all
    by_contra some
    -- Calls for one byte each: first one of them, then one more than the member has bytes.
    have one (n : Nat) : Counts (List.replicate n 1) := fun c member => by
      rw [List.eq_of_mem_replicate member]
      decide
    have sums (n : Nat) := ((opened.delivers_iff (one n)).mp (all _ (one n))).1
    have first := sums 1
    have last := sums (h.octalSize + 1)
    -- The position is not kept, so that one call too many still delivers a byte.
    simp only [List.map_replicate, List.sum_replicate_nat, Nat.mul_one, Nat.one_mul] at first last
    have byte : min (toBinaryFile h.size) 1 = 1 := by omega
    rw [byte] at last
    omega
  · intro empty counts small
    have size := wf.size_zero empty
    refine (opened.delivers_iff small).mpr ⟨?_, repeats_zero size 0 counts⟩
    have nothing : (min 0 : Nat → Nat) = fun _ => 0 := funext Nat.zero_min
    rw [size, empty, nothing, List.map_const', List.sum_replicate_nat, Nat.mul_zero]

/-! ## New descriptors -/

theorem setCurrentTaskVal_opened (task : Descriptors) (setflag : Int) (h : TarHeader) (flags : Int) :
    Opened (task.setCurrentTaskVal setflag h flags).2 (task.setCurrentTaskVal setflag h flags).1 h := by
  unfold Descriptors.setCurrentTaskVal
  constructor
  · dsimp only
    rw [Function.update_self]
  · dsimp only
    rw [Function.update_self]

/-- Reads of a member give its data for some counts when its header repeats them, and for all
counts only when it has none. -/
theorem readTarfsFile_iff (headers : List TarHeader) (deriveRelative : List UInt8 → List UInt8)
    (task : Descriptors) (path : List UInt8) (flags : Int) (h : TarHeader) (wf : h.WellFormed)
    (found : (Descriptors.isfileexists headers deriveRelative path).bind (headers[·]?) = some h) :
    let (fd, task) := task.openTarfsFile headers deriveRelative path flags
    (∀ counts, Counts counts → (Delivers task fd h counts ↔
      (counts.map (min (toBinaryFile h.size))).sum = min h.octalSize counts.sum ∧
        h.Repeats 0 counts)) ∧
    ((∀ counts, Counts counts → Delivers task fd h counts) ↔ h.data = []) := by
  have opened := setCurrentTaskVal_opened task 2 h flags
  unfold Descriptors.openTarfsFile
  rw [found]
  exact ⟨fun counts small => opened.delivers_iff small, opened.all_iff wf⟩

/-! ## A small member -/

/-- `a`, with the two bytes `hi`. -/
def small : TarHeader where
  addr := 0
  memory k :=
    if k = 0 then 97 else if 124 ≤ k ∧ k < 134 then 48 else if k = 134 then 50
    else if k = 512 then 104 else if k = 513 then 105 else 0

theorem small_wellFormed : small.WellFormed := ⟨by decide +kernel, by decide +kernel⟩

/-- No descriptor is open. -/
def Descriptors.none : Descriptors where
  fd := fun _ => ⟨0, [], 0, 0, 0, 0, 0, Option.none⟩
  fdC := 0

theorem readTarfsFile_small :
    let (fd, task) := Descriptors.none.openTarfsFile [small] id [97] 0
    (∀ counts, Counts counts → Delivers task fd small counts) ↔ small.data = [] :=
  (readTarfsFile_iff [small] id Descriptors.none [97] 0 small small_wellFormed rfl).2

/-- The first byte that is read is the second byte of the header. -/
theorem readTarfsFile_header : small.WellFormed ∧ small.data = [104, 105] ∧
    let (fd, task) := Descriptors.none.openTarfsFile [small] id [97] 0
    ¬Delivers task fd small [1] := by
  refine ⟨small_wellFormed, by decide, fun delivers => ?_⟩
  have opened := setCurrentTaskVal_opened Descriptors.none 2 small 0
  have small_count : Counts [1] := fun c member => by
    rw [List.mem_singleton.mp member]
    decide
  have repeats := ((opened.delivers_iff small_count).mp delivers).2
  exact absurd (repeats.1 0 (by decide +kernel)) (by decide)

end LateOS
