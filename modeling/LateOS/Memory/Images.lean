import LateOS.Memory.Isolation
import LateOS.Memory.Segments

/-!
# What a loaded program finds

Byte `k` of a segment should be byte `p_offset + k` of the file, or zero behind `p_filesz`. The
loaders count the offset in file headers, and map the pages that two segments share once for each
of them. Programs that meet neither case are loaded as they should be, and no others are.
-/
namespace LateOS

open Lib Machine

/-- The ranges of two segments are disjoint. -/
def Phdr.Apart (ep ep' : Phdr) : Prop :=
  ∀ k < ep.p_memsz, ∀ k' < ep'.p_memsz, ¬SameByte (ep.p_vaddr + k) (ep'.p_vaddr + k')

instance (ep ep' : Phdr) : Decidable (ep.Apart ep') :=
  inferInstanceAs (Decidable (∀ k < ep.p_memsz, ∀ k' < ep'.p_memsz, ¬_))

/-- What byte `k` of a segment should be. -/
def Phdr.wantedByte (ep : Phdr) (file : Elf) (k : Nat) : Option Byte :=
  if k < ep.p_filesz then file.content (ep.p_offset + k) else some 0

namespace Elf

variable (file : Elf)

/-- The segments lie inside the file. -/
def Inside : Prop := ∀ ep ∈ file.segments, ∀ k < ep.p_filesz, (file.content (ep.p_offset + k)).isSome

/-- After `load`, the task has every byte of every segment. -/
def Meets (load : TaskStruct → Machine → Option (TaskStruct × Machine)) (ts : TaskStruct)
    (m : Machine) : Prop :=
  ∃ ts' m', load ts m = some (ts', m') ∧ ∀ ep ∈ file.segments, ∀ k < ep.p_memsz,
    m'.byteAt ts'.pml4e (ep.p_vaddr + k) = ep.wantedByte file k

/-- The file has the same bytes at `64 * p_offset` as at `p_offset`. -/
def Straight : Prop := ∀ ep ∈ file.segments, ∀ k < ep.p_filesz,
  file.content (64 * ep.p_offset + k) = file.content (ep.p_offset + k)

/-- No segment has a byte on a page of an earlier one: the earlier one is loaded later. -/
def Spared : Prop := file.segments.Pairwise fun e ep => ∀ k < ep.p_memsz, ¬e.Covers (ep.p_vaddr + k)

/-- Frames that loading the program takes at most. -/
def frames : Nat := (file.segments.map Phdr.frames).sum

end Elf

variable {file : Elf} {ts ts' ts1 : TaskStruct} {m m' m1 : Machine} {use use1 : Word → Use}
  {load : TaskStruct → Machine → Option (TaskStruct × Machine)}

theorem Phdr.Apart.misses {e ep : Phdr} {k : Nat} (apart : e.Apart ep) (below : k < ep.p_memsz) :
    e.Misses (ep.p_vaddr + k) := fun j inside => apart j inside k below

theorem Elf.Spared.alone {earlier later : List Phdr} {ep : Phdr} {k : Nat} (spared : file.Spared)
    (split : file.segments = earlier ++ ep :: later) (below : k < ep.p_memsz) :
    ∀ e ∈ earlier, ¬e.Covers (ep.p_vaddr + k) := by
  intro e before
  unfold Elf.Spared at spared
  rw [split] at spared
  exact (List.pairwise_append.mp spared).2.2 e before ep (by simp) k below

/-- Headers of other types are passed over. -/
theorem loadSegments_filter (phdrs : List Phdr) : loadSegments file phdrs ts m =
    loadSegments file (phdrs.filter fun ep => ep.p_type = 1) ts m := by
  induction phdrs generalizing ts m with
  | nil => rfl
  | cons ep rest ih =>
    by_cases load : ep.p_type = 1
    · rw [List.filter_cons_of_pos (by simp [load]), loadSegments_cons load, loadSegments_cons load]
      simp only [ih]
    · rw [List.filter_cons_of_neg (by simp [load]), loadSegments, if_pos load, ih]

theorem Elf.segments_reverse (file : Elf) :
    (file.phdrs.reverse.filter fun ep => ep.p_type = 1) = file.segments.reverse := by
  rw [List.filter_reverse]
  rfl

theorem Image.allLoadable (file : Image) : AllLoadable file.segments.reverse := by
  intro ep member
  obtain ⟨header, load⟩ := List.mem_filter.mp (List.mem_reverse.mp member)
  exact ⟨by simpa using load, file.loadable header (by simpa using load)⟩

/-! ## Where the loaders start -/

/-- From `ts` and `m`, the loader `load` goes on to load the segments from `ts1` and `m1`. -/
structure Begun (file : Elf) (load : TaskStruct → Machine → Option (TaskStruct × Machine))
    (ts : TaskStruct) (m : Machine) (ts1 : TaskStruct) (m1 : Machine) (use1 : Word → Use) : Prop where
  own : m1.Private use1 ts1.pml4e
  goes : load ts m = loadSegments file file.segments.reverse ts1 m1
  free : ∀ f ∈ m1.head, f ∈ m.head ∧ m1.mem f = m.mem f
  enough : file.frames ≤ m1.head.length

/-- The new task starts from a cleared PML4. -/
theorem Machine.Sound.readELFandFork_eq {r : Word} (sound : m.Sound use)
    (popped : m.getFreeFrame = some (r, m1)) : LateOS.readELFandFork file ts m =
      LateOS.loadSegments file file.segments.reverse { ts with pml4e := r, rip := file.e_entry }
        (m1.zero r) := by
  unfold LateOS.readELFandFork
  rw [sound.getNewPage_eq, popped, ← Elf.segments_reverse, ← loadSegments_filter]
  rfl

theorem Machine.Sound.begun_fork (sound : m.Sound use) (enough : file.frames + 1 ≤ m.head.length) :
    ∃ ts1 m1 use1, Begun file (LateOS.readELFandFork file) ts m ts1 m1 use1 := by
  obtain ⟨r, m1, popped, fewer⟩ := getFreeFrame_total (m := m) (by omega)
  have taken := sound.getFreeFrame popped
  refine ⟨{ ts with pml4e := r, rip := file.e_entry }, m1.zero r,
    Function.update use r (.table r []), ?_⟩
  constructor
  case own => exact taken.newRoot.1
  case goes => exact sound.readELFandFork_eq popped
  case free =>
    intro f member
    have apart : f ≠ r := by
      rintro rfl
      have nodup := sound.nodup
      rw [taken.head] at nodup
      exact (List.nodup_cons.mp nodup).1 member
    refine ⟨taken.suffix.mem member, ?_⟩
    exact taken.zero_other apart
  case enough =>
    change file.frames ≤ m1.head.length
    omega

/-- `deallocTask` gives no frame back. -/
theorem Machine.Sound.begun_exec (sound : m.Sound use)
    (root : use ts.pml4e = .table ts.pml4e []) (enough : file.frames ≤ m.head.length) :
    ∃ ts1 m1 use1, Begun file (LateOS.readELFandExec file) ts m ts1 m1 use1 := by
  obtain ⟨m1, ran, down⟩ := sound.deallocTask root
  refine ⟨{ ts with rip := file.e_entry }, m1, use, ?_⟩
  constructor
  case own =>
    refine ⟨down.sound, root, fun v e user found => ?_⟩
    rw [down.unmapped user] at found
    cases found
  case goes =>
    unfold LateOS.readELFandExec
    rw [ran, ← Elf.segments_reverse, ← loadSegments_filter]
    rfl
  case free =>
    intro f member
    rw [down.head] at member
    refine ⟨member, down.beside f fun q table => ?_⟩
    rw [sound.free f member] at table
    cases table
  case enough =>
    rw [down.head]
    exact enough

/-! ## Both directions -/

/-- What the loop over the segments leaves at a byte of the segment `ep`. -/
theorem Begun.final_byte {file : Image} {earlier later : List Phdr} {ep : Phdr} {k : Nat}
    (begun : Begun file.toElf load ts m ts1 m1 use1)
    (split : file.segments = earlier ++ ep :: later) (below : k < ep.p_memsz)
    (ran : load ts m = some (ts', m')) :
    ((∀ e ∈ earlier, ¬e.Covers (ep.p_vaddr + k)) →
      m'.byteAt ts'.pml4e (ep.p_vaddr + k) = ep.storedByte file.toElf k) ∧
    ((∃ e ∈ earlier, e.Covers (ep.p_vaddr + k)) → (∀ e ∈ earlier, e.Misses (ep.p_vaddr + k)) →
      ∃ f ∈ m.head, m'.byteAt ts'.pml4e (ep.p_vaddr + k) =
        some (getByte (m.mem f ((ep.p_vaddr + k) % 4096 / 8)) ((ep.p_vaddr + k) % 8))) := by
  have all := file.allLoadable
  rw [begun.goes] at ran
  -- The loops run from the last header to the first.
  have root : ts'.pml4e = ts1.pml4e := by
    rw [(begun.own.loadSegments (fun ep member _ => (all ep member).2) ran).1]
  have order : file.segments.reverse = later.reverse ++ ep :: earlier.reverse := by
    rw [split]
    simp
  rw [order] at all ran
  obtain ⟨kept, taken⟩ := begun.own.final_byte all below ran
  rw [root]
  constructor
  · intro spared
    exact kept fun e member => spared e (List.mem_reverse.mp member)
  · rintro ⟨e, member, covers⟩ missed
    obtain ⟨f, free, byte⟩ := taken ⟨e, List.mem_reverse.mpr member, covers⟩
      fun e member => missed e (List.mem_reverse.mp member)
    obtain ⟨before, same⟩ := begun.free f free
    exact ⟨f, before, same ▸ byte⟩

theorem Begun.meets {file : Image} (begun : Begun file.toElf load ts m ts1 m1 use1)
    (inside : file.Inside) (straight : file.Straight) (spared : file.Spared) :
    file.Meets load ts m := by
  have given : ∀ ep ∈ file.segments.reverse, ∀ k < ep.p_filesz,
      (file.content (64 * ep.p_offset + k)).isSome := by
    intro ep member k below
    have header := List.mem_reverse.mp member
    rw [straight ep header k below]
    exact inside ep header k below
  have enough : (file.segments.reverse.map Phdr.frames).sum ≤ m1.head.length := by
    rw [List.map_reverse, List.sum_reverse]
    exact begun.enough
  obtain ⟨ts', m', ran, -⟩ := begun.own.loadSegments_total file.allLoadable given enough
  rw [← begun.goes] at ran
  refine ⟨ts', m', ran, fun ep member k below => ?_⟩
  obtain ⟨earlier, later, split⟩ := List.append_of_mem member
  have alone := spared.alone split below
  rw [(begun.final_byte split below ran).1 alone]
  unfold Phdr.storedByte Phdr.wantedByte
  split
  next copied => exact straight ep member k copied
  next => rfl

/-- Where no later segment takes a page, the byte stored has to be the one of the file. -/
theorem Begun.straight {file : Image} (begun : Begun file.toElf load ts m ts1 m1 use1)
    (spared : file.Spared) (meets : file.Meets load ts m) : file.Straight := by
  intro ep member k copied
  obtain ⟨ts', m', ran, bytes⟩ := meets
  have below : k < ep.p_memsz := by
    obtain ⟨header, load⟩ := List.mem_filter.mp member
    have filesz := file.filesz ep header (by simpa using load)
    omega
  obtain ⟨earlier, later, split⟩ := List.append_of_mem member
  have alone := spared.alone split below
  have stored := (begun.final_byte split below ran).1 alone
  rw [bytes ep member k below, Phdr.storedByte, Phdr.wantedByte, if_pos copied, if_pos copied] at stored
  exact stored.symm

/-- A byte that a later segment has taken shows what was left in a free frame. -/
theorem Begun.shown {file : Image} {left : Word → Nat → Word} {w : Word} {earlier later : List Phdr}
    {ep e : Phdr} {k : Nat} (begun : Begun file.toElf load ts (m.leftovers left) ts1 m1 use1)
    (filled : ∀ f i, left f i = w) (apart : file.segments.Pairwise Phdr.Apart)
    (split : file.segments = earlier ++ ep :: later) (before : e ∈ earlier)
    (below : k < ep.p_memsz) (covers : e.Covers (ep.p_vaddr + k))
    (meets : file.Meets load ts (m.leftovers left)) :
    ep.wantedByte file.toElf k = some (getByte w ((ep.p_vaddr + k) % 8)) := by
  obtain ⟨ts', m', ran, bytes⟩ := meets
  -- No segment has another one's bytes, but it may have its pages.
  have missed : ∀ e ∈ earlier, e.Misses (ep.p_vaddr + k) := by
    intro e before
    rw [split] at apart
    exact ((List.pairwise_append.mp apart).2.2 e before ep (by simp)).misses below
  obtain ⟨f, free, byte⟩ := (begun.final_byte split below ran).2 ⟨e, before, covers⟩ missed
  have content : (m.leftovers left).mem f = left f := if_pos free
  rw [bytes ep (by rw [split]; simp) k below, content, filled] at byte
  exact byte

/-- Frames full of zeros and frames full of ones cannot both show the byte of the file. -/
theorem spared_of_meets {file : Image} (apart : file.segments.Pairwise Phdr.Apart)
    (begins : ∀ left, ∃ ts1 m1 use1, Begun file.toElf load ts (m.leftovers left) ts1 m1 use1)
    (meets : ∀ left, file.Meets load ts (m.leftovers left)) : file.Spared := by
  unfold Elf.Spared
  rw [List.pairwise_iff_forall_sublist]
  intro e ep order k below covers
  -- `e` stands before `ep` in the table, and so is loaded after it.
  obtain ⟨front, back, split, before, order⟩ := List.cons_sublist_iff.mp order
  obtain ⟨middle, later, rfl⟩ := List.append_of_mem (List.singleton_sublist.mp order)
  rw [← List.append_assoc] at split
  have shown (w : Word) : ep.wantedByte file.toElf k = some (getByte w ((ep.p_vaddr + k) % 8)) := by
    obtain ⟨ts1, m1, use1, begun⟩ := begins fun _ _ => w
    exact begun.shown (fun _ _ => rfl) apart split (List.mem_append_left middle before) below covers
      (meets _)
  have same := (shown 0).symm.trans (shown (BitVec.allOnes 64))
  have low : (ep.p_vaddr + k) % 8 < 8 := Nat.mod_lt _ (by decide)
  revert same
  generalize (ep.p_vaddr + k) % 8 = i at low
  revert i
  decide

theorem meets_iff {file : Image} (apart : file.segments.Pairwise Phdr.Apart) (inside : file.Inside)
    (begins : ∀ left, ∃ ts1 m1 use1, Begun file.toElf load ts (m.leftovers left) ts1 m1 use1) :
    (∀ left, file.Meets load ts (m.leftovers left)) ↔ file.Straight ∧ file.Spared := by
  constructor
  · intro meets
    have spared := spared_of_meets apart begins meets
    obtain ⟨ts1, m1, use1, begun⟩ := begins fun _ _ => 0
    exact ⟨begun.straight spared (meets _), spared⟩
  · rintro ⟨straight, spared⟩ left
    obtain ⟨ts1, m1, use1, begun⟩ := begins left
    exact begun.meets inside straight spared

/-! ## The two loaders -/

/-- Whatever is left in the free frames, both loaders give a task all bytes of a program whose
offsets agree and whose segments share no page that counts, and of no other. -/
theorem loaders_iff (file : Image) (ts : TaskStruct) (m : Machine) (use : Word → Use)
    (sound : m.Sound use) (root : use ts.pml4e = .table ts.pml4e [])
    (apart : file.segments.Pairwise Phdr.Apart) (inside : file.Inside)
    (enough : file.frames + 1 ≤ m.head.length) :
    ((∀ left, file.Meets (readELFandFork file.toElf) ts (m.leftovers left)) ↔
      file.Straight ∧ file.Spared) ∧
    ((∀ left, file.Meets (readELFandExec file.toElf) ts (m.leftovers left)) ↔
      file.Straight ∧ file.Spared) := by
  constructor
  · apply meets_iff apart inside
    intro left
    exact (sound.leftovers left).begun_fork enough
  · apply meets_iff apart inside
    intro left
    exact (sound.leftovers left).begun_exec root (Nat.le_of_succ_le enough)

/-- Two bytes at `vaddr` of a file. -/
def twoBytes (p_offset p_vaddr : Nat) : Phdr :=
  { p_type := 1, p_offset, p_vaddr, p_filesz := 2, p_memsz := 2 }

/-- A program in the first gigabytes, from a file in which byte `k` is `k`. -/
def imageOf (phdrs : List Phdr) (filled : ∀ ep ∈ phdrs, ep.p_filesz ≤ ep.p_memsz)
    (low : ∀ ep ∈ phdrs, ep.p_vaddr + ep.p_memsz < 2 ^ 32) : Image where
  e_entry := 0x400000
  phdrs := phdrs
  content := fun k => some (BitVec.ofNat 8 k)
  user := fun ep member _ v _ below => user_of_small (by
    have := low ep member
    omega)
  fits := fun ep member _ => by
    have := low ep member
    omega
  filesz := fun ep member _ => filled ep member

/-- Three bytes of a file, with seven zeros behind them. -/
def zeroFilled (p_offset p_vaddr : Nat) : Phdr :=
  { p_type := 1, p_offset, p_vaddr, p_filesz := 3, p_memsz := 10 }

/-- A segment from the start of the file, a header that is not loaded, and a segment from an offset
at which it makes no difference that headers are counted. -/
def plainImage : Image :=
  imageOf [twoBytes 0 0x400000, { twoBytes 1 0 with p_type := 4 }, zeroFilled 256 0x402008]
    (by decide) (by decide)

/-- One segment from byte 1 of the file on. -/
def shiftedImage : Image := imageOf [twoBytes 1 0x400000] (by decide) (by decide)

/-- Two segments on one page. -/
def sharingImage : Image := imageOf [twoBytes 0 0x400000, twoBytes 0 0x400004] (by decide) (by decide)

theorem plainImage_faithful : plainImage.Straight ∧ plainImage.Spared := by
  have both : plainImage.segments = [twoBytes 0 0x400000, zeroFilled 256 0x402008] := rfl
  unfold Elf.Straight Elf.Spared
  rw [both]
  constructor
  · have same : ∀ ep ∈ [twoBytes 0 0x400000, zeroFilled 256 0x402008], ∀ k < ep.p_filesz,
        (some (BitVec.ofNat 8 (64 * ep.p_offset + k)) : Option Byte) =
          some (BitVec.ofNat 8 (ep.p_offset + k)) := by
      decide
    exact same
  · rw [List.pairwise_pair]
    decide +kernel

theorem plainImage_frames : plainImage.frames = 10 := rfl

theorem loaders_iff_of_plain :
    let t := lastState System.boot forkRun
    (∀ left, plainImage.Meets (readELFandFork plainImage.toElf) (t.taskQueue 2)
      (t.machine.leftovers left)) ∧
    (∀ left, plainImage.Meets (readELFandExec plainImage.toElf) (t.taskQueue 2)
      (t.machine.leftovers left)) := by
  obtain ⟨use, inv⟩ := Consistent.run System.boot_booted.consistent forkRun_along
  have enough : plainImage.frames + 1 ≤ 12 := by
    rw [plainImage_frames]
    decide
  have apart : plainImage.segments.Pairwise Phdr.Apart := by
    rw [show plainImage.segments = [twoBytes 0 0x400000, zeroFilled 256 0x402008] from rfl,
      List.pairwise_pair]
    decide +kernel
  obtain ⟨fork, exec⟩ := loaders_iff plainImage _ _ use inv.sound (inv.root 2 forkRun_users.1)
    apart (fun _ _ _ _ => rfl) (enough.trans forkRun_facts.2.1)
  exact ⟨fork.mpr plainImage_faithful, exec.mpr plainImage_faithful⟩

theorem shiftedImage_single : shiftedImage.segments = [twoBytes 1 0x400000] := rfl

theorem shiftedImage_frames : shiftedImage.frames = 5 := rfl

theorem Begun.shifted (begun : Begun shiftedImage.toElf load ts m ts1 m1 use1) :
    ¬shiftedImage.Meets load ts m := by
  intro meets
  have spared : shiftedImage.Spared := by
    unfold Elf.Spared
    simp [shiftedImage_single]
  have byte := begun.straight spared meets (twoBytes 1 0x400000) (by simp [shiftedImage_single]) 0
    (by decide)
  exact absurd byte (by decide)

/-- The byte in the page of the first segment, which is mapped last. -/
theorem sharingImage_byte : (readELFandFork sharingImage.toElf (bootQueue 2) bootMachine).bind
    (fun s => s.2.byteAt s.1.pml4e (0x400004 + 1)) = some 0 := by
  decide +kernel

/-- Both loaders give the task of a shifted program the bytes at 64, and on a shared page they give
it what was left in a frame. -/
theorem segments_misloaded :
    let t := lastState System.boot forkRun
    shiftedImage.segments.Pairwise Phdr.Apart ∧ shiftedImage.Inside ∧
    sharingImage.segments.Pairwise Phdr.Apart ∧ sharingImage.Inside ∧
    ¬shiftedImage.Meets (readELFandFork shiftedImage.toElf) (t.taskQueue 2) t.machine ∧
    ¬shiftedImage.Meets (readELFandExec shiftedImage.toElf) (t.taskQueue 2) t.machine ∧
    ¬sharingImage.Meets (readELFandFork sharingImage.toElf) (bootQueue 2) bootMachine := by
  obtain ⟨use, inv⟩ := Consistent.run System.boot_booted.consistent forkRun_along
  have shared : sharingImage.segments = [twoBytes 0 0x400000, twoBytes 0 0x400004] := rfl
  have enough : shiftedImage.frames + 1 ≤ 8 := by
    rw [shiftedImage_frames]
    decide
  have more := enough.trans forkRun_frames
  refine ⟨List.pairwise_singleton _ _, fun _ _ _ _ => rfl, ?_, fun _ _ _ _ => rfl, ?_, ?_, ?_⟩
  · rw [shared, List.pairwise_pair]
    decide
  · obtain ⟨ts1, m1, use1, begun⟩ := inv.sound.begun_fork more
    exact begun.shifted
  · obtain ⟨ts1, m1, use1, begun⟩ :=
      inv.sound.begun_exec (inv.root 2 forkRun_users.1) (Nat.le_of_succ_le more)
    exact begun.shifted
  · rintro ⟨ts', m', ran, bytes⟩
    have byte := bytes (twoBytes 0 0x400004) (by simp [shared]) 1 (by decide)
    have left := sharingImage_byte
    rw [ran, Option.bind_some] at left
    have same := left.symm.trans byte
    exact absurd same (by decide)

end LateOS
