import LateOS.Memory.Contents

/-!
# Loaded segments

What the loaders leave at the addresses of a segment, after all segments have been loaded. The
segments are mapped one after the other, so that a later one may take the pages of an earlier one.
-/
namespace LateOS

open Lib Machine

/-- The PT_LOAD headers, in the order of the file. -/
def Elf.segments (file : Elf) : List Phdr := file.phdrs.filter fun ep => ep.p_type = 1

namespace Phdr

variable (ep : Phdr)

/-- How many pages are mapped for the segment. -/
def pages : Nat := (ep.p_vaddr + ep.p_memsz - pageOf ep.p_vaddr + 4095) / 4096

/-- `v` lies on one of these pages. -/
def Covers (v : Nat) : Prop := ∃ p < ep.pages, SamePage (pageOf ep.p_vaddr + 4096 * p) v

instance (v : Nat) : Decidable (ep.Covers v) :=
  inferInstanceAs (Decidable (∃ p < ep.pages, _))

/-- `v` is none of the bytes of the segment. -/
def Misses (v : Nat) : Prop := ∀ k < ep.p_memsz, ¬SameByte (ep.p_vaddr + k) v

/-- What is stored at byte `k` of the segment. -/
def storedByte (file : Elf) (k : Nat) : Option Byte :=
  if k < ep.p_filesz then file.content (64 * ep.p_offset + k) else some 0

/-- Frames that loading the segment may take. -/
def frames : Nat := 1 + 4 * ep.pages

end Phdr

variable {file : Elf} {ep : Phdr} {before after segments phdrs : List Phdr} {ts ts' ts1 : TaskStruct}
  {m m' m1 : Machine} {use use' : Word → Use} {r : Word} {v k : Nat}

theorem Phdr.covers_byte (ep : Phdr) (below : k < ep.p_memsz) : ep.Covers (ep.p_vaddr + k) := by
  have start := pageOf_le ep.p_vaddr
  refine ⟨(ep.p_vaddr + k - pageOf ep.p_vaddr) / 4096, ?_, ?_⟩
  · unfold Phdr.pages
    omega
  · have page : pageOf ep.p_vaddr + 4096 * ((ep.p_vaddr + k - pageOf ep.p_vaddr) / 4096) =
        pageOf (ep.p_vaddr + k) := by
      unfold pageOf
      omega
    rw [page]
    exact pageOf_samePage _

theorem Phdr.Covers.congr {w : Nat} (covers : ep.Covers v) (same : SamePage v w) : ep.Covers w := by
  obtain ⟨p, below, here⟩ := covers
  exact ⟨p, below, here.trans same⟩

theorem Phdr.misses (out : ¬ep.Covers v) : ep.Misses v :=
  fun _ below same => out ((ep.covers_byte below).congr same.1)

theorem Loadable.apart (loadable : Loadable ep) {i j : Nat} (order : i < j) (below : j < ep.p_memsz) :
    ¬SameByte (ep.p_vaddr + i) (ep.p_vaddr + j) :=
  not_sameByte loadable.user (Nat.le_add_right_of_le (pageOf_le _)) (by omega) (by omega)

/-! ## One segment -/

/-- What loading the segment `ep` does to the bytes of the task with PML4 `r`. -/
structure Placed (file : Elf) (ep : Phdr) (m : Machine) (use : Word → Use) (r : Word) (m' : Machine)
    (use' : Word → Use) : Prop where
  loaded : Loaded m use r m' use'
  here : ∀ k < ep.p_memsz, m'.byteAt r (ep.p_vaddr + k) = ep.storedByte file k
  leftover : ∀ v, UserAddress v → ep.Covers v → ep.Misses v →
    ∃ f ∈ m.head, m'.byteAt r v = some (getByte (m.mem f (v % 4096 / 8)) (v % 8))
  rest : ∀ v, UserAddress v → ¬ep.Covers v → m'.byteAt r v = m.byteAt r v
  stale : ∀ f ∈ m'.head, m'.mem f = m.mem f

theorem Machine.Taken.byteAt {f : Word} (taken : Taken m use f m') (r : Word) (v : Nat) :
    m'.byteAt r v = m.byteAt r v := by
  unfold Machine.byteAt translate tables
  rw [taken.mem]

theorem Machine.Private.placed (own : m.Private use ts.pml4e) (loadable : Loadable ep)
    (ran : LateOS.loadSegment file ep ts m = some (ts', m')) :
    ∃ use', Placed file ep m use ts.pml4e m' use' := by
  have filesz := loadable.filesz
  obtain ⟨-, f, m1, m2, m3, node, mapped, copied, cleared⟩ := loadable.loaded ran
  have taken := own.sound.kmalloc node
  have first := own.kmalloc node
  -- The node of the VMA, the pages, the bytes of the file, the zeros.
  obtain ⟨use2, frames, spread⟩ := taken.sound.mapPages own.root loadable.user mapped
  have second := spread.loaded first.after
  have third := second.after.memcpy_poured (fun k below => loadable.inside (by omega))
    (fun i j order below => loadable.apart order (by omega)) copied
  rw [memset_eq] at cleared
  have fourth := third.loaded.after.memcpy_poured
    (fun k below => by
      rw [Nat.add_assoc]
      exact loadable.inside (by omega))
    (fun i j order below => by
      rw [Nat.add_assoc, Nat.add_assoc]
      exact loadable.apart (by omega) (by omega)) cleared
  -- Neither loop stores to a byte outside the segment.
  have stored {v : Nat} (user : UserAddress v) (miss : ep.Misses v) :
      m'.byteAt ts.pml4e v = m2.byteAt ts.pml4e v := by
    rw [fourth.rest v user fun k below => by
      rw [Nat.add_assoc]
      exact miss _ (by omega)]
    exact third.rest v user fun k below => miss k (by omega)
  refine ⟨use2, ?_⟩
  constructor
  case loaded => exact first.trans (second.trans (third.loaded.trans fourth.loaded))
  case here =>
    intro k below
    unfold Phdr.storedByte
    split
    next copied =>
      rw [fourth.rest _ (loadable.inside below) fun j inside same => ?_]
      · exact third.here k copied
      · rw [Nat.add_assoc] at same
        exact loadable.apart (by omega) (by omega) same.symm
    next cleared =>
      have split : ep.p_vaddr + k = ep.p_vaddr + ep.p_filesz + (k - ep.p_filesz) := by omega
      rw [split]
      exact fourth.here (k - ep.p_filesz) (by omega)
  case leftover =>
    intro v user covers miss
    obtain ⟨p, below, same⟩ := covers
    obtain ⟨f, member, byte⟩ := spread.leftover taken.sound.aligned below same
    refine ⟨f, taken.suffix.mem member, ?_⟩
    rw [stored user miss, byte, taken.mem]
  case rest =>
    intro v user out
    rw [stored user (Phdr.misses out), spread.byteAt taken.sound own.root user fun p below same =>
      out ⟨p, below, same⟩]
    exact taken.byteAt _ _
  case stale =>
    intro f member
    rw [fourth.head, third.head] at member
    rw [fourth.stale f (by rw [fourth.head, third.head]; exact member),
      third.stale f (by rw [third.head]; exact member), spread.stale f (Or.inr member), taken.mem]

theorem Machine.Sound.kmalloc_total (sound : m.Sound use) (enough : 1 ≤ m.head.length) :
    ∃ f m', m.kmalloc 32 = some (f, m') ∧ m.head.length = m'.head.length + 1 := by
  obtain ⟨f, m', popped, fewer⟩ := getFreeFrame_total enough
  refine ⟨f, m', ?_, fewer⟩
  rw [sound.kmalloc_eq, popped]

theorem Machine.Spread.mapped {start count p : Nat} {frames : List Word}
    (spread : Spread m use r start count m' use' frames) (below : p < count)
    (same : SamePage (start + 4096 * p) v) : (m'.translate r v).isSome := by
  have inside : p < frames.length := by rw [spread.length]; exact below
  rw [spread.here p _ (List.getElem?_eq_getElem inside) v same]
  rfl

/-- Once the pages of a segment have been mapped, storing its bytes does not stop. -/
theorem Machine.Private.loadSegment_stores {f : Word} {m2 : Machine} (own : m.Private use ts.pml4e)
    (loadable : Loadable ep)
    (given : ∀ k < ep.p_filesz, (file.content (64 * ep.p_offset + k)).isSome)
    (node : m.kmalloc 32 = some (f, m1))
    (mapped : m1.mapPages ts.pml4e (pageOf ep.p_vaddr) (ep.p_vaddr + ep.p_memsz) = some m2) :
    ∃ ts' m', LateOS.loadSegment file ep ts m = some (ts', m') ∧ m'.head = m2.head := by
  have filesz := loadable.filesz
  have taken := own.sound.kmalloc node
  have first := own.kmalloc node
  obtain ⟨use2, frames, spread⟩ := taken.sound.mapPages own.root loadable.user mapped
  have second := spread.loaded first.after
  have there {k : Nat} (below : k < ep.p_memsz) :
      (m2.translate ts.pml4e (ep.p_vaddr + k)).isSome := by
    obtain ⟨p, inside, same⟩ := ep.covers_byte below
    exact spread.mapped inside same
  have copies : ∃ m3, m2.memcpy ts.pml4e ep.p_vaddr
      (fun j => file.content (64 * ep.p_offset + j)) ep.p_filesz = some m3 :=
    second.after.memcpy_total (fun k below => loadable.inside (by omega))
      (fun i j order below => loadable.apart order (by omega)) (fun k below => there (by omega)) given
  obtain ⟨m3, copied⟩ := copies
  have third := second.after.memcpy_poured (fun k below => loadable.inside (by omega))
    (fun i j order below => loadable.apart order (by omega)) copied
  have user (k : Nat) (below : k < ep.p_memsz - ep.p_filesz) :
      UserAddress (ep.p_vaddr + ep.p_filesz + k) := by
    rw [Nat.add_assoc]
    exact loadable.inside (by omega)
  have apart (i j : Nat) (order : i < j) (below : j < ep.p_memsz - ep.p_filesz) :
      ¬SameByte (ep.p_vaddr + ep.p_filesz + i) (ep.p_vaddr + ep.p_filesz + j) := by
    rw [Nat.add_assoc, Nat.add_assoc]
    exact loadable.apart (by omega) (by omega)
  have clears : ∃ m4, m3.memcpy ts.pml4e (ep.p_vaddr + ep.p_filesz) (fun _ => some 0)
      (ep.p_memsz - ep.p_filesz) = some m4 := by
    apply third.loaded.after.memcpy_total user apart
    · intro k below
      rw [third.translate, Nat.add_assoc]
      exact there (by omega)
    · intro k below
      rfl
  obtain ⟨m4, cleared⟩ := clears
  have fourth := third.loaded.after.memcpy_poured user apart cleared
  refine ⟨{ ts with vm := (setupVMA ep).1 :: ts.vm }, m4, ?_, fourth.head.trans third.head⟩
  unfold LateOS.loadSegment
  rw [node]
  simp only [Option.bind_eq_bind, Option.bind_some, setupVMA_first, loadable.last, loadable.zeros]
  rw [mapped, Option.bind_some]
  change (m2.memcpy ts.pml4e ep.p_vaddr _ ep.p_filesz).bind _ = _
  rw [copied, Option.bind_some]
  change (m3.memset ts.pml4e (ep.p_vaddr + ep.p_filesz) 0 _).bind _ = _
  rw [memset_eq, cleared]
  rfl

/-- With enough frames, and with the bytes it copies, loading a segment does not stop. -/
theorem Machine.Private.loadSegment_total (own : m.Private use ts.pml4e) (loadable : Loadable ep)
    (given : ∀ k < ep.p_filesz, (file.content (64 * ep.p_offset + k)).isSome)
    (enough : ep.frames ≤ m.head.length) : ∃ ts' m',
      LateOS.loadSegment file ep ts m = some (ts', m') ∧
        m.head.length ≤ m'.head.length + ep.frames := by
  unfold Phdr.frames Phdr.pages at enough ⊢
  obtain ⟨f, m1, node, one⟩ := own.sound.kmalloc_total (by omega)
  obtain ⟨m2, mapped, many⟩ := mapPages_total (m := m1) ts.pml4e (pageOf ep.p_vaddr)
    (ep.p_vaddr + ep.p_memsz) (by omega)
  obtain ⟨ts', m', ran, head⟩ := own.loadSegment_stores loadable given node mapped
  refine ⟨ts', m', ran, ?_⟩
  rw [head]
  omega

/-! ## One after the other -/

/-- What loading the segments `eps` in this order does to the bytes of the task with PML4 `r`. -/
structure Laid (eps : List Phdr) (m : Machine) (use : Word → Use) (r : Word) (m' : Machine)
    (use' : Word → Use) : Prop where
  loaded : Loaded m use r m' use'
  leftover : ∀ v, UserAddress v → (∃ e ∈ eps, e.Covers v) → (∀ e ∈ eps, e.Misses v) →
    ∃ f ∈ m.head, m'.byteAt r v = some (getByte (m.mem f (v % 4096 / 8)) (v % 8))
  rest : ∀ v, UserAddress v → (∀ e ∈ eps, ¬e.Covers v) → m'.byteAt r v = m.byteAt r v
  stale : ∀ f ∈ m'.head, m'.mem f = m.mem f

theorem Laid.nil (own : m.Private use r) : Laid [] m use r m use := by
  constructor
  case loaded => exact ⟨own, .refl⟩
  case leftover =>
    rintro v user ⟨e, member, covers⟩
    cases member
  case rest => exact fun _ _ _ => rfl
  case stale => exact fun _ _ => rfl

theorem Laid.cons {use1 : Word → Use} (first : Placed file ep m use r m1 use1)
    (later : Laid segments m1 use1 r m' use') : Laid (ep :: segments) m use r m' use' := by
  have suffix := later.loaded.spares.head
  have earlier {f : Word} (member : f ∈ m1.head) : f ∈ m.head :=
    first.loaded.spares.head.mem member
  constructor
  case loaded => exact first.loaded.trans later.loaded
  case leftover =>
    intro v user covered miss
    have missed : ∀ e ∈ segments, e.Misses v := fun e member => miss e (by simp [member])
    -- The last segment that takes the page decides.
    by_cases again : ∃ e ∈ segments, e.Covers v
    · obtain ⟨f, member, byte⟩ := later.leftover v user again missed
      refine ⟨f, earlier member, ?_⟩
      rw [byte, first.stale f member]
    · push Not at again
      rw [later.rest v user again]
      obtain ⟨e, member, covers⟩ := covered
      rcases List.mem_cons.mp member with rfl | member
      · exact first.leftover v user covers (miss e (by simp))
      · exact absurd covers (again e member)
  case rest =>
    intro v user out
    rw [later.rest v user fun e member => out e (by simp [member])]
    exact first.rest v user (out ep (by simp))
  case stale =>
    intro f member
    rw [later.stale f member]
    exact first.stale f (suffix.mem member)

/-- Headers that are loaded, as the loaders have checked and the linker has promised. -/
def AllLoadable (eps : List Phdr) : Prop := ∀ ep ∈ eps, ep.p_type = 1 ∧ Loadable ep

theorem loadSegments_cons (load : ep.p_type = 1) : loadSegments file (ep :: segments) ts m =
    (loadSegment file ep ts m).bind fun s => loadSegments file segments s.1 s.2 := by
  rw [LateOS.loadSegments, if_neg (by simp [load])]
  rfl

/-- The first segment is placed, and the others are loaded after it. -/
theorem Machine.Private.loadSegments_step (own : m.Private use ts.pml4e)
    (good : ep.p_type = 1 ∧ Loadable ep)
    (ran : LateOS.loadSegments file (ep :: segments) ts m = some (ts', m')) :
    ∃ ts1 m1 use1, Placed file ep m use ts.pml4e m1 use1 ∧ ts1.pml4e = ts.pml4e ∧
      m1.Private use1 ts1.pml4e ∧ LateOS.loadSegments file segments ts1 m1 = some (ts', m') := by
  rw [loadSegments_cons good.1] at ran
  obtain ⟨⟨ts1, m1⟩, first, later⟩ := Option.bind_eq_some_iff.mp ran
  obtain ⟨use1, placed⟩ := own.placed good.2 first
  have same := good.2.pml4e first
  exact ⟨ts1, m1, use1, placed, same, same ▸ placed.loaded.after, later⟩

theorem Machine.Private.laid (own : m.Private use ts.pml4e) (all : AllLoadable segments)
    (ran : LateOS.loadSegments file segments ts m = some (ts', m')) :
    ∃ use', Laid segments m use ts.pml4e m' use' := by
  induction segments generalizing ts m use with
  | nil =>
    cases ran
    exact ⟨use, .nil own⟩
  | cons ep rest ih =>
    obtain ⟨ts1, m1, use1, placed, same, own1, ran⟩ := own.loadSegments_step (all ep (by simp)) ran
    obtain ⟨use2, later⟩ := ih own1 (fun e member => all e (by simp [member])) ran
    rw [same] at later
    exact ⟨use2, .cons placed later⟩

/-- A segment is left as it was loaded where no later one takes its pages, and shows what was
left in a free frame where a later one does. -/
theorem Machine.Private.final_byte (own : m.Private use ts.pml4e)
    (all : AllLoadable (before ++ ep :: after)) (below : k < ep.p_memsz)
    (ran : LateOS.loadSegments file (before ++ ep :: after) ts m = some (ts', m')) :
    ((∀ e ∈ after, ¬e.Covers (ep.p_vaddr + k)) →
      m'.byteAt ts.pml4e (ep.p_vaddr + k) = ep.storedByte file k) ∧
    ((∃ e ∈ after, e.Covers (ep.p_vaddr + k)) → (∀ e ∈ after, e.Misses (ep.p_vaddr + k)) →
      ∃ f ∈ m.head, m'.byteAt ts.pml4e (ep.p_vaddr + k) =
        some (getByte (m.mem f ((ep.p_vaddr + k) % 4096 / 8)) ((ep.p_vaddr + k) % 8))) := by
  induction before generalizing ts m use with
  | nil =>
    have user := (all ep (by simp)).2.inside below
    obtain ⟨ts1, m1, use1, placed, same, own1, ran⟩ := own.loadSegments_step (all ep (by simp)) ran
    obtain ⟨use2, later⟩ := own1.laid (fun e member => all e (by simp [member])) ran
    rw [same] at later
    constructor
    · intro spared
      rw [later.rest _ user spared]
      exact placed.here k below
    · intro covered missed
      obtain ⟨f, member, byte⟩ := later.leftover _ user covered missed
      refine ⟨f, placed.loaded.spares.head.mem member, ?_⟩
      rw [byte, placed.stale f member]
  | cons e rest ih =>
    obtain ⟨ts1, m1, use1, placed, same, own1, ran⟩ := own.loadSegments_step (all e (by simp)) ran
    obtain ⟨kept, taken⟩ := ih own1 (fun e member => all e (by simp_all)) ran
    rw [same] at kept taken
    refine ⟨kept, fun covered missed => ?_⟩
    obtain ⟨f, member, byte⟩ := taken covered missed
    refine ⟨f, placed.loaded.spares.head.mem member, ?_⟩
    rw [byte, placed.stale f member]

theorem Machine.Private.loadSegments_total (own : m.Private use ts.pml4e)
    (all : AllLoadable segments)
    (given : ∀ ep ∈ segments, ∀ k < ep.p_filesz, (file.content (64 * ep.p_offset + k)).isSome)
    (enough : (segments.map Phdr.frames).sum ≤ m.head.length) : ∃ ts' m',
      LateOS.loadSegments file segments ts m = some (ts', m') ∧
        m.head.length ≤ m'.head.length + (segments.map Phdr.frames).sum := by
  induction segments generalizing ts m use with
  | nil => exact ⟨ts, m, rfl, Nat.le_refl _⟩
  | cons ep rest ih =>
    obtain ⟨load, loadable⟩ := all ep (by simp)
    rw [List.map_cons, List.sum_cons] at enough ⊢
    obtain ⟨ts1, m1, first, spent⟩ := own.loadSegment_total loadable (given ep (by simp)) (by omega)
    obtain ⟨use1, placed⟩ := own.placed loadable first
    have same := loadable.pml4e first
    have own1 : m1.Private use1 ts1.pml4e := same ▸ placed.loaded.after
    obtain ⟨ts', m', ran, left⟩ := ih own1 (fun e member => all e (by simp [member]))
      (fun e member => given e (by simp [member])) (by omega)
    refine ⟨ts', m', ?_, by omega⟩
    rw [loadSegments_cons load, first]
    exact ran

end LateOS
