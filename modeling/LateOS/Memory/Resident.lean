import LateOS.Memory.Exhaustion
import LateOS.Memory.Images
import LateOS.Memory.OnePage
import LateOS.Memory.Stack

/-!
# The pages of a loaded program

Which pages `readELFandFork` maps, to which frames, and how many frames that takes.
-/
namespace LateOS

open Lib Machine

namespace Machine

variable {m m' m'' m1 : Machine} {use use' : Word → Use} {r f : Word} {path : List Nat}
  {Q : Finset (List Nat)} {count i k n n' start last v : Nat} {frames : List Word}

/-! ## Frames spent -/

/-- From `m` to `m'`, `n` frames have been taken besides those for the tables of `Q`. -/
def Charged (m : Machine) (r : Word) (Q : Finset (List Nat)) (n : Nat) (m' : Machine) : Prop :=
  m.head.length + (m'.unmade r Q).card = m'.head.length + n + (m.unmade r Q).card

theorem Charged.trans (first : Charged m r Q n m') (second : Charged m' r Q n' m'') :
    Charged m r Q (n + n') m'' := by
  unfold Charged at *
  omega

theorem Charged.of_walk (head : m'.head = m.head)
    (walk : ∀ q ∈ Q, m'.tables.walk r q = m.tables.walk r q) : Charged m r Q 0 m' := by
  have same : m'.unmade r Q = m.unmade r Q := by
    unfold unmade
    exact Finset.filter_congr fun q member => by rw [walk q member]
  unfold Charged
  rw [head, same]
  rfl

theorem Taken.unmade (taken : Taken m use f m') (r : Word) (Q : Finset (List Nat)) :
    m'.unmade r Q = m.unmade r Q := by
  have same : m'.tables = m.tables := by
    unfold tables
    rw [taken.mem]
  unfold Machine.unmade
  rw [same]

theorem Taken.charged (taken : Taken m use f m') (r : Word) (Q : Finset (List Nat)) :
    Charged m r Q 1 m' := by
  unfold Charged
  rw [taken.unmade, taken.head, List.length_cons]

/-! ## Pages -/

/-- `i` pages from `start` on have been mapped, of those whose tables are in `Q`. -/
structure Paged (m : Machine) (use : Word → Use) (r : Word) (start : Nat) (Q : Finset (List Nat))
    (i : Nat) (s : Machine) : Prop where
  spread : ∃ use' frames, Spread m use r start i s use' frames
  charged : Charged m r Q i s

theorem Paged.refl (sound : m.Sound use) (r : Word) (start : Nat) (Q : Finset (List Nat)) :
    Paged m use r start Q 0 m :=
  ⟨⟨use, [], .refl sound start⟩, .of_walk rfl fun _ _ => rfl⟩

theorem Paged.next {s s' : Machine} (paged : Paged m use r start Q i s)
    (root : use r = .table r []) (inner : ∀ q ∈ Q, InnerPath Inner [] q)
    (user : UserAddress (start + 4096 * i)) (tables : prefixes (upperPath (start + 4096 * i)) ⊆ Q)
    (apart : ∀ p < i, ¬SamePage (start + 4096 * p) (start + 4096 * i))
    (ran : (s.getFreeFrame.bind fun x => x.2.initTaskPagetables (start + 4096 * i) x.1 r) = some s') :
    Paged m use r start Q (i + 1) s' := by
  obtain ⟨⟨use1, frames, spread⟩, charged⟩ := paged
  obtain ⟨⟨f, s1⟩, popped, mapped⟩ := Option.bind_eq_some_iff.mp ran
  have taken := spread.sound.getFreeFrame popped
  obtain ⟨use2, next⟩ := spread.next root user apart popped mapped
  obtain ⟨spent, there⟩ := taken.sound.mapOne (spread.root root) user mapped
  have step := unmade_split inner tables there
  refine ⟨⟨use2, _, next⟩, charged.trans ?_⟩
  have one := taken.charged r Q
  unfold Charged at one ⊢
  omega

/-- A frame for the page and the frames for all tables are enough for the next page. -/
theorem Paged.enough {s : Machine} (paged : Paged m use r start Q i s)
    (root : use r = .table r []) (user : UserAddress (start + 4096 * i))
    (tables : prefixes (upperPath (start + 4096 * i)) ⊆ Q)
    (enough : i + 1 + (m.unmade r Q).card ≤ m.head.length) :
    ∃ s', (s.getFreeFrame.bind fun x => x.2.initTaskPagetables (start + 4096 * i) x.1 r) = some s' := by
  obtain ⟨⟨use1, frames, spread⟩, charged⟩ := paged
  unfold Charged at charged
  obtain ⟨f, s1, popped, fewer⟩ := getFreeFrame_total (m := s) (by omega)
  have taken := spread.sound.getFreeFrame popped
  have few : (s1.missingOn r (upperPath (start + 4096 * i))).card ≤ (s1.unmade r Q).card :=
    Finset.card_le_card (Finset.filter_subset_filter _ tables)
  rw [taken.unmade] at few
  obtain ⟨s', mapped⟩ := taken.sound.mapOne_enough (spread.root root) user f (by omega)
  refine ⟨s', ?_⟩
  rw [popped]
  exact mapped

theorem Private.mapPages_paged (own : m.Private use r) (inner : ∀ q ∈ Q, InnerPath Inner [] q)
    (user : ∀ v, k ≤ v → v < last → UserAddress v)
    (tables : pagePaths k 0 ((last - k + 4095) / 4096) ⊆ Q)
    (ran : m.mapPages r k last = some m') : Paged m use r k Q ((last - k + 4095) / 4096) m' := by
  refine loop_inv (I := fun i s => Paged m use r k Q i s) (.refl own.sound r k Q) ?_ ran
  intro i s s' below paged ran
  have here := user (k + 4096 * i) (by omega) (by omega)
  exact paged.next own.root inner here ((prefixes_subset (Nat.zero_le i) below).trans tables)
    (fun p earlier => not_samePage user earlier (by omega)) ran

theorem Private.mapPages_enough (own : m.Private use r) (inner : ∀ q ∈ Q, InnerPath Inner [] q)
    (user : ∀ v, k ≤ v → v < last → UserAddress v)
    (tables : pagePaths k 0 ((last - k + 4095) / 4096) ⊆ Q)
    (enough : (last - k + 4095) / 4096 + (m.unmade r Q).card ≤ m.head.length) :
    ∃ m', m.mapPages r k last = some m' := by
  have all : ∃ m', m.mapPages r k last = some m' ∧
      Paged m use r k Q ((last - k + 4095) / 4096) m' := by
    refine loop_total (I := fun i s => Paged m use r k Q i s) (.refl own.sound r k Q) ?_
    intro i s below paged
    have here := user (k + 4096 * i) (by omega) (by omega)
    have ahead := (prefixes_subset (Nat.zero_le i) below).trans tables
    obtain ⟨s', ran⟩ := paged.enough own.root here ahead (by omega)
    exact ⟨s', ran, paged.next own.root inner here ahead
      (fun p earlier => not_samePage user earlier (by omega)) ran⟩
  obtain ⟨m', ran, _⟩ := all
  exact ⟨m', ran⟩

/-- The pages that are there after some have been mapped. -/
theorem Spread.isSome_iff (spread : Spread m use r start count m' use' frames)
    (user : UserAddress v) : (m'.translate r v).isSome ↔
      (m.translate r v).isSome ∨ ∃ p < count, SamePage (start + 4096 * p) v := by
  by_cases out : ∃ p < count, SamePage (start + 4096 * p) v
  · obtain ⟨p, below, same⟩ := out
    exact ⟨fun _ => Or.inr ⟨p, below, same⟩, fun _ => spread.mapped below same⟩
  · push Not at out
    rw [spread.rest v user out]
    exact ⟨Or.inl, fun either => either.resolve_right fun ⟨p, below, same⟩ => out p below same⟩

theorem Spread.entry_free {e : Word} (spread : Spread m use r start count m' use' frames)
    (sound : m.Sound use) (user : UserAddress v) (found : m'.translate r v = some e) :
    m.translate r v = some e ∨ frame e ∈ m.head := by
  by_cases out : ∃ p < count, SamePage (start + 4096 * p) v
  · obtain ⟨p, below, same⟩ := out
    have inside : p < frames.length := by rw [spread.length]; exact below
    rw [spread.here p _ (List.getElem?_eq_getElem inside) v same] at found
    cases found
    have member := (spread.free _ (List.getElem_mem inside)).1
    rw [frame_entry _ 7 (by decide), sound.aligned _ member]
    exact Or.inr member
  · push Not at out
    rw [spread.rest v user out] at found
    exact Or.inl found

/-- Copying into pages that are there changes no table. -/
theorem Private.memcpy_walk {dest : Nat} {src : Nat → Option Byte} (own : m.Private use r)
    (user : ∀ k < n, UserAddress (dest + k)) (ran : m.memcpy r dest src n = some m')
    (inner : InnerPath Inner [] path) : m'.tables.walk r path = m.tables.walk r path := by
  have all : Loaded m use r m' use ∧ m'.tables.walk r path = m.tables.walk r path := by
    refine loop_inv (I := fun _ s => Loaded m use r s use ∧
      s.tables.walk r path = m.tables.walk r path) ⟨⟨own, .refl⟩, rfl⟩ ?_ ran
    rintro k s s' below ⟨done, same⟩ ran
    obtain ⟨b, _, stored⟩ := Option.bind_eq_some_iff.mp ran
    have own1 := done.after
    refine ⟨done.trans (own1.storeByte (user k below) stored), ?_⟩
    obtain ⟨_, e, found, rfl⟩ := own1.sound.storeByte own1.root (user k below) stored
    have data := (own1.sound.translate_facts own1.root (user k below) found).2.1
    rw [← same]
    refine own1.sound.walk_congr own1.root inner fun h q j rest _ table => ?_
    refine congrFun (write_mem_of_ne s _ _ _ ?_) j
    rintro rfl
    rw [data] at table
    cases table
  exact all.2

end Machine

/-! ## Segments -/

variable {file : Elf} {ep : Phdr} {segments : List Phdr} {ts ts' : TaskStruct}
  {m m' m1 m'' : Machine} {use use' use1 use'' : Word → Use} {r : Word} {v w : Nat}
  {Q : Finset (List Nat)}

namespace Phdr

variable (ep : Phdr)

/-- Some byte of the segment lies on the page of `v`. -/
def Intersects (v : Nat) : Prop := ∃ k < ep.p_memsz, SamePage (ep.p_vaddr + k) v

/-- The tables above the pages of the segment. -/
def tables : Finset (List Nat) := pagePaths (pageOf ep.p_vaddr) 0 ep.pages

/-- The frames for the node of the VMA and for the pages. -/
def ownFrames : Nat := 1 + ep.pages

/-- The bytes that are copied for the segment are there. -/
def Readable (file : Elf) : Prop :=
  ∀ k < ep.p_filesz, (file.content (64 * ep.p_offset + k)).isSome

end Phdr

theorem Phdr.covers_iff (some : 0 < ep.p_memsz) : ep.Covers v ↔ ep.Intersects v := by
  have start := pageOf_le ep.p_vaddr
  constructor
  · rintro ⟨p, below, same⟩
    unfold Phdr.pages at below
    -- The first page begins below the segment, any other one inside it.
    by_cases first : p = 0
    · subst first
      rw [Nat.mul_zero, Nat.add_zero] at same
      exact ⟨0, some, (pageOf_samePage ep.p_vaddr).symm.trans same⟩
    · have above : ep.p_vaddr < pageOf ep.p_vaddr + 4096 * p := by
        unfold pageOf
        omega
      refine ⟨pageOf ep.p_vaddr + 4096 * p - ep.p_vaddr, by omega, ?_⟩
      rw [Nat.add_sub_cancel' (Nat.le_of_lt above)]
      exact same
  · rintro ⟨k, below, same⟩
    exact (ep.covers_byte below).congr same

/-- What loading segments does to the tables of the task with PML4 `r`. -/
structure Resident (segments : List Phdr) (m : Machine) (use : Word → Use) (r : Word)
    (Q : Finset (List Nat)) (m' : Machine) (use' : Word → Use) : Prop where
  loaded : Loaded m use r m' use'
  mapped : ∀ v, UserAddress v → ((m'.translate r v).isSome ↔
    (m.translate r v).isSome ∨ ∃ ep ∈ segments, ep.Covers v)
  entries : ∀ v e, UserAddress v → m'.translate r v = some e →
    m.translate r v = some e ∨ frame e ∈ m.head
  charged : Charged m r Q (segments.map Phdr.ownFrames).sum m'

theorem Resident.nil (own : m.Private use r) (Q : Finset (List Nat)) :
    Resident [] m use r Q m use :=
  ⟨⟨own, .refl⟩, fun v _ => by simp, fun v e _ found => Or.inl found, .of_walk rfl fun _ _ => rfl⟩

theorem Resident.cons (first : Resident [ep] m use r Q m1 use1)
    (later : Resident segments m1 use1 r Q m' use') :
    Resident (ep :: segments) m use r Q m' use' := by
  refine ⟨first.loaded.trans later.loaded, fun v user => ?_, fun v e user found => ?_, ?_⟩
  · rw [later.mapped v user, first.mapped v user]
    simp [or_assoc]
  · rcases later.entries v e user found with old | fresh
    · exact first.entries v e user old
    · exact Or.inr (first.loaded.spares.head.mem fresh)
  · have sum := first.charged.trans later.charged
    simpa using sum

/-- One segment: the node of the VMA, the pages, the bytes of the file, the zeros. -/
theorem Machine.Private.resident (own : m.Private use ts.pml4e) (loadable : Loadable ep)
    (inner : ∀ q ∈ Q, InnerPath Inner [] q) (tables : ep.tables ⊆ Q)
    (ran : LateOS.loadSegment file ep ts m = some (ts', m')) :
    ep.Readable file ∧ ∃ use', Resident [ep] m use ts.pml4e Q m' use' := by
  have filesz := loadable.filesz
  obtain ⟨-, f, m1, m2, m3, node, mapped, copied, cleared⟩ := loadable.loaded ran
  have taken := own.sound.kmalloc node
  have first := own.kmalloc node
  have paged := first.after.mapPages_paged inner loadable.user tables mapped
  obtain ⟨⟨use2, frames, spread⟩, pages⟩ := paged
  have second := spread.loaded first.after
  have source (k : Nat) (below : k < ep.p_filesz) : UserAddress (ep.p_vaddr + k) :=
    loadable.inside (by omega)
  have zeros (k : Nat) (below : k < ep.p_memsz - ep.p_filesz) :
      UserAddress (ep.p_vaddr + ep.p_filesz + k) := by
    rw [Nat.add_assoc]
    exact loadable.inside (by omega)
  have third := second.after.memcpy_poured source
    (fun i j order below => loadable.apart order (by omega)) copied
  rw [memset_eq] at cleared
  have fourth := third.loaded.after.memcpy_poured zeros
    (fun i j order below => by
      rw [Nat.add_assoc, Nat.add_assoc]
      exact loadable.apart (by omega) (by omega)) cleared
  have before (w : Nat) : m1.translate ts.pml4e w = m.translate ts.pml4e w := by
    unfold translate Machine.tables
    rw [taken.mem]
  have after (w : Nat) : m'.translate ts.pml4e w = m2.translate ts.pml4e w :=
    (fourth.translate w).trans (third.translate w)
  refine ⟨fun k below => ?_, use2, ?_⟩
  · -- The byte has been stored, so that it was read.
    have stored := third.here k below
    obtain ⟨p, inside, same⟩ := ep.covers_byte (k := k) (by omega)
    obtain ⟨e, found⟩ := Option.isSome_iff_exists.mp (spread.mapped inside same)
    rw [← stored, Machine.byteAt, third.translate, found]
    rfl
  · refine ⟨first.trans (second.trans (third.loaded.trans fourth.loaded)), fun v user => ?_,
      fun v e user found => ?_, ?_⟩
    · rw [after, spread.isSome_iff user, before]
      simp [Phdr.Covers, Phdr.pages]
    · rw [after] at found
      rcases spread.entry_free taken.sound user found with old | fresh
      · exact Or.inl ((before v).symm.trans old)
      · exact Or.inr (taken.suffix.mem fresh)
    · have copying : Charged m2 ts.pml4e Q 0 m' := by
        refine .of_walk (fourth.head.trans third.head) fun q member => ?_
        rw [third.loaded.after.memcpy_walk zeros cleared (inner q member),
          second.after.memcpy_walk source copied (inner q member)]
      have sum := (taken.charged ts.pml4e Q).trans (pages.trans copying)
      simpa [Phdr.ownFrames, Phdr.pages] using sum

/-- Frames for the node, the pages and all tables are enough. -/
theorem Machine.Private.loadSegment_enough (own : m.Private use ts.pml4e) (loadable : Loadable ep)
    (inner : ∀ q ∈ Q, InnerPath Inner [] q) (tables : ep.tables ⊆ Q) (readable : ep.Readable file)
    (enough : ep.ownFrames + (m.unmade ts.pml4e Q).card ≤ m.head.length) :
    ∃ ts' m', LateOS.loadSegment file ep ts m = some (ts', m') := by
  unfold Phdr.ownFrames Phdr.pages at enough
  obtain ⟨f, m1, node, one⟩ := own.sound.kmalloc_total (by omega)
  have left := (own.sound.kmalloc node).unmade ts.pml4e Q
  obtain ⟨m2, mapped⟩ := (own.kmalloc node).after.mapPages_enough inner loadable.user tables
    (by rw [left]; omega)
  obtain ⟨ts', m', ran, _⟩ := own.loadSegment_stores loadable readable node mapped
  exact ⟨ts', m', ran⟩

/-! ## One after the other -/

/-- Both directions for a list of segments. -/
theorem Machine.Private.loadSegments_resident (own : m.Private use ts.pml4e)
    (all : AllLoadable segments) (inner : ∀ q ∈ Q, InnerPath Inner [] q)
    (tables : ∀ ep ∈ segments, ep.tables ⊆ Q)
    (ran : LateOS.loadSegments file segments ts m = some (ts', m')) :
    (∀ ep ∈ segments, ep.Readable file) ∧
      ∃ use', Resident segments m use ts.pml4e Q m' use' := by
  induction segments generalizing ts m use with
  | nil =>
    cases ran
    exact ⟨nofun, use, .nil own Q⟩
  | cons ep rest ih =>
    obtain ⟨load, loadable⟩ := all ep (by simp)
    rw [loadSegments_cons load] at ran
    obtain ⟨⟨ts1, m1⟩, first, ran⟩ := Option.bind_eq_some_iff.mp ran
    obtain ⟨readable, use1, resident⟩ := own.resident loadable inner (tables ep (by simp)) first
    have same := loadable.pml4e first
    have own1 : m1.Private use1 ts1.pml4e := same ▸ resident.loaded.after
    obtain ⟨others, use2, later⟩ := ih own1 (fun e member => all e (by simp [member]))
      (fun e member => tables e (by simp [member])) ran
    rw [same] at later
    refine ⟨fun e member => ?_, use2, resident.cons later⟩
    rcases List.mem_cons.mp member with rfl | member
    · exact readable
    · exact others e member

theorem Machine.Private.loadSegments_enough (own : m.Private use ts.pml4e)
    (all : AllLoadable segments) (inner : ∀ q ∈ Q, InnerPath Inner [] q)
    (tables : ∀ ep ∈ segments, ep.tables ⊆ Q) (readable : ∀ ep ∈ segments, ep.Readable file)
    (enough : (segments.map Phdr.ownFrames).sum + (m.unmade ts.pml4e Q).card ≤ m.head.length) :
    ∃ ts' m', LateOS.loadSegments file segments ts m = some (ts', m') := by
  induction segments generalizing ts m use with
  | nil => exact ⟨ts, m, rfl⟩
  | cons ep rest ih =>
    obtain ⟨load, loadable⟩ := all ep (by simp)
    rw [List.map_cons, List.sum_cons] at enough
    obtain ⟨ts1, m1, first⟩ := own.loadSegment_enough loadable inner (tables ep (by simp))
      (readable ep (by simp)) (by omega)
    obtain ⟨_, use1, resident⟩ := own.resident loadable inner (tables ep (by simp)) first
    have same := loadable.pml4e first
    have own1 : m1.Private use1 ts1.pml4e := same ▸ resident.loaded.after
    have charged := resident.charged
    unfold Charged at charged
    rw [List.map_singleton, List.sum_singleton] at charged
    obtain ⟨ts', m', ran⟩ := ih own1 (fun e member => all e (by simp [member]))
      (fun e member => tables e (by simp [member])) (fun e member => readable e (by simp [member]))
      (by rw [same]; omega)
    refine ⟨ts', m', ?_⟩
    rw [loadSegments_cons load, first]
    exact ran

/-! ## readELFandFork -/

namespace Elf

variable (file : Elf)

/-- The tables above the pages of all segments. -/
def tables : Finset (List Nat) := file.segments.foldr (fun ep Q => ep.tables ∪ Q) ∅

/-- The frames that loading the program takes: the PML4, a node and the pages for each segment,
and the tables, which are shared. -/
def needs : Nat := 1 + (file.segments.map Phdr.ownFrames).sum + file.tables.card

end Elf

theorem Elf.mem_tables {q : List Nat} : q ∈ file.tables ↔ ∃ ep ∈ file.segments, q ∈ ep.tables := by
  unfold Elf.tables
  induction file.segments with
  | nil => simp
  | cons ep rest ih => simp [ih]

theorem Loadable.tables_inner {q : List Nat} (loadable : Loadable ep) (member : q ∈ ep.tables) :
    q ≠ [] ∧ InnerPath Inner [] q := by
  refine pagePaths_inner (fun p below => loadable.user _ (by omega) ?_) member
  unfold Phdr.pages at below
  omega

/-- The task's address space is the program's: its pages are there, its own and writable. -/
structure PagesLoaded (file : Elf) (m : Machine) (use : Word → Use) (ts' : TaskStruct)
    (m' : Machine) : Prop where
  mapped : ∀ v, UserAddress v →
    ((m'.translate ts'.pml4e v).isSome ↔ ∃ ep ∈ file.segments, ep.Intersects v)
  writable : ∀ v, UserAddress v → (m'.translate ts'.pml4e v).isSome →
    m'.permits 7 ts'.pml4e v = true
  fresh : ∀ v e, UserAddress v → m'.translate ts'.pml4e v = some e →
    frame e ∈ m.head ∧ frame e ∉ m'.head
  own : ∀ v w e e', UserAddress v → UserAddress w → m'.translate ts'.pml4e v = some e →
    m'.translate ts'.pml4e w = some e' → frame e = frame e' → SamePage v w
  others : ∀ r v w e e', use r = .table r [] → UserAddress v → UserAddress w →
    m'.translate r v = some e → m'.translate ts'.pml4e w = some e' → frame e ≠ frame e'
  vm : ts'.vm = file.segments.map fun ep => ⟨ep.p_vaddr, ep.p_vaddr + ep.p_memsz, 0⟩

/-- A page that is not shared and open to user code is writable. -/
theorem Machine.Private.permits {e : Word} (own : m.Private use r) (user : UserAddress v)
    (found : m.translate r v = some e) : m.permits 7 r v = true := by
  obtain ⟨_, _, open5, either⟩ := own.sound.translate_facts own.root user found
  have writable : e &&& 2 ≠ 0 := by
    intro clear
    exact own.unshared v e user found ⟨clear, either.resolve_left (absurd clear)⟩
  exact own.sound.permits_of_translate own.root user (by decide) found
    (seven_of_writable open5 writable)

/-- After all segments have been loaded, each of their tables is there. -/
theorem Resident.unmade {file : Image}
    (resident : Resident file.segments.reverse m use r file.tables m' use') :
    m'.unmade r file.tables = ∅ := by
  refine Finset.filter_eq_empty_iff.mpr fun q member absent => ?_
  obtain ⟨ep, header, inside⟩ := Elf.mem_tables.mp member
  obtain ⟨p, range, own⟩ := Finset.mem_biUnion.mp inside
  have below := (Finset.mem_Ico.mp range).2
  have load := file.allLoadable ep (List.mem_reverse.mpr header)
  have user : UserAddress (pageOf ep.p_vaddr + 4096 * p) := by
    refine load.2.user _ (by omega) ?_
    unfold Phdr.pages at below
    omega
  have there := (resident.mapped _ user).mpr
    (Or.inr ⟨ep, List.mem_reverse.mpr header, p, below, .refl _⟩)
  obtain ⟨e, found⟩ := Option.isSome_iff_exists.mp there
  obtain ⟨rest, split⟩ := (mem_prefixes.mp own).2
  have reached := walk_of_translate found
  rw [← split, Tables.walk_append, absent] at reached
  cases reached

/-- A cleared PML4 leads to no table. -/
theorem Machine.unmade_blank (blank : ∀ i, m.mem r i = 0) (some : ∀ q ∈ Q, q ≠ []) :
    m.unmade r Q = Q := by
  refine Finset.filter_eq_self.mpr fun q member => Option.not_isSome_iff_eq_none.mp fun reached => ?_
  exact some q member ((walk_blank blank).mp reached)

theorem Image.tables_inner (file : Image) {q : List Nat} (member : q ∈ file.tables) :
    q ≠ [] ∧ InnerPath Inner [] q := by
  obtain ⟨ep, header, inside⟩ := Elf.mem_tables.mp member
  exact (file.allLoadable ep (List.mem_reverse.mpr header)).2.tables_inner inside

theorem segmentVMAs_segments (file : Image) : segmentVMAs file.segments =
    file.segments.map fun ep => ⟨ep.p_vaddr, ep.p_vaddr + ep.p_memsz, 0⟩ := by
  unfold segmentVMAs
  have all : (file.segments.filter fun ep => ep.p_type = 1) = file.segments := by
    unfold Elf.segments
    rw [List.filter_filter]
    simp only [Bool.and_self]
  rw [all]
  refine List.map_congr_left fun ep member => ?_
  have last := (file.allLoadable ep (List.mem_reverse.mpr member)).2.last
  rw [← last]
  rfl

theorem Machine.Taken.newPrivate (taken : Taken m use r m1) (ts1 : TaskStruct)
    (root : ts1.pml4e = r) :
    (m1.zero r).Private (Function.update use r (.table r [])) ts1.pml4e := by
  rw [root]
  exact taken.newRoot.1

/-- What a new task needs to be loaded, and what it is once it has been. -/
theorem Machine.Sound.readELFandFork_loads {file : Image}
    (some : ∀ ep ∈ file.segments, 0 < ep.p_memsz) (new : ts.vm = []) (sound : m.Sound use)
    (popped : m.getFreeFrame = Option.some (r, m1))
    (ran : LateOS.readELFandFork file.toElf ts m = Option.some (ts', m')) :
    (∀ ep ∈ file.segments, ep.Readable file.toElf) ∧ file.needs ≤ m.head.length ∧
      PagesLoaded file.toElf m use ts' m' := by
  have taken := sound.getFreeFrame popped
  have own := taken.newPrivate { ts with pml4e := r, rip := file.e_entry } rfl
  have blank := Machine.zero_self m1 r
  rw [sound.readELFandFork_eq popped] at ran
  have all := file.allLoadable
  obtain ⟨shape, _⟩ := own.loadSegments (fun ep member _ => (all ep member).2) ran
  obtain ⟨readable, use', resident⟩ := own.loadSegments_resident all
    (fun q member => (file.tables_inner member).2)
    (fun ep member q inside => Elf.mem_tables.mpr ⟨ep, List.mem_reverse.mp member, inside⟩) ran
  have root : ts'.pml4e = r := by rw [shape]
  have after : m'.Private use' r := resident.loaded.after
  refine ⟨fun ep member => readable ep (List.mem_reverse.mpr member), ?_, ?_⟩
  · have charged := resident.charged
    have first : m.head.length = m1.head.length + 1 := by rw [taken.head, List.length_cons]
    unfold Charged at charged
    rw [resident.unmade, unmade_blank blank fun q member => (file.tables_inner member).1,
      List.map_reverse, List.sum_reverse] at charged
    change m1.head.length + 0 = _ at charged
    unfold Elf.needs
    omega
  · constructor <;> try rw [root]
    case mapped =>
      intro v user
      rw [resident.mapped v user, translate_blank blank]
      constructor
      · rintro (none | ⟨ep, member, covers⟩)
        · cases none
        · have header := List.mem_reverse.mp member
          exact ⟨ep, header, (Phdr.covers_iff (some ep header)).mp covers⟩
      · rintro ⟨ep, header, intersects⟩
        exact Or.inr ⟨ep, List.mem_reverse.mpr header,
          (Phdr.covers_iff (some ep header)).mpr intersects⟩
    case writable =>
      intro v user there
      obtain ⟨e, found⟩ := Option.isSome_iff_exists.mp there
      exact after.permits user found
    case fresh =>
      intro v e user found
      have data := (after.sound.translate_facts after.root user found).2.1
      rcases resident.entries v e user found with old | free
      · rw [translate_blank blank] at old
        cases old
      · refine ⟨taken.suffix.mem free, fun left => ?_⟩
        rw [after.sound.free _ left] at data
        cases data
    case own =>
      intro v w e e' userV userW foundV foundW same
      rcases after.sound.frames_apart after.root after.root userV userW foundV foundW same with
        ⟨_, page⟩ | ⟨shared, _⟩
      · exact page
      · exact absurd shared (after.unshared v e userV foundV)
    case others =>
      intro r' v w e e' root' userV userW foundV foundW same
      -- The new PML4 was free, so that the other task has another one.
      have other : r' ≠ r := taken.ne (by simp [root'])
      have kept : use' r' = .table r' [] := by
        rw [resident.loaded.spares.kept r', Function.update_of_ne other, root']
        rw [Function.update_of_ne other, root']
        nofun
      rcases after.sound.frames_apart kept after.root userV userW foundV foundW same with
        ⟨roots, _⟩ | ⟨_, shared⟩
      · exact other roots
      · exact after.unshared w e' userW foundW shared
    case vm =>
      rw [shape]
      dsimp only
      rw [List.reverse_reverse, new, List.append_nil, segmentVMAs_segments]

/-- A new task gets the pages of its program, and no other ones, exactly when the kernel can read
the bytes it copies and there are frames for the PML4, the nodes, the pages and the tables. -/
theorem readELFandFork_loads_iff (file : Image) (some : ∀ ep ∈ file.segments, 0 < ep.p_memsz)
    (new : ts.vm = []) (sound : m.Sound use) :
    (∃ ts' m', readELFandFork file.toElf ts m = Option.some (ts', m') ∧
      PagesLoaded file.toElf m use ts' m') ↔
      (∀ ep ∈ file.segments, ep.Readable file.toElf) ∧ file.needs ≤ m.head.length := by
  cases popped : m.getFreeFrame with
  | none =>
    -- There is no frame for the PML4.
    have empty : m.head.length = 0 := by
      by_contra left
      obtain ⟨f, m1, there, _⟩ := getFreeFrame_total (m := m) (by omega)
      rw [popped] at there
      cases there
    have stops : readELFandFork file.toElf ts m = none := by
      unfold readELFandFork
      rw [sound.getNewPage_eq, popped]
      rfl
    rw [stops, empty]
    simp [Elf.needs]
  | some pair =>
    obtain ⟨r, m1⟩ := pair
    constructor
    · rintro ⟨ts', m', ran, _⟩
      obtain ⟨readable, enough, _⟩ := sound.readELFandFork_loads some new popped ran
      exact ⟨readable, enough⟩
    · rintro ⟨readable, enough⟩
      have taken := sound.getFreeFrame popped
      have own := taken.newPrivate { ts with pml4e := r, rip := file.e_entry } rfl
      have blank := Machine.zero_self m1 r
      have first : m.head.length = m1.head.length + 1 := by rw [taken.head, List.length_cons]
      obtain ⟨ts', m', ran⟩ := own.loadSegments_enough file.allLoadable
        (fun q member => (file.tables_inner member).2)
        (fun ep member q inside => Elf.mem_tables.mpr ⟨ep, List.mem_reverse.mp member, inside⟩)
        (fun ep member => readable ep (List.mem_reverse.mp member)) (by
          rw [unmade_blank blank fun q member => (file.tables_inner member).1, List.map_reverse,
            List.sum_reverse]
          change _ ≤ m1.head.length
          unfold Elf.needs at enough
          omega)
      rw [← sound.readELFandFork_eq popped] at ran
      obtain ⟨_, _, loaded⟩ := sound.readELFandFork_loads some new popped ran
      exact ⟨ts', m', ran, loaded⟩

/-! ## Programs that are loaded and not loaded -/

theorem readELFandFork_loads_plain : ∃ ts' m',
    readELFandFork plainImage.toElf (bootQueue 2) bootMachine = some (ts', m') ∧
      PagesLoaded plainImage.toElf bootMachine bootUse ts' m' := by
  have some : ∀ ep ∈ plainImage.segments, 0 < ep.p_memsz := by decide
  exact (readELFandFork_loads_iff plainImage some rfl bootMachine_sound).mpr
    ⟨fun _ _ _ _ => rfl, by decide +kernel⟩

/-- The file begins 32 MiB below the end of memory, and the two bytes of its segment are a megabyte
behind its start. -/
def farImage : Image :=
  { imageOf [twoBytes 0x100000 0x400000] (by decide) (by decide) with
    content := fun k => if k < 0x2000000 then some (BitVec.ofNat 8 k) else none }

/-- The kernel reads 64 MiB behind the start of the file, where nothing is mapped. -/
theorem farImage_not_loaded : bootMachine.Sound bootUse ∧ (bootQueue 2).vm = [] ∧
    (∀ ep ∈ farImage.segments, 0 < ep.p_memsz) ∧ farImage.Inside ∧
    farImage.needs ≤ bootMachine.head.length ∧
    ¬∃ ts' m', readELFandFork farImage.toElf (bootQueue 2) bootMachine = some (ts', m') ∧
      PagesLoaded farImage.toElf bootMachine bootUse ts' m' := by
  have some : ∀ ep ∈ farImage.segments, 0 < ep.p_memsz := by decide
  have inside : ∀ ep ∈ farImage.segments, ∀ k < ep.p_filesz,
      (farImage.content (ep.p_offset + k)).isSome := by decide
  have stops : (readELFandFork farImage.toElf (bootQueue 2) bootMachine).isNone = true := by
    decide +kernel
  refine ⟨bootMachine_sound, rfl, some, inside, by decide +kernel, ?_⟩
  rintro ⟨ts', m', ran, _⟩
  rw [ran] at stops
  cases stops

end LateOS
