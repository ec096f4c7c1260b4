import LateOS.Memory.Loader

/-!
# Loading keeps memory sound

The loaders and calls of `LateOS.Memory.Loader` keep the invariant of memory and every byte
of every task that they do not work on.
-/
namespace LateOS

open Lib

/-- A program file as the linker makes it: its segments lie under slots 0 to 510. -/
structure Image extends Elf where
  user : ∀ ep ∈ phdrs, ep.p_type = 1 → ∀ v, pageOf ep.p_vaddr ≤ v → v < ep.p_vaddr + ep.p_memsz →
    UserAddress v
  fits : ∀ ep ∈ phdrs, ep.p_type = 1 → ep.p_vaddr + ep.p_memsz < 2 ^ 64
  filesz : ∀ ep ∈ phdrs, ep.p_type = 1 → ep.p_filesz ≤ ep.p_memsz

namespace Machine

variable {m m' m'' : Machine} {use use' use'' : Word → Use} {roots : Set Word} {r f : Word}
  {v : Nat}

/-- Every task with a PML4 outside `roots` still translates every address as before, and has
every byte it had. -/
structure Spares (roots : Set Word) (m : Machine) (use : Word → Use) (m' : Machine)
    (use' : Word → Use) : Prop where
  kept : ∀ x, use x ≠ .free → use' x = use x
  head : m'.head <:+ m.head
  translate : ∀ r, use r = .table r [] → r ∉ roots → ∀ v, m'.translate r v = m.translate r v
  byteAt : ∀ r, use r = .table r [] → r ∉ roots → ∀ v, UserAddress v →
    m'.byteAt r v = m.byteAt r v

theorem Spares.refl : Spares roots m use m use :=
  ⟨fun _ _ => rfl, List.suffix_refl _, fun _ _ _ _ => rfl, fun _ _ _ _ _ => rfl⟩

theorem Spares.trans (first : Spares roots m use m' use') (second : Spares roots m' use' m'' use'') :
    Spares roots m use m'' use'' := by
  have root {r} (root : use r = .table r []) : use' r = .table r [] :=
    (first.kept r (by simp [root])).trans root
  refine ⟨fun x used => ?_, second.head.trans first.head, fun r table other v => ?_,
    fun r table other v user => ?_⟩
  · have same := first.kept x used
    exact (second.kept x (same ▸ used)).trans same
  · exact (second.translate r (root table) other v).trans (first.translate r table other v)
  · exact (second.byteAt r (root table) other v user).trans (first.byteAt r table other v user)

theorem Spares.mono {more : Set Word} (spares : Spares roots m use m' use')
    (subset : roots ⊆ more) : Spares more m use m' use' :=
  ⟨spares.kept, spares.head, fun r table other => spares.translate r table fun member =>
    other (subset member), fun r table other => spares.byteAt r table fun member =>
      other (subset member)⟩

theorem Within.spares (within : Within roots m use m' use') (sound : m.Sound use) :
    Spares roots m use m' use' :=
  ⟨within.kept, within.head, fun _ root other v => within.translate sound root other v,
    fun _ root other _ user => within.byteAt sound root other user⟩

/-! ## A task without shared pages -/

/-- No page of the task with PML4 `r` is shared. -/
structure Private (m : Machine) (use : Word → Use) (r : Word) : Prop where
  sound : m.Sound use
  root : use r = .table r []
  unshared : ∀ v e, UserAddress v → m.translate r v = some e → ¬Shared e

/-- The task with PML4 `r` has been changed, its pages are its own, and the other tasks have
been spared. -/
structure Loaded (m : Machine) (use : Word → Use) (r : Word) (m' : Machine)
    (use' : Word → Use) : Prop where
  after : m'.Private use' r
  spares : Spares {r} m use m' use'

theorem Loaded.trans (first : Loaded m use r m' use') (second : Loaded m' use' r m'' use'') :
    Loaded m use r m'' use'' := ⟨second.after, first.spares.trans second.spares⟩

theorem Private.getFreeFrame (own : m.Private use r) (ran : m.getFreeFrame = some (f, m')) :
    Loaded m use r m' use ∧ Taken m use f m' := by
  have taken := own.sound.getFreeFrame ran
  refine ⟨⟨⟨taken.sound, own.root, fun v e user found => ?_⟩,
    taken.within.spares own.sound⟩, taken⟩
  refine own.unshared v e user ?_
  rw [← found]
  unfold translate tables
  rw [taken.mem]

theorem Private.kmalloc (own : m.Private use r) (ran : m.kmalloc 32 = some (f, m')) :
    Loaded m use r m' use := by
  rw [own.sound.kmalloc_eq] at ran
  exact (own.getFreeFrame ran).1

/-- A frame from the free list is mapped at `v`. -/
theorem Private.mapPage (own : m.Private use r) (user : UserAddress v)
    (popped : m.getFreeFrame = some (f, m')) (ran : m'.initTaskPagetables v f r = some m'') :
    ∃ use', Loaded m use r m'' use' := by
  obtain ⟨first, taken⟩ := own.getFreeFrame popped
  obtain ⟨use', mapped⟩ := taken.sound.initTaskPagetables own.root user taken.spare taken.out
    taken.aligned ran
  have root' := (mapped.within.kept r (by simp [own.root])).trans own.root
  refine ⟨use', first.trans ⟨⟨mapped.sound, root', fun v' e user' found => ?_⟩,
    mapped.within.spares taken.sound⟩⟩
  -- The page is the new one, or it was there and was the task's own.
  rcases mapped.fresh own.root user' found with alone | old
  · exact alone
  · exact first.after.unshared v' e user' old

theorem Private.mapPages {k last : Nat} (own : m.Private use r)
    (user : ∀ v, k ≤ v → v < last → UserAddress v) (ran : m.mapPages r k last = some m') :
    ∃ use', Loaded m use r m' use' := by
  refine loop_inv (I := fun _ s => ∃ use', Loaded m use r s use') ⟨use, own, .refl⟩ ?_ ran
  intro i s s' below ⟨use1, done⟩ ran
  obtain ⟨⟨f, s1⟩, popped, ran⟩ := Option.bind_eq_some_iff.mp ran
  obtain ⟨use2, mapped⟩ := done.after.mapPage (user _ (by omega) (by omega)) popped ran
  exact ⟨use2, done.trans mapped⟩

theorem Private.storeByte {b : Byte} (own : m.Private use r) (user : UserAddress v)
    (stored : m.storeByte r v b = some m') : Loaded m use r m' use := by
  obtain ⟨sound, e, found, rfl⟩ := own.sound.storeByte own.root user stored
  have data := (own.sound.translate_facts own.root user found).2.1
  have kept : ∀ x, use x ≠ .data → use x ≠ .free →
      (m.write (frame e) (v % 4096 / 8)
        (setByte (m.mem (frame e) (v % 4096 / 8)) (v % 8) b)).mem x = m.mem x := by
    intro x other _
    exact write_mem_of_ne m _ _ _ (by rintro rfl; exact other data)
  refine ⟨⟨sound, own.root, fun v' e' user' found' => ?_⟩, fun _ _ => rfl, List.suffix_refl _,
    fun r' root' other v' => ?_, fun r' root' other v' user' => ?_⟩
  · rw [own.sound.translate_data own.root kept] at found'
    exact own.unshared v' e' user' found'
  · exact own.sound.translate_data root' kept v'
  · rw [own.sound.byteAt_store own.root user stored (fun e' => own.unshared v e' user) root' user',
      if_neg fun both => other both.1]

theorem Private.memcpy {dest n : Nat} {src : Nat → Option Byte} (own : m.Private use r)
    (user : ∀ k, k < n → UserAddress (dest + k)) (ran : m.memcpy r dest src n = some m') :
    Loaded m use r m' use := by
  refine loop_inv (I := fun _ s => Loaded m use r s use) ⟨own, .refl⟩ ?_ ran
  intro k s s' below done ran
  obtain ⟨b, _, stored⟩ := Option.bind_eq_some_iff.mp ran
  exact done.trans (done.after.storeByte (user k below) stored)

theorem Private.memset {dest n : Nat} {c : Byte} (own : m.Private use r)
    (user : ∀ k, k < n → UserAddress (dest + k)) (ran : m.memset r dest c n = some m') :
    Loaded m use r m' use := by
  refine loop_inv (I := fun _ s => Loaded m use r s use) ⟨own, .refl⟩ ?_ ran
  intro k s s' below done stored
  exact done.trans (done.after.storeByte (user k below) stored)

theorem Repaired.loaded (repaired : Repaired m use r v m' use') (own : m.Private use r) :
    Loaded m use r m' use' := by
  have root' := (repaired.within.kept r (by simp [own.root])).trans own.root
  refine ⟨⟨repaired.sound, root', fun v' e user found => ?_⟩, repaired.within.spares own.sound⟩
  rcases repaired.fresh v' e user found with alone | old
  · exact alone
  · exact own.unshared v' e user old

end Machine

open Machine

variable {m m' : Machine} {use : Word → Use} {ts ts' : TaskStruct}

/-- A store of the kernel goes through at once, or when a fault has brought the page. -/
theorem poke_cases {store : Nat × Byte} (ran : poke ts m store = some m') :
    m.storeByte ts.pml4e store.1 store.2 = some m' ∨
      (m.translate ts.pml4e store.1 = none ∧ ∃ m1, m.isr14 ts store.1 = some (.resumed m1) ∧
        m1.storeByte ts.pml4e store.1 store.2 = some m') := by
  unfold LateOS.poke at ran
  split at ran
  next stored =>
    cases ran
    exact Or.inl stored
  next missing =>
    split at ran
    next m1 handled => exact Or.inr ⟨Option.map_eq_none_iff.mp missing, m1, handled, ran⟩
    next => cases ran

/-- The kernel writes through read-only entries too, so only a missing page faults. -/
theorem Machine.Private.fault_loaded {v : Nat} (own : m.Private use ts.pml4e) (user : UserAddress v)
    (unmapped : m.translate ts.pml4e v = none) (ran : m.isr14 ts v = some (.resumed m')) :
    ∃ use', Loaded m use ts.pml4e m' use' := by
  obtain ⟨use', repaired⟩ := own.sound.isr14 own.root (fun _ => user)
    (fun _ e found => by simp [unmapped] at found) ran
  exact ⟨use', repaired.loaded own⟩

theorem Machine.Private.poke {store : Nat × Byte} (own : m.Private use ts.pml4e)
    (user : UserAddress store.1) (ran : poke ts m store = some m') :
    ∃ use', Loaded m use ts.pml4e m' use' := by
  rcases poke_cases ran with stored | ⟨unmapped, m1, handled, stored⟩
  · exact ⟨use, own.storeByte user stored⟩
  · obtain ⟨use1, first⟩ := own.fault_loaded user unmapped handled
    exact ⟨use1, first.trans (first.after.storeByte user stored)⟩

theorem Machine.Private.pokes {stores : Stores} (own : m.Private use ts.pml4e)
    (user : ∀ store ∈ stores, UserAddress store.1) (ran : pokes ts m stores = some m') :
    ∃ use', Loaded m use ts.pml4e m' use' := by
  induction stores generalizing m use with
  | nil =>
    cases ran
    exact ⟨use, own, .refl⟩
  | cons store rest ih =>
    obtain ⟨m1, first, ran⟩ := Option.bind_eq_some_iff.mp ran
    obtain ⟨use1, done⟩ := own.poke (user store (by simp)) first
    obtain ⟨use2, later⟩ := ih done.after (fun store member => user store (by simp [member])) ran
    exact ⟨use2, done.trans later⟩

/-! ## Segments -/

/-- What a program header has to meet for its segment to be loaded. -/
structure Loadable (ep : Phdr) : Prop where
  user : ∀ v, pageOf ep.p_vaddr ≤ v → v < ep.p_vaddr + ep.p_memsz → UserAddress v
  fits : ep.p_vaddr + ep.p_memsz < 2 ^ 64
  filesz : ep.p_filesz ≤ ep.p_memsz

theorem Image.loadable (file : Image) {ep : Phdr} (member : ep ∈ file.phdrs)
    (load : ep.p_type = 1) : Loadable ep :=
  ⟨file.user ep member load, file.fits ep member load, file.filesz ep member load⟩

theorem pageOf_le (v : Nat) : pageOf v ≤ v := Nat.div_mul_le_self v 4096

theorem setupVMA_first (ep : Phdr) : (setupVMA ep).2 = pageOf ep.p_vaddr := by
  unfold setupVMA
  dsimp only
  split
  · rfl
  next aligned =>
    unfold pageOf
    omega

theorem Loadable.last {ep : Phdr} (loadable : Loadable ep) :
    (setupVMA ep).1.lastAddress = ep.p_vaddr + ep.p_memsz :=
  Nat.mod_eq_of_lt loadable.fits

theorem Loadable.zeros {ep : Phdr} (loadable : Loadable ep) :
    (ep.p_memsz + 2 ^ 64 - ep.p_filesz) % 2 ^ 64 = ep.p_memsz - ep.p_filesz := by
  have fits := loadable.fits
  have filesz := loadable.filesz
  omega

/-- The four things that loading a segment does. -/
theorem Loadable.loaded {file : Elf} {ep : Phdr} (loadable : Loadable ep)
    (ran : loadSegment file ep ts m = some (ts', m')) :
    ts' = { ts with vm := (setupVMA ep).1 :: ts.vm } ∧ ∃ f m1 m2 m3,
      m.kmalloc 32 = some (f, m1) ∧
      m1.mapPages ts.pml4e (pageOf ep.p_vaddr) (ep.p_vaddr + ep.p_memsz) = some m2 ∧
      m2.memcpy ts.pml4e ep.p_vaddr (fun j => file.content (64 * ep.p_offset + j)) ep.p_filesz =
        some m3 ∧
      m3.memset ts.pml4e (ep.p_vaddr + ep.p_filesz) 0 (ep.p_memsz - ep.p_filesz) = some m' := by
  unfold LateOS.loadSegment at ran
  obtain ⟨⟨f, m1⟩, node, ran⟩ := Option.bind_eq_some_iff.mp ran
  obtain ⟨m2, mapped, ran⟩ := Option.bind_eq_some_iff.mp ran
  obtain ⟨m3, copied, ran⟩ := Option.bind_eq_some_iff.mp ran
  obtain ⟨m4, cleared, ran⟩ := Option.bind_eq_some_iff.mp ran
  cases ran
  change m1.mapPages ts.pml4e (setupVMA ep).2 (setupVMA ep).1.lastAddress = some m2 at mapped
  rw [setupVMA_first, loadable.last] at mapped
  rw [loadable.zeros] at cleared
  exact ⟨rfl, f, m1, m2, m3, node, mapped, copied, cleared⟩

/-- The task keeps its PML4. -/
theorem Loadable.pml4e {file : Elf} {ep : Phdr} (loadable : Loadable ep)
    (ran : loadSegment file ep ts m = some (ts', m')) : ts'.pml4e = ts.pml4e := by
  rw [(loadable.loaded ran).1]

/-- The first header is passed over, or its segment is loaded before the others. -/
theorem loadSegments_next {file : Elf} {ep : Phdr} {rest : List Phdr}
    (ran : loadSegments file (ep :: rest) ts m = some (ts', m')) :
    (ep.p_type ≠ 1 ∧ loadSegments file rest ts m = some (ts', m')) ∨
      (ep.p_type = 1 ∧ ∃ ts1 m1, loadSegment file ep ts m = some (ts1, m1) ∧
        loadSegments file rest ts1 m1 = some (ts', m')) := by
  rw [loadSegments] at ran
  split at ran
  next other => exact Or.inl ⟨other, ran⟩
  next load =>
    obtain ⟨⟨ts1, m1⟩, first, later⟩ := Option.bind_eq_some_iff.mp ran
    exact Or.inr ⟨not_not.mp load, ts1, m1, first, later⟩

theorem Loadable.inside {ep : Phdr} (loadable : Loadable ep) {k : Nat} (below : k < ep.p_memsz) :
    UserAddress (ep.p_vaddr + k) :=
  loadable.user _ (Nat.le_add_right_of_le (pageOf_le _)) (by omega)

theorem Machine.Private.loadSegment {file : Elf} {ep : Phdr} (own : m.Private use ts.pml4e)
    (loadable : Loadable ep) (ran : loadSegment file ep ts m = some (ts', m')) :
    ts' = { ts with vm := (setupVMA ep).1 :: ts.vm } ∧ ∃ use', Loaded m use ts.pml4e m' use' := by
  have filesz := loadable.filesz
  obtain ⟨shape, f, m1, m2, m3, node, mapped, copied, cleared⟩ := loadable.loaded ran
  have first := own.kmalloc node
  obtain ⟨use2, second⟩ := first.after.mapPages loadable.user mapped
  have third := second.after.memcpy (fun k below => loadable.inside (by omega)) copied
  have fourth := third.after.memset (fun k below => by
    rw [Nat.add_assoc]
    exact loadable.inside (by omega)) cleared
  exact ⟨shape, use2, first.trans (second.trans (third.trans fourth))⟩

/-- The VMAs of the PT_LOAD headers, in the order of the headers. -/
def segmentVMAs (phdrs : List Phdr) : List VmaStruct :=
  (phdrs.filter fun ep => ep.p_type = 1).map fun ep => (setupVMA ep).1

theorem Machine.Private.loadSegments {file : Elf} {phdrs : List Phdr}
    (own : m.Private use ts.pml4e) (loadable : ∀ ep ∈ phdrs, ep.p_type = 1 → Loadable ep)
    (ran : loadSegments file phdrs ts m = some (ts', m')) :
    ts' = { ts with vm := segmentVMAs phdrs.reverse ++ ts.vm } ∧
      ∃ use', Loaded m use ts.pml4e m' use' := by
  induction phdrs generalizing ts m use with
  | nil =>
    cases ran
    exact ⟨rfl, use, own, .refl⟩
  | cons ep rest ih =>
    have later : ∀ ep ∈ rest, ep.p_type = 1 → Loadable ep :=
      fun ep member => loadable ep (List.mem_cons_of_mem _ member)
    rcases loadSegments_next ran with ⟨other, ran⟩ | ⟨load, ts1, m1, first, ran⟩
    · obtain ⟨shape, done⟩ := ih own later ran
      refine ⟨?_, done⟩
      rw [shape]
      simp [segmentVMAs, other]
    · -- The record that comes back has the same PML4, so that the rest starts from private memory
      -- again.
      have here := loadable ep (by simp) load
      obtain ⟨shape, use1, done⟩ := own.loadSegment here first
      have same := here.pml4e first
      have own1 : m1.Private use1 ts1.pml4e := same ▸ done.after
      obtain ⟨shape', use2, rest'⟩ := ih own1 later ran
      rw [same] at rest'
      refine ⟨?_, use2, done.trans rest'⟩
      rw [shape', shape]
      simp [segmentVMAs, load]

theorem Machine.Private.pushVMA {first toend : Nat} (own : m.Private use ts.pml4e)
    (ran : pushVMA ts first toend m = some (ts', m')) :
    ts' = { ts with vm := ⟨first, toend, 0⟩ :: ts.vm } ∧ Loaded m use ts.pml4e m' use := by
  obtain ⟨⟨f, m1⟩, node, ran⟩ := Option.bind_eq_some_iff.mp ran
  cases ran
  exact ⟨rfl, own.kmalloc node⟩

/-! ## New address spaces -/

/-- A cleared frame is a PML4 that maps nothing. -/
theorem Machine.Taken.newRoot {r : Word} {m1 : Machine} (taken : Taken m use r m1) :
    (m1.zero r).Private (Function.update use r (.table r [])) r ∧
      Within ∅ m use (m1.zero r) (Function.update use r (.table r [])) := by
  have claimed := taken.cleared.claim (u := .table r []) taken.spare taken.out
    (Or.inr ⟨⟨r, [], rfl, by simp⟩, zero_self m1 r⟩)
  refine ⟨⟨claimed, Function.update_self .., fun v e user found => ?_⟩, ?_⟩
  · rw [translate_zero] at found
    cases found
  · refine ⟨fun x used => Function.update_of_ne (taken.ne used) _ _, fun x r' p free table => ?_,
      fun x out _ => ?_, taken.suffix, taken.pml4e, taken.pdpte⟩
    · by_cases here : x = r
      · exact here ▸ taken.member
      · rw [Function.update_of_ne here, free] at table
        cases table
    · apply taken.zero_other
      exact fun here => out (here ▸ taken.member)

/-- The root of another task is not the new one, and stays what it is. -/
theorem Machine.Taken.otherRoot {r rc : Word} {m1 : Machine} (taken : Taken m use rc m1)
    (root : use r = .table r []) :
    r ≠ rc ∧ Function.update use rc (.table rc []) r = .table r [] := by
  have used : use r ≠ .free := by simp [root]
  exact ⟨taken.ne used, (taken.newRoot.2.kept r used).trans root⟩

/-- A new task with PML4 `r` has been made out of free frames. -/
structure Machine.Born (m : Machine) (use : Word → Use) (r : Word) (m' : Machine)
    (use' : Word → Use) : Prop where
  spare : use r = .free
  after : m'.Private use' r
  spares : Spares {r} m use m' use'

theorem Machine.Born.trans {r : Word} {m1 : Machine} {use1 use' : Word → Use}
    (first : Born m use r m1 use1) (second : Loaded m1 use1 r m' use') : Born m use r m' use' :=
  ⟨first.spare, second.after, first.spares.trans second.spares⟩

theorem Machine.Sound.readELFandFork {file : Image} (sound : m.Sound use)
    (ran : readELFandFork file.toElf ts m = some (ts', m')) :
    ∃ r use', Born m use r m' use' ∧ ts' =
      { ts with pml4e := r, rip := file.e_entry, vm := segmentVMAs file.phdrs ++ ts.vm } := by
  unfold LateOS.readELFandFork at ran
  rw [sound.getNewPage_eq] at ran
  obtain ⟨⟨r, m1⟩, popped, ran⟩ := Option.bind_eq_some_iff.mp ran
  have taken := sound.getFreeFrame popped
  obtain ⟨own, within⟩ := taken.newRoot
  have start : Born m use r (m1.zero r) (Function.update use r (.table r [])) :=
    ⟨taken.spare, own, (within.spares sound).mono (Set.empty_subset _)⟩
  have own1 : (m1.zero r).Private (Function.update use r (.table r []))
      ({ ts with pml4e := r, rip := file.e_entry } : TaskStruct).pml4e := own
  obtain ⟨shape, use2, loaded⟩ := own1.loadSegments (fun ep member load =>
    file.loadable (List.mem_reverse.mp member) load) ran
  rw [List.reverse_reverse] at shape
  exact ⟨r, use2, start.trans loaded, shape⟩

theorem Machine.Sound.readELFandExec {file : Image} (sound : m.Sound use)
    (root : use ts.pml4e = .table ts.pml4e [])
    (ran : readELFandExec file.toElf ts m = some (ts', m')) :
    ts' = { ts with rip := file.e_entry, vm := segmentVMAs file.phdrs ++ ts.vm } ∧
      ∃ use', Loaded m use ts.pml4e m' use' := by
  unfold LateOS.readELFandExec at ran
  obtain ⟨m1, cleared, ran⟩ := Option.bind_eq_some_iff.mp ran
  obtain ⟨m1', same, down⟩ := sound.deallocTask root
  rw [cleared] at same
  cases same
  have own : m1.Private use ts.pml4e := by
    refine ⟨down.sound, root, fun v e user found => ?_⟩
    rw [down.unmapped user] at found
    cases found
  have start : Loaded m use ts.pml4e m1 use := ⟨own, down.within.spares sound⟩
  have own1 : m1.Private use ({ ts with rip := file.e_entry } : TaskStruct).pml4e := own
  obtain ⟨shape, use2, loaded⟩ := own1.loadSegments (fun ep member load =>
    file.loadable (List.mem_reverse.mp member) load) ran
  rw [List.reverse_reverse] at shape
  exact ⟨shape, use2, start.trans loaded⟩

/-! ## Stacks -/

/-- Strings that fit the buffers of `execvpe`. -/
def Fits (strs : List (List Byte)) : Prop := ∀ str ∈ strs, str.length < 100

theorem fits_nil : Fits [] := fun _ member => by cases member

theorem storeString_bound {v : Nat} {str : List Byte} (short : str.length < 100) {store : Nat × Byte}
    (member : store ∈ storeString v str) : store.1 < v + 100 := by
  simp only [storeString, List.mem_map, List.mem_range] at member
  obtain ⟨k, below, rfl⟩ := member
  dsimp only
  omega

theorem storeWord_bound {v w : Nat} {store : Nat × Byte} (member : store ∈ storeWord v w) :
    store.1 < v + 100 := by
  simp only [storeWord, List.mem_map, List.mem_range] at member
  obtain ⟨k, below, rfl⟩ := member
  dsimp only
  omega

theorem pushStrings_bound {strs : List (List Byte)} (fits : Fits strs) (rsp : Nat) :
    (pushStrings strs rsp).2.1 ≤ rsp ∧ ∀ store ∈ (pushStrings strs rsp).2.2, store.1 < rsp + 100 := by
  induction strs with
  | nil => exact ⟨Nat.le_refl _, by simp [pushStrings]⟩
  | cons str rest ih =>
    obtain ⟨lower, bound⟩ := ih fun s member => fits s (List.mem_cons_of_mem _ member)
    refine ⟨(Nat.sub_le ..).trans lower, fun store member => ?_⟩
    rcases List.mem_append.mp member with old | new
    · exact bound store old
    · have here : store.1 < (pushStrings rest rsp).2.1 - 8 * (str.length + 1) + 100 :=
        storeString_bound (fits str (by simp)) new
      omega

theorem pushWords_bound (words : List Nat) (rsp : Nat) :
    (pushWords words rsp).1 ≤ rsp ∧ ∀ store ∈ (pushWords words rsp).2, store.1 < rsp + 100 := by
  induction words with
  | nil => exact ⟨Nat.le_refl _, by simp [pushWords]⟩
  | cons w rest ih =>
    obtain ⟨lower, bound⟩ := ih
    refine ⟨(Nat.sub_le ..).trans lower, fun store member => ?_⟩
    rcases List.mem_append.mp member with old | new
    · exact bound store old
    · have := storeWord_bound new
      omega

theorem stackOf_bound {envs args : List (List Byte)} (fitsE : Fits envs) (fitsA : Fits args)
    (rsp : Nat) : ∀ store ∈ (stackOf envs args rsp).2, store.1 < rsp + 100 := by
  intro store member
  have one := pushStrings_bound fitsE rsp
  have two := pushStrings_bound fitsA (pushStrings envs rsp).2.1
  have three := pushWords_bound ((pushStrings envs rsp).1 ++ [0])
    (pushStrings args (pushStrings envs rsp).2.1).2.1
  have four := pushWords_bound
    (args.length :: (pushStrings args (pushStrings envs rsp).2.1).1 ++ [0])
    (pushWords ((pushStrings envs rsp).1 ++ [0])
      (pushStrings args (pushStrings envs rsp).2.1).2.1).1
  simp only [stackOf, List.mem_append] at member
  rcases member with ((env | arg) | envWord) | argWord
  · exact one.2 store env
  · have := two.2 store arg
    omega
  · have := three.2 store envWord
    omega
  · have := four.2 store (by simpa using argWord)
    omega

theorem user_of_small {v : Nat} (small : v < 2 ^ 47) : UserAddress v := by
  unfold UserAddress pml4Index
  rw [index_eq]
  omega

theorem Machine.Private.setNewVMA (own : m.Private use ts.pml4e)
    (ran : setNewVMA ts stackS stackEnd m = some (ts', m')) :
    ts' = { ts with ustack := stackS, rsp := stackS + 510 * 8, vm := ⟨stackS, stackEnd, 0⟩ :: ts.vm } ∧
      ∃ use', Loaded m use ts.pml4e m' use' := by
  unfold LateOS.setNewVMA at ran
  obtain ⟨⟨f, m1⟩, popped, ran⟩ := Option.bind_eq_some_iff.mp ran
  obtain ⟨m2, mapped, ran⟩ := Option.bind_eq_some_iff.mp ran
  obtain ⟨use2, first⟩ := own.mapPage (user_of_small (by decide)) popped mapped
  have own2 : m2.Private use2
      ({ ts with ustack := stackS, rsp := stackS + 510 * 8 } : TaskStruct).pml4e := first.after
  obtain ⟨shape, second⟩ := own2.pushVMA ran
  exact ⟨shape, use2, first.trans second⟩

theorem Machine.Private.setRSPandExec {envs args : List (List Byte)}
    (own : m.Private use ts.pml4e) (rsp : ts.rsp = stackS + 510 * 8) (fitsE : Fits envs)
    (fitsA : Fits args) (ran : setRSPandExec ts envs args m = some (ts', m')) :
    ts' = { ts with rsp := (stackOf envs args ts.rsp).1 } ∧
      ∃ use', Loaded m use ts.pml4e m' use' := by
  unfold LateOS.setRSPandExec at ran
  obtain ⟨m1, stored, ran⟩ := Option.bind_eq_some_iff.mp ran
  cases ran
  refine ⟨rfl, own.pokes (fun store member => user_of_small ?_) stored⟩
  have bound := stackOf_bound fitsE fitsA ts.rsp store member
  rw [rsp] at bound
  exact bound.trans (by decide)

/-- The list of VMAs that a program starts with, in front of `old`. -/
def startVMAs (file : Elf) (old : List VmaStruct) : List VmaStruct :=
  ⟨stackS, stackEnd, 0⟩ :: ⟨heapS, heapS, 0⟩ :: (segmentVMAs file.phdrs ++ old)

/-- The parts of `execvpe`. -/
theorem execImage_cases {file : Elf} {envs args : List (List Byte)}
    (ran : execImage file envs args ts m = some (ts', m')) : ∃ ts1 m1 ts2 m2 ts3 m3,
      readELFandExec file ts m = some (ts1, m1) ∧ pushVMA ts1 heapS heapS m1 = some (ts2, m2) ∧
      setNewVMA ts2 stackS stackEnd m2 = some (ts3, m3) ∧
      setRSPandExec ts3 envs args m3 = some (ts', m') := by
  unfold execImage at ran
  obtain ⟨⟨ts1, m1⟩, loaded, ran⟩ := Option.bind_eq_some_iff.mp ran
  obtain ⟨⟨ts2, m2⟩, heap, ran⟩ := Option.bind_eq_some_iff.mp ran
  obtain ⟨⟨ts3, m3⟩, stack, ran⟩ := Option.bind_eq_some_iff.mp ran
  exact ⟨ts1, m1, ts2, m2, ts3, m3, loaded, heap, stack, ran⟩

theorem Machine.Sound.execImage {file : Image} {envs args : List (List Byte)}
    (sound : m.Sound use) (root : use ts.pml4e = .table ts.pml4e []) (fitsE : Fits envs)
    (fitsA : Fits args) (ran : execImage file.toElf envs args ts m = some (ts', m')) :
    ts' = { ts with rip := file.e_entry, ustack := stackS, vm := startVMAs file.toElf ts.vm,
                    rsp := (stackOf envs args (stackS + 510 * 8)).1 } ∧
      ∃ use', Loaded m use ts.pml4e m' use' := by
  obtain ⟨ts1, m1, ts2, m2, ts3, m3, loaded, heap, stack, ran⟩ := execImage_cases ran
  obtain ⟨shape1, use1, first⟩ := sound.readELFandExec root loaded
  have same1 : ts1.pml4e = ts.pml4e := by rw [shape1]
  have own1 : m1.Private use1 ts1.pml4e := same1 ▸ first.after
  obtain ⟨shape2, second⟩ := own1.pushVMA heap
  have same2 : ts2.pml4e = ts.pml4e := by rw [shape2, shape1]
  rw [same1] at second
  have own2 : m2.Private use1 ts2.pml4e := same2 ▸ second.after
  obtain ⟨shape3, use3, third⟩ := own2.setNewVMA stack
  have same3 : ts3.pml4e = ts.pml4e := by rw [shape3, same2]
  rw [same2] at third
  have own3 : m3.Private use3 ts3.pml4e := same3 ▸ third.after
  obtain ⟨shape4, use4, fourth⟩ := own3.setRSPandExec (by rw [shape3]) fitsE fitsA ran
  rw [same3] at fourth
  refine ⟨?_, use4, first.trans (second.trans (third.trans fourth))⟩
  rw [shape4, shape3, shape2, shape1]
  rfl

theorem Machine.Private.stores {r : Word} {stores : Stores} (own : m.Private use r)
    (user : ∀ store ∈ stores, UserAddress store.1)
    (ran : stores.foldlM (fun m store => m.storeByte r store.1 store.2) m = some m') :
    Loaded m use r m' use := by
  induction stores generalizing m with
  | nil =>
    cases ran
    exact ⟨own, .refl⟩
  | cons store rest ih =>
    rw [List.foldlM_cons] at ran
    obtain ⟨m1, stored, ran⟩ := Option.bind_eq_some_iff.mp ran
    have first := own.storeByte (user store (by simp)) stored
    exact first.trans (ih first.after (fun store member => user store (by simp [member])) ran)

/-- `setTaskRSP` stores to user pages alone. -/
theorem setTaskRSP_stores {name : List Byte} (rsp : ts.rsp = stackS + 510 * 8)
    (short : name.length < 100) (ran : setTaskRSP name ts m = some (ts', m')) :
    ts' = { ts with rsp := ts.rsp - 8 * (name.length + 1) - 32 } ∧ ∃ stores : Stores,
      (∀ store ∈ stores, UserAddress store.1) ∧
        stores.foldlM (fun m store => m.storeByte ts.pml4e store.1 store.2) m = some m' := by
  unfold LateOS.setTaskRSP at ran
  obtain ⟨m1, stored, ran⟩ := Option.bind_eq_some_iff.mp ran
  cases ran
  refine ⟨rfl, _, fun store member => user_of_small ?_, stored⟩
  have bound : store.1 < ts.rsp + 100 := by
    simp only [List.mem_append] at member
    rcases member with (((str | one) | two) | three) | four
    · have := storeString_bound short str
      omega
    · have := storeWord_bound one
      omega
    · have := storeWord_bound two
      omega
    · have := storeWord_bound three
      omega
    · have := storeWord_bound four
      omega
  rw [rsp] at bound
  exact bound.trans (by decide)

theorem Machine.Private.setTaskRSP {name : List Byte} (own : m.Private use ts.pml4e)
    (rsp : ts.rsp = stackS + 510 * 8) (short : name.length < 100)
    (ran : setTaskRSP name ts m = some (ts', m')) :
    ts' = { ts with rsp := ts.rsp - 8 * (name.length + 1) - 32 } ∧ Loaded m use ts.pml4e m' use := by
  obtain ⟨shape, stores, user, stored⟩ := setTaskRSP_stores rsp short ran
  exact ⟨shape, own.stores user stored⟩

/-- The stack of a new task is made as in `execvpe`. -/
theorem createNewTask_eq (file : Elf) (ts : TaskStruct) (m : Machine) :
    createNewTask file ts m = (do
      let (ts, m) ← readELFandFork file ts m
      let (ts, m) ← pushVMA ts heapS heapS m
      let (ts, m) ← setNewVMA ts stackS stackEnd m
      setTaskRSP (ts.name.map UInt8.toBitVec) ts m) := by
  unfold LateOS.createNewTask LateOS.setNewVMA setMyVMA
  simp only [Option.bind_eq_bind, Option.bind_assoc]

theorem createNewTask_cases {file : Elf} (ran : createNewTask file ts m = some (ts', m')) :
    ∃ ts1 m1 ts2 m2 ts3 m3, readELFandFork file ts m = some (ts1, m1) ∧
      pushVMA ts1 heapS heapS m1 = some (ts2, m2) ∧
      setNewVMA ts2 stackS stackEnd m2 = some (ts3, m3) ∧
      setTaskRSP (ts3.name.map UInt8.toBitVec) ts3 m3 = some (ts', m') := by
  rw [createNewTask_eq] at ran
  obtain ⟨⟨ts1, m1⟩, loaded, ran⟩ := Option.bind_eq_some_iff.mp ran
  obtain ⟨⟨ts2, m2⟩, heap, ran⟩ := Option.bind_eq_some_iff.mp ran
  obtain ⟨⟨ts3, m3⟩, stack, ran⟩ := Option.bind_eq_some_iff.mp ran
  exact ⟨ts1, m1, ts2, m2, ts3, m3, loaded, heap, stack, ran⟩

/-- All of `createNewTask` but its first stores to the stack. -/
theorem Machine.Sound.createNewTask_begun {file : Image} (sound : m.Sound use)
    (ran : createNewTask file.toElf ts m = some (ts', m')) :
    ∃ r use1 ts1 m1, Born m use r m1 use1 ∧ ts1 =
      { ts with
        pml4e := r, rip := file.e_entry, ustack := stackS, vm := startVMAs file.toElf ts.vm,
        rsp := stackS + 510 * 8 } ∧
      setTaskRSP (ts.name.map UInt8.toBitVec) ts1 m1 = some (ts', m') := by
  obtain ⟨ts1, m1, ts2, m2, ts3, m3, loaded, heap, stack, ran⟩ := createNewTask_cases ran
  obtain ⟨r, use1, first, shape1⟩ := sound.readELFandFork loaded
  -- Every part works on the PML4 that the loader has made.
  have same1 : ts1.pml4e = r := by rw [shape1]
  have own1 : m1.Private use1 ts1.pml4e := same1 ▸ first.after
  obtain ⟨shape2, second⟩ := own1.pushVMA heap
  have same2 : ts2.pml4e = r := by rw [shape2, same1]
  rw [same1] at second
  have own2 : m2.Private use1 ts2.pml4e := same2 ▸ second.after
  obtain ⟨shape3, use3, third⟩ := own2.setNewVMA stack
  rw [same2] at third
  have shape : ts3 = { ts with
      pml4e := r, rip := file.e_entry, ustack := stackS, vm := startVMAs file.toElf ts.vm,
      rsp := stackS + 510 * 8 } := by
    rw [shape3, shape2, shape1]
    rfl
  have name : ts3.name = ts.name := by rw [shape]
  rw [name] at ran
  exact ⟨r, use3, ts3, m3, first.trans (second.trans third), shape, ran⟩

theorem Machine.Sound.createNewTask {file : Image} (sound : m.Sound use)
    (short : ts.name.length < 100)
    (ran : createNewTask file.toElf ts m = some (ts', m')) :
    ∃ r use', Born m use r m' use' ∧ ts' =
      { ts with
        pml4e := r, rip := file.e_entry, ustack := stackS, vm := startVMAs file.toElf ts.vm,
        rsp := stackS + 510 * 8 - 8 * (ts.name.length + 1) - 32 } := by
  obtain ⟨r, use1, ts1, m1, born, shape1, ran⟩ := sound.createNewTask_begun ran
  have same1 : ts1.pml4e = r := by rw [shape1]
  have own1 : m1.Private use1 ts1.pml4e := same1 ▸ born.after
  obtain ⟨shape, last⟩ := own1.setTaskRSP (by rw [shape1]) (by rw [List.length_map]; exact short) ran
  rw [same1] at last
  refine ⟨r, use1, born.trans last, ?_⟩
  rw [shape, List.length_map, shape1]

/-! ## fork and malloc -/

/-- A copy of `current`'s address space: parent and child see the same bytes. -/
structure Machine.Copy (m : Machine) (use : Word → Use) (r rc : Word) (m' : Machine)
    (use' : Word → Use) : Prop where
  sound : m'.Sound use'
  spare : use rc = .free
  root : use' rc = .table rc []
  spares : Spares {r, rc} m use m' use'
  parent : ∀ v, UserAddress v → m'.byteAt r v = m.byteAt r v
  child : ∀ v, UserAddress v → m'.byteAt rc v = m.byteAt r v

theorem Machine.Forked.byteAt {r rc : Word} {use' : Word → Use} {v : Nat}
    (forked : Forked m use r rc m' use') (sound : m.Sound use) (root : use r = .table r [])
    (user : UserAddress v) : m'.byteAt r v = m.byteAt r v ∧ m'.byteAt rc v = m.byteAt r v := by
  obtain ⟨child, parent⟩ := forked.copied v user
  unfold Machine.byteAt
  rw [child, parent]
  cases found : m.translate r v with
  | none => exact ⟨rfl, rfl⟩
  | some e => simp [forked.within.mem_data sound (sound.translate_facts root user found).2.1]

theorem Machine.Sound.kmalloc {f : Word} (sound : m.Sound use)
    (ran : m.kmalloc 32 = some (f, m')) : Taken m use f m' := by
  rw [sound.kmalloc_eq] at ran
  exact sound.getFreeFrame ran

/-- The parts of `copytask`: a PML4, the tables, and a node for each VMA. -/
theorem Machine.Sound.copySpace_cases {rc : Word} (sound : m.Sound use)
    (ran : copySpace ts m = some (rc, m')) : ∃ m1 m2, m.getFreeFrame = some (rc, m1) ∧
      (m1.zero rc).copytables ts.pml4e rc = some m2 ∧
      loop ts.vm.length (fun _ m => (m.kmalloc 32).map Prod.snd) m2 = some m' := by
  unfold copySpace at ran
  rw [sound.getNewPage_eq] at ran
  obtain ⟨⟨f, m1⟩, popped, ran⟩ := Option.bind_eq_some_iff.mp ran
  obtain ⟨m2, copied, ran⟩ := Option.bind_eq_some_iff.mp ran
  obtain ⟨m3, nodes, ran⟩ := Option.bind_eq_some_iff.mp ran
  cases ran
  exact ⟨m1, m2, popped, copied, nodes⟩

theorem Machine.Sound.copySpace {rc : Word} (sound : m.Sound use)
    (root : use ts.pml4e = .table ts.pml4e []) (ran : copySpace ts m = some (rc, m')) :
    ∃ use', Copy m use ts.pml4e rc m' use' := by
  obtain ⟨m1, m2, popped, copied, nodes⟩ := sound.copySpace_cases ran
  have taken := sound.getFreeFrame popped
  obtain ⟨own, before⟩ := taken.newRoot
  obtain ⟨apart, root1⟩ := taken.otherRoot root
  obtain ⟨use2, forked⟩ := own.sound.copytables root1 own.root apart
    (Machine.zero_self m1 rc) copied
  -- The nodes for the copied VMAs take frames and touch no tables.
  obtain ⟨sound3, after⟩ : m'.Sound use2 ∧ Within ∅ m2 use2 m' use2 := by
    refine loop_inv (I := fun _ s => s.Sound use2 ∧ Within ∅ m2 use2 s use2)
      ⟨forked.sound, .refl⟩ ?_ nodes
    intro _ s s' _ ⟨sound, within⟩ ran
    obtain ⟨⟨_, _⟩, node, rfl⟩ := Option.map_eq_some_iff.mp ran
    have next := sound.kmalloc node
    exact ⟨next.sound, within.trans next.within⟩
  have rootC := (forked.within.kept rc (by rw [own.root]; simp)).trans own.root
  have rootP := (forked.within.kept ts.pml4e (by simp [root1])).trans root1
  have bytes {v} (user : UserAddress v) := forked.byteAt own.sound root1 user
  refine ⟨use2, sound3, taken.spare, (after.kept rc (by simp [rootC])).trans rootC, ?_, ?_, ?_⟩
  · have all := (before.spares sound).mono (Set.empty_subset {ts.pml4e, rc})
    exact all.trans ((forked.within.spares own.sound).trans
      ((after.spares forked.sound).mono (Set.empty_subset _)))
  · intro v user
    rw [after.byteAt forked.sound rootP (Set.notMem_empty _) user, (bytes user).1,
      before.byteAt sound root (Set.notMem_empty _) user]
  · intro v user
    rw [after.byteAt forked.sound rootC (Set.notMem_empty _) user, (bytes user).2,
      before.byteAt sound root (Set.notMem_empty _) user]

/-- All addresses strictly inside a VMA are under slots 0 to 510. -/
def UserRange (node : VmaStruct) : Prop :=
  ∀ v, node.beginAddress < v → v < node.lastAddress → UserAddress v

/-- No heap grows beyond this: each of its pages takes a frame, and there are at most 75000. -/
abbrev heapLimit : Nat := heapS + 4096 * 75000

/-- The VMAs of a user task, with `spare` frames left: the stack, the heap, then the rest. -/
def Layout (vm : List VmaStruct) (spare : Nat) : Prop :=
  ∃ heap rest, vm = ⟨stackS, stackEnd, 0⟩ :: heap :: rest ∧
    heap.lastAddress + 4096 * spare ≤ heapLimit ∧ ∀ node ∈ rest, UserRange node

theorem Layout.mono {vm : List VmaStruct} {spare less : Nat} (layout : Layout vm spare)
    (fewer : less ≤ spare) : Layout vm less := by
  obtain ⟨heap, rest, shape, room, ranges⟩ := layout
  exact ⟨heap, rest, shape, by omega, ranges⟩

theorem Layout.ranges {vm : List VmaStruct} {spare : Nat} (layout : Layout vm spare) :
    ∀ node ∈ vm, UserRange node := by
  obtain ⟨heap, rest, rfl, room, ranges⟩ := layout
  intro node member v above below
  rcases List.mem_cons.mp member with rfl | member
  · exact user_of_small (below.trans (by decide))
  · rcases List.mem_cons.mp member with rfl | member
    · have bound : v < heapLimit := by omega
      exact user_of_small (bound.trans (by decide))
    · exact ranges node member v above below

/-- The handler lets no fault at a kernel address through. -/
theorem Layout.user {vm : List VmaStruct} {spare v : Nat} (layout : Layout vm spare)
    (valid : checkValid vm v = some true) : UserAddress v := by
  have ranges := layout.ranges
  obtain ⟨heap, rest, rfl, _⟩ := layout
  simp only [checkValid, Option.some.injEq] at valid
  split at valid
  next stack =>
    have above : v < (stackS + 0x1000) % 2 ^ 64 := stack.1
    exact user_of_small (above.trans (by decide))
  next =>
    -- Any other VMA that contains the address strictly.
    obtain ⟨node, member, inside⟩ := List.any_eq_true.mp valid
    simp only [Bool.and_eq_true, decide_eq_true_eq] at inside
    exact ranges node member v inside.1 inside.2

theorem Loadable.range {ep : Phdr} (loadable : Loadable ep) : UserRange (setupVMA ep).1 := by
  intro v above below
  rw [loadable.last] at below
  exact loadable.user v ((pageOf_le _).trans (Nat.le_of_lt above)) below

theorem Image.layout (file : Image) {old : List VmaStruct} {spare : Nat}
    (ranges : ∀ node ∈ old, UserRange node) (few : spare ≤ 75000) :
    Layout (startVMAs file.toElf old) spare := by
  refine ⟨_, _, rfl, ?_, fun node member => ?_⟩
  · change heapS + 4096 * spare ≤ heapS + 4096 * 75000
    omega
  rcases List.mem_append.mp member with segment | past
  · obtain ⟨ep, chosen, rfl⟩ := List.mem_map.mp segment
    obtain ⟨header, load⟩ := List.mem_filter.mp chosen
    exact (file.loadable header (by simpa using load)).range
  · exact ranges node past

/-- A round of the loop of `malloc`: it takes a frame at least, so the heap stays below its limit
as long as there are frames. -/
theorem Machine.Sound.heapRound {r : Word} {vm vm' : VmaStruct} (sound : m.Sound use)
    (root : use r = .table r []) (room : vm.lastAddress + 4096 * m.head.length ≤ heapLimit)
    (ran : (do
      let (s_add, m) ← m.getFreeFrame
      let m ← m.initTaskPagetables vm.lastAddress s_add r
      some ({ vm with lastAddress := vm.lastAddress + 4096 }, m)) = some (vm', m')) :
    ∃ f m1 use', m.getFreeFrame = some (f, m1) ∧
      m1.initTaskPagetables vm.lastAddress f r = some m' ∧ UserAddress vm.lastAddress ∧
      vm' = { vm with lastAddress := vm.lastAddress + 4096 } ∧ m'.Sound use' ∧
      Within {r} m use m' use' ∧ m'.head.length + 1 ≤ m.head.length := by
  obtain ⟨⟨f, m1⟩, popped, ran⟩ := Option.bind_eq_some_iff.mp ran
  obtain ⟨m2, mapped, ran⟩ := Option.bind_eq_some_iff.mp ran
  cases ran
  have taken := sound.getFreeFrame popped
  have fewer : m.head.length = m1.head.length + 1 := by rw [taken.head, List.length_cons]
  have user : UserAddress vm.lastAddress := by
    refine user_of_small (Nat.lt_of_le_of_lt ?_ (show heapLimit < 2 ^ 47 by decide))
    omega
  obtain ⟨use2, page⟩ := taken.sound.initTaskPagetables root user taken.spare taken.out
    taken.aligned mapped
  have shorter := page.within.head.length_le
  exact ⟨f, m1, use2, popped, mapped, user, rfl, page.sound, taken.within.trans page.within,
    by omega⟩

theorem Machine.Sound.malloc {n : Int} {ret : Nat} (sound : m.Sound use)
    (root : use ts.pml4e = .table ts.pml4e []) (layout : Layout ts.vm m.head.length)
    (ran : malloc ts n m = some (ret, ts', m')) :
    ∃ vm use', ts' = { ts with vm := vm } ∧ Layout vm m'.head.length ∧ m'.Sound use' ∧
      Within {ts.pml4e} m use m' use' := by
  obtain ⟨heap, rest, shape, room, ranges⟩ := layout
  unfold LateOS.malloc at ran
  rw [shape] at ran
  obtain ⟨⟨heap', m1⟩, grown, ran⟩ := Option.bind_eq_some_iff.mp ran
  cases ran
  obtain ⟨use1, sound1, within, room⟩ : ∃ use1, m'.Sound use1 ∧
      Within {ts.pml4e} m use m' use1 ∧
      heap'.lastAddress + 4096 * m'.head.length ≤ heapLimit := by
    refine loop_inv (I := fun _ (s : VmaStruct × Machine) => ∃ use1, s.2.Sound use1 ∧
      Within {ts.pml4e} m use s.2 use1 ∧
      s.1.lastAddress + 4096 * s.2.head.length ≤ heapLimit) ⟨use, sound, .refl, room⟩ ?_ grown
    rintro i ⟨vm, s⟩ ⟨vm', s'⟩ _ ⟨use1, sound1, within, room⟩ ran
    have root1 := (within.kept ts.pml4e (by simp [root])).trans root
    obtain ⟨_, _, use2, _, _, _, rfl, sound2, next, fewer⟩ := sound1.heapRound root1 room ran
    refine ⟨use2, sound2, within.trans next, ?_⟩
    dsimp only at room fewer ⊢
    omega
  exact ⟨_, use1, rfl, ⟨heap', rest, rfl, room, ranges⟩, sound1, within⟩

end LateOS
