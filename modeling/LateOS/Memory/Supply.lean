import LateOS.Memory.Contents

/-!
# Frames handed out

Which frames a call takes from the free list, what it writes into their counts of references, and
which pages of a task they become.
-/
namespace LateOS

open Lib

namespace Machine

variable {m m' m1 m'' : Machine} {use use' : Word → Use} {r t n f : Word} {p path : List Nat}
  {i v : Nat} {e : Word}

/-- Frames have gone from the front of the free list, each with a count of 1; no other count has
changed. -/
structure Handed (m m' : Machine) : Prop where
  head : m'.head <:+ m.head
  rest : ∀ f, f ∉ m.head → m'.refCount f = m.refCount f
  taken : ∀ f, f ∈ m.head → f ∉ m'.head → m'.refCount f = 1

theorem Handed.of_same (head : m'.head = m.head) (refCount : m'.refCount = m.refCount) :
    Handed m m' := by
  refine ⟨?_, fun f _ => by rw [refCount], fun f member gone => ?_⟩
  · rw [head]
  · rw [head] at gone
    exact absurd member gone

theorem Handed.refl (m : Machine) : Handed m m := .of_same rfl rfl

theorem Handed.trans (first : Handed m m') (second : Handed m' m'') : Handed m m'' := by
  refine ⟨second.head.trans first.head, fun f out => ?_, fun f member gone => ?_⟩
  · rw [second.rest f fun back => out (first.head.mem back), first.rest f out]
  · by_cases later : f ∈ m'.head
    · exact second.taken f later gone
    · rw [second.rest f later, first.taken f member later]

theorem getFreeFrame_handed (ran : m.getFreeFrame = some (f, m')) : Handed m m' := by
  unfold getFreeFrame at ran
  split at ran
  · cases ran
  next first rest list =>
    cases ran
    refine ⟨?_, fun g out => ?_, fun g member gone => ?_⟩
    · rw [list]
      exact List.suffix_cons _ _
    · refine Function.update_of_ne ?_ _ _
      rintro rfl
      exact out (by simp [list])
    · rw [list] at member
      rcases List.mem_cons.mp member with rfl | back
      · exact Function.update_self ..
      · exact absurd back gone

theorem linkTable_handed (ran : m.linkTable t i = some (n, m')) : Handed m m' := by
  unfold linkTable at ran
  obtain ⟨⟨f, m1⟩, popped, rest⟩ := Option.bind_eq_some_iff.mp ran
  cases rest
  exact (getFreeFrame_handed popped).trans (.of_same rfl rfl)

theorem descend_handed (ran : descend path t m = some (n, m')) : Handed m m' := by
  induction path generalizing t m with
  | nil =>
    cases ran
    exact .refl _
  | cons i path ih =>
    rw [descend_cons] at ran
    split at ran
    · exact ih ran
    · obtain ⟨⟨f, m1⟩, linked, ran⟩ := Option.bind_eq_some_iff.mp ran
      exact (linkTable_handed linked).trans (ih ran)

theorem initTaskPagetables_handed (ran : m.initTaskPagetables v f r = some m') : Handed m m' := by
  rw [initTaskPagetables_eq] at ran
  obtain ⟨⟨t, m2⟩, went, rfl⟩ := Option.map_eq_some_iff.mp ran
  have slot : Handed m (m.write r 511 (entry (m.mem m.pml4e 511) 7)) := .of_same rfl rfl
  exact slot.trans ((descend_handed went).trans (.of_same rfl rfl))

/-! ## Tables stay -/

/-- Every way to a table is still there. -/
def TablesStay (m : Machine) (use : Word → Use) (m' : Machine) : Prop :=
  ∀ x r p j, use x = .table r p → Inner p j → present (m.mem x j) = true → m'.mem x j = m.mem x j

theorem TablesStay.of_mem (same : ∀ x r p, use x = .table r p → m'.mem x = m.mem x) :
    TablesStay m use m' := fun x r p j table _ _ => congrFun (same x r p table) j

theorem TablesStay.trans (first : TablesStay m use m') (kept : ∀ x, use x ≠ .free → use' x = use x)
    (second : TablesStay m' use' m'') : TablesStay m use m'' := by
  intro x r p j table inner here
  have before := first x r p j table inner here
  have still : use' x = .table r p := (kept x (by simp [table])).trans table
  rw [second x r p j still inner (by rw [before]; exact here), before]

theorem Sound.walk_stays (sound : m.Sound use) (stay : TablesStay m use m')
    (serves : use t = .table r p) (inner : InnerPath Inner p path)
    (reached : m.tables.walk t path = some f) : m'.tables.walk t path = some f := by
  induction path generalizing t p with
  | nil => exact reached
  | cons i path ih =>
    rw [Tables.walk_cons] at reached ⊢
    change (m.tables.target (m.mem t i)).bind _ = _ at reached
    change (m'.tables.target (m'.mem t i)).bind _ = _
    cases here : present (m.mem t i) with
    | false => simp [tables, here] at reached
    | true =>
      have child := ((sound.entries t r p i serves inner.1.2.1 here).1 inner.1).1
      rw [stay t r p i serves inner.1 here]
      have leads : m.tables.target (m.mem t i) = some (frame (m.mem t i)) := target_some here
      have leads' : m'.tables.target (m.mem t i) = some (frame (m.mem t i)) := target_some here
      rw [leads, Option.bind_some] at reached
      rw [leads', Option.bind_some]
      exact ih child inner.2 reached

theorem Sound.descend_stay (sound : m.Sound use) (serves : use t = .table r p)
    (inner : InnerPath Inner p path) (ran : Machine.descend path t m = some (n, m')) :
    TablesStay m use m' := by
  refine sound.descend_induct (C := fun s use1 => TablesStay s use1 m')
    (fun _ _ => .of_mem fun _ _ _ _ => rfl) ?_ serves inner ran
  intro s use1 t p i f s1 _ serves _ absent taken later
  refine TablesStay.trans (fun x r' p' j table _ here => ?_)
    (fun x used => Function.update_of_ne (taken.ne used) _ _) later
  -- The entry that is made was not there.
  have apart : ¬(x = t ∧ j = i) := by
    rintro ⟨rfl, rfl⟩
    rw [absent] at here
    cases here
  rw [fill_mem, if_neg apart, if_neg (taken.ne (by simp [table])), taken.mem]

theorem Sound.initTaskPagetables_stay (sound : m.Sound use) (root : use r = .table r [])
    (user : UserAddress v) (ran : m.initTaskPagetables v f r = some m') : TablesStay m use m' := by
  obtain ⟨t, m2, use1, first, went, down, _, rfl⟩ := sound.initTaskPagetables_cases root user ran
  have inner := innerPath_upper user
  have slot : TablesStay m use (m.write r 511 (entry (m.mem m.pml4e 511) 7)) := by
    intro x r' p j table inner _
    rw [write_mem, if_neg]
    rintro ⟨rfl, rfl⟩
    rw [root] at table
    cases table
    exact absurd (inner.2.2 rfl) (by decide)
  have leaf : TablesStay m2 use1 (enter v f (t, m2)) := by
    intro x r' p j table inner _
    refine congrFun (write_mem_of_ne m2 t _ _ ?_) j
    rintro rfl
    rw [down.serves] at table
    cases table
    exact absurd inner.1 (by simp [upperPath])
  exact slot.trans (fun _ _ => rfl)
    ((first.descend_stay root inner went).trans down.within.kept leaf)

/-! ## Pages -/

/-- The task with PML4 `r` has been given frames of the free list for pages, and the other frames
taken have become tables or nodes of its. -/
structure Supplied (m : Machine) (use : Word → Use) (r : Word) (m' : Machine) : Prop where
  handed : Handed m m'
  stay : TablesStay m use m'
  pages : ∀ v e, UserAddress v → m'.translate r v = some e →
    m.translate r v = some e ∨ (frame e ∈ m.head ∧ ¬Shared e)

theorem Supplied.refl : Supplied m use r m :=
  ⟨.refl m, .of_mem fun _ _ _ _ => rfl, fun _ _ _ found => Or.inl found⟩

theorem Supplied.trans (first : Supplied m use r m') (kept : ∀ x, use x ≠ .free → use' x = use x)
    (second : Supplied m' use' r m'') : Supplied m use r m'' := by
  refine ⟨first.handed.trans second.handed, first.stay.trans kept second.stay,
    fun v e user found => ?_⟩
  rcases second.pages v e user found with before | ⟨member, alone⟩
  · exact first.pages v e user before
  · exact Or.inr ⟨first.handed.head.mem member, alone⟩

theorem Taken.supplied (taken : Taken m use f m') (ran : m.getFreeFrame = some (f, m')) :
    Supplied m use r m' := by
  refine ⟨getFreeFrame_handed ran, .of_mem fun _ _ _ _ => by rw [taken.mem],
    fun v e _ found => Or.inl ?_⟩
  rw [← found]
  unfold translate tables
  rw [taken.mem]

/-- Changes to the pages of programs. -/
theorem Sound.supplied_of_data (sound : m.Sound use) (root : use r = .table r [])
    (head : m'.head = m.head) (refCount : m'.refCount = m.refCount)
    (kept : ∀ x, use x ≠ .data → use x ≠ .free → m'.mem x = m.mem x) : Supplied m use r m' := by
  refine ⟨.of_same head refCount, .of_mem fun x r p table => kept x (by simp [table]) (by simp [table]),
    fun v e _ found => Or.inl ?_⟩
  rw [sound.translate_data root kept] at found
  exact found

/-- A frame of the free list becomes a page. -/
theorem Sound.mapPage_supplied (sound : m.Sound use) (root : use r = .table r [])
    (user : UserAddress v) (popped : m.getFreeFrame = some (f, m1))
    (ran : m1.initTaskPagetables v f r = some m') : Supplied m use r m' := by
  have taken := sound.getFreeFrame popped
  obtain ⟨use', mapped⟩ := taken.sound.initTaskPagetables root user taken.spare taken.out
    taken.aligned ran
  refine ⟨(getFreeFrame_handed popped).trans (initTaskPagetables_handed ran), ?_, ?_⟩
  · exact TablesStay.trans (.of_mem fun _ _ _ _ => by rw [taken.mem]) (fun _ _ => rfl)
      (taken.sound.initTaskPagetables_stay root user ran)
  · intro w e userW found
    by_cases same : SamePage v w
    · rw [mapped.here w same] at found
      cases found
      refine Or.inr ⟨?_, not_shared_entry f⟩
      have leads : frame (entry f 7) = f := by simp [taken.aligned]
      rw [leads]
      exact taken.member
    · left
      rw [mapped.others r w root userW fun both => same both.2] at found
      rw [← found]
      unfold translate tables
      rw [taken.mem]

/-- Mapping a page that was not mapped keeps the other pages. -/
theorem Sound.mapPage_kept {w : Nat} (sound : m.Sound use) (root : use r = .table r [])
    (user : UserAddress v) (popped : m.getFreeFrame = some (f, m1))
    (ran : m1.initTaskPagetables v f r = some m') (absent : m.translate r v = none)
    (userW : UserAddress w) (found : m.translate r w = some e) : m'.translate r w = some e := by
  have taken := sound.getFreeFrame popped
  obtain ⟨use', mapped⟩ := taken.sound.initTaskPagetables root user taken.spare taken.out
    taken.aligned ran
  have other : ¬SamePage v w := by
    intro same
    rw [translate_samePage m r same, found] at absent
    cases absent
  rw [mapped.others r w root userW fun both => other both.2, ← found]
  unfold translate tables
  rw [taken.mem]

theorem Private.kmalloc_supplied (own : m.Private use r) (ran : m.kmalloc 32 = some (f, m')) :
    Supplied m use r m' := by
  rw [own.sound.kmalloc_eq] at ran
  exact (own.sound.getFreeFrame ran).supplied ran

theorem Private.mapPages_supplied {k last : Nat} (own : m.Private use r)
    (user : ∀ v, k ≤ v → v < last → UserAddress v) (ran : m.mapPages r k last = some m') :
    Supplied m use r m' := by
  have all : (∃ use1, Loaded m use r m' use1) ∧ Supplied m use r m' := by
    refine loop_inv (I := fun _ s => (∃ use1, Loaded m use r s use1) ∧ Supplied m use r s)
      ⟨⟨use, own, .refl⟩, .refl⟩ ?_ ran
    rintro i s s' below ⟨⟨use1, done⟩, supplied⟩ ran
    obtain ⟨⟨f, s1⟩, popped, mapped⟩ := Option.bind_eq_some_iff.mp ran
    have inside : UserAddress (k + 4096 * i) := user _ (by omega) (by omega)
    obtain ⟨use2, next⟩ := done.after.mapPage inside popped mapped
    exact ⟨⟨use2, done.trans next⟩, supplied.trans done.spares.kept
      (done.after.sound.mapPage_supplied done.after.root inside popped mapped)⟩
  exact all.2

theorem Private.storeByte_supplied {b : Byte} (own : m.Private use r) (user : UserAddress v)
    (stored : m.storeByte r v b = some m') : Supplied m use r m' := by
  obtain ⟨_, e, found, rfl⟩ := own.sound.storeByte own.root user stored
  have data := (own.sound.translate_facts own.root user found).2.1
  refine own.sound.supplied_of_data own.root rfl rfl fun x other _ => ?_
  exact write_mem_of_ne m _ _ _ (by rintro rfl; exact other data)

theorem Private.memcpy_supplied {dest n : Nat} {src : Nat → Option Byte} (own : m.Private use r)
    (user : ∀ k, k < n → UserAddress (dest + k)) (ran : m.memcpy r dest src n = some m') :
    Supplied m use r m' := by
  have all : Loaded m use r m' use ∧ Supplied m use r m' := by
    refine loop_inv (I := fun _ s => Loaded m use r s use ∧ Supplied m use r s)
      ⟨⟨own, .refl⟩, .refl⟩ ?_ ran
    rintro k s s' below ⟨done, supplied⟩ ran
    obtain ⟨b, _, stored⟩ := Option.bind_eq_some_iff.mp ran
    exact ⟨done.trans (done.after.storeByte (user k below) stored),
      supplied.trans done.spares.kept (done.after.storeByte_supplied (user k below) stored)⟩
  exact all.2

theorem Private.memset_supplied {dest n : Nat} {c : Byte} (own : m.Private use r)
    (user : ∀ k, k < n → UserAddress (dest + k)) (ran : m.memset r dest c n = some m') :
    Supplied m use r m' := by
  rw [memset_eq] at ran
  exact own.memcpy_supplied user ran

end Machine

open Machine

variable {m m' : Machine} {use : Word → Use} {ts ts' : TaskStruct} {v : Nat}

/-! ## Loading -/

theorem Machine.Private.loadSegment_supplied {file : Elf} {ep : Phdr}
    (own : m.Private use ts.pml4e) (loadable : Loadable ep)
    (ran : LateOS.loadSegment file ep ts m = some (ts', m')) : Supplied m use ts.pml4e m' := by
  have filesz := loadable.filesz
  obtain ⟨_, f, m1, m2, m3, node, mapped, copied, cleared⟩ := loadable.loaded ran
  have first := own.kmalloc node
  obtain ⟨use2, second⟩ := first.after.mapPages loadable.user mapped
  have inside (k : Nat) (below : k < ep.p_filesz) : UserAddress (ep.p_vaddr + k) :=
    loadable.inside (by omega)
  have third := second.after.memcpy inside copied
  have supplied := (own.kmalloc_supplied node).trans first.spares.kept
    (first.after.mapPages_supplied loadable.user mapped)
  have two := first.trans second
  have three := two.trans third
  refine (supplied.trans two.spares.kept (second.after.memcpy_supplied inside copied)).trans
    three.spares.kept (third.after.memset_supplied (fun k below => ?_) cleared)
  rw [Nat.add_assoc]
  exact loadable.inside (by omega)

theorem Machine.Private.loadSegments_supplied {file : Elf} {phdrs : List Phdr}
    (own : m.Private use ts.pml4e) (loadable : ∀ ep ∈ phdrs, ep.p_type = 1 → Loadable ep)
    (ran : LateOS.loadSegments file phdrs ts m = some (ts', m')) : Supplied m use ts.pml4e m' := by
  induction phdrs generalizing ts m use with
  | nil =>
    cases ran
    exact .refl
  | cons ep rest ih =>
    have later : ∀ ep ∈ rest, ep.p_type = 1 → Loadable ep :=
      fun ep member => loadable ep (List.mem_cons_of_mem _ member)
    rcases loadSegments_next ran with ⟨_, ran⟩ | ⟨load, ts1, m1, loaded, ran⟩
    · exact ih own later ran
    · have here := loadable ep (by simp) load
      obtain ⟨_, use1, done⟩ := own.loadSegment here loaded
      have same := here.pml4e loaded
      have own1 : m1.Private use1 ts1.pml4e := same ▸ done.after
      have more := ih own1 later ran
      rw [same] at more
      exact (own.loadSegment_supplied here loaded).trans done.spares.kept more

theorem Machine.Private.pushVMA_supplied {first toend : Nat} (own : m.Private use ts.pml4e)
    (ran : LateOS.pushVMA ts first toend m = some (ts', m')) : Supplied m use ts.pml4e m' := by
  obtain ⟨⟨f, m1⟩, node, ran⟩ := Option.bind_eq_some_iff.mp ran
  cases ran
  exact own.kmalloc_supplied node

theorem Machine.Private.stores_supplied {r : Word} {stores : Stores} (own : m.Private use r)
    (user : ∀ store ∈ stores, UserAddress store.1)
    (ran : stores.foldlM (fun m store => m.storeByte r store.1 store.2) m = some m') :
    Supplied m use r m' := by
  induction stores generalizing m with
  | nil =>
    cases ran
    exact .refl
  | cons store rest ih =>
    rw [List.foldlM_cons] at ran
    obtain ⟨m1, stored, ran⟩ := Option.bind_eq_some_iff.mp ran
    have first := own.storeByte (user store (by simp)) stored
    exact (own.storeByte_supplied (user store (by simp)) stored).trans first.spares.kept
      (ih first.after (fun store member => user store (by simp [member])) ran)

theorem Machine.Private.setNewVMA_supplied (own : m.Private use ts.pml4e)
    (ran : LateOS.setNewVMA ts stackS stackEnd m = some (ts', m')) :
    Supplied m use ts.pml4e m' := by
  unfold LateOS.setNewVMA at ran
  obtain ⟨⟨f, m1⟩, popped, ran⟩ := Option.bind_eq_some_iff.mp ran
  obtain ⟨m2, mapped, ran⟩ := Option.bind_eq_some_iff.mp ran
  have inStack : UserAddress stackS := user_of_small (by decide)
  obtain ⟨use2, first⟩ := own.mapPage inStack popped mapped
  have own2 : m2.Private use2
      ({ ts with ustack := stackS, rsp := stackS + 510 * 8 } : TaskStruct).pml4e := first.after
  exact (own.sound.mapPage_supplied own.root inStack popped mapped).trans first.spares.kept
    (own2.pushVMA_supplied ran)

/-- Stores to pages change no mapping. -/
theorem Machine.Private.stores_translate {r : Word} {stores : Stores} (own : m.Private use r)
    (user : ∀ store ∈ stores, UserAddress store.1)
    (ran : stores.foldlM (fun m store => m.storeByte r store.1 store.2) m = some m') (w : Nat) :
    m'.translate r w = m.translate r w := by
  induction stores generalizing m with
  | nil =>
    cases ran
    rfl
  | cons store rest ih =>
    rw [List.foldlM_cons] at ran
    obtain ⟨m1, stored, ran⟩ := Option.bind_eq_some_iff.mp ran
    have userS := user store (by simp)
    have first := own.storeByte userS stored
    rw [ih first.after (fun store member => user store (by simp [member])) ran]
    obtain ⟨_, e, found, rfl⟩ := own.sound.storeByte own.root userS stored
    have data := (own.sound.translate_facts own.root userS found).2.1
    refine own.sound.translate_data own.root (fun x other _ => ?_) w
    exact write_mem_of_ne m _ _ _ (by rintro rfl; exact other data)

/-- A fault at a page that is missing. -/
theorem Machine.Sound.isr14_supplied (sound : m.Sound use)
    (root : use ts.pml4e = .table ts.pml4e []) (user : UserAddress v)
    (unmapped : m.translate ts.pml4e v = none) (ran : m.isr14 ts v = some (.resumed m')) :
    Supplied m use ts.pml4e m' ∧ ∀ w e, UserAddress w → m.translate ts.pml4e w = some e →
      m'.translate ts.pml4e w = some e := by
  rcases (isr14_resumed ran).2 with ⟨_, copied⟩ | ⟨_, grown⟩
  · rw [copyNewMemory_absent unmapped] at copied
    cases copied
  · obtain ⟨⟨f, m1⟩, popped, mapped⟩ := Option.bind_eq_some_iff.mp grown
    have absent : m.translate ts.pml4e (pageOf v) = none := by
      rw [translate_samePage m _ (pageOf_samePage v), unmapped]
    exact ⟨sound.mapPage_supplied root (user_page user) popped mapped, fun w e userW found =>
      sound.mapPage_kept root (user_page user) popped mapped absent userW found⟩

theorem Machine.Private.poke_supplied {store : Nat × Byte} (own : m.Private use ts.pml4e)
    (user : UserAddress store.1) (ran : LateOS.poke ts m store = some m') :
    Supplied m use ts.pml4e m' := by
  rcases poke_cases ran with stored | ⟨unmapped, m1, handled, stored⟩
  · exact own.storeByte_supplied user stored
  · obtain ⟨use1, first⟩ := own.fault_loaded user unmapped handled
    exact (own.sound.isr14_supplied own.root user unmapped handled).1.trans first.spares.kept
      (first.after.storeByte_supplied user stored)

theorem Machine.Private.pokes_supplied {stores : Stores} (own : m.Private use ts.pml4e)
    (user : ∀ store ∈ stores, UserAddress store.1) (ran : LateOS.pokes ts m stores = some m') :
    Supplied m use ts.pml4e m' := by
  induction stores generalizing m use with
  | nil =>
    cases ran
    exact .refl
  | cons store rest ih =>
    obtain ⟨m1, first, ran⟩ := Option.bind_eq_some_iff.mp ran
    obtain ⟨use1, done⟩ := own.poke (user store (by simp)) first
    exact (own.poke_supplied (user store (by simp)) first).trans done.spares.kept
      (ih done.after (fun store member => user store (by simp [member])) ran)

/-! ## Programs -/

/-- The stack has its first page. -/
theorem Machine.Private.setNewVMA_here (own : m.Private use ts.pml4e)
    (ran : LateOS.setNewVMA ts stackS stackEnd m = some (ts', m')) :
    m'.translate ts.pml4e stackS ≠ none := by
  unfold LateOS.setNewVMA at ran
  obtain ⟨⟨f, m1⟩, popped, ran⟩ := Option.bind_eq_some_iff.mp ran
  obtain ⟨m2, mapped, ran⟩ := Option.bind_eq_some_iff.mp ran
  obtain ⟨⟨g, m3⟩, node, same⟩ := Option.bind_eq_some_iff.mp ran
  cases same
  have inStack : UserAddress stackS := user_of_small (by decide)
  obtain ⟨use2, first⟩ := own.mapPage inStack popped mapped
  have taken := own.sound.getFreeFrame popped
  obtain ⟨_, page⟩ := taken.sound.initTaskPagetables own.root inStack taken.spare taken.out
    taken.aligned mapped
  -- The node for the VMA leaves the mapping as it is.
  have same : m'.translate ts.pml4e stackS = m2.translate ts.pml4e stackS := by
    unfold translate tables
    rw [(first.after.sound.kmalloc node).mem]
  rw [same, page.here stackS (.refl _)]
  nofun

/-- What both ways to start a program share: the segments, the heap's VMA and the stack. -/
theorem Machine.Private.program {file : Image} {ts1 ts2 : TaskStruct} {m1 m2 : Machine}
    (own : m.Private use ts.pml4e)
    (loaded : LateOS.loadSegments file.toElf file.phdrs.reverse ts m = some (ts1, m1))
    (heap : LateOS.pushVMA ts1 heapS heapS m1 = some (ts2, m2))
    (stack : LateOS.setNewVMA ts2 stackS stackEnd m2 = some (ts', m')) :
    (ts'.pml4e = ts.pml4e ∧ ts'.name = ts.name ∧ ts'.rsp = stackS + 510 * 8) ∧
      (∃ use', Loaded m use ts.pml4e m' use') ∧ Supplied m use ts.pml4e m' ∧
      m'.translate ts.pml4e stackS ≠ none := by
  have loadable : ∀ ep ∈ file.phdrs.reverse, ep.p_type = 1 → Loadable ep := fun ep member load =>
    file.loadable (List.mem_reverse.mp member) load
  obtain ⟨shape1, use1, first⟩ := own.loadSegments loadable loaded
  have supplied1 := own.loadSegments_supplied loadable loaded
  have same1 : ts1.pml4e = ts.pml4e := by rw [shape1]
  have own1 : m1.Private use1 ts1.pml4e := same1 ▸ first.after
  obtain ⟨shape2, second⟩ := own1.pushVMA heap
  have supplied2 := own1.pushVMA_supplied heap
  have same2 : ts2.pml4e = ts.pml4e := by rw [shape2, same1]
  rw [same1] at second supplied2
  have own2 : m2.Private use1 ts2.pml4e := same2 ▸ second.after
  obtain ⟨shape3, use3, third⟩ := own2.setNewVMA stack
  have supplied3 := own2.setNewVMA_supplied stack
  have here := own2.setNewVMA_here stack
  rw [same2] at third supplied3 here
  refine ⟨⟨?_, ?_, ?_⟩, ⟨use3, first.trans (second.trans third)⟩,
    supplied1.trans first.spares.kept (supplied2.trans second.spares.kept supplied3), here⟩
  · rw [shape3, same2]
  · rw [shape3, shape2, shape1]
  · rw [shape3]

/-- A program has been loaded below PML4 `r`: its pages have frames that were free. -/
structure Started (m : Machine) (use : Word → Use) (r : Word) (m' : Machine) : Prop where
  handed : Handed m m'
  stay : TablesStay m use m'
  pages : ∀ v e, UserAddress v → m'.translate r v = some e → frame e ∈ m.head ∧ ¬Shared e
  stack : m'.translate r stackS ≠ none

theorem Machine.Sound.createNewTask_started {file : Image} (sound : m.Sound use)
    (short : ts.name.length < 100) (ran : LateOS.createNewTask file.toElf ts m = some (ts', m')) :
    Started m use ts'.pml4e m' := by
  obtain ⟨ts1, m1, ts2, m2, ts5, m5, loaded, heap, stack, ran⟩ := createNewTask_cases ran
  unfold LateOS.readELFandFork at loaded
  rw [sound.getNewPage_eq] at loaded
  obtain ⟨⟨r, m0⟩, root, loaded⟩ := Option.bind_eq_some_iff.mp loaded
  -- The new PML4, which maps nothing yet.
  have taken := sound.getFreeFrame root
  obtain ⟨own, within⟩ := taken.newRoot
  have blank : ∀ v e, UserAddress v → (m0.zero r).translate r v ≠ some e := by
    intro v e user found
    rw [translate_zero] at found
    cases found
  have own1 : (m0.zero r).Private (Function.update use r (.table r []))
      ({ ts with pml4e := r, rip := file.e_entry } : TaskStruct).pml4e := own
  obtain ⟨⟨same, name, rsp⟩, ⟨use5, done⟩, supplied, here⟩ := own1.program loaded heap stack
  dsimp only at same name done supplied here
  have short5 : (ts5.name.map UInt8.toBitVec).length < 100 := by
    rw [List.length_map, name]
    exact short
  obtain ⟨shape, stores, user, stored⟩ := setTaskRSP_stores rsp short5 ran
  rw [same] at stored
  have all := supplied.trans done.spares.kept (done.after.stores_supplied user stored)
  have born : Handed m (m0.zero r) := (getFreeFrame_handed root).trans (.of_same rfl rfl)
  have same' : ts'.pml4e = r := by rw [shape, same]
  rw [same']
  refine ⟨born.trans all.handed, ?_, fun v e userV found => ?_, ?_⟩
  · refine TablesStay.trans (.of_mem fun x r' p table => ?_) within.kept all.stay
    exact taken.zero_other (taken.ne (by simp [table]))
  · rcases all.pages v e userV found with before | ⟨member, alone⟩
    · exact absurd before (blank v e userV)
    · exact ⟨born.head.mem member, alone⟩
  · rw [done.after.stores_translate user stored]
    exact here

/-- `deallocTask` counts nothing down. -/
theorem Machine.deallocLevel_refCount {t : Word} {n bound : Nat}
    (ran : Machine.deallocLevel n bound t m = some m') : m'.refCount = m.refCount := by
  induction n generalizing t bound m m' with
  | zero =>
    refine loop_inv (I := fun _ s => s.refCount = m.refCount) rfl ?_ ran
    rintro l s s' _ same ran
    cases ran
    rw [← same]
    change (if present (s.mem t l) = true then s else s).refCount = s.refCount
    rw [ite_self]
  | succ n ih =>
    refine loop_inv (I := fun _ s => s.refCount = m.refCount) rfl ?_ ran
    rintro i s s' _ same ran
    dsimp only at ran
    split at ran
    · obtain ⟨s1, below, ran⟩ := Option.bind_eq_some_iff.mp ran
      obtain ⟨s2, cleared, rfl⟩ := Option.map_eq_some_iff.mp below
      cases ran
      exact (ih cleared).trans same
    · cases ran
      exact same

/-- After `execvpe` too, all pages have frames that were free before. -/
theorem Machine.Sound.execImage_started {file : Image} {envs args : List (List Byte)}
    (sound : m.Sound use) (root : use ts.pml4e = .table ts.pml4e []) (fitsE : Fits envs)
    (fitsA : Fits args) (ran : LateOS.execImage file.toElf envs args ts m = some (ts', m')) :
    Handed m m' ∧ ∀ v e, UserAddress v → m'.translate ts.pml4e v = some e → frame e ∈ m.head := by
  obtain ⟨ts1, m1, ts2, m2, ts3, m3, loaded, heap, stack, ran⟩ := execImage_cases ran
  unfold LateOS.readELFandExec at loaded
  obtain ⟨m0, cleared, loaded⟩ := Option.bind_eq_some_iff.mp loaded
  obtain ⟨m0', same, down⟩ := sound.deallocTask root
  rw [cleared] at same
  cases same
  have own : m0.Private use ({ ts with rip := file.e_entry } : TaskStruct).pml4e := by
    refine ⟨down.sound, root, fun v e user found => ?_⟩
    rw [down.unmapped user] at found
    cases found
  obtain ⟨⟨same3, _, rsp⟩, ⟨use3, done⟩, supplied, _⟩ := own.program loaded heap stack
  dsimp only at same3 done supplied
  have own3 : m3.Private use3 ts3.pml4e := same3 ▸ done.after
  unfold LateOS.setRSPandExec at ran
  obtain ⟨m4, stored, ran⟩ := Option.bind_eq_some_iff.mp ran
  cases ran
  have supplied4 := own3.pokes_supplied (fun store member => user_of_small (by
    have bound := stackOf_bound fitsE fitsA ts3.rsp store member
    rw [rsp] at bound
    exact bound.trans (by decide))) stored
  rw [same3] at supplied4
  have all := supplied.trans done.spares.kept supplied4
  have emptied : Handed m m0 := .of_same down.head (deallocLevel_refCount cleared)
  refine ⟨emptied.trans all.handed, fun v e user found => ?_⟩
  rcases all.pages v e user found with before | ⟨member, _⟩
  · rw [down.unmapped user] at before
    cases before
  · exact emptied.head.mem member

/-! ## malloc and faults -/

theorem Machine.Sound.malloc_supplied {n : Int} {ret : Nat} (sound : m.Sound use)
    (root : use ts.pml4e = .table ts.pml4e []) (layout : Layout ts.vm m.head.length)
    (ran : LateOS.malloc ts n m = some (ret, ts', m')) : Supplied m use ts.pml4e m' := by
  obtain ⟨heap, rest, shape, room, _⟩ := layout
  unfold LateOS.malloc at ran
  rw [shape] at ran
  obtain ⟨⟨heap', m1⟩, grown, ran⟩ := Option.bind_eq_some_iff.mp ran
  cases ran
  have all : (∃ use1, m'.Sound use1 ∧ Within {ts.pml4e} m use m' use1) ∧
      heap'.lastAddress + 4096 * m'.head.length ≤ heapLimit ∧ Supplied m use ts.pml4e m' := by
    refine loop_inv (I := fun _ (s : VmaStruct × Machine) =>
      (∃ use1, s.2.Sound use1 ∧ Within {ts.pml4e} m use s.2 use1) ∧
      s.1.lastAddress + 4096 * s.2.head.length ≤ heapLimit ∧ Supplied m use ts.pml4e s.2)
      ⟨⟨use, sound, .refl⟩, room, .refl⟩ ?_ grown
    rintro i ⟨vm, s⟩ ⟨vm', s'⟩ _ ⟨⟨use1, sound1, within⟩, room, supplied⟩ ran
    have root1 := (within.kept ts.pml4e (by simp [root])).trans root
    obtain ⟨f, s1, use2, popped, mapped, user, rfl, sound2, next, fewer⟩ :=
      sound1.heapRound root1 room ran
    refine ⟨⟨use2, sound2, within.trans next⟩, ?_,
      supplied.trans within.kept (sound1.mapPage_supplied root1 user popped mapped)⟩
    dsimp only at room fewer ⊢
    omega
  exact all.2.2

/-- A shared page that is written gets a frame of its own. The count of the old one stays. -/
theorem Machine.Sound.copyNewMemory_moved {r : Word} (sound : m.Sound use)
    (root : use r = .table r []) (user : UserAddress v) (ran : m.copyNewMemory r v = some m') :
    Handed m m' ∧ ∃ f ∈ m.head, m'.translate r v = some (entry f 7) ∧ frame (entry f 7) = f ∧
      ∀ r' w, use r' = .table r' [] → UserAddress w → ¬(r' = r ∧ SamePage v w) →
        m'.translate r' w = m.translate r' w := by
  obtain ⟨⟨f, m1⟩, popped, ran⟩ := Option.bind_eq_some_iff.mp ran
  obtain ⟨e, found, ran⟩ := Option.bind_eq_some_iff.mp ran
  have taken := sound.getFreeFrame popped
  have data : ∀ x, use x ≠ .data → use x ≠ .free → (m1.copyFrame f (frame e)).mem x = m1.mem x :=
    fun x _ used => Function.update_of_ne (taken.ne used) _ _
  have copied : (m1.copyFrame f (frame e)).Sound use :=
    taken.sound.congr (List.suffix_refl _) rfl rfl data
  obtain ⟨use', mapped⟩ := copied.initTaskPagetables root (user_page user) taken.spare taken.out
    taken.aligned ran
  have first : Handed m (m1.copyFrame f (frame e)) :=
    (getFreeFrame_handed popped).trans (.of_same rfl rfl)
  refine ⟨first.trans (initTaskPagetables_handed ran), f, taken.member,
    mapped.here v (pageOf_samePage v), by simp [taken.aligned], fun r' w root' userW other => ?_⟩
  rw [mapped.others r' w root' userW fun both =>
    other ⟨both.1, (pageOf_samePage v).symm.trans both.2⟩, taken.sound.translate_data root' data]
  unfold translate tables
  rw [taken.mem]

end LateOS
