import LateOS.Lib.Trace
import LateOS.Memory.OnePage
import LateOS.Memory.VmaList

/-!
# Heaps after a fork

`malloc` moves the end of the heap in the second node of the caller's list. The lists of parent
and child have no node in common, so neither moves the end of the other's heap.
-/
namespace LateOS

open Lib Machine

/-- The body of the loop of `malloc`, with the heap's VMA in node `heap`. -/
def Machine.growNode (heap pml4e : Word) (_ : Nat) (m : Machine) : Option Machine := do
  let (s_add, m) ← m.getFreeFrame
  let m ← m.initTaskPagetables (m.mem heap 1).toNat s_add pml4e
  some (m.write heap 1 (m.mem heap 1 + 4096))

/-- `malloc` for the task with these pointers. There is nothing behind a NULL pointer. -/
def Machine.mallocAt (m : Machine) (vm pml4e : Word) (no_of_bytes : Int) :
    Option (Word × Machine) := do
  let first ← deref vm
  let heap ← m.nextAt first
  let ret := m.mem heap 1
  let m ← loop (no_of_bytes.tdiv 4096 + 1).toNat (growNode heap pml4e) m
  some (ret, m)

variable {m m' : Machine} {use use' : Word → Use} {r heap : Word} {k : Nat}

/-! ## One call -/

/-- The end of the heap in node `heap` has moved by so many pages, and of the kernel's own data
nothing else has changed. -/
structure Grown (m : Machine) (use : Word → Use) (heap : Word) (pages : Nat) (m' : Machine)
    (use' : Word → Use) : Prop where
  sound : m'.Sound use'
  kept : ∀ x, use x ≠ .free → use' x = use x
  head : m'.head <:+ m.head
  frames : m'.head.length + pages ≤ m.head.length
  data : ∀ x, use x = .data → x ∉ m.head → ∀ i, (x, i) ≠ (heap, 1) → m'.mem x i = m.mem x i
  last : (m'.mem heap 1).toNat = (m.mem heap 1).toNat + 4096 * pages

theorem Grown.refl (sound : m.Sound use) (heap : Word) : Grown m use heap 0 m use :=
  ⟨sound, fun _ _ => rfl, List.suffix_refl _, Nat.le_refl _, fun _ _ _ _ _ => rfl, rfl⟩

/-- A round of the loop. -/
theorem Grown.next (grown : Grown m use heap k m' use') (root : use r = .table r [])
    (node : use heap = .data) (out : heap ∉ m.head)
    (room : (m.mem heap 1).toNat + 4096 * m.head.length ≤ heapLimit) {f : Word}
    {m1 m2 : Machine} (popped : m'.getFreeFrame = some (f, m1))
    (ran : m1.initTaskPagetables (m1.mem heap 1).toNat f r = some m2) :
    ∃ use'', Grown m use heap (k + 1) (m2.write heap 1 (m2.mem heap 1 + 4096)) use'' := by
  have taken := grown.sound.getFreeFrame popped
  have fewer : m'.head.length = m1.head.length + 1 := by rw [taken.head, List.length_cons]
  have frames := grown.frames
  have start : (m1.mem heap 1).toNat = (m.mem heap 1).toNat + 4096 * k := by
    rw [taken.mem]
    exact grown.last
  have user : UserAddress (m1.mem heap 1).toNat := by
    refine user_of_small (Nat.lt_of_le_of_lt ?_ (show heapLimit < 2 ^ 47 by decide))
    omega
  obtain ⟨use2, page⟩ := taken.sound.initTaskPagetables ((grown.kept r (by simp [root])).trans root)
    user taken.spare taken.out taken.aligned ran
  have kept (x : Word) (used : use x ≠ .free) : use2 x = use x := by
    have before := grown.kept x used
    exact (page.within.kept x (before ▸ used)).trans before
  have shrunk : m2.head <:+ m.head := page.within.head.trans (taken.suffix.trans grown.head)
  -- What the kernel has in a data frame is not touched by a mapping.
  have same (x : Word) (data : use x = .data) (off : x ∉ m.head) : m2.mem x = m'.mem x := by
    have data' : use' x = .data := (grown.kept x (by simp [data])).trans data
    rw [← taken.mem]
    refine page.within.mem x (fun back => off (grown.head.mem (taken.suffix.mem back)))
      fun r' p table => ?_
    rw [data'] at table
    cases table
  refine ⟨use2, ?_, kept, shrunk, ?_, fun x data off i other => ?_, ?_⟩
  · refine page.sound.congr (List.suffix_refl _) rfl rfl fun x notData _ => ?_
    refine write_mem_of_ne m2 heap 1 _ ?_
    rintro rfl
    exact notData ((kept x (by simp [node])).trans node)
  · have shorter := page.within.head.length_le
    change m2.head.length + (k + 1) ≤ m.head.length
    omega
  · rw [write_mem, if_neg fun both => other (by rw [both.1, both.2]), same x data off]
    exact grown.data x data off i other
  · have before := grown.last
    rw [write_mem, if_pos ⟨rfl, rfl⟩, same heap node out, BitVec.toNat_add, before,
      show (4096 : Word).toNat = 4096 from rfl]
    have small : heapLimit < 2 ^ 64 := by decide
    rw [Nat.mod_eq_of_lt (by omega)]
    omega

/-- A call that returns has found a second node. -/
theorem Machine.mallocAt_nodes {vm ret : Word} {n : Int} {nodes : List Word}
    (list : m.VmaList vm nodes) (ran : m.mallocAt vm r n = some (ret, m')) :
    ∃ first heap rest, nodes = first :: heap :: rest ∧
      loop (n.tdiv 4096 + 1).toNat (growNode heap r) m = some m' := by
  obtain ⟨first, start, ran⟩ := Option.bind_eq_some_iff.mp ran
  obtain ⟨heap, second, ran⟩ := Option.bind_eq_some_iff.mp ran
  obtain ⟨m2, grown, same⟩ := Option.bind_eq_some_iff.mp ran
  cases same
  unfold VmaList at list
  rw [start] at list
  cases nodes with
  | nil => cases list
  | cons node rest =>
    cases list.1
    have behind := list.2
    rw [second] at behind
    cases rest with
    | nil => cases behind
    | cons node rest =>
      cases behind.1
      exact ⟨_, _, rest, rfl, grown⟩

theorem Machine.Sound.mallocAt {n : Int} (sound : m.Sound use) (root : use r = .table r [])
    (node : use heap = .data) (out : heap ∉ m.head)
    (room : (m.mem heap 1).toNat + 4096 * m.head.length ≤ heapLimit)
    (ran : loop (n.tdiv 4096 + 1).toNat (growNode heap r) m = some m') :
    ∃ use', Grown m use heap (n.tdiv 4096 + 1).toNat m' use' := by
  refine loop_inv (I := fun i s => ∃ use', Grown m use heap i s use')
    ⟨use, .refl sound heap⟩ ?_ ran
  intro i s s' _ ⟨use1, growing⟩ ran
  obtain ⟨⟨f, s1⟩, popped, ran⟩ := Option.bind_eq_some_iff.mp ran
  obtain ⟨s2, mapped, ran⟩ := Option.bind_eq_some_iff.mp ran
  cases ran
  exact growing.next root node out room popped mapped

/-! ## Two lists -/

/-- The two tasks that have called `fork` and come out of it. -/
inductive Side where
  | parent | child
  deriving DecidableEq

def Side.pick {α : Type} (parent child : α) : Side → α
  | .parent => parent
  | .child => child

/-- A call of `malloc` on one of the two sides. -/
def GrowsHeap (vm root : Side → Word) (m : Machine) (call : Side × Int) (m' : Machine) : Prop :=
  ∃ ret, m.mallocAt (vm call.1) (root call.1) call.2 = some (ret, m')

/-- The caller's VMAs change as `malloc` has it for a `List` of them. The list of the other side,
and what is in it, is as it was. -/
structure GrowsAlone (vm : Side → Word) (nodes : Side → List Word) (m : Machine)
    (call : Side × Int) (m' : Machine) : Prop where
  own : ∃ first heap rest, (nodes call.1).map m.vmaAt = first :: heap :: rest ∧
    (nodes call.1).map m'.vmaAt = first ::
      { heap with lastAddress := heap.lastAddress + 4096 * (call.2.tdiv 4096 + 1).toNat } :: rest
  others : ∀ i, i ≠ call.1 →
    m'.VmaList (vm i) (nodes i) ∧ (nodes i).map m'.vmaAt = (nodes i).map m.vmaAt

/-- The heap, which is the second VMA, stays below its limit if it gets every free frame. -/
def HeapRoom (m : Machine) (nodes : List Word) : Prop :=
  ∀ f, nodes[1]? = some f → (m.mem f 1).toNat + 4096 * m.head.length ≤ heapLimit

structure TwoLists (vm root : Side → Word) (nodes : Side → List Word) (m : Machine)
    (use : Word → Use) : Prop where
  sound : m.Sound use
  root : ∀ i, use (root i) = .table (root i) []
  list : ∀ i, m.VmaList (vm i) (nodes i)
  data : ∀ i, ∀ f ∈ nodes i, use f = .data ∧ f ∉ m.head
  apart : ∀ i j, i ≠ j → ∀ f ∈ nodes i, f ∉ nodes j
  room : ∀ i, HeapRoom m (nodes i)

variable {vm root : Side → Word} {nodes : Side → List Word} {call : Side × Int}

/-- A call keeps the two lists apart. -/
theorem TwoLists.grow (lists : TwoLists vm root nodes m use)
    (ran : GrowsHeap vm root m call m') :
    (∃ use', TwoLists vm root nodes m' use') ∧ GrowsAlone vm nodes m call m' := by
  obtain ⟨ret, ran⟩ := ran
  obtain ⟨first, heap, rest, shape, ran⟩ := mallocAt_nodes (lists.list call.1) ran
  have member : heap ∈ nodes call.1 := by simp [shape]
  obtain ⟨node, out⟩ := lists.data call.1 heap member
  obtain ⟨use', grown⟩ := lists.sound.mallocAt (lists.root call.1) node out
    (lists.room call.1 heap (by rw [shape]; rfl)) ran
  -- Only the end of the caller's heap has changed in the nodes of the two lists.
  have same (i : Side) (x : Word) (inside : x ∈ nodes i) (j : Nat) (other : (x, j) ≠ (heap, 1)) :
      m'.mem x j = m.mem x j :=
    grown.data x (lists.data i x inside).1 (lists.data i x inside).2 j other
  have list (i : Side) : m'.VmaList (vm i) (nodes i) := by
    refine Lib.Linked.congr (p := deref (vm i)) (lists.list i) fun x inside => ?_
    unfold nextAt
    rw [same i x inside 3 (by simp)]
  have apart (i : Side) (other : i ≠ call.1) (x : Word) (inside : x ∈ nodes i) : x ≠ heap := by
    rintro rfl
    exact lists.apart i call.1 other x inside member
  refine ⟨⟨use', grown.sound, fun i => ?_, list, fun i x inside => ?_, lists.apart,
    fun i f second => ?_⟩, ?_, fun i other => ⟨list i, ?_⟩⟩
  · have before := lists.root i
    exact (grown.kept _ (by simp [before])).trans before
  · obtain ⟨data, off⟩ := lists.data i x inside
    exact ⟨(grown.kept x (by simp [data])).trans data, fun back => off (grown.head.mem back)⟩
  · have before := lists.room i f second
    have frames := grown.frames
    by_cases here : f = heap
    · subst here
      rw [grown.last]
      omega
    · rw [same i f (List.mem_of_getElem? second) 1 fun both => here (congrArg Prod.fst both)]
      omega
  · -- The heap's node stands in the list once.
    have once := (lists.list call.1).nodup
    rw [shape] at once
    have still (x : Word) (inside : x ∈ nodes call.1) (elsewhere : x ≠ heap) :
        m'.vmaAt x = m.vmaAt x :=
      vmaAt_congr fun j _ => same call.1 x inside j fun both => elsewhere (congrArg Prod.fst both)
    have front : first ≠ heap := fun here => by simp [here] at once
    have back (x : Word) (inside : x ∈ rest) : m'.vmaAt x = m.vmaAt x := by
      refine still x (by simp [shape, inside]) ?_
      rintro rfl
      simp [inside] at once
    have grew : m'.vmaAt heap = { m.vmaAt heap with
        lastAddress := (m.vmaAt heap).lastAddress + 4096 * (call.2.tdiv 4096 + 1).toNat } := by
      unfold vmaAt
      rw [grown.last, same call.1 heap member 0 (by simp), same call.1 heap member 2 (by simp)]
    refine ⟨m.vmaAt first, m.vmaAt heap, rest.map m.vmaAt, by rw [shape]; rfl, ?_⟩
    rw [shape, List.map_cons, List.map_cons, still first (by simp [shape]) front, grew,
      List.map_congr_left back]
  · refine List.map_congr_left fun x inside => vmaAt_congr fun j _ => ?_
    exact same i x inside j fun both => apart i other x inside (congrArg Prod.fst both)

/-- No run of calls lets one side move the heap's end of the other. -/
theorem TwoLists.run (lists : TwoLists vm root nodes m use) {run : List ((Side × Int) × Machine)}
    (along : Along (GrowsHeap vm root) m run) : Along (GrowsAlone vm nodes) m run := by
  have preserved (s : Machine) (call : Side × Int) (t : Machine)
      (inv : ∃ use, TwoLists vm root nodes s use) (step : GrowsHeap vm root s call t) :
      ∃ use, TwoLists vm root nodes t use := by
    obtain ⟨_, inv⟩ := inv
    exact (inv.grow step).1
  refine (Along.invariant preserved ⟨use, lists⟩ along).mono fun s call t ⟨before, step, _⟩ => ?_
  obtain ⟨_, inv⟩ := before
  exact (inv.grow step).2

/-! ## copyVMA and what follows -/

/-- A frame that is put to no use otherwise may be called data. -/
theorem Machine.Sound.claim_data {f : Word} (sound : m.Sound use) (idle : m.Idle use f) :
    ∃ use', m.Sound use' ∧ use' f = .data ∧ (∀ x, use x ≠ .free → use' x = use x) ∧
      ∀ x, m.Idle use x → m.Idle use' x := by
  obtain ⟨out, free | data⟩ := idle
  · refine ⟨Function.update use f .data, sound.claim free out (Or.inl rfl), Function.update_self ..,
      fun x used => ?_, fun x ⟨off, serves⟩ => ⟨off, ?_⟩⟩
    · refine Function.update_of_ne ?_ _ _
      rintro rfl
      exact used free
    · by_cases same : x = f
      · subst same
        exact Or.inr (Function.update_self ..)
      · rw [Function.update_of_ne same]
        exact serves
  · exact ⟨use, sound, data, fun _ _ => rfl, fun _ idle => idle⟩

theorem Machine.Sound.claim_idle {frames : List Word} (sound : m.Sound use)
    (idle : ∀ f ∈ frames, m.Idle use f) : ∃ use', m.Sound use' ∧
      (∀ f ∈ frames, use' f = .data) ∧ ∀ x, use x ≠ .free → use' x = use x := by
  induction frames generalizing use with
  | nil => exact ⟨use, sound, by simp, by simp⟩
  | cons f rest ih =>
    obtain ⟨use1, sound1, data, kept, later⟩ := sound.claim_data (idle f List.mem_cons_self)
    obtain ⟨use2, sound2, all, kept2⟩ :=
      ih sound1 fun x member => later x (idle x (List.mem_cons_of_mem f member))
    refine ⟨use2, sound2, fun x member => ?_, fun x used => ?_⟩
    · rcases List.mem_cons.mp member with rfl | inside
      · rw [kept2 x (by simp [data]), data]
      · exact all x inside
    · have same := kept x used
      rw [kept2 x (same ▸ used), same]

/-- The lists of parent and child. -/
theorem Duplicate.twoLists {vm vm' r' : Word} {nodes nodes' : List Word}
    (duplicate : Duplicate m use vm nodes vm' m' nodes') (sound : m.Sound use)
    (idle : ∀ f ∈ nodes, m.Idle use f) (parent : use r = .table r [])
    (child : use r' = .table r' []) (room : HeapRoom m nodes) :
    ∃ use', TwoLists (Side.pick vm vm') (Side.pick r r') (Side.pick nodes nodes') m' use' := by
  have nodup := sound.nodup
  rw [duplicate.taken, List.nodup_append] at nodup
  have suffix : m'.head <:+ m.head := duplicate.taken ▸ List.suffix_append nodes' m'.head
  have off (f : Word) (member : f ∈ nodes ++ nodes') : m'.Idle use f := by
    rcases List.mem_append.mp member with node | copy
    · exact ⟨fun back => (idle f node).1 (suffix.mem back), (idle f node).2⟩
    · refine ⟨fun back => nodup.2.2 f copy f back rfl, Or.inl (sound.free f ?_)⟩
      rw [duplicate.taken]
      exact List.mem_append_left m'.head copy
  obtain ⟨use', sound', data, kept⟩ := duplicate.sound.claim_idle off
  -- The copy of the heap's VMA ends where the original does.
  have original (f : Word) (second : nodes'[1]? = some f) :
      ∃ g, nodes[1]? = some g ∧ (m'.mem f 1).toNat = (m.mem g 1).toNat := by
    have values := congrArg (fun values => values[1]?) duplicate.copied
    simp only [List.getElem?_map, second, Option.map_some] at values
    obtain ⟨g, found, same⟩ := Option.map_eq_some_iff.mp values.symm
    exact ⟨g, found, (congrArg VmaStruct.lastAddress same).symm⟩
  have less := suffix.length_le
  refine ⟨use', sound', ?_, ?_, ?_, ?_, ?_⟩
  · rintro (_ | _)
    · exact (kept r (by simp [parent])).trans parent
    · exact (kept r' (by simp [child])).trans child
  · rintro (_ | _)
    · exact duplicate.parent
    · exact duplicate.child
  · rintro (_ | _) f member
    · exact ⟨data f (List.mem_append_left nodes' member), (off f (List.mem_append_left _ member)).1⟩
    · exact ⟨data f (List.mem_append_right nodes member), (off f (List.mem_append_right _ member)).1⟩
  · rintro (_ | _) (_ | _) other f member there
    · exact other rfl
    · exact duplicate.apart f there member
    · exact duplicate.apart f member there
    · exact other rfl
  · rintro (_ | _) f second
    · have before := room f second
      rw [duplicate.kept f (List.mem_of_getElem? second)]
      omega
    · obtain ⟨g, second', same⟩ := original f second
      have before := room g second'
      rw [same]
      omega

/-- `copyVMA` runs out of frames or gives the child a list of its own. After that, whatever the two
tasks ask of `malloc`, neither moves the other's heap end. -/
theorem copyVMA_separate {vm : Word} {nodes : List Word} {rounds : Nat} (sound : m.Sound use)
    (reach : ∀ f ∈ m.head, InReach f) (list : m.VmaList vm nodes) (idle : ∀ f ∈ nodes, m.Idle use f)
    (enough : nodes.length < rounds) :
    (m.copyVMA vm rounds = none ↔ m.head.length < nodes.length) ∧
      ∀ vm' m', m.copyVMA vm rounds = some (vm', m') →
        ∃ nodes', ListCopied m vm nodes vm' m' nodes' ∧
          ∀ r r', use r = .table r [] → use r' = .table r' [] → HeapRoom m nodes →
            ∀ run, Along (GrowsHeap (Side.pick vm vm') (Side.pick r r')) m' run →
              Along (GrowsAlone (Side.pick vm vm') (Side.pick nodes nodes')) m' run := by
  obtain ⟨fails, returns⟩ := sound.copyVMA reach list idle enough
  refine ⟨fails, fun vm' m' ran => ?_⟩
  obtain ⟨nodes', duplicate⟩ := returns vm' m' ran
  refine ⟨nodes', duplicate.toListCopied, fun r r' parent child room run along => ?_⟩
  obtain ⟨use', lists⟩ := duplicate.twoLists sound idle parent child room
  exact lists.run along

/-- The booted machine with a list of two VMAs. -/
def listMachine : Machine :=
  (((((bootMachine.write 0x9000 0 (BitVec.ofNat 64 stackS)).write 0x9000 1
    (BitVec.ofNat 64 stackEnd)).write 0x9000 3 (address 0xA000)).write 0xA000 0
    (BitVec.ofNat 64 heapS)).write 0xA000 1 (BitVec.ofNat 64 heapS))

theorem listMachine_copied : ∃ vm' m' nodes',
    listMachine.copyVMA (address 0x9000) 3 = some (vm', m') ∧
      ListCopied listMachine (address 0x9000) [0x9000, 0xA000] vm' m' nodes' := by
  have other {x : Word} (first : x ≠ 0x9000) (second : x ≠ 0xA000) :
      listMachine.mem x = bootMachine.mem x := by
    unfold listMachine
    rw [write_mem_of_ne _ _ _ _ second, write_mem_of_ne _ _ _ _ second,
      write_mem_of_ne _ _ _ _ first, write_mem_of_ne _ _ _ _ first, write_mem_of_ne _ _ _ _ first]
  have sound : listMachine.Sound bootUse := by
    refine bootMachine_sound.congr (List.suffix_refl _) rfl rfl fun x _ used => other ?_ ?_
    · rintro rfl
      exact used (by decide)
    · rintro rfl
      exact used (by decide)
  have reach (f : Word) (member : f ∈ listMachine.head) : InReach f := by
    obtain ⟨k, below, rfl⟩ := bootMachine_free member
    unfold InReach
    rw [bootFrame_toNat below]
    omega
  have list : listMachine.VmaList (address 0x9000) [0x9000, 0xA000] :=
    ⟨by decide, show listMachine.nextAt 0x9000 = some 0xA000 by decide +kernel,
      show listMachine.nextAt 0xA000 = none by decide +kernel⟩
  have idle (f : Word) (member : f ∈ [(0x9000 : Word), 0xA000]) : listMachine.Idle bootUse f := by
    simp only [List.mem_cons, List.not_mem_nil, or_false] at member
    rcases member with rfl | rfl
    · exact ⟨bootMachine_low (by decide), Or.inl (by decide)⟩
    · exact ⟨bootMachine_low (by decide), Or.inl (by decide)⟩
  obtain ⟨fails, returns⟩ := copyVMA_separate sound reach list idle (show 2 < 3 by decide)
  cases ran : listMachine.copyVMA (address 0x9000) 3 with
  | none =>
    have few := fails.mp ran
    exact absurd few (by decide)
  | some copied =>
    obtain ⟨nodes', copy, _⟩ := returns copied.1 copied.2 ran
    exact ⟨copied.1, copied.2, nodes', rfl, copy⟩

end LateOS
