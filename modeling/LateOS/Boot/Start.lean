import LateOS.Boot.Frames
import LateOS.Boot.PageTables
import LateOS.Memory.System

/-!
# From the memory map to the first tasks

`start` builds the free list from the memory map, the page tables of the kernel from the free
list, and the process table. What comes out is a system in which every invariant holds.
-/
namespace LateOS

open Lib

/-! ## The free list as a list -/

/-- The frames from a node of `pagelist` on, `n` at most. -/
def Freelist.follow (fl : Freelist) : Nat → Option Nat → List Nat
  | 0, _ => []
  | _, none => []
  | n + 1, some i => (fl.pagelist i).address :: fl.follow n (fl.pagelist i).next

/-- The nodes of `pagelist` that can be reached. -/
def Freelist.addresses (fl : Freelist) : List Nat := fl.follow 75000 fl.head

/-- Physical memory with its free list. -/
def Freelist.machine (fl : Freelist) (mem : Word → Nat → Word) : Machine where
  mem := mem
  head := fl.addresses.map (BitVec.ofNat 64)
  refCount := fun f => (fl.pagelist (f.toNat / 4096)).refCount.toNat
  pml4e := 0
  pdpte := 0

/-- `lastFreeFrame` behind the loop: the end of the last region that is used. -/
def lastFreeFrame (smap : List Smap) : Nat :=
  smap.foldl (fun last r => if r.Usable then r.stop else last) 0

/-! ## The process table -/

/-- `taskQueue` in the zeroed memory of the kernel; RUNNING is the first state. -/
def zeroedQueue : TaskQueue := fun _ =>
  { name := [], ustack := 0, time := 0, state := .running, pid := 0, ppid := 0, rsp := 0,
    pml4e := 0, childCount := 0, vm := [], currDir := [], rip := 0 }

def initFirstTask (q : TaskQueue) : TaskQueue := fun i =>
  if InTable i then { q i with state := .ready, time := 0 } else q i

def setupTask (name : List UInt8) (function : Nat) (cr3 : Word) (q : TaskQueue) : TaskQueue :=
  let pid := newPID q
  Function.update q pid { q pid with
    pid := pid, name := name, state := .running, rip := function, pml4e := cr3 }

/-- `init` and `idle` run in the address space of the kernel. -/
def initTask (init idle : Nat) (cr3 : Word) (q : TaskQueue) : TaskQueue :=
  setupTask [105, 100, 108, 101] idle cr3 (setupTask [105, 110, 105, 116] init cr3 q)

/-- `start` as far as the first program: memory, with the tables that it is mapped by, and the
two tasks of the kernel. `fuel` bounds the rounds over the memory map. -/
def start (mem : Word → Nat → Word) (smap : List Smap) (physfree : Word) (init idle fuel : Nat) :
    Option (KernelTables × System) := do
  let fl ← Scan.finish physfree fuel (.start smap)
  let (tables, m) ← (fl.machine mem).setupPageTables 0 (lastFreeFrame smap)
  some (tables, ⟨m, initTask init idle tables.k_cr3 (initFirstTask zeroedQueue)⟩)

/-! ## What the free list hands out -/

section

variable {fl : Freelist} {addresses : List Nat}

theorem Freelist.follow_linked {n : Nat} {p : Option Nat}
    (linked : Linked (fun i => (fl.pagelist i).next) p (addresses.map (· / 4096)))
    (address : ∀ a ∈ addresses, (fl.pagelist (a / 4096)).address = a)
    (enough : addresses.length ≤ n) : fl.follow n p = addresses := by
  induction addresses generalizing n p with
  | nil =>
    have last : p = none := linked
    subst last
    cases n <;> rfl
  | cons a later ih =>
    obtain ⟨n, rfl⟩ := Nat.exists_eq_add_of_le' (Nat.lt_of_lt_of_le (Nat.succ_pos _) enough)
    obtain ⟨rfl, rest⟩ := linked
    change (fl.pagelist (a / 4096)).address :: fl.follow n _ = _
    rw [address a List.mem_cons_self,
      ih rest (fun b member => address b (List.mem_cons_of_mem a member))
        (Nat.le_of_succ_le_succ enough)]

/-- Frames below the end of `pagelist` are no more than its nodes. -/
theorem Freelist.Lists.length (lists : fl.Lists addresses)
    (low : ∀ a ∈ addresses, a < 4096 * 75000) : addresses.length ≤ 75000 := by
  have sub : addresses.map (· / 4096) ⊆ List.range 75000 := by
    intro i member
    obtain ⟨a, inside, rfl⟩ := List.mem_map.mp member
    have below := low a inside
    exact List.mem_range.mpr (by omega)
  have fewer := (lists.indices.subperm sub).length_le
  rwa [List.length_map, List.length_range] at fewer

theorem Freelist.Lists.addresses_eq (lists : fl.Lists addresses)
    (low : ∀ a ∈ addresses, a < 4096 * 75000) : fl.addresses = addresses :=
  follow_linked lists.linked (fun a member => (lists.address a member).1) (lists.length low)

/-- What `getFreeFrame` does to the nodes, it does to the list. -/
theorem Freelist.Lists.getFreeFrame_machine (lists : fl.Lists addresses)
    (low : ∀ a ∈ addresses, a < 4096 * 75000) (mem : Word → Nat → Word) :
    (fl.machine mem).getFreeFrame.map (fun got => (got.1, got.2.head)) =
      fl.getFreeFrame.map fun got => (BitVec.ofNat 64 got.1, (got.2.machine mem).head) := by
  unfold Machine.getFreeFrame
  cases addresses with
  | nil =>
    have head : (fl.machine mem).head = [] := by
      rw [machine, lists.addresses_eq low]
      rfl
    rw [head, lists.getFreeFrame_nil]
    rfl
  | cons a later =>
    obtain ⟨fl', got, lists'⟩ := lists.getFreeFrame
    have head : (fl.machine mem).head = BitVec.ofNat 64 a :: later.map (BitVec.ofNat 64) := by
      rw [machine, lists.addresses_eq low]
      rfl
    have head' : (fl'.machine mem).head = later.map (BitVec.ofNat 64) := by
      rw [machine, lists'.addresses_eq fun b member => low b (List.mem_cons_of_mem a member)]
    rw [head, got]
    change some (BitVec.ofNat 64 a, _) = some (BitVec.ofNat 64 a, (fl'.machine mem).head)
    rw [head']

end

/-! ## The page tables of the kernel -/

namespace Machine

variable {m m' : Machine} {pml4 pdpt pd pt f : Word} {tables : List Word} {pages total : Nat}

/-- The frame is the first of the list. -/
theorem getFreeFrame_head (ran : m.getFreeFrame = some (f, m')) :
    m.head = f :: m'.head ∧ m'.mem = m.mem := by
  unfold getFreeFrame at ran
  split at ran
  next => cases ran
  next list =>
    cases ran
    exact ⟨list, rfl⟩

/-- What the loop does not touch: `r` is neither a table of its own nor a free frame. -/
structure Spared (r : Word) (m : Machine) (state : Word × Machine) : Prop where
  table : state.1 ≠ r
  out : r ∉ state.2.head
  mem : state.2.mem r = m.mem r
  head : state.2.head <:+ m.head

theorem Spared.round {r : Word} {i : Nat} {state state' : Word × Machine}
    (spared : Spared r m state) (other : pd ≠ r) (ran : mapDirect pd 0 i state = some state') :
    Spared r m state' := by
  obtain ⟨pt, n⟩ := state
  obtain ⟨table, out, mem, head⟩ := spared
  unfold mapDirect at ran
  dsimp only at ran table out mem head
  split at ran
  next =>
    cases ran
    exact ⟨table, out, (write_mem_of_ne n _ _ _ table.symm).trans mem, head⟩
  next =>
    obtain ⟨⟨g, n'⟩, taken, equal⟩ := Option.bind_eq_some_iff.mp ran
    obtain ⟨list, kept⟩ := getFreeFrame_head (m := n) taken
    cases equal
    rw [list, List.mem_cons, not_or] at out
    refine ⟨Ne.symm out.1, out.2, ?_, ?_⟩
    · exact (write_mem_of_ne _ _ _ _ out.1).trans ((write_mem_of_ne _ _ _ _ other.symm).trans
        ((congrFun kept r).trans mem))
    · exact (list ▸ List.suffix_cons g n'.head).trans head

/-- `setupPageTables` takes frames from the front of the list, and enters one table in the PML4. -/
theorem setupPageTables_spares {t : KernelTables} {physfree : Nat} (nodup : m.head.Nodup)
    (ran : m.setupPageTables 0 physfree = some (t, m')) :
    m'.head <:+ m.head ∧ t.k_cr3 ∈ m.head ∧ ∀ j ≠ 511, m'.mem t.k_cr3 j = m.mem t.k_cr3 j := by
  unfold setupPageTables at ran
  simp only [Option.bind_eq_bind, Option.bind_eq_some_iff] at ran
  obtain ⟨⟨a, m1⟩, one, ⟨b, m2⟩, two, ⟨c, m3⟩, three, ⟨d, m4⟩, four, ⟨pt, m5⟩, looped, equal⟩ := ran
  obtain ⟨list1, kept1⟩ := getFreeFrame_head one
  obtain ⟨list2, kept2⟩ := getFreeFrame_head two
  obtain ⟨list3, kept3⟩ := getFreeFrame_head three
  obtain ⟨list4, kept4⟩ := getFreeFrame_head four
  change m2.head = c :: m3.head at list3
  change m3.head = d :: m4.head at list4
  have all : m.head = a :: b :: c :: d :: m4.head := by rw [list1, list2, list3, list4]
  rw [all] at nodup
  simp only [List.nodup_cons, List.mem_cons, not_or] at nodup
  obtain ⟨⟨ab, ac, ad, out⟩, _⟩ := nodup
  have start : Spared a (m4.write c (pdIndex kernbase) (entry d 3))
      (d, m4.write c (pdIndex kernbase) (entry d 3)) :=
    ⟨Ne.symm ad, out, rfl, List.suffix_refl _⟩
  obtain ⟨table, _, mem, head⟩ := loop_inv (I := fun _ st => Spared a _ st) start
    (fun _ _ _ _ spared step => spared.round (Ne.symm ac) step) looped
  have top : pml4Index kernbase = 511 := by decide
  cases equal
  refine ⟨?_, ?_, fun j other => ?_⟩
  · change m5.head <:+ m.head
    rw [all]
    exact head.trans ⟨[a, b, c, d], rfl⟩
  · rw [all]
    exact List.mem_cons_self
  · change (m5.mapTables a b c pt _).mem a j = m.mem a j
    unfold mapTables
    rw [write_mem_of_ne _ _ _ _ table.symm, write_mem_of_ne _ _ _ _ table.symm,
      write_mem_of_ne _ _ _ _ table.symm, write_mem_of_ne _ _ _ _ table.symm, mem,
      write_mem_of_ne _ _ _ _ ac, kept4, write_mem_of_ne _ _ _ _ ab, kept3, write_mem, top,
      if_neg fun both => other both.2, kept2, kept1]

/-- What the frames are used for once the kernel has its tables. -/
def kernelUse (pml4 pdpt pd : Word) (tables : List Word) (t : Word) : Use :=
  if t = pml4 then .kernel 0 else if t = pdpt then .kernel 1 else if t = pd then .kernel 2
  else if tables.contains t then .kernel 3 else .free

theorem kernelUse_kernel {t : Word} {d : Nat}
    (serves : kernelUse pml4 pdpt pd tables t = .kernel d) :
    (t = pml4 ∧ d = 0) ∨ (t = pdpt ∧ d = 1) ∨ (t = pd ∧ d = 2) ∨ (t ∈ tables ∧ d = 3) := by
  unfold kernelUse at serves
  split at serves
  next here => cases serves; exact .inl ⟨here, rfl⟩
  split at serves
  next here => cases serves; exact .inr (.inl ⟨here, rfl⟩)
  split at serves
  next here => cases serves; exact .inr (.inr (.inl ⟨here, rfl⟩))
  split at serves
  next here => cases serves; exact .inr (.inr (.inr ⟨List.contains_iff_mem.mp here, rfl⟩))
  next => cases serves

theorem kernelUse_table (t r : Word) (p : List Nat) :
    kernelUse pml4 pdpt pd tables t ≠ .table r p := by
  unfold kernelUse
  split_ifs <;> simp

/-- Each table serves its own level, and the frames that are left serve nothing. -/
theorem Upper.kernelUse (upper : Upper m pml4 pdpt pd tables) :
    kernelUse pml4 pdpt pd tables pml4 = .kernel 0 ∧
      kernelUse pml4 pdpt pd tables pdpt = .kernel 1 ∧
      kernelUse pml4 pdpt pd tables pd = .kernel 2 ∧
      (∀ t ∈ tables, kernelUse pml4 pdpt pd tables t = .kernel 3) ∧
      ∀ f ∈ m.head, kernelUse pml4 pdpt pd tables f = .free := by
  obtain ⟨one, two, three⟩ := upper.pdpt_ne
  unfold Machine.kernelUse
  refine ⟨if_pos rfl, ?_, ?_, fun t member => ?_, fun f member => ?_⟩
  · rw [if_neg one.symm, if_pos rfl]
  · rw [if_neg two.symm, if_neg three.symm, if_pos rfl]
  · obtain ⟨a, b, c⟩ := upper.leaf_ne (List.mem_append_left m.head member)
    rw [if_neg a, if_neg b, if_neg c, if_pos (List.contains_iff_mem.mpr member)]
  · obtain ⟨a, b, c⟩ := upper.leaf_ne (List.mem_append_right tables member)
    have out : f ∉ tables := fun inside =>
      (List.nodup_append.mp upper.tables_nodup).2.2 f inside f member rfl
    rw [if_neg a, if_neg b, if_neg c, if_neg fun here => out (List.contains_iff_mem.mp here)]

theorem frame_table (aligned : frame f = f) : frame (entry f 3) = f :=
  (frame_entry_three f).trans aligned

/-- The kernel reaches a frame of the direct map through its own tables. -/
theorem Upper.directMapped (upper : Upper m pml4 pdpt pd tables) (leaves : Leaves m tables pages)
    (low : pages ≤ 2 ^ 18) (top : m.pml4e = pml4) (second : m.pdpte = pdpt) {k : Nat}
    (below : k < pages) : m.DirectMapped (BitVec.ofNat 64 (4096 * k)) := by
  obtain ⟨t, here, mapped⟩ := leaves k below
  have address : (BitVec.ofNat 64 (4096 * k)).toNat = 4096 * k := by
    rw [BitVec.toNat_ofNat, Nat.mod_eq_of_lt (by omega)]
  have toPd : frame (m.mem pdpt 510) = pd := by
    rw [upper.second, if_pos rfl, frame_table (upper.aligned pd (by simp))]
  have toLeaf : frame (m.mem pd (k / 512)) = t := by
    rw [upper.third _ t here, frame_table (upper.aligned t (by simp [List.mem_of_getElem? here]))]
  unfold DirectMapped
  dsimp only
  rw [address, direct_pml4Index (by omega), direct_pdptIndex (by omega), direct_pdIndex (by omega),
    direct_ptIndex, top, second, toPd, toLeaf, mapped, upper.top, upper.second, if_pos rfl,
    upper.third _ t here]
  exact ⟨present_entry_three pdpt, frame_table (upper.aligned pdpt (by simp)),
    present_entry_three pd, present_entry_three t, rfl⟩

/-- The state that `setupPageTables` leaves is sound: there is no task, and every frame of the
list is mapped. -/
theorem Upper.sound (upper : Upper m pml4 pdpt pd tables) (leaves : Leaves m tables pages)
    (some : 0 < pages) (count : tables.length = (pages + 511) / 512) (low : pages ≤ 2 ^ 18)
    (top : m.pml4e = pml4) (second : m.pdpte = pdpt) (blank : ∀ j ≠ 511, m.mem pml4 j = 0)
    (listed : ∀ f ∈ m.head, ∃ k < pages, f = BitVec.ofNat 64 (4096 * k)) :
    m.Sound (Machine.kernelUse pml4 pdpt pd tables) := by
  obtain ⟨root, one, two, three, free⟩ := upper.kernelUse
  have nodup := (List.nodup_append.mp upper.tables_nodup).2.1
  refine ⟨nodup, free, fun f member => upper.aligned f (by simp [member]), fun f member => ?_,
    top ▸ root, ?_, ?_, ?_, ?_, ?_, ?_⟩
  · obtain ⟨k, below, rfl⟩ := listed f member
    exact upper.directMapped leaves low top second below
  · rw [top, upper.top]
    exact present_entry_three pdpt
  · intro t d i serves shallow bound here
    rcases kernelUse_kernel serves with ⟨rfl, rfl⟩ | ⟨rfl, rfl⟩ | ⟨rfl, rfl⟩ | ⟨_, rfl⟩
    · by_cases last : i = 511
      · rw [last, upper.top, frame_table (upper.aligned pdpt (by simp))]
        exact one
      · rw [blank i last] at here
        cases here
    · rw [upper.second] at here ⊢
      split at here
      next last =>
        rw [if_pos last, frame_table (upper.aligned pd (by simp))]
        exact two
      next => cases here
    · -- The entries of the page directory are those of the leaf tables.
      by_cases inside : i < tables.length
      · have at_i : tables[i]? = .some tables[i] := List.getElem?_eq_getElem inside
        have member : tables[i] ∈ tables := List.getElem_mem inside
        rw [upper.third i _ at_i, frame_table (upper.aligned _ (by simp [member]))]
        exact three _ member
      · rw [upper.beyond i (Nat.le_of_not_lt inside) (by omega)] at here
        cases here
    · exact absurd shallow (by decide)
  · intro t i serves _
    rcases kernelUse_kernel serves with ⟨_, one⟩ | ⟨rfl, _⟩ | ⟨_, one⟩ | ⟨_, one⟩
    · cases one
    · rw [upper.second]
      split
      · rw [entry_and pd 3 4 (by decide)]
        decide
      · decide
    · cases one
    · cases one
  · exact fun t r p table => absurd table (kernelUse_table t r p)
  · exact fun t r p i table => absurd table (kernelUse_table t r p)
  · rintro t l t' l' ⟨⟨r, p, table, _⟩, _, _⟩
    exact absurd table (kernelUse_table t r p)

end Machine

/-! ## The tasks of the kernel -/

section

variable (init idle : Nat) (cr3 : Word)

theorem newPID_first : newPID (initFirstTask zeroedQueue) = 0 := rfl

theorem newPID_second :
    newPID (setupTask [105, 110, 105, 116] init cr3 (initFirstTask zeroedQueue)) = 1 := rfl

/-- `init` and `idle` are in the first two slots. -/
theorem initTask_eq : initTask init idle cr3 (initFirstTask zeroedQueue) =
    Function.update (Function.update (initFirstTask zeroedQueue) 0
      { initFirstTask zeroedQueue 0 with
        pid := 0, name := [105, 110, 105, 116], state := .running, rip := init, pml4e := cr3 })
      1 { initFirstTask zeroedQueue 1 with
        pid := 1, name := [105, 100, 108, 101], state := .running, rip := idle, pml4e := cr3 } := by
  unfold initTask
  rw [setupTask, newPID_second, setupTask, newPID_first]
  rw [Function.update_of_ne (by decide : (1 : Int) ≠ 0)]

/-- The next program gets slot 2. -/
theorem newPID_third : newPID (initTask init idle cr3 (initFirstTask zeroedQueue)) = 2 := by
  rw [initTask_eq]
  rfl

end

/-- The slots of a table in which nothing but the two tasks of the kernel runs. -/
def KernelTasks (cr3 : Word) (q : TaskQueue) : Prop :=
  ∀ i, InTable i → (q i).ppid = 0 ∧ (q i).time = 0 ∧
    if i ≤ 1 then (q i).state = .running ∧ (q i).pid = i ∧ (q i).pml4e = cr3
    else (q i).state = .ready

theorem initTask_kernelTasks (init idle : Nat) (cr3 : Word) :
    KernelTasks cr3 (initTask init idle cr3 (initFirstTask zeroedQueue)) := by
  intro i inside
  have lower := inside.1
  rw [initTask_eq]
  by_cases second : i = 1
  · subst second
    exact ⟨rfl, rfl, rfl, rfl, rfl⟩
  · rw [Function.update_of_ne second]
    by_cases first : i = 0
    · subst first
      exact ⟨rfl, rfl, rfl, rfl, rfl⟩
    · rw [Function.update_of_ne first, initFirstTask, if_pos inside, if_neg (by omega)]
      exact ⟨rfl, rfl, rfl⟩

theorem initTask_vm (init idle : Nat) (cr3 : Word) (i : Int) :
    (initTask init idle cr3 (initFirstTask zeroedQueue) i).vm = [] := by
  have blank (j : Int) : (initFirstTask zeroedQueue j).vm = [] := by
    unfold initFirstTask
    split <;> rfl
  rw [initTask_eq, Function.update_apply, Function.update_apply]
  split
  · exact blank 1
  split
  · exact blank 0
  · exact blank i

/-! ## The whole of it -/

/-- A kernel that has come up: its page tables map all of memory and themselves, the frames that
are left are those of the memory map, its two tasks run, and the invariants of memory hold. -/
structure ComesUp (smap : List Smap) (physfree : Word) (tables : KernelTables) (s : System) :
    Prop where
  booted : Booted s
  mapped : Machine.BootMapped s.machine tables (lastFreeFrame smap)
  frames : s.machine.head <:+ (smap.flatMap fun r => r.frames physfree).map (BitVec.ofNat 64)
  tasks : KernelTasks tables.k_cr3 s.taskQueue
  next : newPID s.taskQueue = 2

section

variable {smap : List Smap} {physfree : Word}

theorem lastFreeFrame_le (low : ∀ r ∈ smap, r.Usable → r.Low) :
    lastFreeFrame smap ≤ 4096 * 75000 := by
  suffices all : ∀ last ≤ 4096 * 75000, ∀ rest : List Smap, (∀ r ∈ rest, r.Usable → r.Low) →
      rest.foldl (fun last r => if r.Usable then r.stop else last) last ≤ 4096 * 75000 from
    all 0 (Nat.zero_le _) smap low
  intro last bound rest low
  induction rest generalizing last with
  | nil => exact bound
  | cons r rest ih =>
    refine ih _ ?_ fun r' member => low r' (List.mem_cons_of_mem r member)
    dsimp only
    split
    next usable =>
      have lowR := low r List.mem_cons_self usable
      rw [lowR.stop]
      exact lowR.below
    next => exact bound

/-- A listed frame is a whole number of frames below the end of the regions. -/
theorem listed_below (low : ∀ r ∈ smap, r.Usable → r.Low)
    (ordered : ∀ r ∈ smap, r.Usable → r.stop ≤ lastFreeFrame smap) {a : Nat}
    (member : a ∈ smap.flatMap fun r => r.frames physfree) :
    a < 4096 * 75000 ∧ a + 4096 < lastFreeFrame smap := by
  obtain ⟨r, inside, here⟩ := List.mem_flatMap.mp member
  have usable := (Smap.mem_frames.mp here).1
  have lowR := low r inside usable
  obtain ⟨_, upper, _⟩ := lowR.holds_of_mem here
  have below := lowR.below
  have last := ordered r inside usable
  rw [lowR.stop] at last
  exact ⟨by omega, by omega⟩

end

end LateOS
