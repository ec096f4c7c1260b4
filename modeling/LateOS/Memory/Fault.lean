import LateOS.Memory.Copy
import LateOS.Process.Task

/-!
# Page faults

`isr14` of `sys/idt.c` and the accesses of user code that run it.
-/
namespace LateOS

open Lib

/-- `address & pageMask`. -/
def pageOf (v : Nat) : Nat := v / 4096 * 4096

def checkForVM (vm : List VmaStruct) (cr2Val : Nat) : Bool :=
  vm.any fun node => node.beginAddress < cr2Val && node.lastAddress > cr2Val

/-- Whether `checkValid` lets the task go on. An empty list ends in a NULL dereference. -/
def checkValid (vm : List VmaStruct) (vmem : Nat) : Option Bool :=
  match vm with
  | [] => none
  | taskVMA :: _ =>
    some (if (taskVMA.beginAddress + 0x1000) % 2 ^ 64 > vmem ∧ taskVMA.lastAddress < vmem then true
      else checkForVM vm vmem)

/-- How a page fault ends: the task exits, or it runs its instruction again. -/
inductive Fault where
  | exited | resumed (m : Machine)

namespace Machine

/-- The faulting page is read through the task's own mapping. -/
def copyNewMemory (m : Machine) (pml4e : Word) (vaddr : Nat) : Option Machine := do
  let (frameAddress, m) ← m.getFreeFrame
  let e ← m.translate pml4e vaddr
  -- The old frame keeps its mark in the other task, even when no third one maps it.
  (m.copyFrame frameAddress (frame e)).initTaskPagetables (pageOf vaddr) frameAddress pml4e

def copyFromPML4 (m : Machine) (pml4e : Word) (vaddr : Nat) : Option Machine := do
  let (frameAddress, m) ← m.getFreeFrame
  m.initTaskPagetables (pageOf vaddr) frameAddress pml4e

def isr14 (m : Machine) (currentTask : TaskStruct) (vaddr : Nat) : Option Fault := do
  let valid ← checkValid currentTask.vm vaddr
  if !valid then some .exited
  else
    let pteOffset := m.mem (m.getPTE currentTask.pml4e vaddr) (ptIndex vaddr)
    if pteOffset &&& 512 != 0 then
      (m.copyNewMemory currentTask.pml4e vaddr).map .resumed
    else match currentTask.vm with
      | [] => none
      | vm :: _ =>
        -- The head of the list is the stack, whose VMA begins above its end.
        if vm.beginAddress > vaddr ∧ vm.lastAddress < vaddr then
          (m.copyFromPML4 currentTask.pml4e vaddr).map .resumed
        else some .exited

/-- The two ways to go on after a fault. -/
theorem isr14_resumed {m m' : Machine} {ts : TaskStruct} {v : Nat}
    (ran : m.isr14 ts v = some (.resumed m')) : checkValid ts.vm v = some true ∧
      ((m.mem (m.getPTE ts.pml4e v) (ptIndex v) &&& 512 ≠ 0 ∧
          m.copyNewMemory ts.pml4e v = some m') ∨
        (m.mem (m.getPTE ts.pml4e v) (ptIndex v) &&& 512 = 0 ∧
          m.copyFromPML4 ts.pml4e v = some m')) := by
  unfold isr14 at ran
  obtain ⟨valid, checked, ran⟩ := Option.bind_eq_some_iff.mp ran
  cases valid with
  | false => cases ran
  | true =>
    refine ⟨checked, ?_⟩
    dsimp only at ran
    rw [if_neg (by decide)] at ran
    split at ran
    next marked =>
      obtain ⟨_, copied, same⟩ := Option.map_eq_some_iff.mp ran
      cases same
      exact Or.inl ⟨bne_iff_ne.mp marked, copied⟩
    next plain =>
      have clear : m.mem (m.getPTE ts.pml4e v) (ptIndex v) &&& 512 = 0 := by simpa using plain
      cases list : ts.vm with
      | nil =>
        rw [list] at ran
        cases ran
      | cons vm rest =>
        rw [list] at ran
        dsimp only at ran
        split at ran
        · obtain ⟨_, grown, same⟩ := Option.map_eq_some_iff.mp ran
          cases same
          exact Or.inr ⟨clear, grown⟩
        · cases ran

/-- A mark on the leaf entry decides for the copy. -/
theorem isr14_marked {m : Machine} {ts : TaskStruct} {v : Nat}
    (valid : checkValid ts.vm v = some true)
    (marked : m.mem (m.getPTE ts.pml4e v) (ptIndex v) &&& 512 ≠ 0) :
    m.isr14 ts v = (m.copyNewMemory ts.pml4e v).map .resumed := by
  unfold isr14
  simp only [valid]
  exact if_pos (bne_iff_ne.mpr marked)

/-- Nothing can be copied from a page that is not there. -/
theorem copyNewMemory_absent {m : Machine} {r : Word} {v : Nat} (absent : m.translate r v = none) :
    m.copyNewMemory r v = none := by
  unfold copyNewMemory
  cases popped : m.getFreeFrame with
  | none => rfl
  | some pair =>
    obtain ⟨f, m1⟩ := pair
    have same : m1.translate r v = none := by
      unfold getFreeFrame at popped
      split at popped
      · cases popped
      · cases popped
        exact absent
    change (m1.translate r v).bind _ = none
    rw [same]
    rfl

/-! ## Presence and permissions of a page -/

variable {m m' : Machine} {use use' : Word → Use} {r f e : Word} {v v' : Nat} {b : Byte}

theorem and_of_and {e mask part : Word} (whole : e &&& mask = mask) (sub : mask &&& part = part) :
    e &&& part = part := by
  calc e &&& part = e &&& (mask &&& part) := by rw [sub]
    _ = e &&& mask &&& part := by rw [BitVec.and_assoc]
    _ = part := by rw [whole, sub]

theorem present_of_and {e need : Word} (whole : e &&& need = need) (sub : need &&& 1 = 1) :
    present e = true := by
  unfold present
  rw [and_of_and whole sub]
  decide

theorem lookup_step (m : Machine) (t : Word) (i : Nat) (path : List Nat) (l : Nat) :
    m.tables.lookup t (i :: path) l =
      if present (m.mem t i) then m.tables.lookup (frame (m.mem t i)) path l else none := by
  rw [Tables.lookup_cons]
  change (if present (m.mem t i) then some (frame (m.mem t i)) else none).bind _ = _
  split <;> rfl

/-- Translation finds the entry that `getPTE` leads to, if all levels are present. -/
theorem translate_eq_some : m.translate r v = some e ↔
    present (m.mem r (pml4Index v)) = true ∧
    present (m.mem (frame (m.mem r (pml4Index v))) (pdptIndex v)) = true ∧
    present (m.mem (frame (m.mem (frame (m.mem r (pml4Index v))) (pdptIndex v))) (pdIndex v)) =
      true ∧ present e = true ∧ m.mem (m.getPTE r v) (ptIndex v) = e := by
  unfold translate upperPath getPTE
  dsimp only
  rw [lookup_step, lookup_step, lookup_step, lookup_leaf]
  split
  · split
    · split
      · split
        next here =>
          constructor
          · intro found
            cases found
            simp_all
          · rintro ⟨_, _, _, _, same⟩
            rw [same]
        next missing =>
          constructor
          · intro found
            cases found
          · rintro ⟨_, _, _, here, same⟩
            rw [same] at missing
            exact absurd here missing
      · simp_all
    · simp_all
  · simp_all

/-- The entries on the walk of an address, table by table. -/
structure Walk (m : Machine) (r : Word) (v : Nat) (e1 e2 e3 e : Word) : Prop where
  top : m.mem r (pml4Index v) = e1
  second : m.mem (frame e1) (pdptIndex v) = e2
  third : m.mem (frame e2) (pdIndex v) = e3
  last : m.mem (frame e3) (ptIndex v) = e
  here : present e1 ∧ present e2 ∧ present e3 ∧ present e

instance (m : Machine) (r : Word) (v : Nat) (e1 e2 e3 e : Word) :
    Decidable (m.Walk r v e1 e2 e3 e) :=
  decidable_of_iff (m.mem r (pml4Index v) = e1 ∧ m.mem (frame e1) (pdptIndex v) = e2 ∧
    m.mem (frame e2) (pdIndex v) = e3 ∧ m.mem (frame e3) (ptIndex v) = e ∧
    present e1 ∧ present e2 ∧ present e3 ∧ present e)
    ⟨fun h => ⟨h.1, h.2.1, h.2.2.1, h.2.2.2.1, h.2.2.2.2⟩,
      fun h => ⟨h.top, h.second, h.third, h.last, h.here⟩⟩

theorem Walk.translate {e1 e2 e3 : Word} (walk : m.Walk r v e1 e2 e3 e) :
    m.translate r v = some e := by
  obtain ⟨rfl, rfl, rfl, last, one, two, three, four⟩ := walk
  exact translate_eq_some.mpr ⟨one, two, three, four, last⟩

theorem permits_iff {need : Word} : m.permits need r v = true ↔
    m.mem r (pml4Index v) &&& need = need ∧
    m.mem (frame (m.mem r (pml4Index v))) (pdptIndex v) &&& need = need ∧
    m.mem (frame (m.mem (frame (m.mem r (pml4Index v))) (pdptIndex v))) (pdIndex v) &&& need =
      need ∧ m.mem (m.getPTE r v) (ptIndex v) &&& need = need := by
  simp [permits, getPTE, and_assoc]

/-- A permitted access finds its page. -/
theorem translate_of_permits {need : Word} (sub : need &&& 1 = 1)
    (allowed : m.permits need r v = true) :
    ∃ e, m.translate r v = some e ∧ e &&& need = need := by
  obtain ⟨one, two, three, four⟩ := permits_iff.mp allowed
  exact ⟨_, translate_eq_some.mpr ⟨present_of_and one sub, present_of_and two sub,
    present_of_and three sub, present_of_and four sub, rfl⟩, four⟩

/-- The upper levels of a task's tables permit everything. -/
theorem Sound.permits_of_translate (sound : m.Sound use) (root : use r = .table r [])
    (user : UserAddress v) {need : Word} (sub : (7 : Word) &&& need = need)
    (found : m.translate r v = some e) (leaf : e &&& need = need) : m.permits need r v = true := by
  obtain ⟨one, two, three, _, last⟩ := translate_eq_some.mp found
  have bounds := index_bound v
  have top : Inner [] (pml4Index v) := ⟨by decide, bounds.1, fun _ => user⟩
  obtain ⟨serves1, flags1⟩ := (sound.entries r r [] _ root bounds.1 one).1 top
  have second : Inner ([] ++ [pml4Index v]) (pdptIndex v) := ⟨by simp, bounds.2.1, by simp⟩
  obtain ⟨serves2, flags2⟩ := (sound.entries _ r _ _ serves1 bounds.2.1 two).1 second
  have third : Inner ([] ++ [pml4Index v] ++ [pdptIndex v]) (pdIndex v) :=
    ⟨by simp, bounds.2.2.1, by simp⟩
  obtain ⟨_, flags3⟩ := (sound.entries _ r _ _ serves2 bounds.2.2.1 three).1 third
  refine permits_iff.mpr ⟨and_of_and flags1 sub, and_of_and flags2 sub, and_of_and flags3 sub, ?_⟩
  rw [last]
  exact leaf

/-- User code cannot get at the kernel's pages. -/
theorem Sound.user_of_permits (sound : m.Sound use) (root : use r = .table r []) {need : Word}
    (sub : need &&& 1 = 1) (guard : need &&& 4 = 4) (allowed : m.permits need r v = true) :
    UserAddress v := by
  obtain ⟨one, two, _⟩ := permits_iff.mp allowed
  have bounds := index_bound v
  by_cases user : UserAddress v
  · exact user
  · have top : pml4Index v = 511 := by
      have notUser : ¬pml4Index v < 511 := user
      omega
    have here := present_of_and one sub
    -- Behind slot 511 the first kernel table has no entry that is open to user code.
    have kernel := (sound.entries r r [] _ root bounds.1 here).2.2 rfl top
    have open4 := and_of_and two guard
    rw [sound.guarded _ _ kernel bounds.2.1] at open4
    exact absurd open4 (by decide)

/-! ## What the handler does -/

theorem pageOf_samePage (v : Nat) : SamePage (pageOf v) v := by
  unfold SamePage upperPath pageOf pml4Index pdptIndex pdIndex ptIndex
  simp only [index_eq]
  have one : v / 4096 * 4096 / 2 ^ (12 + 9 + 9 + 9) = v / 2 ^ (12 + 9 + 9 + 9) := by omega
  have two : v / 4096 * 4096 / 2 ^ (12 + 9 + 9) = v / 2 ^ (12 + 9 + 9) := by omega
  have three : v / 4096 * 4096 / 2 ^ (12 + 9) = v / 2 ^ (12 + 9) := by omega
  have four : v / 4096 * 4096 / 2 ^ 12 = v / 2 ^ 12 := by omega
  rw [one, two, three, four]
  exact ⟨rfl, rfl⟩

theorem user_page {v : Nat} (user : UserAddress v) : UserAddress (pageOf v) := by
  have same := List.cons.inj (pageOf_samePage v).1
  unfold UserAddress
  rw [same.1]
  exact user

/-- The fault at `v` has been dealt with: the task may write there, and still has every byte
it had. -/
structure Repaired (m : Machine) (use : Word → Use) (r : Word) (v : Nat) (m' : Machine)
    (use' : Word → Use) : Prop where
  sound : m'.Sound use'
  within : Within {r} m use m' use'
  writable : m'.permits 7 r v = true
  kept : ∀ v' b, UserAddress v' → m.byteAt r v' = some b → m'.byteAt r v' = some b
  fresh : ∀ v' e, UserAddress v' → m'.translate r v' = some e →
    ¬Shared e ∨ m.translate r v' = some e
  others : ∀ v', UserAddress v' → ¬SamePage v v' → m'.translate r v' = m.translate r v'

theorem not_shared_entry (f : Word) : ¬Shared (entry f 7) := by
  intro shared
  have clear := shared.1
  rw [entry_seven_and f 2 (by decide)] at clear
  exact absurd clear (by decide)

theorem Mapped.fresh {w : Nat} (mapped : Mapped m use r w f m' use') (root : use r = .table r [])
    (user : UserAddress v) (found : m'.translate r v = some e) :
    ¬Shared e ∨ m.translate r v = some e := by
  by_cases same : SamePage w v
  · left
    rw [mapped.here v same] at found
    cases found
    exact not_shared_entry f
  · right
    rw [← mapped.others r v root user fun both => same both.2]
    exact found

theorem Mapped.writable (mapped : Mapped m use r (pageOf v) f m' use')
    (root : use r = .table r []) (user : UserAddress v) : m'.permits 7 r v = true := by
  have root' := (mapped.within.kept r (by simp [root])).trans root
  exact mapped.sound.permits_of_translate root' user (by decide)
    (mapped.here v (pageOf_samePage v)) (entry_seven_and f 7 (by decide))

/-- The faulting page is mapped in a machine `m1` that `m` has become without a change that `r` can
see. What is left is the contents of the page. -/
theorem Mapped.repaired {m1 : Machine} (mapped : Mapped m1 use r (pageOf v) f m' use')
    (sound : m.Sound use) (sound1 : m1.Sound use) (nowhere : Within ∅ m use m1 use)
    (root : use r = .table r []) (user : UserAddress v)
    (page : ∀ v' b, SamePage (pageOf v) v' → m.byteAt r v' = some b → m'.byteAt r v' = some b) :
    Repaired m use r v m' use' := by
  refine ⟨mapped.sound, (nowhere.mono (Set.empty_subset _)).trans mapped.within,
    mapped.writable root user, fun v' b user' had => ?_, fun v' e user' found => ?_,
    fun v' user' apart => ?_⟩
  · by_cases samePage : SamePage (pageOf v) v'
    · exact page v' b samePage had
    · rw [mapped.byteAt sound1 root user' fun both => samePage both.2,
        nowhere.byteAt sound root (Set.notMem_empty r) user']
      exact had
  · rw [← nowhere.translate sound root (Set.notMem_empty r)]
    exact mapped.fresh root user' found
  · rw [mapped.others r v' root user', nowhere.translate sound root (Set.notMem_empty r)]
    rintro ⟨-, upper, low⟩
    have page := pageOf_samePage v
    exact apart ⟨page.1.symm.trans upper, page.2.symm.trans low⟩

theorem Sound.copyFromPML4 (sound : m.Sound use) (root : use r = .table r [])
    (user : UserAddress v) (unmapped : m.translate r v = none)
    (ran : m.copyFromPML4 r v = some m') : ∃ use', Repaired m use r v m' use' := by
  obtain ⟨⟨f, m1⟩, popped, ran⟩ := Option.bind_eq_some_iff.mp ran
  have taken := sound.getFreeFrame popped
  obtain ⟨use', mapped⟩ := taken.sound.initTaskPagetables root (user_page user) taken.spare taken.out
    taken.aligned ran
  refine ⟨use', mapped.repaired sound taken.sound taken.within root user fun v' b samePage had => ?_⟩
  -- No byte of the page that faulted could be read before.
  rw [byteAt, ← translate_samePage m r samePage,
    translate_samePage m r (pageOf_samePage v), unmapped] at had
  cases had

theorem Sound.copyNewMemory (sound : m.Sound use) (root : use r = .table r [])
    (user : UserAddress v) (ran : m.copyNewMemory r v = some m') :
    ∃ use', Repaired m use r v m' use' := by
  obtain ⟨⟨f, m1⟩, popped, ran⟩ := Option.bind_eq_some_iff.mp ran
  obtain ⟨e, found, ran⟩ := Option.bind_eq_some_iff.mp ran
  have taken := sound.getFreeFrame popped
  have copied : (m1.copyFrame f (frame e)).Sound use := by
    refine taken.sound.congr (List.suffix_refl _) rfl rfl fun x _ used => ?_
    exact Function.update_of_ne (taken.ne used) _ _
  obtain ⟨use', mapped⟩ := copied.initTaskPagetables root (user_page user) taken.spare taken.out
    taken.aligned ran
  have nowhere : Within ∅ m use (m1.copyFrame f (frame e)) use := by
    refine ⟨fun _ _ => rfl, fun x r' p free table => ?_, fun x out _ => ?_, taken.suffix,
      taken.pml4e, taken.pdpte⟩
    · rw [free] at table
      cases table
    · have apart : x ≠ f := fun here => out (here ▸ taken.member)
      rw [← taken.mem]
      exact Function.update_of_ne apart _ _
  refine ⟨use', mapped.repaired sound copied nowhere root user fun v' b samePage had => ?_⟩
  have before : m.translate r v' = some e := by
    rw [← translate_samePage m r samePage, translate_samePage m r (pageOf_samePage v), ← found]
    unfold translate tables
    rw [taken.mem]
  -- The new frame is the old one's copy, and mapping it has not written it.
  have content : m'.mem f = m.mem (frame e) := by
    rw [mapped.within.mem f taken.out fun r' p table => by simp [taken.spare] at table,
      ← taken.mem]
    exact Function.update_self ..
  rw [byteAt, before] at had
  rw [byteAt, mapped.here v' samePage, ← had]
  simp [taken.aligned, content]

/-- The handler is called for a page that is not mapped or not writable. -/
theorem Sound.isr14 {ts : TaskStruct} (sound : m.Sound use)
    (root : use ts.pml4e = .table ts.pml4e [])
    (ranges : checkValid ts.vm v = some true → UserAddress v)
    (faulted : UserAddress v → ∀ e, m.translate ts.pml4e v = some e → e &&& 2 = 0)
    (ran : m.isr14 ts v = some (.resumed m')) : ∃ use', Repaired m use ts.pml4e v m' use' := by
  obtain ⟨checked, ⟨_, copied⟩ | ⟨clear, grown⟩⟩ := isr14_resumed ran
  · exact sound.copyNewMemory root (ranges checked) copied
  · have user := ranges checked
    -- A page that is mapped, not writable and not marked does not exist.
    have unmapped : m.translate ts.pml4e v = none := by
      cases found : m.translate ts.pml4e v with
      | none => rfl
      | some e =>
        obtain ⟨_, _, _, _, last⟩ := translate_eq_some.mp found
        obtain ⟨_, writable | shared⟩ := (sound.translate_facts root user found).2.2
        · exact absurd (faulted user e found) writable
        · rw [last] at clear
          exact absurd clear shared
    exact sound.copyFromPML4 root user unmapped grown

/-- A write that the hardware refuses meets a page that is not writable. -/
theorem Sound.not_writable (sound : m.Sound use) (root : use r = .table r [])
    (refused : m.permits 7 r v ≠ true) (user : UserAddress v) (found : m.translate r v = some e) :
    e &&& 2 = 0 := by
  by_contra writable
  have flags := (sound.translate_facts root user found).2.2
  exact refused (sound.permits_of_translate root user (by decide) found
    (seven_of_writable flags.1 writable))

/-- A read that the hardware refuses meets no page. -/
theorem Sound.not_mapped (sound : m.Sound use) (root : use r = .table r [])
    (refused : m.permits 5 r v ≠ true) (user : UserAddress v) : m.translate r v = none := by
  cases found : m.translate r v with
  | none => rfl
  | some e =>
    have flags := (sound.translate_facts root user found).2.2
    exact absurd (sound.permits_of_translate root user (by decide) found flags.1) refused

end Machine

end LateOS
