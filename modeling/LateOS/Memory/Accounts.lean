import Mathlib.Data.Set.Card
import LateOS.Memory.Exhaustion
import LateOS.Memory.Sharing
import LateOS.Process.Effect

/-!
# Frame accounting

How often each frame is mapped, against its count of references, and what becomes of frames that
no task reaches any more.
-/
namespace LateOS

open Lib Machine

namespace System

variable (s : System)

/-- A user task that has not been reaped. -/
def Live (i : Int) : Prop := s.User i ∧ (s.taskQueue i).state ≠ .ready

/-- The leaf entries of tasks that map the frame `f`, each as its task and its page. -/
def mappings (f : Word) : Set (Int × Nat) :=
  {x | s.Live x.1 ∧ x.2 < userPages ∧
    ∃ e, s.machine.translate (s.taskQueue x.1).pml4e (4096 * x.2) = some e ∧ frame e = f}

/-- The frames that are reached from the PML4 of some task, as a table or as a page. -/
def reachable : Set Word := {f | ∃ i, s.Live i ∧ (f ∈ s.tableFrames i ∨ f ∈ s.dataFrames i)}

end System

/-- A step after which every data frame has a count of as many references as there are leaf entries
that map it, and whose frames that are not reached any more are back on the free list. -/
structure Accounts (s s' : System) : Prop where
  counts : ∀ f, (s.mappings f).Nonempty ∨ (s'.mappings f).Nonempty →
    (s'.machine.refCount f : ℕ∞) = (s'.mappings f).encard
  returned : ∀ f ∈ s.reachable, f ∈ s'.reachable ∨ f ∈ s'.machine.head

/-- A task forks, and its child loads a program, exits and is reaped. -/
def Round (s : System) (round : List (Request × System)) : Prop :=
  ∃ i c file name args, firstSlot (checkTaskState s.taskQueue) = some c ∧
    round.map Prod.fst = [.fork i, .exec c file name args, .turn c .zombie, .reap c]

/-- All steps of a run account for their frames, and rounds leave as many free as there were. -/
structure FramesAccounted (s : System) (run : List (Request × System)) : Prop where
  steps : Along (fun t _ t' => Accounts t t') s run
  rounds : ∀ before round after, run = before ++ round ++ after →
    Round (lastState s before) round →
      (lastState s (before ++ round)).machine.head.length = (lastState s before).machine.head.length

/-- The step takes no page away from a task, and no table: it loads no program over another, reaps
no task, and maps no page that is mapped. -/
def KeepsPages (s : System) : Request → Prop
  | .exec _ _ _ _ | .reap _ => False
  | .malloc i n => ∀ p < requestPages n,
      s.machine.translate (s.taskQueue i).pml4e (heapEnd (s.taskQueue i).vm + 4096 * p) = none
  -- A store to a shared page is where the handler copies the page.
  | .store i v _ => s.machine.translate (s.taskQueue i).pml4e v = none ∨
      s.machine.permits 7 (s.taskQueue i).pml4e v = true ∨
      checkValid (s.taskQueue i).vm v ≠ some true
  | _ => True

variable {s s' : System} {use use' : Word → Use} {a : Request} {i j : Int} {f : Word} {v k : Nat}

/-! ## Pages by number -/

/-- Every user address lies on one of the pages that are counted. -/
theorem page_of_user (user : UserAddress v) : ∃ k < userPages, SamePage (4096 * k) v := by
  refine ⟨v / 4096 % 2 ^ 36, ?_, ?_⟩
  · have bound : v / 2 ^ (12 + 9 + 9 + 9) % 512 < 511 := by
      rw [← index_eq]
      exact user
    have small : v / 4096 % 2 ^ 36 < 511 * 134217728 := by omega
    exact small
  · rw [samePage_iff]
    omega

theorem page_unique {k k' : Nat} (small : k < userPages) (small' : k' < userPages)
    (same : SamePage (4096 * k) (4096 * k')) : k = k' := by
  have bound : k < 511 * 134217728 := small
  have bound' : k' < 511 * 134217728 := small'
  rw [samePage_iff] at same
  omega

/-! ## The invariant -/

/-- What holds as long as every step keeps the pages. -/
structure Accounted (s : System) : Prop where
  consistent : ∃ use, Consistent s use
  live : ∀ i, s.User i → (s.taskQueue i).state ≠ .ready
  stack : ∀ i, s.User i → s.machine.translate (s.taskQueue i).pml4e stackS ≠ none
  counted : ∀ f, (s.mappings f).Nonempty → (s.machine.refCount f : ℕ∞) = (s.mappings f).encard

theorem Booted.accounted (booted : Booted s) : Accounted s := by
  refine ⟨booted.consistent, fun i user => absurd user (booted.tasks i),
    fun i user => absurd user (booted.tasks i), fun f mapped => ?_⟩
  obtain ⟨x, live, _⟩ := mapped
  exact absurd live.1 (booted.tasks x.1)

theorem Consistent.mapped_used (inv : Consistent s use) (mapped : (s.mappings f).Nonempty) :
    use f = .data := by
  obtain ⟨⟨i, k⟩, live, small, e, found, rfl⟩ := mapped
  exact inv.data_use live.1 ⟨_, e, user_of_page small, found, rfl⟩

theorem Consistent.mapped_taken (inv : Consistent s use) (mapped : (s.mappings f).Nonempty) :
    f ∉ s.machine.head := by
  intro member
  have data := inv.mapped_used mapped
  rw [inv.sound.free f member] at data
  cases data

/-- A step that leaves every page where it was, and whose new pages have frames of the free
list. -/
structure Keeps (s : System) (use : Word → Use) (s' : System) : Prop where
  handed : Handed s.machine s'.machine
  stay : TablesStay s.machine use s'.machine
  live : ∀ j, s.Live j → s'.Live j ∧ (s'.taskQueue j).pml4e = (s.taskQueue j).pml4e
  old : ∀ j v e, s.Live j → UserAddress v →
    s.machine.translate (s.taskQueue j).pml4e v = some e →
    s'.machine.translate (s.taskQueue j).pml4e v = some e
  new : ∀ j v e, s'.Live j → UserAddress v →
    s'.machine.translate (s'.taskQueue j).pml4e v = some e →
    (s.Live j ∧ s.machine.translate (s.taskQueue j).pml4e v = some e) ∨
      (frame e ∈ s.machine.head ∧ ¬Shared e)

theorem Keeps.mono (keeps : Keeps s use s') (f : Word) : s.mappings f ⊆ s'.mappings f := by
  rintro ⟨j, k⟩ ⟨live, small, e, found, leads⟩
  obtain ⟨live', same⟩ := keeps.live j live
  refine ⟨live', small, e, ?_, leads⟩
  rw [same]
  exact keeps.old j _ e live (user_of_page small) found

theorem Keeps.counted (keeps : Keeps s use s') (acc : Accounted s) (inv : Consistent s use)
    (inv' : Consistent s' use') (mapped : (s'.mappings f).Nonempty) :
    (s'.machine.refCount f : ℕ∞) = (s'.mappings f).encard := by
  by_cases free : f ∈ s.machine.head
  · -- The frame was free: it has been handed out for one page.
    have gone : f ∉ s'.machine.head := inv'.mapped_taken mapped
    have fresh : ∀ x ∈ s'.mappings f, ∃ e,
        s'.machine.translate (s'.taskQueue x.1).pml4e (4096 * x.2) = some e ∧ frame e = f ∧
          ¬Shared e := by
      rintro ⟨j, k⟩ ⟨live, small, e, found, leads⟩
      refine ⟨e, found, leads, ?_⟩
      rcases keeps.new j _ e live (user_of_page small) found with ⟨live, before⟩ | ⟨_, alone⟩
      · have member : (s.mappings f).Nonempty := ⟨(j, k), live, small, e, before, leads⟩
        exact absurd free (inv.mapped_taken member)
      · exact alone
    have single : (s'.mappings f).encard = 1 := by
      obtain ⟨x, member⟩ := mapped
      rw [Set.encard_eq_one]
      refine ⟨x, Set.Subset.antisymm (fun y memberY => ?_) (by simpa using member)⟩
      obtain ⟨e, found, leads, alone⟩ := fresh x member
      obtain ⟨e', found', leads', _⟩ := fresh y memberY
      obtain ⟨live, small, _⟩ := member
      obtain ⟨live', small', _⟩ := memberY
      by_contra other
      refine alone (inv'.mapped_twice live.1 live'.1 (user_of_page small) (user_of_page small')
        found found' (leads.trans leads'.symm) fun same => other ?_).1
      have page := page_unique small small' same.2
      exact Prod.ext same.1.symm page.symm
    rw [keeps.handed.taken f free gone, single]
    rfl
  · -- The frame was in use: it has the mappings it had.
    have same : s'.mappings f = s.mappings f := by
      refine Set.Subset.antisymm ?_ (keeps.mono f)
      rintro ⟨j, k⟩ ⟨live, small, e, found, leads⟩
      rcases keeps.new j _ e live (user_of_page small) found with ⟨live, before⟩ | ⟨member, _⟩
      · exact ⟨live, small, e, before, leads⟩
      · rw [leads] at member
        exact absurd member free
    rw [same] at mapped ⊢
    rw [keeps.handed.rest f free]
    exact acc.counted f mapped

/-- What a task reaches stays reached as long as ways to tables stay, and pages keep their frames. -/
theorem Consistent.reachable_stays (inv : Consistent s use)
    (stay : TablesStay s.machine use s'.machine)
    (live : ∀ j, s.Live j → s'.Live j ∧ (s'.taskQueue j).pml4e = (s.taskQueue j).pml4e)
    (pages : ∀ j v e, s.Live j → UserAddress v →
      s.machine.translate (s.taskQueue j).pml4e v = some e →
      ∃ e', s'.machine.translate (s.taskQueue j).pml4e v = some e' ∧ frame e' = frame e) :
    ∀ f ∈ s.reachable, f ∈ s'.reachable := by
  rintro f ⟨j, liveJ, reached⟩
  obtain ⟨live', same⟩ := live j liveJ
  refine ⟨j, live', ?_⟩
  rcases reached with ⟨path, inner, walked⟩ | ⟨v, e, user, found, rfl⟩
  · left
    refine ⟨path, inner, ?_⟩
    rw [same]
    exact inv.sound.walk_stays stay (inv.root j liveJ.1) inner walked
  · right
    obtain ⟨e', found', leads⟩ := pages j v e liveJ user found
    refine ⟨v, e', user, ?_, leads⟩
    rw [same]
    exact found'

theorem Keeps.accounts (keeps : Keeps s use s') (acc : Accounted s) (inv : Consistent s use)
    (inv' : Consistent s' use') : Accounts s s' := by
  refine ⟨fun f mapped => keeps.counted acc inv inv' ?_, fun f reached => Or.inl ?_⟩
  · rcases mapped with before | after
    · exact before.mono (keeps.mono f)
    · exact after
  · exact inv.reachable_stays keeps.stay keeps.live
      (fun j v e live user found => ⟨e, keeps.old j v e live user found, rfl⟩) f reached

theorem Keeps.accounted (keeps : Keeps s use s') (acc : Accounted s) (inv : Consistent s use)
    (inv' : Consistent s' use') (live : ∀ j, s'.User j → (s'.taskQueue j).state ≠ .ready)
    (stack : ∀ j, s'.User j → s.Live j ∨
      s'.machine.translate (s'.taskQueue j).pml4e stackS ≠ none) : Accounted s' := by
  refine ⟨⟨use', inv'⟩, live, fun j user => ?_, fun f mapped => keeps.counted acc inv inv' mapped⟩
  rcases stack j user with liveJ | there
  · obtain ⟨e, found⟩ := Option.ne_none_iff_exists'.mp (acc.stack j liveJ.1)
    rw [(keeps.live j liveJ).2, keeps.old j stackS e liveJ (user_of_small (by decide)) found]
    nofun
  · exact there

/-- A step that works on the memory of task `i` alone, among the same tasks. -/
theorem Accounted.supplied {m : Machine} {q : TaskQueue} (acc : Accounted s)
    (inv : Consistent s use) (inv' : Consistent ⟨m, q⟩ use') (user : s.User i)
    (supplied : Supplied s.machine use (s.taskQueue i).pml4e m)
    (others : ∀ r, use r = .table r [] → r ≠ (s.taskQueue i).pml4e → ∀ v,
      m.translate r v = s.machine.translate r v)
    (kept : ∀ v e, UserAddress v → s.machine.translate (s.taskQueue i).pml4e v = some e →
      m.translate (s.taskQueue i).pml4e v = some e)
    (space : ∀ j, ((q j).vm ≠ [] ↔ s.User j) ∧ (q j).pml4e = (s.taskQueue j).pml4e)
    (states : ∀ j, s.User j → (q j).state ≠ .ready) : Accounts s ⟨m, q⟩ ∧ Accounted ⟨m, q⟩ := by
  have before {j} (live : System.Live ⟨m, q⟩ j) : s.Live j := by
    have userJ := (space j).1.mp live.1
    exact ⟨userJ, acc.live j userJ⟩
  have keeps : Keeps s use ⟨m, q⟩ := by
    refine ⟨supplied.handed, supplied.stay,
      fun j live => ⟨⟨(space j).1.mpr live.1, states j live.1⟩, (space j).2⟩,
      fun j v e live userV found => ?_, fun j v e live userV found => ?_⟩
    · by_cases here : j = i
      · subst here
        exact kept v e userV found
      · rw [others _ (inv.root j live.1) (inv.away user j here live.1)]
        exact found
    · have liveJ := before live
      change m.translate (q j).pml4e v = some e at found
      rw [(space j).2] at found
      by_cases here : j = i
      · subst here
        rcases supplied.pages v e userV found with old | fresh
        · exact Or.inl ⟨liveJ, old⟩
        · exact Or.inr fresh
      · rw [others _ (inv.root j liveJ.1) (inv.away user j here liveJ.1)] at found
        exact Or.inl ⟨liveJ, found⟩
  refine ⟨keeps.accounts acc inv inv', keeps.accounted acc inv inv' (fun j userJ => ?_)
    fun j userJ => ?_⟩
  · exact states j ((space j).1.mp userJ)
  · have old := (space j).1.mp userJ
    exact Or.inl ⟨old, acc.live j old⟩

/-! ## Steps that keep the pages -/

theorem Accounted.create {file : Image} {filename : List UInt8} (acc : Accounted s)
    (inv : Consistent s use) (ran : s.step (.create file filename) = some s') :
    Accounts s s' ∧ Accounted s' := by
  obtain ⟨use2, inv'⟩ := inv.next ran
  obtain ⟨pid, slot, short, ts, m, created, rfl⟩ := System.step_create.mp ran
  obtain ⟨r, use1, born, shape⟩ := inv.sound.createNewTask short created
  have started := inv.sound.createNewTask_started short created
  have pml4e : ts.pml4e = r := by rw [shape]
  have free : (s.taskQueue pid).state = .ready := by
    simpa [checkTaskState] using (firstSlot_some slot).2
  have own : (s.setTask pid ts m).taskQueue pid = ts := Function.update_self ..
  have other {j} (away : j ≠ pid) : (s.setTask pid ts m).taskQueue j = s.taskQueue j :=
    Function.update_of_ne away _ _
  have state : ts.state = .running := by rw [shape]; rfl
  have liveOther {j} (away : j ≠ pid) : (s.setTask pid ts m).Live j ↔ s.Live j := by
    unfold System.Live System.User
    rw [other away]
  have away {j} (live : s.Live j) : j ≠ pid := by
    rintro rfl
    exact live.2 free
  have spared {j} (live : s.Live j) (v : Nat) : m.translate (s.taskQueue j).pml4e v =
      s.machine.translate (s.taskQueue j).pml4e v :=
    born.spares.translate _ (inv.root j live.1) (inv.new born.spare live.1) v
  have keeps : Keeps s use (s.setTask pid ts m) := by
    refine ⟨started.handed, started.stay, fun j live => ⟨(liveOther (away live)).mpr live, ?_⟩,
      fun j v e live _ found => (spared live v).trans found, fun j v e live user found => ?_⟩
    · rw [other (away live)]
    · by_cases here : j = pid
      · subst here
        rw [own] at found
        exact Or.inr (started.pages v e user found)
      · rw [other here] at found
        have before := (liveOther here).mp live
        exact Or.inl ⟨before, (spared before v).symm.trans found⟩
  refine ⟨keeps.accounts acc inv inv', keeps.accounted acc inv inv' (fun j user => ?_)
    fun j user => ?_⟩
  · by_cases here : j = pid
    · subst here
      rw [own, state]
      intro ready
      cases ready
    · unfold System.User at user
      rw [other here] at user ⊢
      exact acc.live j user
  · by_cases here : j = pid
    · subst here
      rw [own]
      exact Or.inr started.stack
    · unfold System.User at user
      rw [other here] at user
      exact Or.inl ⟨user, acc.live j user⟩

theorem Accounted.malloc {n : Int} (acc : Accounted s) (inv : Consistent s use)
    (absent : KeepsPages s (.malloc i n)) (ran : s.step (.malloc i n) = some s') :
    Accounts s s' ∧ Accounted s' := by
  obtain ⟨use2, inv'⟩ := inv.next ran
  obtain ⟨user, ret, ts, m, grown, rfl⟩ := System.step_malloc.mp ran
  have root := inv.root i user
  have layout := inv.layout i user
  have supplied := inv.sound.malloc_supplied root layout grown
  obtain ⟨vm, use1, rfl, layout', _, within⟩ := inv.sound.malloc root layout grown
  obtain ⟨heap, rest, shape, room, _⟩ := layout
  obtain ⟨_, _, spread⟩ := inv.sound.malloc_pages root shape room grown
  have start : heapEnd (s.taskQueue i).vm = heap.lastAddress := by rw [shape]; rfl
  have filled : vm ≠ [] := by
    obtain ⟨_, _, shape', _⟩ := layout'
    rw [shape']
    nofun
  have kept : ∀ v e, UserAddress v → s.machine.translate (s.taskQueue i).pml4e v = some e →
      m.translate (s.taskQueue i).pml4e v = some e := by
    intro v e userV found
    rw [spread.rest v userV fun p below same => ?_]
    · exact found
    · have none := absent p below
      rw [start, translate_samePage _ _ same, found] at none
      cases none
  refine acc.supplied inv inv' user supplied
    (fun r table other => within.translate inv.sound table other) kept (fun j => ?_)
    fun j userJ => ?_
  · by_cases here : j = i
    · subst here
      simp [filled, user]
    · simp [here, System.User]
  · by_cases here : j = i
    · subst here
      simpa using acc.live j userJ
    · simpa [here] using acc.live j userJ

/-- The states of tasks change, and no task is reaped. -/
theorem Accounted.requeued {q : TaskQueue} (acc : Accounted s) (inv : Consistent s use)
    (inv' : Consistent { s with taskQueue := q } use')
    (space : ∀ j, (q j).vm = (s.taskQueue j).vm ∧ (q j).pml4e = (s.taskQueue j).pml4e)
    (states : ∀ j, s.User j → (q j).state ≠ .ready) :
    Accounts s { s with taskQueue := q } ∧ Accounted { s with taskQueue := q } := by
  have users (j : Int) : (q j).vm ≠ [] ↔ s.User j := by
    unfold System.User
    rw [(space j).1]
  have before {j} (live : System.Live { s with taskQueue := q } j) : s.Live j := by
    have userJ := (users j).mp live.1
    exact ⟨userJ, acc.live j userJ⟩
  have keeps : Keeps s use { s with taskQueue := q } := by
    refine ⟨.refl _, .of_mem fun _ _ _ _ => rfl,
      fun j live => ⟨⟨(users j).mpr live.1, states j live.1⟩, (space j).2⟩,
      fun j v e _ _ found => found, fun j v e live _ found => Or.inl ⟨before live, ?_⟩⟩
    rw [(space j).2] at found
    exact found
  refine ⟨keeps.accounts acc inv inv', keeps.accounted acc inv inv' (fun j userJ => ?_)
    fun j userJ => ?_⟩
  · exact states j ((users j).mp userJ)
  · have old := (users j).mp userJ
    exact Or.inl ⟨old, acc.live j old⟩

/-- A fault where nothing is mapped. -/
theorem Accounted.fault (acc : Accounted s) (inv : Consistent s use) (inv' : Consistent s' use')
    (user : s.User i) (absent : checkValid (s.taskQueue i).vm v = some true →
      s.machine.translate (s.taskQueue i).pml4e v = none)
    (ran : s.fault i v = some s') : Accounts s s' ∧ Accounted s' := by
  rcases System.fault_iff.mp ran with ⟨_, rfl⟩ | ⟨m, handled, rfl⟩
  · refine acc.requeued inv inv' (terminate_space s.taskQueue i (s.taskQueue i).pid)
      fun j userJ => ?_
    have busy := acc.live j userJ
    rw [terminate_state]
    split
    · nofun
    · split
      · nofun
      · exact busy
  · have valid := (isr14_resumed handled).1
    have address := (inv.layout i user).user valid
    have unmapped := absent valid
    have root := inv.root i user
    obtain ⟨supplied, kept⟩ := inv.sound.isr14_supplied root address unmapped handled
    obtain ⟨use1, repaired⟩ := inv.sound.isr14 root (fun _ => address)
      (fun _ e found => by simp [unmapped] at found) handled
    exact acc.supplied inv inv' user supplied
      (fun r table other => repaired.within.translate inv.sound table other) kept
      (fun _ => ⟨Iff.rfl, rfl⟩) acc.live

theorem Accounted.store {b : Byte} (acc : Accounted s) (inv : Consistent s use)
    (keeps : KeepsPages s (.store i v b)) (ran : s.step (.store i v b) = some s') :
    Accounts s s' ∧ Accounted s' := by
  obtain ⟨use2, inv'⟩ := inv.next ran
  obtain ⟨user, moved⟩ := System.step_store.mp ran
  have root := inv.root i user
  rcases moved with ⟨allowed, m, stored, rfl⟩ | ⟨refused, ran⟩
  · have address := inv.sound.user_of_permits root (by decide) (by decide) allowed
    obtain ⟨_, e, found, rfl⟩ := inv.sound.storeByte root address stored
    have data := (inv.sound.translate_facts root address found).2.1
    have written : ∀ x, use x ≠ .data → use x ≠ .free → (s.machine.write (frame e) (v % 4096 / 8)
        (setByte (s.machine.mem (frame e) (v % 4096 / 8)) (v % 8) b)).mem x = s.machine.mem x :=
      fun x other _ => write_mem_of_ne _ _ _ _ (by rintro rfl; exact other data)
    exact acc.supplied inv inv' user (inv.sound.supplied_of_data root rfl rfl written)
      (fun r table _ => inv.sound.translate_data table written)
      (fun w e' _ found' => (inv.sound.translate_data root written w).trans found')
      (fun _ => ⟨Iff.rfl, rfl⟩) acc.live
  · refine acc.fault inv inv' user (fun valid => ?_) ran
    rcases keeps with absent | allowed | invalid
    · exact absent
    · exact absurd allowed refused
    · exact absurd valid invalid

theorem Accounted.load (acc : Accounted s) (inv : Consistent s use)
    (ran : s.step (.load i v) = some s') : Accounts s s' ∧ Accounted s' := by
  obtain ⟨use2, inv'⟩ := inv.next ran
  obtain ⟨user, ⟨_, rfl⟩ | ⟨refused, ran⟩⟩ := System.step_load.mp ran
  · exact acc.requeued inv inv (fun _ => ⟨rfl, rfl⟩) acc.live
  · exact acc.fault inv inv' user (fun valid => inv.sound.not_mapped (inv.root i user) refused
      ((inv.layout i user).user valid)) ran

theorem Accounted.turn {state : TaskState} (acc : Accounted s) (inv : Consistent s use)
    (ran : s.step (.turn i state) = some s') : Accounts s s' ∧ Accounted s' := by
  obtain ⟨use2, inv'⟩ := inv.next ran
  obtain ⟨busy, rfl⟩ := System.step_turn.mp ran
  refine acc.requeued inv inv' (setState_space s.taskQueue i state) fun j userJ => ?_
  rw [setState_state]
  split
  · exact busy
  · exact acc.live j userJ

/-! ## fork -/

/-- The pages that task `i` maps to `f`. -/
theorem pages_encard (live : s.Live i) (f : Word) : {k | (i, k) ∈ s.mappings f}.encard =
    (s.machine.references 3 (s.taskQueue i).pml4e f userPages : ℕ∞) := by
  have same : {k | (i, k) ∈ s.mappings f} = ((Finset.range userPages).filter fun k =>
      (s.machine.leafEntry 3 (s.taskQueue i).pml4e k).map frame = some f : Finset Nat) := by
    ext k
    rw [Finset.coe_filter]
    constructor
    · rintro ⟨_, small, e, found, leads⟩
      refine ⟨Finset.mem_range.mpr small, ?_⟩
      rw [leafEntry_translate _ _ small, found]
      exact congrArg some leads
    · rintro ⟨member, leads⟩
      have small := Finset.mem_range.mp member
      rw [leafEntry_translate _ _ small] at leads
      obtain ⟨e, found, leads⟩ := Option.map_eq_some_iff.mp leads
      exact ⟨live, small, e, found, leads⟩
  rw [same, Set.encard_coe_eq_coe_finsetCard]
  unfold references
  rw [Nat.count_eq_card_filter_range]

/-- In `s'`, slot `c` has a copy of the address space of task `i`. -/
structure Twin (s : System) (use : Word → Use) (i c : Int) (s' : System) : Prop where
  user : s.Live i
  spare : ¬s.Live c
  live : ∀ j, s'.Live j ↔ j = c ∨ s.Live j
  root : ∀ j, s.Live j → (s'.taskQueue j).pml4e = (s.taskQueue j).pml4e
  stay : TablesStay s.machine use s'.machine
  counts : ∀ f, f ∉ s.machine.head → s'.machine.refCount f =
    s.machine.refCount f + s.machine.references 3 (s.taskQueue i).pml4e f userPages
  child : ∀ v, UserAddress v → s'.machine.translate (s'.taskQueue c).pml4e v =
    (s.machine.translate (s.taskQueue i).pml4e v).map share
  parent : ∀ v, UserAddress v → s'.machine.translate (s.taskQueue i).pml4e v =
    (s.machine.translate (s.taskQueue i).pml4e v).map share
  others : ∀ j, s.Live j → j ≠ i → ∀ v, s'.machine.translate (s.taskQueue j).pml4e v =
    s.machine.translate (s.taskQueue j).pml4e v

variable {c : Int}

/-- Marking an entry as shared does not change where it leads. -/
theorem Twin.old (twin : Twin s use i c s') (live : s.Live j) (user : UserAddress v) :
    (s'.machine.translate (s'.taskQueue j).pml4e v).map frame =
      (s.machine.translate (s.taskQueue j).pml4e v).map frame := by
  rw [twin.root j live]
  by_cases here : j = i
  · subst here
    rw [twin.parent v user]
    cases s.machine.translate (s.taskQueue j).pml4e v <;> simp
  · rw [twin.others j live here]

theorem Twin.mappings (twin : Twin s use i c s') (f : Word) : s'.mappings f =
    s.mappings f ∪ Prod.mk c '' {k | (i, k) ∈ s.mappings f} := by
  have leads (m : Machine) (r : Word) (v : Nat) : (∃ e, m.translate r v = some e ∧ frame e = f) ↔
      (m.translate r v).map frame = some f := Option.map_eq_some_iff.symm
  ext ⟨j, k⟩
  unfold System.mappings
  simp only [leads, Set.mem_ofPred_eq, Set.mem_union, Set.mem_image, Prod.mk.injEq]
  constructor
  · rintro ⟨live, small, found⟩
    rcases (twin.live j).mp live with rfl | liveJ
    · rw [twin.child _ (user_of_page small)] at found
      refine Or.inr ⟨k, ⟨twin.user, small, ?_⟩, rfl, rfl⟩
      rw [← found]
      cases s.machine.translate (s.taskQueue i).pml4e (4096 * k) <;> simp
    · rw [twin.old liveJ (user_of_page small)] at found
      exact Or.inl ⟨liveJ, small, found⟩
  · rintro (⟨liveJ, small, found⟩ | ⟨k', ⟨_, small, found⟩, rfl, rfl⟩)
    · refine ⟨(twin.live j).mpr (Or.inr liveJ), small, ?_⟩
      rw [twin.old liveJ (user_of_page small)]
      exact found
    · refine ⟨(twin.live c).mpr (Or.inl rfl), small, ?_⟩
      rw [twin.child _ (user_of_page small), ← found]
      cases s.machine.translate (s.taskQueue i).pml4e (4096 * k') <;> simp

theorem Twin.counted (twin : Twin s use i c s') (acc : Accounted s) (inv : Consistent s use)
    (mapped : (s'.mappings f).Nonempty) :
    (s'.machine.refCount f : ℕ∞) = (s'.mappings f).encard := by
  have before : (s.mappings f).Nonempty := by
    obtain ⟨x, member⟩ := mapped
    rw [twin.mappings f] at member
    rcases member with old | ⟨k, member, _⟩
    · exact ⟨x, old⟩
    · exact ⟨(i, k), member⟩
  have apart : Disjoint (s.mappings f) (Prod.mk c '' {k | (i, k) ∈ s.mappings f}) := by
    rw [Set.disjoint_left]
    rintro _ old ⟨k, _, rfl⟩
    exact twin.spare old.1
  have injective : Function.Injective (Prod.mk c : Nat → Int × Nat) :=
    fun _ _ same => (Prod.mk.inj same).2
  rw [twin.counts f (inv.mapped_taken before), twin.mappings f, Set.encard_union_eq apart,
    injective.encard_image, pages_encard twin.user, Nat.cast_add, acc.counted f before]

theorem Twin.accounts (twin : Twin s use i c s') (acc : Accounted s) (inv : Consistent s use) :
    Accounts s s' := by
  refine ⟨fun f mapped => twin.counted acc inv ?_, fun f reached => Or.inl ?_⟩
  · rcases mapped with before | after
    · rw [twin.mappings f]
      exact before.mono Set.subset_union_left
    · exact after
  · refine inv.reachable_stays twin.stay
      (fun j live => ⟨(twin.live j).mpr (Or.inr live), twin.root j live⟩)
      (fun j v e live user found => ?_) f reached
    have same := twin.old live user
    rw [found, twin.root j live] at same
    exact Option.map_eq_some_iff.mp same

/-- The child in slot `c` is a twin of its parent. -/
theorem Consistent.fork_twin {m : Machine} {pml4e : Word} (inv : Consistent s use)
    (user : s.User i) (busy : (s.taskQueue i).state ≠ .ready)
    (slot : firstSlot (checkTaskState s.taskQueue) = some c)
    (copied : copySpace (s.taskQueue i) s.machine = some (pml4e, m)) :
    Twin s use i c
      ⟨m, increaseChildCount (createChild s.taskQueue i pml4e (s.taskQueue i).vm) i⟩ := by
  have free : (s.taskQueue c).state = .ready := by
    simpa [checkTaskState] using (firstSlot_some slot).2
  have other : c ≠ i := by
    rintro rfl
    exact busy free
  have root := inv.root i user
  obtain ⟨use1, copy⟩ := inv.sound.copySpace root copied
  have doubled := inv.sound.copySpace_doubled root copied
  have space := fork_space pml4e (s.taskQueue i).vm slot other
  have pid : newPID s.taskQueue = c := by rw [newPID, slot]; rfl
  have away {j} (live : s.Live j) : j ≠ c := by
    rintro rfl
    exact live.2 free
  have live (j : Int) : System.Live ⟨m, increaseChildCount
      (createChild s.taskQueue i pml4e (s.taskQueue i).vm) i⟩ j ↔ j = c ∨ s.Live j := by
    unfold System.Live System.User
    dsimp only
    rw [(space j).1, increaseChildCount_state, createChild_state, pid]
    by_cases here : j = c
    · simp only [here, if_true, true_or, iff_true]
      refine ⟨user, fun ready => ?_⟩
      cases ready
    · simp [here]
  have rootC := (space c).2
  rw [if_pos rfl] at rootC
  refine ⟨⟨user, busy⟩, fun live => live.2 free, live, fun j liveJ => ?_, doubled.stay,
    doubled.counts, fun v address => ?_, fun v address => (doubled.copied v address).2,
    fun j liveJ apart v => ?_⟩
  · have same := (space j).2
    rwa [if_neg (away liveJ)] at same
  · dsimp only
    rw [rootC]
    exact (doubled.copied v address).1
  · refine copy.spares.translate _ (inv.root j liveJ.1) ?_ v
    rintro (same | same)
    · exact apart (inv.apart j i liveJ.1 user same)
    · exact inv.new copy.spare liveJ.1 same

theorem Accounted.fork (acc : Accounted s) (inv : Consistent s use)
    (ran : s.step (.fork i) = some s') : Accounts s s' ∧ Accounted s' := by
  obtain ⟨use2, inv'⟩ := inv.next ran
  obtain ⟨⟨user, busy⟩, c, slot, pml4e, m, copied, rfl⟩ := System.step_fork.mp ran
  have twin := inv.fork_twin user busy slot copied
  -- A task afterwards is the child or was one before.
  have old {j} (userJ : System.User ⟨m, increaseChildCount
      (createChild s.taskQueue i pml4e (s.taskQueue i).vm) i⟩ j) : j = c ∨ s.Live j := by
    have other : c ≠ i := by
      rintro rfl
      exact twin.spare twin.user
    have space := (fork_space pml4e (s.taskQueue i).vm slot other j).1
    by_cases here : j = c
    · exact Or.inl here
    · rw [if_neg here] at space
      unfold System.User at userJ
      rw [space] at userJ
      exact Or.inr ⟨userJ, acc.live j userJ⟩
  refine ⟨twin.accounts acc inv, ⟨⟨use2, inv'⟩, fun j userJ => ?_, fun j userJ => ?_,
    fun f mapped => twin.counted acc inv mapped⟩⟩
  · exact ((twin.live j).mpr (old userJ)).2
  · have inStack : UserAddress stackS := user_of_small (by decide)
    rcases old userJ with rfl | liveJ
    · obtain ⟨e, found⟩ := Option.ne_none_iff_exists'.mp (acc.stack i user)
      rw [twin.child stackS inStack, found]
      nofun
    · obtain ⟨e, found⟩ := Option.ne_none_iff_exists'.mp (acc.stack j liveJ.1)
      have kept := twin.old liveJ inStack
      rw [found] at kept
      intro missing
      rw [missing] at kept
      cases kept

end LateOS
