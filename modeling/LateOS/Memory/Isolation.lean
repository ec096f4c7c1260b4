import LateOS.Memory.System

/-!
# Private memories

Copy-on-write gives every task a memory of its own. The abstract system has one memory for
each task, which `fork` copies and a store changes in one byte; the tasks of the real system
read what is in theirs.
-/
namespace LateOS

open Lib Machine

variable {s s' : System} {use use' : Word → Use} {m m' : Machine} {q : TaskQueue} {i j c : Int}

/-! ## What the table functions do to address spaces -/

theorem terminate_space (q : TaskQueue) (i pid : Int) (j : Int) :
    (terminate q i pid j).vm = (q j).vm ∧ (terminate q i pid j).pml4e = (q j).pml4e := by
  have reparented : ∀ q : TaskQueue, (reparent q pid j).vm = (q j).vm ∧
      (reparent q pid j).pml4e = (q j).pml4e := by
    intro q
    unfold reparent
    split <;> exact ⟨rfl, rfl⟩
  have woken : ∀ q : TaskQueue, (wakeParent q i j).vm = (q j).vm ∧
      (wakeParent q i j).pml4e = (q j).pml4e := by
    intro q
    unfold wakeParent
    split
    · exact setState_space q _ _ j
    · exact ⟨rfl, rfl⟩
  obtain ⟨vm1, pml41⟩ := woken (reparent (setState q i .zombie) pid)
  obtain ⟨vm2, pml42⟩ := reparented (setState q i .zombie)
  obtain ⟨vm3, pml43⟩ := setState_space q i .zombie j
  exact ⟨vm1.trans (vm2.trans vm3), pml41.trans (pml42.trans pml43)⟩

/-- The table after `fork` from slot `i` into the free slot `c`. -/
theorem fork_space (pml4e : Word) (vm : List VmaStruct)
    (slot : firstSlot (checkTaskState q) = some c) (other : c ≠ i) (j : Int) :
    let q' := increaseChildCount (createChild q i pml4e vm) i
    (q' j).vm = (if j = c then vm else (q j).vm) ∧
      (q' j).pml4e = (if j = c then pml4e else (q j).pml4e) := by
  have child : newPID q = c := by rw [newPID, slot]; rfl
  unfold increaseChildCount createChild copytask
  rw [child]
  by_cases atI : j = i
  · subst atI
    simp [Ne.symm other]
  · by_cases atC : j = c
    · subst atC
      simp [atI]
    · simp [atI, atC]

/-! ## Steps -/

/-- The memories of the tasks, by slot and address. -/
abbrev Memories := Int → Nat → Option Byte

/-- What a step means for private memories: a store that the hardware lets through changes one
byte, `fork` copies a memory, and what maps new pages for a task is not followed. -/
def record (s : System) (mems : Memories) : Request → Memories
  | .store i v b =>
    if s.machine.permits 7 (s.taskQueue i).pml4e v then
      fun j w => if j = i ∧ SameByte v w then some b else mems j w
    else mems
  | .fork i =>
    match firstSlot (checkTaskState s.taskQueue) with
    | some c => Function.update mems c (mems i)
    | none => mems
  | .create _ _ =>
    match firstSlot (checkTaskState s.taskQueue) with
    | some c => Function.update mems c fun _ => none
    | none => mems
  | .exec i _ _ _ | .malloc i _ | .reap i => Function.update mems i fun _ => none
  | .load _ _ | .turn _ _ => mems

/-- The tasks read the bytes of their memories. -/
def Holds (mems : Memories) (s : System) : Prop :=
  ∀ i v b, s.User i → UserAddress v → mems i v = some b →
    s.machine.byteAt (s.taskQueue i).pml4e v = some b

/-- Only the memory of slot `i`, and what belongs to `roots`, may have changed. -/
theorem Holds.spared {mems : Memories} {roots : Set Word} (holds : Holds mems s)
    (inv : Consistent s use) (spares : Spares roots s.machine use m use')
    (away : ∀ j, j ≠ i → s.User j → (s.taskQueue j).pml4e ∉ roots)
    (others : ∀ j, j ≠ i → (q j).vm = (s.taskQueue j).vm ∧ (q j).pml4e = (s.taskQueue j).pml4e) :
    Holds (Function.update mems i fun _ => none) ⟨m, q⟩ := by
  intro j v b user address expected
  by_cases here : j = i
  · subst here
    simp at expected
  · rw [Function.update_of_ne here] at expected
    have user' : s.User j := by
      unfold System.User at user ⊢
      rw [← (others j here).1]
      exact user
    change m.byteAt (q j).pml4e v = some b
    rw [(others j here).2, spares.byteAt _ (inv.root j user') (away j here user') v address]
    exact holds j v b user' address expected

theorem Consistent.away (inv : Consistent s use) (user : s.User i) :
    ∀ j, j ≠ i → s.User j → (s.taskQueue j).pml4e ∉ ({(s.taskQueue i).pml4e} : Set Word) :=
  fun j other userJ same => other (inv.apart j i userJ user same)

theorem Consistent.fault {mems : Memories} {v : Nat} (inv : Consistent s use) (user : s.User i)
    (holds : Holds mems s)
    (faulted : UserAddress v → ∀ e, s.machine.translate (s.taskQueue i).pml4e v = some e →
      e &&& 2 = 0)
    (ran : s.fault i v = some s') : (∃ use', Consistent s' use') ∧ Holds mems s' := by
  rcases System.fault_iff.mp ran with ⟨_, rfl⟩ | ⟨m, handled, rfl⟩
  · have space := terminate_space s.taskQueue i (s.taskQueue i).pid
    refine ⟨⟨use, ?_⟩, ?_⟩
    · refine inv.own user inv.sound (fun _ _ => rfl) (List.suffix_refl _) (fun j _ => space j)
        (space i).2 ?_
      rw [(space i).1]
      exact inv.layout i user
    · intro j w b userJ address expected
      dsimp only [System.User] at userJ ⊢
      rw [(space j).1] at userJ
      rw [(space j).2]
      exact holds j w b userJ address expected
  · obtain ⟨use', repaired⟩ := inv.sound.isr14 (inv.root i user) (inv.layout i user).user faulted
      handled
    have spares := repaired.within.spares inv.sound
    refine ⟨⟨use', inv.own user repaired.sound spares.kept spares.head (fun _ _ => ⟨rfl, rfl⟩) rfl
      ((inv.layout i user).mono spares.head.length_le)⟩, ?_⟩
    intro j w b userJ address expected
    have before := holds j w b userJ address expected
    by_cases here : j = i
    · subst here
      exact repaired.kept w b address before
    · have untouched := spares.byteAt _ (inv.root j userJ)
        (fun same => here (inv.apart j i userJ user same)) w address
      exact untouched.trans before

theorem update_space {ts : TaskStruct} (j : Int) (other : j ≠ i) :
    (Function.update q i ts j).vm = (q j).vm ∧ (Function.update q i ts j).pml4e = (q j).pml4e := by
  rw [Function.update_of_ne other]
  exact ⟨rfl, rfl⟩

theorem Consistent.create {mems : Memories} {file : Image} {filename : List UInt8}
    (inv : Consistent s use) (holds : Holds mems s)
    (ran : s.step (.create file filename) = some s') :
    (∃ use', Consistent s' use') ∧ Holds (record s mems (.create file filename)) s' := by
  obtain ⟨pid, slot, short, ts, m, created, rfl⟩ := System.step_create.mp ran
  obtain ⟨r, use', born, shape⟩ := inv.sound.createNewTask short created
  have pml4e : ts.pml4e = r := by rw [shape]
  have layout : Layout ts.vm m.head.length := by
    rw [shape]
    exact file.layout (fun node member => by cases member)
      (born.spares.head.length_le.trans inv.few)
  refine ⟨⟨use', ?_⟩, ?_⟩
  · refine inv.change (i := pid) born.after.sound born.spares.kept born.spares.head
      update_space ?_ (fun j _ user => ?_) ?_
    · rw [Function.update_self, pml4e]
      exact born.after.root
    · rw [Function.update_self, pml4e]
      exact inv.new born.spare user
    · rw [Function.update_self]
      exact layout
  · simp only [record, slot]
    exact holds.spared inv born.spares (fun j _ user same => inv.new born.spare user same)
      update_space

theorem Consistent.fork {mems : Memories} (inv : Consistent s use) (holds : Holds mems s)
    (ran : s.step (.fork i) = some s') :
    (∃ use', Consistent s' use') ∧ Holds (record s mems (.fork i)) s' := by
  obtain ⟨⟨user, busy⟩, c, slot, pml4e, m, copied, rfl⟩ := System.step_fork.mp ran
  have free := (firstSlot_some slot).2
  -- The child's slot was free, the parent's is not.
  have other : c ≠ i := by
    rintro rfl
    exact busy (by simpa [checkTaskState] using free)
  obtain ⟨use', copy⟩ := inv.sound.copySpace (inv.root i user) copied
  have space := fork_space pml4e (s.taskQueue i).vm slot other
  have root := inv.root i user
  have new {j} (userJ : s.User j) : (s.taskQueue j).pml4e ≠ pml4e := inv.new copy.spare userJ
  have others {j} (away : j ≠ c) := by
    have both := space j
    simp only [away, if_false] at both
    exact both
  have child := by
    have both := space c
    simp only [if_true] at both
    exact both
  refine ⟨⟨use', ?_⟩, ?_⟩
  · refine inv.change (i := c) copy.sound copy.spares.kept copy.spares.head
      (fun j away => others away) ?_ (fun j _ userJ => ?_) ?_
    · rw [child.2]
      exact copy.root
    · rw [child.2]
      exact new userJ
    · rw [child.1]
      exact (inv.layout i user).mono copy.spares.head.length_le
  · intro j v b userJ address expected
    simp only [record, slot] at expected
    by_cases atC : j = c
    · subst atC
      rw [Function.update_self] at expected
      have before := holds i v b user address expected
      rw [child.2, copy.child v address]
      exact before
    · rw [Function.update_of_ne atC] at expected
      have userJ' : s.User j := by
        unfold System.User at userJ ⊢
        rw [← (others atC).1]
        exact userJ
      have before := holds j v b userJ' address expected
      rw [(others atC).2]
      by_cases atI : j = i
      · subst atI
        rw [copy.parent v address]
        exact before
      · rw [copy.spares.byteAt _ (inv.root j userJ') ?_ v address]
        · exact before
        · rintro (same | same)
          · exact atI (inv.apart j i userJ' user same)
          · exact new userJ' same

theorem Consistent.exec {mems : Memories} {file : Image} {name : List UInt8}
    {args : List (List Byte)} (inv : Consistent s use) (holds : Holds mems s)
    (ran : s.step (.exec i file name args) = some s') :
    (∃ use', Consistent s' use') ∧ Holds (record s mems (.exec i file name args)) s' := by
  obtain ⟨⟨user, _, fits⟩, ts, m, started, rfl⟩ := System.step_exec.mp ran
  have root : use ({ s.taskQueue i with name := name } : TaskStruct).pml4e =
    .table ({ s.taskQueue i with name := name } : TaskStruct).pml4e [] := inv.root i user
  obtain ⟨shape, use', loaded⟩ := inv.sound.execImage root fits_nil fits started
  have pml4e : ts.pml4e = (s.taskQueue i).pml4e := by rw [shape]
  refine ⟨⟨use', ?_⟩, ?_⟩
  · refine inv.own user loaded.after.sound loaded.spares.kept loaded.spares.head update_space ?_ ?_
    · rw [Function.update_self]
      exact pml4e
    · rw [Function.update_self, shape]
      exact file.layout (inv.layout i user).ranges (loaded.spares.head.length_le.trans inv.few)
  · exact holds.spared inv loaded.spares (inv.away user) update_space

theorem Consistent.malloc {mems : Memories} {n : Int} (inv : Consistent s use)
    (holds : Holds mems s) (ran : s.step (.malloc i n) = some s') :
    (∃ use', Consistent s' use') ∧ Holds (record s mems (.malloc i n)) s' := by
  obtain ⟨user, ret, ts, m, grown, rfl⟩ := System.step_malloc.mp ran
  obtain ⟨vm, use', rfl, layout, sound, within⟩ := inv.sound.malloc (inv.root i user)
    (inv.layout i user) grown
  have spares := within.spares inv.sound
  refine ⟨⟨use', ?_⟩, ?_⟩
  · refine inv.own user sound spares.kept spares.head update_space ?_ ?_
    · rw [Function.update_self]
    · rw [Function.update_self]
      exact layout
  · exact holds.spared inv spares (inv.away user) update_space

theorem Consistent.store {mems : Memories} {v : Nat} {b : Byte} (inv : Consistent s use)
    (holds : Holds mems s) (ran : s.step (.store i v b) = some s') :
    (∃ use', Consistent s' use') ∧ Holds (record s mems (.store i v b)) s' := by
  obtain ⟨user, moved⟩ := System.step_store.mp ran
  have root := inv.root i user
  rcases moved with ⟨allowed, m, stored, rfl⟩ | ⟨refused, ran⟩
  · have address := inv.sound.user_of_permits root (by decide) (by decide) allowed
    obtain ⟨sound, _, _, rfl⟩ := inv.sound.storeByte root address stored
    -- The hardware only lets the store through where the page is not shared.
    have alone : ∀ e, s.machine.translate (s.taskQueue i).pml4e v = some e → ¬Shared e := by
      intro e found shared
      obtain ⟨e', found', flags⟩ := translate_of_permits (by decide) allowed
      rw [found] at found'
      cases found'
      have writable : e &&& 2 = 2 := and_of_and flags (by decide)
      rw [shared.1] at writable
      exact absurd writable (by decide)
    refine ⟨⟨use, inv.own user sound (fun _ _ => rfl) (List.suffix_refl _)
      (fun _ _ => ⟨rfl, rfl⟩) rfl (inv.layout i user)⟩, ?_⟩
    intro j w c userJ there expected
    have byte := inv.sound.byteAt_store root address stored alone (inv.root j userJ) there
    simp only [record, allowed, if_true] at expected
    refine byte.trans ?_
    -- The one byte that the store is for, or any other byte of any task.
    by_cases same : j = i ∧ SameByte v w
    · rw [if_pos same] at expected
      rw [if_pos ⟨by rw [same.1], same.2⟩]
      exact expected
    · rw [if_neg same] at expected
      rw [if_neg fun both => same ⟨inv.apart j i userJ user both.1, both.2⟩]
      exact holds j w c userJ there expected
  · simp only [record, refused]
    exact inv.fault user holds (fun address e found =>
      inv.sound.not_writable root refused address found) ran

theorem Consistent.load {mems : Memories} {v : Nat} (inv : Consistent s use)
    (holds : Holds mems s) (ran : s.step (.load i v) = some s') :
    (∃ use', Consistent s' use') ∧ Holds (record s mems (.load i v)) s' := by
  obtain ⟨user, ⟨_, rfl⟩ | ⟨refused, ran⟩⟩ := System.step_load.mp ran
  · exact ⟨⟨use, inv⟩, holds⟩
  · refine inv.fault user holds (fun address e found => ?_) ran
    rw [inv.sound.not_mapped (inv.root i user) refused address] at found
    cases found

theorem Consistent.reap {mems : Memories} (inv : Consistent s use) (holds : Holds mems s)
    (ran : s.step (.reap i) = some s') :
    (∃ use', Consistent s' use') ∧ Holds (record s mems (.reap i)) s' := by
  obtain ⟨⟨user, _⟩, m, cleared, rfl⟩ := System.step_reap.mp ran
  obtain ⟨m', same, down⟩ := inv.sound.deallocTask (inv.root i user)
  rw [cleared] at same
  cases same
  have spares := down.within.spares inv.sound
  have space := setState_space s.taskQueue i .ready
  refine ⟨⟨use, ?_⟩, ?_⟩
  · refine inv.own user down.sound spares.kept spares.head (fun j _ => space j) (space i).2 ?_
    rw [(space i).1]
    exact (inv.layout i user).mono spares.head.length_le
  · exact holds.spared inv spares (inv.away user) fun j _ => space j

theorem Consistent.turn {mems : Memories} {state : TaskState} (inv : Consistent s use)
    (holds : Holds mems s) (ran : s.step (.turn i state) = some s') :
    (∃ use', Consistent s' use') ∧ Holds (record s mems (.turn i state)) s' := by
  obtain ⟨_, rfl⟩ := System.step_turn.mp ran
  have space := setState_space s.taskQueue i state
  have user {j} (user : System.User { s with taskQueue := setState s.taskQueue i state } j) :
      s.User j := by
    unfold System.User at user ⊢
    rw [← (space j).1]
    exact user
  refine ⟨⟨use, inv.sound, inv.few, fun j userJ => ?_, fun j k userJ userK same => ?_,
    fun j userJ => ?_⟩, fun j v b userJ address expected => ?_⟩
  · rw [(space j).2]
    exact inv.root j (user userJ)
  · rw [(space j).2, (space k).2] at same
    exact inv.apart j k (user userJ) (user userK) same
  · rw [(space j).1]
    exact inv.layout j (user userJ)
  · rw [(space j).2]
    exact holds j v b (user userJ) address expected

/-- Every step keeps the invariant, and private memories stay what the tasks read. -/
theorem Consistent.step {mems : Memories} {a : Request} (inv : Consistent s use)
    (holds : Holds mems s) (ran : s.Step a s') :
    (∃ use', Consistent s' use') ∧ Holds (record s mems a) s' := by
  cases a with
  | create file filename => exact inv.create holds ran
  | fork i => exact inv.fork holds ran
  | exec i file name args => exact inv.exec holds ran
  | malloc i n => exact inv.malloc holds ran
  | store i v b => exact inv.store holds ran
  | load i v => exact inv.load holds ran
  | reap i => exact inv.reap holds ran
  | turn i state => exact inv.turn holds ran

/-- The invariant by itself: with nothing expected of any byte the memories hold. -/
theorem Consistent.next {a : Request} (inv : Consistent s use) (ran : s.Step a s') :
    ∃ use', Consistent s' use' := by
  have holds : Holds (fun _ _ => none) s := fun _ _ _ _ _ expected => by cases expected
  exact (inv.step holds ran).1

/-! ## Runs -/

theorem Consistent.run {run : List (Request × System)} (inv : ∃ use, Consistent s use)
    (along : Along System.Step s run) : ∃ use, Consistent (lastState s run) use := by
  refine along.invariant_last (I := fun s => ∃ use, Consistent s use) ?_ inv
  rintro s a t ⟨use, inv⟩ step
  exact inv.next step

/-- The private memories at the end of a run. -/
def replay : Memories → System → List (Request × System) → Memories
  | mems, _, [] => mems
  | mems, s, (a, t) :: rest => replay (record s mems a) t rest

theorem Holds.run {mems : Memories} {run : List (Request × System)} (inv : ∃ use, Consistent s use)
    (holds : Holds mems s) (along : Along System.Step s run) :
    Holds (replay mems s run) (lastState s run) := by
  induction run generalizing s mems with
  | nil => exact holds
  | cons head rest ih =>
    obtain ⟨a, t⟩ := head
    rw [along_cons] at along
    obtain ⟨use, inv⟩ := inv
    obtain ⟨inv', holds'⟩ := inv.step holds along.1
    exact ih inv' holds' along.2

end LateOS
