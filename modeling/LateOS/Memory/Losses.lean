import LateOS.Memory.Accounts
import LateOS.Memory.Exec

/-!
# Frames that are lost

`exec`, the copy of a shared page, the growth of a heap over mapped pages and the reaping of a task
take pages from a task. Nothing counts their frames down or puts them back on the free list.
-/
namespace LateOS

open Lib Machine

variable {s s' : System} {use use' : Word → Use} {a : Request} {i j : Int} {f : Word} {v k : Nat}

/-! ## Steps that take a page away -/

/-- A frame that loses a mapping and keeps its count. -/
theorem Accounted.lost {x : Int × Nat} (acc : Accounted s) (member : x ∈ s.mappings f)
    (count : s'.machine.refCount f = s.machine.refCount f)
    (fewer : s'.mappings f ⊆ s.mappings f) (gone : x ∉ s'.mappings f) : ¬Accounts s s' := by
  intro accounts
  have mapped : (s.mappings f).Nonempty := ⟨x, member⟩
  have now := accounts.counts f (Or.inl mapped)
  rw [count, acc.counted f mapped] at now
  have finite : (s.mappings f).Finite := by
    rw [← Set.encard_ne_top_iff, ← acc.counted f mapped]
    exact ENat.natCast_ne_top _
  have less := (finite.subset fewer).encard_lt_encard ⟨fewer, fun same => gone (same member)⟩
  rw [now] at less
  exact absurd less (lt_irrefl _)

/-- A page of task `i` gets another frame, or none. -/
theorem Accounted.moved {m : Machine} {q : TaskQueue} {e : Word} (acc : Accounted s)
    (inv : Consistent s use) (user : s.User i) (handed : Handed s.machine m)
    (others : ∀ r, use r = .table r [] → r ≠ (s.taskQueue i).pml4e → ∀ v,
      m.translate r v = s.machine.translate r v)
    (pages : ∀ v e, UserAddress v → m.translate (s.taskQueue i).pml4e v = some e →
      s.machine.translate (s.taskQueue i).pml4e v = some e ∨ frame e ∈ s.machine.head)
    (userV : UserAddress v) (found : s.machine.translate (s.taskQueue i).pml4e v = some e)
    (gone : ∀ e', m.translate (s.taskQueue i).pml4e v = some e' → frame e' ∈ s.machine.head)
    (space : ∀ j, System.User ⟨m, q⟩ j → s.User j)
    (same : ∀ j, (q j).pml4e = (s.taskQueue j).pml4e) : ¬Accounts s ⟨m, q⟩ := by
  obtain ⟨k, small, page⟩ := page_of_user userV
  have member : (i, k) ∈ s.mappings (frame e) := by
    refine ⟨⟨user, acc.live i user⟩, small, e, ?_, rfl⟩
    rw [translate_samePage _ _ page]
    exact found
  have taken : frame e ∉ s.machine.head := inv.mapped_taken ⟨_, member⟩
  refine acc.lost member (handed.rest _ taken) ?_ ?_
  · rintro ⟨j, l⟩ ⟨live, small', e', found', leads⟩
    have userJ := space j live.1
    refine ⟨⟨userJ, acc.live j userJ⟩, small', e', ?_, leads⟩
    change m.translate (q j).pml4e (4096 * l) = some e' at found'
    rw [same j] at found'
    by_cases here : j = i
    · subst here
      rcases pages _ e' (user_of_page small') found' with before | free
      · exact before
      · rw [leads] at free
        exact absurd free taken
    · rw [others _ (inv.root j userJ) (inv.away user j here userJ)] at found'
      exact found'
  · rintro ⟨_, _, e', found', leads⟩
    change m.translate (q i).pml4e (4096 * k) = some e' at found'
    rw [same i, translate_samePage _ _ page] at found'
    have free := gone e' found'
    rw [leads] at free
    exact taken free

/-- A task that gets a new structure keeps its place among the tasks. -/
theorem setTask_space (ts : TaskStruct) (m : Machine) (user : s.User i)
    (same : ts.pml4e = (s.taskQueue i).pml4e) (j : Int) :
    ((s.setTask i ts m).User j → s.User j) ∧
      ((s.setTask i ts m).taskQueue j).pml4e = (s.taskQueue j).pml4e := by
  by_cases here : j = i
  · subst here
    have own : (s.setTask j ts m).taskQueue j = ts := Function.update_self ..
    exact ⟨fun _ => user, by rw [own, same]⟩
  · refine ⟨fun userJ => ?_, (update_space j here).2⟩
    have rest : (s.setTask i ts m).taskQueue j = s.taskQueue j := Function.update_of_ne here ..
    unfold System.User at userJ
    rwa [rest] at userJ

theorem Accounted.exec_lost {file : Image} {name : List UInt8} {args : List (List Byte)}
    (acc : Accounted s) (inv : Consistent s use)
    (ran : s.step (.exec i file name args) = some s') : ¬Accounts s s' := by
  obtain ⟨⟨user, _, fits⟩, ts, m, started, rfl⟩ := System.step_exec.mp ran
  have root : use ({ s.taskQueue i with name := name } : TaskStruct).pml4e =
    .table ({ s.taskQueue i with name := name } : TaskStruct).pml4e [] := inv.root i user
  obtain ⟨shape, use1, loaded⟩ := inv.sound.execImage root fits_nil fits started
  obtain ⟨handed, fresh⟩ := inv.sound.execImage_started root fits_nil fits started
  have space := setTask_space ts m user (by rw [shape])
  -- The stack had a page, and what is there now has a frame that was free.
  obtain ⟨e, found⟩ := Option.ne_none_iff_exists'.mp (acc.stack i user)
  have inStack : UserAddress stackS := user_of_small (by decide)
  refine acc.moved inv user handed (fun r table other => loaded.spares.translate r table other)
    (fun v e' userV found' => Or.inr (fresh v e' userV found')) inStack found
    (fun e' found' => fresh stackS e' inStack found') (fun j => (space j).1) fun j => (space j).2

theorem Accounted.malloc_lost {n : Int} (acc : Accounted s) (inv : Consistent s use)
    (mapped : ¬KeepsPages s (.malloc i n)) (ran : s.step (.malloc i n) = some s') :
    ¬Accounts s s' := by
  obtain ⟨user, ret, ts, m, grown, rfl⟩ := System.step_malloc.mp ran
  have root := inv.root i user
  have layout := inv.layout i user
  have supplied := inv.sound.malloc_supplied root layout grown
  obtain ⟨vm, use1, rfl, _, _, within⟩ := inv.sound.malloc root layout grown
  obtain ⟨heap, rest, shape, room, _⟩ := layout
  obtain ⟨use2, frames, spread⟩ := inv.sound.malloc_pages root shape room grown
  have start : heapEnd (s.taskQueue i).vm = heap.lastAddress := by rw [shape]; rfl
  obtain ⟨p, below, there⟩ : ∃ p < requestPages n, s.machine.translate (s.taskQueue i).pml4e
      (heap.lastAddress + 4096 * p) ≠ none := by
    by_contra none
    refine mapped fun p below => ?_
    rw [start]
    by_contra there
    exact none ⟨p, below, there⟩
  obtain ⟨e, found⟩ := Option.ne_none_iff_exists'.mp there
  have space := setTask_space { s.taskQueue i with vm := vm } m user rfl
  refine acc.moved inv user supplied.handed
    (fun r table other => within.translate inv.sound table other)
    (fun v e' userV found' => ?_) (spread.user p below) found (fun e' found' => ?_)
    (fun j => (space j).1) fun j => (space j).2
  · exact (supplied.pages v e' userV found').imp_right And.left
  · -- The page has been mapped anew.
    have inside : p < frames.length := by rw [spread.length]; exact below
    have here := spread.here p _ (List.getElem?_eq_getElem inside) _ (.refl _)
    rw [here] at found'
    cases found'
    have member := (spread.free _ (List.getElem_mem inside)).1
    have aligned := inv.sound.aligned _ member
    have leads : frame (entry frames[p] 7) = frames[p] := by simp [aligned]
    rw [leads]
    exact member

/-- The handler copies a page that is there and shared. -/
theorem isr14_shared {m : Machine} {ts : TaskStruct} {e : Word}
    (valid : checkValid ts.vm v = some true) (found : m.translate ts.pml4e v = some e)
    (shared : Shared e) : m.isr14 ts v = (m.copyNewMemory ts.pml4e v).map .resumed := by
  obtain ⟨_, _, _, _, last⟩ := translate_eq_some.mp found
  refine isr14_marked valid ?_
  rw [last]
  exact shared.2

theorem Accounted.store_lost {b : Byte} (acc : Accounted s) (inv : Consistent s use)
    (copies : ¬KeepsPages s (.store i v b)) (ran : s.step (.store i v b) = some s') :
    ¬Accounts s s' := by
  obtain ⟨there, refused, valid⟩ : s.machine.translate (s.taskQueue i).pml4e v ≠ none ∧
      ¬s.machine.permits 7 (s.taskQueue i).pml4e v = true ∧
      checkValid (s.taskQueue i).vm v = some true := by
    simpa [KeepsPages, not_or] using copies
  obtain ⟨e, found⟩ := Option.ne_none_iff_exists'.mp there
  obtain ⟨user, ⟨allowed, _⟩ | ⟨_, ran⟩⟩ := System.step_store.mp ran
  · exact absurd allowed refused
  have root := inv.root i user
  have address := (inv.layout i user).user valid
  -- A page that is there and may not be written is marked.
  have readOnly := inv.sound.not_writable root refused address found
  have shared : Shared e :=
    ⟨readOnly, (inv.sound.translate_facts root address found).2.2.2.resolve_left fun writable =>
      writable readOnly⟩
  obtain ⟨m, copied, rfl⟩ : ∃ m, s.machine.copyNewMemory (s.taskQueue i).pml4e v = some m ∧
      s' = { s with machine := m } := by
    rcases System.fault_iff.mp ran with ⟨handled, _⟩ | ⟨m, handled, rfl⟩
    · rw [isr14_shared valid found shared] at handled
      simp at handled
    · rw [isr14_shared valid found shared] at handled
      exact ⟨m, by simpa using handled, rfl⟩
  obtain ⟨_, repaired⟩ := inv.sound.copyNewMemory root address copied
  obtain ⟨handed, new, free, mapped, leads, rest⟩ :=
    inv.sound.copyNewMemory_moved root address copied
  refine acc.moved inv user handed
    (fun r table other => repaired.within.translate inv.sound table other)
    (fun w e' userW found' => ?_) address found (fun e' found' => ?_) (fun _ userJ => userJ)
    fun _ => rfl
  · by_cases same : SamePage v w
    · rw [← translate_samePage _ _ same, mapped] at found'
      cases found'
      exact Or.inr (leads.symm ▸ free)
    · rw [rest _ w root userW fun both => same both.2] at found'
      exact Or.inl found'
  · rw [mapped] at found'
    cases found'
    exact leads.symm ▸ free

theorem Accounted.reap_lost (acc : Accounted s) (inv : Consistent s use)
    (ran : s.step (.reap i) = some s') : ¬Accounts s s' := by
  obtain ⟨use', inv'⟩ := inv.next ran
  obtain ⟨⟨user, zombie⟩, m, torn, rfl⟩ := System.step_reap.mp ran
  have root := inv.root i user
  obtain ⟨m0, same, down⟩ := inv.sound.deallocTask root
  rw [torn] at same
  cases same
  have space := setState_space s.taskQueue i .ready
  have user' : System.User ⟨m, setState s.taskQueue i .ready⟩ i := by
    unfold System.User
    rw [(space i).1]
    exact user
  -- The PML4 is the one table that certainly was there.
  intro accounts
  rcases accounts.returned (s.taskQueue i).pml4e
      ⟨i, ⟨user, acc.live i user⟩, Or.inl ⟨[], trivial, rfl⟩⟩ with reached | free
  · obtain ⟨j, live, member⟩ := reached
    have root' := inv'.root i user'
    have equal : (setState s.taskQueue i .ready i).pml4e = (s.taskQueue i).pml4e := (space i).2
    dsimp only at root'
    rw [equal] at root'
    rcases member with table | page
    · obtain ⟨path, used⟩ := inv'.table_use live.1 table
      rw [root'] at used
      have here : j = i :=
        inv'.apart j i live.1 user' ((Use.table.inj used).1.symm.trans equal.symm)
      subst here
      have ready : (setState s.taskQueue j .ready j).state = .ready := by
        rw [setState_state, if_pos rfl]
      exact live.2 ready
    · have used := inv'.data_use live.1 page
      rw [root'] at used
      cases used
  · rw [down.head] at free
    have used := inv.sound.free _ free
    rw [root] at used
    cases used

/-! ## Runs -/

theorem Accounted.keeps (acc : Accounted s) (ran : System.Step s a s') (keeps : KeepsPages s a) :
    Accounted s' ∧ Accounts s s' := by
  obtain ⟨use, inv⟩ := acc.consistent
  refine And.symm ?_
  cases a with
  | create file filename => exact acc.create inv ran
  | fork i => exact acc.fork inv ran
  | exec i file name args => exact keeps.elim
  | malloc i n => exact acc.malloc inv keeps ran
  | store i v b => exact acc.store inv keeps ran
  | load i v => exact acc.load inv ran
  | reap i => exact keeps.elim
  | turn i state => exact acc.turn inv ran

theorem Accounted.breaks (acc : Accounted s) (ran : System.Step s a s')
    (takes : ¬KeepsPages s a) : ¬Accounts s s' := by
  obtain ⟨use, inv⟩ := acc.consistent
  cases a with
  | create file filename => exact absurd trivial takes
  | fork i => exact absurd trivial takes
  | exec i file name args => exact acc.exec_lost inv ran
  | malloc i n => exact acc.malloc_lost inv takes ran
  | store i v b => exact acc.store_lost inv takes ran
  | load i v => exact absurd trivial takes
  | reap i => exact acc.reap_lost inv ran
  | turn i state => exact absurd trivial takes

theorem Round.shape {round : List (Request × System)} (rounds : Round s round) :
    ∃ i c file name args t1 t2 t3 t4, round =
      [(.fork i, t1), (.exec c file name args, t2), (.turn c .zombie, t3), (.reap c, t4)] := by
  obtain ⟨i, c, file, name, args, _, labels⟩ := rounds
  obtain ⟨⟨_, t1⟩, _, rfl, rfl, labels1⟩ := List.map_eq_cons_iff.mp labels
  obtain ⟨⟨_, t2⟩, _, rfl, rfl, labels2⟩ := List.map_eq_cons_iff.mp labels1
  obtain ⟨⟨_, t3⟩, _, rfl, rfl, labels3⟩ := List.map_eq_cons_iff.mp labels2
  obtain ⟨⟨_, t4⟩, _, rfl, rfl, labels4⟩ := List.map_eq_cons_iff.mp labels3
  obtain rfl := List.map_eq_nil_iff.mp labels4
  exact ⟨i, c, file, name, args, t1, t2, t3, t4, rfl⟩

theorem Consistent.fork_takes (inv : Consistent s use) (ran : System.Step s (.fork i) s') :
    s'.machine.head.length < s.machine.head.length := by
  obtain ⟨use2, inv'⟩ := inv.next ran
  obtain ⟨⟨user, busy⟩, c, slot, pml4e, m, copied, rfl⟩ := System.step_fork.mp ran
  obtain ⟨use1, copy⟩ := inv.sound.copySpace (inv.root i user) copied
  have member : pml4e ∈ s.machine.head := by
    obtain ⟨m1, _, popped, _⟩ := inv.sound.copySpace_cases copied
    exact (inv.sound.getFreeFrame popped).member
  have gone : pml4e ∉ m.head := by
    intro back
    have used := copy.sound.free _ back
    rw [copy.root] at used
    cases used
  refine lt_of_le_of_ne copy.spares.head.length_le fun same => gone ?_
  rw [copy.spares.head.eq_of_length same]
  exact member

theorem Consistent.exec_head {c : Int} {file : Image} {name : List UInt8} {args : List (List Byte)}
    (inv : Consistent s use) (ran : System.Step s (.exec c file name args) s') :
    s'.machine.head <:+ s.machine.head := by
  obtain ⟨⟨user, _, fits⟩, ts, m, started, rfl⟩ := System.step_exec.mp ran
  have root : use ({ s.taskQueue c with name := name } : TaskStruct).pml4e =
    .table ({ s.taskQueue c with name := name } : TaskStruct).pml4e [] := inv.root c user
  obtain ⟨handed, _⟩ := inv.sound.execImage_started root fits_nil fits started
  exact handed.head

/-- Reaping a task leaves the free list as it is. -/
theorem Consistent.reap_head {c : Int} (inv : Consistent s use)
    (ran : System.Step s (.reap c) s') : s'.machine.head = s.machine.head := by
  obtain ⟨⟨user, _⟩, m, torn, rfl⟩ := System.step_reap.mp ran
  obtain ⟨m0, same, down⟩ := inv.sound.deallocTask (inv.root c user)
  rw [torn] at same
  cases same
  exact down.head

/-- A round takes frames, for the tables of the child if for nothing else, and returns none. -/
theorem Round.loses {round : List (Request × System)} (rounds : Round s round)
    (inv : Consistent s use) (along : Along System.Step s round) :
    (lastState s round).machine.head.length < s.machine.head.length := by
  obtain ⟨i, c, file, name, args, t1, t2, t3, t4, rfl⟩ := rounds.shape
  simp only [along_cons] at along
  obtain ⟨forked, loaded, exited, reaped, _⟩ := along
  obtain ⟨_, inv1⟩ := inv.next forked
  obtain ⟨_, inv2⟩ := inv1.next loaded
  obtain ⟨_, inv3⟩ := inv2.next exited
  have same : t3.machine = t2.machine := by
    rw [(System.step_turn.mp exited).2]
  calc t4.machine.head.length = t3.machine.head.length :=
        congrArg List.length (inv3.reap_head reaped)
    _ = t2.machine.head.length := congrArg (fun m => m.head.length) same
    _ ≤ t1.machine.head.length := (inv1.exec_head loaded).length_le
    _ < s.machine.head.length := inv.fork_takes forked

/-- No round keeps all pages, as it has an `exec`. -/
theorem Round.takes {round : List (Request × System)} (rounds : Round s round) :
    ¬Along (fun t a _ => KeepsPages t a) s round := by
  obtain ⟨i, c, file, name, args, t1, t2, t3, t4, rfl⟩ := rounds.shape
  intro keeps
  simp only [along_cons] at keeps
  exact keeps.2.1

/-- Every run accounts for its frames exactly if no page or table is taken from a task in it, and
so no task execs or is reaped. -/
theorem System.frames_accounted_iff {s : System} {run : List (Request × System)} (booted : Booted s)
    (along : Along System.Step s run) :
    FramesAccounted s run ↔ Along (fun t a _ => KeepsPages t a) s run := by
  have steps : Along (fun t _ t' => Accounts t t') s run ↔
      Along (fun t a _ => KeepsPages t a) s run :=
    Along.exact_of_strong (fun _ _ _ acc ran keeps => acc.keeps ran keeps)
      (fun _ _ _ acc ran takes => acc.breaks ran takes) booted.accounted along
  refine ⟨fun accounted => steps.mp accounted.steps, fun keeps => ⟨steps.mpr keeps, ?_⟩⟩
  intro before round after split rounds
  subst split
  exact absurd (along_append.mp (along_append.mp keeps).1).2 rounds.takes

theorem System.frames_accounted_of_fork : FramesAccounted System.boot forkRun := by
  refine (System.frames_accounted_iff System.boot_booted forkRun_along).mpr ?_
  refine along_follow_of (fun a member s t => ?_) _ _
  rcases List.mem_pair.mp member with rfl | rfl <;> trivial

/-! ## A first command -/

theorem created_forks : firstSlot (checkTaskState created.taskQueue) = some 3 ∧
    (created.step (.fork 2)).isSome := by
  decide +kernel

theorem created_step : System.boot.step (.create emptyImage []) = some created := by
  have user := created_ready.1
  unfold created at user ⊢
  rw [follow] at user ⊢
  split at user
  next t stepped =>
    rw [stepped]
    rfl
  next => exact absurd user (System.boot_booted.tasks 2)

theorem forkRun_shape : ∃ t, forkRun = [(.create emptyImage [], created), (.fork 2, t)] := by
  obtain ⟨t, second⟩ := Option.isSome_iff_exists.mp created_forks.2
  refine ⟨t, ?_⟩
  rw [forkRun, follow_some created_step, follow_some second, follow]

/-- The first task runs a command in a child, and waits for it. -/
def commandSteps : List Request :=
  [.create emptyImage [], .fork 2, .exec 3 emptyImage [] [], .turn 3 .zombie, .reap 3]

/-- A task can exit and be reaped at any time. -/
theorem Consistent.ends (inv : Consistent s use) (user : s.User i) :
    ∃ t t', System.Step s (.turn i .zombie) t ∧ System.Step t (.reap i) t' := by
  have space := setState_space s.taskQueue i .zombie i
  obtain ⟨m, torn, _⟩ := inv.sound.deallocTask (inv.root i user)
  have user' : System.User { s with taskQueue := setState s.taskQueue i .zombie } i := by
    unfold System.User
    rw [space.1]
    exact user
  have zombie : (setState s.taskQueue i .zombie i).state = .zombie := by
    rw [setState_state, if_pos rfl]
  refine ⟨{ s with taskQueue := setState s.taskQueue i .zombie },
    ⟨m, setState (setState s.taskQueue i .zombie) i .ready⟩, rfl, ?_⟩
  refine System.step_reap.mpr ⟨⟨user', zombie⟩, m, ?_, rfl⟩
  rw [space.2, torn]

/-- With a few frames left, a task can start the program without segments. -/
theorem Consistent.starts (inv : Consistent s use) (user : s.User i)
    (enough : 6 ≤ s.machine.head.length) :
    ∃ t, System.Step s (.exec i emptyImage [] []) t ∧ t.User i := by
  have root : use ({ s.taskQueue i with name := [] } : TaskStruct).pml4e =
    .table ({ s.taskQueue i with name := [] } : TaskStruct).pml4e [] := inv.root i user
  have empty : 8 * stackWords [] [] ≤ 4096 * 0 + 510 * 8 := by decide
  obtain ⟨ts, m, loaded⟩ := inv.sound.execImage_total root emptyImage_given enough (by decide) empty
  refine ⟨s.setTask i ts m, ?_, ?_⟩
  · exact System.step_exec.mpr ⟨⟨user, by decide, by simp⟩, ts, m, loaded, rfl⟩
  · unfold System.User System.setTask
    dsimp only
    rw [Function.update_self, (execImage_task loaded).2]
    nofun

/-- After the command fewer frames are free than before it. -/
theorem System.round_unaccounted : ∃ run, run.map Prod.fst = commandSteps ∧
    Along System.Step System.boot run ∧ ¬FramesAccounted System.boot run := by
  obtain ⟨t1, shape⟩ := forkRun_shape
  have along := forkRun_along
  have user := forkRun_users.2
  have frames := forkRun_frames
  rw [shape] at along user frames
  change t1.User 3 at user
  change 8 ≤ t1.machine.head.length at frames
  simp only [along_cons] at along
  obtain ⟨first, forked, _⟩ := along
  obtain ⟨use0, inv0⟩ := System.boot_booted.consistent
  obtain ⟨use, inv⟩ := inv0.next first
  obtain ⟨use1, inv1⟩ := inv.next forked
  obtain ⟨t2, execs, user2⟩ := inv1.starts user (by omega)
  obtain ⟨use2, inv2⟩ := inv1.next execs
  obtain ⟨t3, t4, exits, reaped⟩ := inv2.ends user2
  have along : Along System.Step created
      [(.fork 2, t1), (.exec 3 emptyImage [] [], t2), (.turn 3 .zombie, t3), (.reap 3, t4)] := by
    simp only [along_cons, along_nil, and_true]
    exact ⟨forked, execs, exits, reaped⟩
  have round : Round created
      [(.fork 2, t1), (.exec 3 emptyImage [] [], t2), (.turn 3 .zombie, t3), (.reap 3, t4)] :=
    ⟨2, 3, emptyImage, [], [], created_forks.1, rfl⟩
  refine ⟨[(.create emptyImage [], created), (.fork 2, t1), (.exec 3 emptyImage [] [], t2),
    (.turn 3 .zombie, t3), (.reap 3, t4)], rfl, ?_, fun accounted => ?_⟩
  · rw [along_cons]
    exact ⟨first, along⟩
  · have same := accounted.rounds [(.create emptyImage [], created)] _ [] rfl round
    rw [lastState_append] at same
    exact absurd same (round.loses inv along).ne

end LateOS
