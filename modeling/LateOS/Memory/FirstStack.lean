import LateOS.Memory.RoundTrip
import LateOS.Memory.Supply

/-!
# The stack of a first process

`setTaskRSP` is a second writer of the format that `_start` reads, for one argument and no
environment. Its pointer to the argument leads to a word of its own, and not to the name.
-/
namespace LateOS

open Lib Machine

variable {m m' m1 : Machine} {use use1 : Word → Use} {ts ts' : TaskStruct} {r : Word}
  {p rsp : Nat} {stores : Stores} {name str : List Byte} {file : Image}

/-! ## One argument -/

/-- Where the only string of a stack is stored. -/
def namePlace (name : List Byte) (rsp : Nat) : Nat := rsp - 8 * (name.length + 1)

/-- What a start with the one argument `name` stores, when `argv[0]` is to be `p`. -/
def oneArgument (p : Nat) (name : List Byte) (rsp : Nat) : Stores :=
  storeString (namePlace name rsp) name ++ (pushWords [0] (namePlace name rsp)).2 ++
    (pushWords [1, p, 0] (namePlace name rsp - 8)).2

/-- `setRSPandExec` points to the name. -/
theorem stackOf_single (name : List Byte) (rsp : Nat) :
    stackOf [] [name] rsp = (namePlace name rsp - 32, oneArgument (namePlace name rsp) name rsp) := by
  simp [stackOf, pushStrings, pushWords, oneArgument, namePlace, Nat.sub_sub]

/-- `setTaskRSP` points to the NULL of `argv`. -/
theorem setTaskRSP_eq (name : List Byte) (ts : TaskStruct) (m : Machine) :
    setTaskRSP name ts m =
      ((oneArgument (namePlace name ts.rsp - 16) name ts.rsp).foldlM
        (fun (m : Machine) store => m.storeByte ts.pml4e store.1 store.2) m).bind fun m =>
          some ({ ts with rsp := namePlace name ts.rsp - 32 }, m) := by
  unfold setTaskRSP oneArgument namePlace
  simp [pushWords, Nat.sub_sub]

theorem oneArgument_pushed (p : Nat) (room : 8 * (name.length + 1) + 32 ≤ rsp) :
    Pushed rsp (oneArgument p name rsp) (namePlace name rsp - 32) := by
  have place : namePlace name rsp + 8 * (name.length + 1) = rsp := by
    unfold namePlace
    omega
  have first : Pushed rsp (storeString (namePlace name rsp) name) (namePlace name rsp) :=
    pushed_range (by omega) _
  obtain ⟨ends, second⟩ := pushWords_pushed [0] (namePlace name rsp) (by simp; omega)
  obtain ⟨ends', third⟩ := pushWords_pushed [1, p, 0] (namePlace name rsp - 8) (by simp; omega)
  rw [ends] at second
  rw [ends'] at third
  have all := (first.trans second).trans third
  have last : namePlace name rsp - 8 - 8 * [1, p, 0].length = namePlace name rsp - 32 := by
    rw [Nat.sub_sub]
    rfl
  rw [last] at all
  exact all

/-- The count, the two pointers of `argv`, and the NULL of the environment. -/
theorem oneArgument_words (p : Nat) (room : 8 * (name.length + 1) + 32 ≤ rsp) :
    (∀ i w, [1, p, 0][i]? = some w →
      storeWord (namePlace name rsp - 32 + 8 * i) w ⊆ oneArgument p name rsp) ∧
    storeWord (namePlace name rsp - 8) 0 ⊆ oneArgument p name rsp := by
  have place : namePlace name rsp + 8 * (name.length + 1) = rsp := by
    unfold namePlace
    omega
  have ends := (pushWords_pushed [1, p, 0] (namePlace name rsp - 8) (by simp; omega)).1
  have words := pushWords_stored [1, p, 0] (namePlace name rsp - 8) (by simp; omega)
  have last : namePlace name rsp - 8 - 8 * [1, p, 0].length = namePlace name rsp - 32 := by
    rw [Nat.sub_sub]
    rfl
  rw [ends, last] at words
  constructor
  · intro i w found
    exact List.subset_append_of_subset_right _ (words i w found)
  · exact List.subset_append_of_subset_left _ (List.subset_append_right _ _)

/-! ## What `_start` reads -/

/-- `_start` finds one argument, and it is at `p`. -/
theorem oneArgument_start (own : m.Private use ts.pml4e) (low : rsp ≤ 2 ^ 47)
    (room : 8 * (name.length + 1) + 32 ≤ rsp) (small : p < 2 ^ 64)
    (ran : pokes ts m (oneArgument p name rsp) = some m') :
    m'.start ts.pml4e (namePlace name rsp - 32) = some (1, [p], []) := by
  have place : namePlace name rsp + 8 * (name.length + 1) = rsp := by
    unfold namePlace
    omega
  have pushed := oneArgument_pushed p room
  obtain ⟨words, env⟩ := oneArgument_words p room
  have count := pushed.wordAt own low ran (words 0 1 rfl)
  have pointer := pushed.wordAt own low ran (words 1 p rfl)
  have none := pushed.wordAt own low ran env
  have argc : m'.readBytes ts.pml4e 4 (namePlace name rsp - 32) = some 1 :=
    readBytes_of_bytes fun k below => count k (by omega)
  have argv : m'.readWords ts.pml4e [p].length (namePlace name rsp - 32 + 8) = some [p] := by
    apply readWords_of_words
    · intro w member
      rw [List.mem_singleton.mp member]
      exact small
    · intro i w found
      obtain ⟨below, rfl⟩ := List.getElem?_eq_some_iff.mp found
      have first : i = 0 := Nat.lt_one_iff.mp below
      subst first
      exact pointer
  have environment : m'.readEnv ts.pml4e 100 (namePlace name rsp - 8) = some [] := by
    rw [readEnv, none.readBytes (by decide)]
    rfl
  unfold Machine.start Machine.readArgs
  rw [argc, Option.bind_eq_bind, Option.bind_some]
  change ((if (1 : Int) ≤ 20 then m'.readWords ts.pml4e 1 (namePlace name rsp - 32 + 8) else Option.none).bind
    fun argv => (m'.readEnv ts.pml4e 100 (namePlace name rsp - 32 + 8 + 8 + 8)).bind
      fun env => some (1, argv, env)) = _
  have behind : namePlace name rsp - 32 + 8 + 8 + 8 = namePlace name rsp - 8 := by omega
  rw [if_pos (by decide), behind, environment]
  rw [List.length_singleton] at argv
  rw [argv]
  rfl

/-- `main` reads the string that `argv[0]` points to. -/
theorem oneArgument_strings (own : m.Private use ts.pml4e) (low : rsp ≤ 2 ^ 47)
    (room : 8 * (name.length + 1) + 32 ≤ rsp) (bounds : 0 < p ∧ p < 2 ^ 64)
    (ran : pokes ts m (oneArgument p name rsp) = some m') (here : m'.StringAt ts.pml4e p str)
    (short : str.length < 100) (inside : 0 ∉ str) :
    m'.mainStrings ts.pml4e (namePlace name rsp - 32) = some (1, [str], []) := by
  have started := oneArgument_start own low room bounds.2 ran
  have args : m'.readArray ts.pml4e (staticArray 20 [p]) = some [str] := by
    rw [staticArray_terminated (by simp)]
    apply readArray_of_strings (.cons here .nil)
    · intro q member
      rw [List.mem_singleton.mp member]
      omega
    · intro s member
      rw [List.mem_singleton.mp member]
      exact ⟨short, inside⟩
  unfold Machine.mainStrings
  dsimp only
  rw [started, Option.bind_eq_bind, Option.bind_some]
  dsimp only
  rw [args]
  rfl

/-- `main` is given the name as its only argument, and no environment. -/
def NamedStart (name : List Byte) (ts : TaskStruct) (m : Machine) : Prop :=
  m.mainStrings ts.pml4e ts.rsp = some (1, [name], [])

/-! ## The two writers -/

/-- A store that does not fault is one of the kernel's. -/
theorem pokes_of_stores
    (ran : stores.foldlM (fun (m : Machine) store => m.storeByte ts.pml4e store.1 store.2) m = some m') :
    pokes ts m stores = some m' := by
  induction stores generalizing m with
  | nil => exact ran
  | cons store rest ih =>
    rw [List.foldlM_cons] at ran
    obtain ⟨m1, stored, ran⟩ := Option.bind_eq_some_iff.mp ran
    have first : poke ts m store = some m1 := by
      unfold poke
      rw [stored]
    rw [pokes, first]
    exact ih ran

/-- `setRSPandExec` hands over the name. -/
theorem setRSPandExec_named (own : m.Private use ts.pml4e) (top : ts.rsp = stackS + 510 * 8)
    (short : name.length < 100) (inside : 0 ∉ name)
    (ran : setRSPandExec ts [] [name] m = some (ts', m')) :
    NamedStart name ts' m' := by
  have strings : CStrings [name] := by
    intro str member
    rw [List.mem_singleton.mp member]
    exact ⟨short, inside⟩
  have none : CStrings [] := fun str member => absurd member List.not_mem_nil
  exact (setRSPandExec_back own top (by simp) (by simp) strings none ran).strings

/-- `setTaskRSP` hands over the empty string, whatever the name. -/
theorem setTaskRSP_nameless (own : m.Private use ts.pml4e) (top : ts.rsp = stackS + 510 * 8)
    (short : name.length < 100) (ran : setTaskRSP name ts m = some (ts', m')) :
    NamedStart [] ts' m' := by
  have value := stackS_eq
  rw [setTaskRSP_eq] at ran
  obtain ⟨m1, stored, same⟩ := Option.bind_eq_some_iff.mp ran
  cases same
  have poked : pokes ts m _ = some m' := pokes_of_stores stored
  have low : ts.rsp ≤ 2 ^ 47 := by
    rw [top]
    decide
  have room : 8 * (name.length + 1) + 32 ≤ ts.rsp := by omega
  have place : namePlace name ts.rsp + 8 * (name.length + 1) = ts.rsp := by
    unfold namePlace
    omega
  -- The word at the address of `argv[0]` is the NULL behind it, and its first byte ends a string.
  obtain ⟨words, _⟩ := oneArgument_words (namePlace name ts.rsp - 16) room
  have null := (oneArgument_pushed _ room).wordAt own low poked (words 2 0 rfl)
  have empty : m'.StringAt ts.pml4e (namePlace name ts.rsp - 16) [] := by
    intro k below
    have first : k = 0 := Nat.le_zero.mp below
    have here := null 0 (by decide)
    have same : namePlace name ts.rsp - 32 + 8 * 2 + 0 = namePlace name ts.rsp - 16 + 0 := by omega
    rw [first, ← same, here]
    rfl
  have bounds : 0 < namePlace name ts.rsp - 16 ∧ namePlace name ts.rsp - 16 < 2 ^ 64 := by omega
  have strings : m'.mainStrings ts.pml4e (namePlace name ts.rsp - 32) = some (1, [[]], []) :=
    oneArgument_strings own low room bounds poked empty (by decide) List.not_mem_nil
  exact strings

/-! ## Through `createNewTask` -/

theorem createNewTask_nameless (sound : m.Sound use) (short : ts.name.length < 100)
    (ran : createNewTask file.toElf ts m = some (ts', m')) :
    NamedStart [] ts' m' := by
  obtain ⟨r, use1, ts1, m1, born, shape1, ran⟩ := sound.createNewTask_begun ran
  have same1 : ts1.pml4e = r := by rw [shape1]
  have own1 : m1.Private use1 ts1.pml4e := same1 ▸ born.after
  exact setTaskRSP_nameless own1 (by rw [shape1]) (by rw [List.length_map]; exact short) ran

/-! ## With enough frames -/

/-- On pages that are there, no store stops. -/
theorem Machine.Private.stores_total (own : m.Private use r)
    (user : ∀ store ∈ stores, UserAddress store.1)
    (mapped : ∀ store ∈ stores, (m.translate r store.1).isSome) :
    ∃ m', stores.foldlM (fun (m : Machine) store => m.storeByte r store.1 store.2) m = some m' := by
  induction stores generalizing m with
  | nil => exact ⟨m, rfl⟩
  | cons store rest ih =>
    obtain ⟨e, found⟩ := Option.isSome_iff_exists.mp (mapped store (by simp))
    obtain ⟨m1, stored⟩ := storeByte_of_translate found store.2
    have userS := user store (by simp)
    obtain ⟨_, _, translate⟩ := own.storeByte_stale userS stored
    have later : ∀ store ∈ rest, (m1.translate r store.1).isSome := by
      intro s member
      rw [translate]
      exact mapped s (by simp [member])
    obtain ⟨m', ran⟩ := ih (own.storeByte userS stored).after
      (fun s member => user s (by simp [member])) later
    refine ⟨m', ?_⟩
    rw [List.foldlM_cons, stored]
    exact ran

/-- The first page of the stack has room for the name. -/
theorem Machine.Private.setTaskRSP_total (own : m.Private use ts.pml4e)
    (top : ts.rsp = stackS + 510 * 8) (short : name.length < 100)
    (here : m.translate ts.pml4e stackS ≠ none) :
    ∃ ts' m', LateOS.setTaskRSP name ts m = some (ts', m') := by
  have value := stackS_eq
  have pushed := oneArgument_pushed (namePlace name ts.rsp - 16)
    (by omega : 8 * (name.length + 1) + 32 ≤ ts.rsp)
  have place : namePlace name ts.rsp + 8 * (name.length + 1) = ts.rsp := by
    unfold namePlace
    omega
  have user : ∀ store ∈ oneArgument (namePlace name ts.rsp - 16) name ts.rsp,
      UserAddress store.1 := by
    intro store member
    have bounds := pushed.inside store member
    exact user_of_small (by omega)
  have mapped : ∀ store ∈ oneArgument (namePlace name ts.rsp - 16) name ts.rsp,
      (m.translate ts.pml4e store.1).isSome := by
    intro store member
    have bounds := pushed.inside store member
    have page : SamePage stackS store.1 := (samePage_iff _ _).mpr (by omega)
    rw [← translate_samePage m ts.pml4e page]
    exact Option.isSome_iff_ne_none.mpr here
  obtain ⟨m', ran⟩ := own.stores_total user mapped
  rw [setTaskRSP_eq, ran]
  exact ⟨_, m', rfl⟩

theorem Machine.Sound.pushVMA_total (sound : m.Sound use) (enough : 1 ≤ m.head.length)
    (ts : TaskStruct) (first toend : Nat) :
    ∃ ts' m', LateOS.pushVMA ts first toend m = some (ts', m') ∧
      m.head.length = m'.head.length + 1 := by
  obtain ⟨f, m', node, one⟩ := sound.kmalloc_total enough
  refine ⟨{ ts with vm := ⟨first, toend, 0⟩ :: ts.vm }, m', ?_, one⟩
  unfold LateOS.pushVMA
  rw [node]
  rfl

theorem Machine.Private.setNewVMA_total (own : m.Private use ts.pml4e)
    (enough : 5 ≤ m.head.length) :
    ∃ ts' m', LateOS.setNewVMA ts stackS stackEnd m = some (ts', m') := by
  obtain ⟨f, m1, m2, popped, mapped, left⟩ := mapPage_total (m := m) stackS ts.pml4e (by omega)
  obtain ⟨use2, loaded⟩ := own.mapPage (user_of_small (by decide)) popped mapped
  obtain ⟨ts', m', pushed, _⟩ := loaded.after.sound.pushVMA_total (by omega)
    { ts with ustack := stackS, rsp := stackS + 510 * 8 } stackS stackEnd
  refine ⟨ts', m', ?_⟩
  unfold LateOS.setNewVMA
  rw [popped]
  change (m1.initTaskPagetables stackS f ts.pml4e).bind _ = _
  rw [mapped]
  exact pushed

/-- `createNewTask` returns when its file is all there and frames are left. -/
theorem Machine.Sound.createNewTask_total (sound : m.Sound use) (short : ts.name.length < 100)
    (given : ∀ ep ∈ file.segments, ∀ k < ep.p_filesz, (file.content (64 * ep.p_offset + k)).isSome)
    (enough : file.frames + 7 ≤ m.head.length) :
    ∃ ts' m', LateOS.createNewTask file.toElf ts m = some (ts', m') := by
  obtain ⟨r, m0, popped, one⟩ := getFreeFrame_total (m := m) (by omega)
  have own : (m0.zero r).Private (Function.update use r (.table r []))
      ({ ts with pml4e := r, rip := file.e_entry } : TaskStruct).pml4e :=
    (sound.getFreeFrame popped).newRoot.1
  have frames : (file.segments.reverse.map Phdr.frames).sum = file.frames := by
    rw [List.map_reverse, List.sum_reverse]
    rfl
  have kept : (m0.zero r).head.length = m0.head.length := rfl
  obtain ⟨ts1, m1, loaded, left⟩ := own.loadSegments_total file.allLoadable
    (fun ep member => given ep (List.mem_reverse.mp member)) (by omega)
  have image : LateOS.readELFandFork file.toElf ts m = some (ts1, m1) := by
    rw [sound.readELFandFork_eq popped]
    exact loaded
  rw [← Elf.segments_reverse, ← loadSegments_filter] at loaded
  obtain ⟨shape1, use1, first⟩ := own.loadSegments (fun ep member load =>
    file.loadable (List.mem_reverse.mp member) load) loaded
  have same1 : ts1.pml4e = r := by rw [shape1]
  have own1 : m1.Private use1 ts1.pml4e := same1 ▸ first.after
  obtain ⟨ts2, m2, heap, node⟩ := own1.sound.pushVMA_total (by omega) ts1 heapS heapS
  obtain ⟨shape2, second⟩ := own1.pushVMA heap
  have same2 : ts2.pml4e = ts1.pml4e := by rw [shape2]
  have own2 : m2.Private use1 ts2.pml4e := same2 ▸ second.after
  obtain ⟨ts3, m3, stack⟩ := own2.setNewVMA_total (by omega)
  obtain ⟨⟨same, name, top⟩, ⟨use3, third⟩, _, here⟩ := own.program loaded heap stack
  have own3 : m3.Private use3 ts3.pml4e := same ▸ third.after
  have fits : (ts3.name.map UInt8.toBitVec).length < 100 := by
    rw [List.length_map, name]
    exact short
  obtain ⟨ts', m', stored⟩ := own3.setTaskRSP_total top fits (same ▸ here)
  refine ⟨ts', m', ?_⟩
  rw [createNewTask_eq, image]
  change (LateOS.pushVMA ts1 heapS heapS m1).bind _ = _
  rw [heap]
  change (LateOS.setNewVMA ts2 stackS stackEnd m2).bind _ = _
  rw [stack]
  exact stored

/-! ## The name of the file -/

theorem NamedStart.inj (first : NamedStart name ts m) (second : NamedStart str ts m) :
    name = str := by
  have same := first.symm.trans second
  simpa using same

/-- A new task is given the name of its file just when that is empty. It does start, and with
`setRSPandExec` it would have the name. -/
theorem createNewTask_named_iff (sound : m.Sound use) (short : ts.name.length < 100) :
    (∀ ts' m', createNewTask file.toElf ts m = some (ts', m') →
      (NamedStart (ts.name.map UInt8.toBitVec) ts' m' ↔ ts.name = [])) ∧
    ((∀ ep ∈ file.segments, ∀ k < ep.p_filesz, (file.content (64 * ep.p_offset + k)).isSome) →
      file.frames + 7 ≤ m.head.length →
        ∃ ts' m', createNewTask file.toElf ts m = some (ts', m')) ∧
    ∀ n use1 exec exec' n', n.Private use1 exec.pml4e → exec.rsp = stackS + 510 * 8 →
      0 ∉ ts.name.map UInt8.toBitVec →
        setRSPandExec exec [] [ts.name.map UInt8.toBitVec] n = some (exec', n') →
          NamedStart (ts.name.map UInt8.toBitVec) exec' n' := by
  refine ⟨fun ts' m' ran => ?_, fun given enough => sound.createNewTask_total short given enough,
    fun n use1 exec exec' n' own top inside ran =>
      setRSPandExec_named own top (by rw [List.length_map]; exact short) inside ran⟩
  have nameless := createNewTask_nameless sound short ran
  constructor
  · intro named
    exact List.map_eq_nil_iff.mp (named.inj nameless)
  · intro none
    rw [none]
    exact nameless

theorem bootMachine_enough : emptyImage.frames + 7 ≤ bootMachine.head.length := by
  decide +kernel

theorem createNewTask_named_iff_of_boot : ∃ ts' m',
    createNewTask emptyImage.toElf (System.boot.initTaskVariables 3 [97]) bootMachine =
      some (ts', m') ∧ ¬NamedStart [97] ts' m' := by
  have short : (System.boot.initTaskVariables 3 [97]).name.length < 100 := by decide
  obtain ⟨exact, total, _⟩ := createNewTask_named_iff bootMachine_sound short
  obtain ⟨ts', m', ran⟩ := total emptyImage_given bootMachine_enough
  refine ⟨ts', m', ran, fun named => ?_⟩
  have none := (exact ts' m' ran).mp named
  cases none

/-- The first process of a file called `a`: `main` finds an empty string in place of the name. -/
theorem first_name_lost : ∃ ts' m',
    createNewTask emptyImage.toElf (System.boot.initTaskVariables 3 [97]) bootMachine =
      some (ts', m') ∧ NamedStart [] ts' m' ∧ ¬NamedStart [97] ts' m' := by
  have short : (System.boot.initTaskVariables 3 [97]).name.length < 100 := by decide
  obtain ⟨ts', m', ran⟩ := bootMachine_sound.createNewTask_total short emptyImage_given
    bootMachine_enough
  have nameless := createNewTask_nameless bootMachine_sound short ran
  refine ⟨ts', m', ran, nameless, fun named => ?_⟩
  have same := named.inj nameless
  cases same

end LateOS
