import LateOS.Memory.Arguments

/-!
# The start-up stack as a code

`setRSPandExec` writes the strings of a program to its stack, and `_start` hands the arrays that
`main` reads them from. Reading gives back what was written.
-/
namespace LateOS

open Lib Machine

variable {m m' : Machine} {use : Word → Use} {ts ts' : TaskStruct} {r : Word} {v n rsp : Nat}
  {str : List Byte} {strs envs args : List (List Byte)} {ptrs rest : List Nat}

/-! ## What `main` reads -/

namespace Machine

variable (m : Machine) (r : Word)

/-- The string at `v`, which has fewer than `n` bytes. -/
def readString : Nat → Nat → Option (List Byte)
  | 0, _ => none
  | n + 1, v => do
    let b ← m.byteAt r v
    if b = 0 then some []
    else (readString n (v + 1)).map (b :: ·)

/-- The strings of an array of pointers, up to its NULL. -/
def readArray : List Nat → Option (List (List Byte))
  -- Without a NULL, `main` would read on behind the array.
  | [] => none
  | p :: rest =>
    if p = 0 then some []
    else do
      let str ← m.readString r 100 p
      let strs ← readArray rest
      some (str :: strs)

/-- A static array of `n` pointers, NULL at first, of which `_start` has filled the first ones. -/
def staticArray (n : Nat) (filled : List Nat) : List Nat :=
  filled ++ List.replicate (n - filled.length) 0

/-- `argc` and the strings that `main` finds in `argv[20]` and `env[100]`. -/
def mainStrings (rsp : Nat) : Option (Int × List (List Byte) × List (List Byte)) := do
  let (argc, argv, env) ← m.start r rsp
  let args ← m.readArray r (staticArray 20 argv)
  let envs ← m.readArray r (staticArray 100 env)
  some (argc, args, envs)

end Machine

/-- Strings of C that fit the buffers of `execvpe`. -/
def CStrings (strs : List (List Byte)) : Prop := ∀ str ∈ strs, str.length < 100 ∧ 0 ∉ str

theorem CStrings.fits (strings : CStrings strs) : Fits strs := fun str member =>
  (strings str member).1

theorem Machine.StringAt.readString (here : m.StringAt r v str) (short : str.length < n)
    (inside : 0 ∉ str) : m.readString r n v = some str := by
  induction str generalizing v n with
  | nil =>
    have last := here 0 (Nat.zero_le 0)
    cases n with
    | zero => cases short
    | succ n =>
      rw [Nat.add_zero] at last
      rw [Machine.readString, last]
      rfl
  | cons b str ih =>
    have first := here 0 (Nat.zero_le _)
    have later : m.StringAt r (v + 1) str := by
      intro k below
      have next := here (k + 1) (Nat.succ_le_succ below)
      rw [Nat.add_assoc, Nat.add_comm 1 k]
      exact next
    rw [List.mem_cons, not_or] at inside
    rw [List.length_cons] at short
    cases n with
    | zero => omega
    | succ n =>
      rw [Nat.add_zero] at first
      rw [Machine.readString, first, Option.bind_eq_bind, Option.bind_some]
      change (if b = 0 then _ else _) = _
      rw [if_neg (Ne.symm inside.1), ih later (by omega) inside.2]
      rfl

/-- The array is read up to its first NULL. -/
theorem readArray_of_strings (here : List.Forall₂ (m.StringAt r) ptrs strs)
    (positive : ∀ p ∈ ptrs, p ≠ 0) (strings : CStrings strs) :
    m.readArray r (ptrs ++ 0 :: rest) = some strs := by
  induction here with
  | nil => rfl
  | cons first later ih =>
    rename_i p str ptrs strs
    obtain ⟨short, inside⟩ := strings str (by simp)
    rw [List.cons_append, Machine.readArray, if_neg (positive p (by simp)),
      first.readString short inside,
      ih (fun p member => positive p (by simp [member])) fun s member => strings s (by simp [member])]
    rfl

/-- One slot is left for the NULL. -/
theorem staticArray_terminated (few : ptrs.length < n) :
    staticArray n ptrs = ptrs ++ 0 :: List.replicate (n - ptrs.length - 1) 0 := by
  unfold staticArray
  rw [← List.replicate_succ, Nat.sub_one_add_one (by omega)]

/-! ## Where everything lies -/

/-- The ranges of the stack from `rsp` up: the count and the pointers, the strings of `args`, and
those of `envs`. Each one is given with its length. -/
def stackRanges (argv env : List Nat) (args envs : List (List Byte)) (rsp : Nat) : List (Nat × Nat) :=
  ((List.range (args.length + envs.length + 3)).map fun i => (rsp + 8 * i, 8)) ++
    (List.zipWith (fun v str => (v, str.length + 1)) argv args ++
      List.zipWith (fun v str => (v, str.length + 1)) env envs)

/-- Ranges that follow one another. -/
def Spaced (ranges : List (Nat × Nat)) : Prop := ranges.Pairwise fun x y => x.1 + x.2 ≤ y.1

/-- The strings lie one behind the other, between where `pushStrings` begins and ends. -/
theorem pushStrings_spaced (strs : List (List Byte)) (rsp : Nat)
    (room : 8 * stringWords strs ≤ rsp) :
    Spaced (List.zipWith (fun v str => (v, str.length + 1)) (pushStrings strs rsp).1 strs) ∧
      ∀ range ∈ List.zipWith (fun v str => (v, str.length + 1)) (pushStrings strs rsp).1 strs,
        (pushStrings strs rsp).2.1 ≤ range.1 ∧ range.1 + range.2 ≤ rsp := by
  induction strs with
  | nil => exact ⟨.nil, nofun⟩
  | cons str rest ih =>
    have size : stringWords (str :: rest) = str.length + 1 + stringWords rest := rfl
    obtain ⟨spaced, inside⟩ := ih (by omega)
    have ends := (pushStrings_pushed rest rsp (by omega)).1
    -- The new string ends below the one before it.
    change Spaced (((pushStrings rest rsp).2.1 - 8 * (str.length + 1), str.length + 1) ::
        List.zipWith (fun v str => (v, str.length + 1)) (pushStrings rest rsp).1 rest) ∧
      ∀ range ∈ ((pushStrings rest rsp).2.1 - 8 * (str.length + 1), str.length + 1) ::
        List.zipWith (fun v str => (v, str.length + 1)) (pushStrings rest rsp).1 rest,
        (pushStrings rest rsp).2.1 - 8 * (str.length + 1) ≤ range.1 ∧ range.1 + range.2 ≤ rsp
    refine ⟨List.pairwise_cons.mpr ⟨fun range member => ?_, spaced⟩, fun range member => ?_⟩
    · have above := (inside range member).1
      dsimp only
      omega
    · rcases List.mem_cons.mp member with rfl | member
      · dsimp only
        omega
      · have bounds := inside range member
        omega

theorem stackRanges_spaced (envs args : List (List Byte)) (rsp : Nat)
    (room : 8 * stackWords envs args ≤ rsp) :
    Spaced (stackRanges (pushStrings args (pushStrings envs rsp).2.1).1 (pushStrings envs rsp).1
      args envs (rsp - 8 * stackWords envs args)) := by
  unfold stackWords at room ⊢
  have ends1 := (pushStrings_pushed envs rsp (by omega)).1
  obtain ⟨spaced1, inside1⟩ := pushStrings_spaced envs rsp (by omega)
  have ends2 := (pushStrings_pushed args (pushStrings envs rsp).2.1 (by omega)).1
  obtain ⟨spaced2, inside2⟩ := pushStrings_spaced args (pushStrings envs rsp).2.1 (by omega)
  refine List.pairwise_append.mpr ⟨?_, List.pairwise_append.mpr ⟨spaced2, spaced1, ?_⟩, ?_⟩
  · rw [List.pairwise_map]
    refine List.pairwise_lt_range.imp fun {i j} order => ?_
    dsimp only
    omega
  · intro x memberX y memberY
    have below := (inside2 x memberX).2
    have above := (inside1 y memberY).1
    omega
  · -- The words end where the strings begin.
    intro x memberX y memberY
    obtain ⟨i, range, rfl⟩ := List.mem_map.mp memberX
    have small := List.mem_range.mp range
    have above : (pushStrings args (pushStrings envs rsp).2.1).2.1 ≤ y.1 := by
      rcases List.mem_append.mp memberY with arg | env
      · exact (inside2 y arg).1
      · have first := (inside1 y env).1
        omega
    dsimp only
    omega

/-! ## The round trip -/

/-- `main` gets back the strings, and nothing on the stack lies on anything else. -/
structure RoundTrip (envs args : List (List Byte)) (ts' : TaskStruct) (m' : Machine) : Prop where
  strings : m'.mainStrings ts'.pml4e ts'.rsp = some ((args.length : Int), args, envs)
  spaced : ∃ argv env, m'.start ts'.pml4e ts'.rsp = some ((args.length : Int), argv, env) ∧
    Spaced (stackRanges argv env args envs ts'.rsp)

/-- How much of the stack is needed. -/
theorem stackWords_few (few : args.length ≤ 19) (fewE : envs.length ≤ 99) (strings : CStrings args)
    (stringsE : CStrings envs) : stackWords envs args ≤ 11921 := by
  have words := stringWords_le strings.fits
  have wordsE := stringWords_le stringsE.fits
  unfold stackWords
  omega

theorem setRSPandExec_back (own : m.Private use ts.pml4e) (top : ts.rsp = stackS + 510 * 8)
    (few : args.length ≤ 19) (fewE : envs.length ≤ 99) (strings : CStrings args)
    (stringsE : CStrings envs) (ran : setRSPandExec ts envs args m = some (ts', m')) :
    RoundTrip envs args ts' m' := by
  have value := stackS_eq
  have words := stackWords_few few fewE strings stringsE
  have layout := stackOf_pushed envs args ts.rsp (by omega)
  have spaced := stackRanges_spaced envs args ts.rsp (by omega)
  rw [setRSPandExec_eq] at ran
  obtain ⟨m1, stored, same⟩ := Option.bind_eq_some_iff.mp ran
  cases same
  have low : ts.rsp ≤ 2 ^ 47 := by
    rw [top]
    decide
  have started := layout.start own low (by omega) (by omega) (by omega) stored
  generalize (pushStrings args (pushStrings envs ts.rsp).2.1).1 = argv at layout spaced started
  generalize (pushStrings envs ts.rsp).1 = env at layout spaced started
  have positive (p : Nat) (member : p ∈ argv ∨ p ∈ env) : p ≠ 0 := by
    have bounds := layout.bounds p member
    omega
  have lengthA := layout.argStrings.length_eq
  have lengthE := layout.envStrings.length_eq
  have back : m'.readArray ts.pml4e (staticArray 20 argv) = some args := by
    rw [staticArray_terminated (by omega)]
    exact readArray_of_strings
      (layout.argStrings.imp fun v str place => layout.pushed.stringAt own low stored place)
      (fun p member => positive p (Or.inl member)) strings
  have backE : m'.readArray ts.pml4e (staticArray 100 env) = some envs := by
    rw [staticArray_terminated (by omega)]
    exact readArray_of_strings
      (layout.envStrings.imp fun v str place => layout.pushed.stringAt own low stored place)
      (fun p member => positive p (Or.inr member)) stringsE
  refine ⟨?_, argv, env, started, ?_⟩
  · unfold Machine.mainStrings
    dsimp only
    rw [started]
    simp [back, backE]
  · rw [← layout.ends] at spaced
    exact spaced

/-- Whatever strings `setRSPandExec` is given, `main` gets them back; and where the stack has room
for them, it does not stop. -/
theorem setRSPandExec_round_trip (own : m.Private use ts.pml4e) (top : ts.rsp = stackS + 510 * 8)
    (few : args.length ≤ 19) (fewE : envs.length ≤ 99) (strings : CStrings args)
    (stringsE : CStrings envs) :
    (∀ ts' m', setRSPandExec ts envs args m = some (ts', m') → RoundTrip envs args ts' m') ∧
      ∀ room, Growable room m use ts → 8 * stackWords envs args ≤ 4096 * room + 510 * 8 →
        ∃ ts' m', setRSPandExec ts envs args m = some (ts', m') := by
  refine ⟨fun ts' m' ran => setRSPandExec_back own top few fewE strings stringsE ran,
    fun room growable fits => growable.setRSPandExec top fits⟩

/-- The first task execs a program with two arguments and one string in its environment. -/
theorem setRSPandExec_round_trip_of_created : ∃ ts m ts' m', ts.rsp = stackS + 510 * 8 ∧
    setRSPandExec ts [[98]] [[97], [99]] m = some (ts', m') ∧
    RoundTrip [[98]] [[97], [99]] ts' m' := by
  obtain ⟨_, enough, _⟩ := created_ready
  obtain ⟨use, sound, root⟩ := created_sound
  obtain ⟨ts, m, use1, growable, rsp, _⟩ : ∃ ts m use1, Growable 0 m use1 ts ∧
      ts.rsp = stackS + 510 * 8 ∧ _ :=
    sound.execImage_begins root emptyImage_given enough (by decide) [[98]] [[97], [99]]
  have strings : CStrings [[97], [99]] := by
    unfold CStrings
    decide
  have stringsE : CStrings [[98]] := by
    unfold CStrings
    decide
  obtain ⟨back, total⟩ := setRSPandExec_round_trip growable.neat.own rsp (by decide) (by decide)
    strings stringsE
  obtain ⟨ts', m', ran⟩ := total 0 growable (by decide)
  exact ⟨ts, m, ts', m', rsp, ran, back ts' m' ran⟩

end LateOS
