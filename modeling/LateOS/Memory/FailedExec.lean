import LateOS.Memory.Arguments

/-!
# An exec that fails

`execvpe` returns -1 when there is no program, no script or no interpreter. What it has written to
the task by then is the name, and only for a path that does not begin with `./`.
-/
namespace LateOS

variable {headers : List TarEntry} {behind : Int} {fuel : Nat} {path : List Byte}
  {argv env : List (List Byte)} {ts ts' : TaskStruct} {m m' : Machine} {f : ExecFrame}
  {binValue : Int} {program : Elf}

/-- The name of the file fits its 100 bytes. -/
def NameFits (ts : TaskStruct) (path : List Byte) : Prop :=
  (if validPath path then scriptName ts path else binName path).length < 100

/-- The task with the name of the file that `execvpe` looks for. -/
def renamed (ts : TaskStruct) (path : List Byte) : TaskStruct :=
  { ts with name := (binName path).map UInt8.ofBitVec }

/-- An `execvpe` that returns -1 leaves the task and its memory as they were. -/
structure FailsClean (headers : List TarEntry) (behind : Int) (path : List Byte)
    (argv env : List (List Byte)) (ts : TaskStruct) (m : Machine) : Prop where
  inside : NameFits ts path
  kept : ∀ fuel ts' m', execvpe headers behind fuel path argv env ts m = some (.failed ts' m') →
    ts' = ts ∧ m' = m

/-! ## The three ways to fail -/

/-- Behind `setFileAddress`, `execvpe` fails for want of a program, and has changed nothing more. -/
theorem execFile_failed (envl : f.envl = 0)
    (ran : execFile env fuel m f = some (.failed ts' m')) :
    f.fileAddress = none ∧ ts' = f.ts ∧ m' = m := by
  obtain ⟨f1, loop, later⟩ := Option.bind_eq_some_iff.mp ran
  obtain ⟨_, _, same⟩ := (copyEnvs_iff envl).mp loop
  subst same
  cases address : f1.fileAddress with
  | none =>
    rw [address] at later
    cases later
    exact ⟨rfl, rfl, rfl⟩
  | some file =>
    rw [address] at later
    obtain ⟨_, _, entered⟩ := Option.bind_eq_some_iff.mp later
    cases entered

/-- For a script, `setFileAddress` writes to nothing but its locals. -/
theorem setFileAddress_dot (dot : validPath path = true)
    (ran : setFileAddress headers behind fuel path argv (.init ts) = some (binValue, f)) :
    f.ts = ts ∧ f.envl = 0 ∧ (binValue = -1 ∨ binValue = 1) := by
  unfold setFileAddress at ran
  rw [if_pos dot] at ran
  split at ran
  -- The script is not there, or its interpreter is looked for.
  · split at ran
    · cases ran
      exact ⟨rfl, rfl, Or.inl rfl⟩
    · obtain ⟨_, _, ran⟩ := Option.bind_eq_some_iff.mp ran
      obtain ⟨_, _, ran⟩ := Option.bind_eq_some_iff.mp ran
      obtain ⟨_, _, ran⟩ := Option.bind_eq_some_iff.mp ran
      obtain ⟨_, _, ran⟩ := Option.bind_eq_some_iff.mp ran
      cases ran
      exact ⟨rfl, rfl, Or.inr rfl⟩
  · cases ran

theorem execvpe_dot_failed (dot : validPath path = true)
    (ran : execvpe headers behind fuel path argv env ts m = some (.failed ts' m')) :
    ts' = ts ∧ m' = m := by
  obtain ⟨⟨binValue, f⟩, searched, later⟩ := Option.bind_eq_some_iff.mp ran
  obtain ⟨task, envl, answer⟩ := setFileAddress_dot dot searched
  dsimp only at later
  rcases answer with rfl | rfl
  · rw [if_pos rfl] at later
    cases later
    exact ⟨task, rfl⟩
  · rw [if_neg (by decide), if_neg (by decide)] at later
    obtain ⟨_, same, memory⟩ := execFile_failed envl later
    exact ⟨same.trans task, memory⟩

/-- A program that is there is found. -/
theorem execvpe_found_failed (plain : validPath path = false)
    (found : getFileAddress headers (binName path) = some program) :
    execvpe headers behind fuel path argv env ts m ≠ some (.failed ts' m') := by
  intro ran
  obtain ⟨⟨binValue, f⟩, searched, later⟩ := Option.bind_eq_some_iff.mp ran
  rw [setFileAddress_plain plain found] at searched
  cases searched
  dsimp only at later
  rw [if_neg (by decide), if_pos rfl] at later
  obtain ⟨f1, loop, later⟩ := Option.bind_eq_some_iff.mp later
  obtain ⟨done, _⟩ := copyArgs_copied (.plain argv ts path program) loop
  obtain ⟨missing, _⟩ := execFile_failed done.envl later
  rw [done.fileAddress] at missing
  cases missing

/-- For one that is not, the name has been written before it is looked for. -/
theorem execvpe_missing (plain : validPath path = false) (short : (binName path).length < 100)
    (missing : getFileAddress headers (binName path) = none) :
    execvpe headers behind fuel path argv env ts m = some (.failed (renamed ts path) m) := by
  unfold execvpe setFileAddress
  simp [plain, short, missing, renamed, ExecFrame.init]

/-! ## When nothing changes -/

theorem renamed_eq : renamed ts path = ts ↔ ts.name = (binName path).map UInt8.ofBitVec := by
  constructor
  · intro same
    exact (congrArg TaskStruct.name same).symm
  · intro name
    unfold renamed
    rw [← name]

/-- A failed `execvpe` changes nothing exactly for scripts, and for programs when there is one or the
task has its name already. -/
theorem execvpe_fails_iff (headers : List TarEntry) (behind : Int) (path : List Byte)
    (argv env : List (List Byte)) (ts : TaskStruct) (m : Machine) :
    FailsClean headers behind path argv env ts m ↔ NameFits ts path ∧ (validPath path = true ∨
      (getFileAddress headers (binName path)).isSome ∨
      ts.name = (binName path).map UInt8.ofBitVec) := by
  constructor
  · rintro ⟨inside, kept⟩
    refine ⟨inside, ?_⟩
    cases dot : validPath path with
    | true => exact Or.inl rfl
    | false =>
      cases found : getFileAddress headers (binName path) with
      | some program => exact Or.inr (Or.inl rfl)
      | none =>
        have short : (binName path).length < 100 := by
          unfold NameFits at inside
          rwa [if_neg (by simp [dot])] at inside
        -- The call fails, and it has written the name: this must be the old one.
        have same := (kept 0 _ _ (execvpe_missing dot short found)).1
        exact Or.inr (Or.inr (renamed_eq.mp same))
  · rintro ⟨inside, condition⟩
    refine ⟨inside, fun fuel ts' m' ran => ?_⟩
    cases dot : validPath path with
    | true => exact execvpe_dot_failed dot ran
    | false =>
      rw [dot] at condition
      cases found : getFileAddress headers (binName path) with
      | some program => exact absurd ran (execvpe_found_failed dot found)
      | none =>
        rw [found] at condition
        have name := (condition.resolve_left (by decide)).resolve_left (by decide)
        have short : (binName path).length < 100 := by
          unfold NameFits at inside
          rwa [if_neg (by simp [dot])] at inside
        rw [execvpe_missing dot short found] at ran
        cases ran
        exact ⟨renamed_eq.mpr name, rfl⟩

/-- `c`, which is not among the commands, leaves its name behind. -/
theorem failed_exec_renames : ∃ ts',
    execvpe commands 0 0 [99] [[99]] [] (created.taskQueue 2) created.machine =
      some (.failed ts' created.machine) ∧ ts'.name ≠ (created.taskQueue 2).name ∧
    ¬FailsClean commands 0 [99] [[99]] [] (created.taskQueue 2) created.machine := by
  have other : (created.taskQueue 2).name ≠ (binName [99]).map UInt8.ofBitVec := by
    decide +kernel
  have ran : execvpe commands 0 0 [99] [[99]] [] (created.taskQueue 2) created.machine =
      some (.failed (renamed (created.taskQueue 2) [99]) created.machine) :=
    execvpe_missing (by decide) (by decide) (by decide)
  refine ⟨_, ran, Ne.symm other, fun clean => ?_⟩
  exact other (renamed_eq.mp (clean.kept 0 _ _ ran).1)

end LateOS
