import LateOS.Memory.Exec

/-!
# Arguments of exec

`execvpe` with the loops that copy the strings of its caller, and the way of these strings over the
stack of the new program into the arrays of `_start`.
-/
namespace LateOS

open Lib Machine

/-! ## Finding the program -/

/-- A header of the archive: its name, and what the loaders find 512 bytes behind it. -/
structure TarEntry where
  name : List Byte
  short : name.length < 100
  file : Elf

/-- The answer of the source for no such file is `-1`. -/
def getFileAddress (headers : List TarEntry) (filename : List Byte) : Option Elf :=
  (headers.find? fun h => h.name = filename).map TarEntry.file

def validPath (ref : List Byte) : Bool := ref.take 2 = [46, 47]

/-- `"bin/"` and the path. -/
def binName (path : List Byte) : List Byte := [98, 105, 110, 47] ++ path

/-- `"bin/sbush"`. -/
def sbush : List Byte := binName [115, 98, 117, 115, 104]

def scriptName (ts : TaskStruct) (path : List Byte) : List Byte :=
  (ts.currDir.map UInt8.toBitVec).drop 1 ++ path.drop 2

/-- The line of a script from byte `i` on, without its blanks. -/
def scriptLine (content : Nat → Option Byte) : Nat → Nat → Option (List Byte)
  | 0, _ => none
  | fuel + 1, i => do
    let c ← content i
    if c = 10 then some []
    else if c = 32 then scriptLine content fuel (i + 1)
    else (scriptLine content fuel (i + 1)).map (c :: ·)

/-- The program that a script is run with. `ex` has 100 bytes, and a 0 in it ends the name. -/
def interpreter (headers : List TarEntry) (fuel : Nat) (script : Elf) : Option (Option Elf) :=
  if script.content 0 = some 33 ∧ script.content 1 = some 35 then do
    let line ← scriptLine script.content fuel 2
    let ex := line.takeWhile (· ≠ 0)
    if line.length < 100 then some (getFileAddress headers (if ex = [] then sbush else ex)) else none
  else some (getFileAddress headers sbush)

/-! ## Copying the strings -/

/-- `strcpy` to row `i` of an array of 100 rows of 100 bytes; nothing is said of what happens
outside. -/
def strcpyRow (rows : Nat → List Byte) (i : Int) (str : List Byte) : Option (Nat → List Byte) :=
  if 0 ≤ i ∧ i < 100 ∧ str.length < 100 then some (Function.update rows i.toNat str) else none

/-- The locals of `execvpe`, with the current task. Rows that are not written are not read. -/
structure ExecFrame where
  ts : TaskStruct
  fileAddress : Option Elf
  argc : Nat
  envl : Nat
  args : Nat → List Byte
  envs : Nat → List Byte

/-- The locals of `execvpe` at its start. -/
def ExecFrame.init (ts : TaskStruct) : ExecFrame :=
  { ts, fileAddress := none, argc := 0, envl := 0, args := fun _ => [], envs := fun _ => [] }

/-- The value returned, and the locals. In `*argc++` the pointer is incremented and not the count:
the first string goes to row `argc`, and the second one to the row with the number `behind`, which
stands behind `argc` in the frame of `execvpe`. -/
def setFileAddress (headers : List TarEntry) (behind : Int) (fuel : Nat) (path : List Byte)
    (argv : List (List Byte)) (f : ExecFrame) : Option (Int × ExecFrame) :=
  if validPath path then
    if (scriptName f.ts path).length < 100 then
      match getFileAddress headers (scriptName f.ts path) with
      | none => some (-1, f)
      | some script => do
        let fileAddress ← interpreter headers fuel script
        let first ← argv[0]?
        let args ← strcpyRow f.args f.argc first
        let args ← strcpyRow args behind (path.drop 2)
        some (1, { f with fileAddress := fileAddress, args := args })
    else none
  else if (binName path).length < 100 then
    let f := { f with
      ts := { f.ts with name := (binName path).map UInt8.ofBitVec },
      fileAddress := getFileAddress headers (binName path) }
    match f.fileAddress with
    | none => some (-1, f)
    | some _ => some (0, f)
  else none

/-- `while (argv[argc])`. -/
def copyArgs (argv : List (List Byte)) : Nat → ExecFrame → Option ExecFrame
  | 0, _ => none
  | fuel + 1, f =>
    match argv[f.argc]? with
    | none => some f
    | some str => do
      let args ← strcpyRow f.args f.argc str
      copyArgs argv fuel { f with args := args, argc := f.argc + 1 }

/-- `while (env[envl])`, which counts `argc` up. -/
def copyEnvs (env : List (List Byte)) : Nat → ExecFrame → Option ExecFrame
  | 0, _ => none
  | fuel + 1, f =>
    match env[f.envl]? with
    | none => some f
    | some str => do
      let envs ← strcpyRow f.envs f.envl str
      copyEnvs env fuel { f with envs := envs, argc := f.argc + 1 }

/-- How `execvpe` ends: it returns `-1`, or the task goes on with the new program. -/
inductive Exec where
  | failed (ts : TaskStruct) (m : Machine)
  | entered (ts : TaskStruct) (m : Machine)

/-- From the loop over `env` on. -/
def execFile (env : List (List Byte)) (fuel : Nat) (m : Machine) (f : ExecFrame) : Option Exec := do
  let f ← copyEnvs env fuel f
  match f.fileAddress with
  | none => some (.failed f.ts m)
  | some file => do
    let (ts, m) ← execImage file ((List.range f.envl).map f.envs) ((List.range f.argc).map f.args) f.ts m
    some (.entered ts m)

def execvpe (headers : List TarEntry) (behind : Int) (fuel : Nat) (path : List Byte)
    (argv env : List (List Byte)) (ts : TaskStruct) (m : Machine) : Option Exec := do
  let (binValue, f) ← setFileAddress headers behind fuel path argv (.init ts)
  if binValue = -1 then some (.failed f.ts m)
  else if binValue = 0 then (copyArgs argv fuel f).bind (execFile env fuel m)
  else execFile env fuel m f

variable {headers : List TarEntry} {behind : Int} {fuel : Nat} {path : List Byte}
  {argv env : List (List Byte)} {ts ts' : TaskStruct} {m m' : Machine} {use : Word → Use}
  {f f' : ExecFrame} {rows rows' : Nat → List Byte} {i : Int} {str : List Byte} {binValue : Int}

/-! ## The loops -/

theorem strcpyRow_eq (copied : strcpyRow rows i str = some rows') :
    rows' = Function.update rows i.toNat str := by
  unfold strcpyRow at copied
  split at copied
  · cases copied
    rfl
  · cases copied

/-- The strings before `argc` have been copied, and nothing else has been touched. -/
structure Copied (argv : List (List Byte)) (start f : ExecFrame) : Prop where
  ts : f.ts = start.ts
  fileAddress : f.fileAddress = start.fileAddress
  envl : f.envl = start.envl
  bound : f.argc ≤ argv.length
  rows : ∀ i < f.argc, argv[i]? = some (f.args i)

theorem Copied.next {start : ExecFrame} (copied : Copied argv start f)
    (found : argv[f.argc]? = some str) (row : strcpyRow f.args f.argc str = some rows) :
    Copied argv start { f with args := rows, argc := f.argc + 1 } := by
  rw [strcpyRow_eq row, Int.toNat_natCast]
  constructor
  case ts => exact copied.ts
  case fileAddress => exact copied.fileAddress
  case envl => exact copied.envl
  case bound => exact (List.getElem?_eq_some_iff.mp found).1
  case rows =>
    intro i below
    dsimp only at below ⊢
    by_cases last : i = f.argc
    · subst last
      rw [Function.update_self]
      exact found
    · have earlier : i < f.argc := Nat.lt_of_le_of_ne (Nat.le_of_lt_succ below) last
      rw [Function.update_of_ne last]
      exact copied.rows i earlier

theorem copyArgs_copied {start : ExecFrame} (copied : Copied argv start f)
    (ran : copyArgs argv fuel f = some f') : Copied argv start f' ∧ f'.argc = argv.length := by
  induction fuel generalizing f with
  | zero => cases ran
  | succ fuel ih =>
    rw [copyArgs] at ran
    split at ran
    next last =>
      cases ran
      have ended := List.getElem?_eq_none_iff.mp last
      exact ⟨copied, Nat.le_antisymm copied.bound ended⟩
    next str found =>
      obtain ⟨args, row, ran⟩ := Option.bind_eq_some_iff.mp ran
      exact ih (copied.next found row) ran

/-- The loop over `argv` ends. -/
theorem copyArgs_total (few : argv.length ≤ 100) (short : Fits argv) (f : ExecFrame) :
    ∃ f', copyArgs argv (argv.length - f.argc + 1) f = some f' := by
  generalize left : argv.length - f.argc = fuel
  induction fuel generalizing f with
  | zero =>
    have ended : argv[f.argc]? = none := List.getElem?_eq_none_iff.mpr (by omega)
    rw [copyArgs, ended]
    exact ⟨f, rfl⟩
  | succ fuel ih =>
    have inside : f.argc < argv.length := by omega
    have found := List.getElem?_eq_getElem inside
    have fits := short _ (List.getElem_mem inside)
    -- There are rows enough for all strings of `argv`.
    have row : strcpyRow f.args f.argc argv[f.argc] =
        some (Function.update f.args f.argc argv[f.argc]) := if_pos ⟨by omega, by omega, fits⟩
    obtain ⟨f', later⟩ := ih { f with
      args := Function.update f.args f.argc argv[f.argc], argc := f.argc + 1 } (by dsimp only; omega)
    refine ⟨f', ?_⟩
    rw [copyArgs, found]
    dsimp only
    rw [row]
    exact later

theorem Copied.args {start : ExecFrame} (copied : Copied argv start f) (all : f.argc = argv.length) :
    (List.range f.argc).map f.args = argv := by
  apply List.ext_getElem?
  intro i
  by_cases inside : i < f.argc
  · rw [copied.rows i inside]
    simp [inside]
  · have ended : argv[i]? = none := List.getElem?_eq_none_iff.mpr (by omega)
    rw [ended]
    simp [inside]

/-- The loop over `env` does not count `envl` up: it ends where there is nothing to copy. -/
theorem copyEnvs_iff (first : f.envl = 0) :
    copyEnvs env fuel f = some f' ↔ 0 < fuel ∧ env = [] ∧ f' = f := by
  constructor
  · intro ran
    cases fuel with
    | zero => cases ran
    | succ fuel =>
      cases env with
      | nil =>
        rw [copyEnvs, first] at ran
        cases ran
        exact ⟨Nat.succ_pos fuel, rfl, rfl⟩
      | cons str rest =>
        -- Every round finds the first string again.
        exfalso
        generalize fuel + 1 = n at ran
        induction n generalizing f with
        | zero => cases ran
        | succ n ih =>
          rw [copyEnvs, first] at ran
          obtain ⟨envs, _, ran⟩ := Option.bind_eq_some_iff.mp ran
          apply ih _ ran
          rfl
  · rintro ⟨positive, rfl, rfl⟩
    cases fuel with
    | zero => cases positive
    | succ fuel =>
      rw [copyEnvs, first]
      rfl

/-! ## What main is called with -/

/-- The file that `execvpe` loads. -/
def Found (headers : List TarEntry) (ts : TaskStruct) (path : List Byte) (program : Elf) : Prop :=
  if validPath path then ∃ script fuel, getFileAddress headers (scriptName ts path) = some script ∧
    interpreter headers fuel script = some (some program)
  else getFileAddress headers (binName path) = some program

/-- The arguments that the program should get. -/
def wantedArgs (path : List Byte) (argv : List (List Byte)) : List (List Byte) :=
  if validPath path then [argv.headD [], path.drop 2] else argv

/-- `execvpe` ends, and the `main` of the new program is called with `args` and `env`. -/
def Passes (headers : List TarEntry) (behind : Int) (path : List Byte) (argv env : List (List Byte))
    (ts : TaskStruct) (m : Machine) : Prop :=
  ∃ fuel ts' m', execvpe headers behind fuel path argv env ts m = some (.entered ts' m') ∧
    ∃ argvStart envStart,
      m'.start ts'.pml4e ts'.rsp = some (((wantedArgs path argv).length : Int), argvStart, envStart) ∧
      List.Forall₂ (m'.StringAt ts'.pml4e) argvStart (wantedArgs path argv) ∧
      List.Forall₂ (m'.StringAt ts'.pml4e) envStart env

theorem stringWords_le {strs : List (List Byte)} (short : Fits strs) :
    stringWords strs ≤ 100 * strs.length := by
  induction strs with
  | nil => exact Nat.le_refl _
  | cons str rest ih =>
    have fits := short str (by simp)
    have later := ih fun s member => short s (by simp [member])
    have size : stringWords (str :: rest) = str.length + 1 + stringWords rest := rfl
    rw [List.length_cons]
    omega

theorem getFileAddress_short {name : List Byte} {program : Elf}
    (found : getFileAddress headers name = some program) : name.length < 100 := by
  obtain ⟨entry, member, rfl⟩ := Option.map_eq_some_iff.mp found
  have same := List.find?_some member
  rw [decide_eq_true_eq] at same
  rw [← same]
  exact entry.short

/-- The locals for a plain command. -/
def ExecFrame.plain (ts : TaskStruct) (path : List Byte) (program : Elf) : ExecFrame :=
  { ExecFrame.init ts with
    ts := { ts with name := (binName path).map UInt8.ofBitVec }, fileAddress := some program }

theorem Copied.plain (argv : List (List Byte)) (ts : TaskStruct) (path : List Byte) (program : Elf) :
    Copied argv (.plain ts path program) (.plain ts path program) :=
  ⟨rfl, rfl, rfl, Nat.zero_le _, nofun⟩

theorem setFileAddress_plain {program : Elf} (plain : validPath path = false)
    (found : getFileAddress headers (binName path) = some program) :
    setFileAddress headers behind fuel path argv (.init ts) = some (0, .plain ts path program) := by
  unfold setFileAddress
  simp [plain, getFileAddress_short found, found, ExecFrame.plain, ExecFrame.init]

/-- A line is the same however long one waits for it. -/
theorem scriptLine_unique {content : Nat → Option Byte} {fuel' i : Nat} {line line' : List Byte}
    (one : scriptLine content fuel i = some line) (other : scriptLine content fuel' i = some line') :
    line = line' := by
  induction fuel generalizing fuel' i line line' with
  | zero => cases one
  | succ fuel ih =>
    cases fuel' with
    | zero => cases other
    | succ fuel' =>
      obtain ⟨c, here, one⟩ := Option.bind_eq_some_iff.mp one
      obtain ⟨c', here', other⟩ := Option.bind_eq_some_iff.mp other
      rw [here] at here'
      cases here'
      split at one
      next ended =>
        rw [if_pos ended] at other
        cases one
        cases other
        rfl
      next more =>
        rw [if_neg more] at other
        split at one
        next blank =>
          rw [if_pos blank] at other
          exact ih one other
        next =>
          rw [if_neg ‹_›] at other
          obtain ⟨rest, before, rfl⟩ := Option.map_eq_some_iff.mp one
          obtain ⟨rest', before', rfl⟩ := Option.map_eq_some_iff.mp other
          rw [ih before before']

theorem interpreter_unique {script : Elf} {fuel' : Nat} {file file' : Option Elf}
    (one : interpreter headers fuel script = some file)
    (other : interpreter headers fuel' script = some file') : file = file' := by
  unfold interpreter at one other
  split at one
  next marked =>
    rw [if_pos marked] at other
    obtain ⟨ex, line, one⟩ := Option.bind_eq_some_iff.mp one
    obtain ⟨ex', line', other⟩ := Option.bind_eq_some_iff.mp other
    cases scriptLine_unique line line'
    rw [one] at other
    exact Option.some.inj other
  next plain =>
    rw [if_neg plain] at other
    rw [one] at other
    exact Option.some.inj other

/-- A script is run with the counts that `execvpe` starts with. -/
theorem setFileAddress_script {script : Elf} {program : Option Elf} (dot : validPath path = true)
    (found : getFileAddress headers (scriptName ts path) = some script)
    {fuel' : Nat} (run : interpreter headers fuel' script = some program)
    (ran : setFileAddress headers behind fuel path argv (.init ts) = some (binValue, f)) :
    binValue = 1 ∧ f.argc = 0 ∧ f.envl = 0 ∧ f.ts = ts ∧ f.fileAddress = program := by
  unfold setFileAddress at ran
  rw [if_pos dot] at ran
  split at ran
  next =>
    change (match getFileAddress headers (scriptName ts path) with
      | none => some ((-1 : Int), ExecFrame.init ts)
      | some script => _) = _ at ran
    rw [found] at ran
    obtain ⟨file, answer, ran⟩ := Option.bind_eq_some_iff.mp ran
    obtain ⟨_, _, ran⟩ := Option.bind_eq_some_iff.mp ran
    obtain ⟨_, _, ran⟩ := Option.bind_eq_some_iff.mp ran
    obtain ⟨_, _, ran⟩ := Option.bind_eq_some_iff.mp ran
    cases ran
    exact ⟨rfl, rfl, rfl, rfl, interpreter_unique answer run⟩
  next => cases ran

theorem execFile_entered {file : Elf} (envl : f.envl = 0) (address : f.fileAddress = some file)
    (ran : execFile env fuel m f = some (.entered ts' m')) : env = [] ∧
      execImage file [] ((List.range f.argc).map f.args) f.ts m = some (ts', m') := by
  obtain ⟨f1, loop, later⟩ := Option.bind_eq_some_iff.mp ran
  obtain ⟨_, empty, same⟩ := (copyEnvs_iff envl).mp loop
  rw [same, address] at later
  obtain ⟨⟨ts2, m2⟩, loaded, entered⟩ := Option.bind_eq_some_iff.mp later
  cases entered
  rw [envl] at loaded
  exact ⟨empty, loaded⟩

/-- What a successful `execvpe` has loaded: there was no environment, a plain command has its
arguments, and a script has none. -/
theorem execvpe_entered {program : Elf} (found : Found headers ts path program)
    (ran : execvpe headers behind fuel path argv env ts m = some (.entered ts' m')) :
    env = [] ∧ ∃ ts1, ts1.pml4e = ts.pml4e ∧
      execImage program [] (if validPath path then [] else argv) ts1 m = some (ts', m') := by
  obtain ⟨⟨binValue, f⟩, searched, later⟩ := Option.bind_eq_some_iff.mp ran
  dsimp only at later
  unfold Found at found
  cases dot : validPath path with
  | true =>
    rw [if_pos dot] at found
    obtain ⟨script, fuel', name, run⟩ := found
    obtain ⟨rfl, argc, envl, task, file⟩ := setFileAddress_script dot name run searched
    obtain ⟨empty, loaded⟩ := execFile_entered envl file (by simpa using later)
    rw [argc] at loaded
    exact ⟨empty, f.ts, by rw [task], loaded⟩
  -- For a plain command the loop has copied all of `argv`.
  | false =>
    rw [if_neg (by simp [dot])] at found
    rw [setFileAddress_plain dot found] at searched
    cases searched
    rw [if_neg (by decide), if_pos rfl] at later
    obtain ⟨f1, loop, later⟩ := Option.bind_eq_some_iff.mp later
    obtain ⟨done, all⟩ := copyArgs_copied (.plain argv ts path program) loop
    obtain ⟨empty, loaded⟩ := execFile_entered done.envl done.fileAddress later
    rw [done.args all] at loaded
    exact ⟨empty, f1.ts, by rw [done.ts]; rfl, loaded⟩

/-- A plain command is loaded with its arguments. -/
theorem execvpe_plain {program : Elf} (plain : validPath path = false)
    (found : getFileAddress headers (binName path) = some program) (few : argv.length ≤ 100)
    (short : Fits argv)
    (loaded : execImage program [] argv (ExecFrame.plain ts path program).ts m = some (ts', m')) :
    execvpe headers behind (argv.length + 1) path argv [] ts m = some (.entered ts' m') := by
  -- One round for each string, and one that finds the NULL.
  obtain ⟨f1, loop⟩ := copyArgs_total few short (.plain ts path program)
  obtain ⟨done, all⟩ := copyArgs_copied (.plain argv ts path program) loop
  have envs : copyEnvs [] (argv.length + 1) f1 = some f1 :=
    (copyEnvs_iff done.envl).mpr ⟨Nat.succ_pos _, rfl, rfl⟩
  unfold execvpe
  rw [setFileAddress_plain plain found, Option.bind_eq_bind, Option.bind_some]
  dsimp only
  rw [if_neg (by decide), if_pos rfl]
  change copyArgs argv (argv.length + 1) _ = _ at loop
  rw [loop, Option.bind_some]
  unfold execFile
  have row : (List.range f1.envl).map f1.envs = [] := by
    rw [done.envl]
    rfl
  rw [envs, Option.bind_eq_bind, Option.bind_some, done.fileAddress, done.args all, row, done.ts]
  change (execImage program [] argv (ExecFrame.plain ts path program).ts m).bind _ = _
  rw [loaded]
  rfl

/-! ## Which calls pass their strings on -/

/-- Pages below the first one that 20 arguments may need. -/
abbrev argPages : Nat := 3

/-- Frames are enough to load the program, and the bytes that the loaders read are there. -/
structure Ready (program : Image) (m : Machine) : Prop where
  given : ∀ ep ∈ program.segments, ∀ k < ep.p_filesz,
    (program.content (64 * ep.p_offset + k)).isSome
  enough : program.frames + 4 * argPages + 6 ≤ m.head.length

theorem stackWords_le {args : List (List Byte)} (short : Fits args) :
    stackWords [] args ≤ 101 * args.length + 3 := by
  have words := stringWords_le short
  have none : stringWords [] = 0 := rfl
  unfold stackWords
  rw [none, List.length_nil]
  omega

section

variable {program : Image}

/-- A call that passes its strings on is one of a plain command. -/
theorem Passes.plain (passes : Passes headers behind path argv env ts m)
    (found : Found headers ts path program.toElf) (few : argv.length ≤ 100) (short : Fits argv)
    (sound : m.Sound use) (root : use ts.pml4e = .table ts.pml4e []) (ready : Ready program m) :
    validPath path = false ∧ env = [] ∧ argv.length ≤ 20 := by
  have value := stackS_eq
  obtain ⟨fuel, ts', m', ran, argvStart, envStart, started, -, -⟩ := passes
  obtain ⟨empty, ts1, task, loaded⟩ := execvpe_entered found ran
  rw [← task] at root
  obtain ⟨ts2, m2, use2, growable, rsp, begins⟩ := sound.execImage_begins root ready.given
    ready.enough (by decide) [] (if validPath path then [] else argv)
  rw [loaded, setRSPandExec_eq, rsp] at begins
  obtain ⟨m3, stored, same⟩ := Option.bind_eq_some_iff.mp begins.symm
  cases same
  have shortA : Fits (if validPath path then [] else argv) := by
    split
    · exact nofun
    · exact short
  have lengthA : (if validPath path then [] else argv).length ≤ 100 := by
    split
    · exact Nat.zero_le _
    · exact few
  have words := stackWords_le shortA
  obtain ⟨ptrs, ptrsE, layout⟩ := stackOf_layout []
    (if validPath path then [] else argv) (stackS + 510 * 8) (by omega)
  obtain ⟨count, most⟩ := layout.few growable.neat.own (by decide) (by omega) stored started
  -- A script gets no arguments instead of two.
  cases dot : validPath path with
  | true =>
    unfold wantedArgs at count
    rw [if_pos dot, if_pos dot] at count
    cases count
  | false =>
    rw [if_neg (by simp [dot])] at most
    exact ⟨rfl, empty, most⟩

/-- Up to 20 arguments of a plain command arrive. -/
theorem passes_of_plain (behind : Int) (plain : validPath path = false)
    (found : getFileAddress headers (binName path) = some program.toElf) (most : argv.length ≤ 20)
    (short : Fits argv) (sound : m.Sound use) (root : use ts.pml4e = .table ts.pml4e [])
    (ready : Ready program m) : Passes headers behind path argv [] ts m := by
  have value := stackS_eq
  have pages : argPages = 3 := rfl
  have words := stackWords_le short
  have rootP : use (ExecFrame.plain ts path program.toElf).ts.pml4e =
    .table (ExecFrame.plain ts path program.toElf).ts.pml4e [] := root
  have fits : 8 * stackWords [] argv ≤ 4096 * argPages + 510 * 8 := by omega
  obtain ⟨ts', m', loaded⟩ := sound.execImage_total rootP ready.given ready.enough (by decide) fits
  obtain ⟨ts2, m2, use2, growable, rsp, begins⟩ :=
    sound.execImage_begins rootP ready.given ready.enough (by decide) [] argv
  rw [loaded, setRSPandExec_eq, rsp] at begins
  obtain ⟨m3, stored, same⟩ := Option.bind_eq_some_iff.mp begins.symm
  cases same
  obtain ⟨ptrs, ptrsE, layout⟩ := stackOf_layout [] argv (stackS + 510 * 8) (by omega)
  have own := growable.neat.own
  have wanted : wantedArgs path argv = argv := if_neg (by simp [plain])
  refine ⟨argv.length + 1, _, m', execvpe_plain plain found (by omega) short loaded, ptrs, ptrsE, ?_⟩
  rw [wanted]
  have started := layout.start own (by decide) (by omega) most (by decide) stored
  refine ⟨started, ?_, ?_⟩
  · exact layout.argStrings.imp fun v str place => layout.pushed.stringAt own (by decide) stored place
  · exact layout.envStrings.imp fun v str place => layout.pushed.stringAt own (by decide) stored place

end

/-- Strings go from the caller to `main` for plain commands with at most 20 arguments and without
an environment, and in no other call. -/
theorem execvpe_passes_iff (headers : List TarEntry) (behind : Int) (path : List Byte)
    (argv env : List (List Byte)) (ts : TaskStruct) (m : Machine) (use : Word → Use) (program : Image)
    (found : Found headers ts path program.toElf) (few : argv.length ≤ 100) (short : Fits argv)
    (sound : m.Sound use) (root : use ts.pml4e = .table ts.pml4e []) (ready : Ready program m) :
    Passes headers behind path argv env ts m ↔
      validPath path = false ∧ env = [] ∧ argv.length ≤ 20 := by
  constructor
  · intro passes
    exact passes.plain found few short sound root ready
  · rintro ⟨plain, rfl, most⟩
    unfold Found at found
    rw [if_neg (by simp [plain])] at found
    exact passes_of_plain behind plain found most short sound root ready

/-- `bin/a` and `bin/sbush`, and a script `s`. -/
def commands : List TarEntry :=
  [⟨binName [97], by decide, emptyImage.toElf⟩, ⟨sbush, by decide, emptyImage.toElf⟩,
    ⟨[115], by decide, emptyImage.toElf⟩]

theorem created_commands : (created.taskQueue 2).currDir = [47] ∧ 18 ≤ created.machine.head.length := by
  decide +kernel

theorem emptyImage_ready : Ready emptyImage created.machine := by
  constructor
  case given => exact emptyImage_given
  case enough => exact created_commands.2

theorem commands_found : Found commands (created.taskQueue 2) [97] emptyImage.toElf ∧
    Found commands (created.taskQueue 2) [46, 47, 115] emptyImage.toElf := by
  constructor
  · unfold Found
    rw [if_neg (by decide)]
    rfl
  · unfold Found
    rw [if_pos (by decide)]
    have name : scriptName (created.taskQueue 2) [46, 47, 115] = [115] := by
      unfold scriptName
      rw [created_commands.1]
      rfl
    exact ⟨emptyImage.toElf, 0, by rw [name]; rfl, rfl⟩

/-- `a`, `-l`, an empty string and `b/x`. -/
def commandLine : List (List Byte) := [[97], [45, 108], [], [98, 47, 120]]

theorem fits_commandLine : Fits commandLine := by
  unfold Fits commandLine
  decide

/-- All four arguments of `a` arrive. -/
theorem execvpe_passes_of_created :
    Passes commands 0 [97] commandLine [] (created.taskQueue 2) created.machine := by
  obtain ⟨use, sound, root⟩ := created_sound
  have passes := execvpe_passes_iff commands 0 [97] commandLine [] (created.taskQueue 2)
    created.machine use emptyImage commands_found.1 (by decide) fits_commandLine sound root
    emptyImage_ready
  exact passes.mpr ⟨by decide, rfl, by decide⟩

theorem fits_single : Fits [[97]] := by
  intro str member
  rw [List.mem_singleton.mp member]
  decide

/-- `a` with an environment, and the script `./s`. -/
theorem created_strings_lost :
    Found commands (created.taskQueue 2) [97] emptyImage.toElf ∧
    Found commands (created.taskQueue 2) [46, 47, 115] emptyImage.toElf ∧
    ¬Passes commands 0 [97] [[97]] [[69]] (created.taskQueue 2) created.machine ∧
    ¬Passes commands 0 [46, 47, 115] [[97]] [] (created.taskQueue 2) created.machine := by
  obtain ⟨use, sound, root⟩ := created_sound
  obtain ⟨plain, script⟩ := commands_found
  refine ⟨plain, script, fun passes => ?_, fun passes => ?_⟩
  · have all := passes.plain plain (by decide) fits_single sound root emptyImage_ready
    cases all.2.1
  · have all := passes.plain script (by decide) fits_single sound root emptyImage_ready
    exact absurd all.1 (by decide)

end LateOS
