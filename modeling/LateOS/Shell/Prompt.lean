import LateOS.Shell.Commands
import Mathlib.Data.List.Induction

/-!
# The prompt

Runs of `cd` and of `export PS1`. `changeDirectory` makes the new prompt from the old one, and so
keeps what the old one said about the directory.
-/
namespace LateOS.Shell

/-- What can stand behind `PS1=` in a word of a line. -/
structure Value where
  chars : List UInt8
  string : 0 ∉ chars
  word : 10 ∉ chars ∧ 32 ∉ chars
  row : chars.length < 996

/-- Without its quotation marks. -/
def Value.name (v : Value) : List UInt8 := v.chars.filter (· ≠ 34)

/-- `cd`, with an argument or without one, and `export PS1=` with a value. -/
inductive PromptCommand where
  | cd (path : Option (List UInt8))
  | exportPS1 (value : Value)

def State.run (chdir : Chdir) (s : State) : PromptCommand → Option State
  | .cd path => s.changeDirectory chdir path
  | .exportPS1 value => s.changeSbush (some ([80, 83, 49] ++ 61 :: value.chars))

/-- The first prompt, in the directory of the shell's parent. -/
def startState (currDir : List UInt8) : Option State :=
  State.setprompt ⟨[], false, currDir⟩ [115, 98, 117, 115, 104]

/-- The shell after some commands. -/
def runs (chdir : Chdir) (currDir : List UInt8) (cmds : List PromptCommand) : Option State :=
  (startState currDir).bind fun s => cmds.foldlM (State.run chdir) s

def nameAfter (name : List UInt8) : PromptCommand → List UInt8
  | .cd _ => name
  | .exportPS1 value => value.name

/-- The name last set. -/
def lastName (cmds : List PromptCommand) : List UInt8 :=
  cmds.foldl nameAfter [115, 98, 117, 115, 104]

/-- The prompt is the name, `:`, the directory and `>`, and fits. -/
structure Prompted (name : List UInt8) (s : State) : Prop where
  prompt : s.prompt = promptOf name s.currDir
  fits : s.prompt.length < 100

/-- At the start and after each command the prompt is as it should be. -/
def PromptKept (chdir : Chdir) (currDir : List UInt8) (cmds : List PromptCommand) : Prop :=
  ∀ before, before <+: cmds → ∃ s, runs chdir currDir before = some s ∧ Prompted (lastName before) s

/-- A name can be set if nothing in it ends it, it is not taken for a `&`, and it fits with the
directory. -/
structure Settable (currDir : List UInt8) (value : Value) : Prop where
  one : 61 ∉ value.name
  some : value.name ≠ []
  string : value.name ≠ [38]
  fits : (promptOf value.name currDir).length < 100

/-- No command is a `cd`, and each name can be set. -/
def Steady (currDir : List UInt8) (cmds : List PromptCommand) : Prop :=
  (promptOf [115, 98, 117, 115, 104] currDir).length < 100 ∧
    ∀ c ∈ cmds, ∃ value, c = .exportPS1 value ∧ Settable currDir value

section

variable {chdir : Chdir} {s t : State} {currDir name : List UInt8} {value : Value}
  {c : PromptCommand} {cmds : List PromptCommand} {path : Option (List UInt8)}

/-- What has been set fits, and leaves the directory as it is. -/
theorem setprompt_some {sbush : List UInt8} (set : s.setprompt sbush = some t) :
    Prompted sbush t ∧ t.currDir = s.currDir := by
  unfold State.setprompt at set
  split at set
  next fits =>
    cases set
    exact ⟨⟨rfl, fits⟩, rfl⟩
  next => cases set

/-- After a `cd` the prompt begins with the prompt before it. -/
theorem changeDirectory_prompt (changed : s.changeDirectory chdir path = some t) :
    t.prompt = promptOf s.prompt t.currDir := by
  cases path with
  | none => exact (setprompt_some changed).1.prompt
  | some path =>
    obtain ⟨answer, _, set⟩ := Option.bind_eq_some_iff.mp changed
    exact (setprompt_some set).1.prompt

theorem assigns_prompt : Assigns currDir ([80, 83, 49] ++ 61 :: value.name) ↔
    Settable currDir value := by
  have apart : (61 : UInt8) ∉ [80, 83, 49] := by decide
  by_cases alone : 61 ∉ value.name
  · rw [assigns_pair apart alone]
    constructor
    · rintro ⟨_, fits⟩
      obtain ⟨some, string, fits⟩ := fits rfl
      exact ⟨alone, some, string, fits⟩
    · rintro ⟨_, some, string, fits⟩
      exact ⟨by decide, fun _ => ⟨some, string, fits⟩⟩
  · rw [not_not] at alone
    refine ⟨fun assigns => ?_, fun settable => absurd alone settable.one⟩
    have once := assigns.once
    have more := List.count_pos_iff.mpr alone
    rw [List.count_append, List.count_cons_self] at once
    omega

/-- The word that `changeSbush` is given. -/
theorem assignment_word (value : Value) :
    10 ∉ [80, 83, 49] ++ 61 :: value.chars ∧ 32 ∉ [80, 83, 49] ++ 61 :: value.chars ∧
      ([80, 83, 49] ++ 61 :: value.chars).length < 1000 ∧
      ([80, 83, 49] ++ 61 :: value.chars).filter (· ≠ 34) = [80, 83, 49] ++ 61 :: value.name := by
  obtain ⟨newline, space⟩ := value.word
  have row := value.row
  refine ⟨by simp [newline], by simp [space], by simp; omega, by simp [Value.name]⟩

theorem export_isSome : (s.run chdir (.exportPS1 value)).isSome ↔ Settable s.currDir value := by
  obtain ⟨line, apart, row, text⟩ := assignment_word value
  rw [State.run, changeSbush_isSome line apart row, text, assigns_prompt]

/-- A name that can be set is set, and the directory stays as it is. -/
theorem export_prompt (ran : s.run chdir (.exportPS1 value) = some t) :
    Prompted value.name t ∧ t.currDir = s.currDir := by
  have settable := export_isSome.mp (Option.isSome_iff_exists.mpr ⟨t, ran⟩)
  obtain ⟨line, apart, row, text⟩ := assignment_word value
  have cut : pieces 61 ([80, 83, 49] ++ 61 :: value.chars) = [[80, 83, 49], value.name] := by
    rw [pieces_assignment apart, text, List.splitOn_append_cons_self_of_not_mem (by decide),
      List.splitOn_eq_singleton settable.one]
  have fits : Fits 3 (pieces 61 ([80, 83, 49] ++ 61 :: value.chars)) := by
    by_contra tight
    rw [State.run, changeSbush_stuck line tight] at ran
    cases ran
  rw [State.run, changeSbush_eq line fits, cut, first_cons (by simp), entry_other (by decide),
    Option.bind_some, if_pos rfl, List.tail_cons, first, if_neg settable.some,
    entry_other settable.string, Option.bind_some] at ran
  obtain ⟨prompted, same⟩ := setprompt_some ran
  exact ⟨prompted, same⟩

/-- One command: a prompt that is right stays right if and only if a name is set that can be. -/
theorem run_iff (before : s.prompt = promptOf name s.currDir) :
    (∃ t, s.run chdir c = some t ∧ Prompted (nameAfter name c) t) ↔
      ∃ value, c = .exportPS1 value ∧ Settable s.currDir value := by
  cases c with
  | cd path =>
    constructor
    · rintro ⟨t, ran, prompted⟩
      have longer := (changeDirectory_prompt ran).symm.trans prompted.prompt
      rw [before] at longer
      -- The old prompt says `:`, a directory and `>`, and the new one says so again.
      have length := congrArg List.length longer
      simp [promptOf, nameAfter] at length
      omega
    · rintro ⟨value, same, _⟩
      cases same
  | exportPS1 value =>
    constructor
    · rintro ⟨t, ran, _⟩
      exact ⟨value, rfl, export_isSome.mp (Option.isSome_iff_exists.mpr ⟨t, ran⟩)⟩
    · rintro ⟨_, same, settable⟩
      cases same
      obtain ⟨t, ran⟩ := Option.isSome_iff_exists.mp (export_isSome.mpr settable)
      exact ⟨t, ran, (export_prompt ran).1⟩

theorem runs_concat (cmds : List PromptCommand) (c : PromptCommand) :
    runs chdir currDir (cmds ++ [c]) =
      (runs chdir currDir cmds).bind fun s => s.run chdir c := by
  unfold runs
  cases startState currDir with
  | none => rfl
  | some s => simp [List.foldlM_append]

theorem steady_concat : Steady currDir (cmds ++ [c]) ↔
    Steady currDir cmds ∧ ∃ value, c = .exportPS1 value ∧ Settable currDir value := by
  unfold Steady
  constructor
  · rintro ⟨start, each⟩
    exact ⟨⟨start, fun b member => each b (List.mem_append_left _ member)⟩, each c (by simp)⟩
  · rintro ⟨⟨start, each⟩, last⟩
    refine ⟨start, fun b member => ?_⟩
    rcases List.mem_append.mp member with earlier | same
    · exact each b earlier
    · rw [List.mem_singleton.mp same]
      exact last

theorem promptKept_concat : PromptKept chdir currDir (cmds ++ [c]) ↔ PromptKept chdir currDir cmds ∧
    ∃ s, runs chdir currDir (cmds ++ [c]) = some s ∧ Prompted (lastName (cmds ++ [c])) s := by
  unfold PromptKept
  simp only [List.prefix_concat_iff, forall_eq_or_imp]
  exact and_comm

theorem lastName_concat (cmds : List PromptCommand) (c : PromptCommand) :
    lastName (cmds ++ [c]) = nameAfter (lastName cmds) c := by
  simp [lastName]

theorem startState_iff : (∃ s, startState currDir = some s ∧ Prompted [115, 98, 117, 115, 104] s) ↔
    (promptOf [115, 98, 117, 115, 104] currDir).length < 100 := by
  constructor
  · rintro ⟨s, started, _⟩
    exact setprompt_isSome.mp (Option.isSome_iff_exists.mpr ⟨s, started⟩)
  · intro fits
    obtain ⟨s, started⟩ := Option.isSome_iff_exists.mp
      (setprompt_isSome (s := ⟨[], false, currDir⟩).mpr fits)
    exact ⟨s, started, (setprompt_some started).1⟩

/-- A run of names that can be set ends in the directory where it began. -/
theorem steady_runs (chdir : Chdir) (steady : Steady currDir cmds) :
    ∃ s, runs chdir currDir cmds = some s ∧ s.currDir = currDir ∧ Prompted (lastName cmds) s := by
  induction cmds using List.reverseRecOn with
  | nil =>
    obtain ⟨s, started, prompted⟩ := startState_iff.mpr steady.1
    refine ⟨s, ?_, (setprompt_some started).2, prompted⟩
    rw [runs, started]
    rfl
  | append_singleton cmds c ih =>
    obtain ⟨before, value, rfl, settable⟩ := steady_concat.mp steady
    obtain ⟨s, ran, same, prompted⟩ := ih before
    rw [← same] at settable
    obtain ⟨t, last⟩ : ∃ t, s.run chdir (.exportPS1 value) = some t :=
      Option.isSome_iff_exists.mp (export_isSome.mpr settable)
    obtain ⟨right, stays⟩ := export_prompt last
    refine ⟨t, ?_, stays.trans same, ?_⟩
    · rw [runs_concat, ran]
      exact last
    · rw [lastName_concat]
      exact right

/-- The prompt is kept in the runs that meet `Steady`, and in no others. -/
theorem prompt_kept_iff (chdir : Chdir) (currDir : List UInt8) (cmds : List PromptCommand) :
    PromptKept chdir currDir cmds ↔ Steady currDir cmds := by
  induction cmds using List.reverseRecOn with
  | nil =>
    constructor
    · intro kept
      obtain ⟨s, ran, prompted⟩ := kept [] List.prefix_rfl
      obtain ⟨s', started, last⟩ := Option.bind_eq_some_iff.mp ran
      cases last
      exact ⟨startState_iff.mp ⟨s, started, prompted⟩, nofun⟩
    · intro steady before initial
      rw [List.prefix_nil.mp initial]
      obtain ⟨s, ran, _, prompted⟩ := steady_runs chdir steady
      exact ⟨s, ran, prompted⟩
  | append_singleton cmds c ih =>
    rw [promptKept_concat, steady_concat, ih, and_congr_right_iff]
    intro steady
    -- Before the last command the shell is where it began.
    obtain ⟨s, ran, same, prompted⟩ := steady_runs chdir steady
    rw [runs_concat, ran, Option.bind_some, lastName_concat, run_iff prompted.prompt, same]

end

/-! ## `cd` -/

/-- `cd` without an argument, in the root directory. -/
theorem cd_prompt : (runs chdirOne [47] [.cd none]).map State.prompt =
      some ([115, 98, 117, 115, 104, 58, 47, 62] ++ [58, 47, 62]) ∧
    ¬PromptKept chdirOne [47] [.cd none] := by
  have shown : (runs chdirOne [47] [.cd none]).map (fun s => (s.prompt, s.currDir)) =
      some ([115, 98, 117, 115, 104, 58, 47, 62, 58, 47, 62], [47]) := by
    decide +kernel
  refine ⟨by decide +kernel, fun kept => ?_⟩
  obtain ⟨s, ran, prompted⟩ := kept [.cd none] List.prefix_rfl
  rw [ran, Option.map_some, Option.some_inj, Prod.mk.injEq] at shown
  have right := prompted.prompt
  rw [shown.1, shown.2] at right
  revert right
  decide

end LateOS.Shell
