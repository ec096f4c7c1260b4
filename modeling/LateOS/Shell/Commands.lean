import LateOS.Shell.Tokens
import LateOS.Lib.Splitting
import LateOS.Files.Chdir
import Mathlib.Data.List.TakeWhile

/-!
# The commands

`parseInput`, and what becomes of the shell under each of the lines it can be given.
-/
namespace LateOS.Shell

/-- The prompt and the flag, and the directory that the kernel keeps for the shell. -/
structure State where
  prompt : List UInt8
  isBackground : Bool
  currDir : List UInt8

/-- `chdir` of the C library: what it returns, and the directory after it. -/
abbrev Chdir := (currDir path : List UInt8) → Option (Int × List UInt8)

/-- It puts a `/` behind the path, in 100 bytes, and looks in front of the path if that is empty.
The system call finds the directory in the archive. -/
def libcChdir (headers : List TarHeader) (fpath k : Buffer) : Chdir := fun currDir path =>
  let filePath := if path.getLast? = some 47 then path else path ++ [47]
  if path ≠ [] ∧ filePath.length < 100 then LateOS.chdir headers currDir filePath fpath k else none

/-- `args[i]`, NULL or a string. -/
def Tokens.arg (t : Tokens) (i : Nat) : Option (List UInt8) := t.strs[i]?.join

/-- The argument, `:`, the directory and `>`. -/
def promptOf (sbush currDir : List UInt8) : List UInt8 :=
  sbush ++ [58] ++ getCurrentDirectory currDir ++ [62]

/-- `setprompt`, which is undefined when the string and its terminator do not fit in `prompt`. The
argument may be `prompt` itself, which `strcpy` then leaves as it is. -/
def State.setprompt (s : State) (sbush : List UInt8) : Option State :=
  if (promptOf sbush s.currDir).length < 100 then
    some { s with prompt := promptOf sbush s.currDir }
  else none

/-- The prompt is set whether `chdir` has been called or not, and whatever it returned. -/
def State.changeDirectory (chdir : Chdir) (s : State) : Option (List UInt8) → Option State
  | none => s.setprompt s.prompt
  | some path =>
    (chdir s.currDir path).bind fun (_, currDir) => { s with currDir := currDir }.setprompt s.prompt

/-- `changeSbush`, which does not look whether it is given a string. -/
def State.changeSbush (s : State) : Option (List UInt8) → Option State
  | none => none
  | some str =>
    (strtokBeta 61 3 s.isBackground str).bind fun t =>
      (t.arg 0).bind fun variable_ =>
        -- `PS1`
        if variable_ = [80, 83, 49] then
          (t.arg 1).bind { s with isBackground := t.isBackground }.setprompt
        else some { s with isBackground := t.isBackground }

/-- `parseInput`: `cd`, `export`, and the commands `clear`, `pwd` and all others, by which the
prompt and the directory stay as they are. -/
def State.parseInput (chdir : Chdir) (s : State) (str : List UInt8) : Option State :=
  (strtokBeta 124 1000 s.isBackground str).bind fun bars =>
    (strtokBeta 32 1000 bars.isBackground str).bind fun t =>
      (t.arg 0).bind fun command =>
        let s := { s with isBackground := t.isBackground }
        -- `cd`
        if command = [99, 100] then s.changeDirectory chdir (t.arg 1)
        -- `export`
        else if command = [101, 120, 112, 111, 114, 116] then s.changeSbush (t.arg 1)
        -- `clearScreen`, `getPWD` and `execCommand`
        else some s

/-! ## Lines that are survived -/

/-- The string for the first of some pieces, up to the end of the line. There is none for `&`, and
none for an empty end. -/
def first : List (List UInt8) → Option (List UInt8)
  | [] => none
  | [p] => if p = [] then none else entry p
  | p :: _ => entry p

/-- Where `cd` leads. -/
def directoryAfter (chdir : Chdir) (currDir : List UInt8) :
    Option (List UInt8) → Option (List UInt8)
  | none => some currDir
  | some path => (chdir currDir path).map Prod.snd

/-- What is left of an assignment without its quotation marks: a name, and a value behind the only
`=` where there is one. The prompt needs a value, and one that fits. -/
structure Assigns (currDir text : List UInt8) : Prop where
  once : text.count 61 ≤ 1
  some : text ≠ []
  name : text.takeWhile (· ≠ 61) ≠ [38]
  value : text.takeWhile (· ≠ 61) = [80, 83, 49] →
    ∃ value, text = [80, 83, 49] ++ 61 :: value ∧ value ≠ [] ∧ value ≠ [38] ∧
      (promptOf value currDir).length < 100

/-- The line has a command, `cd` leads to a prompt that fits, and `export` has an assignment. -/
structure Survives (chdir : Chdir) (s : State) (line : Line) : Prop where
  bars : line.chars.count 124 < 999
  command : first (pieces 32 line.chars) ≠ none
  cd : ∀ rest, pieces 32 line.chars = [99, 100] :: rest →
    ∃ currDir, directoryAfter chdir s.currDir (first rest) = some currDir ∧
      (promptOf s.prompt currDir).length < 100
  assigns : ∀ rest, pieces 32 line.chars = [101, 120, 112, 111, 114, 116] :: rest →
    ∃ str, first rest = some str ∧ Assigns s.currDir (str.filter (· ≠ 34))

section

variable {chdir : Chdir} {s t : State} {line : Line} {n : Nat} {isBackground : Bool}
  {str p text currDir : List UInt8} {ps : List (List UInt8)} {path : Option (List UInt8)}
  {delimiter : UInt8}

/-! ### The entries -/

theorem first_cons (more : ps ≠ []) : first (p :: ps) = entry p := by
  obtain ⟨q, qs, rfl⟩ := List.exists_cons_of_ne_nil more
  rfl

/-- A piece at the end of the line. -/
theorem first_string (some_ : p ≠ []) (string : p ≠ [38]) : first [p] = some p := by
  rw [first, if_neg some_, entry_other string]

/-- Each entry is the string for its piece. -/
theorem pushAll_arg (some : ps ≠ []) (i : Nat) :
    (Tokens.pushAll ⟨[], isBackground⟩ ps).arg i = first (ps.drop i) := by
  obtain ⟨qs, p, rfl⟩ := (List.eq_nil_or_concat' ps).resolve_left some
  clear some
  rw [Tokens.pushAll_snoc, Tokens.arg, List.nil_append]
  induction qs generalizing i with
  | nil =>
    match i with
    | 0 => rfl
    | 1 => rfl
    | i + 2 => rfl
  | cons q qs ih =>
    cases i with
    | zero =>
      rw [List.drop_zero, List.cons_append, first_cons (by simp)]
      rfl
    | succ i => exact ih i

theorem setprompt_isSome {sbush : List UInt8} : (s.setprompt sbush).isSome ↔
    (promptOf sbush s.currDir).length < 100 := by
  unfold State.setprompt
  split <;> simp_all

theorem changeDirectory_isSome : (s.changeDirectory chdir path).isSome ↔
    ∃ currDir, directoryAfter chdir s.currDir path = some currDir ∧
      (promptOf s.prompt currDir).length < 100 := by
  cases path with
  | none =>
    rw [State.changeDirectory, setprompt_isSome]
    simp [directoryAfter]
  | some path =>
    rw [State.changeDirectory, directoryAfter]
    cases chdir s.currDir path with
    | none => simp
    | some answer =>
      rw [Option.bind_some, setprompt_isSome]
      simp

/-! ### Assignments -/

/-- An assignment has no space in it. -/
theorem pieces_assignment (apart : 32 ∉ str) :
    pieces 61 str = (str.filter (· ≠ 34)).splitOn 61 := by
  rw [pieces, skipspaces_same fun first => apart (List.mem_of_mem_head? first)]
  rfl

/-- There are one more pieces than delimiters. -/
theorem fits_splitOn (short : text.length < 1000) :
    Fits n (text.splitOn delimiter) ↔ text.count delimiter + 1 < n := by
  rw [← Lib.splitOn_length]
  refine ⟨fun fits => fits.count, fun count => ⟨count, fun p member => ?_⟩⟩
  exact Nat.lt_of_le_of_lt (Lib.splitOn_piece member).1.length_le short

/-- `changeSbush` by the pieces of its assignment. -/
theorem changeSbush_eq (line : 10 ∉ str) (fits : Fits 3 (pieces 61 str)) :
    s.changeSbush (some str) = (first (pieces 61 str)).bind fun variable_ =>
      let t := Tokens.pushAll ⟨[], s.isBackground⟩ (pieces 61 str)
      if variable_ = [80, 83, 49] then
        (first (pieces 61 str).tail).bind { s with isBackground := t.isBackground }.setprompt
      else some { s with isBackground := t.isBackground } := by
  rw [State.changeSbush, strtokBeta_eq line, if_pos fits, Option.bind_some,
    pushAll_arg pieces_ne_nil, pushAll_arg pieces_ne_nil, List.drop_zero, List.drop_one]

theorem changeSbush_stuck (line : 10 ∉ str) (tight : ¬Fits 3 (pieces 61 str)) :
    s.changeSbush (some str) = none := by
  rw [State.changeSbush, strtokBeta_eq line, if_neg tight, Option.bind_none]

theorem assigns_name (none : 61 ∉ text) :
    Assigns currDir text ↔ text ≠ [] ∧ text ≠ [38] ∧ text ≠ [80, 83, 49] := by
  have whole : text.takeWhile (· ≠ 61) = text := by
    rw [List.takeWhile_eq_self_iff]
    intro c member
    simpa using fun same : c = 61 => none (same ▸ member)
  constructor
  · intro assigns
    refine ⟨assigns.some, whole ▸ assigns.name, fun prompt => ?_⟩
    obtain ⟨value, same, _⟩ := assigns.value (whole.trans prompt)
    exact none (by simp [same])
  · rintro ⟨some, name, value⟩
    refine ⟨?_, some, whole.symm ▸ name, fun prompt => absurd (whole ▸ prompt) value⟩
    rw [List.count_eq_zero_of_not_mem none]
    exact Nat.zero_le 1

theorem assigns_pair {name value : List UInt8} (apart : 61 ∉ name) (alone : 61 ∉ value) :
    Assigns currDir (name ++ 61 :: value) ↔ name ≠ [38] ∧ (name = [80, 83, 49] →
      value ≠ [] ∧ value ≠ [38] ∧ (promptOf value currDir).length < 100) := by
  have head := Lib.takeWhile_before value apart
  constructor
  · intro assigns
    refine ⟨head ▸ assigns.name, fun prompt => ?_⟩
    obtain ⟨behind, same, fits⟩ := assigns.value (head.trans prompt)
    rw [prompt, List.append_cancel_left_eq, List.cons.injEq] at same
    rw [same.2]
    exact fits
  · rintro ⟨task, fits⟩
    refine ⟨?_, by simp, head.symm ▸ task, fun prompt => ?_⟩
    · rw [List.count_append, List.count_cons_self, List.count_eq_zero_of_not_mem apart,
        List.count_eq_zero_of_not_mem alone]
    · rw [head] at prompt
      exact ⟨value, by rw [prompt], fits prompt⟩

/-- A name alone. -/
theorem changeSbush_name (line : 10 ∉ str) (fits : Fits 3 (pieces 61 str))
    (cut : pieces 61 str = [text]) : (s.changeSbush (some str)).isSome ↔
      text ≠ [] ∧ text ≠ [38] ∧ text ≠ [80, 83, 49] := by
  rw [changeSbush_eq line fits, cut]
  by_cases empty : text = []
  · simp [empty, first]
  · by_cases task : text = [38]
    · simp [task, first]
    · rw [first_string empty task, Option.bind_some]
      by_cases prompt : text = [80, 83, 49]
      · simp [prompt, first]
      · simp [empty, task, prompt]

/-- A name and a value. -/
theorem changeSbush_pair {name value : List UInt8} (line : 10 ∉ str) (fits : Fits 3 (pieces 61 str))
    (cut : pieces 61 str = [name, value]) : (s.changeSbush (some str)).isSome ↔
      name ≠ [38] ∧ (name = [80, 83, 49] →
        value ≠ [] ∧ value ≠ [38] ∧ (promptOf value s.currDir).length < 100) := by
  rw [changeSbush_eq line fits, cut, first_cons (List.cons_ne_nil value []), List.tail_cons]
  by_cases task : name = [38]
  · simp [task]
  · rw [entry_other task, Option.bind_some]
    by_cases prompt : name = [80, 83, 49]
    · subst prompt
      rw [if_pos rfl]
      by_cases empty : value = []
      · simp [empty, first]
      · by_cases string : value = [38]
        · simp [string, first]
        · rw [first_string empty string, Option.bind_some, setprompt_isSome]
          simp [empty, string]
    · simp [prompt, task]

/-- `export` is survived with the assignments that meet `Assigns`, and with no others. -/
theorem changeSbush_isSome (line : 10 ∉ str) (apart : 32 ∉ str) (row : str.length < 1000) :
    (s.changeSbush (some str)).isSome ↔ Assigns s.currDir (str.filter (· ≠ 34)) := by
  have short : (str.filter (· ≠ 34)).length < 1000 :=
    Nat.lt_of_le_of_lt (List.length_filter_le _ _) row
  -- From here on only the text without its quotation marks counts.
  have cut := pieces_assignment apart
  generalize str.filter (· ≠ 34) = text at cut short ⊢
  have fits : Fits 3 (pieces 61 str) ↔ text.count 61 ≤ 1 := by
    rw [cut, fits_splitOn short]
    omega
  by_cases once : text.count 61 ≤ 1
  · have room := fits.mpr once
    by_cases equals : 61 ∈ text
    · obtain ⟨name, value, rfl, before⟩ := List.eq_append_cons_of_mem equals
      have alone : 61 ∉ value := by
        rw [List.count_append, List.count_cons_self] at once
        exact List.count_eq_zero.mp (by omega)
      rw [List.splitOn_append_cons_self_of_not_mem before, List.splitOn_eq_singleton alone] at cut
      rw [assigns_pair before alone, changeSbush_pair line room cut]
    · rw [List.splitOn_eq_singleton equals] at cut
      rw [assigns_name equals, changeSbush_name line room cut]
  · rw [changeSbush_stuck line (mt fits.mp once)]
    exact ⟨nofun, fun assigns => absurd assigns.once once⟩

/-! ### Lines -/

theorem skipspaces_other {d : UInt8} (other : d ≠ 32) : (skipspaces str).count d = str.count d := by
  unfold skipspaces
  split
  next rest => exact (List.count_cons_of_ne other.symm).symm
  next => rfl

/-- The pieces of a line of at most 999 characters fit, unless it has 999 delimiters. -/
theorem fits_pieces (short : str.length ≤ 999) (kept : delimiter ≠ 61) :
    Fits 1000 (pieces delimiter str) ↔ (skipspaces str).count delimiter < 999 := by
  have inside := (skipspaces_sublist : (skipspaces str).Sublist str).length_le
  rw [pieces, unquoted, if_neg kept, fits_splitOn (by omega)]
  omega

/-- A line that is not empty never has too many spaces: the first one is passed. -/
theorem fits_spaces (some : str ≠ []) (short : str.length ≤ 999) : Fits 1000 (pieces 32 str) := by
  rw [fits_pieces short (by decide)]
  obtain ⟨c, rest, rfl⟩ := List.exists_cons_of_ne_nil some
  rw [List.length_cons] at short
  have below := List.count_le_length (a := (32 : UInt8)) (l := rest)
  by_cases space : c = 32
  · subst space
    rw [skipspaces]
    omega
  · rw [skipspaces_same (by simpa using space), List.count_cons_of_ne space]
    omega

/-- A string is the first of the pieces. -/
theorem first_eq_some {q : List UInt8} (string : first (p :: ps) = some q) : p = q := by
  cases ps with
  | nil =>
    rw [first] at string
    split at string
    next => cases string
    next => exact (entry_eq_some.mp string).2
  | cons => exact (entry_eq_some.mp string).2

theorem pieces_member (line : Line) (member : p ∈ pieces 32 line.chars) :
    10 ∉ p ∧ 32 ∉ p ∧ p.length ≤ line.chars.length := by
  obtain ⟨sub, apart⟩ := Lib.splitOn_piece (d := 32) member
  have whole := sub.trans skipspaces_sublist
  exact ⟨fun newline => line.line (whole.subset newline), apart, whole.length_le⟩

/-- `parseInput` by the pieces of its line. -/
theorem parseInput_eq (chdir : Chdir) (s : State) (line : Line)
    (bars : Fits 1000 (pieces 124 line.chars)) (spaces : Fits 1000 (pieces 32 line.chars)) :
    ∃ isBackground, s.parseInput chdir line.chars =
      (first (pieces 32 line.chars)).bind fun command =>
        let s := { s with isBackground := isBackground }
        if command = [99, 100] then s.changeDirectory chdir (first (pieces 32 line.chars).tail)
        else if command = [101, 120, 112, 111, 114, 116] then
          s.changeSbush (first (pieces 32 line.chars).tail)
        else some s := by
  let bars_ := Tokens.pushAll ⟨[], s.isBackground⟩ (pieces 124 line.chars)
  refine ⟨(Tokens.pushAll ⟨[], bars_.isBackground⟩ (pieces 32 line.chars)).isBackground, ?_⟩
  rw [State.parseInput, strtokBeta_eq line.line, if_pos bars, Option.bind_some,
    strtokBeta_eq line.line, if_pos spaces, Option.bind_some, pushAll_arg pieces_ne_nil,
    pushAll_arg pieces_ne_nil, List.drop_zero, List.drop_one]

theorem survives_iff {rest : List (List UInt8)} (split : pieces 32 line.chars = p :: rest) :
    Survives chdir s line ↔ line.chars.count 124 < 999 ∧ first (p :: rest) ≠ none ∧
      (p = [99, 100] → (s.changeDirectory chdir (first rest)).isSome) ∧
      (p = [101, 120, 112, 111, 114, 116] →
        ∃ str, first rest = some str ∧ Assigns s.currDir (str.filter (· ≠ 34))) := by
  constructor
  · rintro ⟨bars, command, cd, assigns⟩
    refine ⟨bars, split ▸ command, fun same => ?_, fun same => ?_⟩
    · exact changeDirectory_isSome.mpr (cd rest (by rw [split, same]))
    · exact assigns rest (by rw [split, same])
  · rintro ⟨bars, command, cd, assigns⟩
    refine ⟨bars, split ▸ command, fun rest' same => ?_, fun rest' same => ?_⟩
    · rw [split, List.cons.injEq] at same
      rw [← same.2]
      exact changeDirectory_isSome.mp (cd same.1)
    · rw [split, List.cons.injEq] at same
      rw [← same.2]
      exact assigns same.1

theorem changeSbush_argument {rest : List (List UInt8)} (short : line.chars.length ≤ 999)
    (split : pieces 32 line.chars = p :: rest) : (s.changeSbush (first rest)).isSome ↔
      ∃ str, first rest = some str ∧ Assigns s.currDir (str.filter (· ≠ 34)) := by
  cases argument : first rest with
  | none => simp [State.changeSbush]
  | some str =>
    obtain ⟨q, more, rfl⟩ : ∃ q more, rest = q :: more := by
      cases rest with
      | nil => cases argument
      | cons q more => exact ⟨q, more, rfl⟩
    have same := first_eq_some argument
    subst same
    obtain ⟨newline, apart, length⟩ := pieces_member line
      (split ▸ List.mem_cons_of_mem p List.mem_cons_self : q ∈ pieces 32 line.chars)
    rw [changeSbush_isSome newline apart (by omega)]
    simp

/-- The shell survives the lines that meet `Survives`, and no others. -/
theorem parseInput_survives_iff (chdir : Chdir) (s : State) (line : Line) (some_ : line.chars ≠ [])
    (short : line.chars.length ≤ 999) :
    (s.parseInput chdir line.chars).isSome ↔ Survives chdir s line := by
  obtain ⟨p, rest, split⟩ := List.exists_cons_of_ne_nil (pieces_ne_nil : pieces 32 line.chars ≠ [])
  have fits : Fits 1000 (pieces 124 line.chars) ↔ line.chars.count 124 < 999 := by
    rw [fits_pieces short (by decide), skipspaces_other (by decide)]
  rw [survives_iff split]
  by_cases bars : line.chars.count 124 < 999
  · obtain ⟨isBackground, parsed⟩ :=
      parseInput_eq chdir s line (fits.mpr bars) (fits_spaces some_ short)
    rw [parsed, split, List.tail_cons]
    cases string : first (p :: rest) with
    | none => exact ⟨nofun, fun survives => absurd rfl survives.2.1⟩
    | some command =>
      have same := first_eq_some string
      subst same
      rw [Option.bind_some]
      dsimp only
      -- Neither call looks at the flag.
      by_cases cd : p = [99, 100]
      · subst cd
        rw [if_pos rfl, changeDirectory_isSome, changeDirectory_isSome]
        simp [bars]
      · rw [if_neg cd]
        by_cases exports : p = [101, 120, 112, 111, 114, 116]
        · rw [if_pos exports, changeSbush_argument short split]
          simp [bars, exports]
        · rw [if_neg exports]
          simp [bars, cd, exports]
  · have stuck : s.parseInput chdir line.chars = none := by
      rw [State.parseInput, strtokBeta_eq line.line, if_neg (mt fits.mp bars), Option.bind_none]
    rw [stuck]
    exact ⟨nofun, fun survives => absurd survives.1 bars⟩

end

/-! ### Two lines -/

/-- The root directory and the name `sbush`. -/
def atRoot : State := ⟨promptOf [115, 98, 117, 115, 104] [47], false, [47]⟩

/-- The archive of the directory `a/`. -/
def chdirOne : Chdir := libcChdir (flatHeaders oneDirectory) (fun _ => 0) fun _ => 0

/-- `cd a`. -/
def cdLine : Line := ⟨[99, 100, 32, 97], by decide, by decide⟩

theorem cdLine_survives : (atRoot.parseInput chdirOne cdLine.chars).isSome ∧
    Survives chdirOne atRoot cdLine := by
  have some : (atRoot.parseInput chdirOne cdLine.chars).isSome := by decide +kernel
  exact ⟨some, (parseInput_survives_iff chdirOne atRoot cdLine (by decide) (by decide)).mp some⟩

/-- `export`. -/
def exportLine : Line := ⟨[101, 120, 112, 111, 114, 116], by decide, by decide⟩

/-- There is no argument, and it is looked at. -/
theorem exportLine_fails : exportLine.chars ≠ [] ∧ exportLine.chars.length ≤ 999 ∧
    atRoot.parseInput chdirOne exportLine.chars = none := by
  decide +kernel

end LateOS.Shell
