import LateOS.Shell.Commands

/-!
# Scripts

The shell in batch mode: `makeCommandList` and the loop of `main` behind it, on the string that
`readStr_sys` leaves in `inpString`.
-/
namespace LateOS.Shell

/-- The rounds of `makeCommandList`: the rows that have a terminator, and the one at hand. It is
undefined when it leaves the 100 rows of 100 characters. -/
def commandLoop : List UInt8 → List (List UInt8) → List UInt8 → Option (List (List UInt8))
  | [], commands, _ => some commands
  | c :: rest, commands, row =>
    if commands.length < 100 ∧ row.length < 100 then
      if c = 10 then commandLoop rest (commands ++ [row]) []
      else commandLoop rest commands (row ++ [c])
    else none

/-- The first `cmdNum` rows of `commandList`. -/
def makeCommandList (inpString : List UInt8) : Option (List (List UInt8)) :=
  commandLoop inpString [] []

/-- The commands that `parseInput` is run with. After one that is not survived there are no more. -/
def executed (chdir : Chdir) : State → List (List UInt8) → List (List UInt8)
  | _, [] => []
  | s, command :: commands =>
    match s.parseInput chdir command with
    | some t => command :: executed chdir t commands
    | none => [command]

/-- `main` with an argument, once the script has been read. -/
def batch (chdir : Chdir) (s : State) (inpString : List UInt8) : Option (List (List UInt8)) :=
  (makeCommandList inpString).map (executed chdir s)

/-! ## Lines -/

/-- The lines that have their newline. -/
def complete (text : List UInt8) : List (List UInt8) := (text.splitOn 10).dropLast

/-- The lines of a text. Behind the last newline there is one more, unless nothing stands there. -/
def lines (text : List UInt8) : List (List UInt8) :=
  if (text.splitOn 10).getLast? = some [] then complete text else text.splitOn 10

/-- A script of at most 100 lines of fewer than 100 characters. -/
structure Script where
  text : List UInt8
  string : 0 ∉ text
  count : (lines text).length ≤ 100
  rows : ∀ l ∈ lines text, l.length < 100

/-- The lines fit in what is left of the table behind `n` rows. A line without its newline needs no
room for a terminator. -/
structure Table (n : Nat) (ps : List (List UInt8)) : Prop where
  rows : ∀ p ∈ ps.dropLast, p.length < 100
  count : n + ps.dropLast.length ≤ 100
  rest : ∀ p, ps.getLast? = some p → p = [] ∨ n + ps.dropLast.length < 100 ∧ p.length ≤ 100

/-- The shell survives the commands, one after the other. -/
def SurvivesAll (chdir : Chdir) : State → List (List UInt8) → Prop
  | _, [] => True
  | s, command :: commands =>
    ∃ t, s.parseInput chdir command = some t ∧ SurvivesAll chdir t commands

/-- The string has the lines of the text, each with its newline, and no others that are run, and the
shell survives all but the last. -/
structure Runs (chdir : Chdir) (s : State) (text inpString : List UInt8) : Prop where
  table : Table 0 (inpString.splitOn 10)
  whole : complete inpString = lines text ∨
    lines text <+: complete inpString ∧ ¬SurvivesAll chdir s (lines text)
  survives : SurvivesAll chdir s (lines text).dropLast

section

variable {chdir : Chdir} {s : State} {text inpString rest row p : List UInt8} {n : Nat}
  {ps commands out : List (List UInt8)}

theorem table_cons (more : ps ≠ []) :
    Table n (p :: ps) ↔ p.length < 100 ∧ n < 100 ∧ Table (n + 1) ps := by
  obtain ⟨q, qs, rfl⟩ := List.exists_cons_of_ne_nil more
  constructor
  · rintro ⟨rows, count, rest⟩
    rw [List.dropLast_cons_cons] at rows count rest
    rw [List.length_cons] at count rest
    rw [List.getLast?_cons_cons] at rest
    refine ⟨rows p List.mem_cons_self, by omega,
      fun q member => rows q (List.mem_cons_of_mem _ member), by omega, fun q last => ?_⟩
    rcases rest q last with empty | inside
    · exact Or.inl empty
    · exact Or.inr ⟨by omega, inside.2⟩
  · rintro ⟨row, index, rows, count, rest⟩
    refine ⟨fun q member => ?_, ?_, fun q last => ?_⟩
    · rw [List.dropLast_cons_cons] at member
      rcases List.mem_cons.mp member with rfl | later
      · exact row
      · exact rows q later
    · rw [List.dropLast_cons_cons, List.length_cons]
      omega
    · rw [List.getLast?_cons_cons] at last
      rw [List.dropLast_cons_cons, List.length_cons]
      rcases rest q last with empty | inside
      · exact Or.inl empty
      · exact Or.inr ⟨by omega, inside.2⟩

/-- A line that has begun goes on in its row. -/
theorem table_begun (table : Table n (piecesFrom 10 rest row)) (begun : row ≠ []) :
    n < 100 ∧ row.length ≤ 100 := by
  obtain ⟨p, ps, split⟩ := List.exists_cons_of_ne_nil (List.splitOn_ne_nil 10 (unquoted 10 rest))
  rw [piecesFrom, split, List.modifyHead_cons] at table
  cases ps with
  | nil =>
    have inside := table.rest (row ++ p) rfl
    simp [begun] at inside
    omega
  | cons q qs =>
    obtain ⟨length, index, _⟩ := (table_cons (List.cons_ne_nil q qs)).mp table
    rw [List.length_append] at length
    omega

/-- The rounds make rows of the lines that have their newline, if the lines fit. -/
theorem commandLoop_iff (stored : row = [] ∨ commands.length < 100 ∧ row.length ≤ 100)
    (inside : commands.length ≤ 100) :
    commandLoop rest commands row = some out ↔
      Table commands.length (piecesFrom 10 rest row) ∧
        commands ++ (piecesFrom 10 rest row).dropLast = out := by
  induction rest generalizing commands row with
  | nil =>
    have table : Table commands.length [row] := by
      refine ⟨nofun, inside, fun p last => ?_⟩
      rw [List.getLast?_singleton, Option.some_inj] at last
      exact last ▸ stored
    rw [commandLoop, piecesFrom_nil, and_iff_right table]
    simp
  | cons c rest ih =>
    rw [commandLoop]
    by_cases newline : c = 10
    · subst newline
      rw [piecesFrom_delimiter, table_cons piecesFrom_ne_nil, if_pos rfl]
      by_cases room : commands.length < 100 ∧ row.length < 100
      · rw [if_pos room, ih (Or.inl rfl) (by simp; omega),
          List.dropLast_cons_of_ne_nil piecesFrom_ne_nil]
        simp [room]
      · rw [if_neg room]
        exact ⟨nofun, fun fits => absurd ⟨fits.1.2.1, fits.1.1⟩ room⟩
    · rw [piecesFrom_char newline (by simp), if_neg newline]
      by_cases room : commands.length < 100 ∧ row.length < 100
      · rw [if_pos room, ih (Or.inr ⟨room.1, by simp; omega⟩) inside]
      · rw [if_neg room]
        refine ⟨nofun, fun fits => absurd ?_ room⟩
        have begun := table_begun fits.1 (by simp)
        rw [List.length_append, List.length_singleton] at begun
        omega

theorem makeCommandList_iff : makeCommandList inpString = some out ↔
    Table 0 (inpString.splitOn 10) ∧ out = complete inpString := by
  rw [makeCommandList, commandLoop_iff (Or.inl rfl) (Nat.zero_le _), piecesFrom_nil_right, eq_comm]
  rfl

/-- Behind a command that is survived, all depends on the others. -/
theorem survivesAll_cons {t : State} {command : List UInt8}
    (survived : s.parseInput chdir command = some t) :
    SurvivesAll chdir s (command :: out) ↔ SurvivesAll chdir t out := by
  simp [SurvivesAll, survived]

theorem survivesAll_dropLast {t : State} {command : List UInt8}
    (survived : s.parseInput chdir command = some t) :
    SurvivesAll chdir s (command :: out).dropLast ↔ SurvivesAll chdir t out.dropLast := by
  cases out with
  | nil => exact iff_of_true trivial trivial
  | cons next more => rw [List.dropLast_cons_cons, survivesAll_cons survived]

theorem not_survivesAll {command : List UInt8} (dead : s.parseInput chdir command = none) :
    ¬SurvivesAll chdir s (command :: out) := by
  rintro ⟨t, parsed, _⟩
  rw [dead] at parsed
  cases parsed

/-- A first command that is not survived is the only one that is executed. -/
theorem dead_iff {command : List UInt8} (dead : s.parseInput chdir command = none) :
    [command] = out ↔ (command :: commands = out ∨
        out <+: command :: commands ∧ ¬SurvivesAll chdir s out) ∧
      SurvivesAll chdir s out.dropLast := by
  constructor
  · rintro rfl
    exact ⟨Or.inr ⟨List.prefix_append [command] commands, not_survivesAll dead⟩, trivial⟩
  · rintro ⟨here, survives⟩
    obtain ⟨more, rfl⟩ : ∃ more, out = command :: more := by
      rcases here with rfl | ⟨initial, dies⟩
      · exact ⟨commands, rfl⟩
      · cases out with
        | nil => exact absurd trivial dies
        | cons first more => exact ⟨more, by rw [(List.cons_prefix_cons.mp initial).1]⟩
    cases more with
    | nil => rfl
    | cons next more => exact absurd survives (not_survivesAll dead)

/-- What is executed is all of the commands, or those up to one that is not survived. -/
theorem executed_iff : executed chdir s commands = out ↔
    (commands = out ∨ out <+: commands ∧ ¬SurvivesAll chdir s out) ∧
      SurvivesAll chdir s out.dropLast := by
  induction commands generalizing s out with
  | nil =>
    rw [executed, List.prefix_nil]
    constructor
    · rintro rfl
      exact ⟨Or.inl rfl, trivial⟩
    · rintro ⟨rfl | ⟨rfl, dies⟩, _⟩
      · rfl
      · rfl
  | cons command commands ih =>
    rw [executed]
    cases survived : s.parseInput chdir command with
    | none => exact dead_iff survived
    | some t =>
      cases out with
      | nil => simp [SurvivesAll]
      | cons first more =>
        by_cases same : command = first
        · subst same
          rw [survivesAll_dropLast survived, survivesAll_cons survived, List.cons_prefix_cons]
          simp only [List.cons.injEq, true_and]
          exact ih
        · simp [same, Ne.symm same]

/-- Batch mode executes the lines of the script in the cases that meet `Runs`, and in no others. -/
theorem batch_runs_iff (chdir : Chdir) (s : State) (text inpString : List UInt8) :
    batch chdir s inpString = some (lines text) ↔ Runs chdir s text inpString := by
  unfold batch
  constructor
  · intro ran
    obtain ⟨commands, made, same⟩ := Option.map_eq_some_iff.mp ran
    obtain ⟨table, rfl⟩ := makeCommandList_iff.mp made
    obtain ⟨here, survives⟩ := executed_iff.mp same
    exact ⟨table, here, survives⟩
  · rintro ⟨table, here, survives⟩
    rw [makeCommandList_iff.mpr ⟨table, rfl⟩, Option.map_some, executed_iff.mpr ⟨here, survives⟩]

/-! ### A script that is read as far as the buffer goes -/

theorem complete_length (text : List UInt8) : (complete text).length = text.count 10 := by
  rw [complete, List.length_dropLast, Lib.splitOn_length, Nat.add_sub_cancel]

/-- The lines of a text that ends in a newline are complete. -/
theorem lines_ended (ended : text = [] ∨ text.getLast? = some 10) : lines text = complete text := by
  rw [lines, if_pos ((Lib.splitOn_getLast? 10 text).mpr ended)]

theorem lines_open (open_ : ¬(text = [] ∨ text.getLast? = some 10)) :
    (lines text).length = text.count 10 + 1 := by
  rw [lines, if_neg (mt (Lib.splitOn_getLast? 10 text).mp open_), Lib.splitOn_length]

/-- The lines are all there when the text is not longer than the buffer, and ends in a newline. -/
theorem lines_prefix_iff (size : Nat) : lines text <+: complete (text.take size) ↔
    text.length ≤ size ∧ (text = [] ∨ text.getLast? = some 10) := by
  constructor
  · intro initial
    have length := initial.length_le
    have parts := congrArg (List.count 10) (List.take_append_drop size text)
    rw [List.count_append] at parts
    rw [complete_length] at length
    have ended : text = [] ∨ text.getLast? = some 10 := by
      by_contra open_
      rw [lines_open open_] at length
      omega
    refine ⟨?_, ended⟩
    by_contra long
    rw [lines_ended ended, complete_length] at length
    -- Behind the buffer stands at least the last newline.
    have last : (text.drop size).getLast? = some 10 := by
      rw [List.getLast?_drop, if_neg long]
      rcases ended with rfl | ended
      · simp at long
      · exact ended
    have some := List.count_pos_iff.mpr (List.mem_of_getLast? last)
    omega
  · rintro ⟨short, ended⟩
    have whole : lines text = complete (text.take size) := by
      rw [List.take_of_length_le short, lines_ended ended]
    exact whole ▸ List.prefix_rfl

/-- Where the read leaves the first 4096 bytes of the script, a terminator behind them, batch mode
executes its lines if they all end in a newline within them and the shell lives to see the last. -/
theorem batch_read_iff (chdir : Chdir) (s : State) (script : Script) :
    batch chdir s (script.text.take 4096) = some (lines script.text) ↔
      (script.text.length ≤ 4096 ∧ (script.text = [] ∨ script.text.getLast? = some 10)) ∧
        SurvivesAll chdir s (lines script.text).dropLast := by
  rw [← lines_prefix_iff]
  unfold batch
  constructor
  · intro ran
    obtain ⟨commands, made, same⟩ := Option.map_eq_some_iff.mp ran
    obtain ⟨_, rfl⟩ := makeCommandList_iff.mp made
    obtain ⟨whole | ⟨initial, _⟩, survives⟩ := executed_iff.mp same
    · exact ⟨whole ▸ List.prefix_rfl, survives⟩
    · exact ⟨initial, survives⟩
  · rintro ⟨initial, survives⟩
    obtain ⟨short, ended⟩ := (lines_prefix_iff 4096).mp initial
    have all := lines_ended ended
    have count := script.count
    have rows := script.rows
    rw [all] at count rows
    have table : Table 0 (script.text.splitOn 10) := by
      refine ⟨rows, by rw [Nat.zero_add]; exact count, fun p last => Or.inl ?_⟩
      rw [(Lib.splitOn_getLast? 10 script.text).mpr ended, Option.some_inj] at last
      exact last.symm
    rw [List.take_of_length_le short, makeCommandList_iff.mpr ⟨table, rfl⟩, Option.map_some]
    exact congrArg some (executed_iff.mpr ⟨Or.inl all.symm, survives⟩)

/-- For whatever the read leaves, and in the case where it leaves the first 4096 bytes. -/
theorem batch_iff (chdir : Chdir) (s : State) :
    (∀ text inpString, batch chdir s inpString = some (lines text) ↔
      Runs chdir s text inpString) ∧
    ∀ script : Script, batch chdir s (script.text.take 4096) = some (lines script.text) ↔
      (script.text.length ≤ 4096 ∧ (script.text = [] ∨ script.text.getLast? = some 10)) ∧
        SurvivesAll chdir s (lines script.text).dropLast :=
  ⟨batch_runs_iff chdir s, batch_read_iff chdir s⟩

end

/-! ### One line -/

/-- `pwd`, without a newline. -/
def pwdScript : Script where
  text := [112, 119, 100]
  string := by decide
  count := by decide
  rows := by decide

/-- It is not run. -/
theorem pwdScript_left : batch chdirOne atRoot pwdScript.text = some [] ∧
    lines pwdScript.text = [[112, 119, 100]] := by
  decide +kernel

end LateOS.Shell
