import LateOS.Shell.Script
import LateOS.Strings.Compare

/-!
# The shell at the terminal

The loop of `main` without an argument, on the lines that `gets` stores in `input`. The call writes
no terminator: what ends a line is a zero that `clearInput` has left there.
-/
namespace LateOS.Shell

open Lib

/-- `exit` and `quit`. -/
def farewells : List (List UInt8) := [[101, 120, 105, 116], [113, 117, 105, 116]]

/-- The string at `in`, if it ends in the 1000 bytes of `input`. -/
def inputString (input : Bytes) : Option (List UInt8) :=
  if (cString input 0 1000).length < 1000 then some (cString input 0 1000) else none

/-- The commands that `parseInput` is run with. Behind one that is not survived there are no more,
nor are there behind a line that goes past the end of `input` or leaves no zero in it. -/
def interactive (chdir : Chdir) : State → Bytes → List (List UInt8) → List (List UInt8)
  | _, _, [] => []
  | s, input, line :: lines =>
    if line.length ≤ 1000 then
      let input := overlay input 0 line
      -- `continue`, before `clearCommandData`.
      if input 0 = 0 then interactive chdir s input lines
      else
        match inputString input with
        | none => []
        | some command =>
          if farewells.contains command then []
          else
            match s.parseInput chdir command with
            | some t => command :: interactive chdir t (fun _ => 0) lines
            | none => [command]
    else []

/-- What is asked of the shell: the lines up to a farewell, but for the empty ones. -/
def asked (lines : List (List UInt8)) : List (List UInt8) :=
  (lines.takeWhile fun line => !farewells.contains line).filter (· ≠ [])

/-- The line is one string in `input`. -/
structure Stores (line : List UInt8) : Prop where
  string : 0 ∉ line
  short : line.length < 1000

/-- It is a command that the loop takes as it is. -/
structure Taken (line : List UInt8) : Prop extends Stores line where
  some : line ≠ []
  stays : farewells.contains line = false

section

variable {chdir : Chdir} {s : State} {input : Bytes} {line command text : List UInt8}
  {lines : List (List UInt8)}

/-! ## The input buffer -/

theorem inputString_stores (string : inputString input = some command) : Stores command := by
  unfold inputString at string
  split at string
  next short =>
    cases string
    exact ⟨(Strings.cString_ends short).apart, short⟩
  next => cases string

theorem inputString_empty (string : inputString input = some []) : input 0 = 0 := by
  unfold inputString at string
  split at string
  next short =>
    rw [Option.some_inj] at string
    have term := Strings.cString_ends short
    rw [string] at term
    exact Terminated.nil_iff.mp term
  next => cases string

/-- Over zeros, the line is what stands in the buffer. -/
theorem inputString_line (stores : Stores line) :
    inputString (overlay (fun _ => 0) 0 line) = some line := by
  have term : StringAt (overlay (fun _ => 0) 0 line) 0 line :=
    .of_cells stores.string (fun i inside => overlay_inside inside)
      (overlay_outside (.inr (Nat.le_refl _)))
  have short : (cString (overlay (fun _ => 0) 0 line) 0 1000).length < 1000 := by
    refine Strings.cString_short ⟨line.length, stores.short, ?_⟩
    have last := term.last
    rw [Nat.zero_add] at last ⊢
    exact last
  rw [inputString, if_pos short, Terminated.unique (Strings.cString_ends short) term]

theorem overlay_first {c : UInt8} : overlay input 0 (c :: line) 0 = c :=
  overlay_inside (l := c :: line) (i := 0) (Nat.zero_lt_succ _)

/-- A line that is taken is run, and the buffer is clear behind it. -/
theorem interactive_taken (taken : Taken line) :
    interactive chdir s (fun _ => 0) (line :: lines) =
      match s.parseInput chdir line with
      | some t => line :: interactive chdir t (fun _ => 0) lines
      | none => [line] := by
  obtain ⟨c, rest, rfl⟩ := List.exists_cons_of_ne_nil taken.some
  have first : ¬overlay (fun _ => (0 : UInt8)) 0 (c :: rest) 0 = 0 := by
    rw [overlay_first]
    exact fun zero => taken.string (zero ▸ List.mem_cons_self)
  rw [interactive, if_pos (Nat.le_of_lt taken.short), if_neg first]
  simp only [inputString_line taken.toStores, taken.stays, Bool.false_eq_true, if_false]

theorem interactive_empty : interactive chdir s (fun _ => 0) ([] :: lines) =
    interactive chdir s (fun _ => 0) lines := by
  rw [interactive, if_pos (by decide), overlay_nil]
  rfl

theorem interactive_left (left : farewells.contains line = true) :
    interactive chdir s (fun _ => 0) (line :: lines) = [] := by
  have known := List.contains_iff_mem.mp left
  have stores : Stores line := by
    rcases List.mem_cons.mp known with rfl | quits
    · exact ⟨by decide, by decide⟩
    · rw [List.mem_singleton.mp quits]
      exact ⟨by decide, by decide⟩
  obtain ⟨c, rest, rfl⟩ : ∃ c rest, line = c :: rest := by
    cases line with
    | nil => exact absurd left (by decide)
    | cons c rest => exact ⟨c, rest, rfl⟩
  have first : ¬overlay (fun _ => (0 : UInt8)) 0 (c :: rest) 0 = 0 := by
    rw [overlay_first]
    exact fun zero => stores.string (zero ▸ List.mem_cons_self)
  rw [interactive, if_pos (Nat.le_of_lt stores.short), if_neg first]
  simp only [inputString_line stores, left, if_true]

/-- Whatever stands in the buffer, what is run are commands that the loop takes. -/
theorem interactive_mem (run : command ∈ interactive chdir s input lines) : Taken command := by
  induction lines generalizing s input with
  | nil => exact absurd run List.not_mem_nil
  | cons line lines ih =>
    rw [interactive] at run
    split at run
    next =>
      dsimp only at run
      split at run
      next => exact ih run
      next other =>
        split at run
        next => exact absurd run List.not_mem_nil
        next string stored =>
          split at run
          next => exact absurd run List.not_mem_nil
          next stays =>
            have taken : Taken string := by
              refine ⟨inputString_stores stored, ?_, by simpa using stays⟩
              rintro rfl
              exact other (inputString_empty stored)
            split at run
            next =>
              rcases List.mem_cons.mp run with rfl | later
              · exact taken
              · exact ih later
            next => exact (List.mem_singleton.mp run) ▸ taken
    next => exact absurd run List.not_mem_nil

/-! ## What is asked and what is done -/

/-- What is executed has been asked for, and typed. -/
theorem executed_mem (run : line ∈ executed chdir s (asked lines)) : line ∈ lines := by
  have asked : line ∈ asked lines := by
    obtain ⟨same | ⟨initial, -⟩, -⟩ := executed_iff.mp (rfl : executed chdir s (asked lines) = _)
    · exact same.symm ▸ run
    · exact initial.subset run
  exact List.takeWhile_subset _ (List.mem_filter.mp asked).1

theorem executed_head : line ∈ executed chdir s (line :: lines) := by
  rw [executed]
  cases s.parseInput chdir line with
  | none => exact List.mem_singleton.mpr rfl
  | some t => exact List.mem_cons_self

theorem executed_tail {t : State} (survived : s.parseInput chdir line = some t)
    (later : command ∈ executed chdir t lines) : command ∈ executed chdir s (line :: lines) := by
  rw [executed, survived]
  exact List.mem_cons_of_mem line later

/-- One round keeps the loop with what is to be executed. -/
theorem interactive_round {rest : List (List UInt8)} (taken : Taken line)
    (same : ∀ t, s.parseInput chdir line = some t →
      interactive chdir t (fun _ => 0) lines = executed chdir t rest) :
    interactive chdir s (fun _ => 0) (line :: lines) = executed chdir s (line :: rest) := by
  rw [interactive_taken taken, executed]
  cases ran : s.parseInput chdir line with
  | none => rfl
  | some t => exact congrArg (line :: ·) (same t ran)

theorem interactive_executed (all : ∀ line ∈ executed chdir s lines, Taken line) :
    interactive chdir s (fun _ => 0) lines = executed chdir s lines := by
  induction lines generalizing s with
  | nil => rfl
  | cons line lines ih =>
    refine interactive_round (all line executed_head) fun t ran => ih fun l later => ?_
    exact all l (executed_tail ran later)

/-- The loop executes what is asked of it if, and only if, every command that it comes to is one
string in `input`. -/
theorem interactive_iff (chdir : Chdir) (s : State) (lines : List (List UInt8)) :
    interactive chdir s (fun _ => 0) lines = executed chdir s (asked lines) ↔
      ∀ line ∈ executed chdir s (asked lines), Stores line := by
  constructor
  · intro same line run
    exact (interactive_mem (same ▸ run)).toStores
  · intro all
    induction lines generalizing s with
    | nil => rfl
    | cons line lines ih =>
      unfold asked at all ⊢
      cases left : farewells.contains line with
      | true =>
        rw [interactive_left left, List.takeWhile_cons, left]
        rfl
      | false =>
        rw [List.takeWhile_cons, left] at all ⊢
        by_cases empty : line = []
        · subst empty
          rw [interactive_empty]
          exact ih s all
        · have kept : decide (line ≠ []) = true := decide_eq_true empty
          simp only [Bool.not_false, if_true, List.filter_cons, kept] at all ⊢
          refine interactive_round ⟨all line executed_head, empty, left⟩ fun t ran => ih t ?_
          exact fun l later => all l (executed_tail ran later)

/-- At the terminal and in a script, the same lines are executed if, and only if, the table takes
the script and none of the lines that are come to is empty, a farewell, or more than a string in
`input`. -/
theorem batch_interactive_iff (chdir : Chdir) (s : State) (text : List UInt8) :
    batch chdir s text = some (interactive chdir s (fun _ => 0) (complete text)) ↔
      Table 0 (text.splitOn 10) ∧ ∀ line ∈ executed chdir s (complete text), Taken line := by
  unfold batch
  constructor
  · intro same
    obtain ⟨commands, made, run⟩ := Option.map_eq_some_iff.mp same
    obtain ⟨table, rfl⟩ := makeCommandList_iff.mp made
    exact ⟨table, fun line member => interactive_mem (run ▸ member)⟩
  · rintro ⟨table, all⟩
    rw [makeCommandList_iff.mpr ⟨table, rfl⟩, Option.map_some, interactive_executed all]

end

end LateOS.Shell
