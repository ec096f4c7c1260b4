import LateOS.Shell.Tokens
import LateOS.Lib.Splitting

/-!
# The words of a line

What `strtokBeta` makes of a line at its spaces, against the words of the line.
-/
namespace LateOS.Shell

/-- What stands between spaces. -/
def words (line : Line) : List (List UInt8) := (line.chars.splitOn 32).filter (· ≠ [])

/-- The strings of an array up to its first NULL. -/
def untilNull : List (Option (List UInt8)) → List (List UInt8)
  | some str :: strs => str :: untilNull strs
  | _ => []

/-- The strings are the words in front of the first `&`, and the flag says whether the last word
is one. -/
structure Splits (line : Line) (t : Tokens) : Prop where
  strs : untilNull t.strs = (words line).takeWhile (· ≠ [38])
  background : t.isBackground ↔ (words line).getLast? = some [38]

/-- A line with no other space in front of its first `&` than one at the beginning, one behind each
word, and none behind a `&` at the end. -/
structure SpacedOnce (line : Line) : Prop where
  fits : Fits 1000 (pieces 32 line.chars)
  once : ∀ p ∈ (pieces 32 line.chars).dropLast.takeWhile (· ≠ [38]), p ≠ []
  last : (words line).getLast? = some [38] → line.chars.getLast? ≠ some 32

section

variable {line : Line} {p : List UInt8} {ps : List (List UInt8)}

/-- The words are the pieces that are not empty. -/
theorem words_eq : words line = (pieces 32 line.chars).filter (· ≠ []) := by
  have kept (str : List UInt8) : unquoted 32 str = str := rfl
  unfold words pieces
  rw [kept]
  by_cases first : line.chars.head? = some 32
  · obtain ⟨rest, chars⟩ := List.head?_eq_some_iff.mp first
    rw [chars, List.splitOn_cons_eq_if_modifyHead]
    simp [skipspaces]
  · rw [skipspaces_same first]

/-- The strings in front of the first NULL, of which there is one at the end. -/
theorem untilNull_entries (e : Option (List UInt8)) :
    untilNull (ps.map entry ++ [e, none]) =
      ps.takeWhile (· ≠ [38]) ++ if [38] ∈ ps then [] else e.toList := by
  induction ps with
  | nil => cases e <;> rfl
  | cons p ps ih =>
    by_cases task : p = [38]
    · subst task
      simp [untilNull]
    · rw [List.map_cons, entry_other task, List.cons_append, untilNull, ih,
        List.takeWhile_cons_of_pos (by simpa using task), List.cons_append]
      have member : [38] ∈ p :: ps ↔ [38] ∈ ps := by
        rw [List.mem_cons]
        exact or_iff_right fun same => task same.symm
      simp only [member]

/-- The words in front of the first `&`, by pieces. -/
theorem takeWhile_words (ps : List (List UInt8)) (p : List UInt8) :
    ((ps ++ [p]).filter (· ≠ [])).takeWhile (· ≠ [38]) =
      (ps.takeWhile (· ≠ [38])).filter (· ≠ []) ++
        if [38] ∈ ps then [] else (if p = [] then none else entry p).toList := by
  induction ps with
  | nil =>
    by_cases empty : p = []
    · simp [empty]
    · by_cases task : p = [38]
      · subst task
        rfl
      · simp [empty, task, entry_other task]
  | cons q ps ih =>
    by_cases task : q = [38]
    · subst task
      simp
    · have member : [38] ∈ q :: ps ↔ [38] ∈ ps := by
        rw [List.mem_cons]
        exact or_iff_right fun same => task same.symm
      simp only [member]
      rw [List.takeWhile_cons_of_pos (by simpa using task), List.cons_append]
      by_cases empty : q = []
      · subst empty
        rw [List.filter_cons_of_neg (by simp), List.filter_cons_of_neg (by simp)]
        exact ih
      · rw [List.filter_cons_of_pos (by simpa using empty),
          List.filter_cons_of_pos (by simpa using empty),
          List.takeWhile_cons_of_pos (by simpa using task), ih]
        rfl

/-- The flag is wrong when the line goes on behind its last word. -/
theorem background_iff (ps : List (List UInt8)) (p : List UInt8) :
    (isBackgroundTask p ↔ ((ps ++ [p]).filter (· ≠ [])).getLast? = some [38]) ↔
      (((ps ++ [p]).filter (· ≠ [])).getLast? = some [38] → p ≠ []) := by
  unfold isBackgroundTask
  by_cases empty : p = []
  · subst empty
    simp
  · have last : ((ps ++ [p]).filter (· ≠ [])).getLast? = some p := by
      simp [List.filter_append, empty]
    rw [last]
    simp [empty]

/-- The strings are right if no empty piece stands among them. -/
theorem strings_iff (isBackground : Bool) (ps : List (List UInt8)) (p : List UInt8) :
    untilNull (Tokens.pushAll ⟨[], isBackground⟩ (ps ++ [p])).strs =
        ((ps ++ [p]).filter (· ≠ [])).takeWhile (· ≠ [38]) ↔
      ∀ q ∈ ps.takeWhile (· ≠ [38]), q ≠ [] := by
  rw [Tokens.pushAll_snoc, List.nil_append, untilNull_entries, takeWhile_words,
    List.append_left_inj, eq_comm, List.filter_eq_self]
  simp only [decide_eq_true_eq]

/-- A line that has words ends in a space exactly when its last piece is empty. -/
theorem last_empty (has : words line ≠ []) :
    (pieces 32 line.chars).getLast? = some [] ↔ line.chars.getLast? = some 32 := by
  have rest : skipspaces line.chars ≠ [] := by
    intro none
    rw [words_eq, pieces, none] at has
    exact has rfl
  have same : (skipspaces line.chars).getLast? = line.chars.getLast? := by
    unfold skipspaces at rest ⊢
    split at rest
    next after chars =>
      obtain ⟨c, more, rfl⟩ := List.exists_cons_of_ne_nil rest
      rw [chars, List.getLast?_cons_cons]
    next => rfl
  rw [← same]
  exact (Lib.splitOn_getLast? 32 (skipspaces line.chars)).trans (or_iff_right rest)

/-- Both results are right on the lines that meet `SpacedOnce`, and on no others. -/
theorem strtokBeta_words_iff (line : Line) (isBackground : Bool) :
    (∃ t, strtokBeta 32 1000 isBackground line.chars = some t ∧ Splits line t) ↔
      SpacedOnce line := by
  obtain ⟨ps, p, split⟩ :=
    (List.eq_nil_or_concat' (pieces 32 line.chars)).resolve_left pieces_ne_nil
  -- The strings depend on the pieces in front of the last one, the flag on the last one.
  have strings := strings_iff isBackground ps p
  have background := background_iff ps p
  rw [← split, ← words_eq] at strings background
  have flag : (Tokens.pushAll ⟨[], isBackground⟩ (pieces 32 line.chars)).isBackground =
      isBackgroundTask p := by
    rw [split, Tokens.pushAll_snoc]
  have ends : (words line).getLast? = some [38] →
      (p ≠ [] ↔ line.chars.getLast? ≠ some 32) := by
    intro task
    have has : words line ≠ [] := by
      intro none
      rw [none] at task
      cases task
    have empty := last_empty has
    rw [split, List.getLast?_concat, Option.some_inj] at empty
    exact not_congr empty
  rw [strtokBeta_eq line.line]
  constructor
  · rintro ⟨t, ran, splits⟩
    split at ran
    next fits =>
      cases ran
      refine ⟨fits, ?_, fun task => (ends task).mp (background.mp ?_ task)⟩
      · rw [split, List.dropLast_concat]
        exact strings.mp splits.strs
      · rw [← flag]
        exact splits.background
    next => cases ran
  · intro once
    refine ⟨_, if_pos once.fits, strings.mpr ?_, ?_⟩
    · have apart := once.once
      rw [split, List.dropLast_concat] at apart
      exact apart
    · rw [flag]
      exact background.mpr fun task => (ends task).mpr (once.last task)

end

/-- `a`, two spaces and `b`. -/
def twoSpaces : Line := ⟨[97, 32, 32, 98], by decide, by decide⟩

/-- Between them there is an empty string. -/
theorem twoSpaces_strings :
    (strtokBeta 32 1000 false twoSpaces.chars).map (fun t => untilNull t.strs) =
        some [[97], [], [98]] ∧
      ¬∃ t, strtokBeta 32 1000 false twoSpaces.chars = some t ∧ Splits twoSpaces t := by
  refine ⟨by decide +kernel, fun ⟨t, ran, splits⟩ => ?_⟩
  have strings := congrArg (Option.map fun t : Tokens => untilNull t.strs) ran
  have apart : (strtokBeta 32 1000 false twoSpaces.chars).map (fun t => untilNull t.strs) ≠
      some ((words twoSpaces).takeWhile (· ≠ [38])) := by
    decide +kernel
  exact apart (strings.trans (congrArg some splits.strs))

/-- `a &` and a space: the empty string behind the `&` takes the flag back. -/
example : (strtokBeta 32 1000 false [97, 32, 38, 32]).map Tokens.isBackground = some false := by
  decide +kernel

end LateOS.Shell
