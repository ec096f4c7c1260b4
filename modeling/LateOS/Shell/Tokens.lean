import Mathlib.Data.List.Basic

/-!
# The tokenizer

`strtokBeta`, and the pieces of a string that it makes its entries of.
-/
namespace LateOS.Shell

/-- A line as it is typed: a string, and without its newline. -/
structure Line where
  chars : List UInt8
  string : 0 ∉ chars
  line : 10 ∉ chars

/-- The entries of `strs` that have been written, NULL or a string, and `isBackground`. -/
structure Tokens where
  strs : List (Option (List UInt8))
  isBackground : Bool

def isBackgroundTask (str : List UInt8) : Bool := str = [38]

/-- The entry is NULL if its string is `&`. -/
def entry (str : List UInt8) : Option (List UInt8) :=
  if isBackgroundTask str then none else some str

/-- The string at hand has its terminator. -/
def Tokens.push (t : Tokens) (str : List UInt8) : Tokens :=
  ⟨t.strs ++ [entry str], isBackgroundTask str⟩

/-- The last entry becomes NULL if no character was stored for it, and one more is NULL. -/
def Tokens.makeNullExecvp (t : Tokens) (j : Nat) : Tokens :=
  { t with strs := (if j = 0 then t.strs.dropLast ++ [none] else t.strs) ++ [none] }

/-- The character `str[0]` is passed if it is a space, and no other. -/
def skipspaces : List UInt8 → List UInt8
  | 32 :: rest => rest
  | str => str

/-- There is an entry for the string at hand, and room in it for one character more. -/
def Tokens.Room (t : Tokens) (entries : Nat) (str : List UInt8) : Prop :=
  t.strs.length < entries ∧ str.length < 1000

instance (t : Tokens) (entries : Nat) (str : List UInt8) : Decidable (t.Room entries str) :=
  inferInstanceAs (Decidable (_ ∧ _))

/-- A round of `strtokBeta`, at a character that is not the terminator. -/
def tokenRound (delimiter : UInt8) (entries : Nat) (c : UInt8) (t : Tokens) (str : List UInt8) :
    Option (Tokens × List UInt8) :=
  if c = delimiter then
    if t.Room entries str then some (t.push str, []) else none
  -- A quotation mark is passed when the delimiter is `=`.
  else if c = 34 ∧ delimiter = 61 then some (t, str)
  else if t.Room entries str then some (t, str ++ [c])
  else none

/-- The rounds, up to the terminator or a newline. -/
def tokenLoop (delimiter : UInt8) (entries : Nat) :
    List UInt8 → Tokens → List UInt8 → Option Tokens
  | [], t, str =>
    if t.Room entries str ∧ t.strs.length + 1 < entries then
      some ((t.push str).makeNullExecvp str.length)
    else none
  | c :: rest, t, str =>
    (tokenRound delimiter entries c t str).bind fun (t, str) =>
      -- `while (str[k] != '\n')`, with `k` on the next character.
      if rest.head? = some 10 then some t else tokenLoop delimiter entries rest t str

/-- `strtokBeta` on an array of `entries` pointers, each to 1000 characters. It is undefined when it
leaves the array or one of the strings. -/
def strtokBeta (delimiter : UInt8) (entries : Nat) (isBackground : Bool) (str : List UInt8) :
    Option Tokens :=
  if str.head? = some 10 then some ⟨[], isBackground⟩
  else tokenLoop delimiter entries (skipspaces str) ⟨[], isBackground⟩ []

/-! ## Pieces -/

/-- Quotation marks are left out of what stands around a `=`. -/
def unquoted (delimiter : UInt8) (str : List UInt8) : List UInt8 :=
  if delimiter = 61 then str.filter (· ≠ 34) else str

/-- What stands between the delimiters. -/
def pieces (delimiter : UInt8) (str : List UInt8) : List (List UInt8) :=
  (unquoted delimiter (skipspaces str)).splitOn delimiter

/-- The entries for a list of pieces, of which the last is at the terminator. -/
def Tokens.pushAll : Tokens → List (List UInt8) → Tokens
  | t, [] => t
  | t, [p] => (t.push p).makeNullExecvp p.length
  | t, p :: ps => (t.push p).pushAll ps

/-- There are entries for the pieces and for the NULL behind them, and each piece has a terminator
in its row. -/
structure Fits (entries : Nat) (ps : List (List UInt8)) : Prop where
  count : ps.length < entries
  rows : ∀ p ∈ ps, p.length < 1000

instance (entries : Nat) (ps : List (List UInt8)) : Decidable (Fits entries ps) :=
  decidable_of_iff (ps.length < entries ∧ ∀ p ∈ ps, p.length < 1000)
    ⟨fun ⟨count, rows⟩ => ⟨count, rows⟩, fun fits => ⟨fits.count, fits.rows⟩⟩

section

variable {delimiter c : UInt8} {entries n : Nat} {isBackground : Bool} {str rest p : List UInt8}
  {ps : List (List UInt8)} {t : Tokens}

@[simp] theorem Tokens.push_length : (t.push str).strs.length = t.strs.length + 1 := by
  simp [Tokens.push]

theorem Tokens.pushAll_cons (more : ps ≠ []) : t.pushAll (p :: ps) = (t.push p).pushAll ps := by
  obtain ⟨q, qs, rfl⟩ := List.exists_cons_of_ne_nil more
  rfl

theorem entry_eq_some {q : List UInt8} : entry p = some q ↔ p ≠ [38] ∧ p = q := by
  unfold entry isBackgroundTask
  by_cases task : p = [38] <;> simp [task]

@[simp] theorem entry_amp : entry [38] = none := rfl

theorem entry_other (other : p ≠ [38]) : entry p = some p := entry_eq_some.mpr ⟨other, rfl⟩

/-- The entries for the pieces, and for the last one. -/
theorem Tokens.pushAll_snoc : t.pushAll (ps ++ [p]) =
    ⟨t.strs ++ ps.map entry ++ [if p = [] then none else entry p, none], isBackgroundTask p⟩ := by
  induction ps generalizing t with
  | nil =>
    rw [List.nil_append, Tokens.pushAll, Tokens.makeNullExecvp, Tokens.push]
    by_cases empty : p = []
    · simp [empty]
    · simp [empty, List.length_eq_zero_iff]
  | cons q ps ih =>
    have more : ps ++ [p] ≠ [] := List.append_ne_nil_of_right_ne_nil ps (List.cons_ne_nil p [])
    rw [List.cons_append, Tokens.pushAll_cons more, ih, Tokens.push]
    simp

theorem unquoted_cons (delimiter c : UInt8) (rest : List UInt8) : unquoted delimiter (c :: rest) =
    if c = 34 ∧ delimiter = 61 then unquoted delimiter rest
    else c :: unquoted delimiter rest := by
  unfold unquoted
  by_cases assigns : delimiter = 61
  · by_cases quote : c = 34 <;> simp [assigns, quote]
  · simp [assigns]

/-- The pieces of a rest of the string, the first of which has begun with `str`. -/
def piecesFrom (delimiter : UInt8) (rest str : List UInt8) : List (List UInt8) :=
  ((unquoted delimiter rest).splitOn delimiter).modifyHead (str ++ ·)

theorem piecesFrom_ne_nil : piecesFrom delimiter rest str ≠ [] := by
  unfold piecesFrom
  intro none
  exact List.splitOn_ne_nil _ _ (List.modifyHead_eq_nil_iff.mp none)

theorem pieces_ne_nil : pieces delimiter str ≠ [] := List.splitOn_ne_nil _ _

theorem piecesFrom_nil_right : piecesFrom delimiter rest [] =
    (unquoted delimiter rest).splitOn delimiter := by
  unfold piecesFrom
  obtain ⟨p, ps, split⟩ := List.exists_cons_of_ne_nil
    (List.splitOn_ne_nil delimiter (unquoted delimiter rest))
  rw [split]
  rfl

theorem piecesFrom_nil : piecesFrom delimiter [] str = [str] := by
  unfold piecesFrom unquoted
  split <;> simp

/-- A delimiter is not left out. -/
theorem piecesFrom_delimiter : piecesFrom delimiter (delimiter :: rest) str =
    str :: piecesFrom delimiter rest [] := by
  have kept : ¬(delimiter = 34 ∧ delimiter = 61) := by
    rintro ⟨rfl, same⟩
    cases same
  rw [piecesFrom_nil_right, piecesFrom, unquoted_cons, if_neg kept,
    List.splitOn_cons_eq_if_modifyHead, if_pos (beq_self_eq_true _)]
  simp

theorem piecesFrom_quote (quote : c = 34 ∧ delimiter = 61) :
    piecesFrom delimiter (c :: rest) str = piecesFrom delimiter rest str := by
  rw [piecesFrom, unquoted_cons, if_pos quote]
  rfl

theorem piecesFrom_char (other : c ≠ delimiter) (kept : ¬(c = 34 ∧ delimiter = 61)) :
    piecesFrom delimiter (c :: rest) str = piecesFrom delimiter rest (str ++ [c]) := by
  unfold piecesFrom
  rw [unquoted_cons, if_neg kept, List.splitOn_cons_eq_if_modifyHead,
    if_neg (by simpa using other), List.modifyHead_modifyHead]
  congr 1
  funext q
  simp

/-- The first piece is at least as long as its beginning. -/
theorem piecesFrom_room (fits : Fits n (piecesFrom delimiter rest str)) : str.length < 1000 := by
  unfold piecesFrom at fits
  obtain ⟨p, ps, split⟩ := List.exists_cons_of_ne_nil
    (List.splitOn_ne_nil delimiter (unquoted delimiter rest))
  rw [split, List.modifyHead_cons] at fits
  have row := fits.rows _ List.mem_cons_self
  rw [List.length_append] at row
  omega

theorem fits_cons : Fits n (p :: ps) ↔ p.length < 1000 ∧ 0 < n ∧ Fits (n - 1) ps := by
  constructor
  · rintro ⟨count, rows⟩
    rw [List.length_cons] at count
    exact ⟨rows p List.mem_cons_self, by omega, by omega,
      fun q member => rows q (List.mem_cons_of_mem _ member)⟩
  · rintro ⟨row, some, count, rows⟩
    refine ⟨by rw [List.length_cons]; omega, fun q member => ?_⟩
    rcases List.mem_cons.mp member with rfl | later
    · exact row
    · exact rows q later

/-- A round leaves the same entries to be made, and the same room to be needed. -/
theorem tokenRound_some {t' : Tokens} {str' : List UInt8} (rest : List UInt8)
    (round : tokenRound delimiter entries c t str = some (t', str')) :
    (Fits (entries - t.strs.length) (piecesFrom delimiter (c :: rest) str) ↔
        Fits (entries - t'.strs.length) (piecesFrom delimiter rest str')) ∧
      t.pushAll (piecesFrom delimiter (c :: rest) str) =
        t'.pushAll (piecesFrom delimiter rest str') := by
  unfold tokenRound at round
  split at round
  next last =>
    split at round
    next room =>
      cases round
      have index := room.1
      rw [last, piecesFrom_delimiter, Tokens.pushAll_cons piecesFrom_ne_nil, Tokens.push_length,
        Nat.sub_add_eq, fits_cons]
      exact ⟨⟨fun both => both.2.2, fun fits => ⟨room.2, by omega, fits⟩⟩, rfl⟩
    next => cases round
  next last =>
    split at round
    next quote =>
      cases round
      rw [piecesFrom_quote quote]
      exact ⟨Iff.rfl, rfl⟩
    next quote =>
      split at round
      next =>
        cases round
        rw [piecesFrom_char last quote]
        exact ⟨Iff.rfl, rfl⟩
      next => cases round

/-- Where a round has no room, there is none for what is left. -/
theorem tokenRound_none (stuck : tokenRound delimiter entries c t str = none) :
    ¬Fits (entries - t.strs.length) (piecesFrom delimiter (c :: rest) str) := by
  unfold tokenRound at stuck
  split at stuck
  next last =>
    split at stuck
    next => cases stuck
    next tight =>
      rw [last, piecesFrom_delimiter, fits_cons]
      rintro ⟨row, index, _⟩
      exact tight ⟨by omega, row⟩
  next last =>
    split at stuck
    next => cases stuck
    next quote =>
      split at stuck
      next => cases stuck
      next tight =>
        rw [piecesFrom_char last quote]
        intro fits
        have some : 0 < (piecesFrom delimiter rest (str ++ [c])).length :=
          List.length_pos_iff.mpr piecesFrom_ne_nil
        have row := piecesFrom_room fits
        rw [List.length_append, List.length_singleton] at row
        have index := fits.count
        exact tight ⟨by omega, by omega⟩

/-- The rounds push the pieces that are left, if there is room for them. -/
theorem tokenLoop_eq (line : 10 ∉ rest) : tokenLoop delimiter entries rest t str =
    if Fits (entries - t.strs.length) (piecesFrom delimiter rest str) then
      some (t.pushAll (piecesFrom delimiter rest str))
    else none := by
  induction rest generalizing t str with
  | nil =>
    -- At the terminator the string at hand is the last piece.
    have fits : Fits (entries - t.strs.length) [str] ↔
        t.Room entries str ∧ t.strs.length + 1 < entries := by
      constructor
      · rintro ⟨count, rows⟩
        rw [List.length_singleton] at count
        exact ⟨⟨by omega, rows str List.mem_cons_self⟩, by omega⟩
      · rintro ⟨room, last⟩
        exact ⟨by rw [List.length_singleton]; omega, by simpa using room.2⟩
    rw [tokenLoop, piecesFrom_nil]
    simp only [fits]
    rfl
  | cons c rest ih =>
    have later : 10 ∉ rest := fun member => line (List.mem_cons_of_mem _ member)
    have goes : rest.head? ≠ some 10 := fun first => later (List.mem_of_mem_head? first)
    rw [tokenLoop]
    cases round : tokenRound delimiter entries c t str with
    | none => rw [Option.bind_none, if_neg (tokenRound_none round)]
    | some next =>
      obtain ⟨t', str'⟩ := next
      obtain ⟨fits, pushed⟩ := tokenRound_some rest round
      rw [Option.bind_some]
      dsimp only
      rw [if_neg goes, ih later, pushed]
      simp only [fits]

theorem skipspaces_sublist : (skipspaces str).Sublist str := by
  unfold skipspaces
  split
  · exact List.sublist_cons_self _ _
  · exact List.Sublist.refl _

theorem skipspaces_same (other : str.head? ≠ some 32) : skipspaces str = str := by
  unfold skipspaces
  split
  next rest => exact absurd rfl other
  next => rfl

/-- `strtokBeta` stores the pieces of a line. -/
theorem strtokBeta_eq (line : 10 ∉ str) : strtokBeta delimiter entries isBackground str =
    if Fits entries (pieces delimiter str) then
      some (Tokens.pushAll ⟨[], isBackground⟩ (pieces delimiter str))
    else none := by
  have goes : str.head? ≠ some 10 := fun first => line (List.mem_of_mem_head? first)
  rw [strtokBeta, if_neg goes, tokenLoop_eq fun member => line (skipspaces_sublist.subset member),
    piecesFrom_nil_right]
  rfl

end

end LateOS.Shell
