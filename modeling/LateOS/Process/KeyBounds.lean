import LateOS.Process.Lines

/-!
# Indices of the terminal

`intWrite` and `intRead` with the indices that they use into `inpStr` and `code_map`. Nothing but
the number of characters typed keeps the first in bounds, and one scancode lies behind the table.
-/
namespace LateOS

open Lib

/-- An array and the index used into it. -/
inductive Access where
  | inpStr (i : Int)
  | codeMap (code : Nat)
  deriving DecidableEq

def Access.Inside : Access → Prop
  | .inpStr i => 0 ≤ i ∧ i < 4096
  | .codeMap code => code < 58

namespace Terminal

variable {t t' : Terminal} {code n : Nat} {i : Int}

/-! ## The functions with their indices -/

def intWriteLog (t : Terminal) (code : Nat) : List Access × Terminal × Bool :=
  if 58 < code then ([], t, false)
  else if code = 14 then
    if t.offset ≠ t.strOffset then
      ([.inpStr (t.strOffset - 1)],
        { t with inpStr := Function.update t.inpStr (t.strOffset - 1) 0,
                 strOffset := t.strOffset - 1 }, false)
    else ([], t, false)
  else if code = 28 then
    ([.inpStr t.strOffset], { t.append 10 with lineCount := t.lineCount + 1 }, true)
  else if code = 29 then
    -- The character is looked up for the screen and again for the buffer.
    ([.codeMap 29, .codeMap 29, .inpStr t.strOffset],
      { t with controlValue := true }.append (codeMapAt 29 true), false)
  else if code = 42 ∨ code = 54 then ([], { t with caps := true }, false)
  else if 0 < code then
    let caps := t.caps || t.controlValue
    ([.codeMap code, .inpStr t.strOffset],
      { t with controlValue := false, caps := false }.append (codeMapAt code caps), false)
  else ([], t, false)

def readLineLog (t : Terminal) : Nat → Int → List Access × List UInt8 × Terminal × Bool
  | 0, _ => ([], [], t, false)
  | n + 1, i =>
    if t.inpStr i = 10 then
      ([.inpStr i], [], { t with offset := i + 1, lineCount := t.lineCount - 1 }, true)
    else
      let (log, line, t', found) :=
        { t with inpStr := Function.update t.inpStr i 0 }.readLineLog n (i + 1)
      (.inpStr i :: log, t.inpStr i :: line, t', found)

def intReadLog (t : Terminal) : List Access × Option Line × Terminal :=
  if 0 < t.lineCount then
    let (log, line, t, found) := t.readLineLog (4096 - t.offset).toNat t.offset
    (log, if found then some line else none, t)
  else ([], none, t)

theorem intWriteLog_snd (t : Terminal) (code : Nat) :
    (t.intWriteLog code).2 = t.intWrite code := by
  simp only [intWriteLog, intWrite, apply_ite Prod.snd]

theorem readLineLog_snd (t : Terminal) (n : Nat) (i : Int) :
    (t.readLineLog n i).2 = t.readLine n i := by
  induction n generalizing t i with
  | zero => rfl
  | succ n ih =>
    rw [readLineLog, readLine]
    split
    · rfl
    · rw [← ih]

theorem intReadLog_snd (t : Terminal) : t.intReadLog.2 = t.intRead := by
  unfold intReadLog intRead
  rw [← readLineLog_snd]
  split <;> rfl

/-! ## Runs -/

def after (t : Terminal) : TerminalEvent → Terminal
  | .key code => (t.intWrite code).1
  | .read => t.intRead.2

def accesses (t : Terminal) : TerminalEvent → List Access
  | .key code => (t.intWriteLog code).1
  | .read => t.intReadLog.1

/-- The run of a terminal under a sequence of scancodes and reads. -/
def run (t : Terminal) (events : List TerminalEvent) : List (TerminalEvent × Terminal) :=
  follow (fun t a => some (t.after a)) t events

/-- The scancode is not the one behind the table, and what is stored has a place in the buffer. -/
def Fits (t : Terminal) : TerminalEvent → Prop
  | .key code => code ≠ 58 ∧ ((t.keyOf code).typed = 1 → t.strOffset < 4096)
  | .read => True

/-- As long as everything fits. -/
structure Bounded (t : Terminal) : Prop where
  low : 0 ≤ t.offset
  order : t.offset ≤ t.strOffset
  high : t.strOffset ≤ 4096
  plain : ∀ i, t.strOffset ≤ i → t.inpStr i ≠ 10

theorem initial_bounded : initial.Bounded :=
  ⟨Int.le_refl 0, Int.le_refl 0, by decide, initial_plain⟩

/-! ## Keys -/

/-- The indices of a key are inside exactly if it fits. -/
theorem Bounded.key_inside (bounded : t.Bounded) (code : Nat) :
    (∀ a ∈ t.accesses (.key code), a.Inside) ↔ t.Fits (.key code) := by
  have low := bounded.low
  have order := bounded.order
  have high := bounded.high
  unfold accesses intWriteLog Fits keyOf
  by_cases past : 58 < code
  · have other : code ≠ 58 := by omega
    simp [past, other, Key.typed]
  by_cases back : code = 14
  · subst back
    by_cases text : t.offset = t.strOffset
    · simp [text, Key.typed]
    · have inside : 1 ≤ t.strOffset ∧ t.strOffset - 1 < 4096 := by omega
      simp [text, Key.typed, Access.Inside, inside]
  by_cases enter : code = 28
  · subst enter
    simp [Key.typed, Access.Inside]
    omega
  by_cases control : code = 29
  · subst control
    simp [Key.typed, Access.Inside]
    omega
  by_cases shift : code = 42 ∨ code = 54
  · have other : code ≠ 58 := by omega
    simp [past, back, enter, control, shift, other, Key.typed]
  by_cases none : code = 0
  · subst none
    simp [Key.typed]
  · have some : 0 < code := Nat.pos_of_ne_zero none
    simp [past, back, enter, control, shift, some, Key.typed, Access.Inside]
    omega

/-- What is stored is no newline, except by Enter, which goes behind it. -/
theorem Bounded.append (bounded : t.Bounded) (fits : t.strOffset < 4096) (c : UInt8) :
    (t.append c).Bounded := by
  have low := bounded.low
  have order := bounded.order
  refine ⟨low, ?_, ?_, Plain.append bounded.plain c⟩
  · change t.offset ≤ t.strOffset + 1
    omega
  · change t.strOffset + 1 ≤ 4096
    omega

theorem Bounded.congr (bounded : t.Bounded) (inpStr : t'.inpStr = t.inpStr)
    (offset : t'.offset = t.offset) (strOffset : t'.strOffset = t.strOffset) : t'.Bounded := by
  refine ⟨?_, ?_, ?_, ?_⟩
  · rw [offset]
    exact bounded.low
  · rw [offset, strOffset]
    exact bounded.order
  · rw [strOffset]
    exact bounded.high
  · rw [strOffset, inpStr]
    exact bounded.plain

theorem Bounded.key (bounded : t.Bounded) (fits : t.Fits (.key code)) :
    (t.after (.key code)).Bounded := by
  obtain ⟨inpStr, offset, strOffset, _⟩ := t.intWrite_press code
  refine Bounded.congr ?_ inpStr offset strOffset
  have room := fits.2
  cases pressed : t.keyOf code with
  | other => exact bounded
  | char c =>
    rw [pressed] at room
    exact bounded.append (room rfl) c
  | enter =>
    rw [pressed] at room
    exact (bounded.append (room rfl) 10).congr rfl rfl rfl
  | backspace =>
    unfold press
    dsimp only
    split
    next text =>
      have low := bounded.low
      have order := bounded.order
      have high := bounded.high
      refine ⟨low, ?_, ?_, Plain.backspace bounded.plain⟩
      · change t.offset ≤ t.strOffset - 1
        omega
      · change t.strOffset - 1 ≤ 4096
        omega
    next => exact bounded

/-! ## Reads -/

/-- The scan clears cells and may move `offset` behind a newline. -/
structure Scanned (t : Terminal) (n : Nat) (i : Int) (t' : Terminal) : Prop where
  strOffset : t'.strOffset = t.strOffset
  cleared : ∀ j, t'.inpStr j = t.inpStr j ∨ t'.inpStr j = 0
  offset : t'.offset = t.offset ∨ ∃ j, i ≤ j ∧ j < i + n ∧ t.inpStr j = 10 ∧ t'.offset = j + 1

theorem readLine_scanned (t : Terminal) (n : Nat) (i : Int) : t.Scanned n i (t.readLine n i).2.1 := by
  induction n generalizing t i with
  | zero => exact ⟨rfl, fun _ => Or.inl rfl, Or.inl rfl⟩
  | succ n ih =>
    rw [readLine]
    split
    next here => exact ⟨rfl, fun _ => Or.inl rfl, Or.inr ⟨i, Int.le_refl i, by omega, here, rfl⟩⟩
    next =>
      have rest := ih { t with inpStr := Function.update t.inpStr i 0 } (i + 1)
      refine ⟨rest.strOffset, fun j => ?_, ?_⟩
      · rcases rest.cleared j with same | zero
        · by_cases here : j = i
          · subst here
            exact Or.inr (same.trans (Function.update_self ..))
          · exact Or.inl (same.trans (Function.update_of_ne here ..))
        · exact Or.inr zero
      · rcases rest.offset with same | ⟨j, above, below, newline, moved⟩
        · exact Or.inl same
        · refine Or.inr ⟨j, by omega, by omega, ?_, moved⟩
          exact (Function.update_of_ne (by omega) ..).symm.trans newline

/-- The scan stays in front of the end of the buffer. -/
theorem readLineLog_inside (t : Terminal) (n : Nat) (i : Int) :
    ∀ a ∈ (t.readLineLog n i).1, ∃ j, a = .inpStr j ∧ i ≤ j ∧ j < i + n := by
  induction n generalizing t i with
  | zero => simp [readLineLog]
  | succ n ih =>
    rw [readLineLog]
    split
    next =>
      intro a member
      exact ⟨i, List.mem_singleton.mp member, Int.le_refl i, by omega⟩
    next =>
      intro a member
      rcases List.mem_cons.mp member with rfl | later
      · exact ⟨i, rfl, Int.le_refl i, by omega⟩
      · obtain ⟨j, rfl, above, below⟩ := ih _ (i + 1) a later
        exact ⟨j, rfl, by omega, by omega⟩

theorem Bounded.read_inside (bounded : t.Bounded) : ∀ a ∈ t.accesses .read, a.Inside := by
  unfold accesses intReadLog
  dsimp only
  split
  · intro a member
    obtain ⟨j, rfl, above, below⟩ := readLineLog_inside t _ _ a member
    have low := bounded.low
    have order := bounded.order
    have high := bounded.high
    unfold Access.Inside
    omega
  · simp

theorem Bounded.read (bounded : t.Bounded) : (t.after .read).Bounded := by
  unfold after intRead
  dsimp only
  split
  · obtain ⟨strOffset, cleared, offset⟩ := readLine_scanned t (4096 - t.offset).toNat t.offset
    have low := bounded.low
    have order := bounded.order
    refine ⟨?_, ?_, ?_, fun i behind => ?_⟩
    · rcases offset with same | ⟨j, above, _, _, moved⟩
      · rw [same]
        exact low
      · rw [moved]
        omega
    · rw [strOffset]
      rcases offset with same | ⟨j, _, _, newline, moved⟩
      · rw [same]
        exact order
      · rw [moved]
        by_contra past
        -- A newline stands in front of `strOffset`.
        exact bounded.plain j (by omega) newline
    · rw [strOffset]
      exact bounded.high
    · rw [strOffset] at behind
      rcases cleared i with same | zero
      · rw [same]
        exact bounded.plain i behind
      · rw [zero]
        decide
  · exact bounded

/-! ## Runs -/

/-- All indices of a run are in bounds exactly if everything fits: the scancode 58 does not come,
and no character is stored when the buffer has been filled. -/
theorem indices_inside_iff (events : List TerminalEvent) :
    Along (fun t event _ => ∀ a ∈ t.accesses event, a.Inside) initial (initial.run events) ↔
      Along (fun t event _ => t.Fits event) initial (initial.run events) := by
  refine Along.exact_of_strong (I := Bounded) ?_ ?_ initial_bounded
    (along_follow (fun t a => some (t.after a)) initial events)
  · intro s event t bounded step fits
    cases step
    cases event with
    | key code => exact ⟨bounded.key fits, (bounded.key_inside code).mpr fits⟩
    | read => exact ⟨bounded.read, bounded.read_inside⟩
  · intro s event t bounded step bad inside
    cases event with
    | key code => exact bad ((bounded.key_inside code).mp inside)
    | read => exact bad trivial

/-- Caps Lock, as the first key. -/
theorem capsLock_outside : .codeMap 58 ∈ initial.accesses (.key 58) ∧
    ¬(Access.codeMap 58).Inside ∧
    ¬Along (fun t event _ => ∀ a ∈ t.accesses event, a.Inside) initial (initial.run [.key 58]) := by
  have looked : .codeMap 58 ∈ initial.accesses (.key 58) := by decide
  have outside : ¬(Access.codeMap 58).Inside := by
    unfold Access.Inside
    decide
  refine ⟨looked, outside, fun all => ?_⟩
  rw [run, follow_some rfl, along_cons] at all
  exact outside (all.1 _ looked)

end Terminal

end LateOS
