import LateOS.Process.Lines
import LateOS.Screen.Cursor

/-!
# The echo

What `intWrite` writes to the screen, beside what it does to the line buffer. `backspace` takes
nothing back across the end of a row, where the buffer loses a character all the same.
-/
namespace LateOS

open Lib

/-- The calls of `kprintf` and `backspace` in `intWrite`; the format `%c` writes its character. -/
def Terminal.echo (t : Terminal) (code : Nat) (v : Video) : Video :=
  if 58 < code then v
  else if code = 14 then if t.offset ≠ t.strOffset then v.backspace else v
  else if code = 28 then v.writeToSbush 10
  else if code = 29 then v.writeToSbush (codeMapAt 29 true)
  else if code = 42 ∨ code = 54 then v
  else if 0 < code then v.writeToSbush (codeMapAt code (t.caps || t.controlValue))
  else v

/-- The line buffer and the screen. -/
structure Echo where
  terminal : Terminal
  video : Video

namespace Echo

variable {e e' : Echo} {code : Nat} {start : Int} {c : UInt8}

def press (e : Echo) (code : Nat) : Echo :=
  ⟨(e.terminal.intWrite code).1, e.terminal.echo code e.video⟩

/-- Any key but Enter and the one behind the table, unless it scrolls the screen. -/
def Step (e : Echo) (code : Nat) (e' : Echo) : Prop :=
  code ≠ 28 ∧ code ≠ 58 ∧ ¬((∃ c, e.terminal.keyOf code = .char c) ∧
    e.video.toLeft = 79 ∧ e.video.numLines = 23) ∧ e' = e.press code

/-- The prompt has been written, and nothing is typed yet. -/
structure Prompted (e : Echo) : Prop where
  line : e.terminal.offset = e.terminal.strOffset
  fits : e.terminal.strOffset ≤ 4096
  left : 0 ≤ e.video.toLeft
  right : e.video.toLeft ≤ 79

/-- Between the end of the prompt and the cursor stand the characters of the buffer. -/
structure Matches (start : Int) (e : Echo) : Prop where
  fits : e.terminal.strOffset ≤ 4096
  behind : start ≤ e.video.temp2
  shown : cells e.video.cells start (e.video.temp2 - start).toNat =
    cells e.terminal.inpStr e.terminal.offset (e.terminal.strOffset - e.terminal.offset).toNat

/-- A key keeps the two alike, and Backspace takes a character from both or from none. -/
structure Agree (start : Int) (e : Echo) (code : Nat) (e' : Echo) : Prop where
  alike : Matches start e'
  backspace : code = 14 → (e'.terminal.strOffset ≠ e.terminal.strOffset ↔
    e'.video.temp2 ≠ e.video.temp2)

/-- A character that is stored has a place in the buffer, and a Backspace on a line that is not
empty does not come at the start of a row. -/
def Ok (e : Echo) (code : Nat) : Prop :=
  (∀ c, e.terminal.keyOf code = .char c → e.terminal.strOffset < 4096) ∧
    (code = 14 → e.terminal.offset ≠ e.terminal.strOffset → e.video.toLeft ≠ 0)

/-- So many characters are typed, and the screen has them behind `start`. -/
structure Typed (start : Int) (n : Nat) (e : Echo) : Prop where
  fits : e.terminal.strOffset ≤ 4096
  buffer : e.terminal.strOffset = e.terminal.offset + n
  screen : e.video.temp2 = start + n
  left : 0 ≤ e.video.toLeft
  right : e.video.toLeft ≤ 79
  same : cells e.video.cells start n = cells e.terminal.inpStr e.terminal.offset n

theorem Prompted.typed (prompted : e.Prompted) : Typed e.video.temp2 0 e :=
  ⟨prompted.fits, by rw [prompted.line]; simp, by simp, prompted.left, prompted.right, rfl⟩

theorem Typed.alike {n : Nat} (typed : Typed start n e) : Matches start e := by
  obtain ⟨fits, buffer, screen, _, _, same⟩ := typed
  refine ⟨fits, by omega, ?_⟩
  have shown : (e.video.temp2 - start).toNat = n := by omega
  have stored : (e.terminal.strOffset - e.terminal.offset).toNat = n := by omega
  rw [shown, stored, same]

/-! ## Keys -/

/-- What a key does to both. -/
theorem press_key (e : Echo) (code : Nat) :
    (e.terminal.press (e.terminal.keyOf code)).SameBuffer (e.press code).terminal ∧
      (e.press code).video = match e.terminal.keyOf code with
        | .char c => e.video.writeToSbush c
        | .backspace => if e.terminal.offset ≠ e.terminal.strOffset then e.video.backspace else e.video
        | .enter => e.video.writeToSbush 10
        | .other => e.video := by
  refine ⟨e.terminal.intWrite_press code, ?_⟩
  change e.terminal.echo code e.video = _
  unfold Terminal.echo Terminal.keyOf
  split
  · rfl
  split
  · rfl
  split
  · rfl
  split
  · rfl
  split
  · rfl
  split <;> rfl

theorem Typed.char {n : Nat} (typed : Typed start n e) (plain : c ≠ 10 ∧ c ≠ 13)
    (room : e.terminal.strOffset < 4096)
    (inside : ¬(e.video.toLeft = 79 ∧ e.video.numLines = 23)) :
    Typed start (n + 1) ⟨e.terminal.append c, e.video.writeToSbush c⟩ := by
  obtain ⟨fits, buffer, screen, left, right, same⟩ := typed
  have stored : e.video.writeToSbush c = (e.video.store c).advance := by
    unfold Video.writeToSbush
    rw [if_neg plain.1, if_neg plain.2]
  have before : (e.video.store c).temp2 = e.video.temp2 + 1 ∧
    (e.video.store c).toLeft = e.video.toLeft ∧ (e.video.store c).numLines = e.video.numLines :=
    ⟨rfl, rfl, rfl⟩
  have cellsV : (e.video.writeToSbush c).cells = Function.update e.video.cells (start + n) c := by
    have kept : (e.video.store c).advance.cells = (e.video.store c).cells :=
      Video.advance_cells inside
    rw [stored, kept, ← screen]
    rfl
  have next : (e.video.writeToSbush c).temp2 = e.video.temp2 + 1 ∧
      0 ≤ (e.video.writeToSbush c).toLeft ∧ (e.video.writeToSbush c).toLeft ≤ 79 := by
    rw [stored]
    rcases Video.advance_cases (e.video.store c) with ⟨column, bottom, _⟩ |
        ⟨column, _, temp2, toLeft, _⟩ | ⟨column, temp2, toLeft, _⟩
    · exact absurd ⟨column, bottom⟩ inside
    · omega
    · omega
  refine ⟨?_, ?_, ?_, next.2.1, next.2.2, ?_⟩
  · change e.terminal.strOffset + 1 ≤ 4096
    omega
  · change e.terminal.strOffset + 1 = e.terminal.offset + (n + 1 : Nat)
    omega
  · change (e.video.writeToSbush c).temp2 = start + (n + 1 : Nat)
    omega
  · change cells (e.video.writeToSbush c).cells start (n + 1) =
      cells (Function.update e.terminal.inpStr e.terminal.strOffset c) e.terminal.offset (n + 1)
    rw [cellsV, buffer, cells_append, cells_append, same]

theorem Typed.backspace {n : Nat} (typed : Typed start (n + 1) e) (column : e.video.toLeft ≠ 0) :
    Typed start n ⟨e.terminal.press .backspace, e.video.backspace⟩ := by
  obtain ⟨fits, buffer, screen, left, right, same⟩ := typed
  have text : e.terminal.offset ≠ e.terminal.strOffset := by omega
  have pressed : e.terminal.press .backspace = { e.terminal with
      inpStr := Function.update e.terminal.inpStr (e.terminal.strOffset - 1) 0,
      strOffset := e.terminal.strOffset - 1 } := if_pos text
  rcases e.video.backspace_cases right with ⟨first, _⟩ | ⟨_, temp2, toLeft, _⟩
  · exact absurd first column
  rw [pressed]
  refine ⟨?_, ?_, ?_, ?_, ?_, ?_⟩
  · change e.terminal.strOffset - 1 ≤ 4096
    omega
  · change e.terminal.strOffset - 1 = e.terminal.offset + n
    omega
  · change e.video.backspace.temp2 = start + n
    omega
  · change 0 ≤ e.video.backspace.toLeft
    omega
  · change e.video.backspace.toLeft ≤ 79
    omega
  · change cells e.video.backspace.cells start n =
      cells (Function.update e.terminal.inpStr (e.terminal.strOffset - 1) 0) e.terminal.offset n
    have shorter := congrArg (List.take n) same
    rw [cells_add _ start, cells_add _ e.terminal.offset, List.take_left' (cells_length ..),
      List.take_left' (cells_length ..)] at shorter
    rw [Video.backspace_cells right column]
    -- The last character is cleared in both, and none of those before it.
    calc cells (Function.update e.video.cells (e.video.temp2 - 1) 32) start n
      _ = cells e.video.cells start n :=
        cells_congr fun j _ below => Function.update_of_ne (by omega) ..
      _ = cells e.terminal.inpStr e.terminal.offset n := shorter
      _ = _ := (cells_congr fun j _ below => Function.update_of_ne (by omega) ..).symm

theorem Typed.congr {n : Nat} {t : Terminal} (typed : Typed start n e)
    (same : e.terminal.SameBuffer t) : Typed start n { e with terminal := t } := by
  obtain ⟨inpStr, offset, strOffset, _⟩ := same
  refine ⟨?_, ?_, typed.screen, typed.left, typed.right, ?_⟩
  · exact strOffset ▸ typed.fits
  · exact strOffset ▸ offset ▸ typed.buffer
  · exact inpStr ▸ offset ▸ typed.same

theorem press_offset (t : Terminal) (k : Key) : (t.press k).offset = t.offset := by
  cases k with
  | backspace =>
    unfold Terminal.press
    dsimp only
    split <;> rfl
  | _ => rfl

theorem Step.offset (ran : e.Step code e') : e'.terminal.offset = e.terminal.offset := by
  obtain ⟨_, _, _, rfl⟩ := ran
  exact (e.press_key code).1.offset.trans (press_offset e.terminal _)

/-! ## Steps -/

theorem Typed.step {n : Nat} (typed : Typed start n e) (ran : e.Step code e') (ok : e.Ok code) :
    ∃ n, Typed start n e' := by
  obtain ⟨notEnter, _, inside, rfl⟩ := ran
  obtain ⟨buffer, screen⟩ := e.press_key code
  suffices pressed : ∃ n, Typed start n ⟨e.terminal.press (e.terminal.keyOf code), (e.press code).video⟩ by
    obtain ⟨n, typed⟩ := pressed
    exact ⟨n, typed.congr buffer⟩
  rw [screen]
  cases key : e.terminal.keyOf code with
  | other => exact ⟨n, typed⟩
  | enter => exact absurd (keyOf_enter key) notEnter
  | char c =>
    obtain ⟨code', caps, mapped⟩ := keyOf_char_mapped key
    have notReturn : c ≠ 13 := mapped ▸ codeMapAt_ne (by decide) (by decide) code' caps
    exact ⟨n + 1, typed.char ⟨keyOf_char key, notReturn⟩ (ok.1 c key)
      fun bottom => inside ⟨⟨c, key⟩, bottom⟩⟩
  | backspace =>
    dsimp only
    split
    next text =>
      have buffer := typed.buffer
      obtain ⟨k, rfl⟩ := Nat.exists_eq_succ_of_ne_zero (n := n) fun none => by omega
      exact ⟨k, typed.backspace (ok.2 (keyOf_backspace.mp key) text)⟩
    next empty =>
      have idle : e.terminal.press .backspace = e.terminal := if_neg empty
      rw [idle]
      exact ⟨n, typed⟩

/-- With so many characters in both before and after, Backspace has changed both or none. -/
theorem Typed.agree {n n' : Nat} (typed : Typed start n e) (ran : e.Step code e')
    (after : Typed start n' e') : Agree start e code e' := by
  have offset := ran.offset
  have buffer := typed.buffer
  have screen := typed.screen
  have buffer' := after.buffer
  have screen' := after.screen
  exact ⟨after.alike, fun _ => by omega⟩

theorem broken (ran : e.Step code e') (bad : ¬e.Ok code) : ¬Agree start e code e' := by
  obtain ⟨_, _, _, rfl⟩ := ran
  obtain ⟨buffer, screen⟩ := e.press_key code
  intro agree
  by_cases room : ∀ c, e.terminal.keyOf code = .char c → e.terminal.strOffset < 4096
  · have stuck : ¬(code = 14 → e.terminal.offset ≠ e.terminal.strOffset → e.video.toLeft ≠ 0) :=
      fun fine => bad ⟨room, fine⟩
    simp only [Classical.not_imp, not_not] at stuck
    obtain ⟨rfl, text, column⟩ := stuck
    -- The buffer loses its last character, and the screen keeps it.
    have shorter : (e.press 14).terminal.strOffset = e.terminal.strOffset - 1 := by
      rw [buffer.strOffset]
      exact congrArg Terminal.strOffset (if_pos text)
    have same : (e.press 14).video = e.video := by
      rw [screen]
      change (if e.terminal.offset ≠ e.terminal.strOffset then e.video.backspace else e.video) = _
      rw [if_pos text, Video.backspace, if_pos column]
    have both := (agree.backspace rfl).mp (by omega)
    exact both (by rw [same])
  · simp only [not_forall, not_lt] at room
    obtain ⟨c, key, full⟩ := room
    have longer : (e.press code).terminal.strOffset = e.terminal.strOffset + 1 := by
      rw [buffer.strOffset, key]
      rfl
    have fits := agree.alike.fits
    omega

/-! ## Runs -/

/-- After every key the screen shows what is typed, exactly if no Backspace on a line with text
comes at the start of a row, and the text fits the buffer. -/
theorem echo_matches_iff {run : List (Nat × Echo)} (prompted : e.Prompted)
    (ran : Along Step e run) :
    Along (Agree e.video.temp2) e run ↔ Along (fun e code _ => e.Ok code) e run := by
  refine Along.exact_of_strong (I := fun s => ∃ n, Typed e.video.temp2 n s) ?_ ?_
    ⟨0, prompted.typed⟩ ran
  · rintro s code t ⟨n, typed⟩ step ok
    obtain ⟨n', after⟩ := typed.step step ok
    exact ⟨⟨n', after⟩, typed.agree step after⟩
  · intro s code t _ step bad
    exact broken step bad

/-- A prompt that ends in this column of the first row. -/
def prompt (column : Nat) : Echo where
  terminal := .initial
  video := { cells := fun _ => 32, temp2 := column, toLeft := column, numLines := 0, stores := [] }

/-- `a` is typed and taken back. -/
def takenBack (column : Nat) : List (Nat × Echo) :=
  [(30, (prompt column).press 30), (14, ((prompt column).press 30).press 14)]

theorem prompt_prompted {column : Nat} (inside : column ≤ 79) : (prompt column).Prompted :=
  ⟨rfl, Int.zero_le_ofNat 4096, Int.natCast_nonneg column, Int.ofNat_le.mpr inside⟩

theorem takenBack_ran (column : Nat) : Along Step (prompt column) (takenBack column) := by
  unfold takenBack
  simp only [along_cons, along_nil, and_true]
  refine ⟨⟨by decide, by decide, fun bottom => ?_, rfl⟩,
    ⟨by decide, by decide, fun bottom => ?_, rfl⟩⟩
  · have line : 0 = 23 := bottom.2.2
    exact absurd line (by decide)
  · obtain ⟨⟨c, key⟩, _⟩ := bottom
    rw [keyOf_backspace.mpr rfl] at key
    cases key

theorem takenBack_matches : Along (Agree (prompt 7).video.temp2) (prompt 7) (takenBack 7) := by
  refine (echo_matches_iff (prompt_prompted (by decide)) (takenBack_ran 7)).mpr ?_
  unfold takenBack
  simp only [along_cons, along_nil, and_true]
  exact ⟨⟨fun _ _ => by decide, fun back => by cases back⟩, fun _ _ => by decide, fun _ _ => by decide⟩

/-- The character that was typed in the last column stays on the screen. -/
theorem takenBack_left : ¬∀ (e : Echo) (run : List (Nat × Echo)), e.Prompted → Along Step e run →
    Along (Agree e.video.temp2) e run := by
  intro all
  have both := all _ _ (prompt_prompted (by decide)) (takenBack_ran 79)
  unfold takenBack at both
  simp only [along_cons, along_nil, and_true] at both
  exact absurd both.2.alike.shown (by decide)

end Echo

end LateOS
