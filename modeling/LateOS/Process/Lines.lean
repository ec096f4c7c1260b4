import Mathlib.Data.List.GetD
import LateOS.Lib.Trace
import LateOS.Process.Effect

/-!
# The lines of the terminal

What is typed, as lines, and what `intRead` delivers of it. The keyboard interrupt and the
rounds of `intRead` come in any order.
-/
namespace LateOS

open Lib

/-! ## What is typed -/

abbrev Line := List UInt8

/-- What a scancode does to the line that is being typed. -/
inductive Key where
  | other | char (c : UInt8) | backspace | enter

/-- The key behind a scancode, with the modifiers that are down. -/
def Terminal.keyOf (t : Terminal) (code : Nat) : Key :=
  if 58 < code then .other
  else if code = 14 then .backspace
  else if code = 28 then .enter
  else if code = 29 then .char (codeMapAt 29 true)
  else if code = 42 ∨ code = 54 then .other
  else if 0 < code then .char (codeMapAt code (t.caps || t.controlValue))
  else .other

/-- A typist, who completes a line with Enter and takes characters of the last one back. -/
structure Typist where
  lines : List Line
  line : Line

def Typist.press (p : Typist) : Key → Typist
  | .other => p
  | .char c => { p with line := p.line ++ [c] }
  | .backspace => { p with line := p.line.dropLast }
  | .enter => { lines := p.lines ++ [p.line], line := [] }

/-- Characters that are typed, Enter being one. -/
def Key.typed : Key → Nat
  | .char _ | .enter => 1
  | _ => 0

/-! ## Runs -/

inductive TerminalEvent where
  | key (code : Nat)
  | read

/-- The terminal, the lines typed so far and the lines delivered so far. -/
structure Desk where
  terminal : Terminal
  typist : Typist
  delivered : List Line
  typed : Nat

/-- One round of the loop of `intRead`, with the line if it completes the call. -/
def Terminal.intRead (t : Terminal) : Option Line × Terminal :=
  if 0 < t.lineCount then
    let (line, t, found) := t.readLine (4096 - t.offset).toNat t.offset
    (if found then some line else none, t)
  else (none, t)

namespace Desk

def initial : Desk := ⟨.initial, ⟨[], []⟩, [], 0⟩

variable (d : Desk)

def after : TerminalEvent → Desk
  | .key code =>
    { d with terminal := (d.terminal.intWrite code).1,
             typist := d.typist.press (d.terminal.keyOf code),
             typed := d.typed + (d.terminal.keyOf code).typed }
  | .read =>
    let (line, terminal) := d.terminal.intRead
    { d with terminal := terminal, delivered := d.delivered ++ line.toList }

/-- The next event, while fewer than 4096 characters are typed in all. -/
def step (a : TerminalEvent) : Option Desk :=
  if (d.after a).typed < 4096 then some (d.after a) else none

def Step (d : Desk) (a : TerminalEvent) (d' : Desk) : Prop := d.step a = some d'

theorem step_iff {d d' : Desk} {a : TerminalEvent} :
    d.Step a d' ↔ (d.after a).typed < 4096 ∧ d' = d.after a := by
  simp [Step, step, @eq_comm _ d']

/-- Lines that are completed and not yet delivered. -/
def unread : List Line := d.typist.lines.drop d.delivered.length

end Desk

/-- `n` cells of the buffer from `i` on. -/
def cells (inpStr : Int → UInt8) : Int → Nat → List UInt8
  | _, 0 => []
  | i, n + 1 => inpStr i :: cells inpStr (i + 1) n

/-- `lineCount` counts the newlines between `offset` and `strOffset`, and what has been delivered
are the first lines that were typed. -/
structure Disciplined (d : Desk) : Prop where
  count : d.terminal.lineCount = (cells d.terminal.inpStr d.terminal.offset
    (d.terminal.strOffset - d.terminal.offset).toNat).count 10
  lines : d.delivered <+: d.typist.lines

/-- The event is no Backspace on an empty line behind an unread one. -/
def Editable (d : Desk) : TerminalEvent → Prop
  | .key code => code = 14 → d.typist.line ≠ [] ∨ d.unread = []
  | .read => True

instance (d : Desk) : DecidablePred (Editable d)
  | .key _ => inferInstanceAs (Decidable (_ → _ ∨ _))
  | .read => isTrue trivial

/-! ## Cells -/

section

variable {f g : Int → UInt8} {i : Int} {n : Nat} {c : UInt8}

theorem cells_length (f : Int → UInt8) (i : Int) (n : Nat) : (cells f i n).length = n := by
  induction n generalizing i with
  | zero => rfl
  | succ n ih => rw [cells, List.length_cons, ih]

theorem cells_congr (same : ∀ j, i ≤ j → j < i + n → f j = g j) : cells f i n = cells g i n := by
  induction n generalizing i with
  | zero => rfl
  | succ n ih =>
    rw [cells, cells, same i (Int.le_refl i) (by omega),
      ih fun j above below => same j (by omega) (by omega)]

theorem cells_add (f : Int → UInt8) (i : Int) (n k : Nat) :
    cells f i (n + k) = cells f i n ++ cells f (i + n) k := by
  induction n generalizing i with
  | zero => simp [cells]
  | succ n ih =>
    rw [Nat.add_right_comm, cells, cells, ih, List.cons_append]
    congr 3
    omega

theorem cells_append (f : Int → UInt8) (i : Int) (n : Nat) (c : UInt8) :
    cells (Function.update f (i + n) c) i (n + 1) = cells f i n ++ [c] := by
  have same : cells (Function.update f (i + n) c) i n = cells f i n :=
    cells_congr fun j _ below => Function.update_of_ne (by omega) _ _
  rw [cells_add, same]
  simp [cells]

end

/-! ## The scan of intRead -/

/-- The scan stops at the first newline. -/
theorem Terminal.readLine_found (t : Terminal) (line : Line) (n : Nat) (i : Int)
    (stored : cells t.inpStr i (line.length + 1) = line ++ [10]) (plain : 10 ∉ line)
    (inside : line.length < n) :
    ∃ inpStr, t.readLine n i = (line, { t with
        inpStr := inpStr, offset := i + line.length + 1, lineCount := t.lineCount - 1 }, true) ∧
      ∀ j, i + line.length ≤ j → inpStr j = t.inpStr j := by
  induction line generalizing t n i with
  | nil =>
    obtain ⟨n, rfl⟩ : ∃ k, n = k + 1 := ⟨n - 1, by simp at inside; omega⟩
    have here : t.inpStr i = 10 := by simpa [cells] using stored
    refine ⟨t.inpStr, ?_, fun _ _ => rfl⟩
    rw [readLine, if_pos here]
    simp
  | cons c line ih =>
    obtain ⟨n, rfl⟩ : ∃ k, n = k + 1 := ⟨n - 1, by simp at inside; omega⟩
    rw [List.length_cons] at inside
    rw [List.length_cons, cells, List.cons_append, List.cons.injEq] at stored
    obtain ⟨here, stored⟩ := stored
    have other : ¬t.inpStr i = 10 := by
      rw [here]
      rintro rfl
      exact plain (by simp)
    -- The cell that is cleared lies behind the scan.
    have kept : cells (Function.update t.inpStr i 0) (i + 1) (line.length + 1) = line ++ [10] := by
      rw [← stored]
      exact cells_congr fun j above _ => Function.update_of_ne (by omega) _ _
    obtain ⟨inpStr, ran, same⟩ := ih { t with inpStr := Function.update t.inpStr i 0 } n (i + 1)
      kept (fun member => plain (List.mem_cons_of_mem c member)) (by omega)
    refine ⟨inpStr, ?_, fun j above => ?_⟩
    · have stop : i + 1 + line.length = i + (c :: line).length := by
        rw [List.length_cons]
        omega
      rw [readLine, if_neg other, ran, here, stop]
    · rw [List.length_cons] at above
      rw [same j (by omega)]
      exact Function.update_of_ne (by omega) _ _

/-! ## The buffer -/

/-- What the buffer holds for the reader: the unread lines and the one being typed. -/
def Desk.buffered (d : Desk) : List UInt8 := d.unread.flatMap (· ++ [10]) ++ d.typist.line

/-- The buffer holds what has been typed and not yet delivered. -/
structure Desk.Agrees (d : Desk) : Prop where
  lines : d.delivered <+: d.typist.lines
  start : 0 ≤ d.terminal.offset
  stop : d.terminal.strOffset = d.terminal.offset + d.buffered.length
  stored : cells d.terminal.inpStr d.terminal.offset d.buffered.length = d.buffered
  count : d.terminal.lineCount = d.unread.length
  plain : ∀ line ∈ d.typist.lines, 10 ∉ line
  current : 10 ∉ d.typist.line
  typed : d.terminal.strOffset ≤ d.typed

variable {d : Desk} {code : Nat} {c : UInt8}

theorem count_lines (lines : List Line) (plain : ∀ line ∈ lines, 10 ∉ line) :
    (lines.flatMap (· ++ [10])).count 10 = lines.length := by
  induction lines with
  | nil => rfl
  | cons line rest ih =>
    rw [List.flatMap_cons, List.count_append, List.count_append,
      List.count_eq_zero.mpr (plain line (by simp)),
      ih fun line member => plain line (List.mem_cons_of_mem _ member), List.length_cons]
    simp [Nat.add_comm]

theorem Desk.Agrees.plain_unread (agrees : d.Agrees) : ∀ line ∈ d.unread, 10 ∉ line :=
  fun line member => agrees.plain line (List.mem_of_mem_drop member)

theorem Desk.Agrees.newlines (agrees : d.Agrees) : d.buffered.count 10 = d.unread.length := by
  rw [Desk.buffered, List.count_append, count_lines _ agrees.plain_unread,
    List.count_eq_zero.mpr agrees.current, Nat.add_zero]

theorem Desk.Agrees.disciplined (agrees : d.Agrees) : Disciplined d := by
  have length : (d.terminal.strOffset - d.terminal.offset).toNat = d.buffered.length := by
    rw [agrees.stop]
    omega
  refine ⟨?_, agrees.lines⟩
  rw [length, agrees.stored, agrees.newlines]
  exact agrees.count

/-- No key types a character that is not in the table. -/
theorem codeMapAt_ne {c : UInt8} (positive : c ≠ 0)
    (absent : (codeMap.all fun entry => entry.1 != c && entry.2 != c) = true) (code : Nat)
    (caps : Bool) : codeMapAt code caps ≠ c := by
  by_cases inside : code < codeMap.length
  · have entry := List.all_eq_true.mp absent _ (List.getElem_mem inside)
    rw [Bool.and_eq_true, bne_iff_ne, bne_iff_ne] at entry
    unfold codeMapAt
    rw [List.getD_eq_getElem _ _ inside]
    cases caps
    · exact entry.1
    · exact entry.2
  · unfold codeMapAt
    rw [List.getD_eq_default _ _ (Nat.le_of_not_lt inside)]
    cases caps <;> exact positive.symm

/-! ## Keys -/

/-- What `intWrite` does with a key, the modifiers apart. -/
def Terminal.press (t : Terminal) : Key → Terminal
  | .other => t
  | .char c => t.append c
  | .backspace =>
    if t.offset ≠ t.strOffset then
      { t with inpStr := Function.update t.inpStr (t.strOffset - 1) 0, strOffset := t.strOffset - 1 }
    else t
  | .enter => { t.append 10 with lineCount := t.lineCount + 1 }

/-- The two terminals differ in their modifiers at most. -/
structure Terminal.SameBuffer (t t' : Terminal) : Prop where
  inpStr : t'.inpStr = t.inpStr
  offset : t'.offset = t.offset
  strOffset : t'.strOffset = t.strOffset
  lineCount : t'.lineCount = t.lineCount

theorem Terminal.intWrite_press (t : Terminal) (code : Nat) :
    (t.press (t.keyOf code)).SameBuffer (t.intWrite code).1 := by
  unfold intWrite keyOf
  split
  · exact ⟨rfl, rfl, rfl, rfl⟩
  split
  · dsimp only [press]
    split <;> exact ⟨rfl, rfl, rfl, rfl⟩
  split
  · exact ⟨rfl, rfl, rfl, rfl⟩
  split
  · exact ⟨rfl, rfl, rfl, rfl⟩
  split
  · exact ⟨rfl, rfl, rfl, rfl⟩
  split
  · exact ⟨rfl, rfl, rfl, rfl⟩
  · exact ⟨rfl, rfl, rfl, rfl⟩

theorem keyOf_char_mapped {t : Terminal} (key : t.keyOf code = .char c) :
    ∃ code caps, c = codeMapAt code caps := by
  unfold Terminal.keyOf at key
  split at key
  · cases key
  split at key
  · cases key
  split at key
  · cases key
  split at key
  · cases key
    exact ⟨_, _, rfl⟩
  split at key
  · cases key
  split at key
  · cases key
    exact ⟨_, _, rfl⟩
  · cases key

/-- No ordinary key types a newline. -/
theorem keyOf_char {t : Terminal} (key : t.keyOf code = .char c) : c ≠ 10 := by
  obtain ⟨code, caps, rfl⟩ := keyOf_char_mapped key
  exact codeMapAt_ne (by decide) (by decide) code caps

theorem keyOf_backspace {t : Terminal} : t.keyOf code = .backspace ↔ code = 14 := by
  constructor
  · intro key
    unfold Terminal.keyOf at key
    split at key
    · cases key
    split at key
    next here => exact here
    next =>
      split at key
      · cases key
      split at key
      · cases key
      split at key
      · cases key
      split at key <;> cases key
  · rintro rfl
    rfl

theorem keyOf_enter {t : Terminal} (key : t.keyOf code = .enter) : code = 28 := by
  unfold Terminal.keyOf at key
  split at key
  · cases key
  split at key
  · cases key
  split at key
  next here => exact here
  next =>
    split at key
    · cases key
    split at key
    · cases key
    split at key <;> cases key

/-- The desk after a key. -/
def Desk.press (d : Desk) (k : Key) : Desk :=
  { d with terminal := d.terminal.press k, typist := d.typist.press k, typed := d.typed + k.typed }

theorem Desk.Agrees.congr {t : Terminal} (agrees : d.Agrees) (same : d.terminal.SameBuffer t) :
    Desk.Agrees { d with terminal := t } := by
  refine ⟨agrees.lines, ?_, ?_, ?_, ?_, agrees.plain, agrees.current, ?_⟩
  · rw [same.offset]
    exact agrees.start
  · rw [same.strOffset, same.offset]
    exact agrees.stop
  · rw [same.inpStr, same.offset]
    exact agrees.stored
  · rw [same.lineCount]
    exact agrees.count
  · rw [same.strOffset]
    exact agrees.typed

/-- A byte is stored behind the buffered ones. -/
theorem Desk.Agrees.store (agrees : d.Agrees) (c : UInt8) :
    d.terminal.strOffset + 1 = d.terminal.offset + (d.buffered ++ [c]).length ∧
      cells (Function.update d.terminal.inpStr d.terminal.strOffset c) d.terminal.offset
        (d.buffered ++ [c]).length = d.buffered ++ [c] := by
  rw [List.length_append, List.length_singleton]
  constructor
  · rw [agrees.stop]
    omega
  · rw [agrees.stop, cells_append, agrees.stored]

theorem Desk.Agrees.char (agrees : d.Agrees) (plain : c ≠ 10) : (d.press (.char c)).Agrees := by
  have longer : (d.press (.char c)).buffered = d.buffered ++ [c] := by
    change d.unread.flatMap _ ++ (d.typist.line ++ [c]) = _
    rw [← List.append_assoc]
    rfl
  refine ⟨agrees.lines, agrees.start, ?_, ?_, agrees.count, agrees.plain, ?_, ?_⟩
  · rw [longer]
    exact (agrees.store c).1
  · rw [longer]
    exact (agrees.store c).2
  · change 10 ∉ d.typist.line ++ [c]
    rw [List.mem_append, List.mem_singleton]
    rintro (old | new)
    · exact agrees.current old
    · exact plain new.symm
  · change d.terminal.strOffset + 1 ≤ ((d.typed + 1 : Nat) : Int)
    have typed := agrees.typed
    omega

theorem Desk.Agrees.delivered_le (agrees : d.Agrees) :
    d.delivered.length ≤ d.typist.lines.length := agrees.lines.length_le

theorem Desk.Agrees.enter (agrees : d.Agrees) : (d.press .enter).Agrees := by
  have unread : (d.press .enter).unread = d.unread ++ [d.typist.line] :=
    List.drop_append_of_le_length agrees.delivered_le
  have longer : (d.press .enter).buffered = d.buffered ++ [10] := by
    rw [Desk.buffered, unread, List.flatMap_append]
    simp [Desk.buffered, Desk.press, Typist.press]
  refine ⟨agrees.lines.trans (List.prefix_append _ _), agrees.start, ?_, ?_, ?_, ?_, nofun, ?_⟩
  · rw [longer]
    exact (agrees.store 10).1
  · rw [longer]
    exact (agrees.store 10).2
  · rw [unread, List.length_append, List.length_singleton]
    change d.terminal.lineCount + 1 = _
    rw [agrees.count]
    rfl
  · intro line member
    rcases List.mem_append.mp member with old | new
    · exact agrees.plain line old
    · rw [List.mem_singleton.mp new]
      exact agrees.current
  · change d.terminal.strOffset + 1 ≤ ((d.typed + 1 : Nat) : Int)
    have typed := agrees.typed
    omega

/-- Backspace takes the last character of the buffer, whatever it belongs to. -/
theorem Desk.Agrees.shortened (agrees : d.Agrees) {front : List UInt8}
    (last : d.buffered = front ++ [c]) :
    (d.terminal.press .backspace).offset = d.terminal.offset ∧
    (d.terminal.press .backspace).lineCount = d.terminal.lineCount ∧
    (d.terminal.press .backspace).strOffset = d.terminal.offset + front.length ∧
    cells (d.terminal.press .backspace).inpStr d.terminal.offset front.length = front := by
  have stop := agrees.stop
  have stored := agrees.stored
  rw [last, List.length_append, List.length_singleton] at stop stored
  have some : d.terminal.offset ≠ d.terminal.strOffset := by omega
  dsimp only [Terminal.press]
  rw [if_pos some]
  refine ⟨rfl, rfl, by dsimp only; omega, ?_⟩
  have kept : cells (Function.update d.terminal.inpStr (d.terminal.strOffset - 1) 0)
      d.terminal.offset front.length = cells d.terminal.inpStr d.terminal.offset front.length :=
    cells_congr fun j _ below => Function.update_of_ne (by omega) _ _
  rw [cells_add] at stored
  exact kept.trans (List.append_inj_left stored (cells_length ..))

theorem Desk.Agrees.backspace (agrees : d.Agrees) (some : d.typist.line ≠ []) :
    (d.press .backspace).Agrees := by
  obtain ⟨line, c, ends⟩ : ∃ line c, d.typist.line = line ++ [c] :=
    ⟨_, _, (List.dropLast_concat_getLast some).symm⟩
  have last : d.buffered = (d.press .backspace).buffered ++ [c] := by
    simp [Desk.buffered, Desk.press, Typist.press, Desk.unread, ends]
  obtain ⟨offset, lineCount, strOffset, stored⟩ := agrees.shortened last
  refine ⟨agrees.lines, ?_, ?_, ?_, ?_, agrees.plain, fun member => ?_, ?_⟩
  · exact offset.symm ▸ agrees.start
  · exact strOffset.trans (by rw [← offset]; rfl)
  · change cells _ (d.terminal.press .backspace).offset _ = _
    rw [offset]
    exact stored
  · exact lineCount.trans agrees.count
  · exact agrees.current (List.dropLast_subset _ member)
  · change (d.terminal.press .backspace).strOffset ≤ ((d.typed + 0 : Nat) : Int)
    have typed := agrees.typed
    have stop := agrees.stop
    rw [last, List.length_append] at stop
    rw [strOffset]
    omega

theorem Desk.Agrees.backspace_idle (agrees : d.Agrees) (line : d.typist.line = [])
    (unread : d.unread = []) : (d.press .backspace).Agrees := by
  have empty : d.buffered = [] := by simp [Desk.buffered, line, unread]
  have same : d.press .backspace = d := by
    have stop := agrees.stop
    rw [empty, List.length_nil] at stop
    -- The buffer is empty, so the branch is not taken.
    have idle : ¬d.terminal.offset ≠ d.terminal.strOffset := by simp [stop]
    simp only [Desk.press, Terminal.press, if_neg idle, Typist.press, line, Key.typed,
      List.dropLast_nil, Nat.add_zero]
    rw [← line]
  rw [same]
  exact agrees

/-- A newline is gone, and `lineCount` still counts it. -/
theorem Desk.Agrees.broken (agrees : d.Agrees) (line : d.typist.line = [])
    (unread : d.unread ≠ []) : ¬Disciplined (d.press .backspace) := by
  obtain ⟨lines, l, ends⟩ : ∃ lines l, d.unread = lines ++ [l] :=
    ⟨_, _, (List.dropLast_concat_getLast unread).symm⟩
  -- The last character of the buffer is the newline of the last unread line.
  have last : d.buffered = (lines.flatMap (· ++ [10]) ++ l) ++ [10] := by
    simp [Desk.buffered, line, ends]
  obtain ⟨offset, lineCount, strOffset, stored⟩ := agrees.shortened last
  rintro ⟨count, -⟩
  change (d.terminal.press .backspace).lineCount = (cells (d.terminal.press .backspace).inpStr
    (d.terminal.press .backspace).offset ((d.terminal.press .backspace).strOffset -
      (d.terminal.press .backspace).offset).toNat).count 10 at count
  have length : ((d.terminal.press .backspace).strOffset - d.terminal.offset).toNat =
      (lines.flatMap (· ++ [10]) ++ l).length := by
    rw [strOffset]
    omega
  rw [offset, length, stored, lineCount, agrees.count] at count
  have newlines := agrees.newlines
  rw [last, List.count_append, List.count_singleton_self] at newlines
  omega

/-! ## Reading -/

theorem Desk.buffered_cons {line : Line} {more : List Line} (unread : d.unread = line :: more) :
    d.buffered = (line ++ [10]) ++ (more.flatMap (· ++ [10]) ++ d.typist.line) := by
  simp [Desk.buffered, unread]

/-- A read with a line in the buffer delivers it, and leaves what stands behind it. -/
theorem Desk.Agrees.delivers (agrees : d.Agrees) (few : d.typed < 4096) {line : Line}
    {more : List Line} (unread : d.unread = line :: more) :
    ∃ inpStr, d.after .read = { d with
        terminal := { d.terminal with
          inpStr := inpStr, offset := d.terminal.offset + line.length + 1,
          lineCount := d.terminal.lineCount - 1 },
        delivered := d.delivered ++ [line] } ∧
      cells inpStr (d.terminal.offset + line.length + 1)
        (more.flatMap (· ++ [10]) ++ d.typist.line).length =
          more.flatMap (· ++ [10]) ++ d.typist.line := by
  have some : 0 < d.terminal.lineCount := by
    rw [agrees.count, unread]
    simp
  have buffered := Desk.buffered_cons unread
  have length : d.buffered.length = (line.length + 1) +
      (more.flatMap (· ++ [10]) ++ d.typist.line).length := by
    rw [buffered, List.length_append, List.length_append, List.length_singleton]
  -- The cells of the buffer fall into the line with its newline and the rest.
  have stored := agrees.stored
  rw [length, cells_add] at stored
  have pieces := List.append_inj (stored.trans buffered) (by simp [cells_length])
  have start := agrees.start
  have stop := agrees.stop
  have typed := agrees.typed
  obtain ⟨inpStr, ran, same⟩ := d.terminal.readLine_found line (4096 - d.terminal.offset).toNat
    d.terminal.offset pieces.1 (agrees.plain_unread line (by simp [unread])) (by omega)
  refine ⟨inpStr, ?_, ?_⟩
  · simp only [Desk.after, Terminal.intRead, if_pos some, ran, if_true, Option.toList_some]
  · have moved : d.terminal.offset + ((line.length + 1 : Nat) : Int) =
        d.terminal.offset + line.length + 1 := by omega
    have later := pieces.2
    rw [moved] at later
    exact (cells_congr fun j above _ => same j (by omega)).trans later

theorem Desk.Agrees.read (agrees : d.Agrees) (few : d.typed < 4096) : (d.after .read).Agrees := by
  cases unread : d.unread with
  | nil =>
    have none : ¬0 < d.terminal.lineCount := by
      rw [agrees.count, unread]
      simp
    have same : d.after .read = d := by
      simp [Desk.after, Terminal.intRead, none]
    rw [same]
    exact agrees
  | cons line more =>
    obtain ⟨inpStr, after, stored⟩ := agrees.delivers few unread
    have buffered := Desk.buffered_cons unread
    obtain ⟨past, split⟩ := agrees.lines
    have rest : past = line :: more := by
      rw [← unread, Desk.unread, ← split, List.drop_left]
    have unread' : (d.after .read).unread = more := by
      rw [after, Desk.unread]
      dsimp only
      rw [← split, rest, List.length_append, List.length_singleton, ← List.drop_drop,
        List.drop_left]
      rfl
    have buffered' : (d.after .read).buffered = more.flatMap (· ++ [10]) ++ d.typist.line := by
      rw [Desk.buffered, unread', after]
    have start := agrees.start
    have stop := agrees.stop
    rw [buffered, List.length_append, List.length_append, List.length_singleton] at stop
    refine ⟨?_, ?_, ?_, ?_, ?_, ?_, ?_, ?_⟩
    · rw [after]
      refine ⟨more, ?_⟩
      dsimp only
      rw [← split, rest, List.append_assoc]
      rfl
    · rw [after]
      dsimp only
      omega
    · rw [buffered', after]
      dsimp only
      omega
    · rw [buffered', after]
      exact stored
    · rw [unread', after]
      dsimp only
      rw [agrees.count, unread, List.length_cons]
      omega
    · rw [after]
      exact agrees.plain
    · rw [after]
      exact agrees.current
    · rw [after]
      exact agrees.typed

/-! ## Runs -/

theorem Disciplined.congr {t : Terminal} (disciplined : Disciplined { d with terminal := t })
    (same : d.terminal.SameBuffer t) : Disciplined d := by
  obtain ⟨count, lines⟩ := disciplined
  refine ⟨?_, lines⟩
  rw [same.lineCount, same.inpStr, same.offset, same.strOffset] at count
  exact count

theorem Desk.Agrees.press {k : Key} (agrees : d.Agrees) (plain : ∀ c, k = .char c → c ≠ 10)
    (editable : k = .backspace → d.typist.line ≠ [] ∨ d.unread = []) : (d.press k).Agrees := by
  cases k with
  | other => exact agrees
  | char c => exact agrees.char (plain c rfl)
  | enter => exact agrees.enter
  | backspace =>
    by_cases line : d.typist.line = []
    · exact agrees.backspace_idle line ((editable rfl).resolve_left fun some => some line)
    · exact agrees.backspace line

theorem Desk.Agrees.step {a : TerminalEvent} {d' : Desk} (agrees : d.Agrees) (ran : Desk.Step d a d')
    (editable : Editable d a) : d'.Agrees := by
  obtain ⟨few, rfl⟩ := Desk.step_iff.mp ran
  cases a with
  | key code =>
    have pressed : (d.press (d.terminal.keyOf code)).Agrees :=
      agrees.press (fun c key => keyOf_char key) fun key => editable (keyOf_backspace.mp key)
    exact pressed.congr (d.terminal.intWrite_press code)
  | read => exact agrees.read few

theorem Desk.Agrees.step_broken {a : TerminalEvent} {d' : Desk} (agrees : d.Agrees)
    (ran : Desk.Step d a d') (bad : ¬Editable d a) : ¬Disciplined d' := by
  obtain ⟨_, rfl⟩ := Desk.step_iff.mp ran
  cases a with
  | key code =>
    simp only [Editable, not_forall, not_or, not_not] at bad
    obtain ⟨rfl, line, unread⟩ := bad
    intro disciplined
    exact agrees.broken line unread (disciplined.congr (d.terminal.intWrite_press 14))
  | read => exact absurd trivial bad

theorem Desk.initial_agrees : Desk.initial.Agrees :=
  ⟨List.nil_prefix, Int.le_refl 0, rfl, rfl, rfl, nofun, nofun, Int.le_refl 0⟩

/-- As long as fewer than 4096 characters are typed, the terminal keeps to the lines that are
typed exactly when no Backspace comes on an empty line behind an unread one. -/
theorem Desk.disciplined_iff {run : List (TerminalEvent × Desk)}
    (along : Along Desk.Step Desk.initial run) :
    Along (fun _ _ d => Disciplined d) Desk.initial run ↔
      Along (fun d a _ => Editable d a) Desk.initial run := by
  refine Along.exact_of_strong (I := Desk.Agrees) ?_ ?_ Desk.initial_agrees along
  · intro d a d' agrees ran editable
    have agrees' := agrees.step ran editable
    exact ⟨agrees', agrees'.disciplined⟩
  · intro d a d' agrees ran bad
    exact agrees.step_broken ran bad

/-! ## The terminal of the kernel -/

/-- The terminal is left alone, gets a scancode, or is read in one round. -/
inductive Terminal.Moved (t : Terminal) : Terminal → Prop
  | same : Moved t t
  | key (code : Nat) : Moved t (t.intWrite code).1
  | read : Moved t t.intRead.2

theorem Terminal.Moved.of_eq {t t' : Terminal} (same : t' = t) : t.Moved t' := same ▸ .same

section

variable {k k' : Kernel} {p : Point} {a : Action}

theorem Kernel.intRead_terminal (ran : k.intRead = some k') : k'.terminal = k.terminal.intRead.2 := by
  unfold Kernel.intRead at ran
  unfold Terminal.intRead
  split at ran
  next lines =>
    rw [if_pos lines]
    dsimp only at ran ⊢
    split at ran
    · cases ran
      rfl
    · exact schedule_terminal ran rfl
  next lines =>
    rw [if_neg lines]
    exact schedule_terminal ran rfl

/-- So every run of the kernel is, for its terminal, a sequence of scancodes and reads. -/
theorem Kernel.step_terminal (ran : k.Step a k') : k.terminal.Moved k'.terminal := by
  rcases terminal_cases ran with ⟨code, _, rfl⟩ | ⟨_, read⟩ | ⟨same, _⟩
  · exact .key code
  · rw [intRead_terminal read]
    exact .read
  · exact .of_eq same

end

/-! ## Two runs -/

/-- `a` and Enter have been typed. -/
def Desk.typedLine : Desk := (Desk.initial.after (.key 30)).after (.key 28)

/-- `a`, Enter, and then `last`. -/
def lineRun (last : TerminalEvent) : List (TerminalEvent × Desk) :=
  [(.key 30, Desk.initial.after (.key 30)), (.key 28, Desk.typedLine), (last, Desk.typedLine.after last)]

theorem lineRun_along {last : TerminalEvent} (few : (Desk.typedLine.after last).typed < 4096) :
    Along Desk.Step Desk.initial (lineRun last) :=
  along_cons .. |>.mpr ⟨Desk.step_iff.mpr ⟨by decide, rfl⟩,
    along_cons .. |>.mpr ⟨Desk.step_iff.mpr ⟨by decide, rfl⟩,
      along_cons .. |>.mpr ⟨Desk.step_iff.mpr ⟨few, rfl⟩, along_nil ..⟩⟩⟩

/-- A read delivers the line. -/
theorem lineRun_disciplined : Along (fun _ _ d => Disciplined d) Desk.initial (lineRun .read) := by
  refine (Desk.disciplined_iff (lineRun_along (by decide))).mpr ?_
  unfold lineRun
  simp [Editable]

/-- Backspace takes the newline, which is still counted. -/
theorem lineRun_broken : Along Desk.Step Desk.initial (lineRun (.key 14)) ∧
    ¬Along (fun _ _ d => Disciplined d) Desk.initial (lineRun (.key 14)) := by
  refine ⟨lineRun_along (by decide), fun all => ?_⟩
  unfold lineRun at all
  simp only [along_cons] at all
  exact absurd all.2.2.1.count (by decide)

end LateOS
