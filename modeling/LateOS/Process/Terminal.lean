import Mathlib.Logic.Function.Basic
import LateOS.Process.Task

/-!
# The terminal

The line buffer of `sys/keyboard.c` and its two users: `intWrite`, run by the keyboard
interrupt, and the scan of `intRead`. What `intWrite` echoes to the screen is in `LateOS.Screen.Echo`.
-/
namespace LateOS

/-- `code_map`: a scancode's plain and shifted character. -/
def codeMap : List (UInt8 × UInt8) :=
  [ (0, 0), (0, 0), (49, 33), (50, 64), (51, 35), (52, 36), (53, 37), (54, 94), (55, 38),
    (56, 42), (57, 40), (48, 41), (45, 95), (61, 43), (8, 8), (9, 9), (113, 81), (119, 87),
    (101, 69), (114, 82), (116, 84), (121, 89), (117, 85), (105, 73), (111, 79), (112, 80),
    (91, 123), (93, 125), (94, 77), (32, 94), (97, 65), (115, 83), (100, 68), (102, 70),
    (103, 71), (104, 72), (106, 74), (107, 75), (108, 76), (59, 58), (39, 34), (96, 126),
    (0, 0), (92, 124), (122, 90), (120, 88), (99, 67), (118, 86), (98, 66), (110, 78),
    (109, 77), (44, 60), (46, 62), (47, 63), (0, 0), (0, 0), (0, 0), (32, 32) ]

/-- `code_map[code][caps]`; a code past the table reads as zero. -/
def codeMapAt (code : Nat) (caps : Bool) : UInt8 :=
  let entry := codeMap.getD code (0, 0)
  if caps then entry.2 else entry.1

/-- The statics of `keyboard.c`. -/
structure Terminal where
  caps : Bool
  controlValue : Bool
  offset : Int
  strOffset : Int
  lineCount : Int
  inpStr : Int → UInt8

def Terminal.initial : Terminal :=
  { caps := false, controlValue := false, offset := 0, strOffset := 0, lineCount := 0,
    inpStr := fun _ => 0 }

/-- The character appended by `intWrite` for an ordinary key. -/
def Terminal.append (t : Terminal) (c : UInt8) : Terminal :=
  { t with inpStr := Function.update t.inpStr t.strOffset c, strOffset := t.strOffset + 1 }

/-- `intWrite` on the buffer; the flag says that Enter was pressed, so that
`wake_process` runs. -/
def Terminal.intWrite (t : Terminal) (code : Nat) : Terminal × Bool :=
  -- Key releases and the keys behind Caps Lock only acknowledge the interrupt.
  if 58 < code then (t, false)
  else if code = 14 then
    -- The only check on a Backspace: something unread is in the buffer.
    if t.offset ≠ t.strOffset then
      ({ t with inpStr := Function.update t.inpStr (t.strOffset - 1) 0,
                strOffset := t.strOffset - 1 }, false)
    else (t, false)
  else if code = 28 then
    -- Enter does not touch `caps`, so a Shift pressed before it goes to the next key.
    ({ t.append 10 with lineCount := t.lineCount + 1 }, true)
  else if code = 29 then
    ({ t with controlValue := true }.append (codeMapAt 29 true), false)
  else if code = 42 ∨ code = 54 then ({ t with caps := true }, false)
  else if 0 < code then
    -- A Control pressed before counts as a Shift.
    let caps := t.caps || t.controlValue
    ({ t with controlValue := false, caps := false }.append (codeMapAt code caps), false)
  else (t, false)

/-- The `for` loop of `intRead` from index `i` on, `n` cells before the end of the
buffer: the characters moved out, the cells cleared, and whether a newline ended it. -/
def Terminal.readLine (t : Terminal) : Nat → Int → List UInt8 × Terminal × Bool
  | 0, _ => ([], t, false)
  | n + 1, i =>
    if t.inpStr i = 10 then
      ([], { t with offset := i + 1, lineCount := t.lineCount - 1 }, true)
    else
      let (line, t', found) :=
        { t with inpStr := Function.update t.inpStr i 0 }.readLine n (i + 1)
      (t.inpStr i :: line, t', found)

end LateOS
