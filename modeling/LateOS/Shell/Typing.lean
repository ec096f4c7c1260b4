import LateOS.Shell.Interactive
import LateOS.Process.Lines

/-!
# From the keyboard to the commands

The shell reads the terminal while keys are pressed. What it executes are the lines that have been
typed, with their corrections, as far as they have been delivered.
-/
namespace LateOS

open Lib

/-- No scancode that types the character 0, which are Escape, the `*` of the keypad, Alt and Caps
Lock. -/
def TerminalEvent.Plain : TerminalEvent → Prop
  | .key code => code ∉ [1, 55, 56, 58]
  | .read => True

instance : DecidablePred TerminalEvent.Plain
  | .key code => inferInstanceAs (Decidable (code ∉ _))
  | .read => isTrue trivial

/-- Nothing that has been typed is the character 0. -/
structure Typist.Plain (p : Typist) : Prop where
  lines : ∀ line ∈ p.lines, 0 ∉ line
  line : 0 ∉ p.line

variable {p : Typist} {d : Desk} {k : Key} {code : Nat}

/-! ## Plain keys -/

theorem codeMapAt_zero : ∀ code ≤ 58, ∀ caps, codeMapAt code caps = 0 →
    code ∈ [0, 1, 42, 54, 55, 56, 58] := by
  decide +kernel

theorem keyOf_plain {t : Terminal} (plain : code ∉ [1, 55, 56, 58]) : t.keyOf code ≠ .char 0 := by
  intro key
  unfold Terminal.keyOf at key
  split at key
  · cases key
  split at key
  · cases key
  split at key
  · cases key
  split at key
  · exact absurd (Key.char.inj key) (by decide)
  split at key
  · cases key
  next inside _ _ _ shift =>
    split at key
    next pressed =>
      have zero := codeMapAt_zero code (by omega) _ (Key.char.inj key)
      simp only [List.mem_cons, List.not_mem_nil, or_false] at zero plain
      omega
    next => cases key

theorem Typist.Plain.press (plain : p.Plain) (other : k ≠ .char 0) : (p.press k).Plain := by
  cases k with
  | other => exact plain
  | char c =>
    refine ⟨plain.lines, fun member => ?_⟩
    rcases List.mem_append.mp member with before | last
    · exact plain.line before
    · exact other (congrArg Key.char (List.mem_singleton.mp last).symm)
  | backspace => exact ⟨plain.lines, fun member => plain.line (List.dropLast_subset _ member)⟩
  | enter =>
    refine ⟨fun line member => ?_, List.not_mem_nil⟩
    rcases List.mem_append.mp member with before | last
    · exact plain.lines line before
    · exact (List.mem_singleton.mp last) ▸ plain.line

/-- The event keeps the terminal with its lines, and these plain. -/
structure Desk.Quiet (d : Desk) : Prop extends d.Agrees where
  few : d.typed < 4096
  zeros : d.typist.Plain

theorem Desk.initial_quiet : Desk.initial.Quiet :=
  ⟨Desk.initial_agrees, by decide, ⟨nofun, nofun⟩⟩

theorem Desk.Quiet.step {a : TerminalEvent} {d' : Desk} (quiet : d.Quiet) (ran : Desk.Step d a d')
    (editable : Editable d a) (plain : a.Plain) : d'.Quiet := by
  have agrees := quiet.toAgrees.step ran editable
  obtain ⟨few, rfl⟩ := Desk.step_iff.mp ran
  refine ⟨agrees, few, ?_⟩
  cases a with
  | key code => exact quiet.zeros.press (keyOf_plain plain)
  | read => exact quiet.zeros

/-! ## Catching up -/

theorem Desk.Quiet.read (quiet : d.Quiet) {line : Line} {more : List Line}
    (unread : d.unread = line :: more) :
    (d.after .read).Quiet ∧ (d.after .read).unread = more ∧
      (d.after .read).typist = d.typist := by
  obtain ⟨inpStr, after, -⟩ := quiet.delivers quiet.few unread
  refine ⟨⟨quiet.toAgrees.read quiet.few, ?_, ?_⟩, ?_, ?_⟩
  · rw [after]
    exact quiet.few
  · rw [after]
    exact quiet.zeros
  · rw [after, Desk.unread, List.length_append, List.length_singleton, ← List.drop_drop]
    exact (congrArg (List.drop 1) unread)
  · rw [after]

/-- A read for each line that is unread delivers them all. -/
theorem Desk.Quiet.catchUp (quiet : d.Quiet) :
    ((fun d => d.after .read)^[d.unread.length] d).delivered = d.typist.lines := by
  generalize count : d.unread.length = n
  induction n generalizing d with
  | zero =>
    have length := quiet.delivered_le
    rw [Desk.unread, List.length_drop] at count
    exact quiet.lines.eq_of_length (by omega)
  | succ n ih =>
    obtain ⟨line, more, unread⟩ := List.exists_cons_of_length_eq_add_one count
    obtain ⟨quiet', unread', typist⟩ := quiet.read unread
    rw [Function.iterate_succ_apply, ← typist]
    refine ih quiet' ?_
    rw [unread, List.length_cons] at count
    rw [unread', Nat.succ.inj count]

/-! ## Runs -/

open Shell in
/-- Whatever the order of keys and reads, if no Backspace comes on an empty line behind an unread
one and no key types a 0, the shell executes what is asked by the lines that have been typed and
delivered, unless it comes to one of 1000 characters. All of them are delivered once it catches
up. -/
theorem typed_executed_iff (chdir : Chdir) (s : State) {run : List (TerminalEvent × Desk)}
    (along : Along Desk.Step Desk.initial run)
    (editable : Along (fun d a _ => Editable d a) Desk.initial run)
    (plain : Along (fun _ a _ => a.Plain) Desk.initial run) :
    let d := lastState Desk.initial run
    let done := executed chdir s (asked (d.typist.lines.take d.delivered.length))
    (interactive chdir s (fun _ => 0) d.delivered = done ↔ ∀ line ∈ done, line.length < 1000) ∧
      ((fun d => d.after .read)^[d.unread.length] d).delivered = d.typist.lines := by
  have quiet : (lastState Desk.initial run).Quiet :=
    Along.invariant_last (I := Desk.Quiet)
      (fun _ _ _ quiet ran => quiet.step ran.1.1 ran.1.2 ran.2) Desk.initial_quiet
      ((along.and editable).and plain)
  generalize lastState Desk.initial run = d at quiet
  refine ⟨?_, quiet.catchUp⟩
  have same : d.typist.lines.take d.delivered.length = d.delivered :=
    (List.prefix_iff_eq_take.mp quiet.lines).symm
  rw [same, interactive_iff]
  refine forall₂_congr fun line done => ⟨fun stores => stores.short, fun short => ⟨?_, short⟩⟩
  exact quiet.zeros.lines line (quiet.lines.subset (executed_mem done))

/-- `a`, a read that finds no line, `b`, Backspace and Enter; then `c`, a read, and Enter. -/
def typing : List TerminalEvent :=
  [.key 30, .read, .key 48, .key 14, .key 28, .key 46, .read, .key 28]

/-- The first line has been delivered, without its `b`, and the second one is with the next read. -/
theorem typed_executed_iff_of_typing :
    let d := lastState Desk.initial (follow Desk.step Desk.initial typing)
    Shell.interactive Shell.chdirOne Shell.atRoot (fun _ => 0) d.delivered = [[97]] ∧
      d.unread.length = 1 ∧ (d.after .read).delivered = [[97], [99]] := by
  have editable : Along (fun d a _ => Editable d a) Desk.initial
      (follow Desk.step Desk.initial typing) := by
    decide +kernel
  have plain : Along (fun _ a _ => TerminalEvent.Plain a) Desk.initial
      (follow Desk.step Desk.initial typing) := by
    decide +kernel
  have typed := typed_executed_iff Shell.chdirOne Shell.atRoot
    (along_follow Desk.step Desk.initial typing) editable plain
  have seen : (lastState Desk.initial (follow Desk.step Desk.initial typing)).typist.lines =
        [[97], [99]] ∧
      (lastState Desk.initial (follow Desk.step Desk.initial typing)).delivered = [[97]] := by
    decide +kernel
  generalize lastState Desk.initial (follow Desk.step Desk.initial typing) = d at typed seen
  obtain ⟨lines, delivered⟩ := seen
  have one : d.unread.length = 1 := by rw [Desk.unread, lines, delivered]; rfl
  obtain ⟨executes, caught⟩ := typed
  rw [lines, delivered] at executes
  rw [one, lines] at caught
  have done : Shell.executed Shell.chdirOne Shell.atRoot
      (Shell.asked ([[97], [99]].take [[(97 : UInt8)]].length)) = [[97]] := by
    decide +kernel
  rw [done] at executes
  refine ⟨?_, one, caught⟩
  rw [delivered]
  exact executes.mpr (by decide)

end LateOS
