import LateOS.Interrupts.Entry

/-!
# Back to the program

What the routines do to the stack between the processor's push and its pop.
-/
namespace LateOS

open Lib

namespace Stub

variable {S : Type}

/-- The registers that a routine saves, in the order in which it does. -/
def saved : Stub → List Register
  | .ISR128 =>
    [.rbx, .rcx, .rdx, .rsi, .rdi, .rbp, .r8, .r9, .r10, .r11, .r12, .r13, .r14, .r15]
  | .ISR0 | .ISR14 | .timer | .keyboard =>
    [.rax, .rbx, .rcx, .rdx, .rsi, .rdi, .rbp, .r8, .r9, .r10, .r11, .r12, .r13, .r14, .r15]

def procedure : Stub → Handler
  | .ISR0 => .isr0
  | .ISR14 => .isr14
  | .ISR128 => .isr128
  | .timer => .intTimer
  | .keyboard => .intWrite

/-- `ISR128` gives its procedure the address of what it has saved. -/
def argument : Stub → Core Register S → Core Register S
  | .ISR128, k => { k with reg := Function.update k.reg .rdi k.rsp }
  | .ISR0, k | .ISR14, k | .timer, k | .keyboard, k => k

/-- The words that a routine takes away besides what it has saved. -/
def skipped : Stub → Nat
  | .ISR14 => 1
  | .ISR0 | .ISR128 | .timer | .keyboard => 0

def before : Stub → List Instr
  | .ISR128 => [.cli]
  | .ISR0 | .ISR14 | .timer | .keyboard => []

def between : Stub → List Instr
  | .ISR128 => [.movqRsp .rdi]
  | .ISR0 | .ISR14 | .timer | .keyboard => []

def behind : Stub → List Instr
  | .ISR14 => [.addRsp 1]
  | .ISR128 => [.sti]
  | .ISR0 | .timer | .keyboard => []

/-- All routines are of one form. -/
theorem code_eq (s : Stub) : s.code =
    s.before ++ (s.saved.map .pushq ++ (s.between ++ (.callq s.procedure ::
      (s.saved.reverse.map .popq ++ (s.behind ++ [.iretq]))))) := by
  cases s <;> rfl

theorem argument_rsp (s : Stub) (k : Core Register S) : (s.argument k).rsp = k.rsp := by
  cases s <;> rfl

theorem argument_mem (s : Stub) (k : Core Register S) : (s.argument k).mem = k.mem := by
  cases s <;> rfl

theorem argument_world (s : Stub) (k : Core Register S) : (s.argument k).world = k.world := by
  cases s <;> rfl

theorem argument_reg {r : Register} (s : Stub) (k : Core Register S) (other : r ≠ .rdi) :
    (s.argument k).reg r = k.reg r := by
  cases s with
  | ISR128 => exact Function.update_of_ne other _ _
  | ISR0 | ISR14 | timer | keyboard => rfl

theorem argument_rdi (k : Core Register S) : (argument .ISR128 k).reg .rdi = k.rsp := by
  change Function.update k.reg .rdi k.rsp .rdi = k.rsp
  exact Function.update_self ..

theorem mem_saved {s : Stub} (r : Register) (other : s ≠ .ISR128) : r ∈ s.saved := by
  cases s <;> first | exact absurd rfl other | (cases r <;> decide)

theorem mem_saved_ISR128 (r : Register) : r ∈ saved .ISR128 ↔ r ≠ .rax := by
  cases r <;> decide

theorem length_saved (s : Stub) : s.saved.length ≤ 15 := by
  cases s <;> decide

end Stub

namespace Cpu

variable {S : Type} {H : Platform S} {code : List Instr} {f g : Core Register S → Core Register S}
  {c d : Cpu S} {k k' : Core Register S} {s : Stub} {e : Event} {ws : List Word}

/-! ## A routine at work -/

/-- All that the instructions do to the core is `f`, whatever comes behind them. -/
def Acts (H : Platform S) (code : List Instr) (f : Core Register S → Core Register S) : Prop :=
  ∀ c rest, ∃ c', c'.core = f c.core ∧ run H (code ++ rest) c = run H rest c'

theorem acts_nil : Acts H [] id := fun c _ => ⟨c, rfl, rfl⟩

theorem acts_pushes (rs : List Register) : Acts H (rs.map .pushq) (·.pushAll rs) := by
  induction rs with
  | nil => exact acts_nil
  | cons r rs ih =>
    intro c rest
    obtain ⟨c', core, ran⟩ := ih { c with core := c.core.push (c.core.reg r) } rest
    exact ⟨c', core, ran⟩

theorem acts_pops (rs : List Register) : Acts H (rs.map .popq) (·.popAll rs) := by
  induction rs with
  | nil => exact acts_nil
  | cons r rs ih =>
    intro c rest
    obtain ⟨c', core, ran⟩ := ih { c with core := c.core.pop r } rest
    exact ⟨c', core, ran⟩

theorem acts_before (s : Stub) : Acts H s.before id := by
  cases s with
  | ISR128 => exact fun c _ => ⟨{ c with rflags := c.rflags &&& ~~~0x200 }, rfl, rfl⟩
  | ISR0 | ISR14 | timer | keyboard => exact acts_nil

theorem acts_between (s : Stub) : Acts H s.between s.argument := by
  cases s with
  | ISR128 =>
    intro c rest
    exact ⟨{ c with core := Stub.argument .ISR128 c.core }, rfl, rfl⟩
  | ISR0 | ISR14 | timer | keyboard => exact acts_nil

theorem acts_behind (s : Stub) : Acts H s.behind (·.drop s.skipped) := by
  cases s with
  | ISR14 => exact fun c _ => ⟨{ c with core := c.core.drop 1 }, rfl, rfl⟩
  | ISR128 => exact fun c _ => ⟨{ c with rflags := c.rflags ||| 0x200 }, Core.drop_zero.symm, rfl⟩
  | ISR0 | timer | keyboard => exact fun c _ => ⟨c, Core.drop_zero.symm, rfl⟩

/-- A routine saves, calls, restores, and returns from what is then on top of the stack. -/
theorem run_code : run H s.code c =
    ((s.argument (c.core.pushAll s.saved)).call (H.handler s.procedure)
      (H.after s.procedure)).bind fun k => iretq ((k.popAll s.saved.reverse).drop s.skipped) := by
  obtain ⟨c₁, core₁, ran₁⟩ := acts_before (H := H) s c (s.saved.map .pushq ++ (s.between ++
    (.callq s.procedure :: (s.saved.reverse.map .popq ++ (s.behind ++ [.iretq])))))
  obtain ⟨c₂, core₂, ran₂⟩ := acts_pushes (H := H) s.saved c₁ (s.between ++
    (.callq s.procedure :: (s.saved.reverse.map .popq ++ (s.behind ++ [.iretq]))))
  obtain ⟨c₃, core₃, ran₃⟩ := acts_between (H := H) s c₂
    (.callq s.procedure :: (s.saved.reverse.map .popq ++ (s.behind ++ [.iretq])))
  have core : c₃.core = s.argument (c.core.pushAll s.saved) := by rw [core₃, core₂, core₁]; rfl
  rw [Stub.code_eq, ran₁, ran₂, ran₃, ← core]
  change (((c₃.core.call (H.handler s.procedure) (H.after s.procedure)).map fun core =>
    { c₃ with core := core }).bind fun c => run H _ c) = _
  rw [Option.bind_map]
  refine Option.bind_congr fun k _ => ?_
  obtain ⟨c₄, core₄, ran₄⟩ := acts_pops (H := H) s.saved.reverse { c₃ with core := k }
    (s.behind ++ [.iretq])
  obtain ⟨c₅, core₅, ran₅⟩ := acts_behind (H := H) s c₄ [.iretq]
  refine (ran₄.trans ran₅).trans ?_
  change (iretq c₅.core).bind some = _
  rw [Option.bind_fun_some, core₅, core₄]

/-! ## The program that was interrupted -/

/-- The core as the procedure of the routine finds it, but for the return address. -/
def called (H : Platform S) (e : Event) (c : Cpu S) (s : Stub) : Core Register S :=
  s.argument ((c.entered H e s).core.pushAll s.saved)

/-- On the stack are the registers of the program, the last one first, and the processor's words. -/
theorem called_stacked :
    (c.called H e s).Stacked (s.saved.reverse.map c.core.reg ++ c.frame e) := by
  have few := frame_length (c := c) (e := e)
  have length := s.length_saved
  have pushed := (entered_stacked (c := c) (H := H) (e := e) (s := s)).pushWords
    (s.saved.map c.core.reg) (by rw [List.length_map]; omega)
  rw [← entered_reg (H := H) (e := e) (s := s), ← Core.pushAll_eq, entered_reg,
    ← List.map_reverse] at pushed
  intro i v here
  rw [← pushed i v here]
  unfold called Core.cell
  rw [s.argument_rsp, s.argument_mem]

/-- The procedure leaves that as it is. -/
theorem returned_stacked (kept : H.KeepsStack)
    (returned : (c.called H e s).call (H.handler s.procedure) (H.after s.procedure) = some k) :
    k.Stacked (s.saved.reverse.map c.core.reg ++ c.frame e) := by
  have few := frame_length (c := c) (e := e)
  have length := s.length_saved
  refine called_stacked.mono (Core.Keeps.call (n := 21) (kept _ _) (by decide) returned) ?_
  rw [List.length_append, List.length_map, List.length_reverse]
  omega

/-- The program has its registers back, and goes on where it was. -/
structure Resumes (c c' : Cpu S) : Prop where
  reg : c'.core.reg = c.core.reg
  rsp : c'.core.rsp = c.core.rsp
  rip : c'.rip = c.rip
  cs : c'.cs = c.cs
  rflags : c'.rflags = c.rflags
  ss : c'.ss = c.ss

theorem iretq_frame (code : codeSegment c.cs = some c.cpl)
    (stacked : k.Stacked [c.rip, c.cs.setWidth 64, c.rflags, c.core.rsp, c.ss.setWidth 64]) :
    iretq k = some { c with core := { k with rsp := c.core.rsp } } := by
  have narrow (v : BitVec 16) : (v.setWidth 64).setWidth 16 = v := by
    rw [BitVec.setWidth_setWidth_of_le _ (by decide), BitVec.setWidth_eq]
  have rip : k.cell 0 = c.rip := stacked 0 _ rfl
  have cs : k.cell 1 = c.cs.setWidth 64 := stacked 1 _ rfl
  have rflags : k.cell 2 = c.rflags := stacked 2 _ rfl
  have rsp : k.cell 3 = c.core.rsp := stacked 3 _ rfl
  have ss : k.cell 4 = c.ss.setWidth 64 := stacked 4 _ rfl
  unfold iretq
  simp only [rip, cs, rflags, rsp, ss, narrow]
  exact if_pos code

/-- What `iretq` makes of the stack, if anything. -/
theorem iretq_eq_some {c' : Cpu S} (returned : iretq k = some c') :
    c'.core.rsp = k.cell 3 ∧ c'.rflags = k.cell 2 := by
  unfold iretq at returned
  obtain ⟨_, same⟩ := Option.ite_none_right_eq_some.mp returned
  cases same
  exact ⟨rfl, rfl⟩

/-- The event from the call of the procedure on. -/
theorem interrupt_eq (distinct : Function.Injective H.address)
    (serves : Stub.ofVector e.vector = some s)
    (allowed : e.IsSoftware → c.cpl ≤ if s = .ISR128 then 3 else 0) :
    c.interrupt H e = ((c.called H e s).call (H.handler s.procedure) (H.after s.procedure)).bind
      fun k => iretq ((k.popAll s.saved.reverse).drop s.skipped) := by
  have delivered : c.deliver H e = some (c.entered H e s) :=
    deliver_eq_some.mpr ⟨s, serves, allowed, rfl⟩
  have found : stubAt H (c.entered H e s).rip = some s := stubAt_address distinct
  unfold interrupt
  rw [delivered, Option.bind_eq_bind, Option.bind_some, found, Option.bind_eq_bind,
    Option.bind_some, run_code]
  rfl

theorem ofVector_ISR14 (serves : Stub.ofVector e.vector = some s) :
    s = .ISR14 ↔ e.vector = 14 := by
  unfold Stub.ofVector at serves
  split_ifs at serves <;> cases serves <;> simp_all

theorem skipped_eq (s : Stub) : s.skipped = if s = .ISR14 then 1 else 0 := by
  cases s <;> rfl

/-- There is one error code at most. -/
theorem errorCode_cases (e : Event) : e.errorCode = [] ∨ ∃ error, e.errorCode = [error] := by
  cases e with
  | exception n error =>
    unfold Event.errorCode
    by_cases pushed : n ∈ [8, 10, 11, 12, 13, 14, 17, 21, 29, 30]
    · exact .inr ⟨error, if_pos pushed⟩
    · exact .inl (if_neg pushed)
  | interrupt n => exact .inl rfl
  | software n => exact .inl rfl

/-- A fault, a device or `int n` leaves the program as it was, whatever the procedure does to the
registers, exactly if there is an error code for `ISR14` and for no other routine. -/
theorem resumes_iff (distinct : Function.Injective H.address) (kept : H.KeepsStack)
    (code : codeSegment c.cs = some c.cpl) (apart : c.core.rsp ≠ c.rflags)
    (serves : Stub.ofVector e.vector = some s) (other : s ≠ .ISR128)
    (allowed : e.IsSoftware → c.cpl = 0)
    (returned : (c.called H e s).call (H.handler s.procedure) (H.after s.procedure) = some k) :
    (∃ c', c.interrupt H e = some c' ∧ c.Resumes c') ↔ (e.errorCode ≠ [] ↔ e.vector = 14) := by
  have ran := interrupt_eq distinct serves
    (fun software => (allowed software).trans_le (Nat.zero_le _))
  rw [returned, Option.bind_some] at ran
  obtain ⟨stacked, values⟩ := (returned_stacked kept returned).popAll
  have reg : (k.popAll s.saved.reverse).reg = c.core.reg := by
    funext r
    exact values r (List.mem_reverse.mpr (Stub.mem_saved r other))
  unfold frame at stacked
  rw [ran, ← ofVector_ISR14 serves]
  constructor
  · rintro ⟨c', returned, resumes⟩
    obtain ⟨rsp, rflags⟩ := iretq_eq_some returned
    rw [Core.drop_cell, skipped_eq] at rsp rflags
    -- One word too many or too few, and `rsp` and `rflags` are each other's neighbours.
    rcases errorCode_cases e with none | ⟨error, one⟩
    · refine ⟨fun some => absurd none some, fun here => absurd ?_ apart⟩
      rw [none] at stacked
      rw [if_pos here, stacked 3 _ rfl] at rflags
      exact rflags.symm.trans resumes.rflags
    · refine ⟨fun _ => ?_, fun _ => by simp [one]⟩
      by_contra there
      rw [one] at stacked
      rw [if_neg there, stacked 3 _ rfl] at rsp
      exact apart (resumes.rsp.symm.trans rsp)
  · intro balanced
    have length : e.errorCode.length = s.skipped := by
      rw [skipped_eq]
      rcases errorCode_cases e with none | ⟨error, one⟩
      · rw [none, if_neg fun here => balanced.mpr here none]
        rfl
      · rw [one, if_pos (balanced.mp (by simp [one]))]
        rfl
    refine ⟨_, iretq_frame code (stacked.drop length), ?_⟩
    exact ⟨reg, rfl, rfl, rfl, rfl, rfl⟩

theorem forgetful_keepsStack : forgetful.KeepsStack := by
  intro f k k' came
  cases came
  exact ⟨rfl, fun _ _ => rfl⟩

theorem forgetful_distinct : Function.Injective forgetful.address := by
  intro s s'
  cases s <;> cases s' <;> decide

/-- A page fault goes well, a general protection fault does not. -/
theorem resumes_iff_of_userProgram :
    (∃ c', userProgram.interrupt forgetful (.exception 14 6) = some c' ∧ userProgram.Resumes c') ∧
      ¬∃ c', userProgram.interrupt forgetful (.exception 13 0) = some c' ∧
        userProgram.Resumes c' :=
  ⟨(resumes_iff (e := .exception 14 6) (s := .ISR14) forgetful_distinct forgetful_keepsStack
      (by decide) (by decide) rfl (by decide) (by decide) rfl).mpr (by decide),
    fun resumes => absurd ((resumes_iff (e := .exception 13 0) (s := .ISR0) forgetful_distinct
      forgetful_keepsStack (by decide) (by decide) rfl (by decide) (by decide) rfl).mp resumes)
      (by decide)⟩

end Cpu

end LateOS
