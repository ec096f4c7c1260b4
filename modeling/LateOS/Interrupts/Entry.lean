import LateOS.Interrupts.Gates
import LateOS.Lib.Stack

/-!
# Entry and return

An event from the gate that the processor takes to the `iretq` of the routine behind it. The
program that was interrupted finds its registers as they were if and only if the routine takes away
as many words as the processor has pushed.
-/
namespace LateOS

open Lib

inductive Register where
  | rax | rbx | rcx | rdx | rsi | rdi | rbp
  | r8 | r9 | r10 | r11 | r12 | r13 | r14 | r15
deriving DecidableEq

/-- The procedures in C that the routines call. -/
inductive Handler where
  | isr0
  | isr14
  | isr128
  | intTimer
  | intWrite
deriving DecidableEq

/-- `addRsp n` adds `8 * n`; what `add` does to the flags, `iretq` undoes. -/
inductive Instr where
  | cli
  | sti
  | pushq (r : Register)
  | popq (r : Register)
  | addRsp (n : Nat)
  | movqRsp (r : Register)
  | callq (f : Handler)
  | iretq

structure Cpu (S : Type) where
  core : Core Register S
  rip : Word
  cs : BitVec 16
  rflags : Word
  ss : BitVec 16

/-- What the assembly leaves open: where the TSS and the routines are and what the procedures do.
`rsp0` is the stack in the TSS at an address, `after` the address behind the call of a procedure. -/
structure Platform (S : Type) where
  tss : Word
  rsp0 : Word → Word
  address : Stub → Word
  after : Handler → Word
  handler : Handler → Core Register S → Option (Core Register S)

/-- The procedures come back with the stack as they have found it: their return address, what the
routine has saved and what the processor has pushed. -/
def Platform.KeepsStack {S : Type} (H : Platform S) : Prop :=
  ∀ f k k', H.handler f k = some k' → Core.Keeps 22 k k'

/-! ## The routines -/

def pushRegs : List Instr :=
  [.pushq .rax, .pushq .rbx, .pushq .rcx, .pushq .rdx, .pushq .rsi, .pushq .rdi, .pushq .rbp,
    .pushq .r8, .pushq .r9, .pushq .r10, .pushq .r11, .pushq .r12, .pushq .r13, .pushq .r14,
    .pushq .r15]

def popRegs : List Instr :=
  [.popq .r15, .popq .r14, .popq .r13, .popq .r12, .popq .r11, .popq .r10, .popq .r9, .popq .r8,
    .popq .rbp, .popq .rdi, .popq .rsi, .popq .rdx, .popq .rcx, .popq .rbx, .popq .rax]

def Stub.code : Stub → List Instr
  | .ISR0 => pushRegs ++ .callq .isr0 :: popRegs ++ [.iretq]
  | .ISR14 => pushRegs ++ .callq .isr14 :: popRegs ++ [.addRsp 1, .iretq]
  | .ISR128 =>
    [.cli, .pushq .rbx, .pushq .rcx, .pushq .rdx, .pushq .rsi, .pushq .rdi, .pushq .rbp,
      .pushq .r8, .pushq .r9, .pushq .r10, .pushq .r11, .pushq .r12, .pushq .r13, .pushq .r14,
      .pushq .r15, .movqRsp .rdi, .callq .isr128, .popq .r15, .popq .r14, .popq .r13, .popq .r12,
      .popq .r11, .popq .r10, .popq .r9, .popq .r8, .popq .rbp, .popq .rdi, .popq .rsi, .popq .rdx,
      .popq .rcx, .popq .rbx, .sti, .iretq]
  | .timer => pushRegs ++ .callq .intTimer :: popRegs ++ [.iretq]
  | .keyboard => pushRegs ++ .callq .intWrite :: popRegs ++ [.iretq]

namespace Cpu

variable {S : Type}

def cpl (c : Cpu S) : BitVec 2 := c.cs.extractLsb' 0 2

/-- In 64-bit mode all five words are popped. A code segment of another level than its selector
says is refused. -/
def iretq (core : Core Register S) : Option (Cpu S) :=
  let cs := (core.cell 1).setWidth 16
  if codeSegment cs = some (cs.extractLsb' 0 2) then
    some
      { core := { core with rsp := core.cell 3 }
        rip := core.cell 0
        cs := cs
        rflags := core.cell 2
        ss := (core.cell 4).setWidth 16 }
  else none

variable (H : Platform S)

def exec : Instr → Cpu S → Option (Cpu S)
  | .cli, c => some { c with rflags := c.rflags &&& ~~~0x200 }
  | .sti, c => some { c with rflags := c.rflags ||| 0x200 }
  | .pushq r, c => some { c with core := c.core.push (c.core.reg r) }
  | .popq r, c => some { c with core := c.core.pop r }
  | .addRsp n, c => some { c with core := c.core.drop n }
  | .movqRsp r, c =>
    some { c with core := { c.core with reg := Function.update c.core.reg r c.core.rsp } }
  | .callq f, c => (c.core.call (H.handler f) (H.after f)).map fun core => { c with core := core }
  | .iretq, c => iretq c.core

def run (code : List Instr) (c : Cpu S) : Option (Cpu S) := code.foldlM (fun c i => exec H i c) c

end Cpu

/-! ## Events -/

/-- A fault of the processor, a device, or `int n`. -/
inductive Event where
  | exception (n : Nat) (error : Word)
  | interrupt (n : Nat)
  | software (n : Nat)

namespace Event

def vector : Event → Nat
  | .exception n _ | .interrupt n | .software n => n

/-- The error code that some exceptions push. -/
def errorCode : Event → List Word
  | .exception n error => if n ∈ [8, 10, 11, 12, 13, 14, 17, 21, 29, 30] then [error] else []
  | .interrupt _ | .software _ => []

def IsSoftware : Event → Prop
  | .software _ => True
  | .exception .. | .interrupt _ => False

instance : ∀ e : Event, Decidable e.IsSoftware
  | .software _ => isTrue trivial
  | .exception .. | .interrupt _ => isFalse id

end Event

namespace Cpu

variable {S : Type} (H : Platform S) (e : Event) (c : Cpu S)

/-- What the processor pushes, the last word first. -/
def frame : List Word :=
  e.errorCode ++ [c.rip, c.cs.setWidth 64, c.rflags, c.core.rsp, c.ss.setWidth 64]

/-- Where the frame goes: to the stack of the TSS when the level changes, else to the one in use,
from a multiple of 16 down. -/
def frameTop (level : BitVec 2) : Word :=
  (if level < c.cpl then H.rsp0 (tssBase (init_gdt H.tss).image) else c.core.rsp) &&& ~~~15

/-- The processor takes an event. -/
def deliver : Option (Cpu S) :=
  let gate := Gate.read (IDTinitialise H.address e.vector).image
  match codeSegment gate.selector with
  | none => none
  | some level =>
    if gate.present ∧ gate.kind = 0x0E ∧ gate.ist = 0 ∧ level ≤ c.cpl ∧
        (e.IsSoftware → c.cpl ≤ gate.dpl) then
      some
        { core := { c.core with rsp := c.frameTop H level }.pushWords (c.frame e).reverse
          rip := gate.offset
          cs := gate.selector
          rflags := c.rflags &&& ~~~0x200
          ss := if level < c.cpl then 0 else c.ss }
    else none

/-- The routine at an address. -/
def stubAt (rip : Word) : Option Stub :=
  [Stub.ISR0, .ISR14, .ISR128, .timer, .keyboard].find? (H.address · = rip)

/-- An event with all that is done about it, until the program goes on. -/
def interrupt : Option (Cpu S) := do
  let d ← c.deliver H e
  run H (← stubAt H d.rip).code d

/-- What the processor is left with for the routine `s`. -/
def entered (s : Stub) : Cpu S where
  core := { c.core with rsp := c.frameTop H 0 }.pushWords (c.frame e).reverse
  rip := H.address s
  cs := 0x08
  rflags := c.rflags &&& ~~~0x200
  ss := if 0 < c.cpl then 0 else c.ss

variable {H e c} {d : Cpu S} {s : Stub}

theorem deliver_eq_some : c.deliver H e = some d ↔
    ∃ s, Stub.ofVector e.vector = some s ∧
      (e.IsSoftware → c.cpl ≤ if s = .ISR128 then 3 else 0) ∧ c.entered H e s = d := by
  unfold deliver
  rw [read_IDTinitialise]
  cases Stub.ofVector e.vector with
  | none =>
    -- The null segment of an empty entry is none of code.
    have null : codeSegment 0 = none := by decide
    simp only [null, reduceCtorEq, false_and, exists_false]
  | some s =>
    have lowest : (0 : BitVec 2) ≤ c.cpl := Nat.zero_le _
    simp only [codeSegment_kernel, lowest, entered, true_and, Option.some.injEq,
      exists_eq_left', Option.ite_none_right_eq_some]

theorem frame_length : (c.frame e).length ≤ 6 := by
  unfold frame
  rw [List.length_append]
  have code : e.errorCode.length ≤ 1 := by
    cases e with
    | exception n error =>
      change (if _ then [error] else []).length ≤ 1
      split <;> simp
    | interrupt n => exact Nat.zero_le _
    | software n => exact Nat.zero_le _
  simp only [List.length_cons, List.length_nil]
  omega

/-- The routine finds what the processor has pushed, and the registers of the program. -/
theorem entered_stacked : (c.entered H e s).core.Stacked (c.frame e) := by
  have length := frame_length (c := c) (e := e)
  have pushed := (Core.Stacked.nil (c := { c.core with rsp := c.frameTop H 0 })).pushWords
    (c.frame e).reverse (by simp; omega)
  rw [List.reverse_reverse, List.append_nil] at pushed
  exact pushed

@[simp] theorem entered_reg : (c.entered H e s).core.reg = c.core.reg := Core.pushWords_reg

@[simp] theorem entered_world : (c.entered H e s).core.world = c.core.world :=
  Core.pushWords_world

theorem vector_ISR128 (serves : Stub.ofVector e.vector = some s) :
    s = .ISR128 ↔ e.vector = 128 := by
  unfold Stub.ofVector at serves
  split_ifs at serves <;> cases serves <;> simp_all

/-- A program in user mode gets into the kernel by `int n` for no other `n` than 128. Whatever
brings it there, it enters one of the five routines, at level 0 and with interrupts off, on the
stack that the TSS has for it, and nothing but the frame on that stack is written. -/
theorem user_entry (user : c.cpl = 3) :
    (∀ n, (∃ d, c.deliver H (.software n) = some d) ↔ n = 128) ∧
      ∀ e d, c.deliver H e = some d →
        d.cpl = 0 ∧ d.rflags.getLsbD 9 = false ∧
        (∃ s, Stub.ofVector e.vector = some s ∧ d.rip = H.address s) ∧
        d.core.reg = c.core.reg ∧ d.core.Stacked (c.frame e) ∧
        d.core.rsp = (H.rsp0 H.tss &&& ~~~15) - BitVec.ofNat 64 (8 * (c.frame e).length) ∧
        ∀ a, (∀ i < (c.frame e).length,
          a ≠ (H.rsp0 H.tss &&& ~~~15) - BitVec.ofNat 64 (8 * (i + 1))) →
          d.core.mem a = c.core.mem a := by
  have top : c.frameTop H 0 = H.rsp0 H.tss &&& ~~~15 := by
    unfold frameTop
    rw [user, if_pos (by decide), tssBase_init_gdt]
  constructor
  · intro n
    simp only [deliver_eq_some, user]
    constructor
    · rintro ⟨d, s, serves, allowed, -⟩
      refine (vector_ISR128 serves).mp ?_
      by_contra other
      have low := allowed trivial
      rw [if_neg other] at low
      exact absurd low (by decide)
    · rintro rfl
      exact ⟨_, .ISR128, rfl, fun _ => by decide, rfl⟩
  · intro e d delivered
    obtain ⟨s, serves, -, rfl⟩ := deliver_eq_some.mp delivered
    have kernel : (0x08 : BitVec 16).extractLsb' 0 2 = 0 := by decide
    refine ⟨kernel, ?_, ⟨s, serves, rfl⟩, entered_reg, entered_stacked, ?_, fun a outside => ?_⟩
    · change (c.rflags &&& ~~~0x200).getLsbD 9 = false
      rw [BitVec.getLsbD_and]
      exact Bool.and_false _
    · refine Core.pushWords_rsp.trans ?_
      rw [List.length_reverse]
      exact congrArg (· - _) top
    · refine Core.pushWords_mem fun i below => ?_
      rw [List.length_reverse] at below
      rw [top]
      exact outside i below

theorem stubAt_address (distinct : Function.Injective H.address) :
    stubAt H (H.address s) = some s := by
  unfold stubAt
  cases s <;> simp [distinct.eq_iff]

/-- A platform of which the procedures leave nothing in the registers. -/
def forgetful : Platform Unit where
  tss := 0x1000
  rsp0 _ := 0xffffffff80010ff8
  address
    | .ISR0 => 0xffffffff80200000
    | .ISR14 => 0xffffffff80200100
    | .ISR128 => 0xffffffff80200200
    | .timer => 0xffffffff80200300
    | .keyboard => 0xffffffff80200400
  after _ := 0xffffffff80200030
  handler _ k := some { k with reg := fun _ => 0 }

/-- A program in user mode. -/
def userProgram : Cpu Unit where
  core := { reg := fun _ => 5, rsp := 0x100FFFFF0000, mem := fun _ => 0, world := () }
  rip := 0x400000
  cs := 0x2B
  rflags := 0x202
  ss := 0x23

theorem user_entry_of_userProgram :
    (∀ n, (∃ d, userProgram.deliver forgetful (.software n) = some d) ↔ n = 128) ∧
      (userProgram.deliver forgetful (.exception 14 6)).isSome := by
  exact ⟨(user_entry (by decide)).1, by decide⟩

end Cpu

end LateOS
