import LateOS.Interrupts.Return

/-!
# System calls

From the wrappers of the C library through `int $0x80` and `ISR128` to the functions of the kernel
and back.
-/
namespace LateOS

open Lib

/-- `registersAligned`: what `ISR128` has pushed, from the top of the stack on. -/
structure RegistersAligned where
  r15 : Word
  r14 : Word
  r13 : Word
  r12 : Word
  r11 : Word
  r10 : Word
  r9 : Word
  r8 : Word
  rbp : Word
  rdi : Word
  rsi : Word
  rdx : Word
  rcx : Word
  rbx : Word

/-- The structure at address `a`. -/
def RegistersAligned.load (mem : Word → Word) (a : Word) : RegistersAligned where
  r15 := mem a
  r14 := mem (a + 8)
  r13 := mem (a + 16)
  r12 := mem (a + 24)
  r11 := mem (a + 32)
  r10 := mem (a + 40)
  r9 := mem (a + 48)
  r8 := mem (a + 56)
  rbp := mem (a + 64)
  rdi := mem (a + 72)
  rsi := mem (a + 80)
  rdx := mem (a + 88)
  rcx := mem (a + 96)
  rbx := mem (a + 104)

/-- The functions of the kernel that `isr128` calls, with the types of C. One that does not come
back is undefined. -/
structure Services (S : Type) where
  intRead : Word → S → Option S
  readTarfsFile : BitVec 32 → Word → BitVec 32 → S → Option (Word × S)
  kprintf : Word → S → Option S
  openTarfsFile : Word → BitVec 32 → S → Option (BitVec 32 × S)
  closeTarfsFile : BitVec 32 → S → Option (BitVec 32 × S)
  clearScreen : S → Option S
  malloc : BitVec 32 → S → Option (Word × S)
  openDirFile : Word → S → Option (BitVec 32 × S)
  sleep : BitVec 32 → S → Option (BitVec 32 × S)
  getTaskPID : S → Option (BitVec 32 × S)
  fork : S → Option (BitVec 32 × S)
  execvpe : Word → Word → Word → S → Option (BitVec 32 × S)
  exit : S → Option S
  kill : BitVec 32 → S → Option (BitVec 32 × S)
  readDirTarfsFile : BitVec 32 → Word → S → Option (BitVec 32 × S)
  getCurrentDirectory : Word → BitVec 32 → S → Option S
  chdir : Word → S → Option (BitVec 32 × S)
  getTaskPPID : S → Option (BitVec 32 × S)
  waitpid : BitVec 32 → S → Option (BitVec 32 × S)
  ps : S → Option S

/-- `(long)` of an `int`. -/
def long (n : BitVec 32) : Word := n.signExtend 64

section

variable {S : Type}

/-- An `int` becomes the `uint64_t` that is returned. -/
def ofInt (p : BitVec 32 × S) : Word × S := (long p.1, p.2)

/-- An `unsigned int` does. -/
def ofUnsigned (p : BitVec 32 × S) : Word × S := (p.1.setWidth 64, p.2)

def ofVoid (s : S) : Word × S := (0, s)

/-- `isr128`, in the task that has called; the way of the child out of `fork` is not here. -/
def isr128 (K : Services S) (syscode : Word) (regs : RegistersAligned) (s : S) :
    Option (Word × S) :=
  match syscode.toNat with
  | 0 =>
    if regs.rbx = 0 then (K.intRead regs.rcx s).map ofVoid
    else K.readTarfsFile (regs.rbx.setWidth 32) regs.rcx (regs.rdx.setWidth 32) s
  | 1 => if regs.rbx = 1 then (K.kprintf regs.rcx s).map ofVoid else some (0, s)
  | 2 => (K.openTarfsFile regs.rbx (regs.rcx.setWidth 32) s).map ofInt
  | 3 => (K.closeTarfsFile (regs.rbx.setWidth 32) s).map ofInt
  | 7 => (K.clearScreen s).map ofVoid
  | 9 => K.malloc (regs.rbx.setWidth 32) s
  | 16 => (K.openDirFile regs.rbx s).map ofInt
  | 35 => (K.sleep (regs.rbx.setWidth 32) s).map ofUnsigned
  | 39 => (K.getTaskPID s).map ofUnsigned
  | 57 => (K.fork s).map ofInt
  | 59 => (K.execvpe regs.rbx regs.rcx regs.rdx s).map ofInt
  | 60 => (K.exit s).map ofVoid
  | 62 => (K.kill (regs.rbx.setWidth 32) s).map ofInt
  | 78 => (K.readDirTarfsFile (regs.rbx.setWidth 32) regs.rcx s).map ofInt
  | 79 => (K.getCurrentDirectory regs.rbx (regs.rcx.setWidth 32) s).map ofVoid
  | 80 => (K.chdir regs.rbx s).map ofInt
  | 110 => (K.getTaskPPID s).map ofUnsigned
  | 247 => (K.waitpid (regs.rbx.setWidth 32) s).map ofInt
  | 299 => (K.ps s).map ofVoid
  | _ => some (0, s)

/-- The procedure that `ISR128` calls is `isr128`. -/
def Platform.Serves (H : Platform S) (K : Services S) : Prop :=
  ∀ k, (H.handler .isr128 k).map (fun k' => (k'.reg .rax, k'.world)) =
    isr128 K (k.reg .rax) (RegistersAligned.load k.mem (k.reg .rdi)) k.world

end

/-! ## The library -/

/-- The functions of the library that hold an `int $0x80`, with their arguments; addresses that
they pass of variables of their own are arguments here. -/
inductive LibCall where
  | sleep_call (seconds : BitVec 32)
  | ps_call
  | getpid_call
  | getppid_call
  | kill_call (pid : BitVec 32)
  | forkcall
  | exitcall (inp : BitVec 32)
  | writecall (c : Word)
  | execvp (file argv env : Word)
  | chdirsyscall (inp : Word)
  | currentDirSys (buf size : Word)
  | closecall (inp : BitVec 32)
  | dup2 (fd1 fd2 : BitVec 32)
  | lseek (fd : BitVec 32) (offset : Word) (p : BitVec 32)
  | open_ (path : Word) (flags : BitVec 32)
  | close (fd : BitVec 32)
  | openDirFile (path : Word)
  | direccall (fd : BitVec 32) (buff : Word) (size : BitVec 32)
  | pipe (fd : Word)
  | wait (status : Word)
  | waitpid (pid : BitVec 32) (status : Word)
  | sbrk_call (increment : BitVec 32)
  | readCall (charRet : Word)
  | readcallString (s : Word)
  | puts (s : Word) (strlen : BitVec 32)
  | fputchar (c : Word) (fd : BitVec 32)
  | readFCall (fd : BitVec 32) (charRetF : Word)
  | clearScreenSys

namespace LibCall

def number : LibCall → Word
  | sleep_call _ => 35
  | ps_call => 299
  | getpid_call => 39
  | getppid_call => 110
  | kill_call _ => 62
  | forkcall => 57
  | exitcall _ => 60
  | writecall _ => 1
  | execvp .. => 59
  | chdirsyscall _ => 80
  | currentDirSys .. => 79
  | closecall _ => 3
  | dup2 .. => 33
  | lseek .. => 8
  | open_ .. => 2
  | close _ => 3
  | openDirFile _ => 16
  | direccall .. => 78
  | pipe _ => 22
  | wait _ => 61
  | waitpid .. => 247
  | sbrk_call _ => 9
  | readCall _ => 0
  | readcallString _ => 0
  | puts .. => 1
  | fputchar .. => 1
  | readFCall .. => 0
  | clearScreenSys => 7

/-- The registers that the assembly of the wrapper fills besides `rax`. -/
def args : LibCall → List (Register × Word)
  | sleep_call seconds => [(.rbx, seconds.setWidth 64)]
  | ps_call | getpid_call | getppid_call | forkcall | clearScreenSys => []
  | kill_call pid => [(.rbx, pid.setWidth 64)]
  | exitcall inp => [(.rbx, long inp)]
  | writecall c => [(.rbx, 1), (.rcx, c), (.rdx, 1)]
  | execvp file argv env => [(.rbx, file), (.rcx, argv), (.rdx, env)]
  | chdirsyscall inp => [(.rbx, inp)]
  | currentDirSys buf size => [(.rbx, buf), (.rcx, size)]
  | closecall inp => [(.rbx, long inp)]
  | dup2 fd1 fd2 => [(.rbx, long fd1), (.rcx, long fd2)]
  | lseek fd offset p => [(.rbx, long fd), (.rcx, offset), (.rdx, long p)]
  | open_ path flags => [(.rbx, path), (.rcx, long flags)]
  | close fd => [(.rbx, long fd)]
  | openDirFile path => [(.rbx, path)]
  | direccall fd buff size => [(.rbx, long fd), (.rcx, buff), (.rdx, long size)]
  | pipe fd => [(.rbx, fd)]
  | wait status => [(.rbx, long (-1)), (.rcx, status), (.rdx, 0), (.rsi, 0)]
  | waitpid pid status => [(.rbx, pid.setWidth 64), (.rcx, status)]
  | sbrk_call increment => [(.rbx, long increment)]
  | readCall charRet => [(.rbx, 0), (.rcx, charRet), (.rdx, 1)]
  | readcallString s => [(.rbx, 0), (.rcx, s), (.rdx, 4096)]
  | puts s strlen => [(.rbx, 1), (.rcx, s), (.rdx, long strlen)]
  | fputchar c fd => [(.rbx, long fd), (.rcx, c), (.rdx, 1)]
  | readFCall fd charRetF => [(.rbx, long fd), (.rcx, charRetF), (.rdx, 1)]

end LibCall

/-! ## Through the stack -/

/-- The registers as `registersAligned` has them. -/
def RegistersAligned.ofReg (reg : Register → Word) : RegistersAligned where
  r15 := reg .r15
  r14 := reg .r14
  r13 := reg .r13
  r12 := reg .r12
  r11 := reg .r11
  r10 := reg .r10
  r9 := reg .r9
  r8 := reg .r8
  rbp := reg .rbp
  rdi := reg .rdi
  rsi := reg .rsi
  rdx := reg .rdx
  rcx := reg .rcx
  rbx := reg .rbx

/-- The fields of the structure are in the order of the pushes, the last one first. -/
theorem RegistersAligned.load_eq {mem : Word → Word} {a : Word} {reg : Register → Word}
    (held : ∀ i v, ((Stub.saved .ISR128).reverse.map reg)[i]? = some v →
      mem (a + BitVec.ofNat 64 (8 * i)) = v) : load mem a = .ofReg reg := by
  have first := held 0 _ rfl
  rw [Nat.mul_zero, BitVec.add_zero] at first
  unfold load ofReg
  rw [first, ← held 1 _ rfl, ← held 2 _ rfl, ← held 3 _ rfl, ← held 4 _ rfl, ← held 5 _ rfl,
    ← held 6 _ rfl, ← held 7 _ rfl, ← held 8 _ rfl, ← held 9 _ rfl, ← held 10 _ rfl,
    ← held 11 _ rfl, ← held 12 _ rfl, ← held 13 _ rfl]
  rfl

namespace Cpu

variable {S : Type} {H : Platform S} {K : Services S} {c c' : Cpu S} {k : Core Register S}
  {e : Event}

/-- All of the program that a system call does not change. -/
structure Continues (c c' : Cpu S) : Prop where
  reg : ∀ r ≠ .rax, c'.core.reg r = c.core.reg r
  rsp : c'.core.rsp = c.core.rsp
  rip : c'.rip = c.rip
  cs : c'.cs = c.cs
  rflags : c'.rflags = c.rflags
  ss : c'.ss = c.ss

theorem called_reg : (c.called H e .ISR128).reg .rax = c.core.reg .rax := by
  unfold called
  rw [Stub.argument_reg _ _ (by decide), Core.pushAll_reg, entered_reg]

theorem called_world : (c.called H e .ISR128).world = c.core.world := by
  unfold called
  rw [Stub.argument_world, Core.pushAll_world, entered_world]

theorem called_load {ret : Word} :
    RegistersAligned.load ((c.called H e .ISR128).push ret).mem ((c.called H e .ISR128).reg .rdi) =
      .ofReg c.core.reg := by
  have argument : (c.called H e .ISR128).reg .rdi = (c.called H e .ISR128).rsp := by
    unfold called
    rw [Stub.argument_rdi, Stub.argument_rsp]
  rw [argument]
  refine RegistersAligned.load_eq fun i v here => ?_
  have below : i < 14 := (List.getElem?_eq_some_iff.mp here).1
  rw [Core.push_mem (by omega)]
  apply called_stacked
  rw [List.getElem?_append_left (List.getElem?_eq_some_iff.mp here).1, here]

/-- From the registers of the program and its frame on the stack `ISR128` finds back to it. -/
theorem pops_continue (code : codeSegment c.cs = some c.cpl)
    (stacked : k.Stacked ((Stub.saved .ISR128).reverse.map c.core.reg ++
      c.frame (.software 128))) :
    ∃ c', iretq (k.popAll (Stub.saved .ISR128).reverse) = some c' ∧ c.Continues c' ∧
      c'.core.reg .rax = k.reg .rax ∧ c'.core.world = k.world := by
  obtain ⟨frame, values⟩ := stacked.popAll
  refine ⟨{ c with core := { k.popAll (Stub.saved .ISR128).reverse with rsp := c.core.rsp } },
    iretq_frame code frame, ⟨fun r other => ?_, rfl, rfl, rfl, rfl, rfl⟩, ?_, ?_⟩
  · exact values r (List.mem_reverse.mpr ((Stub.mem_saved_ISR128 r).mpr other))
  · change (k.popAll (Stub.saved .ISR128).reverse).reg .rax = k.reg .rax
    exact Core.popAll_reg_of_notMem (by decide)
  · change (k.popAll (Stub.saved .ISR128).reverse).world = k.world
    exact Core.popAll_world

/-- `int $0x80` is a call of `isr128` with the registers of the program. -/
theorem interrupt_int80 (distinct : Function.Injective H.address) (kept : H.KeepsStack)
    (serves : H.Serves K) (code : codeSegment c.cs = some c.cpl) :
    (c.interrupt H (.software 128)).map (fun c' => (c'.core.reg .rax, c'.core.world)) =
        isr128 K (c.core.reg .rax) (.ofReg c.core.reg) c.core.world ∧
      ∀ c', c.interrupt H (.software 128) = some c' → c.Continues c' := by
  have passed := serves ((c.called H (.software 128) .ISR128).push (H.after .isr128))
  rw [Core.push_reg, called_reg, called_load, Core.push_world, called_world] at passed
  rw [← passed]
  have level : c.cpl ≤ 3 := Nat.lt_succ_iff.mp c.cpl.isLt
  have ran := interrupt_eq (c := c) (e := .software 128) (s := .ISR128) distinct rfl fun _ => level
  cases came : (c.called H (.software 128) .ISR128).call (H.handler .isr128) (H.after .isr128) with
  | none =>
    rw [Stub.procedure, came] at ran
    rw [ran, Option.map_eq_none_iff.mp came]
    exact ⟨rfl, fun c' ran => by cases ran⟩
  | some k =>
    obtain ⟨c', back, continues, rax, world⟩ :=
      pops_continue code (returned_stacked (s := .ISR128) kept came)
    have top : (k.popAll (Stub.saved .ISR128).reverse).drop (Stub.skipped .ISR128) =
      k.popAll (Stub.saved .ISR128).reverse := Core.drop_zero
    rw [Stub.procedure, came, Option.bind_some, top, back] at ran
    obtain ⟨k', returned, rfl⟩ := Option.map_eq_some_iff.mp came
    rw [ran, returned]
    refine ⟨?_, fun c'' same => ?_⟩
    · rw [Option.map_some, Option.map_some, rax, world]
      rfl
    · cases same
      exact continues

end Cpu

namespace LibCall

variable {S : Type}

/-- What a function of the library returns. -/
inductive Value where
  | void
  | int (n : BitVec 32)
  | long (w : Word)
deriving DecidableEq

/-- The value that a wrapper makes of `retVal`. -/
def result : LibCall → Word → Value
  | ps_call, _ | exitcall _, _ => .void
  | lseek .., retVal | sbrk_call _, retVal => .long retVal
  | _, retVal => .int (retVal.setWidth 32)

/-- The registers at the trap. -/
def registers (call : LibCall) (reg : Register → Word) : Register → Word :=
  call.args.foldl (fun reg (r, v) => Function.update reg r v)
    (Function.update reg .rax call.number)

/-- The wrapper fills the registers, traps, and takes its result from `rax`. -/
def invoke (H : Platform S) (call : LibCall) (c : Cpu S) : Option (Value × Cpu S) :=
  let c := { c with core := { c.core with reg := call.registers c.core.reg } }
  (c.interrupt H (.software 128)).map fun c' => (call.result (c'.core.reg .rax), c')

/-- The function of the kernel behind a function of the library, and its result. Four of them have
none. -/
def served (K : Services S) : LibCall → S → Option (Value × S)
  | sleep_call seconds, s => (K.sleep seconds s).map fun p => (.int p.1, p.2)
  | ps_call, s => (K.ps s).map (.mk .void)
  | getpid_call, s => (K.getTaskPID s).map fun p => (.int p.1, p.2)
  | getppid_call, s => (K.getTaskPPID s).map fun p => (.int p.1, p.2)
  | kill_call pid, s => (K.kill pid s).map fun p => (.int p.1, p.2)
  | forkcall, s => (K.fork s).map fun p => (.int p.1, p.2)
  | exitcall _, s => (K.exit s).map (.mk .void)
  | writecall c, s => (K.kprintf c s).map (.mk (.int 0))
  | execvp file argv env, s => (K.execvpe file argv env s).map fun p => (.int p.1, p.2)
  | chdirsyscall inp, s => (K.chdir inp s).map fun p => (.int p.1, p.2)
  | currentDirSys buf size, s =>
    (K.getCurrentDirectory buf (size.setWidth 32) s).map (.mk (.int 0))
  | closecall fd, s | close fd, s => (K.closeTarfsFile fd s).map fun p => (.int p.1, p.2)
  | dup2 .., s | pipe _, s | wait _, s => some (.int 0, s)
  | lseek .., s => some (.long 0, s)
  | open_ path flags, s => (K.openTarfsFile path flags s).map fun p => (.int p.1, p.2)
  | openDirFile path, s => (K.openDirFile path s).map fun p => (.int p.1, p.2)
  | direccall fd buff _, s => (K.readDirTarfsFile fd buff s).map fun p => (.int p.1, p.2)
  | waitpid pid _, s => (K.waitpid pid s).map fun p => (.int p.1, p.2)
  | sbrk_call increment, s => (K.malloc increment s).map fun p => (.long p.1, p.2)
  | readCall buf, s | readcallString buf, s => (K.intRead buf s).map (.mk (.int 0))
  | puts str _, s => (K.kprintf str s).map (.mk (.int 0))
  | fputchar c fd, s =>
    if fd = 1 then (K.kprintf c s).map (.mk (.int 0)) else some (.int 0, s)
  | readFCall fd buf, s =>
    if fd = 0 then (K.intRead buf s).map (.mk (.int 0))
    else (K.readTarfsFile fd buf 1 s).map fun p => (.int (p.1.setWidth 32), p.2)
  | clearScreenSys, s => (K.clearScreen s).map (.mk (.int 0))

variable {H : Platform S} {K : Services S} {c c' : Cpu S} {call : LibCall} {n : BitVec 32}

/-! ## Conversions -/

@[simp] theorem setWidth_long : (long n).setWidth 32 = n := by
  unfold long
  apply BitVec.eq_of_getLsbD_eq
  intro i below
  simp only [BitVec.getLsbD_setWidth, BitVec.getLsbD_signExtend]
  grind

@[simp] theorem setWidth_unsigned : (n.setWidth 64).setWidth 32 = n := by
  rw [BitVec.setWidth_setWidth_of_le _ (by decide), BitVec.setWidth_eq]

/-- A small `int` is the same number as a `long`. -/
theorem long_eq_iff {m : BitVec 32} : long n = long m ↔ n = m := by
  refine ⟨fun same => ?_, fun same => congrArg long same⟩
  rw [← setWidth_long (n := n), same, setWidth_long]

@[simp] theorem long_eq_zero : long n = 0#64 ↔ n = 0#32 := long_eq_iff (m := 0)

@[simp] theorem long_eq_one : long n = 1#64 ↔ n = 1#32 := long_eq_iff (m := 1)

/-- `isr128` finds in the registers what the wrapper has put there, and the wrapper in `rax` what
the kernel has returned. -/
theorem isr128_served (reg : Register → Word) (s : S) :
    (isr128 K (call.registers reg .rax) (.ofReg (call.registers reg)) s).map
      (fun p => (call.result p.1, p.2)) = call.served K s := by
  cases call
  case fputchar c fd =>
    by_cases out : fd = 1#32 <;>
      simp [isr128, registers, args, number, RegistersAligned.ofReg, served, result, ofVoid,
        Function.comp_def, out]
  case readFCall fd buf =>
    by_cases inp : fd = 0#32 <;>
      simp [isr128, registers, args, number, RegistersAligned.ofReg, served, result, ofVoid,
        Function.comp_def, inp]
  all_goals
    simp [isr128, registers, args, number, RegistersAligned.ofReg, served, result, ofInt,
      ofUnsigned, ofVoid, Function.comp_def]

theorem registers_of_notMem {reg : Register → Word} {r : Register} (rax : r ≠ .rax)
    (other : ∀ a ∈ call.args, a.1 ≠ r) : call.registers reg r = reg r := by
  have kept (args : List (Register × Word)) (reg : Register → Word)
      (other : ∀ a ∈ args, a.1 ≠ r) :
      args.foldl (fun reg (r, v) => Function.update reg r v) reg r = reg r := by
    induction args generalizing reg with
    | nil => rfl
    | cons a args ih =>
      rw [List.foldl_cons, ih _ fun b later => other b (.tail _ later)]
      exact Function.update_of_ne (other a (.head _)).symm _ _
  unfold registers
  rw [kept _ _ other]
  exact Function.update_of_ne rax _ _

/-- Every function of the library that traps is served by the function of the kernel that stands
for it, with the arguments and the result that it has in C, and the program goes on behind it with
only those registers changed that its assembly names. -/
theorem invoke_served (distinct : Function.Injective H.address) (kept : H.KeepsStack)
    (serves : H.Serves K) (code : codeSegment c.cs = some c.cpl) :
    (call.invoke H c).map (fun p => (p.1, p.2.core.world)) = call.served K c.core.world ∧
      ∀ v c', call.invoke H c = some (v, c') →
        (∀ r ≠ .rax, (∀ a ∈ call.args, a.1 ≠ r) → c'.core.reg r = c.core.reg r) ∧
        c'.core.rsp = c.core.rsp ∧ c'.rip = c.rip ∧ c'.cs = c.cs ∧ c'.rflags = c.rflags ∧
        c'.ss = c.ss := by
  obtain ⟨passed, continues⟩ := Cpu.interrupt_int80 (K := K)
    (c := { c with core := { c.core with reg := call.registers c.core.reg } }) distinct kept serves
    code
  constructor
  · rw [← isr128_served c.core.reg, ← passed]
    unfold invoke
    rw [Option.map_map, Option.map_map]
    rfl
  · intro v c' ran
    obtain ⟨c'', trapped, same⟩ := Option.map_eq_some_iff.mp ran
    cases same
    have goes := continues _ trapped
    refine ⟨fun r rax other => ?_, goes.rsp, goes.rip, goes.cs, goes.rflags, goes.ss⟩
    exact (goes.reg r rax).trans (registers_of_notMem rax other)

/-- A kernel that counts the calls it serves, and returns the number of them or its argument. -/
def countingServices : Services Nat where
  intRead _ s := some (s + 1)
  readTarfsFile _ _ _ s := some (0, s + 1)
  kprintf _ s := some (s + 1)
  openTarfsFile _ _ s := some (3, s + 1)
  closeTarfsFile fd s := some (fd, s + 1)
  clearScreen s := some (s + 1)
  malloc _ s := some (0x1000, s + 1)
  openDirFile _ s := some (3, s + 1)
  sleep _ s := some (0, s + 1)
  getTaskPID s := some (2, s + 1)
  fork s := some (3, s + 1)
  execvpe _ _ _ s := some (-1, s + 1)
  exit _ := none
  kill _ s := some (1, s + 1)
  readDirTarfsFile _ _ s := some (0, s + 1)
  getCurrentDirectory _ _ s := some (s + 1)
  chdir _ s := some (1, s + 1)
  getTaskPPID s := some (0, s + 1)
  waitpid pid s := some (pid, s + 1)
  ps s := some (s + 1)

/-- The platform whose `isr128` is on top of `countingServices`. -/
def countingPlatform : Platform Nat where
  tss := 0x1000
  rsp0 _ := 0xffffffff80010ff8
  address := Cpu.forgetful.address
  after _ := 0xffffffff80200030
  handler _ k := (isr128 countingServices (k.reg .rax)
    (RegistersAligned.load k.mem (k.reg .rdi)) k.world).map fun p =>
      { k with reg := Function.update k.reg .rax p.1, world := p.2 }

/-- A program that waits for its child. -/
def waitingProgram : Cpu Nat where
  core := { reg := fun _ => 5, rsp := 0x100FFFFF0000, mem := fun _ => 0, world := 7 }
  rip := 0x400000
  cs := 0x2B
  rflags := 0x202
  ss := 0x23

theorem invoke_served_of_waitingProgram :
    ((waitpid 4 0).invoke countingPlatform waitingProgram).map (fun p => (p.1, p.2.core.world)) =
      some (.int 4, 8) := by
  have kept : countingPlatform.KeepsStack := by
    intro f k k' came
    obtain ⟨p, -, rfl⟩ := Option.map_eq_some_iff.mp came
    exact ⟨rfl, fun _ _ => rfl⟩
  have serves : countingPlatform.Serves countingServices := by
    intro k
    change ((isr128 countingServices _ _ _).map _).map _ = _
    rw [Option.map_map]
    refine (Option.map_congr fun p _ => ?_).trans Option.map_id'
    change (Function.update k.reg .rax p.1 .rax, p.2) = p
    rw [Function.update_self]
  have distinct : Function.Injective countingPlatform.address := Cpu.forgetful_distinct
  exact (invoke_served distinct kept serves (by decide)).1

end LibCall

end LateOS
