import LateOS.Interrupts.Calls

/-!
# The stack of a forked task

`fork` copies the caller's kernel stack entry by entry, and gives the child the stack pointer at the
same entry. Both leave the kernel to the same program.
-/
namespace LateOS

open Lib

/-- `&kstack[i]`, of the `kstack` at an address. -/
def kstackEntry (kstack : Word) (i : Nat) : Word := kstack + BitVec.ofNat 64 (8 * i)

/-- The copy of the 512 entries, and `setStackTask`. -/
def copyStack (parent child : Word) (mem : Word → Word) : Word → Word :=
  Function.update
    (fun a =>
      let offset := a - child
      if offset.toNat < 512 * 8 ∧ 8 ∣ offset.toNat then mem (parent + offset) else mem a)
    (kstackEntry child 14) 9999

/-- The `rsp` that `fork` computes for the child. -/
def forkedRsp (parent child rspAddress : Word) : Word :=
  kstackEntry child 511 - (kstackEntry parent 511 - rspAddress)

variable {parent child : Word} {mem : Word → Word} {i j : Nat}

theorem forkedRsp_entry : forkedRsp parent child (kstackEntry parent j) = kstackEntry child j := by
  unfold forkedRsp kstackEntry
  bv_omega

theorem kstackEntry_add (i j : Nat) :
    kstackEntry parent j + BitVec.ofNat 64 (8 * i) = kstackEntry parent (j + i) := by
  unfold kstackEntry
  bv_omega

theorem copyStack_entry (inside : i < 512) (other : i ≠ 14) :
    copyStack parent child mem (kstackEntry child i) = mem (kstackEntry parent i) := by
  have offset : kstackEntry child i - child = BitVec.ofNat 64 (8 * i) := by
    unfold kstackEntry
    bv_omega
  have small : (BitVec.ofNat 64 (8 * i)).toNat = 8 * i := by
    rw [BitVec.toNat_ofNat, Nat.mod_eq_of_lt (by omega)]
  have apart : kstackEntry child i ≠ kstackEntry child 14 := by
    unfold kstackEntry
    bv_omega
  unfold copyStack
  rw [Function.update_of_ne apart]
  simp only [offset, small]
  rw [if_pos ⟨by omega, Nat.dvd_mul_right 8 i⟩]
  rfl

/-! ## The frame -/

theorem and_not_fifteen (x : Word) : x &&& (~~~15 : Word) = (x >>> 4) <<< 4 := by
  have mask : ∀ j < 64, (~~~(15 : Word)).getLsbD j = decide (4 ≤ j) := by decide
  apply BitVec.eq_of_getLsbD_eq
  intro i below
  rw [BitVec.getLsbD_and, mask i below, BitVec.getLsbD_shiftLeft, BitVec.getLsbD_ushiftRight]
  grind

/-- The processor begins at the last entry, or at the one before it where that is no multiple
of 16. -/
theorem stackTop_entry (aligned : 8 ∣ parent.toNat) :
    ∃ t, 510 ≤ t ∧ t ≤ 511 ∧ kstackEntry parent 511 &&& ~~~15 = kstackEntry parent t := by
  have eighth : 8 ∣ (kstackEntry parent 511).toNat := by
    unfold kstackEntry
    rw [BitVec.toNat_add]
    have := aligned
    simp only [BitVec.toNat_ofNat]
    omega
  have cases : kstackEntry parent 511 &&& ~~~15 = kstackEntry parent 511 ∨
      kstackEntry parent 511 &&& ~~~15 = kstackEntry parent 511 - 8 := by
    rw [and_not_fifteen]
    bv_omega
  rcases cases with same | lower
  · exact ⟨511, by decide, by decide, same⟩
  · refine ⟨510, by decide, by decide, lower.trans ?_⟩
    unfold kstackEntry
    bv_omega

namespace Cpu

variable {S : Type} {H : Platform S} {c : Cpu S} {k : Core Register S}

theorem called_rsp (user : c.cpl = 3) (aligned : 8 ∣ parent.toNat)
    (stack : H.rsp0 H.tss = kstackEntry parent 511) :
    ∃ j, 491 ≤ j ∧ j + 19 ≤ 511 ∧
      (c.called H (.software 128) .ISR128).rsp = kstackEntry parent j := by
  obtain ⟨t, low, high, top⟩ := stackTop_entry aligned
  refine ⟨t - 19, by omega, by omega, ?_⟩
  have entered := ((user_entry (H := H) user).2 (.software 128) _
    (deliver_eq_some.mpr ⟨.ISR128, rfl, fun _ => by rw [user]; decide, rfl⟩)).2.2.2.2.2.1
  unfold called
  rw [Stub.argument_rsp, Core.pushAll_eq, Core.pushWords_rsp, entered, stack, top]
  change kstackEntry parent t - BitVec.ofNat 64 (8 * 5) - BitVec.ofNat 64 (8 * 14) = _
  unfold kstackEntry
  bv_omega

/-- `fork` returns twice: when the child comes to the pops of `ISR128` on the stack that has been
copied for it, it goes on where its parent has called, with all registers of its parent but
`rax`. -/
theorem forked_continues (user : c.cpl = 3) (code : codeSegment c.cs = some c.cpl)
    (aligned : 8 ∣ parent.toNat) (stack : H.rsp0 H.tss = kstackEntry parent 511)
    (intact : ∀ i < 19, mem ((c.called H (.software 128) .ISR128).rsp + BitVec.ofNat 64 (8 * i)) =
      (c.called H (.software 128) .ISR128).cell i)
    (rsp : k.rsp = forkedRsp parent child (c.called H (.software 128) .ISR128).rsp)
    (copied : ∀ i < 19, k.cell i =
      copyStack parent child mem (k.rsp + BitVec.ofNat 64 (8 * i))) :
    ∃ c', iretq (k.popAll (Stub.saved .ISR128).reverse) = some c' ∧ c.Continues c' ∧
      c'.core.reg .rax = k.reg .rax ∧ c'.core.world = k.world := by
  obtain ⟨j, low, high, here⟩ := called_rsp user aligned stack
  rw [here, forkedRsp_entry] at rsp
  refine pops_continue code fun i v held => ?_
  have below : i < 19 := (List.getElem?_eq_some_iff.mp held).1
  rw [copied i below, rsp, kstackEntry_add, copyStack_entry (by omega) (by omega), ←
    kstackEntry_add, ← here, intact i below]
  exact called_stacked i v held

theorem forked_continues_of_userProgram :
    ∃ c', iretq (Core.popAll
        { userProgram.called forgetful (.software 128) .ISR128 with
          rsp := forkedRsp 0xffffffff80010000 0xffffffff80020000
            (userProgram.called forgetful (.software 128) .ISR128).rsp
          mem := copyStack 0xffffffff80010000 0xffffffff80020000
            (userProgram.called forgetful (.software 128) .ISR128).mem }
        (Stub.saved .ISR128).reverse) = some c' ∧ userProgram.Continues c' := by
  obtain ⟨c', back, continues, -⟩ := forked_continues (H := forgetful) (c := userProgram)
    (k := { userProgram.called forgetful (.software 128) .ISR128 with
      rsp := forkedRsp 0xffffffff80010000 0xffffffff80020000
        (userProgram.called forgetful (.software 128) .ISR128).rsp
      mem := copyStack 0xffffffff80010000 0xffffffff80020000
        (userProgram.called forgetful (.software 128) .ISR128).mem })
    (by decide) (by decide) (by decide) (by decide) (fun _ _ => rfl) rfl (fun _ _ => rfl)
  exact ⟨c', back, continues⟩

end Cpu

end LateOS
