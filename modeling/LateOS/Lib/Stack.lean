import Mathlib.Algebra.GroupWithZero.Nat
import Mathlib.Logic.Function.Basic

/-!
# Words saved on a stack

A processor with registers and a stack in memory that grows down. What a piece of code pushes
before a call it finds behind the call, in reverse order.
-/
namespace LateOS.Lib

/-- Memory is in cells of eight bytes, by the address of their first one. `world` is what else
procedures work on. -/
structure Core (R S : Type) where
  reg : R → BitVec 64
  rsp : BitVec 64
  mem : BitVec 64 → BitVec 64
  world : S

namespace Core

variable {R S : Type} (c : Core R S)

/-- The word `i` cells above the top of the stack. -/
def cell (i : Nat) : BitVec 64 := c.mem (c.rsp + BitVec.ofNat 64 (8 * i))

def push (v : BitVec 64) : Core R S :=
  { c with rsp := c.rsp - 8, mem := Function.update c.mem (c.rsp - 8) v }

def drop (n : Nat) : Core R S := { c with rsp := c.rsp + BitVec.ofNat 64 (8 * n) }

/-- The first words of the stack are `vs`. -/
def Stacked (vs : List (BitVec 64)) : Prop := ∀ i v, vs[i]? = some v → c.cell i = v

/-- What a procedure owes to its caller: the stack pointer, and `n` cells of the stack. -/
structure Keeps (n : Nat) (c c' : Core R S) : Prop where
  rsp : c'.rsp = c.rsp
  cell : ∀ i < n, c'.cell i = c.cell i

def pushWords (vs : List (BitVec 64)) : Core R S := vs.foldl push c

variable [DecidableEq R]

def pop (r : R) : Core R S :=
  { c with reg := Function.update c.reg r (c.cell 0), rsp := c.rsp + 8 }

def pushAll (rs : List R) : Core R S := rs.foldl (fun c r => c.push (c.reg r)) c

def popAll (rs : List R) : Core R S := rs.foldl (fun c r => c.pop r) c

/-- A call: the procedure finds the return address on the stack, and takes it away. -/
def call (h : Core R S → Option (Core R S)) (ret : BitVec 64) : Option (Core R S) :=
  (h (c.push ret)).map (drop · 1)

variable {c} {c' : Core R S} {vs ws : List (BitVec 64)} {v : BitVec 64} {r : R} {rs : List R}
  {f : R → BitVec 64} {m n i : Nat}

/-! ## Cells -/

omit [DecidableEq R]

@[simp] theorem push_reg : (c.push v).reg = c.reg := rfl

@[simp] theorem push_world : (c.push v).world = c.world := rfl

@[simp] theorem push_rsp : (c.push v).rsp = c.rsp - 8 := rfl

@[simp] theorem drop_reg : (c.drop n).reg = c.reg := rfl

@[simp] theorem drop_cell : (c.drop n).cell i = c.cell (n + i) := by
  unfold cell drop
  rw [BitVec.add_assoc, ← BitVec.ofNat_add, ← Nat.mul_add]

theorem drop_zero : c.drop 0 = c := by
  unfold drop
  rw [Nat.mul_zero, BitVec.add_zero]

@[simp] theorem push_cell_zero : (c.push v).cell 0 = v := by
  unfold cell push
  simp

/-- A push writes below the cells that are there, as long as the stack does not run into
itself. -/
theorem push_mem (room : 8 * (i + 1) < 2 ^ 64) :
    (c.push v).mem (c.rsp + BitVec.ofNat 64 (8 * i)) = c.cell i := by
  have apart : c.rsp + BitVec.ofNat 64 (8 * i) ≠ c.rsp - 8 := by
    bv_omega
  exact Function.update_of_ne apart _ _

theorem push_cell_succ (room : 8 * (i + 1) < 2 ^ 64) : (c.push v).cell (i + 1) = c.cell i := by
  have moved : c.rsp - 8 + BitVec.ofNat 64 (8 * (i + 1)) = c.rsp + BitVec.ofNat 64 (8 * i) := by
    bv_omega
  exact (congrArg (c.push v).mem moved).trans (push_mem room)

theorem Stacked.nil : c.Stacked [] := fun _ _ here => by cases here

theorem Stacked.head (stacked : c.Stacked (v :: vs)) : c.cell 0 = v := stacked 0 v rfl

theorem Stacked.drop (stacked : c.Stacked (ws ++ vs)) (length : ws.length = n) :
    (c.drop n).Stacked vs := by
  intro i v here
  rw [drop_cell, ← length]
  apply stacked
  rw [List.getElem?_append_right (Nat.le_add_right _ _), Nat.add_sub_cancel_left, here]

theorem Stacked.push (stacked : c.Stacked vs) (room : 8 * vs.length < 2 ^ 64) :
    (c.push v).Stacked (v :: vs) := by
  intro i w here
  cases i with
  | zero => exact push_cell_zero.trans (Option.some.inj here)
  | succ i =>
    have below := (List.getElem?_eq_some_iff.mp here).1
    rw [List.length_cons] at below
    rw [push_cell_succ (by omega)]
    exact stacked i w here

theorem Stacked.mono (stacked : c.Stacked vs) (keeps : Keeps n c c') (covered : vs.length ≤ n) :
    c'.Stacked vs := by
  intro i v here
  have below := (List.getElem?_eq_some_iff.mp here).1
  rw [keeps.cell i (by omega)]
  exact stacked i v here

theorem Keeps.refl : Keeps n c c := ⟨rfl, fun _ _ => rfl⟩

/-- A procedure that keeps what is on the stack as it is called keeps what its caller has. -/
theorem Keeps.call {h : Core R S → Option (Core R S)} {ret : BitVec 64}
    (kept : ∀ c', h (c.push ret) = some c' → Keeps (n + 1) (c.push ret) c')
    (room : 8 * n < 2 ^ 64) (ran : c.call h ret = some c') : Keeps n c c' := by
  obtain ⟨d, returned, rfl⟩ := Option.map_eq_some_iff.mp ran
  have keeps := kept d returned
  refine ⟨?_, fun i below => ?_⟩
  · change d.rsp + BitVec.ofNat 64 (8 * 1) = c.rsp
    rw [keeps.rsp, push_rsp]
    exact BitVec.sub_add_cancel c.rsp 8
  · rw [drop_cell, Nat.add_comm, keeps.cell _ (by omega), push_cell_succ (by omega)]

/-! ## Pushing and popping -/

theorem pushWords_cons : c.pushWords (v :: vs) = (c.push v).pushWords vs := rfl

theorem pushWords_reg : (c.pushWords vs).reg = c.reg := by
  induction vs generalizing c with
  | nil => rfl
  | cons v vs ih => exact ih

theorem pushWords_world : (c.pushWords vs).world = c.world := by
  induction vs generalizing c with
  | nil => rfl
  | cons v vs ih => exact ih

theorem pushWords_rsp : (c.pushWords vs).rsp = c.rsp - BitVec.ofNat 64 (8 * vs.length) := by
  induction vs generalizing c with
  | nil => simp [pushWords]
  | cons v vs ih =>
    rw [pushWords_cons, ih, push_rsp, List.length_cons, Nat.mul_add, BitVec.ofNat_add]
    exact (BitVec.sub_sub c.rsp 8 _).trans (congrArg (c.rsp - ·) (BitVec.add_comm _ _))

theorem pushWords_mem {a : BitVec 64}
    (outside : ∀ i < vs.length, a ≠ c.rsp - BitVec.ofNat 64 (8 * (i + 1))) :
    (c.pushWords vs).mem a = c.mem a := by
  induction vs generalizing c with
  | nil => rfl
  | cons v vs ih =>
    rw [pushWords_cons, ih]
    · exact Function.update_of_ne (outside 0 (Nat.zero_lt_succ _)) _ _
    · intro i below
      have next := outside (i + 1) (Nat.succ_lt_succ below)
      rw [push_rsp]
      bv_omega

/-- Pushing changes no register, so that the values are those before the first push. -/
theorem pushAll_eq : c.pushAll rs = c.pushWords (rs.map c.reg) := by
  induction rs generalizing c with
  | nil => rfl
  | cons r rs ih => exact ih

theorem pushAll_reg : (c.pushAll rs).reg = c.reg := by
  rw [pushAll_eq, pushWords_reg]

theorem pushAll_world : (c.pushAll rs).world = c.world := by
  rw [pushAll_eq, pushWords_world]

theorem Stacked.pushWords (stacked : c.Stacked ws) (vs : List (BitVec 64))
    (room : 8 * (ws.length + vs.length) < 2 ^ 64) :
    (c.pushWords vs).Stacked (vs.reverse ++ ws) := by
  induction vs generalizing c ws with
  | nil => exact stacked
  | cons v vs ih =>
    rw [List.length_cons] at room
    have next := ih (stacked.push (v := v) (by omega)) (by rw [List.length_cons]; omega)
    rw [List.reverse_cons, List.append_assoc]
    exact next

variable [DecidableEq R]

@[simp] theorem popAll_cons : c.popAll (r :: rs) = (c.pop r).popAll rs := rfl

theorem Stacked.pop (stacked : c.Stacked (v :: vs)) : (c.pop r).Stacked vs := by
  have first : c.Stacked ([v] ++ vs) := stacked
  exact first.drop (n := 1) rfl

@[simp] theorem popAll_world : (c.popAll rs).world = c.world := by
  induction rs generalizing c with
  | nil => rfl
  | cons r rs ih => exact ih

theorem popAll_reg_of_notMem (other : r ∉ rs) : (c.popAll rs).reg r = c.reg r := by
  induction rs generalizing c with
  | nil => rfl
  | cons s rs ih =>
    rw [List.mem_cons, not_or] at other
    rw [popAll_cons, ih other.2]
    exact Function.update_of_ne other.1 _ _

/-- Where the stack has the values `f` of the registers, they get them. -/
theorem Stacked.popAll (stacked : c.Stacked (rs.map f ++ vs)) :
    (c.popAll rs).Stacked vs ∧ ∀ r ∈ rs, (c.popAll rs).reg r = f r := by
  induction rs generalizing c with
  | nil => exact ⟨stacked, fun _ member => by cases member⟩
  | cons s rs ih =>
    rw [List.map_cons, List.cons_append] at stacked
    obtain ⟨rest, values⟩ := ih (stacked.pop (r := s))
    refine ⟨rest, fun r member => ?_⟩
    by_cases later : r ∈ rs
    · exact values r later
    · obtain rfl := (List.mem_cons.mp member).resolve_right later
      rw [popAll_cons, popAll_reg_of_notMem later]
      exact (Function.update_self r _ _).trans stacked.head

end Core

end LateOS.Lib
