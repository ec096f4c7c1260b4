import LateOS.Lib.LinkedList
import LateOS.Memory.Load

/-!
# VMA lists in memory

The list that a task's `vm` points to, as words of memory, and `copyVMA` on it. Each node comes
from `kmalloc` and stands at the start of a frame of its own.
-/
namespace LateOS

open Lib

/-- The kernel's address of a frame, and the frame that a pointer leads to. -/
def address (f : Word) : Word := BitVec.ofNat 64 kernbase + f

def deref (pointer : Word) : Option Word :=
  if pointer = 0 then none else some (pointer - BitVec.ofNat 64 kernbase)

/-- The kernel's addresses reach the frame. -/
def InReach (f : Word) : Prop := f.toNat < 2 ^ 31

theorem deref_address {f : Word} (reach : InReach f) : deref (address f) = some f := by
  have far : address f ≠ 0 := by
    unfold InReach at reach
    unfold address kernbase
    bv_omega
  rw [deref, if_neg far, address, BitVec.add_comm, BitVec.add_sub_cancel]

namespace Machine

variable (m : Machine)

/-- The fields of the `vmaStruct` in a frame; word 3 is its link. -/
def vmaAt (f : Word) : VmaStruct :=
  { beginAddress := (m.mem f 0).toNat, lastAddress := (m.mem f 1).toNat,
    offset := (m.mem f 2).toNat }

def nextAt (f : Word) : Option Word := deref (m.mem f 3)

/-- The list that a pointer leads to has these nodes and ends in NULL. -/
def VmaList (vm : Word) (nodes : List Word) : Prop := Lib.Linked m.nextAt (deref vm) nodes

/-- `memcpy` of `n` words from one frame to another. -/
def copyWords (dest src : Word) (n : Nat) : Machine :=
  { m with mem := Function.update m.mem dest fun i => if i < n then m.mem src i else m.mem dest i }

end Machine

/-! ## copyVMA -/

/-- The variables of `copyVMA`, with `copyTask->vm`. -/
structure VmaCopy where
  a : Word
  p : Word
  vm : Word
  machine : Machine

/-- A round of the loop, for the node `src` that `a` points to. -/
def VmaCopy.round (s : VmaCopy) (src : Word) : Option VmaCopy := do
  let (duplicateTask, m) ← s.machine.kmalloc 32
  let m := m.copyWords duplicateTask src 4
  match deref s.p with
  | none =>
    some { a := m.mem src 3, p := address duplicateTask, vm := address duplicateTask, machine := m }
  | some last =>
    let m := m.write last 3 (address duplicateTask)
    some { a := m.mem src 3, p := address duplicateTask, vm := s.vm, machine := m }

/-- The loop, for so many rounds at most. -/
def VmaCopy.run : Nat → VmaCopy → Option VmaCopy
  | 0, _ => none
  | rounds + 1, s =>
    match deref s.a with
    | none => some s
    | some src => (s.round src).bind (run rounds)

/-- The pointer that `copyTask->vm` gets. -/
def Machine.copyVMA (m : Machine) (vm : Word) (rounds : Nat) : Option (Word × Machine) :=
  (VmaCopy.run rounds { a := vm, p := 0, vm := 0, machine := m }).map fun s => (s.vm, s.machine)

/-! ## Frames that hold a node -/

open Machine

variable {m m' : Machine} {use : Word → Use} {vm f src : Word} {nodes done todo copies : List Word}
  {s s' : VmaCopy}

theorem Machine.vmaAt_congr {x y : Word} (same : ∀ i < 3, m'.mem x i = m.mem y i) :
    m'.vmaAt x = m.vmaAt y := by
  unfold vmaAt
  rw [same 0 (by decide), same 1 (by decide), same 2 (by decide)]

theorem Machine.copyWords_mem (m : Machine) (dest src x : Word) (n i : Nat) :
    (m.copyWords dest src n).mem x i = if x = dest ∧ i < n then m.mem src i else m.mem x i := by
  by_cases same : x = dest
  · subst same
    simp [copyWords]
  · simp [copyWords, same]

/-- A frame in use for neither a table nor a page, and off the free list. -/
def Machine.Idle (m : Machine) (use : Word → Use) (f : Word) : Prop :=
  f ∉ m.head ∧ (use f = .free ∨ use f = .data)

/-! ## The loop -/

/-- So far `done` has been copied to `copies`, which came from the free list in this order. The
copies end in what is left of the parent's own list. -/
structure Copying (m : Machine) (use : Word → Use) (nodes : List Word) (s : VmaCopy)
    (done todo copies : List Word) : Prop where
  sound : s.machine.Sound use
  split : nodes = done ++ todo
  left : Lib.Linked s.machine.nextAt (deref s.a) todo
  taken : m.head = copies ++ s.machine.head
  mem : ∀ x, x ∉ copies → s.machine.mem x = m.mem x
  copied : copies.map s.machine.vmaAt = done.map m.vmaAt
  list : copies = [] ∧ deref s.p = none ∧ deref s.vm = none ∨
    ∃ front last, copies = front ++ [last] ∧ deref s.p = some last ∧
      Lib.Linked s.machine.nextAt (deref s.vm) (copies ++ todo)

theorem Machine.nextAt_congr {x : Word} (same : m'.mem x = m.mem x) : m'.nextAt x = m.nextAt x := by
  rw [nextAt, nextAt, same]

/-- The nodes of the parent are no frames of the free list, so none of them is a copy. -/
theorem Copying.node_apart (copying : Copying m use nodes s done todo copies)
    (idle : ∀ x ∈ nodes, m.Idle use x) {x : Word} (member : x ∈ nodes) :
    x ∉ copies ∧ x ∉ s.machine.head := by
  have out := (idle x member).1
  rw [copying.taken, List.mem_append, not_or] at out
  exact out

/-- In the middle of a round: `src` has been copied to `f`, which nothing leads to yet. -/
structure Doubled (m : Machine) (use : Word → Use) (nodes : List Word) (s : VmaCopy)
    (done todo copies : List Word) (src f : Word) (m' : Machine) : Prop where
  sound : m'.Sound use
  split : nodes = done ++ [src] ++ todo
  left : Lib.Linked m'.nextAt (m'.nextAt src) todo
  shared : Lib.Linked m'.nextAt (m'.nextAt f) todo
  taken : m.head = copies ++ [f] ++ m'.head
  mem : ∀ x, x ∉ copies ++ [f] → m'.mem x = m.mem x
  old : ∀ x, x ≠ f → m'.mem x = s.machine.mem x
  copied : (copies ++ [f]).map m'.vmaAt = (done ++ [src]).map m.vmaAt

theorem Copying.double (copying : Copying m use nodes s done (src :: todo) copies)
    (sound : m.Sound use) (idle : ∀ x ∈ nodes, m.Idle use x) (taken : Taken s.machine use f m') :
    Doubled m use nodes s done todo copies src f (m'.copyWords f src 4) := by
  have srcNode : src ∈ nodes := by simp [copying.split]
  have others {x : Word} (member : x ∈ nodes) : x ≠ f := by
    rintro rfl
    exact (copying.node_apart idle member).2 taken.member
  have todoOther {x : Word} (member : x ∈ todo) : x ≠ f := others (by simp [copying.split, member])
  have fresh : f ∉ copies := fun member => by
    have nodup := sound.nodup
    rw [copying.taken, List.nodup_append] at nodup
    exact nodup.2.2 f member f taken.member rfl
  have old (x : Word) (other : x ≠ f) : (m'.copyWords f src 4).mem x = s.machine.mem x := by
    funext i
    rw [copyWords_mem, if_neg fun both => other both.1, taken.mem]
  have new (i : Nat) (short : i < 4) : (m'.copyWords f src 4).mem f i = s.machine.mem src i := by
    rw [copyWords_mem, if_pos ⟨rfl, short⟩, taken.mem]
  -- The link is copied too, so both nodes lead to the rest of the parent's list.
  have list : Lib.Linked s.machine.nextAt (s.machine.nextAt src) todo := copying.left.2
  have rest : Lib.Linked (m'.copyWords f src 4).nextAt (s.machine.nextAt src) todo :=
    list.congr fun x member => nextAt_congr (old x (todoOther member))
  have link : (m'.copyWords f src 4).nextAt f = s.machine.nextAt src := by
    rw [nextAt, new 3 (by decide)]
    rfl
  refine ⟨?_, ?_, ?_, ?_, ?_, fun x out => ?_, old, ?_⟩
  · refine taken.sound.congr (List.suffix_refl _) rfl rfl fun x _ used => ?_
    exact Function.update_of_ne (taken.ne used) _ _
  · rw [copying.split, List.append_assoc]
    rfl
  · rw [nextAt_congr (old src (others srcNode))]
    exact rest
  · rw [link]
    exact rest
  · rw [copying.taken, taken.head, List.append_assoc]
    rfl
  · rw [List.mem_append, List.mem_singleton, not_or] at out
    rw [old x out.2, copying.mem x out.1]
  · have before (x : Word) (member : x ∈ copies) :
        (m'.copyWords f src 4).vmaAt x = s.machine.vmaAt x :=
      vmaAt_congr fun i _ => by
        rw [old x]
        rintro rfl
        exact fresh member
    have copy : (m'.copyWords f src 4).vmaAt f = m.vmaAt src :=
      vmaAt_congr fun i short => by
        rw [new i (Nat.lt_succ_of_lt short), copying.mem src (copying.node_apart idle srcNode).1]
    rw [List.map_append, List.map_append, List.map_congr_left before, copying.copied,
      List.map_singleton, List.map_singleton, copy]

/-- The first copy starts the child's list. -/
theorem Doubled.start (doubled : Doubled m use nodes s done todo [] src f m') (reach : InReach f) :
    Copying m use nodes
      { a := m'.mem src 3, p := address f, vm := address f, machine := m' } (done ++ [src]) todo [f] :=
  ⟨doubled.sound, doubled.split, doubled.left, doubled.taken, doubled.mem, doubled.copied,
    Or.inr ⟨[], f, rfl, deref_address reach, deref_address reach, doubled.shared⟩⟩

/-- The link that the source sets in the copy before does not change what is in the nodes. -/
theorem Machine.write_vmaAt (m : Machine) (t e x : Word) : (m.write t 3 e).vmaAt x = m.vmaAt x :=
  vmaAt_congr fun i short => by rw [write_mem, if_neg fun both => by omega]

/-- The copy before led to the parent's next node; it is made to lead to the copy of it. -/
theorem Doubled.extend {front : List Word} {last : Word}
    (doubled : Doubled m use nodes s done todo (front ++ [last]) src f m') (sound : m.Sound use)
    (idle : ∀ x ∈ nodes, m.Idle use x) (reach : InReach f)
    (list : Lib.Linked s.machine.nextAt (deref s.vm) (front ++ [last] ++ src :: todo)) :
    Copying m use nodes
      { a := (m'.write last 3 (address f)).mem src 3, p := address f, vm := s.vm,
        machine := m'.write last 3 (address f) } (done ++ [src]) todo (front ++ [last] ++ [f]) := by
  have inHead : last ∈ m.head := by simp [doubled.taken]
  have nodup := sound.nodup
  rw [doubled.taken, List.nodup_append, List.nodup_append] at nodup
  obtain ⟨⟨before, _, new⟩, _, _⟩ := nodup
  have lastOther : last ≠ f := new last (by simp) f List.mem_cons_self
  have frontOther {x : Word} (member : x ∈ front) : x ≠ last ∧ x ≠ f :=
    ⟨(List.nodup_append.mp before).2.2 x member last List.mem_cons_self,
      new x (List.mem_append_left [last] member) f List.mem_cons_self⟩
  have elsewhere {x : Word} (other : x ≠ last) :
      (m'.write last 3 (address f)).mem x = m'.mem x := write_mem_of_ne m' last 3 _ other
  have node {x : Word} (member : x ∈ src :: todo) : x ≠ last := by
    intro same
    rw [same] at member
    have inside : last ∈ nodes := by
      rw [doubled.split, List.append_assoc]
      exact List.mem_append_right done member
    exact (idle last inside).1 inHead
  have tail {p : Option Word} (linked : Lib.Linked m'.nextAt p todo) :
      Lib.Linked (m'.write last 3 (address f)).nextAt p todo :=
    linked.congr fun x member => nextAt_congr (elsewhere (node (List.mem_cons_of_mem src member)))
  refine ⟨?_, doubled.split, ?_, doubled.taken, fun x out => ?_, ?_,
    Or.inr ⟨front ++ [last], f, rfl, deref_address reach, ?_⟩⟩
  · refine doubled.sound.congr (List.suffix_refl _) rfl rfl fun x _ used => elsewhere ?_
    rintro rfl
    exact used (sound.free x inHead)
  · have same := nextAt_congr (elsewhere (node List.mem_cons_self))
    change Lib.Linked _ ((m'.write last 3 (address f)).nextAt src) todo
    rw [same]
    exact tail doubled.left
  · rw [elsewhere, doubled.mem x out]
    rintro rfl
    exact out (by simp)
  · rw [← doubled.copied]
    exact List.map_congr_left fun x _ => m'.write_vmaAt last _ x
  · have link : (m'.write last 3 (address f)).nextAt last = some f := by
      rw [nextAt, write_mem, if_pos ⟨rfl, rfl⟩]
      exact deref_address reach
    rw [List.append_assoc, List.append_assoc]
    rw [List.append_assoc] at list
    refine list.splice (fun x member => nextAt_congr ?_) ⟨link, ?_⟩
    · rw [elsewhere (frontOther member).1, doubled.old x (frontOther member).2]
    · rw [nextAt_congr (elsewhere lastOther.symm)]
      exact tail doubled.shared

theorem Copying.round (copying : Copying m use nodes s done (src :: todo) copies)
    (sound : m.Sound use) (reach : ∀ x ∈ m.head, InReach x) (idle : ∀ x ∈ nodes, m.Idle use x)
    (ran : s.round src = some s') :
    ∃ copy, Copying m use nodes s' (done ++ [src]) todo (copies ++ [copy]) := by
  obtain ⟨⟨f, m1⟩, node, ran⟩ := Option.bind_eq_some_iff.mp ran
  have taken := copying.sound.kmalloc node
  have doubled := copying.double sound idle taken
  have reached : InReach f := reach f (by simp [copying.taken, taken.head])
  refine ⟨f, ?_⟩
  dsimp only at ran
  split at ran
  next null =>
    cases ran
    rcases copying.list with ⟨rfl, _, _⟩ | ⟨_, last, _, linked, _⟩
    · exact doubled.start reached
    · rw [null] at linked
      cases linked
  next last linked =>
    cases ran
    rcases copying.list with ⟨_, null, _⟩ | ⟨front, last', rfl, linked', list⟩
    · rw [linked] at null
      cases null
    · rw [linked] at linked'
      cases linked'
      exact doubled.extend sound idle reached list

/-- The loop ends behind the last node of the parent, unless it runs out of frames before. -/
theorem Copying.run (copying : Copying m use nodes s done todo copies) (sound : m.Sound use)
    (reach : ∀ x ∈ m.head, InReach x) (idle : ∀ x ∈ nodes, m.Idle use x) {rounds : Nat}
    (enough : todo.length < rounds) :
    (s.run rounds = none ↔ s.machine.head.length < todo.length) ∧
      ∀ s', s.run rounds = some s' → ∃ copies', Copying m use nodes s' nodes [] copies' := by
  induction todo generalizing s done copies rounds with
  | nil =>
    obtain ⟨rounds, rfl⟩ := Nat.exists_eq_succ_of_ne_zero (Nat.ne_zero_of_lt enough)
    have null : deref s.a = none := copying.left
    rw [VmaCopy.run, null]
    refine ⟨by simp, fun s' same => ?_⟩
    cases same
    have all : nodes = done := by rw [copying.split, List.append_nil]
    exact ⟨copies, all ▸ copying⟩
  | cons src todo ih =>
    obtain ⟨rounds, rfl⟩ := Nat.exists_eq_succ_of_ne_zero (Nat.ne_zero_of_lt enough)
    have here : deref s.a = some src := copying.left.1
    rw [VmaCopy.run, here]
    dsimp only
    cases ran : s.round src with
    | none =>
      have empty : s.machine.head = [] := by
        cases front : s.machine.head with
        | nil => rfl
        | cons f rest =>
          rw [VmaCopy.round, copying.sound.kmalloc_eq, getFreeFrame, front] at ran
          dsimp only [Option.bind_eq_bind, Option.bind_some] at ran
          split at ran <;> cases ran
      simp [empty]
    | some s1 =>
      obtain ⟨f, next⟩ := copying.round sound reach idle ran
      obtain ⟨fails, returns⟩ := ih next (Nat.lt_of_succ_lt_succ enough)
      have fewer : s.machine.head.length = s1.machine.head.length + 1 := by
        have lengths := congrArg List.length (copying.taken.symm.trans next.taken)
        simp only [List.length_append, List.length_singleton] at lengths
        omega
      rw [Option.bind_some, fails, fewer, List.length_cons, Nat.succ_lt_succ_iff]
      exact ⟨Iff.rfl, returns⟩

/-- The child's list is a copy of the parent's with nodes of its own, and the parent's list is as
it was. -/
structure ListCopied (m : Machine) (vm : Word) (nodes : List Word) (vm' : Word) (m' : Machine)
    (nodes' : List Word) : Prop where
  child : m'.VmaList vm' nodes'
  copied : nodes'.map m'.vmaAt = nodes.map m.vmaAt
  apart : ∀ f ∈ nodes', f ∉ nodes
  parent : m'.VmaList vm nodes
  kept : ∀ f ∈ nodes, m'.mem f = m.mem f

/-- What `copyVMA` leaves behind. -/
structure Duplicate (m : Machine) (use : Word → Use) (vm : Word) (nodes : List Word) (vm' : Word)
    (m' : Machine) (nodes' : List Word) : Prop extends ListCopied m vm nodes vm' m' nodes' where
  sound : m'.Sound use
  taken : m.head = nodes' ++ m'.head
  mem : ∀ x, x ∉ nodes' → m'.mem x = m.mem x

theorem Copying.duplicate (copying : Copying m use nodes s nodes [] copies)
    (idle : ∀ x ∈ nodes, m.Idle use x) (list : m.VmaList vm nodes) :
    Duplicate m use vm nodes s.vm s.machine copies := by
  have kept (x : Word) (member : x ∈ nodes) : s.machine.mem x = m.mem x :=
    copying.mem x (copying.node_apart idle member).1
  refine ⟨⟨?_, copying.copied, fun x copy node => ?_,
    list.congr fun x member => nextAt_congr (kept x member), kept⟩, copying.sound, copying.taken,
    copying.mem⟩
  · rcases copying.list with ⟨rfl, _, null⟩ | ⟨_, _, _, _, child⟩
    · exact null
    · rw [List.append_nil] at child
      exact child
  · exact (copying.node_apart idle node).1 copy

theorem Machine.Sound.copyVMA (sound : m.Sound use) (reach : ∀ x ∈ m.head, InReach x)
    (list : m.VmaList vm nodes) (idle : ∀ x ∈ nodes, m.Idle use x) {rounds : Nat}
    (enough : nodes.length < rounds) :
    (m.copyVMA vm rounds = none ↔ m.head.length < nodes.length) ∧
      ∀ vm' m', m.copyVMA vm rounds = some (vm', m') →
        ∃ nodes', Duplicate m use vm nodes vm' m' nodes' := by
  have start : Copying m use nodes { a := vm, p := 0, vm := 0, machine := m } [] nodes [] :=
    ⟨sound, rfl, list, rfl, fun _ _ => rfl, rfl, Or.inl ⟨rfl, rfl, rfl⟩⟩
  obtain ⟨fails, returns⟩ := start.run sound reach idle enough
  refine ⟨by rw [Machine.copyVMA, Option.map_eq_none_iff, fails], fun vm' m' ran => ?_⟩
  obtain ⟨s, done, same⟩ := Option.map_eq_some_iff.mp ran
  cases same
  obtain ⟨copies, copying⟩ := returns s done
  exact ⟨copies, copying.duplicate idle list⟩

/-- `copySpace`, which knows the VMAs as a list, takes the same frames for the nodes. -/
theorem Duplicate.copySpace {vm' : Word} {nodes' : List Word} {m'' : Machine}
    (duplicate : Duplicate m use vm nodes vm' m' nodes') (sound : m.Sound use)
    (ran : loop nodes.length (fun _ m => (m.kmalloc 32).map Prod.snd) m = some m'') :
    m'.head = m''.head ∧ ∀ x, x ∉ nodes' → m'.mem x = m''.mem x := by
  have same : nodes'.length = nodes.length := by
    have lengths := congrArg List.length duplicate.copied
    simpa using lengths
  obtain ⟨_, head, mem⟩ : m''.Sound use ∧ m''.head = m.head.drop nodes.length ∧
      m''.mem = m.mem := by
    refine loop_inv (I := fun i (t : Machine) =>
      t.Sound use ∧ t.head = m.head.drop i ∧ t.mem = m.mem) ⟨sound, rfl, rfl⟩ ?_ ran
    intro i t t' _ ⟨soundT, head, mem⟩ ran
    obtain ⟨⟨f, _⟩, node, rfl⟩ := Option.map_eq_some_iff.mp ran
    have taken := soundT.kmalloc node
    refine ⟨taken.sound, ?_, taken.mem.trans mem⟩
    have rest := congrArg List.tail (taken.head.symm.trans head)
    rw [List.tail_cons, List.tail_drop] at rest
    exact rest
  rw [head, duplicate.taken, ← same, List.drop_left, mem]
  exact ⟨rfl, duplicate.mem⟩

end LateOS
