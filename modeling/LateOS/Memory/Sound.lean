import LateOS.Memory.Paging

/-!
# What frames are used for

The invariant of physical memory: each frame is free, holds data, is one table of one task,
or is a kernel table; and a frame that is mapped twice is marked as shared in both places.
-/
namespace LateOS

open Lib

/-- What a frame holds: `table r p` is the table that path `p` leads to from the PML4 `r`,
`kernel d` a kernel table `d` levels below the kernel's PML4. -/
inductive Use where
  | free | data | table (root : Word) (path : List Nat) | kernel (depth : Nat)
  deriving DecidableEq

def Use.owner : Use → Option (Word × List Nat)
  | .table r p => some (r, p)
  | _ => none

theorem Use.owner_eq {u : Use} {r : Word} {p : List Nat} :
    u.owner = some (r, p) ↔ u = .table r p := by
  cases u <;> simp [Use.owner]

/-- Entry `i` of a table at path `p` leads to a table of the same task. -/
def Inner (p : List Nat) (i : Nat) : Prop := p.length < 3 ∧ i < 512 ∧ (p = [] → i < 511)

/-- An address under slots 0 to 510 of a PML4. -/
def UserAddress (v : Nat) : Prop := pml4Index v < 511

instance (v : Nat) : Decidable (UserAddress v) := inferInstanceAs (Decidable (_ < _))

/-- A leaf entry is open to user code, and writable unless it is marked. -/
def LeafFlags (e : Word) : Prop := e &&& 5 = 5 ∧ (e &&& 2 ≠ 0 ∨ e &&& 512 ≠ 0)

namespace Machine

/-- What entry `i` of a task's table may hold. -/
def EntryOk (use : Word → Use) (r : Word) (p : List Nat) (i : Nat) (e : Word) : Prop :=
  present e = true →
    (Inner p i → use (frame e) = .table r (p ++ [i]) ∧ e &&& 7 = 7) ∧
    (p.length = 3 → use (frame e) = .data ∧ LeafFlags e) ∧
    (p = [] → i = 511 → use (frame e) = .kernel 1)

/-- Entry `l` of `t` is a present leaf entry of a task. -/
structure Leaf (m : Machine) (use : Word → Use) (t : Word) (l : Nat) : Prop where
  table : ∃ r p, use t = .table r p ∧ p.length = 3
  index : l < 512
  here : present (m.mem t l) = true

/-- The kernel tables map `kernbase + f` to `f` already. -/
def DirectMapped (m : Machine) (f : Word) : Prop :=
  let v := kernbase + f.toNat
  let pdpe := frame (m.mem m.pdpte (pdptIndex v))
  let pte := frame (m.mem pdpe (pdIndex v))
  present (m.mem m.pml4e (pml4Index v)) = true ∧
    frame (m.mem m.pml4e (pml4Index v)) = m.pdpte ∧
    present (m.mem m.pdpte (pdptIndex v)) = true ∧ present (m.mem pdpe (pdIndex v)) = true ∧
    m.mem pte (ptIndex v) = entry f 3

structure Sound (m : Machine) (use : Word → Use) : Prop where
  nodup : m.head.Nodup
  free : ∀ f ∈ m.head, use f = .free
  aligned : ∀ f ∈ m.head, frame f = f
  direct : ∀ f ∈ m.head, m.DirectMapped f
  root : use m.pml4e = .kernel 0
  slot : present (m.mem m.pml4e 511) = true
  kernel : ∀ t d i, use t = .kernel d → d < 3 → i < 512 → present (m.mem t i) = true →
    use (frame (m.mem t i)) = .kernel (d + 1)
  guarded : ∀ t i, use t = .kernel 1 → i < 512 → m.mem t i &&& 4 = 0
  depth : ∀ t r p, use t = .table r p → p.length ≤ 3
  entries : ∀ t r p i, use t = .table r p → i < 512 → EntryOk use r p i (m.mem t i)
  shared : ∀ t l t' l', m.Leaf use t l → m.Leaf use t' l' →
    frame (m.mem t l) = frame (m.mem t' l') →
    (t = t' ∧ l = l') ∨ (Shared (m.mem t l) ∧ Shared (m.mem t' l'))

variable {m m' : Machine} {use : Word → Use} {r t n : Word} {p : List Nat} {i : Nat}

theorem write_mem (m : Machine) (t : Word) (i : Nat) (e x : Word) (j : Nat) :
    (m.write t i e).mem x j = if x = t ∧ j = i then e else m.mem x j := by
  by_cases same : x = t
  · subst same
    by_cases here : j = i
    · subst here
      simp [write]
    · simp [write, here]
  · simp [write, same]

theorem write_mem_of_ne (m : Machine) (t : Word) (i : Nat) (e : Word) {x : Word} (other : x ≠ t) :
    (m.write t i e).mem x = m.mem x := Function.update_of_ne other _ _

theorem zero_mem (m : Machine) (t x : Word) (j : Nat) :
    (m.zero t).mem x j = if x = t then 0 else m.mem x j := by
  by_cases same : x = t
  · subst same
    simp [zero]
  · simp [zero, same]

/-! ## Walks -/

theorem Sound.owned (sound : m.Sound use) :
    Owned m.tables (fun f => (use f).owner) Inner := by
  intro f r p i g serves inner leads
  rw [Use.owner_eq] at serves ⊢
  have ok := sound.entries f r p i serves inner.2.1
  change (if present (m.mem f i) then some (frame (m.mem f i)) else none) = some g at leads
  split at leads
  next here =>
    cases leads
    exact ((ok here).1 inner).1
  next => cases leads

theorem index_bound (v : Nat) : pml4Index v < 512 ∧ pdptIndex v < 512 ∧ pdIndex v < 512 ∧
    ptIndex v < 512 := ⟨index_lt v _, index_lt v _, index_lt v _, index_lt v _⟩

theorem innerPath_upper {v : Nat} (user : UserAddress v) : InnerPath Inner [] (upperPath v) := by
  obtain ⟨_, second, third, _⟩ := index_bound v
  have first : pml4Index v < 511 := user
  refine ⟨⟨by decide, by omega, fun _ => first⟩, ⟨by simp, second, by simp⟩,
    ⟨by simp, third, by simp⟩, trivial⟩

theorem Sound.walk_use (sound : m.Sound use) (serves : use t = .table r p) {path : List Nat}
    {g : Word} (inner : InnerPath Inner p path) (reached : m.tables.walk t path = some g) :
    use g = .table r (p ++ path) :=
  Use.owner_eq.mp (sound.owned.walk (Use.owner_eq.mpr serves) inner reached)

/-! ## Single changes -/

/-- The kernel tables on the way to a frame that the kernel maps. -/
theorem Sound.kernel_way (sound : m.Sound use) {f : Word} (direct : m.DirectMapped f) :
    let pdpe := frame (m.mem m.pdpte (pdptIndex (kernbase + f.toNat)))
    use m.pdpte = .kernel 1 ∧ use pdpe = .kernel 2 ∧
      use (frame (m.mem pdpe (pdIndex (kernbase + f.toNat)))) = .kernel 3 := by
  obtain ⟨one, two, three, four, _⟩ := direct
  have bound := index_bound (kernbase + f.toNat)
  have first := sound.kernel _ 0 _ sound.root (by decide) bound.1 one
  rw [two] at first
  have second := sound.kernel _ 1 _ first (by decide) bound.2.1 three
  exact ⟨first, second, sound.kernel _ 2 _ second (by decide) bound.2.2.1 four⟩

/-- The kernel tables that map a frame are not disturbed by a change of a task's table. -/
private theorem Sound.direct_of (sound : m.Sound use) (m' : Machine) (pml4e : m'.pml4e = m.pml4e)
    (pdpte : m'.pdpte = m.pdpte)
    (kept : ∀ x d, use x = .kernel d → m'.mem x = m.mem x) {f : Word} (direct : m.DirectMapped f) :
    m'.DirectMapped f := by
  -- The four kernel tables on the way to `f` are the ones that `kept` speaks of.
  obtain ⟨first, second, third⟩ := sound.kernel_way direct
  obtain ⟨one, two, three, four, five⟩ := direct
  unfold DirectMapped
  dsimp only
  rw [pml4e, pdpte, kept _ _ sound.root, kept _ _ first, kept _ _ second, kept _ _ third]
  exact ⟨one, two, three, four, five⟩

/-- Data frames and free frames may hold anything. -/
theorem Sound.congr (sound : m.Sound use) (head : m'.head <:+ m.head) (pml4e : m'.pml4e = m.pml4e)
    (pdpte : m'.pdpte = m.pdpte)
    (kept : ∀ x, use x ≠ .data → use x ≠ .free → m'.mem x = m.mem x) : m'.Sound use := by
  have table {t r p} (serves : use t = .table r p) : m'.mem t = m.mem t :=
    kept t (by simp [serves]) (by simp [serves])
  have kernel {t d} (serves : use t = .kernel d) : m'.mem t = m.mem t :=
    kept t (by simp [serves]) (by simp [serves])
  have top := kernel sound.root
  have leaf {t l} (here : m'.Leaf use t l) : m.Leaf use t l := by
    obtain ⟨⟨r, p, serves, deep⟩, index, here⟩ := here
    rw [table serves] at here
    exact ⟨⟨r, p, serves, deep⟩, index, here⟩
  refine ⟨?_, ?_, ?_, ?_, ?_, ?_, ?_, ?_, sound.depth, ?_, ?_⟩
  · exact sound.nodup.sublist head.sublist
  · exact fun f member => sound.free f (head.mem member)
  · exact fun f member => sound.aligned f (head.mem member)
  · intro f member
    exact sound.direct_of m' pml4e pdpte (fun _ _ serves => kernel serves)
      (sound.direct f (head.mem member))
  · rw [pml4e]
    exact sound.root
  · rw [pml4e, top]
    exact sound.slot
  · intro t d i serves shallow bound
    rw [kernel serves]
    exact sound.kernel t d i serves shallow bound
  · intro t i serves
    rw [kernel serves]
    exact sound.guarded t i serves
  · intro t r p i serves bound
    rw [table serves]
    exact sound.entries t r p i serves bound
  · intro t l t' l' here there
    have at1 := leaf here
    have at2 := leaf there
    obtain ⟨⟨r, p, serves, _⟩, _, _⟩ := at1
    obtain ⟨⟨r', p', serves', _⟩, _, _⟩ := at2
    rw [table serves, table serves']
    exact sound.shared t l t' l' (leaf here) (leaf there)

/-- A write to a table of a task. -/
theorem Sound.write (sound : m.Sound use) (serves : use t = .table r p) {e : Word}
    (ok : EntryOk use r p i e)
    (alone : p.length = 3 → present e = true → ∀ t' l, m.Leaf use t' l → (t' ≠ t ∨ l ≠ i) →
      frame (m.mem t' l) = frame e → Shared (m.mem t' l) ∧ Shared e) :
    (m.write t i e).Sound use := by
  have kernel {x d} (other : use x = .kernel d) : (m.write t i e).mem x = m.mem x := by
    refine write_mem_of_ne m t i e ?_
    rintro rfl
    rw [other] at serves
    cases serves
  have leaf {x l} (here : (m.write t i e).Leaf use x l) (other : x ≠ t ∨ l ≠ i) :
      m.Leaf use x l ∧ (m.write t i e).mem x l = m.mem x l := by
    have same : (m.write t i e).mem x l = m.mem x l := by
      rw [write_mem, if_neg]
      rintro ⟨h1, h2⟩
      exact other.elim (fun h => h h1) (fun h => h h2)
    exact ⟨⟨here.table, here.index, same ▸ here.here⟩, same⟩
  refine ⟨sound.nodup, sound.free, sound.aligned, ?_, sound.root, ?_, ?_, ?_, sound.depth, ?_, ?_⟩
  · intro f member
    refine Sound.direct_of sound (m.write t i e) rfl rfl ?_ (sound.direct f member)
    exact fun x d other => kernel other
  · change present ((m.write t i e).mem m.pml4e 511) = true
    rw [kernel sound.root]
    exact sound.slot
  · intro x d j other shallow bound
    rw [kernel other]
    exact sound.kernel x d j other shallow bound
  · intro x j other
    rw [kernel other]
    exact sound.guarded x j other
  · intro x r' p' j other bound
    rw [write_mem]
    split
    next here =>
      obtain ⟨rfl, rfl⟩ := here
      rw [serves] at other
      cases other
      exact ok
    next => exact sound.entries x r' p' j other bound
  · intro x l x' l' here there same
    -- The entry that was written may be the one, the other, or none of the two.
    by_cases atX : x = t ∧ l = i
    · obtain ⟨rfl, rfl⟩ := atX
      by_cases atX' : x' = x ∧ l' = l
      · exact Or.inl ⟨atX'.1.symm, atX'.2.symm⟩
      · right
        have other : x' ≠ x ∨ l' ≠ l := by
          by_cases first : x' = x
          · exact Or.inr fun second => atX' ⟨first, second⟩
          · exact Or.inl first
        obtain ⟨there, same'⟩ := leaf there other
        have new : (m.write x l e).mem x l = e := by rw [write_mem, if_pos ⟨rfl, rfl⟩]
        obtain ⟨⟨r', p', serves', deep⟩, _, here⟩ := here
        rw [serves] at serves'
        cases serves'
        rw [new] at here same ⊢
        rw [same'] at same ⊢
        exact (alone deep here x' l' there other same.symm).symm
    · have other : x ≠ t ∨ l ≠ i := by
        by_cases first : x = t
        · exact Or.inr fun second => atX ⟨first, second⟩
        · exact Or.inl first
      obtain ⟨old, sameX⟩ := leaf here other
      by_cases atX' : x' = t ∧ l' = i
      · obtain ⟨rfl, rfl⟩ := atX'
        right
        have new : (m.write x' l' e).mem x' l' = e := by rw [write_mem, if_pos ⟨rfl, rfl⟩]
        obtain ⟨⟨r', p', serves', deep⟩, _, there⟩ := there
        rw [serves] at serves'
        cases serves'
        rw [new] at there same ⊢
        rw [sameX] at same ⊢
        exact alone deep there x l old other same
      · have other' : x' ≠ t ∨ l' ≠ i := by
          by_cases first : x' = t
          · exact Or.inr fun second => atX' ⟨first, second⟩
          · exact Or.inl first
        obtain ⟨there, sameX'⟩ := leaf there other'
        rw [sameX, sameX'] at same ⊢
        exact sound.shared x l x' l' old there same

/-- Clearing an entry is always in order. -/
theorem Sound.clear (sound : m.Sound use) (serves : use t = .table r p) :
    (m.write t i 0).Sound use := by
  refine sound.write serves (fun here => ?_) fun _ here => ?_
  · simp at here
  · simp at here

/-- No entry of a task leads to a frame that is free. -/
theorem Sound.target_used (sound : m.Sound use) {u : Word} (serves : use u = .table r p)
    (bound : i < 512) (here : present (m.mem u i) = true) : use (frame (m.mem u i)) ≠ .free := by
  obtain ⟨inner, deep, kernel⟩ := sound.entries u r p i serves bound here
  by_cases leaf : p.length = 3
  · rw [(deep leaf).1]
    simp
  · have shallow : p.length < 3 := Nat.lt_of_le_of_ne (sound.depth u r p serves) leaf
    -- The kernel's slot leads to a kernel table, every other entry to a table of the task.
    by_cases top : p = [] ∧ i = 511
    · rw [kernel top.1 top.2]
      simp
    · rw [(inner ⟨shallow, bound, fun empty => by
        have other : i ≠ 511 := fun last => top ⟨empty, last⟩
        omega⟩).1]
      simp

/-- A frame that is taken from the free list can be put to use. -/
theorem Sound.claim (sound : m.Sound use) (spare : use n = .free) (out : n ∉ m.head) {u : Use}
    (fits : u = .data ∨ (∃ r p, u = .table r p ∧ p.length ≤ 3) ∧ ∀ j, m.mem n j = 0) :
    m.Sound (Function.update use n u) := by
  have away {x : Word} (other : use x ≠ .free) : Function.update use n u x = use x := by
    refine Function.update_of_ne ?_ _ _
    rintro rfl
    exact other spare
  have old {x r p} (serves : Function.update use n u x = .table r p) :
      use x = .table r p ∨ (x = n ∧ u = .table r p) := by
    by_cases here : x = n
    · subst here
      rw [Function.update_self] at serves
      exact Or.inr ⟨rfl, serves⟩
    · rw [Function.update_of_ne here] at serves
      exact Or.inl serves
  -- A new table is empty, so its entries promise nothing yet.
  have blank {r p} (table : u = .table r p) (j : Nat) : m.mem n j = 0 := by
    rcases fits with data | ⟨_, zero⟩
    · rw [data] at table
      cases table
    · exact zero j
  have leaf {x l} (here : m.Leaf (Function.update use n u) x l) : m.Leaf use x l := by
    obtain ⟨⟨r, p, serves, deep⟩, index, here⟩ := here
    rcases old serves with serves | ⟨rfl, table⟩
    · exact ⟨⟨r, p, serves, deep⟩, index, here⟩
    · simp [blank table] at here
  have kernel {x d} (serves : Function.update use n u x = .kernel d) : use x = .kernel d := by
    by_cases same : x = n
    · subst same
      rw [Function.update_self] at serves
      rcases fits with data | ⟨⟨r, p, table, _⟩, _⟩
      · rw [data] at serves
        cases serves
      · rw [table] at serves
        cases serves
    · rwa [Function.update_of_ne same] at serves
  refine ⟨sound.nodup, ?_, sound.aligned, sound.direct, ?_, sound.slot, ?_, ?_, ?_, ?_, ?_⟩
  · intro f member
    rw [Function.update_of_ne (by rintro rfl; exact out member)]
    exact sound.free f member
  · rw [away (by simp [sound.root])]
    exact sound.root
  · intro x d i serves shallow bound here
    have leads := sound.kernel x d i (kernel serves) shallow bound here
    rw [away (by simp [leads])]
    exact leads
  · intro x i serves
    exact sound.guarded x i (kernel serves)
  · intro x r p serves
    rcases old serves with serves | ⟨_, table⟩
    · exact sound.depth x r p serves
    · rcases fits with data | ⟨⟨r', p', table', short⟩, _⟩
      · rw [data] at table
        cases table
      · rw [table'] at table
        cases table
        exact short
  · intro x r p i serves bound here
    rcases old serves with serves | ⟨rfl, table⟩
    · rw [away (sound.target_used serves bound here)]
      exact sound.entries x r p i serves bound here
    · simp [blank table] at here
  · intro x l x' l' here there
    exact sound.shared x l x' l' (leaf here) (leaf there)

end Machine

end LateOS
