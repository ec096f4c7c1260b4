import LateOS.Memory.Sound

/-!
# Trees of page tables

Page tables of which nothing is known but that no table in them is shared and that the frames on
the free list are not in them. What the leaf entries map, their flags and those of the upper
entries are left open.
-/
namespace LateOS

open Lib

namespace Machine

variable {m m' : Machine} {own own' : Word → Option (Word × List Nat)}
  {use : Word → Use} {r r' rc t n f g x e : Word} {p q path : List Nat} {i l v : Nat}

theorem target_some (here : present e = true) : m.tables.target e = some (frame e) := by
  simp [tables, here]

theorem target_isSome {g : Word} (leads : m.tables.target e = some g) :
    present e = true ∧ g = frame e := by
  simp only [tables] at leads
  split at leads
  next here => exact ⟨here, (Option.some.inj leads).symm⟩
  next => cases leads

/-- No table under slots 0 to 510 of the PML4 `r` is reached on two ways. -/
def TreeShaped (m : Machine) (r : Word) : Prop := Unshared m.tables Inner r

/-- `f` is a table under slots 0 to 510 of the PML4 `r`, or this PML4. -/
def InTree (m : Machine) (r f : Word) : Prop := Reaches m.tables Inner r f

/-- `getFreeFrame` yields different frames that are not in the tree. -/
structure Spare (m : Machine) (r : Word) : Prop where
  nodup : m.head.Nodup
  aligned : ∀ f ∈ m.head, frame f = f
  apart : ∀ f ∈ m.head, ¬m.InTree r f

/-- `own` labels tables with the PML4 and the path that they serve. -/
structure Tree (m : Machine) (own : Word → Option (Word × List Nat)) : Prop where
  owned : Owned m.tables own Inner
  nodup : m.head.Nodup
  aligned : ∀ f ∈ m.head, frame f = f
  free : ∀ f ∈ m.head, own f = none

theorem TreeShaped.tree (shaped : m.TreeShaped r) (spare : m.Spare r) :
    m.Tree (label m.tables Inner r) :=
  ⟨shaped.owned, spare.nodup, spare.aligned, fun f member => label_none.mpr (spare.apart f member)⟩

theorem TreeShaped.root (shaped : m.TreeShaped r) : label m.tables Inner r r = some (r, []) :=
  shaped.label_some.mpr ⟨trivial, rfl⟩

namespace Tree

variable (tree : m.Tree own)

include tree

theorem shaped (root : own r = some (r, [])) : m.TreeShaped r := tree.owned.unshared root

theorem spare (root : own r = some (r, [])) : m.Spare r := by
  refine ⟨tree.nodup, tree.aligned, fun f member => ?_⟩
  rintro ⟨path, inside, reached⟩
  have owns := tree.owned.walk root inside reached
  rw [tree.free f member] at owns
  cases owns

theorem child (serves : own t = some (r, p)) (inner : Inner p i)
    (here : present (m.mem t i) = true) : own (frame (m.mem t i)) = some (r, p ++ [i]) :=
  tree.owned t r p i _ serves inner (target_some here)

/-- A lookup stays the same when the entries on its way do. -/
theorem lookup_congr (serves : own t = some (r, p)) (inner : InnerPath Inner p path)
    (kept : ∀ h q j rest, path ++ [l] = q ++ j :: rest → own h = some (r, p ++ q) →
      m'.mem h j = m.mem h j) :
    m'.tables.lookup t path l = m.tables.lookup t path l := by
  have same : m'.tables.target = m.tables.target := rfl
  exact tree.owned.lookup_congr same serves inner kept

theorem walk_congr (serves : own t = some (r, p)) (inner : InnerPath Inner p path)
    (kept : ∀ h q j rest, path = q ++ j :: rest → own h = some (r, p ++ q) →
      m'.mem h j = m.mem h j) :
    m'.tables.walk t path = m.tables.walk t path := by
  have same : m'.tables.target = m.tables.target := rfl
  exact tree.owned.walk_congr same serves inner kept

/-- Entries that lead to no table of the tree may change. -/
theorem congr (head : m'.head <:+ m.head)
    (kept : ∀ t r p i, own t = some (r, p) → Inner p i → m'.mem t i = m.mem t i) :
    m'.Tree own := by
  refine ⟨fun t r p i g serves inner leads => ?_, tree.nodup.sublist head.sublist,
    fun f member => tree.aligned f (head.mem member), fun f member => tree.free f (head.mem member)⟩
  refine tree.owned t r p i g serves inner ?_
  rw [← leads]
  change m.tables.target (m.mem t i) = m.tables.target (m'.mem t i)
  rw [kept t r p i serves inner]

theorem write (serves : own t = some (r, p)) (outer : ¬Inner p i) (e : Word) :
    (m.write t i e).Tree own := by
  refine tree.congr (List.suffix_refl _) fun h r' q j owns inner => ?_
  rw [write_mem, if_neg]
  rintro ⟨rfl, rfl⟩
  rw [serves] at owns
  cases owns
  exact outer inner

/-- A lookup that does not come by the entry is not changed by such a write. -/
theorem lookup_write {s : Word} {e : Word} (serves : own t = some (r, p))
    (start : own s = some (r', q)) (inside : InnerPath Inner q path)
    (away : ¬(r' = r ∧ p ++ [i] <+: q ++ path ++ [l])) :
    (m.write t i e).tables.lookup s path l = m.tables.lookup s path l := by
  refine tree.lookup_congr start inside fun h q' j rest split owns => ?_
  rw [write_mem, if_neg]
  rintro ⟨rfl, rfl⟩
  rw [serves] at owns
  cases owns
  refine away ⟨rfl, rest, ?_⟩
  simp [split]

end Tree

theorem not_inner_slot : ¬Inner [] 511 := fun inner => absurd (inner.2.2 rfl) (by decide)

theorem not_inner_leaf (deep : p.length = 3) : ¬Inner p i := fun inner => by
  have := inner.1
  omega

/-! ## Frames from the free list -/

/-- `n` has been taken from the free list. -/
structure Picked (m : Machine) (own : Word → Option (Word × List Nat)) (n : Word) (m' : Machine) :
    Prop where
  tree : m'.Tree own
  spare : own n = none
  out : n ∉ m'.head
  aligned : frame n = n
  head : m.head = n :: m'.head
  mem : m'.mem = m.mem
  pml4e : m'.pml4e = m.pml4e
  pdpte : m'.pdpte = m.pdpte

theorem Tree.getFreeFrame (tree : m.Tree own) (ran : m.getFreeFrame = some (n, m')) :
    Picked m own n m' := by
  unfold Machine.getFreeFrame at ran
  cases list : m.head with
  | nil =>
    rw [list] at ran
    cases ran
  | cons first rest =>
    rw [list] at ran
    cases ran
    have nodup := tree.nodup
    rw [list, List.nodup_cons] at nodup
    have member : n ∈ m.head := by simp [list]
    have later {f : Word} (inside : f ∈ rest) : f ∈ m.head := by simp [list, inside]
    exact ⟨⟨tree.owned, nodup.2, fun f inside => tree.aligned f (later inside),
      fun f inside => tree.free f (later inside)⟩, tree.free n member, nodup.1,
      tree.aligned n member, list, rfl, rfl, rfl⟩

/-! ## A new table -/

/-- A frame from the free list is cleared and entered as table `p ++ [i]` in table `t`. -/
def fill (m : Machine) (t : Word) (i : Nat) (n : Word) : Machine :=
  (m.zero n).write t i (entry n 7)

@[simp] theorem target_entry_seven (m : Machine) (f : Word) :
    m.tables.target (entry f 7#64) = some (frame f) := by simp [tables]

/-- Entries 0 of a table lead nowhere. -/
theorem target_blank (blank : ∀ i, m.mem t i = 0) (i : Nat) :
    m.tables.target (m.mem t i) = none := by
  rw [blank]
  rfl

theorem target_absent (absent : present (m.mem t i) = false) :
    m.tables.target (m.mem t i) = none := by
  simp [tables, absent]

@[simp] theorem zero_self (m : Machine) (n : Word) (i : Nat) : (m.zero n).mem n i = 0 := by
  rw [zero_mem, if_pos rfl]

/-- A cleared PML4 maps nothing. -/
@[simp] theorem translate_zero (m : Machine) (r : Word) (v : Nat) :
    (m.zero r).translate r v = none :=
  (m.zero r).tables.lookup_blank (target_blank (zero_self m r)) (upperPath v) (ptIndex v)

theorem fill_mem (m : Machine) (t n x : Word) (i j : Nat) :
    (m.fill t i n).mem x j =
      if x = t ∧ j = i then entry n 7 else if x = n then 0 else m.mem x j := by
  rw [fill, write_mem, zero_mem]

namespace Picked

variable (picked : Picked m own n m')

include picked

theorem member : n ∈ m.head := by simp [picked.head]

theorem suffix : m'.head <:+ m.head := by
  rw [picked.head]
  exact List.suffix_cons n m'.head

theorem ne (owns : own x ≠ none) : x ≠ n := by
  rintro rfl
  exact owns picked.spare

/-- The frame, once cleared, is still in no tree. -/
theorem zeroed : (m'.zero n).Tree own := by
  refine picked.tree.congr (List.suffix_refl _) fun t r p i serves _ => ?_
  rw [zero_mem, if_neg]
  exact picked.ne (by simp [serves])

theorem leads : (m'.zero n).tables.target (entry n 7) = some n := by simp [picked.aligned]

/-- The frame becomes a new table, entered at `i` in table `t`. -/
theorem fill (serves : own t = some (r, p)) :
    (m'.fill t i n).Tree (Function.update own n (some (r, p ++ [i]))) := by
  have grown := picked.zeroed.owned.grow (i := i) serves picked.spare (target_blank (zero_self m' n))
    picked.leads
  refine ⟨grown, picked.tree.nodup, picked.tree.aligned, fun f member => ?_⟩
  rw [Function.update_of_ne (by rintro rfl; exact picked.out member)]
  exact picked.tree.free f member

theorem fill_away {j : Nat} (owns : own x ≠ none) (away : ¬(x = t ∧ j = i)) :
    (m'.fill t i n).mem x j = m.mem x j := by
  rw [fill_mem, if_neg away, if_neg (picked.ne owns), picked.mem]

/-- No lookup finds anything new. -/
theorem fill_lookup (tree : m.Tree own) (serves : own t = some (r, p)) (inner : Inner p i)
    (absent : present (m.mem t i) = false) {s : Word} (start : own s = some (r', q))
    (inside : InnerPath Inner q path) (deep : q.length + path.length = 3) :
    (m'.fill t i n).tables.lookup s path l = m.tables.lookup s path l := by
  have zeroed : (m'.zero n).tables.lookup s path l = m.tables.lookup s path l := by
    apply tree.lookup_congr start inside
    intro h q' j rest _ owns
    rw [zero_mem, if_neg (picked.ne (by simp [owns])), picked.mem]
  have none : (m'.zero n).tables.target ((m'.zero n).mem t i) = none := by
    apply target_absent
    rw [zero_mem, if_neg (picked.ne (by simp [serves])), picked.mem]
    exact absent
  -- The new entry stands in an upper table, the last one looked at is a leaf entry.
  have short := inner.1
  have grown := picked.zeroed.owned.grow_lookup (l := l) serves picked.spare
    (target_blank (zero_self m' n)) picked.leads none start inside (by omega)
  exact Eq.trans grown zeroed

end Picked

/-- The source enters a table before it clears it; the order does not matter. -/
theorem write_zero (m : Machine) (apart : t ≠ n) :
    (m.write t i (entry n 7)).zero n = m.fill t i n := by
  have same : ((m.write t i (entry n 7)).zero n).mem = (m.fill t i n).mem := by
    funext x j
    rw [zero_mem, write_mem, fill_mem]
    by_cases new : x = n
    · subst new
      simp [Ne.symm apart]
    · simp [new]
  exact congrArg (fun mem => ({ m with mem := mem } : Machine)) same

theorem Tree.linkTable (tree : m.Tree own) (serves : own t = some (r, p))
    (ran : m.linkTable t i = some (n, m')) : ∃ m1, Picked m own n m1 ∧ m' = m1.fill t i n := by
  unfold Machine.linkTable at ran
  obtain ⟨⟨f, m1⟩, popped, rest⟩ := Option.bind_eq_some_iff.mp ran
  cases rest
  have picked := tree.getFreeFrame popped
  exact ⟨m1, picked, write_zero m1 (picked.ne (by simp [serves]))⟩

/-! ## Sound memories -/

theorem owner_update (use : Word → Use) (f r : Word) (q : List Nat) :
    (fun x => (Function.update use f (.table r q) x).owner) =
      Function.update (fun x => (use x).owner) f (some (r, q)) :=
  Function.comp_update Use.owner use f (.table r q)

theorem owner_used {x : Word} (owns : (use x).owner ≠ none) : ∃ r q, use x = .table r q := by
  obtain ⟨⟨r, q⟩, serves⟩ := Option.ne_none_iff_exists'.mp owns
  exact ⟨r, q, Use.owner_eq.mp serves⟩

theorem Sound.tree (sound : m.Sound use) : m.Tree fun f => (use f).owner :=
  ⟨sound.owned, sound.nodup, sound.aligned, fun f member => by rw [sound.free f member]; rfl⟩

/-- A walk stays the same when the entries on its way do. -/
theorem Sound.walk_congr (sound : m.Sound use) (serves : use t = .table r p)
    (inner : InnerPath Inner p path)
    (kept : ∀ h q j rest, path = q ++ j :: rest → use h = .table r (p ++ q) →
      m'.mem h j = m.mem h j) :
    m'.tables.walk t path = m.tables.walk t path :=
  sound.tree.walk_congr (Use.owner_eq.mpr serves) inner fun h q j rest split owns =>
    kept h q j rest split (Use.owner_eq.mp owns)

/-- So does a lookup. -/
theorem Sound.lookup_congr (sound : m.Sound use) (serves : use t = .table r p)
    (inner : InnerPath Inner p path)
    (kept : ∀ h q j rest, path ++ [l] = q ++ j :: rest → use h = .table r (p ++ q) →
      m'.mem h j = m.mem h j) :
    m'.tables.lookup t path l = m.tables.lookup t path l :=
  sound.tree.lookup_congr (Use.owner_eq.mpr serves) inner fun h q j rest split owns =>
    kept h q j rest split (Use.owner_eq.mp owns)

/-- A lookup that does not come by entry `i` of `t` is not changed by a write there. -/
theorem Sound.lookup_write (sound : m.Sound use) (serves : use t = .table r p) {e s : Word}
    (start : use s = .table r' q) (inside : InnerPath Inner q path)
    (away : ¬(r' = r ∧ p ++ [i] <+: q ++ path ++ [l])) :
    (m.write t i e).tables.lookup s path l = m.tables.lookup s path l :=
  sound.tree.lookup_write (Use.owner_eq.mpr serves) (Use.owner_eq.mpr start) inside away

end Machine

end LateOS
