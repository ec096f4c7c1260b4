import LateOS.Memory.View

/-!
# Copying a tree of page tables

The loops of `copytables` on page tables that are trees: the child gets its own tables at every
level and shares the leaf entries, whatever they map.
-/
namespace LateOS

open Lib

namespace Machine

variable {m m' : Machine} {own own' : Word → Option (Word × List Nat)} {rp rc tp tc x : Word}
  {p path : List Nat} {i l n bound : Nat}

/-! ## One leaf entry -/

theorem lookup_leaf (m : Machine) (t : Word) (l : Nat) :
    m.tables.lookup t [] l = if present (m.mem t l) then some (m.mem t l) else none := by
  rw [Tables.lookup_nil]
  change (if present (m.mem t l) then some (frame (m.mem t l)) else none).map _ = _
  split <;> rfl

/-- The two entries that a leaf entry is shared by, apart from the count of references. -/
theorem shareEntry_mem (here : present (m.mem tp l) = true)
    (ran : m.shareEntry tp tc l = some m') : m'.head = m.head ∧ m'.pml4e = m.pml4e ∧
      m'.pdpte = m.pdpte ∧ ∀ x j, m'.mem x j =
        if (x = tp ∨ x = tc) ∧ j = l then share (m.mem tp l) else m.mem x j := by
  unfold shareEntry at ran
  rw [if_pos here] at ran
  cases ran
  refine ⟨rfl, rfl, rfl, fun x j => ?_⟩
  have value : (m.write tp l (share (m.mem tp l))).mem tp l = share (m.mem tp l) := by
    rw [write_mem, if_pos ⟨rfl, rfl⟩]
  change ((m.write tp l (share (m.mem tp l))).write tc l
    ((m.write tp l (share (m.mem tp l))).mem tp l)).mem x j = _
  rw [value, write_mem, write_mem]
  by_cases atC : x = tc ∧ j = l
  · simp [atC]
  · by_cases atP : x = tp ∧ j = l
    · simp [atP]
    · grind

/-! ## Whole levels -/

/-- Below the first `bound` entries of table `tp` of the parent and `tc` of the child, both at
path `p`, the leaf entries are those of the parent before, shared. -/
structure Cloned (m : Machine) (own : Word → Option (Word × List Nat)) (rp rc : Word)
    (p : List Nat) (tp tc : Word) (bound : Nat) (m' : Machine)
    (own' : Word → Option (Word × List Nat)) : Prop where
  tree : m'.Tree own'
  direct : m'.DirectMap own'
  kept : ∀ x, own x ≠ none → own' x = own x
  fresh : ∀ x, own x = none → own' x ≠ none → x ∈ m.head ∧ x ∉ m'.head
  head : m'.head <:+ m.head
  upper : ∀ x, x ∉ m.head → x ≠ tc →
    (∀ q, own x = some (rp, p ++ q) → (p ++ q).length ≠ 3) → m'.mem x = m.mem x
  parent : ∀ j, bound ≤ j → m'.mem tp j = m.mem tp j
  child : ∀ j, bound ≤ j → m'.mem tc j = m.mem tc j
  copied : ∀ path l i rest, InnerPath Inner p path → p.length + path.length = 3 → l < 512 →
    path ++ [l] = i :: rest → i < bound →
      m'.tables.lookup tc path l = (m.tables.lookup tp path l).map share ∧
      m'.tables.lookup tp path l = (m.tables.lookup tp path l).map share
  rest : ∀ path l i rest, InnerPath Inner p path → p.length + path.length = 3 →
    path ++ [l] = i :: rest → bound ≤ i → m'.tables.lookup tp path l = m.tables.lookup tp path l

theorem Cloned.start (tree : m.Tree own) (direct : m.DirectMap own) :
    Cloned m own rp rc p tp tc 0 m own :=
  ⟨tree, direct, fun _ _ => rfl, fun _ none some => absurd none some, List.suffix_refl _,
    fun _ _ _ _ => rfl, fun _ _ => rfl, fun _ _ => rfl,
    fun _ _ i _ _ _ _ _ below => absurd below (Nat.not_lt_zero i), fun _ _ _ _ _ _ _ _ => rfl⟩

theorem Cloned.leaf {s s' : Machine} {own1 : Word → Option (Word × List Nat)}
    (parent : own tp = some (rp, p)) (child : own tc = some (rc, p))
    (deep : p.length = 3) (blank : m.mem tc l = 0) (done : Cloned m own rp rc p tp tc l s own1)
    (ran : s.shareEntry tp tc l = some s') : Cloned m own rp rc p tp tc (l + 1) s' own1 := by
  have parent1 := (done.kept tp (by simp [parent])).trans parent
  have child1 := (done.kept tc (by simp [child])).trans child
  have oldP := done.parent l (Nat.le_refl l)
  have oldC := (done.child l (Nat.le_refl l)).trans blank
  -- A missing entry is left out of the child, whose table is empty there.
  by_cases here : present (s.mem tp l) = true
  · obtain ⟨head, pml4e, pdpte, mem⟩ := shareEntry_mem here ran
    have away {x j} (off : j ≠ l) : s'.mem x j = s.mem x j := by
      rw [mem, if_neg fun both => off both.2]
    have look {x j} (off : j ≠ l) : s'.tables.lookup x [] j = s.tables.lookup x [] j := by
      rw [lookup_leaf, lookup_leaf, away off]
    have beside {x} (notP : x ≠ tp) (notC : x ≠ tc) : s'.mem x = s.mem x := by
      funext j
      rw [mem, if_neg fun both => both.1.elim notP notC]
    have outer {x} (none : own1 x = none) : s'.mem x = s.mem x :=
      beside (fun same => by simp [same, parent1] at none) fun same => by simp [same, child1] at none
    have tree : s'.Tree own1 := by
      refine done.tree.congr (by rw [head]) fun t r q j owns inner => ?_
      rw [mem, if_neg]
      -- Both tables are leaf tables.
      rintro ⟨rfl | rfl, _⟩
      · rw [parent1] at owns
        cases owns
        exact not_inner_leaf deep inner
      · rw [child1] at owns
        cases owns
        exact not_inner_leaf deep inner
    refine ⟨tree, done.direct.congr (by rw [head]) pml4e pdpte fun x none _ => ⟨outer none, none⟩,
      done.kept, fun x none some => ?_, by rw [head]; exact done.head, ?_, ?_, ?_, ?_, ?_⟩
    · rw [head]
      exact done.fresh x none some
    · intro x out notC upper
      refine (beside ?_ notC).trans (done.upper x out notC upper)
      rintro rfl
      exact upper [] (by rw [parent, List.append_nil]) (by rw [List.append_nil, deep])
    · intro j after
      rw [away (by omega), done.parent j (by omega)]
    · intro j after
      rw [away (by omega), done.child j (by omega)]
    · intro path k i rest inside length narrow split below
      have empty : path = [] := List.length_eq_zero_iff.mp (by omega)
      subst empty
      cases split
      by_cases last : k = l
      · subst last
        have both : s'.mem tc k = share (m.mem tp k) ∧ s'.mem tp k = share (m.mem tp k) := by
          rw [mem, mem, oldP]
          simp
        rw [lookup_leaf, lookup_leaf, lookup_leaf, both.1, both.2, present_share, ← oldP, here]
        exact ⟨rfl, rfl⟩
      · rw [look last, look last]
        exact done.copied [] k k [] inside length narrow rfl (by omega)
    · intro path k i rest inside length split after
      have empty : path = [] := List.length_eq_zero_iff.mp (by omega)
      subst empty
      cases split
      rw [look (by omega)]
      exact done.rest [] k k [] inside length rfl (by omega)
  · have same : s' = s := by
      unfold Machine.shareEntry at ran
      rw [if_neg here] at ran
      cases ran
      rfl
    subst same
    refine ⟨done.tree, done.direct, done.kept, done.fresh, done.head, done.upper,
      fun j after => done.parent j (by omega), fun j after => done.child j (by omega), ?_, ?_⟩
    · intro path k i rest inside length narrow split below
      by_cases last : i = l
      · have empty : path = [] := List.length_eq_zero_iff.mp (by omega)
        subst empty
        cases split
        subst last
        rw [lookup_leaf, lookup_leaf, lookup_leaf, oldC, ← oldP]
        simp [here]
      · exact done.copied path k i rest inside length narrow split (by omega)
    · intro path k i rest inside length split after
      exact done.rest path k i rest inside length split (by omega)

/-- Entry `i` of an upper table is missing, so there is nothing to copy. -/
theorem Cloned.skip {s : Machine} {own1 : Word → Option (Word × List Nat)} (deep : p.length < 3)
    (blank : m.mem tc i = 0) (missing : present (s.mem tp i) = false)
    (done : Cloned m own rp rc p tp tc i s own1) : Cloned m own rp rc p tp tc (i + 1) s own1 := by
  refine ⟨done.tree, done.direct, done.kept, done.fresh, done.head, done.upper,
    fun j after => done.parent j (by omega), fun j after => done.child j (by omega), ?_, ?_⟩
  · intro path k j rest inside length narrow split below
    by_cases last : j = i
    · subst last
      cases path with
      | nil => simp at length; omega
      | cons first path =>
        cases split
        have dead : s.tables.target (s.tables.mem tp j) = none := by
          change s.tables.target (s.mem tp j) = none
          simp [tables, missing]
        have dead' : s.tables.target (s.tables.mem tc j) = none := by
          change s.tables.target (s.mem tc j) = none
          rw [done.child j (Nat.le_refl j), blank]
          simp [tables]
        have old := done.rest (j :: path) k j (path ++ [k]) inside length rfl (Nat.le_refl j)
        rw [Tables.lookup_cons, dead] at old
        rw [← old, Tables.lookup_cons, Tables.lookup_cons, dead, dead']
        exact ⟨rfl, rfl⟩
    · exact done.copied path k j rest inside length narrow split (by omega)
  · intro path k j rest inside length split after
    exact done.rest path k j rest inside length split (by omega)

/-- In state `s` the child gets a new table `f` for entry `i`, and in `s3` the level below has been
copied into it. -/
structure Under (rp rc : Word) (p : List Nat) (tp tc : Word) (i : Nat) (s : Machine)
    (own1 : Word → Option (Word × List Nat)) (f : Word) (s1 s3 : Machine)
    (own3 : Word → Option (Word × List Nat)) : Prop where
  tree : s.Tree own1
  parent : own1 tp = some (rp, p)
  child : own1 tc = some (rc, p)
  apart : rp ≠ rc
  inner : Inner p i
  fresh : s.mem tc i = 0
  here : present (s.mem tp i) = true
  picked : Picked s own1 f s1
  lower : Cloned (s1.fill tc i f) (Function.update own1 f (some (rc, p ++ [i]))) rp rc
    (p ++ [i]) (frame (s.mem tp i)) f 512 s3 own3

namespace Under

variable {s s1 s3 : Machine} {own1 own3 : Word → Option (Word × List Nat)} {f : Word}
  (under : Under rp rc p tp tc i s own1 f s1 s3 own3)

include under

theorem old (owns : own1 x ≠ none) :
    x ≠ f ∧ Function.update own1 f (some (rc, p ++ [i])) x = own1 x :=
  ⟨under.picked.ne owns, Function.update_of_ne (under.picked.ne owns) _ _⟩

theorem tables_ne : tp ≠ tc := by
  rintro rfl
  have parent := under.parent
  rw [under.child] at parent
  cases parent
  exact under.apart rfl

/-- What the level below leaves alone: what is not free, and no leaf table of the parent behind
entry `i`. -/
theorem kept (out : x ∉ s.head)
    (apart : ∀ q, own1 x = some (rp, p ++ [i] ++ q) → (p ++ [i] ++ q).length ≠ 3) :
    s3.mem x = (s1.fill tc i f).mem x := by
  have new : x ≠ f := by
    rintro rfl
    exact out under.picked.member
  refine under.lower.upper x (fun member => out (under.picked.suffix.mem member)) new
    fun q owns => ?_
  rw [Function.update_of_ne new] at owns
  exact apart q owns

theorem not_free (owns : own1 x ≠ none) : x ∉ s.head := fun member =>
  owns (under.tree.free x member)

/-- The level below does not write the two tables of this level. -/
theorem kept_child : s3.mem tc = (s1.fill tc i f).mem tc := by
  refine under.kept (under.not_free (by simp [under.child])) fun q owns => ?_
  rw [under.child] at owns
  injection owns with pair
  injection pair with roots
  exact absurd roots.symm under.apart

theorem kept_parent : s3.mem tp = (s1.fill tc i f).mem tp := by
  refine under.kept (under.not_free (by simp [under.parent])) fun q owns => ?_
  rw [under.parent] at owns
  injection owns with pair
  injection pair with _ path
  have length := congrArg List.length path
  simp at length

/-- Entries other than `i` lead to tables that the level below leaves alone. -/
theorem aside {r : Word} {rest : List Nat} {k j : Nat} (start : own1 x = some (r, p))
    (inside : InnerPath Inner p path) (length : p.length + path.length = 3)
    (split : path ++ [k] = j :: rest) (off : j ≠ i) :
    s3.tables.lookup x path k = s.tables.lookup x path k := by
  rw [← under.picked.fill_lookup under.tree under.child under.inner (by simp [under.fresh]) start
    inside length]
  have tree := under.picked.fill (i := i) under.child
  have same := (under.old (x := x) (by simp [start])).2
  refine tree.lookup_congr (same.trans start) inside fun h q k' rest' split' owns => ?_
  -- A table on the way serves a path that begins with `j`.
  refine congrFun (under.lower.upper h (fun member => ?_) ?_ fun q' owns' => ?_) k'
  · rw [tree.free h member] at owns
    cases owns
  · rintro rfl
    rw [Function.update_self] at owns
    injection owns with pair
    injection pair with _ path
    rw [← List.append_cancel_left path, split] at split'
    injection split' with head
    exact off head
  · rw [owns] at owns'
    injection owns' with pair
    injection pair with _ path
    rw [List.append_assoc] at path
    rw [List.append_cancel_left path, split] at split'
    injection split' with head
    exact absurd head off

/-- Behind entry `i` both tasks find what the parent's table there led to, shared. -/
theorem entry {k : Nat} (inside : InnerPath Inner p (i :: path))
    (length : p.length + (i :: path).length = 3) (narrow : k < 512) :
    s3.tables.lookup tc (i :: path) k = (s.tables.lookup tp (i :: path) k).map share ∧
      s3.tables.lookup tp (i :: path) k = (s.tables.lookup tp (i :: path) k).map share := by
  have leadsP : s.tables.target (s.mem tp i) = some (frame (s.mem tp i)) := target_some under.here
  have served := under.tree.child under.parent under.inner under.here
  have deep : (p ++ [i]).length + path.length = 3 := by
    simp at length ⊢
    omega
  have start : ∃ head tail, path ++ [k] = head :: tail ∧ head < 512 := by
    cases path with
    | nil => exact ⟨k, [], rfl, narrow⟩
    | cons head tail => exact ⟨head, tail ++ [k], rfl, inside.2.1.2.1⟩
  obtain ⟨head, tail, whole, small⟩ := start
  obtain ⟨newC, newP⟩ := under.lower.copied path k head tail inside.2 deep narrow whole small
  rw [under.picked.fill_lookup under.tree under.child under.inner (by simp [under.fresh]) served
    inside.2 deep] at newC newP
  have before : s.tables.lookup tp (i :: path) k = s.tables.lookup (frame (s.mem tp i)) path k := by
    rw [Tables.lookup_cons]
    change (s.tables.target (s.mem tp i)).bind _ = _
    rw [leadsP]
    rfl
  have leadsC : s3.tables.target (s3.mem tc i) = some f := by
    rw [under.kept_child, fill_mem, if_pos ⟨rfl, rfl⟩]
    simp [under.picked.aligned]
  have leadsP3 : s3.tables.target (s3.mem tp i) = some (frame (s.mem tp i)) := by
    rw [under.kept_parent, under.picked.fill_away (by simp [under.parent])
      fun both => under.tables_ne both.1]
    exact target_some under.here
  rw [before, Tables.lookup_cons, Tables.lookup_cons]
  change (s3.tables.target (s3.mem tc i)).bind _ = _ ∧ (s3.tables.target (s3.mem tp i)).bind _ = _
  rw [leadsC, leadsP3]
  exact ⟨newC, newP⟩

end Under

theorem Cloned.table {s s1 s3 : Machine} {own1 own3 : Word → Option (Word × List Nat)} {f : Word}
    (blank : m.mem tc i = 0) (done : Cloned m own rp rc p tp tc i s own1)
    (under : Under rp rc p tp tc i s own1 f s1 s3 own3) :
    Cloned m own rp rc p tp tc (i + 1) s3 own3 := by
  have suffix : s3.head <:+ s.head := under.lower.head.trans under.picked.suffix
  refine ⟨under.lower.tree, under.lower.direct, fun x owns => ?_, fun x before after => ?_,
    suffix.trans done.head, ?_, ?_, ?_, ?_, ?_⟩
  · have kept1 := done.kept x owns
    have same := (under.old (x := x) (by rwa [kept1])).2
    rw [under.lower.kept x (by rwa [same, kept1]), same, kept1]
  · by_cases early : own1 x = none
    · by_cases new : x = f
      · rw [new]
        exact ⟨done.head.mem under.picked.member,
          fun member => under.picked.out (under.lower.head.mem member)⟩
      · obtain ⟨member, gone⟩ :=
          under.lower.fresh x ((Function.update_of_ne new _ _).trans early) after
        exact ⟨done.head.mem (under.picked.suffix.mem member), gone⟩
    · obtain ⟨member, gone⟩ := done.fresh x before early
      exact ⟨member, fun back => gone (suffix.mem back)⟩
  · intro x out notTc upper
    have out1 : x ∉ s.head := fun member => out (done.head.mem member)
    rw [under.kept out1 fun q owns => ?_, ← done.upper x out notTc upper]
    · funext j
      rw [fill_mem, if_neg fun both => notTc both.1,
        if_neg (by rintro rfl; exact out1 under.picked.member), under.picked.mem]
    · have old : own x = own1 x := by
        by_contra new
        have unused : own x = none := by
          by_contra used
          exact new (done.kept x used).symm
        exact out (done.fresh x unused (by rw [owns]; simp)).1
      rw [List.append_assoc] at owns ⊢
      exact upper ([i] ++ q) (old.trans owns)
  · intro j after
    rw [under.kept_parent, under.picked.fill_away (by simp [under.parent])
      fun both => under.tables_ne both.1, done.parent j (by omega)]
  · intro j after
    rw [under.kept_child, under.picked.fill_away (by simp [under.child]) fun both => by omega,
      done.child j (by omega)]
  · intro path k j rest inside length narrow split before
    by_cases last : j = i
    · subst last
      cases path with
      | nil => simp at length; have := under.inner.1; omega
      | cons first path =>
        cases split
        rw [← done.rest (j :: path) k j (path ++ [k]) inside length rfl (Nat.le_refl j)]
        exact under.entry inside length narrow
    · rw [under.aside under.child inside length split last,
        under.aside under.parent inside length split last]
      exact done.copied path k j rest inside length narrow split (by omega)
  · intro path k j rest inside length split after
    rw [under.aside under.parent inside length split (by omega)]
    exact done.rest path k j rest inside length split (by omega)

theorem Picked.direct {f t : Word} {m1 : Machine} (picked : Picked m own f m1)
    (direct : m.DirectMap own) (serves : own t ≠ none) (q : Word × List Nat) :
    (m1.fill t i f).DirectMap (Function.update own f (some q)) := by
  refine direct.congr picked.suffix picked.pml4e picked.pdpte fun x none out => ?_
  have new : x ≠ f := by
    rintro rfl
    exact out picked.member
  have old : x ≠ t := by
    rintro rfl
    exact serves none
  refine ⟨?_, (Function.update_of_ne new _ _).trans none⟩
  funext j
  rw [fill_mem, if_neg fun both => old both.1, if_neg new, picked.mem]

/-- A round of the loops above the leaf tables, where the parent has a table. -/
theorem Tree.copyRound {s : Machine} (tree : s.Tree own) (direct : s.DirectMap own)
    (parent : own tp = some (rp, p)) (child : own tc = some (rc, p)) (apart : rp ≠ rc) :
    (s.getNewPage.bind fun (table, m) =>
      let m := (m.zero table).write tc i (entry table 7)
      copyLevel n 512 (frame (m.mem tp i)) table m) =
    s.getFreeFrame.bind fun (f, s1) =>
      copyLevel n 512 (frame (s.mem tp i)) f (s1.fill tc i f) := by
  rw [tree.getNewPage_eq direct]
  cases popped : s.getFreeFrame with
  | none => rfl
  | some pair =>
    obtain ⟨f, s1⟩ := pair
    have picked := tree.getFreeFrame popped
    have other : tp ≠ tc := by
      rintro rfl
      rw [parent] at child
      cases child
      exact apart rfl
    -- The new table is entered on the child's side, so the parent's entry is still the same.
    have below : (s1.fill tc i f).mem tp i = s.mem tp i :=
      picked.fill_away (by simp [parent]) fun both => other both.1
    change copyLevel n 512 (frame ((s1.fill tc i f).mem tp i)) f (s1.fill tc i f) = _
    rw [below]
    rfl

/-- Two tables at path `p`, `n` levels above the leaf tables, the first of the parent's tree and
the second of the child's and empty. -/
structure Pair (m : Machine) (own : Word → Option (Word × List Nat)) (rp rc : Word) (p : List Nat)
    (n bound : Nat) (tp tc : Word) : Prop where
  tree : m.Tree own
  direct : m.DirectMap own
  parent : own tp = some (rp, p)
  child : own tc = some (rc, p)
  apart : rp ≠ rc
  deep : p.length + n = 3
  fits : bound ≤ 512
  top : p = [] → bound ≤ 511
  blank : ∀ j, j < bound → m.mem tc j = 0

namespace Pair

variable {s s' s1 : Machine} {own1 : Word → Option (Word × List Nat)} {f : Word}

theorem inner (pair : Pair m own rp rc p (n + 1) bound tp tc) (below : i < bound) : Inner p i := by
  have deep := pair.deep
  have fits := pair.fits
  exact ⟨by omega, by omega, fun empty => by have := pair.top empty; omega⟩

theorem still (pair : Pair m own rp rc p n bound tp tc)
    (done : Cloned m own rp rc p tp tc i s own1) :
    own1 tp = some (rp, p) ∧ own1 tc = some (rc, p) :=
  ⟨(done.kept tp (by simp [pair.parent])).trans pair.parent,
    (done.kept tc (by simp [pair.child])).trans pair.child⟩

/-- The tables behind entry `i`, when the child has been given one. -/
theorem next (pair : Pair m own rp rc p (n + 1) bound tp tc)
    (done : Cloned m own rp rc p tp tc i s own1) (below : i < bound)
    (here : present (s.mem tp i) = true) (picked : Picked s own1 f s1) :
    Pair (s1.fill tc i f) (Function.update own1 f (some (rc, p ++ [i]))) rp rc (p ++ [i]) n 512
      (frame (s.mem tp i)) f := by
  obtain ⟨parent, child⟩ := pair.still done
  have inner := pair.inner below
  have served := done.tree.child parent inner here
  have deep := pair.deep
  refine ⟨picked.fill child, picked.direct done.direct (by simp [child]) _,
    (Function.update_of_ne (picked.ne (by simp [served])) _ _).trans served,
    Function.update_self .., pair.apart, ?_, Nat.le_refl _, by simp, fun j _ => ?_⟩
  · rw [List.length_append, List.length_singleton]
    omega
  · rw [fill_mem, if_neg fun both => picked.ne (by simp [child]) both.1.symm, if_pos rfl]

theorem under {own3 : Word → Option (Word × List Nat)}
    (pair : Pair m own rp rc p (n + 1) bound tp tc) (done : Cloned m own rp rc p tp tc i s own1)
    (below : i < bound) (here : present (s.mem tp i) = true) (picked : Picked s own1 f s1)
    (lower : Cloned (s1.fill tc i f) (Function.update own1 f (some (rc, p ++ [i]))) rp rc
      (p ++ [i]) (frame (s.mem tp i)) f 512 s' own3) :
    Under rp rc p tp tc i s own1 f s1 s' own3 :=
  ⟨done.tree, (pair.still done).1, (pair.still done).2, pair.apart, pair.inner below,
    (done.child i (Nat.le_refl i)).trans (pair.blank i below), here, picked, lower⟩

theorem copyLevel (pair : Pair m own rp rc p n bound tp tc)
    (ran : Machine.copyLevel n bound tp tc m = some m') :
    ∃ own', Cloned m own rp rc p tp tc bound m' own' := by
  induction n generalizing tp tc p m bound m' own with
  -- At the leaf tables the loop shares entries; above, each round copies a table.
  | zero =>
    refine loop_inv (I := fun i s => ∃ own1, Cloned m own rp rc p tp tc i s own1)
      ⟨own, .start pair.tree pair.direct⟩ ?_ ran
    intro l s s' below ⟨own1, done⟩ ran
    exact ⟨own1, done.leaf pair.parent pair.child pair.deep (pair.blank l below) ran⟩
  | succ n ih =>
    refine loop_inv (I := fun i s => ∃ own1, Cloned m own rp rc p tp tc i s own1)
      ⟨own, .start pair.tree pair.direct⟩ ?_ ran
    intro i s s' below ⟨own1, done⟩ ran
    obtain ⟨parent, child⟩ := pair.still done
    split at ran
    next here =>
      have round := done.tree.copyRound (i := i) (n := n) done.direct parent child pair.apart
      obtain ⟨⟨f, s1⟩, popped, ran⟩ := Option.bind_eq_some_iff.mp (round.symm.trans ran)
      have picked := done.tree.getFreeFrame popped
      obtain ⟨own3, lower⟩ := ih (pair.next done below here picked) ran
      exact ⟨own3, done.table (pair.blank i below) (pair.under done below here picked lower)⟩
    next missing =>
      cases ran
      exact ⟨own1, done.skip (pair.inner below).1 (pair.blank i below) (by simpa using missing)⟩

/-- The rule for the loops above the leaf tables: a round that finds no table does nothing, any
other takes a frame for the child and copies the level below. -/
theorem rounds_inv {I : Nat → Machine → Prop} (pair : Pair m own rp rc p (n + 1) bound tp tc)
    (initial : I 0 m)
    (skip : ∀ i s own1, i < bound → Cloned m own rp rc p tp tc i s own1 →
      present (s.mem tp i) = false → I i s → I (i + 1) s)
    (round : ∀ i s own1 f s1 s', i < bound → Cloned m own rp rc p tp tc i s own1 →
      present (s.mem tp i) = true → s.getFreeFrame = some (f, s1) →
      Machine.copyLevel n 512 (frame (s.mem tp i)) f (s1.fill tc i f) = some s' → I i s →
      I (i + 1) s')
    (ran : Machine.copyLevel (n + 1) bound tp tc m = some m') : I bound m' := by
  have all : (∃ own1, Cloned m own rp rc p tp tc bound m' own1) ∧ I bound m' := by
    refine loop_inv (I := fun i s => (∃ own1, Cloned m own rp rc p tp tc i s own1) ∧ I i s)
      ⟨⟨own, .start pair.tree pair.direct⟩, initial⟩ ?_ ran
    rintro i s s' below ⟨⟨own1, done⟩, holds⟩ ran
    obtain ⟨parent, child⟩ := pair.still done
    split at ran
    next here =>
      have same := done.tree.copyRound (i := i) (n := n) done.direct parent child pair.apart
      obtain ⟨⟨f, s1⟩, popped, ran⟩ := Option.bind_eq_some_iff.mp (same.symm.trans ran)
      have picked := done.tree.getFreeFrame popped
      obtain ⟨own3, lower⟩ := (pair.next done below here picked).copyLevel ran
      exact ⟨⟨own3, done.table (pair.blank i below) (pair.under done below here picked lower)⟩,
        round i s own1 f s1 s' below done here popped ran holds⟩
    next missing =>
      cases ran
      have absent : present (s.mem tp i) = false := by simpa using missing
      exact ⟨⟨own1, done.skip (pair.inner below).1 (pair.blank i below) absent⟩,
        skip i s own1 below done absent holds⟩
  exact all.2

end Pair

end Machine

end LateOS
