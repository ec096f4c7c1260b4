import LateOS.Memory.Clone
import LateOS.Memory.Teardown

/-!
# Copying a task's tables

`copytables` gives the child its own tables at every level and shares the leaf entries.
-/
namespace LateOS

open Lib

namespace Machine

variable {m m' : Machine} {use use' : Word → Use} {rp rc tp tc : Word} {p path : List Nat}
  {i l n bound : Nat}

/-! ## One leaf entry -/

theorem EntryOk.share {r r' : Word} {e : Word} (ok : EntryOk use r p l e) (deep : p.length = 3) :
    EntryOk use r' p l (share e) := by
  intro here
  rw [present_share] at here
  obtain ⟨_, leaf, _⟩ := ok here
  refine ⟨fun inner => absurd inner.1 (by omega), fun _ => ?_, fun top => ?_⟩
  · rw [frame_share]
    refine ⟨(leaf deep).1, ?_, Or.inr (shared_share e).2⟩
    rw [share_user]
    exact (leaf deep).2.1
  · rw [top] at deep
    cases deep

/-- Both tasks may have a leaf entry, when it is marked on both sides. -/
theorem Sound.shareEntry (sound : m.Sound use) (parent : use tp = .table rp p)
    (child : use tc = .table rc p) (deep : p.length = 3) (bound : l < 512)
    (here : present (m.mem tp l) = true) (ran : m.shareEntry tp tc l = some m') :
    m'.Sound use := by
  have ok := sound.entries tp rp p l parent bound
  have leaf : m.Leaf use tp l := ⟨⟨rp, p, parent, deep⟩, bound, here⟩
  have first : (m.write tp l (share (m.mem tp l))).Sound use := by
    refine sound.write parent (ok.share deep) fun _ _ t' l' there away same => ?_
    rw [frame_share] at same
    rcases sound.shared tp l t' l' leaf there same.symm with ⟨rfl, rfl⟩ | shared
    · exact absurd away (by simp)
    · exact ⟨shared.2, shared_share _⟩
  have second : ((m.write tp l (share (m.mem tp l))).write tc l (share (m.mem tp l))).Sound use := by
    refine first.write child (ok.share deep) fun _ _ t' l' there _ same => ?_
    refine ⟨?_, shared_share _⟩
    rw [frame_share] at same
    -- The parent's own entry has just been marked; the others with this frame were marked before.
    by_cases own : t' = tp ∧ l' = l
    · rw [write_mem, if_pos own]
      exact shared_share _
    · have old : (m.write tp l (share (m.mem tp l))).mem t' l' = m.mem t' l' := by
        rw [write_mem, if_neg own]
      rw [old] at same ⊢
      have there' : m.Leaf use t' l' := ⟨there.table, there.index, old ▸ there.here⟩
      rcases sound.shared tp l t' l' leaf there' same.symm with ⟨rfl, rfl⟩ | shared
      · exact absurd ⟨rfl, rfl⟩ own
      · exact shared.2
  have both : ((m.write tp l (share (m.mem tp l))).write tc l
      ((m.write tp l (share (m.mem tp l))).mem tp l)).Sound use := by
    rw [write_mem, if_pos ⟨rfl, rfl⟩]
    exact second
  unfold Machine.shareEntry at ran
  rw [if_pos here] at ran
  cases ran
  -- The count of references is no part of the tables.
  exact both.congr (List.suffix_refl _) rfl rfl fun _ _ _ => rfl

/-! ## Whole levels -/

/-- Below the first `bound` entries of table `tp` of the parent and `tc` of the child, both at
path `p`, the leaf entries are those of the parent before, shared. -/
structure Copied (m : Machine) (use : Word → Use) (rp rc : Word) (p : List Nat) (tp tc : Word)
    (bound : Nat) (m' : Machine) (use' : Word → Use) : Prop where
  sound : m'.Sound use'
  within : Within {rp, rc} m use m' use'
  upper : ∀ x, use x ≠ .free → x ≠ tc → (∀ q, use x = .table rp (p ++ q) → (p ++ q).length ≠ 3) →
    m'.mem x = m.mem x
  parent : ∀ j, bound ≤ j → m'.mem tp j = m.mem tp j
  child : ∀ j, bound ≤ j → m'.mem tc j = m.mem tc j
  copied : ∀ path l i rest, InnerPath Inner p path → p.length + path.length = 3 → l < 512 →
    path ++ [l] = i :: rest → i < bound →
      m'.tables.lookup tc path l = (m.tables.lookup tp path l).map share ∧
      m'.tables.lookup tp path l = (m.tables.lookup tp path l).map share
  rest : ∀ path l i rest, InnerPath Inner p path → p.length + path.length = 3 →
    path ++ [l] = i :: rest → bound ≤ i → m'.tables.lookup tp path l = m.tables.lookup tp path l

theorem Copied.start (sound : m.Sound use) : Copied m use rp rc p tp tc 0 m use :=
  ⟨sound, .refl, fun _ _ _ _ => rfl, fun _ _ => rfl, fun _ _ => rfl,
    fun _ _ i _ _ _ _ _ below => absurd below (Nat.not_lt_zero i), fun _ _ _ _ _ _ _ _ => rfl⟩

/-- What a copy does to trees, in terms of the uses of frames. -/
theorem Copied.cloned (done : Copied m use rp rc p tp tc bound m' use') :
    Cloned m (fun f => (use f).owner) rp rc p tp tc bound m' fun f => (use' f).owner := by
  refine ⟨done.sound.tree, done.sound.directMap, fun x owns => ?_, fun x before after => ?_,
    done.within.head, fun x out notC upper => ?_, done.parent, done.child, done.copied, done.rest⟩
  · obtain ⟨r, q, serves⟩ := owner_used owns
    rw [done.within.kept x (by simp [serves])]
  · obtain ⟨r, q, serves⟩ := owner_used after
    have free : use x = .free := by
      by_contra used
      rw [done.within.kept x used] at serves
      simp [serves, Use.owner] at before
    refine ⟨done.within.fresh x r q free serves, fun member => ?_⟩
    rw [done.sound.free x member] at serves
    cases serves
  · -- Only tables of the two tasks are written at all.
    by_cases involved : ∃ r q, use x = .table r q ∧ r ∈ ({rp, rc} : Set Word)
    · obtain ⟨r, q, serves, _⟩ := involved
      refine done.upper x (by simp [serves]) notC fun q' table => ?_
      exact upper q' (Use.owner_eq.mpr table)
    · exact done.within.mem x out fun r q serves member => involved ⟨r, q, serves, member⟩

theorem Cloned.copied_uses (sound : m.Sound use) (sound' : m'.Sound use')
    (within : Within {rp, rc} m use m' use')
    (done : Cloned m (fun f => (use f).owner) rp rc p tp tc bound m' fun f => (use' f).owner) :
    Copied m use rp rc p tp tc bound m' use' := by
  refine ⟨sound', within, fun x used notC upper => ?_, done.parent, done.child, done.copied,
    done.rest⟩
  exact done.upper x (fun member => used (sound.free x member)) notC fun q owns =>
    upper q (Use.owner_eq.mp owns)

theorem Copied.leaf {s s' : Machine} {use1 : Word → Use} (sound : m.Sound use)
    (parent : use tp = .table rp p) (child : use tc = .table rc p)
    (deep : p.length = 3) (bound : l < 512) (blank : m.mem tc l = 0)
    (done : Copied m use rp rc p tp tc l s use1) (ran : s.shareEntry tp tc l = some s') :
    Copied m use rp rc p tp tc (l + 1) s' use1 := by
  have parent1 := (done.within.kept tp (by simp [parent])).trans parent
  have child1 := (done.within.kept tc (by simp [child])).trans child
  have cloned := done.cloned.leaf (Use.owner_eq.mpr parent) (Use.owner_eq.mpr child) deep blank ran
  by_cases here : present (s.mem tp l) = true
  · obtain ⟨head, pml4e, pdpte, mem⟩ := shareEntry_mem here ran
    refine cloned.copied_uses sound (done.sound.shareEntry parent1 child1 deep bound here ran)
      (done.within.trans ⟨fun _ _ => rfl, fun x r q free table => ?_, fun x _ other => ?_,
        by rw [head], pml4e, pdpte⟩)
    · rw [free] at table
      cases table
    · funext j
      rw [mem, if_neg]
      rintro ⟨rfl | rfl, _⟩
      · exact other rp p parent1 (by simp)
      · exact other rc p child1 (by simp)
  · have same : s' = s := by
      unfold Machine.shareEntry at ran
      rw [if_neg here] at ran
      cases ran
      rfl
    subst same
    exact cloned.copied_uses sound done.sound done.within

/-- Entry `i` of an upper table is missing, so there is nothing to copy. -/
theorem Copied.skip {s : Machine} {use1 : Word → Use} (sound : m.Sound use) (deep : p.length < 3)
    (blank : m.mem tc i = 0) (missing : present (s.mem tp i) = false)
    (done : Copied m use rp rc p tp tc i s use1) : Copied m use rp rc p tp tc (i + 1) s use1 :=
  (done.cloned.skip deep blank missing).copied_uses sound done.sound done.within

/-- In state `s` the child gets a new table `f` for entry `i`, and in `s3` the level below has been
copied into it. -/
structure Below (rp rc : Word) (p : List Nat) (tp tc : Word) (i : Nat) (s : Machine)
    (use1 : Word → Use) (f : Word) (s1 s3 : Machine) (use3 : Word → Use) : Prop where
  sound : s.Sound use1
  parent : use1 tp = .table rp p
  child : use1 tc = .table rc p
  apart : rp ≠ rc
  inner : Inner p i
  fresh : s.mem tc i = 0
  here : present (s.mem tp i) = true
  taken : Taken s use1 f s1
  lower : Copied (s1.fill tc i f) (Function.update use1 f (.table rc (p ++ [i]))) rp rc
    (p ++ [i]) (frame (s.mem tp i)) f 512 s3 use3

theorem Below.under {s s1 s3 : Machine} {use1 use3 : Word → Use} {f : Word}
    (below : Below rp rc p tp tc i s use1 f s1 s3 use3) :
    Under rp rc p tp tc i s (fun x => (use1 x).owner) f s1 s3 fun x => (use3 x).owner := by
  have lower := below.lower.cloned
  rw [owner_update] at lower
  exact ⟨below.sound.tree, Use.owner_eq.mpr below.parent, Use.owner_eq.mpr below.child,
    below.apart, below.inner, below.fresh, below.here, below.taken.picked, lower⟩

theorem Copied.table {s s1 s3 : Machine} {use1 use3 : Word → Use} {f : Word} (sound : m.Sound use)
    (blank : m.mem tc i = 0) (done : Copied m use rp rc p tp tc i s use1)
    (below : Below rp rc p tp tc i s use1 f s1 s3 use3) :
    Copied m use rp rc p tp tc (i + 1) s3 use3 :=
  (done.cloned.table blank below.under).copied_uses sound below.lower.sound
    (done.within.trans ((below.taken.fill_within below.child (by simp)).trans below.lower.within))

/-- A round of the loops above the leaf tables, where the parent has a table. -/
theorem Sound.copyRound {s s' : Machine} (sound : s.Sound use) (parent : use tp = .table rp p)
    (child : use tc = .table rc p) (apart : rp ≠ rc)
    (ran : (s.getNewPage.bind fun (table, m) =>
      let m := (m.zero table).write tc i (entry table 7)
      copyLevel n 512 (frame (m.mem tp i)) table m) = some s') :
    ∃ f s1, s.getFreeFrame = some (f, s1) ∧ Taken s use f s1 ∧
      copyLevel n 512 (frame (s.mem tp i)) f (s1.fill tc i f) = some s' := by
  have round := sound.tree.copyRound (i := i) (n := n) sound.directMap (Use.owner_eq.mpr parent)
    (Use.owner_eq.mpr child) apart
  obtain ⟨⟨f, s1⟩, popped, ran⟩ := Option.bind_eq_some_iff.mp (round.symm.trans ran)
  exact ⟨f, s1, popped, sound.getFreeFrame popped, ran⟩

theorem Sound.copyLevel (sound : m.Sound use) (parent : use tp = .table rp p)
    (child : use tc = .table rc p) (apart : rp ≠ rc) (deep : p.length + n = 3)
    (fits : bound ≤ 512) (top : p = [] → bound ≤ 511) (blank : ∀ j, j < bound → m.mem tc j = 0)
    (ran : copyLevel n bound tp tc m = some m') :
    ∃ use', Copied m use rp rc p tp tc bound m' use' := by
  induction n generalizing tp tc p m bound m' use with
  -- At the leaf tables the loop shares entries; above, each round copies a table.
  | zero =>
    refine loop_inv (I := fun i s => ∃ use1, Copied m use rp rc p tp tc i s use1)
      ⟨use, .start sound⟩ ?_ ran
    intro l s s' below ⟨use1, done⟩ ran
    exact ⟨use1, done.leaf sound parent child deep (by omega) (blank l below) ran⟩
  | succ n ih =>
    refine loop_inv (I := fun i s => ∃ use1, Copied m use rp rc p tp tc i s use1)
      ⟨use, .start sound⟩ ?_ ran
    intro i s s' before ⟨use1, done⟩ ran
    have inner : Inner p i := ⟨by omega, by omega, fun empty => by have := top empty; omega⟩
    have parent1 := (done.within.kept tp (by simp [parent])).trans parent
    have child1 := (done.within.kept tc (by simp [child])).trans child
    split at ran
    next here =>
      obtain ⟨f, s1, _, taken, ran⟩ := done.sound.copyRound parent1 child1 apart ran
      have notC : tc ≠ f := taken.ne (by simp [child1])
      have served := ((done.sound.entries tp rp p i parent1 inner.2.1 here).1 inner).1
      have notServed : frame (s.mem tp i) ≠ f := taken.ne (by simp [served])
      obtain ⟨use3, lower⟩ := ih (taken.fill child1 inner)
        ((Function.update_of_ne notServed _ _).trans served) (Function.update_self ..)
        (by simp; omega) (Nat.le_refl _) (by simp)
        (fun j _ => by rw [fill_mem, if_neg fun both => notC both.1.symm, if_pos rfl]) ran
      have fresh := (done.child i (Nat.le_refl i)).trans (blank i before)
      exact ⟨use3, done.table sound (blank i before)
        ⟨done.sound, parent1, child1, apart, inner, fresh, here, taken, lower⟩⟩
    next missing =>
      cases ran
      exact ⟨use1, done.skip sound inner.1 (blank i before) (by simpa using missing)⟩

/-- The kernel's slot is copied first. -/
theorem Sound.copySlot (sound : m.Sound use) (parent : use rp = .table rp [])
    (child : use rc = .table rc []) : (m.write rc 511 (m.mem rp 511)).Sound use := by
  refine sound.write child (fun here => ⟨fun inner => ?_, fun deep => ?_, fun _ _ => ?_⟩)
    fun deep => ?_
  · exact absurd (inner.2.2 rfl) (by decide)
  · cases deep
  · exact (sound.entries rp rp [] 511 parent (by decide) here).2.2 rfl rfl
  · cases deep

/-- The loops of `copytables`. -/
theorem Sound.copytables_copied (sound : m.Sound use) (parent : use rp = .table rp [])
    (child : use rc = .table rc []) (apart : rp ≠ rc) (blank : ∀ j, m.mem rc j = 0)
    (ran : m.copytables rp rc = some m') :
    ∃ use', Copied (m.write rc 511 (m.mem rp 511)) use rp rc [] rp rc 511 m' use' :=
  (sound.copySlot parent child).copyLevel parent child apart rfl (by decide)
    (fun _ => Nat.le_refl _) (fun j below => by rw [write_mem, if_neg fun both => by omega, blank]) ran

/-- What `copytables` leaves behind: both tasks map what the parent mapped, shared. -/
structure Forked (m : Machine) (use : Word → Use) (rp rc : Word) (m' : Machine)
    (use' : Word → Use) : Prop where
  sound : m'.Sound use'
  within : Within {rp, rc} m use m' use'
  copied : ∀ v, UserAddress v → m'.translate rc v = (m.translate rp v).map share ∧
    m'.translate rp v = (m.translate rp v).map share

theorem Sound.copytables (sound : m.Sound use) (parent : use rp = .table rp [])
    (child : use rc = .table rc []) (apart : rp ≠ rc) (blank : ∀ j, m.mem rc j = 0)
    (ran : m.copytables rp rc = some m') : ∃ use', Forked m use rp rc m' use' := by
  obtain ⟨use', done⟩ := sound.copytables_copied parent child apart blank ran
  have member : rc ∈ ({rp, rc} : Set Word) := by simp
  refine ⟨use', done.sound, (Within.write child member).trans done.within, fun v user => ?_⟩
  have both := done.copied (upperPath v) (ptIndex v) (pml4Index v)
    [pdptIndex v, pdIndex v, ptIndex v] (innerPath_upper user) rfl (index_bound v).2.2.2 rfl user
  have before : (m.write rc 511 (m.mem rp 511)).translate rp v = m.translate rp v :=
    sound.lookup_write child parent (innerPath_upper user) fun same => apart same.1
  unfold translate at before ⊢
  rw [← before]
  exact both

end Machine

end LateOS
