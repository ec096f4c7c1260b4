import Mathlib.Algebra.BigOperators.Group.Finset.Basic
import LateOS.Memory.OnePage
import LateOS.Memory.References

/-!
# fork's copy of an address space

`copytables` on a parent whose page tables are a tree, whatever they map and with whatever flags.
-/
namespace LateOS

open Lib

namespace Machine

variable {m m' : Machine} {own : Word → Option (Word × List Nat)} {rp rc tp tc t r f : Word}
  {p path : List Nat} {i n bound v : Nat}

/-! ## How many frames it takes -/

/-- The number of tables below table `t`, behind its first `bound` entries. -/
def tablesBelow (m : Machine) : Nat → Nat → Word → Nat
  | 0, _, _ => 0
  | n + 1, bound, t => ∑ i ∈ Finset.range bound,
      if present (m.mem t i) then 1 + m.tablesBelow n 512 (frame (m.mem t i)) else 0

theorem Tree.tablesBelow_congr (tree : m.Tree own) (serves : own t = some (r, p))
    (deep : p.length + n = 3) (fits : bound ≤ 512) (top : p = [] → bound ≤ 511)
    (kept : ∀ x q, own x = some (r, p ++ q) → (p ++ q).length < 3 → m'.mem x = m.mem x) :
    m'.tablesBelow n bound t = m.tablesBelow n bound t := by
  induction n generalizing t p bound with
  | zero => rfl
  | succ n ih =>
    have here : m'.mem t = m.mem t :=
      kept t [] (by rw [List.append_nil, serves]) (by rw [List.append_nil]; omega)
    rw [tablesBelow, tablesBelow, here]
    refine Finset.sum_congr rfl fun i member => ?_
    have below := Finset.mem_range.mp member
    split
    next leads =>
      have inner : Inner p i := ⟨by omega, by omega, fun empty => by have := top empty; omega⟩
      rw [ih (tree.child serves inner leads) (by rw [List.length_append, List.length_singleton]; omega)
        (Nat.le_refl _) (by simp) fun x q owns => ?_]
      rw [List.append_assoc] at owns ⊢
      exact kept x ([i] ++ q) owns
    next => rfl

/-- The tables behind entry `i` are still as many when the child has been given one. -/
theorem Pair.tablesBelow_next {s s1 : Machine} {own1 : Word → Option (Word × List Nat)}
    (pair : Pair m own rp rc p (n + 1) bound tp tc) (done : Cloned m own rp rc p tp tc i s own1)
    (below : i < bound) (here : present (s.mem tp i) = true) (picked : Picked s own1 f s1) :
    (s1.fill tc i f).tablesBelow n 512 (frame (s.mem tp i)) =
      m.tablesBelow n 512 (frame (m.mem tp i)) := by
  have inner := pair.inner below
  have deep := pair.deep
  have same := done.parent i (Nat.le_refl i)
  have served : own (frame (m.mem tp i)) = some (rp, p ++ [i]) :=
    pair.tree.child pair.parent inner (by rw [← same]; exact here)
  rw [same]
  refine pair.tree.tablesBelow_congr served
    (by rw [List.length_append, List.length_singleton]; omega) (Nat.le_refl _) (by simp)
    fun x q owns short => ?_
  have used : own x ≠ none := by simp [owns]
  have notC : x ≠ tc := by
    rintro rfl
    rw [pair.child] at owns
    injection owns with equal
    injection equal with roots
    exact pair.apart roots.symm
  have old : s.mem x = m.mem x := by
    refine done.upper x (fun member => used (pair.tree.free x member)) notC fun q' owns' => ?_
    rw [owns] at owns'
    injection owns' with equal
    injection equal with _ path
    rw [← path]
    omega
  funext j
  rw [picked.fill_away (by rwa [done.kept x used]) fun both => notC both.1, old]

/-- With a frame for each table of the parent the loops come to their end. -/
theorem Pair.returns (pair : Pair m own rp rc p n bound tp tc)
    (enough : m.tablesBelow n bound tp ≤ m.head.length) :
    ∃ m', Machine.copyLevel n bound tp tc m = some m' ∧
      m.head.length = m'.head.length + m.tablesBelow n bound tp := by
  induction n generalizing tp tc p m bound own with
  | zero =>
    have all : ∃ m', loop bound (fun l m => m.shareEntry tp tc l) m = some m' ∧
        m'.head = m.head := by
      refine loop_total (I := fun _ (s : Machine) => s.head = m.head) rfl fun l s _ same => ?_
      unfold shareEntry
      dsimp only
      split
      · exact ⟨_, rfl, same⟩
      · exact ⟨_, rfl, same⟩
    obtain ⟨m', ran, same⟩ := all
    exact ⟨m', ran, by rw [same]; rfl⟩
  | succ n ih =>
    let cost (j : Nat) : Nat :=
      if present (m.mem tp j) then 1 + m.tablesBelow n 512 (frame (m.mem tp j)) else 0
    have total (k : Nat) : m.tablesBelow (n + 1) k tp = ∑ j ∈ Finset.range k, cost j := rfl
    have all : ∃ m', Machine.copyLevel (n + 1) bound tp tc m = some m' ∧
        (∃ own1, Cloned m own rp rc p tp tc bound m' own1) ∧
        m.head.length = m'.head.length + ∑ j ∈ Finset.range bound, cost j := by
      refine loop_total (I := fun i s => (∃ own1, Cloned m own rp rc p tp tc i s own1) ∧
        m.head.length = s.head.length + ∑ j ∈ Finset.range i, cost j)
        ⟨⟨own, .start pair.tree pair.direct⟩, by simp⟩ ?_
      rintro i s below ⟨⟨own1, done⟩, spent⟩
      obtain ⟨parent, child⟩ := pair.still done
      have same := done.parent i (Nat.le_refl i)
      have upTo : ∑ j ∈ Finset.range (i + 1), cost j ≤ ∑ j ∈ Finset.range bound, cost j :=
        Finset.sum_le_sum_of_subset (Finset.range_mono below)
      rw [Finset.sum_range_succ] at upTo ⊢
      rw [total] at enough
      split
      next here =>
        have price : cost i = 1 + m.tablesBelow n 512 (frame (m.mem tp i)) :=
          if_pos (by rw [← same]; exact here)
        obtain ⟨f, s1, popped, fewer⟩ := getFreeFrame_total (m := s) (by omega)
        have picked := done.tree.getFreeFrame popped
        have next := pair.next done below here picked
        have count := pair.tablesBelow_next done below here picked
        obtain ⟨s', ran, left⟩ := ih next (by
          rw [count]
          change _ ≤ s1.head.length
          omega)
        obtain ⟨own3, lower⟩ := next.copyLevel ran
        have round := done.tree.copyRound (i := i) (n := n) done.direct parent child pair.apart
        rw [popped] at round
        refine ⟨s', round.trans ran, ⟨own3,
          done.table (pair.blank i below) (pair.under done below here picked lower)⟩, ?_⟩
        rw [count] at left
        change s1.head.length = _ at left
        omega
      next missing =>
        have absent : present (s.mem tp i) = false := by simpa using missing
        have free : cost i = 0 := if_neg (by rw [← same]; exact missing)
        refine ⟨s, rfl, ⟨own1, done.skip (pair.inner below).1 (pair.blank i below) absent⟩, ?_⟩
        omega
    obtain ⟨m', ran, _, spent⟩ := all
    exact ⟨m', ran, spent⟩

/-! ## Whole address spaces -/

/-- The PML4 `rp` leads to a tree of page tables and `rc` is cleared, and the kernel maps the free
frames by tables of its own. -/
structure Forkable (m : Machine) (rp rc : Word) : Prop where
  shaped : m.TreeShaped rp
  spare : m.Spare rp
  blank : ∀ i, m.mem rc i = 0
  apart : ¬m.InTree rp rc
  unused : rc ∉ m.head
  mapped : ∀ f ∈ m.head, m.DirectMapped f
  kernel : ∀ f ∈ m.head, ∀ t ∈ m.kernelWay f, ¬m.InTree rp t ∧ t ≠ rc ∧ t ∉ m.head

/-- What `copytables` leaves behind. -/
structure Twinned (m : Machine) (rp rc : Word) (m' : Machine) : Prop where
  same : ∀ v, UserAddress v → m'.translate rc v = m'.translate rp v
  parent : ∀ v, UserAddress v → m'.translate rp v = (m.translate rp v).map share
  shared : ∀ v e, UserAddress v → m'.translate rc v = some e → Shared e ∧
    ∃ old, m.translate rp v = some old ∧ frame e = frame old
  fresh : ∀ t, m'.InTree rc t → t ≠ rc → t ∈ m.head ∧ t ∉ m'.head
  shaped : m'.TreeShaped rc ∧ m'.TreeShaped rp
  slot : m'.mem rc 511 = m'.mem rp 511
  upper : ∀ path t, InnerPath Inner [] path → path.length < 3 →
    m.tables.walk rp path = some t → m'.mem t = m.mem t
  counts : ∀ f, (f ∈ m.head → f ∈ m'.head) →
    m'.refCount f = m.refCount f + m.references 3 rp f userPages

open Classical in
/-- The tables of the parent and the child's PML4. -/
noncomputable def forkLabel (m : Machine) (rp rc : Word) : Word → Option (Word × List Nat) :=
  Function.update (label m.tables Inner rp) rc (some (rc, []))

theorem forkLabel_child (m : Machine) (rp rc : Word) : m.forkLabel rp rc rc = some (rc, []) :=
  Function.update_self ..

theorem forkLabel_other (m : Machine) (rp : Word) (other : t ≠ rc) :
    m.forkLabel rp rc t = label m.tables Inner rp t := Function.update_of_ne other _ _

namespace Forkable

variable (forkable : m.Forkable rp rc)

include forkable

theorem roots : rp ≠ rc := by
  rintro rfl
  exact forkable.apart ⟨[], trivial, rfl⟩

theorem label_parent : m.forkLabel rp rc rp = some (rp, []) := by
  rw [forkLabel_other m rp forkable.roots]
  exact forkable.shaped.root

theorem tree : m.Tree (m.forkLabel rp rc) := by
  refine ⟨fun t r p i g serves inner leads => ?_, forkable.spare.nodup, forkable.spare.aligned,
    fun f member => ?_⟩
  · by_cases child : t = rc
    · subst child
      change m.tables.target (m.mem t i) = some g at leads
      rw [forkable.blank] at leads
      cases (target_isSome leads).1
    · rw [forkLabel_other m rp child] at serves
      have below := forkable.shaped.owned t r p i g serves inner leads
      rw [forkLabel_other m rp, below]
      rintro rfl
      rw [label_none.mpr forkable.apart] at below
      cases below
  · rw [forkLabel_other m rp (by rintro rfl; exact forkable.unused member)]
    exact label_none.mpr (forkable.spare.apart f member)

theorem direct : m.DirectMap (m.forkLabel rp rc) := by
  refine ⟨forkable.mapped, fun f member t on => ?_⟩
  obtain ⟨outside, other, used⟩ := forkable.kernel f member t on
  refine ⟨?_, used⟩
  rw [forkLabel_other m rp other]
  exact label_none.mpr outside

/-- Slot 511 of the child is on no way to a page. -/
theorem pair : Pair (m.write rc 511 (m.mem rp 511)) (m.forkLabel rp rc) rp rc [] 3 511 rp rc := by
  refine ⟨forkable.tree.write (forkLabel_child m rp rc) not_inner_slot _, ?_, forkable.label_parent,
    (forkLabel_child m rp rc), forkable.roots, rfl, by decide, fun _ => Nat.le_refl _, fun j below => ?_⟩
  · refine forkable.direct.congr (List.suffix_refl _) rfl rfl fun x none _ => ⟨?_, none⟩
    refine write_mem_of_ne m rc 511 _ ?_
    rintro rfl
    rw [forkLabel_child] at none
    cases none
  · rw [write_mem, if_neg fun both => by omega, forkable.blank]

theorem slot_translate (user : UserAddress v) :
    (m.write rc 511 (m.mem rp 511)).translate rp v = m.translate rp v :=
  forkable.tree.lookup_write (forkLabel_child m rp rc) forkable.label_parent (innerPath_upper user)
    fun same => forkable.roots same.1

theorem slot_tablesBelow :
    (m.write rc 511 (m.mem rp 511)).tablesBelow 3 511 rp = m.tablesBelow 3 511 rp := by
  refine forkable.tree.tablesBelow_congr forkable.label_parent rfl (by decide)
    (fun _ => Nat.le_refl _) fun x q owns _ => write_mem_of_ne m rc 511 _ ?_
  rintro rfl
  rw [forkLabel_child] at owns
  cases owns
  exact forkable.roots rfl

theorem returns (enough : m.tablesBelow 3 511 rp ≤ m.head.length) :
    ∃ m', m.copytables rp rc = some m' := by
  obtain ⟨m', ran, _⟩ := forkable.pair.returns (by rw [forkable.slot_tablesBelow]; exact enough)
  exact ⟨m', ran⟩

theorem twinned (ran : m.copytables rp rc = some m') : m.Twinned rp rc m' := by
  obtain ⟨own', done⟩ := forkable.pair.copyLevel ran
  obtain ⟨parent, child⟩ := forkable.pair.still done
  have both (v : Nat) (user : UserAddress v) :
      m'.translate rc v = (m.translate rp v).map share ∧
        m'.translate rp v = (m.translate rp v).map share := by
    rw [← forkable.slot_translate user]
    exact done.copied (upperPath v) (ptIndex v) (pml4Index v) _ (innerPath_upper user) rfl
      (index_bound v).2.2.2 rfl user
  have slotC : m'.mem rc 511 = m.mem rp 511 := by
    rw [done.child 511 (Nat.le_refl _), write_mem, if_pos ⟨rfl, rfl⟩]
  have slotP : m'.mem rp 511 = m.mem rp 511 := by
    rw [done.parent 511 (Nat.le_refl _), write_mem_of_ne m rc 511 _ forkable.roots]
  refine ⟨fun v user => ?_, fun v user => (both v user).2, fun v e user found => ?_,
    fun t inTree other => ?_, ⟨done.tree.shaped child, done.tree.shaped parent⟩,
    slotC.trans slotP.symm, fun path t inside short reached => ?_, fun f left => ?_⟩
  · rw [(both v user).1, (both v user).2]
  · rw [(both v user).1] at found
    obtain ⟨old, before, rfl⟩ := Option.map_eq_some_iff.mp found
    exact ⟨shared_share old, old, before, frame_share old⟩
  · obtain ⟨path, inside, reached⟩ := inTree
    have serves := done.tree.owned.walk child inside reached
    -- A table that the parent had before would not serve the child now.
    refine done.fresh t ?_ (by simp [serves])
    by_contra used
    have kept := (done.kept t used).symm.trans serves
    rw [forkLabel_other m rp other] at kept
    exact forkable.roots (label_root kept).symm
  · have serves := forkable.tree.owned.walk forkable.label_parent inside reached
    have other : t ≠ rc := by
      rintro rfl
      rw [forkLabel_child] at serves
      cases serves
      exact forkable.roots rfl
    rw [done.upper t (fun member => ?_) other fun q owns => ?_, write_mem_of_ne m rc 511 _ other]
    · change t ∈ m.head at member
      rw [forkable.tree.free t member] at serves
      cases serves
    · rw [serves] at owns
      cases owns
      exact Nat.ne_of_lt short
  · have counted := forkable.pair.refCount ran left
    have same : (m.write rc 511 (m.mem rp 511)).references 3 rp f userPages =
        m.references 3 rp f userPages := by
      refine references_congr (fun k small => ?_) f
      rw [leafEntry_translate _ _ small, leafEntry_translate _ _ small,
        forkable.slot_translate (user_of_page small)]
    rw [counted, same]
    rfl

end Forkable

/-- `copytables` on a parent whose page tables are a tree and on a cleared PML4: it returns when
there is a frame for each table of the parent, and then the child shares every page. -/
theorem copytables_forks (forkable : m.Forkable rp rc) :
    (m.tablesBelow 3 511 rp ≤ m.head.length → ∃ m', m.copytables rp rc = some m') ∧
      ∀ m', m.copytables rp rc = some m' → m.Twinned rp rc m' :=
  ⟨forkable.returns, fun _ ran => forkable.twinned ran⟩

/-! ## A task with one page -/

theorem bootMachine_way (member : f ∈ bootMachine.head) :
    bootMachine.kernelWay f = [0x1000, 0x2000, 0x3000, 0x4000] := by
  obtain ⟨k, below, rfl⟩ := bootMachine_free member
  obtain ⟨_, second, third, _⟩ := bootFrame_indices below
  unfold kernelWay
  dsimp only
  rw [second, third]
  decide

theorem OverBoot.forkable (laid : m.OverBoot) : m.Forkable 0x8000 0xA000 := by
  -- Nothing on the kernel's ways is written, so that they are still the same.
  let kernel (x : Word) : Option (Word × List Nat) :=
    if x ∈ [0x1000, 0x2000, 0x3000, 0x4000] then none else some (x, [])
  have ways {x : Word} (none : kernel x = none) :
      x.toNat < 65536 ∧ x ≠ 0x8000 ∧ x ≠ 0xA000 := by
    have on : x ∈ [(0x1000 : Word), 0x2000, 0x3000, 0x4000] := by
      by_contra off
      rw [show kernel x = some (x, []) from if_neg off] at none
      cases none
    simp only [List.mem_cons, List.not_mem_nil, or_false] at on
    rcases on with rfl | rfl | rfl | rfl <;> decide
  have boot : bootMachine.DirectMap kernel := by
    refine ⟨bootMachine_sound.direct, fun f member t on => ?_⟩
    rw [bootMachine_way member] at on
    have none : kernel t = none := if_pos on
    exact ⟨none, bootMachine_low (ways none).1⟩
  have direct : m.DirectMap kernel := boot.congr laid.suffix laid.pml4e laid.pdpte
    fun x none _ => ⟨laid.kept x (ways none).1 (ways none).2.1, none⟩
  refine ⟨laid.shaped, laid.spare, fun i => ?_, laid.outside _ (by decide) (by decide),
    laid.low (by decide), direct.mapped, fun f member t on => ?_⟩
  · rw [laid.kept _ (by decide) (by decide)]
    change bootMemory 0xA000 i = 0
    simp [bootMemory]
  · obtain ⟨none, used⟩ := direct.apart f member t on
    obtain ⟨low, other, apart⟩ := ways none
    exact ⟨laid.outside t low other, apart, used⟩

theorem bootMachine_forkable : ∃ m, bootMachine.initTaskPagetables 0x400000 0x9000 0x8000 = some m ∧
    bootMachine.PageMapped 0x8000 0x400000 0x9000 m ∧ m.Forkable 0x8000 0xA000 := by
  obtain ⟨m, _, ran, _, mapped, _⟩ := bootMachine_pages
  exact ⟨m, ran, mapped, (overBoot.map mapped).forkable⟩

/-- Three frames are taken for the child's tables, the first of them `bootFrame 3`. -/
theorem bootMachine_copied : ((bootMachine.initTaskPagetables 0x400000 0x9000 0x8000).bind fun m =>
    (m.copytables 0x8000 0xA000).map fun m' => (m.refCount (bootFrame 3), m'.refCount (bootFrame 3))) =
      some (0, 1) := by
  decide +kernel

/-- The child shares two pages. -/
theorem copytables_forks_boot : ∃ m m' : Machine,
    m.translate 0x8000 0x400000 = some 0x9007 ∧ m.translate 0x8000 0x401000 = some 0xB007 ∧
      m.copytables 0x8000 0xA000 = some m' ∧ m.Twinned 0x8000 0xA000 m' := by
  obtain ⟨m0, m, ran, ran', first, second⟩ := bootMachine_pages
  obtain ⟨_, forks⟩ := copytables_forks ((overBoot.map first).map second).forkable
  have copied : ((bootMachine.initTaskPagetables 0x400000 0x9000 0x8000).bind fun m =>
      (m.initTaskPagetables 0x401000 0xB000 0x8000).bind fun m =>
        m.copytables 0x8000 0xA000).isSome = true := by
    decide +kernel
  rw [ran, Option.bind_some, ran', Option.bind_some] at copied
  obtain ⟨m', both⟩ := Option.isSome_iff_exists.mp copied
  refine ⟨m, m', ?_, second.here _ ⟨rfl, rfl⟩, both, forks m' both⟩
  rw [second.others _ (by decide) (by decide)]
  exact first.here _ ⟨rfl, rfl⟩

/-- A frame that becomes a table of the child is counted although no page of the parent maps it. -/
theorem table_frame_counted : ∃ m m',
    bootMachine.initTaskPagetables 0x400000 0x9000 0x8000 = some m ∧ m.Forkable 0x8000 0xA000 ∧
      m.copytables 0x8000 0xA000 = some m' ∧ m'.refCount (bootFrame 3) ≠
        m.refCount (bootFrame 3) + m.references 3 0x8000 (bootFrame 3) userPages := by
  obtain ⟨m, ran, mapped, forkable⟩ := bootMachine_forkable
  have copied := bootMachine_copied
  rw [ran, Option.bind_some] at copied
  obtain ⟨m', both, counts⟩ := Option.map_eq_some_iff.mp copied
  obtain ⟨before, after⟩ := Prod.mk.inj counts
  refine ⟨m, m', ran, forkable, both, ?_⟩
  have none : m.references 3 0x8000 (bootFrame 3) userPages = 0 := by
    unfold references
    rw [Nat.count_iff_forall_not]
    intro k small found
    rw [leafEntry_translate _ _ small] at found
    by_cases page : SamePage 0x400000 (4096 * k)
    · rw [mapped.here _ page] at found
      revert found
      decide
    · rw [mapped.others _ (user_of_page small) page, translate_blank bootMachine_blank.1] at found
      cases found
  rw [before, after, none]
  decide

end Machine

end LateOS
