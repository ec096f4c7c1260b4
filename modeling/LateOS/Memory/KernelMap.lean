import LateOS.Memory.OnePage
import LateOS.Boot.PageTables

/-!
# Mapping a kernel page

`mapNewFrame` tests the present bits on the tables that it walks to, but two of its helpers name
the static `pdpte`, which is the PDPT of slot 511. For a page of another slot whose PDPT exists
they write to the tables of slot 511 instead.
-/
namespace LateOS

open Lib

namespace Machine

variable {m m' : Machine} {own : Word → Option (Word × List Nat)} {t n g f r : Word}
  {p path : List Nat} {i l v v' : Nat}

/-- The entries of the upper tables; in the kernel's own tree slot 511 is one of them. -/
def KernelInner (p : List Nat) (i : Nat) : Prop := p.length < 3 ∧ i < 512

/-- The kernel's page tables. -/
structure KernelSpace (m : Machine) : Prop where
  shaped : Unshared m.tables KernelInner m.pml4e
  /-- The static pointer `pdpte` maps the PDPT of slot 511. -/
  slot : m.tables.target (m.mem m.pml4e 511) = some m.pdpte
  nodup : m.head.Nodup
  aligned : ∀ f ∈ m.head, frame f = f
  apart : ∀ f ∈ m.head, ¬Reaches m.tables KernelInner m.pml4e f
  /-- Unused memory is zero-filled, and so are the unused entries of the tables. -/
  zeroed : ∀ f ∈ m.head, ∀ i, m.mem f i = 0
  unused : ∀ t, Reaches m.tables KernelInner m.pml4e t → ∀ i < 512,
    present (m.mem t i) = false → m.mem t i = 0
  /-- Frame 0 is unused. -/
  first : ¬Reaches m.tables KernelInner m.pml4e 0 ∧ ∀ i, m.mem 0 i = 0

/-- The page of `v` is mapped to `f`, and every other page as before. -/
structure KernelMapped (m : Machine) (v : Nat) (f : Word) (m' : Machine) : Prop where
  here : ∀ v', SamePage v v' → m'.physical m.pml4e v' = some f
  others : ∀ v', ¬SamePage v v' → m'.translate m.pml4e v' = m.translate m.pml4e v'

/-- The address with the same lower indices in slot 511. -/
def twin (v : Nat) : Nat := 511 * 2 ^ 39 + v % 2 ^ 39

/-! ## Labelled kernel tables -/

/-- The kernel's tree with its labels, and the free frames beside it. -/
structure KernelTree (m : Machine) (own : Word → Option (Word × List Nat)) : Prop where
  owned : Owned m.tables own KernelInner
  nodup : m.head.Nodup
  aligned : ∀ f ∈ m.head, frame f = f
  free : ∀ f ∈ m.head, own f = none
  zeroed : ∀ f ∈ m.head, ∀ i, m.mem f i = 0

theorem KernelSpace.tree (space : m.KernelSpace) :
    m.KernelTree (label m.tables KernelInner m.pml4e) :=
  ⟨space.shaped.owned, space.nodup, space.aligned,
    fun f member => label_none.mpr (space.apart f member), space.zeroed⟩

theorem KernelSpace.root (space : m.KernelSpace) :
    label m.tables KernelInner m.pml4e m.pml4e = some (m.pml4e, []) :=
  space.shaped.label_some.mpr ⟨trivial, rfl⟩

theorem kernelInner_upper (v : Nat) : InnerPath KernelInner [] (upperPath v) := by
  have index (n : Nat) : (v >>> n) &&& 511 < 512 := index_lt v n
  exact ⟨⟨Nat.succ_pos 2, index _⟩, ⟨Nat.lt_succ_of_lt (Nat.lt_succ_self 1), index _⟩,
    ⟨Nat.lt_succ_self 2, index _⟩, trivial⟩

theorem mem_of_set {e : Word} (tables : m'.tables = m.tables.set t i e) (x : Word) (j : Nat) :
    m'.mem x j = if x = t ∧ j = i then e else m.mem x j := by
  change m'.tables.mem x j = _
  rw [tables, Tables.set_mem]
  rfl

/-- A frame is taken from the free list and entered in table `t`. -/
theorem linkKernel_some (ran : m.linkKernel t i = some (n, m')) :
    m.head = n :: m'.head ∧ m'.tables = m.tables.set t i (entry n 3) ∧ m'.pml4e = m.pml4e ∧
      m'.pdpte = m.pdpte := by
  unfold linkKernel getFreeFrame at ran
  cases list : m.head with
  | nil =>
    rw [list] at ran
    cases ran
  | cons first rest =>
    rw [list] at ran
    cases ran
    exact ⟨rfl, rfl, rfl, rfl⟩

/-- What a link to `n` leaves. -/
structure Linked (m : Machine) (own : Word → Option (Word × List Nat)) (t : Word) (i : Nat)
    (r : Word) (p : List Nat) (n : Word) (m' : Machine) : Prop where
  tree : m'.KernelTree (Function.update own n (some (r, p ++ [i])))
  fresh : own n = none
  blank : ∀ i, m.mem n i = 0
  tables : m'.tables = m.tables.set t i (entry n 3)
  leads : m.tables.target (entry n 3) = some n

theorem KernelTree.link (tree : m.KernelTree own) (serves : own t = some (r, p))
    (ran : m.linkKernel t i = some (n, m')) : Linked m own t i r p n m' := by
  obtain ⟨head, tables, _, _⟩ := linkKernel_some ran
  have member : n ∈ m.head := by simp [head]
  have later {f : Word} (inside : f ∈ m'.head) : f ∈ m.head := by simp [head, inside]
  have fresh := tree.free n member
  have leads : m.tables.target (entry n 3) = some n := by
    rw [target_entry, tree.aligned n member]
  have nodup := tree.nodup
  rw [head, List.nodup_cons] at nodup
  refine ⟨⟨?_, nodup.2, fun f inside => tree.aligned f (later inside), ?_, ?_⟩, fresh,
    tree.zeroed n member, tables, leads⟩
  · rw [tables]
    exact tree.owned.grow serves fresh (target_blank (tree.zeroed n member)) leads
  · intro f inside
    have other : f ≠ n := by
      rintro rfl
      exact nodup.1 inside
    rw [Function.update_of_ne other]
    exact tree.free f (later inside)
  · intro f inside j
    rw [mem_of_set tables, if_neg]
    · exact tree.zeroed f (later inside) j
    · rintro ⟨rfl, _⟩
      rw [tree.free f (later inside)] at serves
      cases serves

/-! ## The way down -/

/-- From table `t` along `path`, with a new table where there is none. -/
def kernelDescend : List Nat → Word → Machine → Option (Word × Machine)
  | [], t, m => some (t, m)
  | i :: path, t, m =>
    if present (m.mem t i) then kernelDescend path (frame (m.mem t i)) m
    else (m.linkKernel t i).bind fun (n, m) => kernelDescend path n m

/-- The way down has come to `g`, and no lookup finds anything new. -/
structure KernelDown (m : Machine) (own : Word → Option (Word × List Nat)) (t r : Word)
    (p path : List Nat) (g : Word) (m' : Machine) (own' : Word → Option (Word × List Nat)) :
    Prop where
  tree : m'.KernelTree own'
  serves : own' g = some (r, p ++ path)
  kept : ∀ x, own x ≠ none → own' x = own x
  reached : m'.tables.walk t path = some g
  above : ∀ x q j, own x = some (r, q) → q.length < p.length → m'.mem x j = m.mem x j
  lookups : ∀ s q rest l, own s = some (r, q) → InnerPath KernelInner q rest →
    q.length + rest.length = 3 → m'.tables.lookup s rest l = m.tables.lookup s rest l

theorem KernelTree.descend (tree : m.KernelTree own) (serves : own t = some (r, p))
    (inner : InnerPath KernelInner p path) (ran : kernelDescend path t m = some (g, m')) :
    ∃ own', KernelDown m own t r p path g m' own' := by
  induction path generalizing m t p own with
  | nil =>
    cases ran
    refine ⟨own, tree, ?_, fun _ _ => rfl, rfl, fun _ _ _ _ _ => rfl, fun _ _ _ _ _ _ _ => rfl⟩
    rwa [List.append_nil]
  | cons i path ih =>
    obtain ⟨short, inner⟩ := inner
    rw [kernelDescend] at ran
    split at ran
    next here =>
      have leads : m.tables.target (m.mem t i) = some (frame (m.mem t i)) := target_some here
      have child := tree.owned t r p i _ serves short leads
      obtain ⟨own', down⟩ := ih tree child inner ran
      have entry : m'.mem t i = m.mem t i := down.above t p i serves (by simp)
      refine ⟨own', down.tree, ?_, down.kept, ?_, ?_, down.lookups⟩
      · rw [down.serves, List.append_assoc]
        rfl
      · rw [Tables.walk_cons]
        change (m.tables.target (m'.mem t i)).bind _ = _
        rw [entry, leads]
        exact down.reached
      · intro x q j owns higher
        exact down.above x q j owns (by simp; omega)
    next absent =>
      obtain ⟨⟨n, m₁⟩, linked, ran⟩ := Option.bind_eq_some_iff.mp ran
      have link := tree.link serves linked
      obtain ⟨own', down⟩ := ih link.tree (Function.update_self ..) inner ran
      have old {x : Word} (owns : own x ≠ none) :
          Function.update own n (some (r, p ++ [i])) x = own x := by
        apply Function.update_of_ne
        rintro rfl
        exact owns link.fresh
      have owned : own t ≠ none := by simp [serves]
      -- Nothing further down writes to `t` again.
      have entry : m'.mem t i = entry n 3 := by
        rw [down.above t p i ((old owned).trans serves) (by simp), mem_of_set link.tables,
          if_pos ⟨rfl, rfl⟩]
      refine ⟨own', down.tree, ?_, ?_, ?_, ?_, ?_⟩
      · rw [down.serves, List.append_assoc]
        rfl
      · intro x owns
        rw [down.kept x (by rwa [old owns]), old owns]
      · rw [Tables.walk_cons]
        change (m.tables.target (m'.mem t i)).bind _ = _
        rw [entry, link.leads]
        exact down.reached
      · intro x q j owns higher
        rw [down.above x q j ((old (by simp [owns])).trans owns) (by simp; omega),
          mem_of_set link.tables, if_neg]
        rintro ⟨rfl, _⟩
        rw [serves] at owns
        cases owns
        omega
      · intro s q rest l owns inside deep
        rw [down.lookups s q rest l ((old (by simp [owns])).trans owns) inside deep, link.tables]
        have absent : present (m.mem t i) = false := by simpa using absent
        have short := short.1
        exact tree.owned.grow_lookup serves link.fresh (target_blank link.blank) link.leads
          (target_absent absent) owns inside (by omega)

/-- The leaf entry behind the way down. -/
def kernelEnter (v : Nat) (f : Word) (leaf : Word × Machine) : Machine :=
  leaf.2.write leaf.1 (ptIndex v) (entry f 3)

/-- The page of `v` has its new entry. -/
theorem KernelTree.enter_here (tree : m.KernelTree own) (root : own r = some (r, []))
    (ran : kernelDescend (upperPath v) r m = some (g, m')) (same : SamePage v v') :
    (kernelEnter v f (g, m')).translate r v' = some (entry f 3) := by
  obtain ⟨own', down⟩ := tree.descend root (kernelInner_upper v) ran
  have walks : (kernelEnter v f (g, m')).tables.walk r (upperPath v) = some g := by
    rw [← down.reached]
    have root' : own' r = some (r, []) := (down.kept r (by simp [root])).trans root
    have target : (kernelEnter v f (g, m')).tables.target = m'.tables.target := rfl
    refine down.tree.owned.walk_congr target root' (kernelInner_upper v) fun h q j rest split owns => ?_
    -- The walk does not look into the leaf table.
    refine congrFun (write_mem_of_ne m' g _ _ ?_) j
    rintro rfl
    rw [down.serves] at owns
    cases owns
    have length := congrArg List.length split
    simp [upperPath] at length
  have new : (kernelEnter v f (g, m')).mem g (ptIndex v) = entry f 3 := by
    rw [kernelEnter, write_mem, if_pos ⟨rfl, rfl⟩]
  unfold translate Tables.lookup
  rw [← same.1, ← same.2, walks]
  change ((kernelEnter v f (g, m')).tables.target ((kernelEnter v f (g, m')).mem g (ptIndex v))).map
    (fun _ => (kernelEnter v f (g, m')).mem g (ptIndex v)) = _
  rw [new, target_entry]
  rfl

/-- Every other page is as before. -/
theorem KernelTree.enter_others (tree : m.KernelTree own) (root : own r = some (r, []))
    (ran : kernelDescend (upperPath v) r m = some (g, m')) (apart : ¬SamePage v v') :
    (kernelEnter v f (g, m')).translate r v' = m.translate r v' := by
  obtain ⟨own', down⟩ := tree.descend root (kernelInner_upper v) ran
  have root' : own' r = some (r, []) := (down.kept r (by simp [root])).trans root
  have inner := kernelInner_upper v'
  have kept : (kernelEnter v f (g, m')).translate r v' = m'.translate r v' := by
    have target : (kernelEnter v f (g, m')).tables.target = m'.tables.target := rfl
    refine down.tree.owned.lookup_congr target root' inner fun h q j rest split owns => ?_
    refine (write_mem m' g _ _ h j).trans (if_neg ?_)
    rintro ⟨rfl, rfl⟩
    rw [down.serves] at owns
    cases owns
    -- The same table and entry belong to the same page.
    have parts := List.append_inj split rfl
    exact apart ⟨parts.1.symm, (List.cons.inj parts.2).1.symm⟩
  rw [kept]
  exact down.lookups r [] (upperPath v') (ptIndex v') root inner rfl

/-! ## The functions as ways down -/

theorem Linked.new_blank (link : Linked m own t i r p n m') (serves : own t = some (r, p))
    (j : Nat) : m'.mem n j = 0 := by
  rw [mem_of_set link.tables, if_neg]
  · exact link.blank j
  · rintro ⟨rfl, _⟩
    rw [link.fresh] at serves
    cases serves

/-- From a table without entries every step makes a new one. -/
theorem kernelDescend_new (blank : m.mem t i = 0) (path : List Nat) :
    kernelDescend (i :: path) t m =
      (m.linkKernel t i).bind fun (n, m) => kernelDescend path n m := by
  have absent : ¬present (m.mem t i) = true := by
    rw [blank]
    decide
  rw [kernelDescend, if_neg absent]

theorem KernelSpace.slot_here (space : m.KernelSpace) :
    present (m.mem m.pml4e 511) = true ∧ frame (m.mem m.pml4e 511) = m.pdpte := by
  obtain ⟨here, leads⟩ := target_isSome space.slot
  exact ⟨here, leads.symm⟩

/-- The static `pdpte` is the PDPT of slot 511. -/
theorem KernelSpace.pdpte_reached (space : m.KernelSpace) :
    m.tables.walk m.pml4e [511] = some m.pdpte := by
  rw [Tables.walk_cons]
  exact Option.bind_eq_some_iff.mpr ⟨m.pdpte, space.slot, rfl⟩

theorem inner_slot : InnerPath KernelInner [] [511] := ⟨⟨Nat.succ_pos 2, by decide⟩, trivial⟩

theorem KernelSpace.pdpte_serves (space : m.KernelSpace) :
    label m.tables KernelInner m.pml4e m.pdpte = some (m.pml4e, [511]) :=
  space.shaped.label_some.mpr ⟨inner_slot, space.pdpte_reached⟩

theorem mapNewFrameNew_eq (space : m.KernelSpace) (v : Nat) (f : Word)
    (absent : present (m.mem m.pml4e (pml4Index v)) = false) :
    m.mapNewFrameNew v f = (kernelDescend (upperPath v) m.pml4e m).map (kernelEnter v f) := by
  have none : ¬present (m.mem m.pml4e (pml4Index v)) = true := by simp [absent]
  rw [upperPath, kernelDescend, if_neg none, mapNewFrameNew]
  cases linked : m.linkKernel m.pml4e (pml4Index v) with
  | none => rfl
  | some first =>
    obtain ⟨n, m₁⟩ := first
    have link := space.tree.link space.root linked
    simp only [Option.bind_eq_bind, Option.bind_some]
    rw [kernelDescend_new (link.new_blank space.root _)]
    cases linked' : m₁.linkKernel n (pdptIndex v) with
    | none => rfl
    | some second =>
      obtain ⟨n', m₂⟩ := second
      have serves := Function.update_self n (some (m.pml4e, [pml4Index v]))
        (label m.tables KernelInner m.pml4e)
      have link' := link.tree.link serves linked'
      simp only [Option.bind_some]
      rw [kernelDescend_new (link'.new_blank serves _)]
      cases m₂.linkKernel n' (pdIndex v) <;> rfl

/-- The helper for a missing page directory, where it is missing behind `pdpte`. -/
theorem mapFreeFrameExistYes_eq (space : m.KernelSpace) (v : Nat) (f : Word)
    (absent : present (m.mem m.pdpte (pdptIndex v)) = false) :
    m.mapFreeFrameExistYes v f =
      (kernelDescend [pdptIndex v, pdIndex v] m.pdpte m).map (kernelEnter v f) := by
  have none : ¬present (m.mem m.pdpte (pdptIndex v)) = true := by simp [absent]
  rw [kernelDescend, if_neg none, mapFreeFrameExistYes]
  cases linked : m.linkKernel m.pdpte (pdptIndex v) with
  | none => rfl
  | some first =>
    obtain ⟨n, m₁⟩ := first
    have link := space.tree.link space.pdpte_serves linked
    simp only [Option.bind_eq_bind, Option.bind_some]
    rw [kernelDescend_new (link.new_blank space.pdpte_serves _)]
    cases m₁.linkKernel n (pdIndex v) <;> rfl

/-- The other helper, where the page directory is there. -/
theorem mapFreeFrameExistNo_eq (m : Machine) (v : Nat) (f : Word)
    (here : present (m.mem m.pdpte (pdptIndex v)) = true) :
    m.mapFreeFrameExistNo v f =
      (kernelDescend [pdptIndex v, pdIndex v] m.pdpte m).map (kernelEnter v f) := by
  rw [kernelDescend, if_pos here, mapFreeFrameExistNo, kernelDescend]
  dsimp only
  by_cases there : present (m.mem (frame (m.mem m.pdpte (pdptIndex v))) (pdIndex v)) = true
  · simp [there, kernelDescend, kernelEnter]
  · simp only [there]
    cases m.linkKernel (frame (m.mem m.pdpte (pdptIndex v))) (pdIndex v) <;> rfl

/-! ## Slot 511 -/

theorem twin_pml4Index (v : Nat) : pml4Index (twin v) = 511 := by
  rw [pml4Index, index_eq, twin]
  omega

theorem twin_lower (v : Nat) : pdptIndex (twin v) = pdptIndex v ∧ pdIndex (twin v) = pdIndex v ∧
    ptIndex (twin v) = ptIndex v := by
  simp only [pdptIndex, pdIndex, ptIndex, index_eq, twin]
  omega

theorem samePage_twin (slot : pml4Index v = 511) : SamePage (twin v) v := by
  obtain ⟨second, third, last⟩ := twin_lower v
  refine ⟨?_, last⟩
  rw [upperPath, upperPath, twin_pml4Index, second, third, slot]

/-- In slot 511 both tests and both helpers look at the same tables. -/
theorem KernelSpace.descend_twin (space : m.KernelSpace) (v : Nat) :
    kernelDescend (upperPath (twin v)) m.pml4e m =
      kernelDescend [pdptIndex v, pdIndex v] m.pdpte m := by
  obtain ⟨second, third, _⟩ := twin_lower v
  obtain ⟨here, leads⟩ := space.slot_here
  rw [upperPath, twin_pml4Index, second, third, kernelDescend, if_pos here, leads]

theorem kernelEnter_twin (v : Nat) (f : Word) : kernelEnter (twin v) f = kernelEnter v f := by
  funext leaf
  rw [kernelEnter, kernelEnter, (twin_lower v).2.2]

/-- Both helpers map the page in slot 511. -/
theorem KernelSpace.enter_twin (space : m.KernelSpace)
    (ran : (kernelDescend [pdptIndex v, pdIndex v] m.pdpte m).map (kernelEnter v f) = some m') :
    (∀ v', SamePage (twin v) v' → m'.translate m.pml4e v' = some (entry f 3)) ∧
      ∀ v', ¬SamePage (twin v) v' → m'.translate m.pml4e v' = m.translate m.pml4e v' := by
  obtain ⟨⟨g, m₁⟩, went, rfl⟩ := Option.map_eq_some_iff.mp ran
  rw [← space.descend_twin] at went
  rw [← kernelEnter_twin]
  exact ⟨fun _ same => space.tree.enter_here space.root went same,
    fun _ apart => space.tree.enter_others space.root went apart⟩

theorem kernelMapped_of_entry (aligned : frame f = f)
    (here : ∀ v', SamePage v v' → m'.translate m.pml4e v' = some (entry f 3))
    (others : ∀ v', ¬SamePage v v' → m'.translate m.pml4e v' = m.translate m.pml4e v') :
    KernelMapped m v f m' := by
  refine ⟨fun v' same => ?_, others⟩
  rw [physical, here v' same, Option.map_some, frame_entry f 3 (by decide), aligned]

/-! ## Other slots -/

theorem label_apart {x : Word} (apart : ¬Reaches m.tables KernelInner r x) {q : List Nat} :
    label m.tables KernelInner r x ≠ some (r, q) := by
  rw [label_none.mpr apart]
  exact nofun

/-- A lookup that only tables outside the tree could change. -/
theorem KernelSpace.translate_congr (space : m.KernelSpace) (v : Nat)
    (kept : ∀ h q j rest, upperPath v ++ [ptIndex v] = q ++ j :: rest →
      label m.tables KernelInner m.pml4e h = some (m.pml4e, q) → m'.mem h j = m.mem h j) :
    m'.translate m.pml4e v = m.translate m.pml4e v := by
  have target : m'.tables.target = m.tables.target := rfl
  exact space.tree.owned.lookup_congr target space.root (kernelInner_upper v) kept

/-- The helper for a missing page directory does not touch the page of another slot. -/
theorem KernelSpace.existYes_away (space : m.KernelSpace) (other : pml4Index v ≠ 511)
    (ran : m.mapFreeFrameExistYes v f = some m') :
    m'.translate m.pml4e v = m.translate m.pml4e v := by
  unfold mapFreeFrameExistYes at ran
  obtain ⟨⟨n, m₁⟩, linked, ran⟩ := Option.bind_eq_some_iff.mp ran
  obtain ⟨⟨n', m₂⟩, linked', ran⟩ := Option.bind_eq_some_iff.mp ran
  cases ran
  have serves := space.pdpte_serves
  have link := space.tree.link serves linked
  have serves' := Function.update_self n (some (m.pml4e, [511] ++ [pdptIndex v]))
    (label m.tables KernelInner m.pml4e)
  have link' := link.tree.link serves' linked'
  apply space.translate_congr
  intro h q j rest split owns
  -- The written tables are new, but for the PDPT of slot 511, by which the lookup does not come.
  have old : h ≠ n := by
    rintro rfl
    rw [link.fresh] at owns
    cases owns
  have old' : h ≠ n' := by
    rintro rfl
    have fresh := link'.fresh
    rw [Function.update_of_ne old, owns] at fresh
    cases fresh
  have away : h ≠ m.pdpte := by
    rintro rfl
    rw [serves] at owns
    cases owns
    exact other (List.cons.inj split).1
  change (m₂.write n' (ptIndex v) (entry f 3)).mem h j = m.mem h j
  rw [write_mem, if_neg fun both => old' both.1, mem_of_set link'.tables,
    if_neg fun both => old both.1, mem_of_set link.tables, if_neg fun both => away both.1]

/-- The other helper writes to frame 0 where slot 511 has no page directory. -/
theorem KernelSpace.existNo_first (space : m.KernelSpace)
    (absent : present (m.mem m.pdpte (pdptIndex v)) = false)
    (ran : m.mapFreeFrameExistNo v f = some m') (v' : Nat) :
    m'.translate m.pml4e v' = m.translate m.pml4e v' := by
  -- The helper takes the frame out of an entry that is 0.
  have zero : m.mem m.pdpte (pdptIndex v) = 0 := by
    apply space.unused _ ⟨[511], inner_slot, space.pdpte_reached⟩ _ _ absent
    exact index_lt v _
  have first : frame (0 : Word) = 0 := by decide
  have empty : present (0 : Word) = false := by decide
  unfold mapFreeFrameExistNo at ran
  simp only [zero, first, space.first.2, empty, Bool.not_false, if_true] at ran
  obtain ⟨⟨n, m₁⟩, linked, ran⟩ := Option.bind_eq_some_iff.mp ran
  cases ran
  obtain ⟨head, tables, _, _⟩ := linkKernel_some linked
  apply space.translate_congr
  intro h q j rest _ owns
  have old : h ≠ n := by
    rintro rfl
    exact label_apart (space.apart h (by simp [head])) owns
  have away : h ≠ 0 := by
    rintro rfl
    exact label_apart space.first.1 owns
  change (m₁.write n (ptIndex v) (entry f 3)).mem h j = m.mem h j
  rw [write_mem, if_neg fun both => old both.1, mem_of_set tables, if_neg fun both => away both.1]

/-! ## One page -/

theorem mapNewFrame_absent (v : Nat) (f : Word)
    (absent : present (m.mem m.pml4e (pml4Index v)) = false) :
    m.mapNewFrame v f = m.mapNewFrameNew v f := by
  simp [mapNewFrame, absent]

theorem mapNewFrame_there (v : Nat) (f : Word)
    (there : present (m.mem m.pml4e (pml4Index v)) = true) :
    m.mapNewFrame v f =
      if present (m.mem (frame (m.mem m.pml4e (pml4Index v))) (pdptIndex v)) then
        m.mapFreeFrameExistNo v f
      else m.mapFreeFrameExistYes v f := by
  cases here : present (m.mem (frame (m.mem m.pml4e (pml4Index v))) (pdptIndex v)) <;>
    simp [mapNewFrame, mapFreeFrameExist, there, here]

/-- The slot of the page is 511, or has no PDPT yet. -/
def OwnPath (m : Machine) (v : Nat) : Prop :=
  pml4Index v = 511 ∨ present (m.mem m.pml4e (pml4Index v)) = false

/-- The page is mapped to `f` already, and what the helpers do in slot 511 changes nothing there:
it has no page directory for the page with the same lower indices, or maps that page to `f` with
the same flags. -/
def NothingToDo (m : Machine) (v : Nat) (f : Word) : Prop :=
  m.physical m.pml4e v = some f ∧ (present (m.mem m.pdpte (pdptIndex v)) = false ∨
    m.translate m.pml4e (twin v) = some (entry f 3))

theorem KernelSpace.mapped_of_ownPath (space : m.KernelSpace) (aligned : frame f = f)
    (own : m.OwnPath v) (ran : m.mapNewFrame v f = some m') : KernelMapped m v f m' := by
  cases slot : present (m.mem m.pml4e (pml4Index v)) with
  | false =>
    rw [mapNewFrame_absent v f slot, mapNewFrameNew_eq space v f slot] at ran
    obtain ⟨⟨g, m₁⟩, went, rfl⟩ := Option.map_eq_some_iff.mp ran
    exact kernelMapped_of_entry aligned (fun _ => space.tree.enter_here space.root went)
      (fun _ => space.tree.enter_others space.root went)
  | true =>
    -- Here the test and the helpers look at the same PDPT.
    have top : pml4Index v = 511 := own.resolve_right (by simp [slot])
    rw [mapNewFrame_there v f slot, top, space.slot_here.2] at ran
    have down : (kernelDescend [pdptIndex v, pdIndex v] m.pdpte m).map (kernelEnter v f) =
        some m' := by
      split at ran
      next here => rwa [← mapFreeFrameExistNo_eq m v f here]
      next absent =>
        have absent : present (m.mem m.pdpte (pdptIndex v)) = false := by simpa using absent
        rwa [← mapFreeFrameExistYes_eq space v f absent]
    obtain ⟨mapped, others⟩ := space.enter_twin down
    have same := samePage_twin top
    apply kernelMapped_of_entry aligned
    · intro v' page
      exact mapped v' ⟨same.1.trans page.1, same.2.trans page.2⟩
    · intro v' apart
      exact others v' fun page => apart ⟨same.1.symm.trans page.1, same.2.symm.trans page.2⟩

theorem SamePage.translate (same : SamePage v v') (r : Word) :
    m.translate r v' = m.translate r v := by
  rw [Machine.translate, Machine.translate, same.1, same.2]

theorem not_samePage_twin (other : pml4Index v ≠ 511) : ¬SamePage (twin v) v := by
  intro same
  have top := (List.cons.inj same.1).1
  rw [twin_pml4Index] at top
  exact other top.symm

/-- Where the PDPT of the slot has no entry, the page stays unmapped. -/
theorem KernelSpace.unmapped (v : Nat)
    (absent : present (m.mem (frame (m.mem m.pml4e (pml4Index v))) (pdptIndex v)) = false)
    (there : present (m.mem m.pml4e (pml4Index v)) = true) : m.translate m.pml4e v = none := by
  have second := target_absent absent
  rw [translate, upperPath, Tables.lookup_cons]
  change (m.tables.target (m.mem m.pml4e (pml4Index v))).bind _ = none
  rw [target_some there, Option.bind_some, Tables.lookup_cons]
  change (m.tables.target (m.mem (frame (m.mem m.pml4e (pml4Index v))) (pdptIndex v))).bind _ = none
  rw [second]
  rfl

theorem KernelSpace.mapped_iff (space : m.KernelSpace) (away : ¬m.OwnPath v)
    (ran : m.mapNewFrame v f = some m') : KernelMapped m v f m' ↔ m.NothingToDo v f := by
  obtain ⟨other, slot⟩ := not_or.mp away
  rw [Bool.not_eq_false] at slot
  rw [mapNewFrame_there v f slot] at ran
  split at ran
  next here =>
    cases below : present (m.mem m.pdpte (pdptIndex v)) with
    | false =>
      -- The helper wrote to frame 0.
      have same := space.existNo_first below ran
      constructor
      · intro mapped
        have reached := mapped.here v (SamePage.refl v)
        rw [physical, same] at reached
        exact ⟨reached, Or.inl below⟩
      · intro idle
        refine ⟨fun v' page => ?_, fun v' _ => same v'⟩
        rw [physical, same, page.translate]
        exact idle.1
    | true =>
      -- The helper mapped the page with the same lower indices in slot 511.
      rw [mapFreeFrameExistNo_eq m v f below] at ran
      obtain ⟨mapped, others⟩ := space.enter_twin ran
      have own := others v (not_samePage_twin other)
      constructor
      · intro all
        have reached := all.here v (SamePage.refl v)
        rw [physical, own] at reached
        have before := all.others (twin v) fun page => not_samePage_twin other ⟨page.1.symm, page.2.symm⟩
        rw [mapped (twin v) (SamePage.refl _)] at before
        exact ⟨reached, Or.inr before.symm⟩
      · rintro ⟨reached, free | already⟩
        · rw [below] at free
          cases free
        · refine ⟨fun v' page => ?_, fun v' apart => ?_⟩
          · rw [physical, page.translate, own]
            exact reached
          · by_cases page : SamePage (twin v) v'
            · rw [mapped v' page, page.translate, already]
            · exact others v' page
  next absent =>
    have absent : present (m.mem (frame (m.mem m.pml4e (pml4Index v))) (pdptIndex v)) = false := by
      simpa using absent
    have unmapped := KernelSpace.unmapped v absent slot
    have same := space.existYes_away other ran
    constructor
    · intro mapped
      have reached := mapped.here v (SamePage.refl v)
      rw [physical, same, unmapped] at reached
      cases reached
    · rintro ⟨reached, _⟩
      rw [physical, unmapped] at reached
      cases reached

/-! ## Frames -/

theorem linkKernel_cons {rest : List Word} (head : m.head = n :: rest) :
    m.linkKernel t i = some (n, { m.write t i (entry n 3) with
      head := rest, refCount := Function.update m.refCount n 1 }) := by
  unfold linkKernel getFreeFrame
  rw [head]
  rfl

theorem linkKernel_returns (m : Machine) (t : Word) (i : Nat) (some : 0 < m.head.length) :
    ∃ n m', m.linkKernel t i = Option.some (n, m') ∧ m'.head.length + 1 = m.head.length := by
  cases list : m.head with
  | nil => simp [list] at some
  | cons n rest => exact ⟨n, _, linkKernel_cons list, rfl⟩

/-- The helpers take a frame for each table that they make. -/
theorem mapNewFrame_returns (v : Nat) (f : Word) (enough : 3 ≤ m.head.length) :
    ∃ m', m.mapNewFrame v f = some m' := by
  cases slot : present (m.mem m.pml4e (pml4Index v)) with
  | false =>
    obtain ⟨n, m₁, first, left⟩ := linkKernel_returns m m.pml4e (pml4Index v) (by omega)
    obtain ⟨n', m₂, second, left'⟩ := linkKernel_returns m₁ n (pdptIndex v) (by omega)
    obtain ⟨n'', m₃, third, _⟩ := linkKernel_returns m₂ n' (pdIndex v) (by omega)
    rw [mapNewFrame_absent v f slot]
    simp [mapNewFrameNew, first, second, third]
  | true =>
    rw [mapNewFrame_there v f slot]
    split
    · obtain ⟨n, m₁, link, _⟩ :=
        linkKernel_returns m (frame (m.mem m.pdpte (pdptIndex v))) (pdIndex v) (by omega)
      unfold mapFreeFrameExistNo
      dsimp only
      split
      · simp [link]
      · exact ⟨_, rfl⟩
    · obtain ⟨n, m₁, first, left⟩ := linkKernel_returns m m.pdpte (pdptIndex v) (by omega)
      obtain ⟨n', m₂, second, _⟩ := linkKernel_returns m₁ n (pdIndex v) (by omega)
      simp [mapFreeFrameExistYes, first, second]

/-- `mapNewFrame` returns when there are frames for the three tables that can be missing, and it
maps the page, and no other, exactly when the page is one of slot 511 or of a slot without a PDPT,
or when there was nothing to do. -/
theorem mapNewFrame_iff (space : m.KernelSpace) (v : Nat) (aligned : frame f = f) :
    (3 ≤ m.head.length → ∃ m', m.mapNewFrame v f = some m') ∧
      ∀ m', m.mapNewFrame v f = some m' →
        (KernelMapped m v f m' ↔ m.OwnPath v ∨ m.NothingToDo v f) := by
  refine ⟨mapNewFrame_returns v f, fun m' ran => ?_⟩
  by_cases own : m.OwnPath v
  · exact iff_of_true (space.mapped_of_ownPath aligned own ran) (Or.inl own)
  · rw [space.mapped_iff own ran]
    exact (or_iff_right own).symm

/-! ## A kernel with two slots -/

/-- The boot tables, and page 0 of slot 0 behind three new tables. -/
def slotMachine : Machine :=
  { (((bootMachine.write 0x1000 0 (entry 0x10000 3)).write 0x10000 0 (entry 0x11000 3)).write 0x11000 0
      (entry 0x12000 3)).write 0x12000 0 (entry 0x9000 3) with
    head := bootMachine.head.drop 3
    refCount := Function.update (Function.update (Function.update bootMachine.refCount 0x10000 1)
      0x11000 1) 0x12000 1 }

theorem bootMachine_first :
    bootMachine.head = 0x10000 :: 0x11000 :: 0x12000 :: bootMachine.head.drop 3 := by
  decide +kernel

theorem slotMachine_made : bootMachine.mapNewFrame 0 0x9000 = some slotMachine := by
  rw [mapNewFrame_absent 0 0x9000 (by decide), mapNewFrameNew, linkKernel_cons bootMachine_first]
  dsimp only [Option.bind_eq_bind, Option.bind_some]
  rw [linkKernel_cons (n := 0x11000) rfl]
  dsimp only [Option.bind_eq_bind, Option.bind_some]
  rw [linkKernel_cons (n := 0x12000) rfl]
  rfl

theorem slotMachine_mem (t : Word) (i : Nat) : slotMachine.mem t i =
    if t = 0x12000 ∧ i = 0 then entry 0x9000 3
    else if t = 0x11000 ∧ i = 0 then entry 0x12000 3
    else if t = 0x10000 ∧ i = 0 then entry 0x11000 3
    else if t = 0x1000 ∧ i = 0 then entry 0x10000 3
    else bootMemory t i := by
  unfold slotMachine
  simp only [write_mem]
  rfl

def slotOwn (t : Word) : Option (Word × List Nat) :=
  if t = 0x1000 then some (0x1000, [])
  else if t = 0x2000 then some (0x1000, [511])
  else if t = 0x3000 then some (0x1000, [511, 510])
  else if t = 0x4000 then some (0x1000, [511, 510, 0])
  else if t = 0x10000 then some (0x1000, [0])
  else if t = 0x11000 then some (0x1000, [0, 0])
  else if t = 0x12000 then some (0x1000, [0, 0, 0])
  else none

theorem slotOwn_cases (owns : slotOwn t = some (r, p)) : r = 0x1000 ∧
    (t = 0x1000 ∧ p = [] ∨ t = 0x2000 ∧ p = [511] ∨ t = 0x3000 ∧ p = [511, 510] ∨
      t = 0x4000 ∧ p = [511, 510, 0] ∨ t = 0x10000 ∧ p = [0] ∨ t = 0x11000 ∧ p = [0, 0] ∨
      t = 0x12000 ∧ p = [0, 0, 0]) := by
  unfold slotOwn at owns
  split_ifs at owns <;> cases owns <;> simp_all

/-- An upper table has nothing but its links, and a link is one below in the tree. -/
theorem slotMachine_upper (owns : slotOwn t = some (r, p)) (deep : p.length < 3) (i : Nat) :
    slotMachine.mem t i = 0 ∨ ∃ n, slotMachine.mem t i = entry n 3 ∧ frame (entry n 3) = n ∧
      slotOwn n = some (r, p ++ [i]) := by
  rw [slotMachine_mem]
  obtain ⟨rfl, ⟨rfl, rfl⟩ | ⟨rfl, rfl⟩ | ⟨rfl, rfl⟩ | ⟨rfl, rfl⟩ | ⟨rfl, rfl⟩ | ⟨rfl, rfl⟩ |
    ⟨rfl, rfl⟩⟩ := slotOwn_cases owns
  · by_cases zero : i = 0
    · subst zero
      exact Or.inr ⟨0x10000, rfl, rfl, rfl⟩
    · by_cases last : i = 511
      · subst last
        exact Or.inr ⟨0x2000, rfl, rfl, rfl⟩
      · left
        simp [bootMemory, zero, last]
  · by_cases here : i = 510
    · subst here
      exact Or.inr ⟨0x3000, rfl, rfl, rfl⟩
    · simp [bootMemory, here]
  · by_cases here : i = 0
    · subst here
      exact Or.inr ⟨0x4000, rfl, rfl, rfl⟩
    · simp [bootMemory, here]
  · simp at deep
  · by_cases here : i = 0
    · subst here
      exact Or.inr ⟨0x11000, rfl, rfl, rfl⟩
    · simp [bootMemory, here]
  · by_cases here : i = 0
    · subst here
      exact Or.inr ⟨0x12000, rfl, rfl, rfl⟩
    · simp [bootMemory, here]
  · simp at deep

theorem slot_owned : Owned slotMachine.tables slotOwn KernelInner := by
  intro t r p i g owns inner leads
  obtain ⟨here, rfl⟩ := target_isSome leads
  change present (slotMachine.mem t i) = true at here
  change slotOwn (frame (slotMachine.mem t i)) = _
  rcases slotMachine_upper owns inner.1 i with zero | ⟨n, e, own, below⟩
  · rw [zero] at here
    cases here
  · rw [e, own]
    exact below

theorem slot_reaches (reached : Reaches slotMachine.tables KernelInner 0x1000 t) :
    ∃ p, slotOwn t = some (0x1000, p) := by
  obtain ⟨path, inner, walk⟩ := reached
  exact ⟨_, slot_owned.walk rfl inner walk⟩

theorem slotMachine_free (member : f ∈ slotMachine.head) :
    65536 ≤ f.toNat ∧ f ∉ [(0x10000 : Word), 0x11000, 0x12000] := by
  have rest : f ∈ bootMachine.head.drop 3 := member
  constructor
  · by_contra below
    exact bootMachine_low (by omega) (List.mem_of_mem_drop rest)
  · have apart : ([0x10000, 0x11000, 0x12000] ++ bootMachine.head.drop 3).Nodup :=
      bootMachine_first ▸ bootMachine_sound.nodup
    exact fun first => (List.nodup_append.mp apart).2.2 f first f rest rfl

theorem slotMachine_space : slotMachine.KernelSpace := by
  have free {f : Word} (member : f ∈ slotMachine.head) : slotOwn f = none := by
    have apart := slotMachine_free member
    cases owns : slotOwn f with
    | none => rfl
    | some o =>
      obtain ⟨_, ⟨rfl, _⟩ | ⟨rfl, _⟩ | ⟨rfl, _⟩ | ⟨rfl, _⟩ | ⟨rfl, _⟩ | ⟨rfl, _⟩ | ⟨rfl, _⟩⟩ :=
        slotOwn_cases owns <;> exact absurd apart (by decide)
  constructor
  · exact slot_owned.unshared rfl
  · change slotMachine.tables.target (slotMachine.mem 0x1000 511) = some 0x2000
    rw [slotMachine_mem]
    decide
  · exact bootMachine_sound.nodup.sublist (List.drop_sublist 3 _)
  · exact fun f member => bootMachine_sound.aligned f (List.mem_of_mem_drop member)
  · intro f member reached
    obtain ⟨p, owns⟩ := slot_reaches reached
    rw [free member] at owns
    cases owns
  · intro f member i
    have apart := slotMachine_free member
    have other {x : Word} (used : ¬(65536 ≤ x.toNat ∧ x ∉ [(0x10000 : Word), 0x11000, 0x12000])) :
        f ≠ x := by
      rintro rfl
      exact used apart
    rw [slotMachine_mem]
    simp [bootMemory, other]
  · intro t reached i _ absent
    obtain ⟨p, owns⟩ := slot_reaches reached
    by_cases deep : p.length < 3
    · rcases slotMachine_upper owns deep i with zero | ⟨n, e, -, -⟩
      · exact zero
      · have here := (target_isSome (target_entry slotMachine n)).1
        rw [e, here] at absent
        cases absent
    -- The page table of slot 511 is full, and that of slot 0 has its first entry only.
    · obtain ⟨_, ⟨_, rfl⟩ | ⟨_, rfl⟩ | ⟨_, rfl⟩ | ⟨rfl, _⟩ | ⟨_, rfl⟩ | ⟨_, rfl⟩ | ⟨rfl, _⟩⟩ :=
        slotOwn_cases owns
      · simp at deep
      · simp at deep
      · simp at deep
      · have here := (target_isSome (target_entry slotMachine (BitVec.ofNat 64 (4096 * i)))).1
        have entry : slotMachine.mem 0x4000 i = entry (BitVec.ofNat 64 (4096 * i)) 3 := by
          rw [slotMachine_mem, if_neg (by simp), if_neg (by simp), if_neg (by simp),
            if_neg (by simp), bootMemory_pt]
        rw [entry, here] at absent
        cases absent
      · simp at deep
      · simp at deep
      · by_cases first : i = 0
        · subst first
          rw [slotMachine_mem] at absent
          exact absurd absent (by decide)
        · simp [slotMachine_mem, bootMemory, first]
  · refine ⟨fun reached => ?_, fun i => ?_⟩
    · obtain ⟨p, owns⟩ := slot_reaches reached
      cases owns
    · rw [slotMachine_mem]
      simp [bootMemory]

theorem mapNewFrame_of_new_slot : ∃ m', slotMachine.mapNewFrame (2 ^ 39) 0xA000 = some m' ∧
    (KernelMapped slotMachine (2 ^ 39) 0xA000 m' ↔
      slotMachine.OwnPath (2 ^ 39) ∨ slotMachine.NothingToDo (2 ^ 39) 0xA000) := by
  obtain ⟨returns, exact⟩ := mapNewFrame_iff slotMachine_space (2 ^ 39) (f := 0xA000) (by decide)
  obtain ⟨m', ran⟩ := returns (by decide)
  exact ⟨m', ran, exact m' ran⟩

/-- Page 0 is mapped in the slot that was new, and the page behind it stays unmapped. -/
theorem slot_zero_unmapped : bootMachine.mapNewFrame 0 0x9000 = some slotMachine ∧
    slotMachine.KernelSpace ∧ ∃ m', slotMachine.mapNewFrame 0x1000 0xA000 = some m' ∧
      ¬KernelMapped slotMachine 0x1000 0xA000 m' := by
  obtain ⟨m', ran⟩ := mapNewFrame_returns (m := slotMachine) 0x1000 0xA000 (by decide)
  refine ⟨slotMachine_made, slotMachine_space, m', ran, fun mapped => ?_⟩
  have slot : slotMachine.mem 0x1000 0 = entry 0x10000 3 := by
    rw [slotMachine_mem]
    rfl
  have away : ¬slotMachine.OwnPath 0x1000 := by
    rintro (top | absent)
    · exact absurd top (by decide)
    · change present (slotMachine.mem 0x1000 0) = false at absent
      rw [slot] at absent
      exact absurd absent (by decide)
  have reached := ((slotMachine_space.mapped_iff away ran).mp mapped).1
  have absent : slotMachine.physical 0x1000 0x1000 = none := by decide +kernel
  rw [show slotMachine.pml4e = 0x1000 from rfl, absent] at reached
  cases reached
end Machine
end LateOS
