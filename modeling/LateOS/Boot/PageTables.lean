import LateOS.Memory.Sound

/-!
# The page tables of the kernel

`setupPageTables` maps physical memory at `kernbase`, and behind it, through whatever leaf table
is then current, the tables themselves.
-/
namespace LateOS

open Lib

/-- What the static pointers hold in the end: the physical address for CR3, and the virtual
addresses of the tables. -/
structure KernelTables where
  k_cr3 : Word
  pml4e : Nat
  pdpte : Nat
  pde : Nat
  pte : Nat

namespace Machine

variable (m : Machine)

/-- The body of the loop over physical memory; a new leaf table begins every 512 pages. -/
def mapDirect (pde : Word) (physbase : Nat) (i : Nat) : Word × Machine → Option (Word × Machine)
  | (pte, m) =>
    let virtual := kernbase + 4096 * i
    let page := entry (BitVec.ofNat 64 (physbase + 4096 * i)) 3
    -- At the start of each 2 MiB a new leaf table is entered, the first time over the one that
    -- `setupPageTables` put there.
    if ptIndex virtual ≠ 0 then some (pte, m.write pte (ptIndex virtual) page)
    else do
      let (pte, m) ← m.getFreeFrame
      some (pte, (m.write pde (pdIndex virtual) (entry pte 3)).write pte (ptIndex virtual) page)

def mapCurrentPageTable (pte : Word) (virtual num : Nat) (physical : Word) : Nat × Machine :=
  let virtual := virtual + num * 4096
  -- Only the index within the current leaf table counts, whatever the address.
  (virtual, m.write pte (ptIndex virtual) (entry physical 3))

/-- The tables are written through their physical addresses. -/
def setupPageTables (physbase physfree : Nat) : Option (KernelTables × Machine) := do
  let (pml4, m) ← m.getFreeFrame
  let (pdpt, m) ← m.getFreeFrame
  let m := m.write pml4 (pml4Index kernbase) (entry pdpt 3)
  let (pd, m) ← m.getFreeFrame
  let m := m.write pdpt (pdptIndex kernbase) (entry pd 3)
  let (pt, m) ← m.getFreeFrame
  let m := m.write pd (pdIndex kernbase) (entry pt 3)
  -- The rounds of `while (physbase < physfree)`.
  let pages := (physfree - physbase + 4095) / 4096
  let (pt, m) ← loop pages (mapDirect pd physbase) (pt, m)
  let virtual := kernbase + 4096 * pages
  let (pml4e, m) := m.mapCurrentPageTable pt virtual 1 pml4
  let (pdpte, m) := m.mapCurrentPageTable pt virtual 2 pdpt
  let (pde, m) := m.mapCurrentPageTable pt virtual 3 pd
  let (pte, m) := m.mapCurrentPageTable pt virtual 4 pt
  some (⟨pml4, pml4e, pdpte, pde, pte⟩, { m with pml4e := pml4, pdpte := pdpt })

/-- Where an address leads. -/
def physical (r : Word) (v : Nat) : Option Word := (m.translate r v).map frame

end Machine

/-! ## Addresses of the direct map -/

section

variable {k : Nat}

theorem direct_pml4Index (low : k < 2 ^ 19) : pml4Index (kernbase + 4096 * k) = 511 := by
  rw [pml4Index, index_eq, kernbase]
  omega

theorem direct_pdptIndex (low : k < 2 ^ 18) : pdptIndex (kernbase + 4096 * k) = 510 := by
  rw [pdptIndex, index_eq, kernbase]
  omega

theorem above_pdptIndex (high : 2 ^ 18 ≤ k) (low : k < 2 ^ 19) :
    pdptIndex (kernbase + 4096 * k) = 511 := by
  rw [pdptIndex, index_eq, kernbase]
  omega

theorem direct_pdIndex (low : k < 2 ^ 18) : pdIndex (kernbase + 4096 * k) = k / 512 := by
  rw [pdIndex, index_eq, kernbase]
  omega

theorem direct_ptIndex (k : Nat) : ptIndex (kernbase + 4096 * k) = k % 512 := by
  rw [ptIndex, index_eq, kernbase]
  omega

end

namespace Machine

variable {m : Machine} {pml4 pdpt pd pt f : Word} {tables : List Word} {pages k : Nat}

/-- The upper tables, with the leaf tables of a direct map in order. -/
structure Upper (m : Machine) (pml4 pdpt pd : Word) (tables : List Word) : Prop where
  nodup : (pml4 :: pdpt :: pd :: (tables ++ m.head)).Nodup
  aligned : ∀ f ∈ pml4 :: pdpt :: pd :: (tables ++ m.head), frame f = f
  blank : ∀ f ∈ m.head, ∀ j, m.mem f j = 0
  top : m.mem pml4 511 = entry pdpt 3
  second : ∀ j, m.mem pdpt j = if j = 510 then entry pd 3 else 0
  third : ∀ j t, tables[j]? = some t → m.mem pd j = entry t 3
  beyond : ∀ j, tables.length ≤ j → j ≠ 0 → m.mem pd j = 0

/-- The first `pages` pages are mapped. -/
def Leaves (m : Machine) (tables : List Word) (pages : Nat) : Prop :=
  ∀ k < pages, ∃ t, tables[k / 512]? = some t ∧
    m.mem t (k % 512) = entry (BitVec.ofNat 64 (4096 * k)) 3

theorem Upper.pdpt_ne (upper : Upper m pml4 pdpt pd tables) : pml4 ≠ pdpt ∧ pml4 ≠ pd ∧ pdpt ≠ pd := by
  have nodup := upper.nodup
  simp only [List.nodup_cons, List.mem_cons, not_or] at nodup
  exact ⟨nodup.1.1, nodup.1.2.1, nodup.2.1.1⟩

/-- A leaf table is none of the upper tables. -/
theorem Upper.leaf_ne (upper : Upper m pml4 pdpt pd tables) (member : pt ∈ tables ++ m.head) :
    pt ≠ pml4 ∧ pt ≠ pdpt ∧ pt ≠ pd := by
  have nodup := upper.nodup
  simp only [List.nodup_cons, List.mem_cons, not_or] at nodup
  refine ⟨?_, ?_, ?_⟩
  · rintro rfl
    exact nodup.1.2.2 member
  · rintro rfl
    exact nodup.2.1.2 member
  · rintro rfl
    exact nodup.2.2.1 member

theorem Upper.tables_nodup (upper : Upper m pml4 pdpt pd tables) : (tables ++ m.head).Nodup := by
  have nodup := upper.nodup
  simp only [List.nodup_cons] at nodup
  exact nodup.2.2.2

theorem target_entry (m : Machine) (f : Word) : m.tables.target (entry f 3) = some (frame f) := by
  simp [Machine.tables]

theorem target_zero (m : Machine) : m.tables.target 0#64 = none := by simp [Machine.tables]

/-- The walk of the hardware as far as the page directory. -/
theorem Upper.walk_pdpt (upper : Upper m pml4 pdpt pd tables) :
    m.tables.target (m.tables.mem pml4 511) = some pdpt := by
  change m.tables.target (m.mem pml4 511) = some pdpt
  rw [upper.top, target_entry, upper.aligned pdpt (by simp)]

theorem Upper.walk_pd (upper : Upper m pml4 pdpt pd tables) :
    m.tables.target (m.tables.mem pdpt 510) = some pd := by
  change m.tables.target (m.mem pdpt 510) = some pd
  rw [upper.second, if_pos rfl, target_entry, upper.aligned pd (by simp)]

theorem Upper.walk_leaf (upper : Upper m pml4 pdpt pd tables) {j : Nat}
    (here : tables[j]? = some pt) : m.tables.target (m.tables.mem pd j) = some pt := by
  have member : pt ∈ tables := List.mem_of_getElem? here
  change m.tables.target (m.mem pd j) = some pt
  rw [upper.third j pt here, target_entry, upper.aligned pt (by simp [member])]

/-- The hardware looks up a page below 1 GiB in the leaf table of its 2 MiB. -/
theorem Upper.translate_leaf (upper : Upper m pml4 pdpt pd tables) (low : k < 2 ^ 18)
    (here : tables[k / 512]? = some pt) :
    m.translate pml4 (kernbase + 4096 * k) =
      if present (m.mem pt (k % 512)) then some (m.mem pt (k % 512)) else none := by
  have low' : k < 2 ^ 19 := by omega
  unfold translate upperPath
  rw [direct_pml4Index low', direct_pdptIndex low, direct_pdIndex low, direct_ptIndex,
    Tables.lookup_cons, upper.walk_pdpt, Option.bind_some, Tables.lookup_cons, upper.walk_pd,
    Option.bind_some, Tables.lookup_cons, upper.walk_leaf here, Option.bind_some,
    Tables.lookup_nil]
  change ((if present (m.mem pt (k % 512)) then some (frame (m.mem pt (k % 512))) else none).map
    fun _ => m.mem pt (k % 512)) = _
  split <;> rfl

theorem Upper.walk_upper (upper : Upper m pml4 pdpt pd tables) (low : k < 2 ^ 18)
    (here : tables[k / 512]? = some pt) :
    m.tables.walk pml4 (upperPath (kernbase + 4096 * k)) = some pt := by
  have low' : k < 2 ^ 19 := by omega
  unfold upperPath
  rw [direct_pml4Index low', direct_pdptIndex low, direct_pdIndex low, Tables.walk_cons,
    upper.walk_pdpt, Option.bind_some, Tables.walk_cons, upper.walk_pd, Option.bind_some,
    Tables.walk_cons, upper.walk_leaf here]
  rfl

/-- No table has been entered for the pages behind. -/
theorem Upper.translate_beyond (upper : Upper m pml4 pdpt pd tables) (low : k < 2 ^ 19)
    (beyond : tables.length ≤ k / 512) (some : tables ≠ []) :
    m.translate pml4 (kernbase + 4096 * k) = none := by
  have nonempty : 0 < tables.length := List.length_pos_iff.mpr some
  unfold translate upperPath
  rw [direct_pml4Index low, Tables.lookup_cons, upper.walk_pdpt, Option.bind_some,
    Tables.lookup_cons]
  -- Behind 1 GiB the walk fails in the PDPT, before it in the page directory.
  by_cases high : 2 ^ 18 ≤ k
  · have absent : m.tables.target (m.tables.mem pdpt 511) = none := by
      change m.tables.target (m.mem pdpt 511) = none
      rw [upper.second, if_neg (by decide)]
      exact target_zero m
    rw [above_pdptIndex high low, absent, Option.bind_none]
  · have low' : k < 2 ^ 18 := Nat.lt_of_not_le high
    have absent : m.tables.target (m.tables.mem pd (k / 512)) = none := by
      change m.tables.target (m.mem pd (k / 512)) = none
      rw [upper.beyond (k / 512) beyond (by omega)]
      exact target_zero m
    rw [direct_pdptIndex low', upper.walk_pd, Option.bind_some, Tables.lookup_cons,
      direct_pdIndex low', absent, Option.bind_none]

/-! ## Writes -/

/-- A write to a leaf table. -/
theorem Upper.write_leaf (upper : Upper m pml4 pdpt pd tables) (member : pt ∈ tables) (i : Nat)
    (e : Word) : Upper (m.write pt i e) pml4 pdpt pd tables := by
  obtain ⟨one, two, three⟩ := upper.leaf_ne (List.mem_append_left m.head member)
  refine ⟨upper.nodup, upper.aligned, fun f free j => ?_, ?_, fun j => ?_, fun j t here => ?_,
    fun j beyond other => ?_⟩
  · have apart : f ≠ pt := by
      rintro rfl
      exact (List.nodup_append.mp upper.tables_nodup).2.2 f member f free rfl
    rw [write_mem_of_ne m pt i e apart]
    exact upper.blank f free j
  · rw [write_mem_of_ne m pt i e (Ne.symm one)]
    exact upper.top
  · rw [write_mem_of_ne m pt i e (Ne.symm two)]
    exact upper.second j
  · rw [write_mem_of_ne m pt i e (Ne.symm three)]
    exact upper.third j t here
  · rw [write_mem_of_ne m pt i e (Ne.symm three)]
    exact upper.beyond j beyond other

theorem Upper.tables_inj (upper : Upper m pml4 pdpt pd tables) {i j : Nat} {t : Word}
    (first : tables[i]? = some t) (second : tables[j]? = some t) : i = j := by
  have nodup := (List.nodup_append.mp upper.tables_nodup).1
  obtain ⟨boundI, atI⟩ := List.getElem?_eq_some_iff.mp first
  obtain ⟨boundJ, atJ⟩ := List.getElem?_eq_some_iff.mp second
  exact (nodup.getElem_inj_iff).mp (atI.trans atJ.symm)

/-- A write to a leaf entry that maps none of the pages. -/
theorem Leaves.write (leaves : Leaves m tables pages) (upper : Upper m pml4 pdpt pd tables)
    {j i : Nat} (here : tables[j]? = some pt) (e : Word)
    (apart : ∀ k < pages, ¬(k / 512 = j ∧ k % 512 = i)) :
    Leaves (m.write pt i e) tables pages := by
  intro k below
  obtain ⟨t, at_k, mapped⟩ := leaves k below
  refine ⟨t, at_k, ?_⟩
  rw [write_mem, if_neg]
  · exact mapped
  · rintro ⟨rfl, index⟩
    exact apart k below ⟨upper.tables_inj at_k here, index⟩

/-- The page behind the last one. -/
theorem Leaves.next (leaves : Leaves m tables pages) (upper : Upper m pml4 pdpt pd tables)
    (here : tables[pages / 512]? = some pt) :
    Leaves (m.write pt (pages % 512) (entry (BitVec.ofNat 64 (4096 * pages)) 3)) tables
      (pages + 1) := by
  intro k below
  by_cases last : k = pages
  · subst last
    exact ⟨pt, here, by rw [write_mem, if_pos ⟨rfl, rfl⟩]⟩
  · exact leaves.write upper here _ (fun l before same => by omega) k (by omega)

/-- The machine when the first free frame has been taken. -/
def withoutFirst (m : Machine) (f : Word) (rest : List Word) : Machine :=
  { m with head := rest, refCount := Function.update m.refCount f 1 }

theorem getFreeFrame_cons {rest : List Word} (head : m.head = f :: rest) :
    m.getFreeFrame = some (f, m.withoutFirst f rest) := by
  unfold getFreeFrame
  rw [head]
  rfl

/-- A new leaf table. -/
theorem Upper.grow (upper : Upper m pml4 pdpt pd tables) {rest : List Word}
    (head : m.head = f :: rest) :
    Upper ((m.withoutFirst f rest).write pd tables.length (entry f 3)) pml4 pdpt pd
      (tables ++ [f]) := by
  obtain ⟨one, two, three⟩ := upper.pdpt_ne
  have same : tables ++ [f] ++ rest = tables ++ m.head := by
    rw [head, List.append_assoc]
    rfl
  have mem (x : Word) (j : Nat) : ((m.withoutFirst f rest).write pd tables.length (entry f 3)).mem
      x j = if x = pd ∧ j = tables.length then entry f 3 else m.mem x j := write_mem _ _ _ _ _ _
  refine ⟨?_, ?_, fun g free j => ?_, ?_, fun j => ?_, fun j t here => ?_, fun j beyond other => ?_⟩
  · change (pml4 :: pdpt :: pd :: (tables ++ [f] ++ rest)).Nodup
    rw [same]
    exact upper.nodup
  · change ∀ g ∈ pml4 :: pdpt :: pd :: (tables ++ [f] ++ rest), frame g = g
    rw [same]
    exact upper.aligned
  · have old : g ∈ m.head := head ▸ List.mem_cons_of_mem f free
    have apart := (upper.leaf_ne (List.mem_append_right tables old)).2.2
    rw [mem, if_neg fun both => apart both.1]
    exact upper.blank g old j
  · rw [mem, if_neg fun both => two both.1]
    exact upper.top
  · rw [mem, if_neg fun both => three both.1]
    exact upper.second j
  · rw [mem]
    -- The entry just written, or one of the old leaf tables.
    by_cases last : j = tables.length
    · subst last
      rw [List.getElem?_concat_length] at here
      cases here
      rw [if_pos ⟨rfl, rfl⟩]
    · rw [if_neg fun both => last both.2]
      have before : j < tables.length := by
        have bound := (List.getElem?_eq_some_iff.mp here).1
        rw [List.length_append, List.length_singleton] at bound
        omega
      rw [List.getElem?_append_left before] at here
      exact upper.third j t here
  · rw [List.length_append, List.length_singleton] at beyond
    rw [mem, if_neg fun both => by omega]
    exact upper.beyond j (by omega) other

theorem Leaves.grow (leaves : Leaves m tables pages) (upper : Upper m pml4 pdpt pd tables)
    (rest : List Word) (j : Nat) (e : Word) :
    Leaves ((m.withoutFirst f rest).write pd j e) (tables ++ [f]) pages := by
  intro k below
  obtain ⟨t, here, mapped⟩ := leaves k below
  have bound := (List.getElem?_eq_some_iff.mp here).1
  refine ⟨t, ?_, ?_⟩
  · rw [List.getElem?_append_left bound]
    exact here
  · have apart : t ≠ pd := (upper.leaf_ne (List.mem_append_left _ (List.mem_of_getElem? here))).2.2
    rw [write_mem_of_ne _ _ _ _ apart]
    exact mapped

/-! ## The loop -/

/-- After `pages` rounds, with `pt` the current leaf table; `total` counts the leaf tables and
the frames that are left. -/
structure Direct (pml4 pdpt pd : Word) (total pages : Nat) (pt : Word) (m : Machine)
    (tables : List Word) : Prop where
  upper : Upper m pml4 pdpt pd tables
  leaves : Leaves m tables pages
  count : tables.length = (pages + 511) / 512
  current : 0 < pages → tables.getLast? = some pt
  total : tables.length + m.head.length = total

variable {total : Nat}

theorem Direct.last (direct : Direct pml4 pdpt pd total pages pt m tables) (some : 0 < pages) :
    tables[(pages - 1) / 512]? = .some pt := by
  have last := direct.current some
  have count := direct.count
  rw [List.getLast?_eq_getElem?] at last
  have same : tables.length - 1 = (pages - 1) / 512 := by omega
  rwa [same] at last

/-- One page more. -/
theorem Direct.round (direct : Direct pml4 pdpt pd total pages pt m tables)
    (low : pages < 2 ^ 18) (enough : pages < 512 * total) :
    ∃ pt' m' tables', mapDirect pd 0 pages (pt, m) = some (pt', m') ∧
      Direct pml4 pdpt pd total (pages + 1) pt' m' tables' := by
  have count := direct.count
  unfold mapDirect
  simp only [direct_ptIndex, direct_pdIndex low, Nat.zero_add]
  by_cases inside : pages % 512 ≠ 0
  · have here := direct.last (by omega)
    have member : pt ∈ tables := List.mem_of_getElem? here
    have same : (pages - 1) / 512 = pages / 512 := by omega
    rw [same] at here
    rw [if_pos inside]
    refine ⟨_, _, tables, rfl, direct.upper.write_leaf member _ _,
      direct.leaves.next direct.upper here, by omega, fun _ => direct.current (by omega), ?_⟩
    exact direct.total
  · have left : 0 < m.head.length := by
      have total := direct.total
      omega
    obtain ⟨f, rest, head⟩ := List.exists_cons_of_length_pos left
    have index : pages / 512 = tables.length := by omega
    have zero : pages % 512 = 0 := not_not.mp inside
    have upper := direct.upper.grow head
    have leaves := direct.leaves.grow (f := f) direct.upper rest tables.length (entry f 3)
    have here : (tables ++ [f])[pages / 512]? = some f := by
      rw [index]
      exact List.getElem?_concat_length
    rw [if_neg inside, getFreeFrame_cons head, index]
    have lengths : (tables ++ [f]).length = tables.length + 1 := by simp
    refine ⟨f, _, tables ++ [f], rfl, upper.write_leaf (by simp) _ _, leaves.next upper here, ?_,
      fun _ => by simp, ?_⟩
    · rw [lengths]
      omega
    · have total := direct.total
      rw [head, List.length_cons] at total
      rw [lengths, ← total]
      change tables.length + 1 + rest.length = _
      omega

/-! ## The whole function -/

/-- What is known of the frames that `getFreeFrame` gives. -/
structure FreshFrames (m : Machine) : Prop where
  nodup : m.head.Nodup
  aligned : ∀ f ∈ m.head, frame f = f
  blank : ∀ f ∈ m.head, ∀ j, m.mem f j = 0

/-- The three upper tables, and a leaf table that the first round replaces. -/
theorem FreshFrames.start {a b c d : Word} {rest : List Word} (fresh : m.FreshFrames)
    (head : m.head = a :: b :: c :: d :: rest) (m' : Machine) (head' : m'.head = rest)
    (mem : ∀ x j, m'.mem x j = if x = c ∧ j = 0 then entry d 3
      else if x = b ∧ j = 510 then entry c 3 else if x = a ∧ j = 511 then entry b 3
      else m.mem x j) :
    Direct a b c rest.length 0 d m' [] := by
  have nodup := fresh.nodup
  have aligned := fresh.aligned
  have blank := fresh.blank
  rw [head] at nodup aligned blank
  have sub : (a :: b :: c :: rest).Sublist (a :: b :: c :: d :: rest) :=
    (((List.sublist_cons_self d rest).cons_cons c).cons_cons b).cons_cons a
  have apart := nodup
  simp only [List.nodup_cons, List.mem_cons, not_or] at apart
  obtain ⟨⟨ab, ac, _, aOut⟩, ⟨bc, _, bOut⟩, ⟨_, cOut⟩, _⟩ := apart
  refine ⟨⟨?_, ?_, fun f free j => ?_, ?_, fun j => ?_, nofun, fun j _ other => ?_⟩, nofun, rfl, nofun,
    ?_⟩
  · rw [List.nil_append, head']
    exact nodup.sublist sub
  · rw [List.nil_append, head']
    exact fun f member => aligned f (sub.mem member)
  · rw [head'] at free
    have fa : f ≠ a := fun same => aOut (same ▸ free)
    have fb : f ≠ b := fun same => bOut (same ▸ free)
    have fc : f ≠ c := fun same => cOut (same ▸ free)
    rw [mem, if_neg fun both => fc both.1, if_neg fun both => fb both.1,
      if_neg fun both => fa both.1]
    exact blank f (by simp [free]) j
  · rw [mem, if_neg fun both => ac both.1, if_neg fun both => ab both.1, if_pos ⟨rfl, rfl⟩]
  · rw [mem, if_neg fun both => bc both.1]
    by_cases here : j = 510
    · rw [if_pos ⟨rfl, here⟩, if_pos here]
    · rw [if_neg fun both => here both.2, if_neg fun both => ab both.1.symm, if_neg here]
      exact blank b (by simp) j
  · rw [mem, if_neg fun both => other both.2, if_neg fun both => bc both.1.symm,
      if_neg fun both => ac both.1.symm]
    exact blank c (by simp) j
  · rw [head']
    simp

/-- The direct map of the first `physfree` bytes, and the addresses of the tables. -/
structure BootMapped (m : Machine) (t : KernelTables) (physfree : Nat) : Prop where
  direct : ∀ p < physfree, 4096 ∣ p → m.physical t.k_cr3 (kernbase + p) = some (BitVec.ofNat 64 p)
  pml4e : m.physical t.k_cr3 t.pml4e = some t.k_cr3
  pdpte : m.physical t.k_cr3 t.pdpte = m.tables.walk t.k_cr3 [pml4Index kernbase]
  pde : m.physical t.k_cr3 t.pde =
    m.tables.walk t.k_cr3 [pml4Index kernbase, pdptIndex kernbase]
  pte : m.physical t.k_cr3 t.pte =
    m.tables.walk t.k_cr3 (upperPath (kernbase + (physfree - 1) / 4096 * 4096))

/-- The four entries behind the direct map. -/
def mapTables (m : Machine) (pml4 pdpt pd pt : Word) (pages : Nat) : Machine :=
  (((m.write pt (ptIndex (kernbase + 4096 * pages + 1 * 4096)) (entry pml4 3)).write pt
    (ptIndex (kernbase + 4096 * pages + 2 * 4096)) (entry pdpt 3)).write pt
      (ptIndex (kernbase + 4096 * pages + 3 * 4096)) (entry pd 3)).write pt
        (ptIndex (kernbase + 4096 * pages + 4 * 4096)) (entry pt 3)

/-- `setupPageTables` gets through, to the state after its loop and the four entries. -/
theorem FreshFrames.setup (fresh : m.FreshFrames) {physfree pages : Nat}
    (count : pages = (physfree + 4095) / 4096) (low : pages ≤ 2 ^ 18)
    (enough : 4 + (pages + 511) / 512 ≤ m.head.length) :
    ∃ pml4 pdpt pd pt m1 tables total, Direct pml4 pdpt pd total pages pt m1 tables ∧
      m.setupPageTables 0 physfree = some (⟨pml4, kernbase + 4096 * pages + 1 * 4096,
        kernbase + 4096 * pages + 2 * 4096, kernbase + 4096 * pages + 3 * 4096,
        kernbase + 4096 * pages + 4 * 4096⟩,
        { m1.mapTables pml4 pdpt pd pt pages with pml4e := pml4, pdpte := pdpt }) := by
  obtain ⟨a, rest1, head1⟩ := List.exists_cons_of_length_pos (l := m.head) (by omega)
  rw [head1, List.length_cons] at enough
  obtain ⟨b, rest2, head2⟩ := List.exists_cons_of_length_pos (l := rest1) (by omega)
  rw [head2, List.length_cons] at enough
  obtain ⟨c, rest3, head3⟩ := List.exists_cons_of_length_pos (l := rest2) (by omega)
  rw [head3, List.length_cons] at enough
  obtain ⟨d, rest, head4⟩ := List.exists_cons_of_length_pos (l := rest3) (by omega)
  rw [head4, List.length_cons] at enough
  subst head4 head3 head2
  let m2 := (m.withoutFirst a (b :: c :: d :: rest)).withoutFirst b (c :: d :: rest)
  let m3 := (m2.write a (pml4Index kernbase) (entry b 3)).withoutFirst c (d :: rest)
  let m4 := (m3.write b (pdptIndex kernbase) (entry c 3)).withoutFirst d rest
  let m5 := m4.write c (pdIndex kernbase) (entry d 3)
  have top : pml4Index kernbase = 511 := by decide
  have second : pdptIndex kernbase = 510 := by decide
  have third : pdIndex kernbase = 0 := by decide
  have start : Direct a b c rest.length 0 d m5 [] := by
    refine fresh.start head1 m5 rfl fun x j => ?_
    have one : m5.mem x j = if x = c ∧ j = 0 then entry d 3 else m4.mem x j := by
      rw [← third]
      exact write_mem _ _ _ _ _ _
    have two : m4.mem x j = if x = b ∧ j = 510 then entry c 3 else m3.mem x j := by
      rw [← second]
      exact write_mem _ _ _ _ _ _
    have three : m3.mem x j = if x = a ∧ j = 511 then entry b 3 else m.mem x j := by
      rw [← top]
      exact write_mem _ _ _ _ _ _
    rw [one, two, three]
  obtain ⟨⟨pt, m1⟩, ran, tables, direct⟩ : ∃ st, loop pages (mapDirect c 0) (d, m5) = some st ∧
      ∃ tables, Direct a b c rest.length pages st.1 st.2 tables := by
    refine loop_total (I := fun i (st : Word × Machine) =>
      ∃ tables, Direct a b c rest.length i st.1 st.2 tables) ⟨[], start⟩ fun i st below inv => ?_
    obtain ⟨tables, direct⟩ := inv
    obtain ⟨pt', m', tables', ran, direct'⟩ := direct.round (by omega) (by omega)
    exact ⟨(pt', m'), ran, tables', direct'⟩
  refine ⟨a, b, c, pt, m1, tables, rest.length, direct, ?_⟩
  have rounds : (physfree - 0 + 4095) / 4096 = pages := count.symm
  unfold setupPageTables
  rw [getFreeFrame_cons head1]
  simp only [Option.bind_eq_bind, Option.bind_some]
  rw [getFreeFrame_cons rfl]
  simp only [Option.bind_some]
  rw [getFreeFrame_cons rfl]
  simp only [Option.bind_some]
  rw [getFreeFrame_cons rfl]
  simp only [Option.bind_some, rounds]
  rw [ran]
  rfl

/-! ## Which memory sizes work -/

theorem table_ptIndex (pages q : Nat) :
    ptIndex (kernbase + 4096 * pages + q * 4096) = (pages + q) % 512 := by
  have same : kernbase + 4096 * pages + q * 4096 = kernbase + 4096 * (pages + q) := by omega
  rw [same, direct_ptIndex]

theorem mapTables_mem (m : Machine) (pages : Nat) (j : Nat) :
    (m.mapTables pml4 pdpt pd pt pages).mem pt j =
      if j = (pages + 4) % 512 then entry pt 3 else if j = (pages + 3) % 512 then entry pd 3
      else if j = (pages + 2) % 512 then entry pdpt 3
      else if j = (pages + 1) % 512 then entry pml4 3 else m.mem pt j := by
  unfold mapTables
  simp only [write_mem, table_ptIndex, true_and]

/-- The upper tables stay what they are. -/
theorem Upper.mapTables (upper : Upper m pml4 pdpt pd tables) (member : pt ∈ tables) (pages : Nat)
    (r s : Word) : Upper { m.mapTables pml4 pdpt pd pt pages with pml4e := r, pdpte := s }
      pml4 pdpt pd tables := by
  have written : Upper (m.mapTables pml4 pdpt pd pt pages) pml4 pdpt pd tables :=
    (((upper.write_leaf member _ _).write_leaf member _ _).write_leaf member _ _).write_leaf
      member _ _
  exact ⟨written.nodup, written.aligned, written.blank, written.top, written.second, written.third,
    written.beyond⟩

/-- The four entries lie behind the last page, and in its leaf table. -/
def Roomy (pages : Nat) : Prop := 1 ≤ pages % 512 ∧ pages % 512 ≤ 507

instance (pages : Nat) : Decidable (Roomy pages) :=
  inferInstanceAs (Decidable (_ ∧ _))

theorem Leaves.mapTables (leaves : Leaves m tables pages) (upper : Upper m pml4 pdpt pd tables)
    (here : tables[(pages - 1) / 512]? = some pt) (roomy : Roomy pages) :
    Leaves (m.mapTables pml4 pdpt pd pt pages) tables pages := by
  have member : pt ∈ tables := List.mem_of_getElem? here
  obtain ⟨low, high⟩ := roomy
  -- With room behind the last page no index wraps around to a page that is mapped.
  have apart (q : Nat) (small : 1 ≤ q ∧ q ≤ 4) (k : Nat) (below : k < pages) :
      ¬(k / 512 = (pages - 1) / 512 ∧ k % 512 = (pages + q) % 512) := by
    omega
  unfold Machine.mapTables
  simp only [table_ptIndex]
  have one := leaves.write upper here (entry pml4 3) (apart 1 (by decide))
  have upper1 := upper.write_leaf member ((pages + 1) % 512) (entry pml4 3)
  have two := one.write upper1 here (entry pdpt 3) (apart 2 (by decide))
  have upper2 := upper1.write_leaf member ((pages + 2) % 512) (entry pdpt 3)
  have three := two.write upper2 here (entry pd 3) (apart 3 (by decide))
  have upper3 := upper2.write_leaf member ((pages + 3) % 512) (entry pd 3)
  exact three.write upper3 here (entry pt 3) (apart 4 (by decide))

theorem Upper.physical_leaf (upper : Upper m pml4 pdpt pd tables) (low : k < 2 ^ 18)
    (here : tables[k / 512]? = some pt) (mapped : m.mem pt (k % 512) = entry f 3)
    (aligned : frame f = f) : m.physical pml4 (kernbase + 4096 * k) = some f := by
  have here' : present (entry f 3) = true := by simp
  have back : frame (entry f 3) = f := by simpa using aligned
  unfold physical
  rw [upper.translate_leaf low here, mapped, if_pos here', Option.map_some, back]

theorem frame_page (low : k < 2 ^ 19) : frame (BitVec.ofNat 64 (4096 * k)) =
    BitVec.ofNat 64 (4096 * k) := by
  refine frame_aligned ⟨k, ?_⟩
  rw [BitVec.toNat_ofNat, Nat.mod_eq_of_lt (by omega)]

theorem Direct.bootMapped {total : Nat} (direct : Direct pml4 pdpt pd total pages pt m tables)
    {physfree : Nat} (some : 0 < physfree) (count : pages = (physfree + 4095) / 4096)
    (low : pages ≤ 2 ^ 18) (roomy : Roomy pages) :
    BootMapped { m.mapTables pml4 pdpt pd pt pages with pml4e := pml4, pdpte := pdpt }
      ⟨pml4, kernbase + 4096 * pages + 1 * 4096, kernbase + 4096 * pages + 2 * 4096,
        kernbase + 4096 * pages + 3 * 4096, kernbase + 4096 * pages + 4 * 4096⟩ physfree := by
  have here := direct.last (by omega)
  have member : pt ∈ tables := List.mem_of_getElem? here
  have leaves := direct.leaves.mapTables direct.upper here roomy
  have upper := direct.upper.mapTables member pages pml4 pdpt
  have aligned := direct.upper.aligned
  obtain ⟨above, below⟩ := roomy
  -- The `q`-th pointer is looked up in the leaf table of the last page.
  have pointer (q : Nat) (small : 1 ≤ q ∧ q ≤ 4) {g : Word} (clean : frame g = g)
      (mapped : (m.mapTables pml4 pdpt pd pt pages).mem pt ((pages + q) % 512) = entry g 3) :
      ({ m.mapTables pml4 pdpt pd pt pages with pml4e := pml4, pdpte := pdpt } : Machine).physical
        pml4 (kernbase + 4096 * pages + q * 4096) = .some g := by
    have same : kernbase + 4096 * pages + q * 4096 = kernbase + 4096 * (pages + q) := by omega
    have table : (pages - 1) / 512 = (pages + q) / 512 := by omega
    rw [same]
    rw [table] at here
    exact upper.physical_leaf (by omega) here mapped clean
  have top : pml4Index kernbase = 511 := by decide
  have second : pdptIndex kernbase = 510 := by decide
  refine ⟨fun p inside whole => ?_, ?_, ?_, ?_, ?_⟩
  · obtain ⟨k, rfl⟩ := whole
    obtain ⟨t, at_k, mapped⟩ := leaves k (by omega)
    exact upper.physical_leaf (by omega) at_k mapped (frame_page (by omega))
  · refine pointer 1 (by decide) (aligned pml4 (by simp)) ?_
    rw [mapTables_mem, if_neg (by omega), if_neg (by omega), if_neg (by omega), if_pos rfl]
  · rw [top, Tables.walk_cons, upper.walk_pdpt]
    refine pointer 2 (by decide) (aligned pdpt (by simp)) ?_
    rw [mapTables_mem, if_neg (by omega), if_neg (by omega), if_pos rfl]
  · rw [top, second, Tables.walk_cons, upper.walk_pdpt, Option.bind_some, Tables.walk_cons,
      upper.walk_pd]
    refine pointer 3 (by decide) (aligned pd (by simp)) ?_
    rw [mapTables_mem, if_neg (by omega), if_pos rfl]
  · have last : kernbase + (physfree - 1) / 4096 * 4096 = kernbase + 4096 * (pages - 1) := by omega
    rw [last, upper.walk_upper (by omega) here]
    refine pointer 4 (by decide) (aligned pt (by simp [member])) ?_
    rw [mapTables_mem, if_pos rfl]

/-- In every other case the last pointer lies in a part that no leaf table has been made for. -/
theorem Direct.not_bootMapped {total : Nat} (direct : Direct pml4 pdpt pd total pages pt m tables)
    {physfree : Nat} (some : 0 < physfree) (count : pages = (physfree + 4095) / 4096)
    (low : pages ≤ 2 ^ 18) (crowded : ¬Roomy pages) :
    ¬BootMapped { m.mapTables pml4 pdpt pd pt pages with pml4e := pml4, pdpte := pdpt }
      ⟨pml4, kernbase + 4096 * pages + 1 * 4096, kernbase + 4096 * pages + 2 * 4096,
        kernbase + 4096 * pages + 3 * 4096, kernbase + 4096 * pages + 4 * 4096⟩ physfree := by
  intro mapped
  have here := direct.last (by omega)
  have member : pt ∈ tables := List.mem_of_getElem? here
  have upper := direct.upper.mapTables member pages pml4 pdpt
  have length := direct.count
  -- The fourth address is behind the 2 MiB of the last page.
  have beyond : tables.length ≤ (pages + 4) / 512 := by
    unfold Roomy at crowded
    omega
  have found := mapped.pte
  have last : kernbase + (physfree - 1) / 4096 * 4096 = kernbase + 4096 * (pages - 1) := by omega
  have same : kernbase + 4096 * pages + 4 * 4096 = kernbase + 4096 * (pages + 4) := by omega
  rw [last, upper.walk_upper (by omega) here, physical, same,
    upper.translate_beyond (by omega) beyond (List.ne_nil_of_mem member)] at found
  cases found

/-- For every end of memory up to 1 GiB the boot tables map all of it and the tables themselves
exactly when the four entries behind the last page still fit into its leaf table. -/
theorem setupPageTables_iff (m : Machine) (fresh : m.FreshFrames) (physfree : Nat)
    (some : 0 < physfree) (fits : physfree ≤ 2 ^ 30)
    (enough : 4 + ((physfree + 4095) / 4096 + 511) / 512 ≤ m.head.length) :
    ∃ t m', m.setupPageTables 0 physfree = .some (t, m') ∧
      (BootMapped m' t physfree ↔
        1 ≤ (physfree + 4095) / 4096 % 512 ∧ (physfree + 4095) / 4096 % 512 ≤ 507) := by
  have low : (physfree + 4095) / 4096 ≤ 2 ^ 18 := by omega
  obtain ⟨pml4, pdpt, pd, pt, m1, tables, total, direct, ran⟩ := fresh.setup rfl low enough
  refine ⟨_, _, ran, ?_⟩
  constructor
  · intro mapped
    by_contra crowded
    exact direct.not_bootMapped some rfl low crowded mapped
  · exact direct.bootMapped some rfl low

/-! ## A blank machine -/

/-- Eight zero-filled frames from 16 MiB. -/
def blank : Machine where
  mem := fun _ _ => 0
  head := (List.range 8).map fun k => BitVec.ofNat 64 (4096 * (k + 4096))
  refCount := fun _ => 0
  pml4e := 0
  pdpte := 0

theorem blank_fresh : blank.FreshFrames := by
  refine ⟨by decide, fun f member => ?_, fun _ _ _ => rfl⟩
  obtain ⟨k, bound, rfl⟩ := List.mem_map.mp member
  have below : k < 8 := List.mem_range.mp bound
  exact frame_page (by omega)

theorem setupPageTables_of_blank : ∃ t m', blank.setupPageTables 0 20480 = some (t, m') ∧
    (BootMapped m' t 20480 ↔ 1 ≤ 5 ∧ 5 ≤ 507) :=
  setupPageTables_iff blank blank_fresh 20480 (by decide) (by decide) (by decide)

/-- With 2 MiB the last leaf table is full. -/
theorem setupPageTables_full : blank.FreshFrames ∧
    ∃ t m', blank.setupPageTables 0 0x200000 = some (t, m') ∧ ¬BootMapped m' t 0x200000 := by
  refine ⟨blank_fresh, ?_⟩
  have count : 512 = (0x200000 + 4095) / 4096 := rfl
  obtain ⟨pml4, pdpt, pd, pt, m1, tables, total, direct, ran⟩ :=
    blank_fresh.setup count (by decide) (by decide)
  exact ⟨_, _, ran, direct.not_bootMapped (by decide) rfl (by decide) (by decide)⟩

end Machine

end LateOS
