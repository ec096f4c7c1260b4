import LateOS.Memory.Map

/-!
# What a task sees

Translation and memory of a task whose own tables have not changed, and a store through a
writable leaf entry.
-/
namespace LateOS

open Lib

namespace Machine

variable {m m' : Machine} {use use' : Word → Use} {roots : Set Word}
  {r r' t f e e' : Word} {p path : List Nat} {i l v v' : Nat}

/-- A translated user address has a leaf entry in the task's own tables. -/
theorem Sound.leaf_of_translate (sound : m.Sound use) (root : use r = .table r [])
    (user : UserAddress v) (found : m.translate r v = some e) :
    ∃ t, use t = .table r (upperPath v) ∧ m.Leaf use t (ptIndex v) ∧ m.mem t (ptIndex v) = e ∧
      m.tables.walk r (upperPath v) = some t := by
  obtain ⟨t, reached, last⟩ := Option.bind_eq_some_iff.mp found
  obtain ⟨g, leads, rfl⟩ := Option.map_eq_some_iff.mp last
  have serves := sound.walk_use root (innerPath_upper user) reached
  have here := (target_isSome leads).1
  refine ⟨t, serves, ⟨⟨r, upperPath v, serves, rfl⟩, (index_bound v).2.2.2, here⟩, rfl, reached⟩

theorem Sound.translate_facts (sound : m.Sound use) (root : use r = .table r [])
    (user : UserAddress v) (found : m.translate r v = some e) :
    present e = true ∧ use (frame e) = .data ∧ LeafFlags e := by
  obtain ⟨t, serves, leaf, rfl, _⟩ := sound.leaf_of_translate root user found
  exact ⟨leaf.here, (sound.entries t r _ _ serves leaf.index leaf.here).2.1 rfl⟩

/-- The same frame for two pages is shared by both. -/
theorem Sound.frames_apart (sound : m.Sound use) (root : use r = .table r [])
    (root' : use r' = .table r' []) (user : UserAddress v) (user' : UserAddress v')
    (found : m.translate r v = some e) (found' : m.translate r' v' = some e')
    (same : frame e = frame e') : (r = r' ∧ SamePage v v') ∨ (Shared e ∧ Shared e') := by
  obtain ⟨t, serves, leaf, rfl, _⟩ := sound.leaf_of_translate root user found
  obtain ⟨t', serves', leaf', rfl, _⟩ := sound.leaf_of_translate root' user' found'
  -- Two leaf entries for one frame are the same entry, or both are marked.
  rcases sound.shared t _ t' _ leaf leaf' same with ⟨rfl, low⟩ | shared
  · left
    rw [serves] at serves'
    injection serves' with roots upper
    exact ⟨roots, upper, low⟩
  · exact Or.inr shared

/-! ## Tasks whose tables have not changed -/

theorem Sound.kernel_lookup (sound : m.Sound use) {d : Nat} (serves : use t = .kernel d)
    (deep : d + path.length = 3) (bound : ∀ i ∈ path, i < 512)
    (kept : ∀ x d, use x = .kernel d → m'.mem x = m.mem x) :
    m'.tables.lookup t path l = m.tables.lookup t path l := by
  have same : m'.tables.target = m.tables.target := rfl
  induction path generalizing t d with
  | nil =>
    rw [Tables.lookup_nil, Tables.lookup_nil, same]
    change Option.map (fun _ => m'.mem t l) (m.tables.target (m'.mem t l)) = _
    rw [kept t d serves]
    rfl
  | cons i path ih =>
    have entry : m'.tables.mem t i = m.tables.mem t i := congrFun (kept t d serves) i
    rw [Tables.lookup_cons, Tables.lookup_cons, same, entry]
    cases leads : m.tables.target (m.tables.mem t i) with
    | none => rfl
    | some g =>
      obtain ⟨here, rfl⟩ := target_isSome leads
      have length : d + (path.length + 1) = 3 := deep
      have next := sound.kernel t d i serves (by omega) (bound i (by simp)) here
      exact ih next (by omega) fun j member => bound j (List.mem_cons_of_mem i member)

/-- Translation only depends on the task's own tables and the kernel's. -/
theorem Sound.translate_congr (sound : m.Sound use) (root : use r = .table r [])
    (own : ∀ x p, use x = .table r p → m'.mem x = m.mem x)
    (kernel : ∀ x d, use x = .kernel d → m'.mem x = m.mem x) (v : Nat) :
    m'.translate r v = m.translate r v := by
  by_cases user : UserAddress v
  · refine sound.lookup_congr root (innerPath_upper user) fun h q j rest _ table => ?_
    exact congrFun (own h _ table) j
  · have bounds := index_bound v
    -- Slot 511 leads into the kernel's tables, which every task has.
    have top : pml4Index v = 511 := by
      have notUser : ¬pml4Index v < 511 := user
      omega
    have entry : m'.tables.mem r (pml4Index v) = m.tables.mem r (pml4Index v) :=
      congrFun (own r [] root) _
    have same : m'.tables.target = m.tables.target := rfl
    unfold Machine.translate upperPath
    rw [Tables.lookup_cons, Tables.lookup_cons, same, entry]
    cases leads : m.tables.target (m.tables.mem r (pml4Index v)) with
    | none => rfl
    | some g =>
      obtain ⟨here, rfl⟩ := target_isSome leads
      have serves := (sound.entries r r [] _ root bounds.1 here).2.2 rfl top
      exact sound.kernel_lookup serves rfl (by simp [bounds]) kernel

/-- No address of another task, kernel addresses included, is translated differently. -/
theorem Within.translate (within : Within roots m use m' use') (sound : m.Sound use)
    (root : use r = .table r []) (other : r ∉ roots) (v : Nat) :
    m'.translate r v = m.translate r v := by
  have used {x} (serves : use x ≠ .free) : x ∉ m.head :=
    fun member => serves (sound.free x member)
  refine sound.translate_congr root (fun x p table => ?_) (fun x d serves => ?_) v
  · refine within.mem x (used (by simp [table])) fun r' q' table' => ?_
    rw [table] at table'
    cases table'
    exact other
  · refine within.mem x (used (by simp [serves])) fun r' q' table' => ?_
    rw [serves] at table'
    cases table'

/-- Nor is one of the kernel's own tables. -/
theorem Within.translate_kernel (within : Within roots m use m' use') (sound : m.Sound use)
    (v : Nat) : m'.translate m.pml4e v = m.translate m.pml4e v := by
  have bounds := index_bound v
  have below : ∀ i ∈ upperPath v, i < 512 := by simp [upperPath, bounds]
  refine sound.kernel_lookup sound.root rfl below fun x d serves => ?_
  refine within.mem x (fun member => ?_) fun r p table => ?_
  · rw [sound.free x member] at serves
    cases serves
  · rw [serves] at table
    cases table

/-- The pages of user code stay what they are. -/
theorem Within.mem_data (within : Within roots m use m' use') (sound : m.Sound use)
    (data : use f = .data) : m'.mem f = m.mem f := by
  refine within.mem f (fun member => ?_) fun r q table => ?_
  · rw [sound.free f member] at data
    cases data
  · rw [data] at table
    cases table

theorem Within.byteAt (within : Within roots m use m' use') (sound : m.Sound use)
    (root : use r = .table r []) (other : r ∉ roots) (user : UserAddress v) :
    m'.byteAt r v = m.byteAt r v := by
  unfold Machine.byteAt
  rw [within.translate sound root other]
  cases found : m.translate r v with
  | none => rfl
  | some e => simp [within.mem_data sound (sound.translate_facts root user found).2.1]

/-- Mapping a page changes no byte of another page. -/
theorem Mapped.byteAt (mapped : Mapped m use r v f m' use') (sound : m.Sound use)
    (root' : use r' = .table r' []) (user' : UserAddress v')
    (apart : ¬(r' = r ∧ SamePage v v')) : m'.byteAt r' v' = m.byteAt r' v' := by
  unfold Machine.byteAt
  rw [mapped.others r' v' root' user' apart]
  cases found : m.translate r' v' with
  | none => rfl
  | some e => simp [mapped.within.mem_data sound (sound.translate_facts root' user' found).2.1]

/-! ## Stores -/

/-- Two addresses of one byte. -/
def SameByte (v v' : Nat) : Prop := SamePage v v' ∧ v % 4096 = v' % 4096

instance (v v' : Nat) : Decidable (SamePage v v') := inferInstanceAs (Decidable (_ ∧ _))

instance (v v' : Nat) : Decidable (SameByte v v') := inferInstanceAs (Decidable (_ ∧ _))

/-- A store to a data frame changes no table. -/
theorem Sound.storeByte (sound : m.Sound use) (root : use r = .table r []) (user : UserAddress v)
    {b : Byte} (stored : m.storeByte r v b = some m') :
    m'.Sound use ∧ ∃ e, m.translate r v = some e ∧
      m' = m.write (frame e) (v % 4096 / 8)
        (setByte (m.mem (frame e) (v % 4096 / 8)) (v % 8) b) := by
  obtain ⟨e, found, rfl⟩ := Option.map_eq_some_iff.mp stored
  have data := (sound.translate_facts root user found).2.1
  refine ⟨sound.congr (List.suffix_refl _) rfl rfl fun x other _ => ?_, e, found, rfl⟩
  refine write_mem_of_ne m _ _ _ ?_
  rintro rfl
  exact other data

/-- Writes to data frames do not change translations. -/
theorem Sound.translate_data (sound : m.Sound use) (root : use r = .table r [])
    (kept : ∀ x, use x ≠ .data → use x ≠ .free → m'.mem x = m.mem x) (v : Nat) :
    m'.translate r v = m.translate r v :=
  sound.translate_congr root (fun x _ table => kept x (by simp [table]) (by simp [table]))
    (fun x _ serves => kept x (by simp [serves]) (by simp [serves])) v

theorem translate_samePage (m : Machine) (r : Word) (same : SamePage v v') :
    m.translate r v = m.translate r v' := by
  unfold translate
  rw [same.1, same.2]

/-- Address `v` of the task with PML4 `r` and `v'` of the one with `r'` lead to one byte of physical
memory. -/
def SameCell (m : Machine) (r : Word) (v : Nat) (r' : Word) (v' : Nat) : Prop :=
  v % 4096 = v' % 4096 ∧ (m.translate r v).isSome ∧
    (m.translate r v).map frame = (m.translate r' v').map frame

instance (m : Machine) (r : Word) (v : Nat) (r' : Word) (v' : Nat) :
    Decidable (m.SameCell r v r' v') := inferInstanceAs (Decidable (_ ∧ _ ∧ _))

theorem sameCell_iff : m.SameCell r v r' v' ↔ v % 4096 = v' % 4096 ∧
    ∃ e e', m.translate r v = some e ∧ m.translate r' v' = some e' ∧ frame e = frame e' := by
  unfold SameCell
  cases m.translate r v with
  | none => simp
  | some e =>
    cases m.translate r' v' with
    | none => simp
    | some e' => simp

/-- A store changes the byte for all tasks that map its frame. -/
theorem Sound.byteAt_storeByte (sound : m.Sound use) (root : use r = .table r [])
    (user : UserAddress v) {b : Byte} (stored : m.storeByte r v b = some m')
    (root' : use r' = .table r' []) (v' : Nat) :
    (m.SameCell r v r' v' → m'.byteAt r' v' = some b) ∧
      (¬m.SameCell r v r' v' → m'.byteAt r' v' = m.byteAt r' v') := by
  obtain ⟨_, e, found, rfl⟩ := sound.storeByte root user stored
  have data := (sound.translate_facts root user found).2.1
  have kept : (m.write (frame e) (v % 4096 / 8)
      (setByte (m.mem (frame e) (v % 4096 / 8)) (v % 8) b)).translate r' v' =
        m.translate r' v' := by
    refine sound.translate_data root' (fun x other _ => write_mem_of_ne m _ _ _ ?_) v'
    rintro rfl
    exact other data
  unfold byteAt
  rw [kept]
  constructor
  · intro cell
    obtain ⟨sameByte, e1, e', found1, found', same⟩ := sameCell_iff.mp cell
    rw [found] at found1
    cases found1
    have word : v' % 4096 / 8 = v % 4096 / 8 := by rw [sameByte]
    have low : v' % 8 = v % 8 := by omega
    rw [found', Option.map_some, write_mem, if_pos ⟨same.symm, word⟩, low,
      getByte_setByte _ _ _ (Nat.mod_lt _ (by decide))]
  · intro apart
    cases found' : m.translate r' v' with
    | none => rfl
    | some e' =>
      rw [Option.map_some, Option.map_some, write_mem]
      -- Another frame, another word of this one, or another byte of the word.
      split
      next here =>
        obtain ⟨same, word⟩ := here
        have low : v' % 8 ≠ v % 8 := fun low =>
          apart (sameCell_iff.mpr ⟨by omega, e, e', found, found', same.symm⟩)
        rw [getByte_setByte_of_ne _ _ low, same, word]
      next => rfl

/-- A store through a leaf entry that no other page shares changes one byte of one task. -/
theorem Sound.byteAt_store (sound : m.Sound use) (root : use r = .table r [])
    (user : UserAddress v) {b : Byte} (stored : m.storeByte r v b = some m')
    (alone : ∀ e, m.translate r v = some e → ¬Shared e) (root' : use r' = .table r' [])
    (user' : UserAddress v') :
    m'.byteAt r' v' = if r' = r ∧ SameByte v v' then some b else m.byteAt r' v' := by
  obtain ⟨hit, missed⟩ := sound.byteAt_storeByte root user stored root' v'
  obtain ⟨_, e, found, _⟩ := sound.storeByte root user stored
  split
  next here =>
    obtain ⟨rfl, samePage, sameByte⟩ := here
    exact hit (sameCell_iff.mpr
      ⟨sameByte, e, e, found, translate_samePage m r' samePage ▸ found, rfl⟩)
  next other =>
    refine missed fun cell => other ?_
    obtain ⟨sameByte, e1, e', found1, found', same⟩ := sameCell_iff.mp cell
    rcases sound.frames_apart root root' user user' found1 found' same with ⟨roots, page⟩ | shared
    · exact ⟨roots.symm, page, sameByte⟩
    · exact absurd shared.1 (alone e1 found1)

end Machine

end LateOS
