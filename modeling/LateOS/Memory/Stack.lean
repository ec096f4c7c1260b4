import Mathlib.Data.Finset.Card
import LateOS.Memory.Tidy

/-!
# The first stack of a program

`setRSPandExec` stores through the new mapping of the stack, from the top down. The first page is
there; the page fault handler adds the pages below it.
-/
namespace LateOS

open Lib Machine

variable {m m' m1 : Machine} {use use' : Word → Use} {ts ts' : TaskStruct} {r : Word}
  {room v k : Nat} {store : Nat × Byte} {stores : Stores} {b : Byte}

/-! ## Room to grow -/

/-- Page `k` below the first page of the stack. -/
def stackPage (k : Nat) : Nat := stackS - 4096 * (k + 1)

/-- How many of the first `room` pages below the stack are not there. -/
def missing (m : Machine) (r : Word) (room : Nat) : Nat :=
  ((Finset.range room).filter fun k => m.translate r (stackPage k) = none).card

/-- The address is on the first page of the stack or on one of the `room` pages below it. -/
def InStack (room v : Nat) : Prop := stackS - 4096 * room ≤ v ∧ v < stackS + 4096

/-- A task whose stack may grow by `room` pages: the table of its first page has them all. -/
structure Growable (room : Nat) (m : Machine) (use : Word → Use) (ts : TaskStruct) : Prop where
  neat : m.Neat use ts.pml4e
  vm : ∃ rest, ts.vm = ⟨stackS, stackEnd, 0⟩ :: rest
  top : (m.translate ts.pml4e stackS).isSome
  enough : 4 * missing m ts.pml4e room ≤ m.head.length
  bound : room ≤ 496

theorem InStack.small (inside : InStack room v) : v < 2 ^ 47 :=
  inside.2.trans (by decide)

theorem InStack.user (inside : InStack room v) : UserAddress v := user_of_small inside.small

theorem stackS_eq : stackS = 0x100FFFFF0000 := rfl

/-- The pages lie under one leaf table. -/
theorem InStack.upperPath (inside : InStack room v) (bound : room ≤ 496) :
    upperPath v = upperPath stackS := by
  obtain ⟨above, below⟩ := inside
  have value := stackS_eq
  unfold Machine.upperPath pml4Index pdptIndex pdIndex
  simp only [index_eq]
  have one : v / 2 ^ (12 + 9 + 9 + 9) = stackS / 2 ^ (12 + 9 + 9 + 9) := by omega
  have two : v / 2 ^ (12 + 9 + 9) = stackS / 2 ^ (12 + 9 + 9) := by omega
  have three : v / 2 ^ (12 + 9) = stackS / 2 ^ (12 + 9) := by omega
  rw [one, two, three]

theorem InStack.page (inside : InStack room v) (under : v < stackS) :
    ∃ k < room, SamePage (pageOf v) (stackPage k) := by
  obtain ⟨above, _⟩ := inside
  have value := stackS_eq
  refine ⟨(stackS - 1 - v) / 4096, by omega, ?_⟩
  have same : stackPage ((stackS - 1 - v) / 4096) = pageOf v := by
    unfold stackPage pageOf
    omega
  rw [same]
  exact .refl _

theorem walk_of_translate {e : Word} (found : m.translate r v = some e) :
    m.tables.walk r (upperPath v) = some (m.getPTE r v) := by
  obtain ⟨one, two, three, _⟩ := translate_eq_some.mp found
  simp [upperPath, Tables.walk_cons, getPTE, tables, one, two, three]

/-- The entry of a missing page is zero. -/
theorem Growable.entry_zero (growable : Growable room m use ts) (inside : InStack room v)
    (missing : m.translate ts.pml4e v = none) :
    m.mem (m.getPTE ts.pml4e v) (ptIndex v) = 0 := by
  obtain ⟨e, found⟩ := Option.isSome_iff_exists.mp growable.top
  have path := inside.upperPath growable.bound
  have reached := walk_of_translate found
  have same : m.getPTE ts.pml4e stackS = m.getPTE ts.pml4e v := by
    unfold upperPath at path
    simp only [List.cons.injEq, and_true] at path
    unfold getPTE
    rw [path.1, path.2.1, path.2.2]
  rw [same, ← path] at reached
  -- The table is the one of the first page, so that it is tidy.
  rcases growable.neat.tidy v inside.user _ reached (ptIndex v) with zero | here
  · exact zero
  · unfold Machine.translate Tables.lookup at missing
    rw [reached] at missing
    simp [tables, here] at missing

/-! ## Stores that may fault -/

theorem translate_none_iff : m.storeByte r v b = none ↔ m.translate r v = none := by
  unfold Machine.storeByte
  exact Option.map_eq_none_iff

theorem storeByte_of_translate {e : Word} (found : m.translate r v = some e) (b : Byte) :
    ∃ m', m.storeByte r v b = some m' := by
  unfold Machine.storeByte
  rw [found]
  exact ⟨_, rfl⟩

/-- The page is on the stack and below its first page: the handler adds it. -/
theorem Growable.handled (growable : Growable room m use ts) (inside : InStack room v)
    (absent : m.translate ts.pml4e v = none) (under : v < stackS) :
    m.isr14 ts v = (m.copyFromPML4 ts.pml4e v).map .resumed := by
  obtain ⟨rest, vm⟩ := growable.vm
  have value := stackS_eq
  have bound := growable.bound
  have ending : stackEnd = 0x100FFEFF0000 := rfl
  have zero := growable.entry_zero inside absent
  obtain ⟨above, _⟩ := inside
  -- Both tests of the handler compare with the stack's VMA, whose ends are swapped.
  have valid : checkValid ts.vm v = some true := by
    rw [vm, checkValid, if_pos ⟨by dsimp only; omega, by dsimp only; omega⟩]
  have grows : stackS > v ∧ stackEnd < v := ⟨under, by omega⟩
  unfold Machine.isr14
  rw [valid, zero, vm]
  simp [grows]

/-- A page more, and a missing page less. -/
theorem Growable.grow (growable : Growable room m use ts) (inside : InStack room v)
    (absent : m.translate ts.pml4e v = none) (under : v < stackS) :
    ∃ m' use', m.copyFromPML4 ts.pml4e v = some m' ∧ Growable room m' use' ts ∧
      (m'.translate ts.pml4e v).isSome := by
  obtain ⟨neat, vm, top, enough, bound⟩ := growable
  obtain ⟨k, below, page⟩ := inside.page under
  have root := neat.own.root
  -- The page that is added is one of those counted as missing.
  have absentK : m.translate ts.pml4e (stackPage k) = none := by
    rw [← translate_samePage m _ page, translate_samePage m _ (pageOf_samePage v)]
    exact absent
  have some1 : 1 ≤ missing m ts.pml4e room :=
    Finset.card_pos.mpr ⟨k, Finset.mem_filter.mpr ⟨Finset.mem_range.mpr below, absentK⟩⟩
  obtain ⟨f, m1, m', popped, mapped, fewer⟩ := mapPage_total (m := m) (pageOf v) ts.pml4e (by omega)
  have user := user_page inside.user
  have taken := neat.own.sound.getFreeFrame popped
  obtain ⟨use1, page'⟩ := taken.sound.initTaskPagetables root user taken.spare taken.out
    taken.aligned mapped
  have before (w : Nat) : m1.translate ts.pml4e w = m.translate ts.pml4e w := by
    unfold Machine.translate tables
    rw [taken.mem]
  -- What was mapped is still mapped.
  have kept {w : Nat} (userW : UserAddress w) (there : (m.translate ts.pml4e w).isSome) :
      (m'.translate ts.pml4e w).isSome := by
    by_cases same : SamePage (pageOf v) w
    · rw [page'.here w same]
      rfl
    · rw [page'.others _ w root userW fun both => same both.2, before]
      exact there
  have less : missing m' ts.pml4e room < missing m ts.pml4e room := by
    apply Finset.card_lt_card
    rw [Finset.ssubset_iff_of_subset]
    · refine ⟨k, Finset.mem_filter.mpr ⟨Finset.mem_range.mpr below, absentK⟩, fun member => ?_⟩
      have gone := (Finset.mem_filter.mp member).2
      rw [page'.here _ page] at gone
      cases gone
    · intro j member
      obtain ⟨inRange, gone⟩ := Finset.mem_filter.mp member
      refine Finset.mem_filter.mpr ⟨inRange, ?_⟩
      by_contra there
      have low : UserAddress (stackPage j) := by
        apply user_of_small
        exact (Nat.sub_le _ _).trans_lt (by decide)
      have still := kept low (Option.isSome_iff_ne_none.mpr there)
      rw [gone] at still
      cases still
  obtain ⟨use2, after⟩ := neat.mapPage user popped mapped
  refine ⟨m', use2, ?_, ⟨after, vm, ?_, by omega, bound⟩, ?_⟩
  · unfold Machine.copyFromPML4
    rw [popped]
    exact mapped
  · exact kept (user_of_small (by decide)) top
  · rw [page'.here v (pageOf_samePage v)]
    rfl

theorem Growable.stored (growable : Growable room m use ts) (user : UserAddress v)
    (stored : m.storeByte ts.pml4e v b = some m') : Growable room m' use ts := by
  obtain ⟨neat, vm, top, enough, bound⟩ := growable
  obtain ⟨head, -, translate⟩ := neat.own.storeByte_stale user stored
  refine ⟨neat.storeByte user stored, vm, ?_, ?_, bound⟩
  · rw [translate]
    exact top
  · unfold missing at enough ⊢
    simp only [translate, head]
    exact enough

theorem Growable.poke (growable : Growable room m use ts) (inside : InStack room store.1) :
    ∃ m' use', poke ts m store = some m' ∧ Growable room m' use' ts := by
  unfold LateOS.poke
  cases found : m.translate ts.pml4e store.1 with
  | some e =>
    obtain ⟨m', stored⟩ := storeByte_of_translate found store.2
    rw [stored]
    exact ⟨m', use, rfl, growable.stored inside.user stored⟩
  | none =>
    have refused := translate_none_iff (b := store.2).mpr found
    -- The first page is there, so that the fault is below it.
    have under : store.1 < stackS := by
      by_contra above
      have value := stackS_eq
      have same : SamePage stackS store.1 := by
        rw [samePage_iff]
        have bound := inside.2
        have equal : store.1 / 4096 = stackS / 4096 := by omega
        rw [equal]
      have top := growable.top
      rw [translate_samePage m _ same, found] at top
      cases top
    obtain ⟨m1, use1, grown, growable1, there⟩ := growable.grow inside found under
    obtain ⟨e, found1⟩ := Option.isSome_iff_exists.mp there
    obtain ⟨m', stored⟩ := storeByte_of_translate found1 store.2
    refine ⟨m', use1, ?_, growable1.stored inside.user stored⟩
    rw [refused, growable.handled inside found under, grown]
    exact stored

/-- All stores to the stack go through. -/
theorem Growable.pokes (growable : Growable room m use ts)
    (inside : ∀ store ∈ stores, InStack room store.1) :
    ∃ m', pokes ts m stores = some m' := by
  -- The room is still enough after each store: a page that is added is no longer missing.
  induction stores generalizing m use with
  | nil => exact ⟨m, rfl⟩
  | cons store rest ih =>
    obtain ⟨m1, use1, first, growable1⟩ := growable.poke (inside store (by simp))
    obtain ⟨m', later⟩ := ih growable1 fun store member => inside store (by simp [member])
    refine ⟨m', ?_⟩
    rw [LateOS.pokes, first]
    exact later

end LateOS
