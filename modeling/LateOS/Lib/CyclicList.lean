import Mathlib.Data.Finset.Max
import Mathlib.Data.List.Iterate
import Mathlib.Data.List.Nodup
import Mathlib.Logic.Function.Iterate

/-!
# Cyclic lists in ascending order

A set of nodes in a linear order whose links lead from each node to the next larger one,
and from the largest back to the smallest: the ring of free blocks of an address-ordered
allocator. Insertion behind a node and removal of the node behind it keep the order, and
from any node the links lead to every other.
-/
namespace LateOS.Lib

variable {α : Type} [LinearOrder α]

/-- `b` is the next larger node behind `a`, or `a` is the largest and `b` the smallest. -/
def Follows (F : Finset α) (a b : α) : Prop :=
  b ∈ F ∧ ((a < b ∧ ∀ x ∈ F, x ≤ a ∨ b ≤ x) ∨ (b ≤ a ∧ ∀ x ∈ F, b ≤ x ∧ x ≤ a))

/-- The links `next` run through `F` in ascending order and close the ring. -/
def CyclicList (F : Finset α) (next : α → α) : Prop := ∀ a ∈ F, Follows F a (next a)

/-- `x` belongs behind `a`, whose link leads to `b`. -/
def Between (a b x : α) : Prop := (a < x ∧ x < b) ∨ (b ≤ a ∧ (a < x ∨ x < b))

instance (a b x : α) : Decidable (Between a b x) := inferInstanceAs (Decidable (_ ∨ _))

/-- A walk that stops at the first node with a property has met no node twice. -/
theorem walk_nodup {β : Type} {f : β → β} {P : β → Prop} {a : β} {k : Nat}
    (before : ∀ i < k, ¬P (f^[i] a)) (stop : P (f^[k] a)) : (List.iterate f a (k + 1)).Nodup := by
  have distinct (i j : Nat) (less : i < j) (bound : j ≤ k) : f^[i] a ≠ f^[j] a := by
    intro same
    -- From the earlier of the two, the walk would have stopped sooner.
    apply before (k - j + i) (by omega)
    rw [Function.iterate_add_apply, same, ← Function.iterate_add_apply, Nat.sub_add_cancel bound]
    exact stop
  rw [← List.range_map_iterate]
  apply List.Nodup.map_on _ List.nodup_range
  intro i memberI j memberJ same
  have boundI : i < k + 1 := List.mem_range.mp memberI
  have boundJ : j < k + 1 := List.mem_range.mp memberJ
  rcases Nat.lt_trichotomy i j with less | equal | more
  · exact absurd same (distinct i j less (by omega))
  · exact equal
  · exact absurd same.symm (distinct j i more (by omega))

namespace CyclicList

variable {F : Finset α} {next : α → α} {a b x : α}

theorem next_mem (ring : CyclicList F next) (member : a ∈ F) : next a ∈ F := (ring a member).1

theorem congr (ring : CyclicList F next) {link : α → α} (same : ∀ a ∈ F, link a = next a) :
    CyclicList F link := by
  intro a member
  rw [same a member]
  exact ring a member

/-- A node that links to itself is the only one. -/
theorem alone (ring : CyclicList F next) (member : a ∈ F) (own : next a = a) (inside : x ∈ F) :
    x = a := by
  have follows := (ring a member).2
  rw [own] at follows
  rcases follows with ⟨less, _⟩ | ⟨_, all⟩
  · exact absurd less (lt_irrefl a)
  · exact le_antisymm (all x inside).2 (all x inside).1

/-- A set of nodes that the links do not leave is the whole ring. -/
theorem closed (ring : CyclicList F next) {S : α → Prop} (member : a ∈ F) (start : S a)
    (kept : ∀ b ∈ F, S b → S (next b)) : ∀ b ∈ F, S b := by
  classical
  let T := F.filter S
  have inT {c : α} : c ∈ T ↔ c ∈ F ∧ S c := Finset.mem_filter
  have nonempty : T.Nonempty := ⟨a, inT.mpr ⟨member, start⟩⟩
  -- the largest of them links back to the smallest node of all
  obtain ⟨topF, topS⟩ := inT.mp (T.max'_mem nonempty)
  have bottomT : next (T.max' nonempty) ∈ T := inT.mpr ⟨ring.next_mem topF, kept _ topF topS⟩
  have bottom : ∀ x ∈ F, next (T.max' nonempty) ≤ x := by
    intro x inside
    rcases (ring _ topF).2 with ⟨above, _⟩ | ⟨_, all⟩
    · exact absurd (T.le_max' _ bottomT) (not_le.mpr above)
    · exact (all x inside).1
  intro b inside
  -- from there they reach up to `b`
  let U := T.filter (· ≤ b)
  have nonemptyU : U.Nonempty := ⟨_, Finset.mem_filter.mpr ⟨bottomT, bottom b inside⟩⟩
  obtain ⟨lastT, below⟩ := Finset.mem_filter.mp (U.max'_mem nonemptyU)
  obtain ⟨lastF, lastS⟩ := inT.mp lastT
  rcases below.eq_or_lt with here | strict
  · rw [← here]
    exact lastS
  · exfalso
    rcases (ring _ lastF).2 with ⟨above, all⟩ | ⟨_, all⟩
    · rcases all b inside with under | past
      · exact absurd under (not_le.mpr strict)
      · have later : next (U.max' nonemptyU) ∈ U :=
          Finset.mem_filter.mpr ⟨inT.mpr ⟨ring.next_mem lastF, kept _ lastF lastS⟩, past⟩
        exact absurd (U.le_max' _ later) (not_le.mpr above)
    · exact absurd (all b inside).2 (not_le.mpr strict)

/-- Every node is reached from every node. -/
theorem reaches (ring : CyclicList F next) (source : a ∈ F) (target : b ∈ F) :
    ∃ n, next^[n] a = b := by
  have all : ∀ c ∈ F, ∃ n, next^[n] a = c := by
    refine ring.closed source ⟨0, rfl⟩ ?_
    rintro c _ ⟨n, rfl⟩
    exact ⟨n + 1, Function.iterate_succ_apply' next n a⟩
  exact all b target

theorem iterate_mem (ring : CyclicList F next) (member : a ∈ F) (n : Nat) :
    next^[n] a ∈ F := by
  induction n with
  | zero => exact member
  | succ n ih =>
    rw [Function.iterate_succ_apply']
    exact ring.next_mem ih

/-- Exactly one link leads down. -/
theorem one_wrap (ring : CyclicList F next) (member : b ∈ F) :
    ∃! a, a ∈ F ∧ next a ≤ a := by
  have nonempty : F.Nonempty := ⟨b, member⟩
  have top := F.max'_mem nonempty
  refine ⟨F.max' nonempty, ⟨top, F.le_max' _ (ring.next_mem top)⟩, ?_⟩
  rintro c ⟨inside, down⟩
  rcases (ring c inside).2 with ⟨above, _⟩ | ⟨_, all⟩
  · exact absurd down (not_le.mpr above)
  · exact le_antisymm (F.le_max' c inside) (all _ top).2

/-- There is a place for every address. -/
theorem exists_between (ring : CyclicList F next) (member : b ∈ F) (fresh : x ∉ F) :
    ∃ a ∈ F, Between a (next a) x := by
  -- Behind the largest smaller node if there is one, else behind the largest of all.
  by_cases below : ∃ a ∈ F, a < x
  · let U := F.filter (· < x)
    have nonempty : U.Nonempty := by
      obtain ⟨a, inside, under⟩ := below
      exact ⟨a, Finset.mem_filter.mpr ⟨inside, under⟩⟩
    obtain ⟨inside, under⟩ := Finset.mem_filter.mp (U.max'_mem nonempty)
    refine ⟨U.max' nonempty, inside, ?_⟩
    rcases (ring _ inside).2 with ⟨above, _⟩ | ⟨down, _⟩
    · left
      refine ⟨under, ?_⟩
      rcases lt_trichotomy x (next (U.max' nonempty)) with past | same | late
      · exact past
      · exact absurd (same ▸ ring.next_mem inside) fresh
      · have later : next (U.max' nonempty) ∈ U :=
          Finset.mem_filter.mpr ⟨ring.next_mem inside, late⟩
        exact absurd (U.le_max' _ later) (not_le.mpr above)
    · exact Or.inr ⟨down, Or.inl under⟩
  · have nonempty : F.Nonempty := ⟨b, member⟩
    have top := F.max'_mem nonempty
    have next_top := ring.next_mem top
    refine ⟨F.max' nonempty, top, Or.inr ⟨F.le_max' _ next_top, Or.inr ?_⟩⟩
    rcases lt_trichotomy x (next (F.max' nonempty)) with past | same | late
    · exact past
    · exact absurd (same ▸ next_top) fresh
    · exact absurd ⟨_, next_top, late⟩ below

/-- Linking a new node in at its place. -/
theorem insert (ring : CyclicList F next) (member : a ∈ F) (fresh : x ∉ F)
    (place : Between a (next a) x) :
    CyclicList (Insert.insert x F) (Function.update (Function.update next x (next a)) a x) := by
  have apart : a ≠ x := fun same => fresh (same ▸ member)
  have here := ring a member
  intro c inside
  by_cases atA : c = a
  · subst atA
    rw [Function.update_self]
    unfold Follows Between at *
    grind
  · rw [Function.update_of_ne atA]
    by_cases atX : c = x
    · subst atX
      rw [Function.update_self]
      unfold Follows Between at *
      grind
    · rw [Function.update_of_ne atX]
      have there := ring c (Finset.mem_of_mem_insert_of_ne inside atX)
      unfold Follows Between at *
      grind

/-- Unlinking the node behind `a`. -/
theorem erase (ring : CyclicList F next) (member : a ∈ F) (other : next a ≠ a) :
    CyclicList (F.erase (next a)) (Function.update next a (next (next a))) := by
  have here := ring a member
  have behind := ring (next a) here.1
  intro c inside
  by_cases atA : c = a
  · subst atA
    rw [Function.update_self]
    unfold Follows at *
    grind
  · rw [Function.update_of_ne atA]
    have there := ring c (Finset.mem_of_mem_erase inside)
    unfold Follows at *
    grind

end CyclicList

end LateOS.Lib
