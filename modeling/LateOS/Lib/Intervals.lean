import Mathlib.Algebra.BigOperators.Group.Finset.Basic
import Mathlib.Algebra.BigOperators.Group.List.Basic
import Mathlib.Algebra.GroupWithZero.Nat
import Mathlib.Algebra.Order.BigOperators.Group.Finset
import Mathlib.Order.Interval.Finset.Nat

/-!
# Intervals

Intervals of natural numbers, each given by its start and its length. Intervals that keep apart
and lie inside a list of others are no longer than these together, so that they cannot leave one
of them out and still be as long. Intervals with room between them are known by the numbers that
they cover.
-/
namespace LateOS.Lib

variable {F : Finset Nat} {len : Nat → Nat} {l : List (Nat × Nat)} {r : Nat × Nat}

/-- The intervals at the members of `F` do not overlap. -/
def KeepApart (F : Finset Nat) (len : Nat → Nat) : Prop :=
  ∀ a ∈ F, ∀ b ∈ F, a < b → a + len a ≤ b

/-- The interval at `a` lies inside `r`. -/
def LiesIn (a n : Nat) (r : Nat × Nat) : Prop := r.1 ≤ a ∧ a + n ≤ r.1 + r.2

def totalLength (l : List (Nat × Nat)) : Nat := (l.map Prod.snd).sum

/-- There are no more numbers in a list of intervals than the intervals are long. -/
theorem card_le_totalLength {s : Finset Nat}
    (covered : ∀ x ∈ s, ∃ r ∈ l, r.1 ≤ x ∧ x < r.1 + r.2) : s.card ≤ totalLength l := by
  induction l generalizing s with
  | nil =>
    have empty : s = ∅ := by
      apply Finset.eq_empty_of_forall_notMem
      intro x member
      obtain ⟨r, inL, _⟩ := covered x member
      cases inL
    rw [empty]
    exact Nat.zero_le _
  | cons r rest ih =>
    -- What is not in the first interval is in the others.
    have later : (s \ Finset.Ico r.1 (r.1 + r.2)).card ≤ totalLength rest := by
      apply ih
      intro x member
      obtain ⟨inS, out⟩ := Finset.mem_sdiff.mp member
      obtain ⟨q, inL, bounds⟩ := covered x inS
      rcases List.mem_cons.mp inL with rfl | inRest
      · exact absurd (Finset.mem_Ico.mpr bounds) out
      · exact ⟨q, inRest, bounds⟩
    have split := Finset.card_le_card_sdiff_add_card (s := s) (t := Finset.Ico r.1 (r.1 + r.2))
    rw [Nat.card_Ico, Nat.add_sub_cancel_left] at split
    have total : totalLength (r :: rest) = r.2 + totalLength rest := rfl
    omega

/-- Intervals that keep apart are as long as the set of their numbers is large. -/
theorem KeepApart.card (apart : KeepApart F len) :
    (F.biUnion fun a => Finset.Ico a (a + len a)).card = ∑ a ∈ F, len a := by
  have disjoint : (F : Set Nat).PairwiseDisjoint fun a => Finset.Ico a (a + len a) := by
    intro a memberA b memberB other
    apply Finset.disjoint_left.mpr
    intro x inA inB
    obtain ⟨lowA, highA⟩ := Finset.mem_Ico.mp inA
    obtain ⟨lowB, highB⟩ := Finset.mem_Ico.mp inB
    rcases Nat.lt_or_gt_of_ne other with less | more
    · have room := apart a memberA b memberB less
      omega
    · have room := apart b memberB a memberA more
      omega
  rw [Finset.card_biUnion disjoint]
  apply Finset.sum_congr rfl
  intro a _
  rw [Nat.card_Ico, Nat.add_sub_cancel_left]

private theorem covered_inside (inside : ∀ a ∈ F, ∃ r ∈ l, LiesIn a (len a) r) {x : Nat}
    (member : x ∈ F.biUnion fun a => Finset.Ico a (a + len a)) :
    ∃ r ∈ l, r.1 ≤ x ∧ x < r.1 + r.2 := by
  obtain ⟨a, inF, inA⟩ := Finset.mem_biUnion.mp member
  obtain ⟨low, high⟩ := Finset.mem_Ico.mp inA
  obtain ⟨r, inL, above, below⟩ := inside a inF
  exact ⟨r, inL, by omega, by omega⟩

/-- Intervals that are together as long as those around them cover every number in these. -/
theorem KeepApart.tiles (apart : KeepApart F len) (inside : ∀ a ∈ F, ∃ r ∈ l, LiesIn a (len a) r)
    (total : totalLength l ≤ ∑ a ∈ F, len a) {x : Nat} (member : r ∈ l) (above : r.1 ≤ x)
    (below : x < r.1 + r.2) : ∃ a ∈ F, a ≤ x ∧ x < a + len a := by
  by_contra none
  have out : x ∉ F.biUnion fun a => Finset.Ico a (a + len a) := by
    intro covered
    obtain ⟨a, inF, inA⟩ := Finset.mem_biUnion.mp covered
    exact none ⟨a, inF, Finset.mem_Ico.mp inA⟩
  -- With `x` there would be more numbers than the intervals around them have.
  have more : (insert x (F.biUnion fun a => Finset.Ico a (a + len a))).card ≤ totalLength l := by
    apply card_le_totalLength
    intro y member'
    rcases Finset.mem_insert.mp member' with rfl | covered
    · exact ⟨r, member, above, below⟩
    · exact covered_inside inside covered
  rw [Finset.card_insert_of_notMem out, apart.card] at more
  omega

/-! ## Intervals with room between them -/

variable {I J : Set (Nat × Nat)} {s : Nat × Nat}

/-- The numbers in the intervals. -/
def covered (I : Set (Nat × Nat)) : Set Nat := {x | ∃ r ∈ I, r.1 ≤ x ∧ x < r.1 + r.2}

/-- No interval is empty, and none begins where another ends. -/
structure Separated (I : Set (Nat × Nat)) : Prop where
  filled : ∀ r ∈ I, 0 < r.2
  room : ∀ r ∈ I, ∀ s ∈ I, r = s ∨ r.1 + r.2 < s.1 ∨ s.1 + s.2 < r.1

/-- The number in front of an interval is in none. -/
theorem Separated.front (apart : Separated I) (member : r ∈ I) {x : Nat} (before : x + 1 = r.1) :
    x ∉ covered I := by
  rintro ⟨s, inI, low, high⟩
  rcases apart.room r member s inI with rfl | above | below
  · omega
  · omega
  · omega

/-- So is the number behind it. -/
theorem Separated.behind (apart : Separated I) (member : r ∈ I) : r.1 + r.2 ∉ covered I := by
  rintro ⟨s, inI, low, high⟩
  rcases apart.room r member s inI with rfl | above | below
  · omega
  · omega
  · omega

/-- Of two intervals with the same start, neither is longer. -/
private theorem Separated.length_le (apart : Separated J) (same : covered I = covered J)
    (inI : r ∈ I) (inJ : s ∈ J) (start : r.1 = s.1) : r.2 ≤ s.2 := by
  by_contra longer
  apply apart.behind inJ
  rw [← same]
  exact ⟨r, inI, by omega, by omega⟩

private theorem Separated.subset (apartI : Separated I) (apartJ : Separated J)
    (same : covered I = covered J) : I ⊆ J := by
  intro r inI
  have filled := apartI.filled r inI
  have first : r.1 ∈ covered I := ⟨r, inI, Nat.le_refl _, by omega⟩
  rw [same] at first
  obtain ⟨s, inJ, low, high⟩ := first
  have start : r.1 = s.1 := by
    by_contra other
    obtain ⟨x, before⟩ : ∃ x, x + 1 = r.1 := ⟨r.1 - 1, by omega⟩
    apply apartI.front inI before
    rw [same]
    exact ⟨s, inJ, by omega, by omega⟩
  have length : r.2 = s.2 := Nat.le_antisymm (apartJ.length_le same inI inJ start)
    (apartI.length_le same.symm inJ inI start.symm)
  rw [Prod.ext start length]
  exact inJ

/-- The numbers covered determine the intervals. -/
theorem Separated.ext (apartI : Separated I) (apartJ : Separated J)
    (same : covered I = covered J) : I = J :=
  (apartI.subset apartJ same).antisymm (apartJ.subset apartI same.symm)

end LateOS.Lib
