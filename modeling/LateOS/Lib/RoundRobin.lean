import Mathlib.Data.Finset.Card
import Mathlib.Data.List.Chain
import Mathlib.Data.Nat.ModEq

/-!
# Going round a finite set

The members of a finite set of a linear order, taken upwards and again from the least one behind
the greatest. Where each entry of a list succeeds the one before in this order, any stretch as long
as the set has every member once.
-/
namespace LateOS.Lib

variable {α : Type} [LinearOrder α] {R : Finset α} {c d : α}

/-- `d` is the first member of `R` behind `c`, going round. -/
def Succeeds (R : Finset α) (c d : α) : Prop :=
  d ∈ R ∧ ((c < d ∧ ∀ r ∈ R, c < r → d ≤ r) ∨ ∀ r ∈ R, r ≤ c ∧ d ≤ r)

/-- How many members of `R` lie below `c`. -/
def rank (R : Finset α) (c : α) : Nat := (R.filter (· < c)).card

theorem rank_lt (member : c ∈ R) : rank R c < R.card := by
  apply Finset.card_lt_card
  exact Finset.filter_ssubset.mpr ⟨c, member, lt_irrefl c⟩

/-- One step round the set is one step round the ranks. -/
theorem Succeeds.rank (succeeds : Succeeds R c d) (member : c ∈ R) :
    rank R d = (rank R c + 1) % R.card := by
  obtain ⟨inside, ⟨above, first⟩ | around⟩ := succeeds
  -- Between `c` and `d` there is no other member.
  · have lower : R.filter (· < d) = insert c (R.filter (· < c)) := by
      ext r
      rw [Finset.mem_filter, Finset.mem_insert, Finset.mem_filter]
      constructor
      · rintro ⟨r_mem, below⟩
        rcases lt_trichotomy r c with less | equal | greater
        · exact Or.inr ⟨r_mem, less⟩
        · exact Or.inl equal
        · exact absurd below (first r r_mem greater).not_gt
      · rintro (rfl | ⟨r_mem, below⟩)
        · exact ⟨member, above⟩
        · exact ⟨r_mem, below.trans above⟩
    have next : Lib.rank R d = Lib.rank R c + 1 := by
      unfold Lib.rank
      rw [lower, Finset.card_insert_of_notMem (by simp)]
    rw [← next, Nat.mod_eq_of_lt (rank_lt inside)]
  -- Behind the greatest member comes the least.
  · have least : Lib.rank R d = 0 := by
      rw [Lib.rank, Finset.card_eq_zero, Finset.filter_eq_empty_iff]
      intro r r_mem
      exact (around r r_mem).2.not_gt
    have greatest : R.filter (· < c) = R.erase c := by
      ext r
      rw [Finset.mem_filter, Finset.mem_erase]
      constructor
      · rintro ⟨r_mem, below⟩
        exact ⟨below.ne, r_mem⟩
      · rintro ⟨other, r_mem⟩
        exact ⟨r_mem, (around r r_mem).1.lt_of_ne other⟩
    have some : 0 < R.card := Finset.card_pos.mpr ⟨c, member⟩
    have last : Lib.rank R c + 1 = R.card := by
      rw [Lib.rank, greatest, Finset.card_erase_of_mem member]
      omega
    rw [least, last, Nat.mod_self]

theorem mem_of_chain {l : List α} (chain : (c :: l).IsChain (Succeeds R)) : ∀ d ∈ l, d ∈ R := by
  induction l generalizing c with
  | nil => simp
  | cons e l ih =>
    rw [List.isChain_cons_cons] at chain
    intro d member
    rcases List.mem_cons.mp member with rfl | later
    · exact chain.1.1
    · exact ih chain.2 d later

theorem rank_of_chain {l : List α} (chain : l.IsChain (Succeeds R)) (inside : ∀ d ∈ l, d ∈ R)
    (first : 0 < l.length) (i : Nat) (bound : i < l.length) :
    rank R l[i] = (rank R l[0] + i) % R.card := by
  induction i with
  | zero => simp [Nat.mod_eq_of_lt (rank_lt (inside l[0] (List.getElem_mem bound)))]
  | succ i ih =>
    have succeeds := List.isChain_iff_getElem.mp chain i bound
    have member : l[i] ∈ R := inside _ (List.getElem_mem _)
    rw [succeeds.rank member, ih (by omega), Nat.mod_add_mod, Nat.add_assoc]

/-- As many entries as there are members: each member once. -/
theorem once_around {l : List α} (chain : l.IsChain (Succeeds R)) (inside : ∀ d ∈ l, d ∈ R)
    (length : l.length = R.card) (d : α) : l.count d = if d ∈ R then 1 else 0 := by
  -- The ranks of the entries are distinct modulo the number of members.
  have nodup : l.Nodup := by
    rw [List.nodup_iff_injective_getElem]
    rintro ⟨i, i_lt⟩ ⟨j, j_lt⟩ same
    have first : 0 < l.length := by omega
    have ranks : (rank R l[0] + i) % R.card = (rank R l[0] + j) % R.card := by
      rw [← rank_of_chain chain inside first i i_lt,
        ← rank_of_chain chain inside first j j_lt]
      exact congrArg (rank R) same
    have near : i ≡ j [MOD R.card] := Nat.ModEq.add_left_cancel' _ ranks
    apply Fin.ext
    exact near.eq_of_lt_of_lt (by omega) (by omega)
  -- Distinct members, as many as there are, are all of them.
  have all : l.toFinset = R := by
    apply Finset.eq_of_subset_of_card_le
    · intro d member
      exact inside d (List.mem_toFinset.mp member)
    · rw [List.toFinset_card_of_nodup nodup, length]
  subst all
  simp [List.Nodup.count nodup]

/-- The same for every stretch of a list that goes round from any start. -/
theorem stretch_around {l window : List α} (chain : (c :: l).IsChain (Succeeds R))
    (part : window <:+: l) (length : window.length = R.card) (d : α) :
    window.count d = if d ∈ R then 1 else 0 := by
  have inside := mem_of_chain chain
  apply once_around _ _ length
  · obtain ⟨front, back, rfl⟩ := part
    exact (chain.tail.left_of_append).right_of_append
  · intro d member
    exact inside d (part.subset member)

end LateOS.Lib
