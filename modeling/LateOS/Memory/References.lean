import Mathlib.Data.Nat.Count
import LateOS.Memory.Clone

/-!
# References of a table tree

How many leaf entries of a tree map a frame, page by page, and what the loops of `copytables` add to
the counts on any two trees that have the same shape.
-/
namespace LateOS

open Lib

namespace Machine

variable {m m' : Machine} {own own' : Word → Option (Word × List Nat)} {rp rc tp tc t f : Word}
  {p : List Nat} {i l n bound k : Nat}

/-! ## Pages by number -/

/-- `n` digits to the base 512, the highest first. -/
def digits : Nat → Nat → List Nat
  | 0, _ => []
  | n + 1, k => k / 512 ^ n :: digits n (k % 512 ^ n)

theorem digits_length (n k : Nat) : (digits n k).length = n := by
  induction n generalizing k with
  | zero => rfl
  | succ n ih => rw [digits, List.length_cons, ih]

theorem innerPath_digits (deep : p.length + n = 3) (below : p ≠ []) (small : k < 512 ^ n) :
    InnerPath Inner p (digits n k) := by
  induction n generalizing p k with
  | zero => trivial
  | succ n ih =>
    refine ⟨⟨by omega, ?_, fun empty => absurd empty below⟩, ?_⟩
    · exact Nat.div_lt_of_lt_mul (by rwa [← Nat.pow_succ])
    · exact ih (by rw [List.length_append, List.length_singleton]; omega) (by simp)
        (Nat.mod_lt _ (Nat.pow_pos (by decide)))

/-- The leaf entry `k` below table `t`, which is `n` levels above the leaf tables. -/
def leafEntry (m : Machine) (n : Nat) (t : Word) (k : Nat) : Option Word :=
  m.tables.lookup t (digits n (k / 512)) (k % 512)

/-- How many of the first `bound` leaf entries below `t` map the frame `f`. -/
def references (m : Machine) (n : Nat) (t f : Word) (bound : Nat) : Nat :=
  Nat.count (fun k => (m.leafEntry n t k).map frame = some f) bound

theorem references_congr {s : Machine} {t' : Word}
    (same : ∀ k < bound, m.leafEntry n t k = s.leafEntry n t' k) (f : Word) :
    m.references n t f bound = s.references n t' f bound := by
  unfold references
  rw [Nat.count_eq_card_filter_range, Nat.count_eq_card_filter_range]
  congr 1
  refine Finset.filter_congr fun k member => ?_
  rw [same k (Finset.mem_range.mp member)]

theorem block_digits (n i : Nat) (small : k < 512 ^ (n + 1)) :
    digits (n + 1) ((i * 512 ^ (n + 1) + k) / 512) = i :: digits n (k / 512) ∧
      (i * 512 ^ (n + 1) + k) % 512 = k % 512 := by
  have block : i * 512 ^ (n + 1) = i * 512 ^ n * 512 := by rw [Nat.pow_succ, Nat.mul_assoc]
  have small' : k / 512 < 512 ^ n := Nat.div_lt_of_lt_mul (by rwa [Nat.mul_comm, ← Nat.pow_succ])
  have quotient : (i * 512 ^ (n + 1) + k) / 512 = i * 512 ^ n + k / 512 := by
    rw [block, Nat.add_comm, Nat.add_mul_div_right _ _ (by decide), Nat.add_comm]
  rw [quotient, digits]
  refine ⟨?_, by rw [block]; omega⟩
  rw [Nat.add_comm, Nat.add_mul_div_right _ _ (Nat.pow_pos (by decide)),
    Nat.div_eq_of_lt small', Nat.zero_add, Nat.add_mul_mod_self_right, Nat.mod_eq_of_lt small']

/-- Round `i` of a loop above the leaf tables deals with these references. -/
theorem references_block {s : Machine} (m : Machine) (n i : Nat) (t t' f : Word)
    (same : ∀ k < 512 ^ (n + 1), m.tables.lookup t (i :: digits n (k / 512)) (k % 512) =
      s.tables.lookup t' (digits n (k / 512)) (k % 512)) :
    m.references (n + 1) t f ((i + 1) * 512 ^ (n + 1)) =
      m.references (n + 1) t f (i * 512 ^ (n + 1)) + s.references n t' f (512 * 512 ^ n) := by
  unfold references
  rw [Nat.succ_mul, Nat.count_add, ← Nat.pow_succ']
  congr 1
  rw [Nat.count_eq_card_filter_range, Nat.count_eq_card_filter_range]
  congr 1
  refine Finset.filter_congr fun k member => ?_
  have small := Finset.mem_range.mp member
  obtain ⟨upper, last⟩ := block_digits n i small
  unfold leafEntry
  rw [upper, last, same k small]

theorem references_none (m : Machine) (n i : Nat) (t f : Word)
    (missing : present (m.mem t i) = false) :
    m.references (n + 1) t f ((i + 1) * 512 ^ (n + 1)) =
      m.references (n + 1) t f (i * 512 ^ (n + 1)) := by
  unfold references
  rw [Nat.succ_mul, Nat.count_add, Nat.add_eq_left, Nat.count_iff_forall_not]
  intro k small found
  obtain ⟨upper, last⟩ := block_digits n i small
  have dead : m.tables.target (m.tables.mem t i) = none := by
    change m.tables.target (m.mem t i) = none
    simp [tables, missing]
  unfold leafEntry at found
  rw [upper, last, Tables.lookup_cons, dead] at found
  cases found

/-! ## The loops -/

/-- `shareEntry` counts the frame of a page that is there. -/
theorem shareEntry_refCount (ran : m.shareEntry tp tc l = some m') (f : Word) :
    m'.refCount f = m.refCount f +
      if present (m.mem tp l) = true ∧ frame (m.mem tp l) = f then 1 else 0 := by
  unfold shareEntry at ran
  dsimp only at ran
  split at ran
  next here =>
    cases ran
    change Function.update m.refCount (frame (m.mem tp l)) _ f = _
    by_cases own : frame (m.mem tp l) = f
    · rw [if_pos ⟨here, own⟩, own, Function.update_self]
    · rw [if_neg fun both => own both.2, Function.update_of_ne (Ne.symm own), Nat.add_zero]
  next missing =>
    cases ran
    rw [if_neg fun both => missing both.1, Nat.add_zero]

/-- One more entry of a leaf table. -/
theorem references_leaf (m : Machine) (t f : Word) (narrow : l < 512) :
    m.references 0 t f (l + 1) = m.references 0 t f l +
      if present (m.mem t l) = true ∧ frame (m.mem t l) = f then 1 else 0 := by
  have step : m.references 0 t f (l + 1) = m.references 0 t f l +
      if (m.leafEntry 0 t l).map frame = some f then 1 else 0 := Nat.count_succ _ _
  rw [step]
  unfold leafEntry digits
  rw [lookup_leaf, Nat.mod_eq_of_lt narrow]
  cases present (m.mem t l) <;> simp

/-- Neither the rounds before nor the new table have changed what lies behind entry `i`. -/
theorem Pair.behind {s s1 : Machine} {own1 : Word → Option (Word × List Nat)} {g : Word}
    (pair : Pair m own rp rc p (n + 1) bound tp tc) (done : Cloned m own rp rc p tp tc i s own1)
    (below : i < bound) (here : present (s.mem tp i) = true) (picked : Picked s own1 g s1)
    (small : k < 512 ^ (n + 1)) :
    m.tables.lookup tp (i :: digits n (k / 512)) (k % 512) =
      (s1.fill tc i g).tables.lookup (frame (s.mem tp i)) (digits n (k / 512)) (k % 512) := by
  obtain ⟨parent, child⟩ := pair.still done
  have inner := pair.inner below
  have deep := pair.deep
  have fresh := (done.child i (Nat.le_refl i)).trans (pair.blank i below)
  have inside : InnerPath Inner (p ++ [i]) (digits n (k / 512)) :=
    innerPath_digits (by rw [List.length_append, List.length_singleton]; omega) (by simp)
      (Nat.div_lt_of_lt_mul (by rwa [Nat.mul_comm, ← Nat.pow_succ]))
  have length : p.length + (i :: digits n (k / 512)).length = 3 := by
    rw [List.length_cons, digits_length]
    exact deep
  rw [← done.rest (i :: digits n (k / 512)) (k % 512) i (digits n (k / 512) ++ [k % 512])
    ⟨inner, inside⟩ length rfl (Nat.le_refl i), Tables.lookup_cons]
  have leads : s.tables.target (s.tables.mem tp i) = some (frame (s.mem tp i)) := target_some here
  rw [leads]
  refine (picked.fill_lookup done.tree child inner (by simp [fresh])
    (done.tree.child parent inner here) inside ?_).symm
  rw [digits_length, List.length_append, List.length_singleton]
  omega

theorem getFreeFrame_refCount {g : Word} (popped : m.getFreeFrame = some (g, m'))
    (other : f ≠ g) : m'.refCount f = m.refCount f := by
  unfold getFreeFrame at popped
  split at popped
  next => cases popped
  next first rest list =>
    cases popped
    exact Function.update_of_ne other _ _

/-- The count of a frame that is not taken for a table goes up once for each leaf entry of the
parent that maps it. -/
theorem Pair.refCount (pair : Pair m own rp rc p n bound tp tc)
    (ran : Machine.copyLevel n bound tp tc m = some m') (left : f ∈ m.head → f ∈ m'.head) :
    m'.refCount f = m.refCount f + m.references n tp f (bound * 512 ^ n) := by
  induction n generalizing tp tc p m bound m' own with
  | zero =>
    have all : (∃ own1, Cloned m own rp rc p tp tc bound m' own1) ∧
        m'.refCount f = m.refCount f + m.references 0 tp f bound := by
      refine loop_inv (I := fun i s => (∃ own1, Cloned m own rp rc p tp tc i s own1) ∧
        s.refCount f = m.refCount f + m.references 0 tp f i)
        ⟨⟨own, .start pair.tree pair.direct⟩, by simp [references]⟩ ?_ ran
      rintro l s s' below ⟨⟨own1, done⟩, counted⟩ ran
      have fits := pair.fits
      refine ⟨⟨own1, done.leaf pair.parent pair.child pair.deep (pair.blank l below) ran⟩, ?_⟩
      rw [shareEntry_refCount ran f, counted, references_leaf m tp f (by omega),
        done.parent l (Nat.le_refl l), Nat.add_assoc]
    rw [Nat.pow_zero, Nat.mul_one]
    exact all.2
  | succ n ih =>
    refine pair.rounds_inv (I := fun i s => (f ∈ m.head → f ∈ s.head) →
      s.refCount f = m.refCount f + m.references (n + 1) tp f (i * 512 ^ (n + 1)))
      (fun _ => by simp [references]) (fun i s own1 below done missing counted left => ?_)
      (fun i s own1 g s1 s' below done here popped ran counted left => ?_) ran left
    · have same := done.parent i (Nat.le_refl i)
      rw [references_none m n i tp f (by rw [← same]; exact missing)]
      exact counted left
    · have picked := done.tree.getFreeFrame popped
      have next := pair.next done below here picked
      obtain ⟨own3, lower⟩ := next.copyLevel ran
      have still (member : f ∈ m.head) : f ∈ s1.head := lower.head.mem (left member)
      have other : f ≠ g := by
        rintro rfl
        exact picked.out (still (done.head.mem picked.member))
      have more := ih next ran fun member => left (done.head.mem (picked.suffix.mem member))
      have taken : s1.refCount f = s.refCount f := getFreeFrame_refCount popped other
      change s'.refCount f = s1.refCount f + _ at more
      rw [references_block m n i tp (frame (s.mem tp i)) f fun k small =>
          pair.behind done below here picked small,
        more, taken, counted fun member => picked.suffix.mem (still member), Nat.add_assoc]

/-! ## Whole address spaces -/

/-- Pages under slots 0 to 510 of a PML4. -/
abbrev userPages : Nat := 511 * 512 ^ 3

theorem leafEntry_translate (m : Machine) (r : Word) (small : k < userPages) :
    m.leafEntry 3 r k = m.translate r (4096 * k) := by
  have small : k < 511 * 134217728 := small
  have path : digits 3 (k / 512) = upperPath (4096 * k) := by
    unfold upperPath pml4Index pdptIndex pdIndex
    simp only [digits, index_eq]
    refine List.cons_eq_cons.mpr ⟨by omega, List.cons_eq_cons.mpr ⟨by omega, ?_⟩⟩
    exact List.cons_eq_cons.mpr ⟨by omega, rfl⟩
  have last : k % 512 = ptIndex (4096 * k) := by
    unfold ptIndex
    rw [index_eq]
    omega
  unfold leafEntry translate
  rw [path, last]

theorem user_of_page (small : k < userPages) : UserAddress (4096 * k) := by
  have small : k < 511 * 134217728 := small
  unfold UserAddress pml4Index
  rw [index_eq]
  omega

end Machine

end LateOS
