import Mathlib.Data.List.TakeWhile
import LateOS.Files.NormalForm

/-!
# The stores of deriveRelative

`deriveRelative` with the offsets that it stores to. They stay in its buffer as long as no two dots
are met where nothing but a first component is left to go back over, and there is room for the
second terminator.
-/
namespace LateOS

open Descriptors
open Lib (render resolve render_nil render_cons render_append)

/-- A buffer and the offsets stored to so far. -/
structure StoreLog where
  bytes : Buffer
  stores : List Int

namespace StoreLog

variable {b : StoreLog} {i o : Int} {path r : List UInt8}

def store (b : StoreLog) (i : Int) (x : UInt8) : StoreLog :=
  ⟨Function.update b.bytes i x, i :: b.stores⟩

@[simp] theorem store_self (b : StoreLog) (i : Int) (x : UInt8) : (b.store i x).bytes i = x :=
  Function.update_self _ _ _

theorem store_other (b : StoreLog) (x : UInt8) {k : Int} (other : k ≠ i) :
    (b.store i x).bytes k = b.bytes k := Function.update_of_ne other _ _

/-! ## The function with its log -/

def unwindLog : Nat → StoreLog → Int → StoreLog × Int
  | 0, b, pathOffset => (b, pathOffset)
  | fuel + 1, b, pathOffset =>
    if b.bytes pathOffset ≠ 47 ∧ 0 ≤ pathOffset then
      unwindLog fuel (b.store pathOffset 0) (pathOffset - 1)
    else (b, pathOffset)

def deriveLog : List UInt8 → StoreLog → Int → StoreLog × Int
  | [], b, pathOffset => (b, pathOffset)
  | [c], b, pathOffset => (b.store pathOffset c, pathOffset + 1)
  | c :: d :: rest, b, pathOffset =>
    if c = 46 ∧ d = 46 then
      let (b, pathOffset) := unwindLog pathOffset.toNat (b.store (pathOffset - 1) 0) (pathOffset - 1)
      deriveLog rest b pathOffset
    else deriveLog (d :: rest) (b.store pathOffset c) (pathOffset + 1)

def ended (result : StoreLog × Int) : StoreLog :=
  (result.1.store result.2 0).store (result.2 + 1) 0

def deriveRelativeLog (currDir : List UInt8) (absPath : Buffer) : StoreLog :=
  ended (deriveLog (filePath currDir (readString absPath)) (store ⟨absPath, []⟩ 0 0) 0)

/-! ## Without the log, it is the function -/

theorem unwindLog_bytes (fuel : Nat) (b : StoreLog) (o : Int) :
    ((unwindLog fuel b o).1.bytes, (unwindLog fuel b o).2) = unwindLoop fuel b.bytes o := by
  induction fuel generalizing b o with
  | zero => rfl
  | succ fuel ih =>
    rw [unwindLog, unwindLoop]
    split
    · exact ih (b.store o 0) (o - 1)
    · rfl

theorem deriveLog_bytes (path : List UInt8) (b : StoreLog) (o : Int) :
    ((deriveLog path b o).1.bytes, (deriveLog path b o).2) = deriveLoop path b.bytes o := by
  induction path, b, o using deriveLog.induct with
  | case1 b o => rfl
  | case2 c b o => rfl
  | case3 c d rest b o dots b' o' unwound ih =>
    have same := unwindLog_bytes o.toNat (b.store (o - 1) 0) (o - 1)
    rw [unwound] at same
    rw [deriveLog, deriveLoop, if_pos dots, if_pos dots, unwound]
    dsimp only
    rw [ih]
    -- Both loops go back equally far, and the rest is the induction.
    have walked : unwindLoop o.toNat (resetString b.bytes (o - 1)) (o - 1) = (b'.bytes, o') :=
      same.symm
    rw [walked]
  | case4 c d rest b o other ih =>
    rw [deriveLog, deriveLoop, if_neg other, if_neg other]
    exact ih

theorem deriveRelativeLog_bytes (currDir : List UInt8) (absPath : Buffer) :
    (deriveRelativeLog currDir absPath).bytes = deriveRelative currDir absPath := by
  obtain ⟨bytes, offset⟩ := Prod.ext_iff.mp
    (deriveLog_bytes (filePath currDir (readString absPath)) (store ⟨absPath, []⟩ 0 0) 0)
  dsimp only at bytes offset
  unfold deriveRelativeLog deriveRelative ended
  change resetString (resetString _ _) _ = _
  rw [bytes, offset]
  rfl

/-! ## Where the stores go -/

/-- Every store so far is to one of the 100 bytes of the buffer. -/
def Within (b : StoreLog) : Prop := ∀ i ∈ b.stores, 0 ≤ i ∧ i ≤ 99

theorem within_store : (b.store i x).Within ↔ (0 ≤ i ∧ i ≤ 99) ∧ b.Within := List.forall_mem_cons

/-- The inner loop stores to nothing in front of the buffer. -/
theorem unwindLog_stores (fuel : Nat) (b : StoreLog) (o : Int) :
    ∀ i ∈ (unwindLog fuel b o).1.stores, i ∈ b.stores ∨ (0 ≤ i ∧ i ≤ o) := by
  induction fuel generalizing b o with
  | zero => exact fun i member => Or.inl member
  | succ fuel ih =>
    intro i member
    rw [unwindLog] at member
    split at member
    next more =>
      rcases ih (b.store o 0) (o - 1) i member with before | ⟨low, high⟩
      · rcases List.mem_cons.mp before with rfl | old
        · exact Or.inr ⟨more.2, Int.le_refl i⟩
        · exact Or.inl old
      · exact Or.inr ⟨low, by omega⟩
    next => exact Or.inl member

/-- A store is never taken back. -/
theorem unwindLog_grows (fuel : Nat) (b : StoreLog) (o : Int) (member : i ∈ b.stores) :
    i ∈ (unwindLog fuel b o).1.stores := by
  induction fuel generalizing b o with
  | zero => exact member
  | succ fuel ih =>
    rw [unwindLog]
    split
    · exact ih (b.store o 0) (o - 1) (List.mem_cons_of_mem o member)
    · exact member

theorem deriveLog_grows (path : List UInt8) (b : StoreLog) (o : Int) (member : i ∈ b.stores) :
    i ∈ (deriveLog path b o).1.stores := by
  induction path, b, o using deriveLog.induct with
  | case1 b o => exact member
  | case2 c b o => exact List.mem_cons_of_mem o member
  | case3 c d rest b o dots b' o' unwound ih =>
    have kept := unwindLog_grows o.toNat (b.store (o - 1) 0) (o - 1) (List.mem_cons_of_mem _ member)
    rw [unwound] at kept
    rw [deriveLog, if_pos dots, unwound]
    exact ih kept
  | case4 c d rest b o other ih =>
    rw [deriveLog, if_neg other]
    exact ih (List.mem_cons_of_mem o member)

/-- Once a store has gone wrong, the log shows it in the end. -/
theorem not_within (path : List UInt8) (wrong : i < 0) (member : i ∈ b.stores) :
    ¬(ended (deriveLog path b o)).Within := by
  intro within
  have low := (within i (List.mem_cons_of_mem _ (List.mem_cons_of_mem _
    (deriveLog_grows path b o member)))).1
  omega

/-- From in front of the buffer, the next store goes there. -/
theorem front_not_within (path : List UInt8) (front : o < 0) :
    ¬(ended (deriveLog path b o)).Within := by
  cases path with
  | nil =>
    rw [deriveLog, ended, within_store, within_store]
    rintro ⟨_, ⟨low, _⟩, _⟩
    omega
  | cons c rest =>
    cases rest with
    | nil =>
      rw [deriveLog, ended, within_store, within_store, within_store]
      rintro ⟨_, _, ⟨low, _⟩, _⟩
      omega
    | cons d rest =>
      rw [deriveLog]
      split
      · cases unwound : unwindLog o.toNat (b.store (o - 1) 0) (o - 1) with
        | mk b' o' =>
          have kept := unwindLog_grows o.toNat (b.store (o - 1) 0) (o - 1) List.mem_cons_self
          rw [unwound] at kept
          exact not_within rest (by omega) kept
      · exact not_within (d :: rest) front List.mem_cons_self

end StoreLog

/-! ## Paths that keep the stores inside -/

/-- `written`, read backwards, is what has been resolved so far. Two dots go back over its last
character and on to the `/` in front of that; there has to be one. In the end, 98 characters are
left at most. -/
def StaysInside : List UInt8 → List UInt8 → Prop
  | written, [] => written.length < 99
  | written, [_] => written.length + 1 < 99
  | written, c :: d :: rest =>
    if c = 46 ∧ d = 46 then
      47 ∈ written.drop 1 ∧ StaysInside (((written.drop 1).dropWhile (· ≠ 47)).drop 1) rest
    else StaysInside (c :: written) (d :: rest)

instance decidableStaysInside : ∀ written path, Decidable (StaysInside written path)
  | written, [] => inferInstanceAs (Decidable (written.length < 99))
  | written, [_] => inferInstanceAs (Decidable (written.length + 1 < 99))
  | written, c :: d :: rest =>
    have := decidableStaysInside (((written.drop 1).dropWhile (· ≠ 47)).drop 1) rest
    have := decidableStaysInside (c :: written) (d :: rest)
    if dots : c = 46 ∧ d = 46 then
      decidable_of_iff (47 ∈ written.drop 1 ∧
        StaysInside (((written.drop 1).dropWhile (· ≠ 47)).drop 1) rest)
        (by rw [StaysInside, if_pos dots])
    else decidable_of_iff (StaysInside (c :: written) (d :: rest)) (by rw [StaysInside, if_neg dots])

open StoreLog

section

variable {written before path : List UInt8} {b : StoreLog} {o : Int} {slash : UInt8}

/-- The log does not change how far the inner loop goes back. -/
private theorem unwindLog_back {n fuel : Nat} {p : Int}
    (plain : ∀ k, p < k → k ≤ p + n → b.bytes k ≠ 47) (halt : b.bytes p = 47 ∨ p < 0) (low : -1 ≤ p)
    (enough : n ≤ fuel) : ∃ b' : StoreLog, unwindLog fuel b (p + n) = (b', p) ∧
      ∀ k ≤ p, b'.bytes k = b.bytes k := by
  obtain ⟨absPath', walked, kept⟩ := unwindLoop_back plain halt low enough
  have same := unwindLog_bytes fuel b (p + n)
  rw [walked] at same
  obtain ⟨bytes, offset⟩ := Prod.ext_iff.mp same
  refine ⟨(unwindLog fuel b (p + n)).1, Prod.ext rfl offset, fun k below => ?_⟩
  dsimp only at bytes
  rw [bytes, kept k below]

/-- The way back over the last character and up to the `/` in front of it. -/
theorem Stored.unwind (stored : Stored written.reverse b.bytes o)
    (back : (written.drop 1).dropWhile (· ≠ 47) = slash :: before) :
    ∃ b' : StoreLog, unwindLog o.toNat (b.store (o - 1) 0) (o - 1) = (b', (before.length : Int)) ∧
      Stored before.reverse b'.bytes before.length ∧ before.length + 2 ≤ written.length ∧
      (b.Within → written.length ≤ 100 → b'.Within) := by
  cases written with
  | nil => cases back
  | cons x rest =>
    rw [List.drop_one, List.tail_cons] at back
    -- What `dropWhile` stops at is the `/`.
    have here : slash = 47 := by
      have stop := List.head?_dropWhile_not (· ≠ 47) rest
      rw [back] at stop
      simpa using stop
    subst here
    have split := List.takeWhile_append_dropWhile (p := (· ≠ 47)) (l := rest)
    rw [back] at split
    generalize gone : rest.takeWhile (· ≠ 47) = others at split
    have plainOthers : ∀ y ∈ others, y ≠ 47 := by
      intro y member
      rw [← gone] at member
      simpa using List.mem_takeWhile_imp member
    -- Forwards: what is kept, the `/`, the characters to go back over, and the last one.
    have whole : (x :: rest).reverse = before.reverse ++ 47 :: (others.reverse ++ [x]) := by
      simp [← split]
    have offset := stored.offset
    have long : (x :: rest).length = before.length + others.length + 2 := by
      rw [← List.length_reverse, whole]
      simp
      omega
    rw [List.length_reverse, long] at offset
    have chars (k : Nat) (inside : k < (x :: rest).length) :
        (x :: rest).reverse[k]? = some (b.bytes k) := by
      rw [List.getElem?_eq_getElem (by simpa using inside), stored.chars k (by simpa using inside)]
    rw [whole] at chars
    have untouched (k : Int) (below : k < o - 1) : (b.store (o - 1) 0).bytes k = b.bytes k :=
      store_other b 0 (by omega)
    have plain (k : Int) (above : (before.length : Int) < k)
        (upTo : k ≤ (before.length : Int) + (others.length + 1 : Nat)) :
        (b.store (o - 1) 0).bytes k ≠ 47 := by
      by_cases last : k = o - 1
      · rw [last, store_self]
        decide
      · obtain ⟨j, rfl⟩ : ∃ j : Nat, k = (before.length + 1 + j : Nat) :=
          ⟨(k - before.length - 1).toNat, by omega⟩
        have inside : j < others.length := by omega
        have char := chars (before.length + 1 + j) (by omega)
        rw [untouched _ (by omega)]
        rw [List.getElem?_append_right (by simp; omega), List.length_reverse,
          show before.length + 1 + j - before.length = j + 1 by omega, List.getElem?_cons_succ,
          List.getElem?_append_left (by simpa using inside)] at char
        exact plainOthers _ (List.mem_reverse.mp (List.mem_of_getElem? char))
    -- The loop halts at the `/`.
    have halt : (b.store (o - 1) 0).bytes before.length = 47 := by
      have char := chars before.length (by omega)
      rw [List.getElem?_append_right (by simp), List.length_reverse, Nat.sub_self] at char
      rw [untouched _ (by omega)]
      exact (Option.some.inj char).symm
    obtain ⟨b', walked, kept⟩ := unwindLog_back plain (Or.inl halt) (by omega)
      (show others.length + 1 ≤ o.toNat by omega)
    have start : (before.length : Int) + (others.length + 1 : Nat) = o - 1 := by omega
    rw [start] at walked
    refine ⟨b', walked, ⟨by simp, fun k inside => ?_⟩, by omega, fun within short i member => ?_⟩
    · rw [List.length_reverse] at inside
      have char := chars k (by omega)
      rw [List.getElem?_append_left (by simpa using inside), List.getElem?_eq_getElem
        (by simpa using inside)] at char
      rw [kept k (by omega), untouched k (by omega)]
      exact (Option.some.inj char).symm
    · have stores := unwindLog_stores o.toNat (b.store (o - 1) 0) (o - 1) i
      rw [walked] at stores
      rcases stores member with old | ⟨low, high⟩
      · rcases List.mem_cons.mp old with rfl | earlier
        · omega
        · exact within i earlier
      · omega

/-- Without one, the way back leads to the front of the buffer. -/
theorem Stored.unwind_front (stored : Stored written.reverse b.bytes o)
    (none : 47 ∉ written.drop 1) :
    ∃ b', unwindLog o.toNat (b.store (o - 1) 0) (o - 1) = (b', -1) := by
  have offset := stored.offset
  rw [List.length_reverse] at offset
  have plain (k : Int) (above : -1 < k) (upTo : k ≤ -1 + (written.length : Int)) :
      (b.store (o - 1) 0).bytes k ≠ 47 := by
    by_cases last : k = o - 1
    · rw [last, store_self]
      decide
    · cases written with
      | nil => exact absurd upTo (by simp; omega)
      | cons x rest =>
        obtain ⟨j, rfl⟩ : ∃ j : Nat, k = j := ⟨k.toNat, by omega⟩
        rw [List.length_cons] at offset upTo
        have inside : j < rest.length := by omega
        have char := stored.chars j (by simp; omega)
        have same : (b.store (o - 1) 0).bytes j = b.bytes j := store_other b 0 last
        simp only [List.reverse_cons] at char
        rw [List.getElem_append_left (by simpa using inside)] at char
        rw [same, char]
        intro slash
        exact none (slash ▸ List.mem_reverse.mp (List.getElem_mem _))
  obtain ⟨b', walked, _⟩ := unwindLog_back plain (Or.inr (by decide)) (Int.le_refl _)
    (show written.length ≤ o.toNat by omega)
  have start : -1 + (written.length : Int) = o - 1 := by omega
  rw [start] at walked
  exact ⟨b', walked⟩

/-- The stores stay inside from here on exactly when the rest of the path lets them. -/
theorem Stored.within_iff (stored : Stored written.reverse b.bytes o) (within : b.Within)
    (short : written.length + path.length < 100) :
    (ended (deriveLog path b o)).Within ↔ StaysInside written path := by
  induction path, b, o using deriveLog.induct generalizing written with
  | case1 b o =>
    have offset := stored.offset
    rw [List.length_reverse] at offset
    rw [deriveLog, StaysInside, ended, within_store, within_store, offset]
    simp only [List.length_nil] at short
    constructor
    · rintro ⟨⟨_, high⟩, _⟩
      omega
    · exact fun room => ⟨⟨by omega, by omega⟩, ⟨by omega, by omega⟩, within⟩
  | case2 c b o =>
    have offset := stored.offset
    rw [List.length_reverse] at offset
    rw [deriveLog, StaysInside, ended, within_store, within_store, within_store, offset]
    simp only [List.length_singleton] at short
    constructor
    · rintro ⟨⟨_, high⟩, _⟩
      omega
    · exact fun room => ⟨⟨by omega, by omega⟩, ⟨by omega, by omega⟩, ⟨by omega, by omega⟩, within⟩
  | case3 c d rest b o dots b' o' unwound ih =>
    rw [deriveLog, StaysInside, if_pos dots, if_pos dots, unwound]
    simp only [List.length_cons] at short
    dsimp only
    -- Going back needs a `/` behind which to stop; without one the offset leaves the buffer.
    by_cases some : 47 ∈ written.drop 1
    · cases back : (written.drop 1).dropWhile (· ≠ 47) with
      | nil => simpa using List.dropWhile_eq_nil_iff.mp back 47 some
      | cons slash before =>
        obtain ⟨b'', same, after, shorter, kept⟩ := stored.unwind back
        rw [unwound] at same
        cases same
        rw [and_iff_right some, List.drop_one, List.tail_cons]
        exact ih after (kept within (by omega)) (by omega)
    · obtain ⟨b'', front⟩ := stored.unwind_front some
      rw [unwound] at front
      cases front
      exact iff_of_false (front_not_within rest (by decide)) fun both => some both.1
  | case4 c d rest b o other ih =>
    have offset := stored.offset
    rw [List.length_reverse] at offset
    rw [deriveLog, StaysInside, if_neg other, if_neg other]
    simp only [List.length_cons] at short
    apply ih
    · rw [List.reverse_cons]
      exact stored.push
    · rw [within_store]
      exact ⟨⟨by omega, by omega⟩, within⟩
    · simp only [List.length_cons]
      omega

end

/-- Every byte that `deriveRelative` writes is one of its buffer exactly when the path keeps the
offset inside. -/
theorem deriveRelative_inside_iff {currDir path : List UInt8} {absPath : Buffer}
    (string : 0 ∉ path) (holds : HoldsString absPath path)
    (short : (filePath currDir path).length < 100) :
    (deriveRelativeLog currDir absPath).Within ↔ StaysInside [] (filePath currDir path) := by
  have fits : path.length ≤ 100 := by
    rw [filePath] at short
    split at short
    · rw [List.length_append] at short
      omega
    · rw [List.length_drop] at short
      omega
  have read : readString absPath = path := by
    rw [holds.read string, List.take_of_length_le fits]
  unfold deriveRelativeLog
  rw [read]
  apply Stored.within_iff
  · refine ⟨rfl, fun k below => ?_⟩
    cases below
  · rw [within_store]
    refine ⟨by decide, fun k member => ?_⟩
    cases member
  · simpa using short

/-- `../b` from `/a/c/`. -/
theorem inside_below_root :
    (deriveRelativeLog [47, 97, 47, 99, 47] (strcpy (fun _ => 0) [46, 46, 47, 98])).Within :=
  have holds : HoldsString (strcpy (fun _ => 0) [46, 46, 47, 98]) [46, 46, 47, 98] := ⟨by decide, rfl⟩
  (deriveRelative_inside_iff (by decide) holds (by decide)).mpr (by decide)

/-- `..` from the root. -/
theorem stores_in_front : HoldsString (strcpy (fun _ => 0) [46, 46]) [46, 46] ∧
    (filePath [47] [46, 46]).length < 100 ∧
    (deriveRelativeLog [47] (strcpy (fun _ => 0) [46, 46])).stores = [0, -1, -1, 0] ∧
    ¬(deriveRelativeLog [47] (strcpy (fun _ => 0) [46, 46])).Within := by
  have stores : (deriveRelativeLog [47] (strcpy (fun _ => 0) [46, 46])).stores = [0, -1, -1, 0] := rfl
  refine ⟨⟨by decide, rfl⟩, by decide, stores, fun within => ?_⟩
  have low := (within (-1) (by rw [stores]; decide)).1
  omega

/-! ## Paths of components -/

section

variable {written rest c : List UInt8} {stack comps init : List (List UInt8)} {x : UInt8}

theorem staysInside_push (apart : ¬(x = 46 ∧ rest.head? = some 46)) :
    StaysInside written (x :: rest) ↔ StaysInside (x :: written) rest := by
  cases rest with
  | nil => exact Iff.rfl
  | cons d rest =>
    rw [List.head?_cons, Option.some_inj] at apart
    rw [StaysInside, if_neg apart]

theorem staysInside_copy (written rest : List UInt8) (dots : ¬[46, 46] <:+: c) (behind : rest.head? ≠ some 46) :
    StaysInside written (c ++ rest) ↔ StaysInside (c.reverse ++ written) rest := by
  induction c generalizing written with
  | nil => exact Iff.rfl
  | cons x c ih =>
    obtain ⟨apart, later⟩ := dots_cons dots behind
    rw [List.cons_append, staysInside_push apart, ih _ later, List.reverse_cons, List.append_assoc]
    rfl

/-- Going up from the directory `stack` stays inside if there are two components to it. -/
theorem staysInside_back (apart : ∀ c ∈ stack, 47 ∉ c) (rest : List UInt8) :
    StaysInside (render 47 stack).reverse (up ++ rest) ↔
      2 ≤ stack.length ∧ StaysInside ((joined false stack.dropLast).reverse) rest := by
  rw [List.cons_append, List.cons_append, List.nil_append, StaysInside, if_pos ⟨rfl, rfl⟩]
  rcases List.eq_nil_or_concat stack with rfl | ⟨init, c, rfl⟩
  · simp
  · rw [List.concat_eq_append] at apart ⊢
    -- Backwards, the last component comes first, up to the `/` in front of it.
    have plain : ∀ y ∈ c.reverse, y ≠ 47 := fun y member slash =>
      apart c (by simp) (slash ▸ List.mem_reverse.mp member)
    have tail : ((render (47 : UInt8) (init ++ [c])).reverse).drop 1 =
        c.reverse ++ (render 47 init).reverse := by simp
    rw [tail, List.dropLast_concat]
    rcases List.eq_nil_or_concat init with rfl | ⟨front, d, rfl⟩
    -- A single component has no `/` in front of it.
    · simp only [render_nil, List.reverse_nil, List.append_nil, List.nil_append, List.length_singleton]
      exact iff_of_false (fun both => plain 47 both.1 rfl) fun both => absurd both.1 (by decide)
    · rw [List.concat_eq_append, joined_false]
      have whole : (render (47 : UInt8) (front ++ [d])).reverse =
          47 :: (render 47 front ++ d).reverse := by simp
      have dropped : (c.reverse ++ (render (47 : UInt8) (front ++ [d])).reverse).dropWhile (· ≠ 47) =
          47 :: (render 47 front ++ d).reverse := by
        rw [whole, List.dropWhile_append_of_pos (by simpa using plain)]
        simp
      have there : (47 : UInt8) ∈ c.reverse ++ (render 47 (front ++ [d])).reverse := by
        simp
      rw [dropped, List.drop_one, List.tail_cons, and_iff_right there, and_iff_right (by simp)]

/-- Nowhere in the path does `..` lead to the root, or above it. -/
def NeverAtRoot (stack comps : List (List UInt8)) : Prop :=
  ∀ init, init ++ [up] <+: comps → 2 ≤ (resolve up stack init).length

theorem neverAtRoot_cons (other : c ≠ up) :
    NeverAtRoot stack (c :: comps) ↔ NeverAtRoot (stack ++ [c]) comps := by
  constructor
  · intro never init here
    have far := never (c :: init) (List.cons_prefix_cons.mpr ⟨rfl, here⟩)
    rwa [Lib.resolve_cons other] at far
  · intro never init here
    cases init with
    | nil => exact absurd (List.cons_prefix_cons.mp here).1.symm other
    | cons d init =>
      obtain ⟨rfl, later⟩ := List.cons_prefix_cons.mp here
      rw [Lib.resolve_cons other]
      exact never init later

theorem neverAtRoot_up :
    NeverAtRoot stack (up :: comps) ↔ 2 ≤ stack.length ∧ NeverAtRoot stack.dropLast comps := by
  constructor
  · intro never
    refine ⟨never [] (List.cons_prefix_cons.mpr ⟨rfl, List.nil_prefix⟩), fun init here => ?_⟩
    have far := never (up :: init) (List.cons_prefix_cons.mpr ⟨rfl, here⟩)
    rwa [Lib.resolve_up] at far
  · rintro ⟨deep, never⟩ init here
    cases init with
    | nil => exact deep
    | cons d init =>
      obtain ⟨rfl, later⟩ := List.cons_prefix_cons.mp here
      rw [Lib.resolve_up]
      exact never init later

theorem neverAtRoot_concat : NeverAtRoot stack (comps ++ [c]) ↔
    NeverAtRoot stack comps ∧ (c = up → 2 ≤ (resolve up stack comps).length) := by
  constructor
  · intro never
    constructor
    · exact fun init here => never init (here.trans (List.prefix_append comps [c]))
    · rintro rfl
      exact never comps (List.prefix_refl _)
  · rintro ⟨never, last⟩ init here
    rcases List.prefix_concat_iff.mp here with whole | before
    · obtain ⟨rfl, same⟩ := List.append_inj' whole rfl
      exact last (List.singleton_inj.mp same).symm
    · exact never init before

theorem staysInside_render (apart : ∀ c ∈ stack, 47 ∉ c) (path : ∀ c ∈ comps, Name c ∨ c = up)
    (rest : List UInt8) : StaysInside (render 47 stack).reverse (render 47 comps ++ rest) ↔
      NeverAtRoot stack comps ∧ StaysInside (render 47 (resolve up stack comps)).reverse rest := by
  induction comps generalizing stack with
  | nil =>
    have none : NeverAtRoot stack [] := by
      intro init here
      cases init with
      | nil => cases List.prefix_nil.mp here
      | cons d init => cases List.prefix_nil.mp here
    rw [and_iff_right none]
    rfl
  | cons c comps ih =>
    have later : ∀ c ∈ comps, Name c ∨ c = up := fun d member => path d (List.mem_cons_of_mem c member)
    rw [render_cons, List.append_assoc, List.cons_append]
    by_cases back : c = up
    · subst back
      rw [staysInside_back apart, neverAtRoot_up, Lib.resolve_up, and_assoc]
      apply and_congr_right
      intro deep
      rw [← ih (fun d member => apart d ((List.dropLast_prefix stack).mem member)) later,
        staysInside_push fun both => absurd both.1 (by decide)]
      -- Behind the components that are left, the `/` makes a directory of them again.
      obtain ⟨init, d, last⟩ : ∃ init d, stack.dropLast = init ++ [d] := by
        rcases List.eq_nil_or_concat stack.dropLast with none | ⟨init, d, some⟩
        · have length := congrArg List.length none
          rw [List.length_dropLast, List.length_nil] at length
          omega
        · exact ⟨init, d, by rw [some, List.concat_eq_append]⟩
      have whole : 47 :: (joined false stack.dropLast).reverse =
          (render 47 stack.dropLast).reverse := by
        rw [last, joined_false]
        simp
      rw [whole]
    · have name := (path c List.mem_cons_self).resolve_right back
      have next : (47 :: (render 47 comps ++ rest)).head? ≠ some 46 := by simp
      rw [staysInside_copy _ _ name.dots next, staysInside_push fun both => absurd both.1 (by decide),
        neverAtRoot_cons back, Lib.resolve_cons back]
      have whole : 47 :: (c.reverse ++ (render 47 stack).reverse) =
          (render 47 (stack ++ [c])).reverse := by simp
      rw [whole]
      exact ih (apart_concat apart name.apart) later

/-- A path of components keeps the offset inside exactly when no `..` in it leads to the root and
its normal form has at most 98 characters. -/
theorem staysInside_joined (slash : Bool) (path : ∀ c ∈ comps, Name c ∨ c = up) :
    StaysInside [] (joined slash comps) ↔
      NeverAtRoot [] comps ∧ (joined slash (resolve up [] comps)).length < 99 := by
  have root : ∀ c ∈ ([] : List (List UInt8)), 47 ∉ c := nofun
  cases slash with
  | true =>
    have whole := staysInside_render root path []
    rw [List.append_nil, StaysInside, List.length_reverse] at whole
    rw [joined_true, joined_true]
    exact whole
  | false =>
    rcases List.eq_nil_or_concat comps with rfl | ⟨init, c, rfl⟩
    · have whole := staysInside_render root path []
      rw [List.append_nil, StaysInside, List.length_reverse] at whole
      rw [joined_nil, Lib.resolve_nil, joined_nil]
      exact whole
    · rw [List.concat_eq_append] at path ⊢
      have before : ∀ d ∈ init, Name d ∨ d = up := fun d member => path d (by simp [member])
      have names := resolve_name (fun c member => absurd member List.not_mem_nil) before
      have front := staysInside_render root before c
      rw [render_nil, List.reverse_nil] at front
      rw [joined_false, front, neverAtRoot_concat, and_assoc]
      apply and_congr_right
      intro _
      by_cases back : c = up
      · subst back
        have ended := staysInside_back (fun d member => (names d member).apart) []
        rw [List.append_nil, StaysInside, List.length_reverse] at ended
        rw [ended, Lib.resolve_concat_up]
        simp
      · have name := (path c (by simp)).resolve_right back
        have ended := staysInside_copy (render 47 (resolve up [] init)).reverse [] name.dots (by simp)
        rw [List.append_nil, StaysInside] at ended
        rw [ended, Lib.resolve_concat back, joined_false, and_iff_right fun same => absurd same back,
          ← List.reverse_append, List.length_reverse]

end

end LateOS
