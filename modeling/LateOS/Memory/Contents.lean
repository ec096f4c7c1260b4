import LateOS.Memory.Pages

/-!
# What the loaders store

The bytes of a task after the copying loops of the loaders, and what is found in pages that
nothing has been stored to: whatever was left in their frames.
-/
namespace LateOS

open Lib

namespace Machine

variable {m m' m1 : Machine} {use use' : Word → Use} {r f : Word} {v dest n count start : Nat}
  {src : Nat → Option Byte} {frames : List Word}

/-! ## Ranges of bytes -/

theorem SameByte.symm {v w : Nat} (same : SameByte v w) : SameByte w v :=
  ⟨same.1.symm, same.2.symm⟩

/-- The bytes of `src` have been stored from `dest` on, and nothing else has happened to the task
with PML4 `r`. -/
structure Poured (m : Machine) (use : Word → Use) (r : Word) (dest n : Nat)
    (src : Nat → Option Byte) (m' : Machine) : Prop where
  loaded : Loaded m use r m' use
  head : m'.head = m.head
  translate : ∀ v, m'.translate r v = m.translate r v
  here : ∀ k < n, m'.byteAt r (dest + k) = src k
  rest : ∀ v, UserAddress v → (∀ k < n, ¬SameByte (dest + k) v) → m'.byteAt r v = m.byteAt r v
  stale : ∀ f ∈ m'.head, m'.mem f = m.mem f

theorem Poured.refl (own : m.Private use r) (dest : Nat) (src : Nat → Option Byte) :
    Poured m use r dest 0 src m :=
  ⟨⟨own, .refl⟩, rfl, fun _ => rfl, nofun, fun _ _ _ => rfl, fun _ _ => rfl⟩

/-- A store goes to a frame of its page, and not to a free one. -/
theorem Private.storeByte_stale {b : Byte} (own : m.Private use r) (user : UserAddress v)
    (stored : m.storeByte r v b = some m') : m'.head = m.head ∧ (∀ f ∈ m'.head, m'.mem f = m.mem f) ∧
      ∀ w, m'.translate r w = m.translate r w := by
  obtain ⟨_, e, found, rfl⟩ := own.sound.storeByte own.root user stored
  have data := (own.sound.translate_facts own.root user found).2.1
  refine ⟨rfl, fun f member => write_mem_of_ne m _ _ _ ?_, fun w => ?_⟩
  · rintro rfl
    rw [own.sound.free _ member] at data
    cases data
  · apply own.sound.translate_data own.root
    intro x other _
    apply write_mem_of_ne
    rintro rfl
    exact other data

/-- One more byte. -/
theorem Poured.next {b : Byte} (poured : Poured m use r dest n src m')
    (user : ∀ k ≤ n, UserAddress (dest + k)) (apart : ∀ k < n, ¬SameByte (dest + k) (dest + n))
    (value : src n = some b) (stored : m'.storeByte r (dest + n) b = some m1) :
    Poured m use r dest (n + 1) src m1 := by
  have own := poured.loaded.after
  have here := user n (Nat.le_refl n)
  -- The store goes to a page that nobody shares, so every other byte stays.
  have byte {w : Nat} (userW : UserAddress w) := own.sound.byteAt_store own.root here stored
    (fun e => own.unshared (dest + n) e here) own.root userW
  obtain ⟨head, stale, translate⟩ := own.storeByte_stale here stored
  constructor
  case loaded => exact poured.loaded.trans (own.storeByte here stored)
  case head => exact head.trans poured.head
  case translate => exact fun w => (translate w).trans (poured.translate w)
  case here =>
    intro k below
    by_cases last : k = n
    · subst last
      rw [byte here, if_pos ⟨rfl, .refl _, rfl⟩, value]
    · have earlier : k < n := by omega
      rw [byte (user k (by omega)), if_neg fun both => apart k earlier both.2.symm]
      exact poured.here k earlier
  case rest =>
    intro w userW out
    rw [byte userW, if_neg fun both => out n (Nat.lt_succ_self n) both.2]
    exact poured.rest w userW fun k below => out k (Nat.lt_succ_of_lt below)
  case stale =>
    intro f member
    rw [stale f member]
    exact poured.stale f (head ▸ member)

/-- The copying loop. -/
theorem Private.memcpy_poured (own : m.Private use r) (user : ∀ k < n, UserAddress (dest + k))
    (apart : ∀ j k, j < k → k < n → ¬SameByte (dest + j) (dest + k))
    (ran : m.memcpy r dest src n = some m') : Poured m use r dest n src m' := by
  refine loop_inv (I := fun i s => i ≤ n → Poured m use r dest i src s)
    (fun _ => .refl own dest src) ?_ ran (Nat.le_refl n)
  intro i s s' below poured ran _
  obtain ⟨b, value, stored⟩ := Option.bind_eq_some_iff.mp ran
  exact (poured (by omega)).next (fun k inside => user k (by omega))
    (fun k before => apart k i before below) value stored

/-- On pages that are there, it does not stop. -/
theorem Private.memcpy_total (own : m.Private use r) (user : ∀ k < n, UserAddress (dest + k))
    (apart : ∀ j k, j < k → k < n → ¬SameByte (dest + j) (dest + k))
    (mapped : ∀ k < n, (m.translate r (dest + k)).isSome) (given : ∀ k < n, (src k).isSome) :
    ∃ m', m.memcpy r dest src n = some m' := by
  have all : ∃ m', m.memcpy r dest src n = some m' ∧ (n ≤ n → Poured m use r dest n src m') := by
    refine loop_total (I := fun i s => i ≤ n → Poured m use r dest i src s)
      (fun _ => .refl own dest src) fun i s below poured => ?_
    -- The pages are mapped from the start on, since stores leave the tables alone.
    have before := poured (by omega)
    obtain ⟨b, value⟩ := Option.isSome_iff_exists.mp (given i below)
    obtain ⟨e, found⟩ := Option.isSome_iff_exists.mp (mapped i below)
    rw [← before.translate] at found
    have stored : s.storeByte r (dest + i) b = some (s.write (frame e) ((dest + i) % 4096 / 8)
        (setByte (s.mem (frame e) ((dest + i) % 4096 / 8)) ((dest + i) % 8) b)) := by
      unfold Machine.storeByte
      rw [found]
      rfl
    refine ⟨_, ?_, fun _ => before.next (fun k inside => user k (by omega))
      (fun k earlier => apart k i earlier below) value stored⟩
    rw [value]
    exact stored
  obtain ⟨m', ran, _⟩ := all
  exact ⟨m', ran⟩

theorem memset_eq (m : Machine) (r : Word) (s : Nat) (c : Byte) (n : Nat) :
    m.memset r s c n = m.memcpy r s (fun _ => some c) n := rfl

/-! ## Pages -/

theorem Spread.loaded (spread : Spread m use r start count m' use' frames)
    (own : m.Private use r) : Loaded m use r m' use' := by
  refine ⟨⟨spread.sound, spread.root own.root, fun v e user found => ?_⟩,
    spread.within.spares own.sound⟩
  -- An old page keeps its entry, a new one has a writable one.
  by_cases out : ∀ p < count, ¬SamePage (start + 4096 * p) v
  · rw [spread.rest v user out] at found
    exact own.unshared v e user found
  · push Not at out
    obtain ⟨p, below, same⟩ := out
    have here := spread.here p _ (List.getElem?_eq_getElem (by rw [spread.length]; exact below)) v same
    rw [found] at here
    cases here
    exact not_shared_entry _

/-- A page that has just been mapped shows what was left in its frame. -/
theorem Spread.leftover {p : Nat} (spread : Spread m use r start count m' use' frames)
    (aligned : ∀ f ∈ m.head, frame f = f) (below : p < count)
    (same : SamePage (start + 4096 * p) v) :
    ∃ f ∈ m.head, m'.byteAt r v = some (getByte (m.mem f (v % 4096 / 8)) (v % 8)) := by
  have inside : p < frames.length := by rw [spread.length]; exact below
  have member := List.getElem_mem inside
  have free := (spread.free _ member).1
  refine ⟨frames[p], free, ?_⟩
  unfold Machine.byteAt
  rw [spread.here p _ (List.getElem?_eq_getElem inside) v same, Option.map_some,
    ← spread.stale _ (Or.inl member)]
  have back : frame (entry frames[p] 7) = frames[p] := by simpa using aligned _ free
  rw [back]

/-! ## Leftovers -/

/-- The same machine, with `left` in its free frames. -/
def leftovers (m : Machine) (left : Word → Nat → Word) : Machine :=
  { m with mem := fun f => if f ∈ m.head then left f else m.mem f }

theorem Sound.leftovers (sound : m.Sound use) (left : Word → Nat → Word) :
    (m.leftovers left).Sound use := by
  refine sound.congr (List.suffix_refl _) rfl rfl fun x _ used => ?_
  exact if_neg fun member => used (sound.free x member)

end Machine

end LateOS
