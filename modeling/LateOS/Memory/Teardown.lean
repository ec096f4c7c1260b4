import LateOS.Memory.View

/-!
# Tearing down a task's tables

`deallocTask` clears every entry below a PML4, slot 511 apart, and touches no table of
another task.
-/
namespace LateOS

open Lib

namespace Machine

variable {m m' : Machine} {use : Word → Use} {r t : Word} {p : List Nat} {i n bound : Nat}

/-- The first `bound` entries of table `t` are cleared, and nothing above or beside it has
changed. -/
structure TornDown (m : Machine) (use : Word → Use) (r : Word) (p : List Nat) (t : Word)
    (bound : Nat) (m' : Machine) : Prop where
  sound : m'.Sound use
  head : m'.head = m.head
  pml4e : m'.pml4e = m.pml4e
  pdpte : m'.pdpte = m.pdpte
  beside : ∀ x, (∀ q, use x ≠ .table r (p ++ q)) → m'.mem x = m.mem x
  cleared : ∀ j, j < bound → m'.mem t j = 0
  rest : ∀ j, bound ≤ j → m'.mem t j = m.mem t j

theorem TornDown.start (sound : m.Sound use) : TornDown m use r p t 0 m :=
  ⟨sound, rfl, rfl, rfl, fun _ _ => rfl, fun _ below => absurd below (Nat.not_lt_zero _),
    fun _ _ => rfl⟩

/-- Below entry `i` everything is torn down, and then the entry is cleared. -/
theorem TornDown.next {s s' : Machine} (serves : use t = .table r p)
    (down : TornDown m use r p t i s) (sound : s'.Sound use) (head : s'.head = s.head)
    (pml4e : s'.pml4e = s.pml4e) (pdpte : s'.pdpte = s.pdpte)
    (below : ∀ x, (∀ q, use x ≠ .table r (p ++ [i] ++ q)) → s'.mem x = s.mem x) :
    TornDown m use r p t (i + 1) (s'.write t i 0) := by
  -- Table `t` itself serves a shorter path, so that nothing below it has written it.
  have own : s'.mem t = s.mem t := by
    refine below t fun q table => ?_
    rw [serves] at table
    injection table with _ path
    have length := congrArg List.length path
    simp at length
  refine ⟨sound.clear serves, head.trans down.head, pml4e.trans down.pml4e,
    pdpte.trans down.pdpte, ?_, ?_, ?_⟩
  · intro x outside
    have apart : x ≠ t := by
      rintro rfl
      exact outside [] (by rw [serves, List.append_nil])
    rw [write_mem_of_ne _ _ _ _ apart, below x, down.beside x outside]
    intro q table
    exact outside ([i] ++ q) (by rw [table, List.append_assoc])
  · intro j before
    rw [write_mem]
    split
    · rfl
    next other =>
      have lower : j < i := by
        have apart : j ≠ i := fun same => other ⟨rfl, same⟩
        omega
      rw [own, down.cleared j lower]
  · intro j after
    have apart : ¬(t = t ∧ j = i) := fun same => by omega
    rw [write_mem, if_neg apart, own, down.rest j (by omega)]

theorem Sound.deallocLevel (sound : m.Sound use) (serves : use t = .table r p)
    (deep : p.length + n = 3) (fits : bound ≤ 512) (top : p = [] → bound ≤ 511) :
    ∃ m', deallocLevel n bound t m = some m' ∧ TornDown m use r p t bound m' := by
  induction n generalizing t p m bound with
  | zero =>
    refine loop_total (.start sound) fun l s _ down => ?_
    refine ⟨s.write t l 0, ?_, ?_⟩
    · simp [Machine.free]
    · exact down.next serves down.sound rfl rfl rfl fun _ _ => rfl
  | succ n ih =>
    refine loop_total (.start sound) fun i s below down => ?_
    -- A missing entry is cleared all the same.
    by_cases here : present (s.mem t i) = true
    · have inner : Inner p i := ⟨by omega, by omega, fun empty => by have := top empty; omega⟩
      have child := ((down.sound.entries t r p i serves inner.2.1 here).1 inner).1
      obtain ⟨s', ran, lower⟩ := ih down.sound child (by simp; omega) (Nat.le_refl 512) (by simp)
      refine ⟨s'.write t i 0, ?_, ?_⟩
      · simp [here, ran, Machine.free]
      · exact down.next serves lower.sound lower.head lower.pml4e lower.pdpte lower.beside
    · refine ⟨s.write t i 0, ?_, ?_⟩
      · simp [here]
      · exact down.next serves down.sound rfl rfl rfl fun _ _ => rfl

theorem TornDown.within (down : TornDown m use r p t bound m') : Within {r} m use m' use := by
  refine ⟨fun _ _ => rfl, fun x r' q free table => ?_, fun x _ other => ?_, ?_, down.pml4e,
    down.pdpte⟩
  · rw [free] at table
    cases table
  · refine down.beside x fun q table => other r _ table (Set.mem_singleton r)
  · rw [down.head]

/-- `deallocTask` always gets through, and leaves an empty PML4. -/
theorem Sound.deallocTask (sound : m.Sound use) (root : use r = .table r []) :
    ∃ m', m.deallocTask r = some m' ∧ TornDown m use r [] r 511 m' :=
  sound.deallocLevel root rfl (by decide) fun _ => Nat.le_refl _

theorem TornDown.absent (down : TornDown m use r [] r 511 m') {v : Nat} (user : UserAddress v) :
    m'.tables.target (m'.tables.mem r (pml4Index v)) = none := by
  change m'.tables.target (m'.mem r (pml4Index v)) = none
  rw [down.cleared _ user]
  simp [tables]

theorem TornDown.unmapped (down : TornDown m use r [] r 511 m') {v : Nat}
    (user : UserAddress v) : m'.translate r v = none := by
  unfold translate upperPath
  rw [Tables.lookup_cons, down.absent user]
  rfl

end Machine

end LateOS
