import LateOS.Memory.Separation

/-!
# Buffers of programs

What the kernel stores in the memory of the task it works for. At level 0 the write bit of an entry
does not count, because CR0.WP is clear: a page that `fork` has left shared is not copied but
written where it is, and so for every task that maps it.
-/
namespace LateOS

open Lib

namespace Machine

variable {m m' m'' : Machine} {use use' use'' : Word → Use} {r r' : Word} {u v : Nat}
  {stores more : Stores}

/-- What becomes of a byte `b` at `v` of the task with PML4 `r'` when `stores` are made for the one
with `r`. -/
def overwrite (m : Machine) (r : Word) (stores : Stores) (r' : Word) (v : Nat) (b : Option Byte) :
    Option Byte :=
  stores.foldl (fun b store => if m.SameCell r store.1 r' v then some store.2 else b) b

theorem overwrite_some (m : Machine) (r : Word) (stores : Stores) (r' : Word) (v : Nat) (b : Byte) :
    ∃ b', m.overwrite r stores r' v (some b) = some b' := by
  unfold overwrite
  induction stores generalizing b with
  | nil => exact ⟨b, rfl⟩
  | cons store rest ih =>
    rw [List.foldl_cons]
    split
    · exact ih store.2
    · exact ih b

/-- Stores that lead elsewhere leave the byte as it was. -/
theorem overwrite_of_apart {b : Option Byte}
    (apart : ∀ store ∈ stores, ¬m.SameCell r store.1 r' v) : m.overwrite r stores r' v b = b := by
  unfold overwrite
  induction stores with
  | nil => rfl
  | cons store rest ih =>
    rw [List.foldl_cons, if_neg (apart store List.mem_cons_self)]
    exact ih fun later member => apart later (List.mem_cons_of_mem _ member)

/-- Stores for the task with PML4 `r` keep the invariant, and change the memory of another task
exactly where it maps a byte that is stored. -/
structure Delivered (m : Machine) (use : Word → Use) (r : Word) (stores : Stores) (m' : Machine)
    (use' : Word → Use) : Prop where
  sound : m'.Sound use'
  kept : ∀ x, use x ≠ .free → use' x = use x
  head : m'.head <:+ m.head
  cells : ∀ r', use r' = .table r' [] → r' ≠ r → ∀ u v, UserAddress u → UserAddress v →
    (m'.SameCell r u r' v ↔ m.SameCell r u r' v)
  byteAt : ∀ r', use r' = .table r' [] → r' ≠ r → ∀ v, UserAddress v →
    m'.byteAt r' v = m.overwrite r stores r' v (m.byteAt r' v)

theorem Delivered.refl (sound : m.Sound use) : Delivered m use r [] m use :=
  ⟨sound, fun _ _ => rfl, List.suffix_refl _, fun _ _ _ _ _ _ _ => Iff.rfl,
    fun _ _ _ _ _ => rfl⟩

theorem Delivered.trans (first : Delivered m use r stores m' use')
    (second : Delivered m' use' r more m'' use'') (inside : ∀ store ∈ more, UserAddress store.1) :
    Delivered m use r (stores ++ more) m'' use'' := by
  have root {r} (root : use r = .table r []) : use' r = .table r [] :=
    (first.kept r (by simp [root])).trans root
  refine ⟨second.sound, fun x used => ?_, second.head.trans first.head,
    fun r' table other u v userU userV => ?_, fun r' table other v user => ?_⟩
  · have same := first.kept x used
    exact (second.kept x (same ▸ used)).trans same
  · exact (second.cells r' (root table) other u v userU userV).trans
      (first.cells r' table other u v userU userV)
  · rw [second.byteAt r' (root table) other v user, first.byteAt r' table other v user, overwrite,
      overwrite, overwrite, List.foldl_append]
    refine List.foldl_ext _ _ _ fun b store member => ?_
    exact if_congr (first.cells r' table other store.1 v (inside store member) user) rfl rfl

theorem Sound.delivered_store {b : Byte} (sound : m.Sound use) (root : use r = .table r [])
    (user : UserAddress u) (stored : m.storeByte r u b = some m') :
    Delivered m use r [(u, b)] m' use := by
  obtain ⟨sound', e, found, rfl⟩ := sound.storeByte root user stored
  have data := (sound.translate_facts root user found).2.1
  have translate {r' : Word} (table : use r' = .table r' []) (v : Nat) :
      (m.write (frame e) (u % 4096 / 8)
        (setByte (m.mem (frame e) (u % 4096 / 8)) (u % 8) b)).translate r' v =
          m.translate r' v := by
    refine sound.translate_data table (fun x other _ => write_mem_of_ne m _ _ _ ?_) v
    rintro rfl
    exact other data
  refine ⟨sound', fun _ _ => rfl, List.suffix_refl _, fun r' table other u v _ _ => ?_,
    fun r' table other v _ => ?_⟩
  · unfold SameCell
    rw [translate root, translate table]
  · obtain ⟨hit, missed⟩ := sound.byteAt_storeByte root user stored table v
    change _ = if m.SameCell r u r' v then some b else m.byteAt r' v
    split
    next cell => exact hit cell
    next apart => exact missed apart

/-- A page that is brought by a fault is mapped by nobody else. -/
theorem Repaired.delivered (repaired : Repaired m use r u m' use') (sound : m.Sound use)
    (root : use r = .table r []) (unmapped : m.translate r u = none) :
    Delivered m use r [] m' use' := by
  have spares := repaired.within.spares sound
  have root' := (repaired.within.kept r (by simp [root])).trans root
  refine ⟨repaired.sound, spares.kept, spares.head, fun r' table other w v userW userV => ?_,
    fun r' table other v user => spares.byteAt r' table other v user⟩
  have translate := spares.translate r' table other v
  rw [sameCell_iff, sameCell_iff, translate]
  refine and_congr_right fun _ => ⟨?_, ?_⟩
  · rintro ⟨e, e', found, found', same⟩
    refine ⟨e, e', ?_, found', same⟩
    rcases repaired.fresh w e userW found with alone | old
    -- A frame that two tasks map is marked in both.
    · have table' := (repaired.within.kept r' (by simp [table])).trans table
      rcases repaired.sound.frames_apart root' table' userW userV found (translate.trans found')
        same with ⟨roots, _⟩ | shared
      · exact absurd roots.symm other
      · exact absurd shared.1 alone
    · exact old
  · rintro ⟨e, e', found, found', same⟩
    refine ⟨e, e', ?_, found', same⟩
    rw [repaired.others w userW, found]
    intro page
    rw [← translate_samePage m r page, unmapped] at found
    cases found

/-- A store goes through at once, or when a fault has brought the page. -/
theorem Sound.poke {ts : TaskStruct} {store : Nat × Byte} (sound : m.Sound use)
    (root : use ts.pml4e = .table ts.pml4e []) (user : UserAddress store.1)
    (ran : LateOS.poke ts m store = some m') :
    ∃ use', Delivered m use ts.pml4e [store] m' use' := by
  rcases poke_cases ran with stored | ⟨unmapped, m1, handled, stored⟩
  · exact ⟨use, sound.delivered_store root user stored⟩
  · obtain ⟨use1, repaired⟩ := sound.isr14 root (fun _ => user)
      (fun _ e found => by simp [unmapped] at found) handled
    have root1 := (repaired.within.kept _ (by simp [root])).trans root
    refine ⟨use1, (repaired.delivered sound root unmapped).trans
      (repaired.sound.delivered_store root1 user stored) fun store' member => ?_⟩
    rw [List.mem_singleton.mp member]
    exact user

theorem Sound.pokes {ts : TaskStruct} (sound : m.Sound use)
    (root : use ts.pml4e = .table ts.pml4e []) (inside : ∀ store ∈ stores, UserAddress store.1)
    (ran : LateOS.pokes ts m stores = some m') :
    ∃ use', Delivered m use ts.pml4e stores m' use' := by
  induction stores generalizing m use with
  | nil =>
    cases ran
    exact ⟨use, .refl sound⟩
  | cons store rest ih =>
    obtain ⟨m1, first, ran⟩ := Option.bind_eq_some_iff.mp ran
    have within (later : Nat × Byte) (member : later ∈ rest) : UserAddress later.1 :=
      inside later (List.mem_cons_of_mem _ member)
    obtain ⟨use1, done⟩ := sound.poke root (inside store List.mem_cons_self) first
    have root1 := (done.kept _ (by simp [root])).trans root
    obtain ⟨use2, later⟩ := ih done.sound root1 within ran
    exact ⟨use2, done.trans later within⟩

end Machine

open Machine

variable {s : System} {use : Word → Use} {m : Machine} {i j : Int} {v : Nat} {stores : Stores}

/-- Stores of the kernel for task `i` keep the tasks in memory as they have to be. -/
theorem Consistent.pokes (inv : Consistent s use) (user : s.User i)
    (inside : ∀ store ∈ stores, UserAddress store.1)
    (ran : LateOS.pokes (s.taskQueue i) s.machine stores = some m) :
    ∃ use', Consistent { s with machine := m } use' ∧
      Delivered s.machine use (s.taskQueue i).pml4e stores m use' := by
  obtain ⟨use', done⟩ := inv.sound.pokes (inv.root i user) inside ran
  exact ⟨use', inv.own user done.sound done.kept done.head (fun _ _ => ⟨rfl, rfl⟩) rfl
    ((inv.layout i user).mono done.head.length_le), done⟩

end LateOS
