import LateOS.Memory.Segments

/-!
# Leaf tables without leftovers

A page fault looks at the leaf entry of a page that is not there. In the tables of a program that
has just been loaded such an entry is zero: tables are cleared when they are made, and entries only
written for pages.
-/
namespace LateOS

open Lib

namespace Machine

variable {m m' m1 m2 : Machine} {use use' : Word → Use} {r r' t n f g h s : Word}
  {p q path : List Nat} {i v : Nat}

/-- No leaf table that the task with PML4 `r` reaches has an entry that is neither present nor
zero. -/
def Tidy (m : Machine) (r : Word) : Prop :=
  ∀ v, UserAddress v → ∀ t, m.tables.walk r (upperPath v) = some t →
    ∀ l, m.mem t l = 0 ∨ present (m.mem t l) = true

/-- Every leaf table is as it was, or has no entries. -/
def SameLeaves (m : Machine) (use : Word → Use) (m' : Machine) : Prop :=
  ∀ s r q path h, use s = .table r q → InnerPath Inner q path → q.length + path.length = 3 →
    m'.tables.walk s path = some h →
    (m.tables.walk s path = some h ∧ m'.mem h = m.mem h) ∨ ∀ j, m'.mem h j = 0

theorem Taken.fill_leaves (taken : Taken m use n m') (sound : m.Sound use)
    (serves : use t = .table r p) (inner : Inner p i) (absent : present (m.mem t i) = false) :
    SameLeaves m use (m'.fill t i n) := by
  intro s r' q path h start inside deep reached
  have apart : n ≠ t := (taken.ne (by simp [serves])).symm
  have blank : ∀ k, (m'.fill t i n).mem n k = 0 := by
    intro k
    rw [fill_mem, if_neg fun both => apart both.1, if_pos rfl]
  -- A walk that takes the new entry ends in the new table.
  have grown : m.tables.walk s path = some h ∨ h = n := by
    refine Tables.walk_grow (T := m.tables) (by rfl) ?_ (fun k => ?_) reached
    · refine sound.owned.onWalk (Use.owner_eq.mpr start) inside fun g q' j rest split owns => ?_
      have used := Use.owner_eq.mp owns
      by_cases here : g = t ∧ j = i
      · obtain ⟨rfl, rfl⟩ := here
        refine Or.inr ⟨by simp [tables, absent], fun g' leads => ?_⟩
        change (m'.fill g j n).tables.target ((m'.fill g j n).mem g j) = some g' at leads
        rw [fill_mem, if_pos ⟨rfl, rfl⟩] at leads
        simpa [taken.aligned] using leads.symm
      · left
        change (m'.fill t i n).mem g j = m.mem g j
        rw [fill_mem, if_neg here, if_neg (taken.ne (by simp [used])), taken.mem]
    · change (m'.fill t i n).tables.target ((m'.fill t i n).mem n k) = none
      rw [blank]
      simp [tables]
  rcases grown with old | rfl
  · left
    refine ⟨old, ?_⟩
    have used := sound.walk_use start inside old
    -- The table that is written is not a leaf table.
    have higher : h ≠ t := by
      rintro rfl
      rw [serves] at used
      cases used
      have short := inner.1
      rw [List.length_append] at short
      omega
    funext j
    rw [fill_mem, if_neg fun both => higher both.1, if_neg (taken.ne (by simp [used])), taken.mem]
  · exact Or.inr blank

theorem SameLeaves.trans (first : SameLeaves m use m1) (second : SameLeaves m1 use' m2)
    (kept : ∀ x, use x ≠ .free → use' x = use x) : SameLeaves m use m2 := by
  intro s r q path h start inside deep reached
  have start' := (kept s (by simp [start])).trans start
  rcases second s r q path h start' inside deep reached with ⟨before, same⟩ | blank
  · rcases first s r q path h start inside deep before with ⟨old, same'⟩ | blank
    · exact Or.inl ⟨old, same.trans same'⟩
    · right
      intro j
      rw [same]
      exact blank j
  · exact Or.inr blank

theorem Sound.descend_leaves (sound : m.Sound use) (serves : use t = .table r p)
    (inner : InnerPath Inner p path) (ran : Machine.descend path t m = some (g, m')) :
    SameLeaves m use m' := by
  refine sound.descend_induct (C := fun s use1 => SameLeaves s use1 m') (fun _ _ => ?_) ?_ serves
    inner ran
  · intro s r q path h start inside deep reached
    exact Or.inl ⟨reached, rfl⟩
  -- A missing table: its own entry first, and then the rest of the way below it.
  · intro s use1 t p i f s1 sound1 serves1 inner1 absent taken later
    have made := taken.fill_leaves sound1 serves1 inner1 absent
    exact made.trans later fun x used => Function.update_of_ne (taken.ne used) _ _

/-! ## What keeps tables tidy -/

theorem Tidy.of_mem (tidy : Tidy m r) (same : m'.mem = m.mem) : Tidy m' r := by
  intro v user t reached l
  unfold tables at reached
  rw [same] at reached ⊢
  exact tidy v user t reached l

/-- Changes to pages of programs. -/
theorem Tidy.of_data (tidy : Tidy m r) (sound : m.Sound use) (root : use r = .table r [])
    (kept : ∀ x r p, use x = .table r p → m'.mem x = m.mem x) : Tidy m' r := by
  intro v user t reached l
  have inner := innerPath_upper user
  rw [sound.walk_congr root inner fun h q j rest _ table => congrFun (kept h r _ table) j] at reached
  have serves := sound.walk_use root inner reached
  rw [kept t r _ serves]
  exact tidy v user t reached l

theorem Tidy.initTaskPagetables (tidy : Tidy m r) (sound : m.Sound use)
    (root : use r = .table r []) (user : UserAddress v)
    (ran : m.initTaskPagetables v f r = some m') : Tidy m' r := by
  obtain ⟨g, m2, use1, first, went, down, rootKept, rfl⟩ := sound.initTaskPagetables_cases root user ran
  have inner := innerPath_upper user
  have leaves := first.descend_leaves root inner went
  intro w userW t reached l
  have innerW := innerPath_upper userW
  have before : m2.tables.walk r (upperPath w) = some t := by
    rw [← reached]
    exact (down.enter_walk rootKept innerW).symm
  change (m2.write g (ptIndex v) (entry f 7)).mem t l = 0 ∨
    present ((m2.write g (ptIndex v) (entry f 7)).mem t l) = true
  rw [write_mem]
  split
  · exact Or.inr (by simp)
  · rcases leaves r r [] (upperPath w) t root innerW rfl before with ⟨old, same⟩ | blank
    · have serves := first.walk_use root innerW old
      have below : t ≠ r := by
        rintro rfl
        rw [root] at serves
        cases serves
      have start : m.tables.walk r (upperPath w) = some t := by
        rw [← old]
        symm
        refine sound.walk_congr root innerW fun h q j rest split table => ?_
        rw [write_mem, if_neg]
        rintro ⟨rfl, rfl⟩
        rw [root] at table
        cases table
        have top := (List.cons.inj split).1
        unfold UserAddress at userW
        omega
      rw [same, write_mem_of_ne m r _ _ below]
      exact tidy w userW t start l
    · exact Or.inl (blank l)

/-- A PML4 that has just been emptied leads nowhere. -/
theorem TornDown.tidy (down : TornDown m use r [] r 511 m') : Tidy m' r := by
  intro v user t reached l
  unfold upperPath at reached
  rw [Tables.walk_cons, down.absent user] at reached
  cases reached

/-! ## While a program is loaded -/

/-- A task of its own pages, with tidy tables. -/
structure Neat (m : Machine) (use : Word → Use) (r : Word) : Prop where
  own : m.Private use r
  tidy : m.Tidy r

theorem Sound.deallocTask_neat (sound : m.Sound use) (root : use r = .table r []) :
    ∃ m', m.deallocTask r = some m' ∧ m'.Neat use r ∧ m'.head = m.head := by
  obtain ⟨m', ran, down⟩ := sound.deallocTask root
  refine ⟨m', ran, ⟨⟨down.sound, root, fun v e user found => ?_⟩, down.tidy⟩, down.head⟩
  rw [down.unmapped user] at found
  cases found

theorem Neat.kmalloc (neat : m.Neat use r) (ran : m.kmalloc 32 = some (f, m')) : m'.Neat use r :=
  ⟨(neat.own.kmalloc ran).after, neat.tidy.of_mem (neat.own.sound.kmalloc ran).mem⟩

theorem Neat.mapPage (neat : m.Neat use r) (user : UserAddress v)
    (popped : m.getFreeFrame = some (f, m1)) (ran : m1.initTaskPagetables v f r = some m') :
    ∃ use', m'.Neat use' r := by
  have taken := neat.own.sound.getFreeFrame popped
  obtain ⟨use', loaded⟩ := neat.own.mapPage user popped ran
  exact ⟨use', loaded.after,
    (neat.tidy.of_mem taken.mem).initTaskPagetables taken.sound neat.own.root user ran⟩

theorem Neat.mapPages {k last : Nat} (neat : m.Neat use r)
    (user : ∀ v, k ≤ v → v < last → UserAddress v) (ran : m.mapPages r k last = some m') :
    ∃ use', m'.Neat use' r := by
  refine loop_inv (I := fun _ s => ∃ use', s.Neat use' r) ⟨use, neat⟩ ?_ ran
  intro i s s' below ⟨use1, done⟩ ran
  obtain ⟨⟨f, s1⟩, popped, ran⟩ := Option.bind_eq_some_iff.mp ran
  exact done.mapPage (user _ (by omega) (by omega)) popped ran

theorem Neat.storeByte {b : Byte} (neat : m.Neat use r) (user : UserAddress v)
    (stored : m.storeByte r v b = some m') : m'.Neat use r := by
  refine ⟨(neat.own.storeByte user stored).after, ?_⟩
  obtain ⟨_, e, found, rfl⟩ := neat.own.sound.storeByte neat.own.root user stored
  have data := (neat.own.sound.translate_facts neat.own.root user found).2.1
  apply neat.tidy.of_data neat.own.sound neat.own.root
  intro x r' p table
  apply write_mem_of_ne
  rintro rfl
  rw [data] at table
  cases table

theorem Neat.memcpy {dest n : Nat} {src : Nat → Option Byte} (neat : m.Neat use r)
    (user : ∀ k, k < n → UserAddress (dest + k)) (ran : m.memcpy r dest src n = some m') :
    m'.Neat use r := by
  refine loop_inv (I := fun _ s => s.Neat use r) neat ?_ ran
  intro k s s' below done ran
  obtain ⟨b, _, stored⟩ := Option.bind_eq_some_iff.mp ran
  exact done.storeByte (user k below) stored

end Machine

open Machine

variable {m m' : Machine} {use : Word → Use} {ts ts' : TaskStruct} {file : Elf} {ep : Phdr}
  {segments : List Phdr}

theorem Machine.Neat.loadSegment (neat : m.Neat use ts.pml4e) (loadable : Loadable ep)
    (ran : LateOS.loadSegment file ep ts m = some (ts', m')) : ∃ use', m'.Neat use' ts.pml4e := by
  have filesz := loadable.filesz
  obtain ⟨-, f, m1, m2, m3, node, mapped, copied, cleared⟩ := loadable.loaded ran
  obtain ⟨use1, second⟩ := (neat.kmalloc node).mapPages loadable.user mapped
  have third := second.memcpy (fun k below => loadable.inside (by omega)) copied
  rw [memset_eq] at cleared
  refine ⟨use1, third.memcpy (fun k below => ?_) cleared⟩
  rw [Nat.add_assoc]
  exact loadable.inside (by omega)

theorem Machine.Neat.loadSegments (neat : m.Neat use ts.pml4e) (all : AllLoadable segments)
    (ran : LateOS.loadSegments file segments ts m = some (ts', m')) :
    ∃ use', m'.Neat use' ts.pml4e := by
  induction segments generalizing ts m use with
  | nil =>
    cases ran
    exact ⟨use, neat⟩
  | cons ep rest ih =>
    obtain ⟨load, loadable⟩ := all ep (by simp)
    rw [loadSegments_cons load] at ran
    obtain ⟨⟨ts1, m1⟩, first, ran⟩ := Option.bind_eq_some_iff.mp ran
    obtain ⟨use1, done⟩ := neat.loadSegment loadable first
    have same := loadable.pml4e first
    obtain ⟨use2, later⟩ := ih (same ▸ done) (fun e member => all e (by simp [member])) ran
    exact ⟨use2, same ▸ later⟩

end LateOS
