import Mathlib.Algebra.Order.BigOperators.Group.Finset
import Mathlib.Order.Interval.Finset.Nat
import LateOS.Heap.Session
import LateOS.Memory.HeapArea

/-!
# Running out of frames

How many frames a call of `malloc` takes: one for each page, and one for each table that is not
there yet. The call returns if there are as many, and does not return otherwise.
-/
namespace LateOS

open Lib

/-! ## Prefixes -/

/-- The prefixes of a path, without the empty one. -/
def prefixes : List Nat → Finset (List Nat)
  | [] => ∅
  | i :: path => insert [i] ((prefixes path).image (i :: ·))

theorem mem_prefixes {path q : List Nat} : q ∈ prefixes path ↔ q ≠ [] ∧ q <+: path := by
  induction path generalizing q with
  | nil => simp [prefixes]
  | cons i path ih =>
    cases q with
    | nil => simp [prefixes]
    | cons j q =>
      rw [List.cons_prefix_cons]
      constructor
      · intro member
        rcases Finset.mem_insert.mp member with here | later
        · cases here
          exact ⟨nofun, rfl, List.nil_prefix⟩
        · obtain ⟨q', inside, same⟩ := Finset.mem_image.mp later
          cases same
          exact ⟨nofun, rfl, (ih.mp inside).2⟩
      · rintro ⟨_, rfl, ahead⟩
        cases q with
        | nil => exact Finset.mem_insert_self _ _
        | cons k q =>
          have inside : k :: q ∈ prefixes path := ih.mpr ⟨nofun, ahead⟩
          exact Finset.mem_insert_of_mem (Finset.mem_image.mpr ⟨_, inside, rfl⟩)

theorem card_prefixes (path : List Nat) : (prefixes path).card = path.length := by
  induction path with
  | nil => rfl
  | cons i path ih =>
    have apart : [i] ∉ (prefixes path).image (i :: ·) := by
      intro member
      obtain ⟨q, inside, same⟩ := Finset.mem_image.mp member
      cases same
      exact (mem_prefixes.mp inside).1 rfl
    rw [prefixes, Finset.card_insert_of_notMem apart,
      Finset.card_image_of_injective _ (List.cons_injective), ih]
    rfl

namespace Machine

variable {m m' : Machine} {use use' : Word → Use} {r t g f n : Word} {p q path : List Nat} {i v : Nat}

/-! ## Tables that are not there -/

/-- The tables on the way along `path` that are missing below `t`. -/
def missingOn (m : Machine) (t : Word) (path : List Nat) : Finset (List Nat) :=
  (prefixes path).filter fun q => m.tables.walk t q = none

theorem tables_target (e : Word) :
    m.tables.target e = if present e then some (frame e) else none := rfl

/-- Below a table that is there, as many are missing as below the one above it. -/
theorem missing_here (here : present (m.mem t i) = true) :
    (m.missingOn t (i :: path)).card = (m.missingOn (frame (m.mem t i)) path).card := by
  have step (q : List Nat) :
      m.tables.walk t (i :: q) = m.tables.walk (frame (m.mem t i)) q := by
    rw [Tables.walk_cons]
    change (m.tables.target (m.mem t i)).bind _ = _
    rw [tables_target, if_pos here]
    rfl
  have shape : m.missingOn t (i :: path) =
      (m.missingOn (frame (m.mem t i)) path).image (i :: ·) := by
    ext q
    unfold missingOn
    rw [Finset.mem_filter, prefixes, Finset.mem_insert, Finset.mem_image, Finset.mem_image]
    constructor
    · rintro ⟨rfl | ⟨q', inside, rfl⟩, absent⟩
      · rw [step] at absent
        cases absent
      · exact ⟨q', Finset.mem_filter.mpr ⟨inside, by rwa [step] at absent⟩, rfl⟩
    · rintro ⟨q', inside, rfl⟩
      obtain ⟨inside, absent⟩ := Finset.mem_filter.mp inside
      exact ⟨Or.inr ⟨q', inside, rfl⟩, by rwa [step]⟩
  rw [shape, Finset.card_image_of_injective _ (List.cons_injective)]

/-- Where a table is missing, so are all below it. -/
theorem missing_absent (absent : ¬present (m.mem t i) = true) :
    (m.missingOn t (i :: path)).card = path.length + 1 := by
  have all : m.missingOn t (i :: path) = prefixes (i :: path) := by
    unfold missingOn
    rw [Finset.filter_eq_self]
    intro q member
    obtain ⟨some, ahead⟩ := mem_prefixes.mp member
    cases q with
    | nil => exact absurd rfl some
    | cons j q =>
      cases (List.cons_prefix_cons.mp ahead).1
      rw [Tables.walk_cons]
      change (m.tables.target (m.mem t i)).bind _ = _
      rw [tables_target, if_neg absent]
      rfl
  rw [all, card_prefixes]
  rfl

theorem missing_blank (blank : ∀ j, m.mem t j = 0) (path : List Nat) :
    (m.missingOn t path).card = path.length := by
  cases path with
  | nil => rfl
  | cons i path => exact missing_absent (by simp [blank i])

/-! ## The way down -/

theorem linkTable_head (ran : m.linkTable t i = some (n, m')) :
    m.head.length = m'.head.length + 1 := by
  unfold linkTable at ran
  obtain ⟨⟨f, m1⟩, popped, rest⟩ := Option.bind_eq_some_iff.mp ran
  cases rest
  unfold getFreeFrame at popped
  split at popped
  · cases popped
  next list =>
    cases popped
    rw [list]
    rfl

/-- The way down takes a frame for each table that is missing. -/
theorem descend_head (ran : descend path t m = some (g, m')) :
    m.head.length = m'.head.length + (m.missingOn t path).card := by
  induction path generalizing t m with
  | nil =>
    cases ran
    rfl
  | cons i path ih =>
    rw [descend_cons] at ran
    split at ran
    next here => rw [ih ran, missing_here here]
    next absent =>
      obtain ⟨⟨n, m2⟩, linked, ran⟩ := Option.bind_eq_some_iff.mp ran
      rw [linkTable_head linked, ih ran, missing_blank (linkTable_blank linked),
        missing_absent absent]
      omega

theorem descend_enough (enough : (m.missingOn t path).card ≤ m.head.length) :
    ∃ g m', descend path t m = some (g, m') := by
  induction path generalizing t m with
  | nil => exact ⟨t, m, rfl⟩
  | cons i path ih =>
    rw [descend_cons]
    split
    next here =>
      rw [missing_here here] at enough
      exact ih enough
    next absent =>
      rw [missing_absent absent] at enough
      obtain ⟨f, m1, popped, fewer⟩ := getFreeFrame_total (m := m) (by omega)
      have linked : m.linkTable t i = some (f, (m1.write t i (entry f 7)).zero f) := by
        unfold linkTable
        rw [popped]
        rfl
      rw [linked, Option.bind_some]
      refine ih ?_
      rw [missing_blank (linkTable_blank linked)]
      change path.length ≤ m1.head.length
      omega

/-- Tables that lie on no way through `t` keep their entries. -/
theorem Sound.descend_frame (sound : m.Sound use) (serves : use t = .table r p)
    (inner : InnerPath Inner p path) (ran : Machine.descend path t m = some (g, m')) {x : Word}
    (used : use x ≠ .free) (away : ∀ q, use x = .table r q → ¬p <+: q) : m'.mem x = m.mem x := by
  induction path generalizing t p m use with
  | nil =>
    cases ran
    rfl
  | cons i path ih =>
    have further : ∀ q, use x = .table r q → ¬p ++ [i] <+: q := fun q table longer =>
      away q table ((List.prefix_append p [i]).trans longer)
    rw [descend_cons] at ran
    split at ran
    next here =>
      have child := ((sound.entries t r p i serves inner.1.2.1 here).1 inner.1).1
      exact ih sound child inner.2 ran used further
    next absent =>
      obtain ⟨⟨n, m2⟩, linked, ran⟩ := Option.bind_eq_some_iff.mp ran
      obtain ⟨m1, taken, rfl⟩ := sound.linkTable serves linked
      have other : x ≠ n := taken.ne used
      have same : Function.update use n (.table r (p ++ [i])) x = use x :=
        Function.update_of_ne other _ _
      rw [ih (taken.fill serves inner.1) (Function.update_self ..) inner.2 ran (same ▸ used)
        (same ▸ further)]
      -- Only entry `i` of `t` and the new table have been written.
      have apart : x ≠ t := by
        rintro rfl
        exact away p serves (List.prefix_refl p)
      funext j
      rw [fill_mem, if_neg fun both => apart both.1, if_neg other, taken.mem]

theorem walk_cons_isSome : (m.tables.walk t (i :: q)).isSome = true ↔
    present (m.mem t i) = true ∧ (m.tables.walk (frame (m.mem t i)) q).isSome = true := by
  rw [Tables.walk_cons]
  change ((m.tables.target (m.mem t i)).bind _).isSome = true ↔ _
  rw [tables_target]
  by_cases here : present (m.mem t i) = true
  · rw [if_pos here, Option.bind_some]
    simp [here]
  · simp [here]

theorem walk_blank (blank : ∀ j, m.mem t j = 0) :
    (m.tables.walk t q).isSome = true ↔ q = [] := by
  cases q with
  | nil => simp
  | cons j q =>
    rw [walk_cons_isSome, blank]
    simp

/-- Walks that leave `t` by another entry stay the same. -/
theorem Sound.walk_aside {j : Nat} (sound : m.Sound use) (serves : use t = .table r p)
    (inside : InnerPath Inner p (j :: q)) (apart : j ≠ i)
    (kept : ∀ x, use x ≠ .free → x ≠ t → (∀ q, use x = .table r q → ¬p ++ [i] <+: q) →
      m'.mem x = m.mem x) :
    (present (m.mem t j) = true ∧ (m'.tables.walk (frame (m.mem t j)) q).isSome = true) ↔
      present (m.mem t j) = true ∧ (m.tables.walk (frame (m.mem t j)) q).isSome = true := by
  refine and_congr_right fun here => ?_
  have child := ((sound.entries t r p j serves inside.1.2.1 here).1 inside.1).1
  rw [sound.walk_congr child inside.2 fun h q' k rest _ table => ?_]
  refine congrFun (kept h (by simp [table]) ?_ fun q'' table' longer => ?_) k
  · rintro rfl
    rw [serves] at table
    have longer := congrArg List.length (Use.table.inj table).2
    simp at longer
  · rw [table] at table'
    cases table'
    rw [List.append_assoc, List.prefix_append_right_inj] at longer
    exact apart (List.cons_prefix_cons.mp longer).1.symm

/-- After the way down, the tables on it are there, and those that were there before. -/
theorem Sound.descend_walk (sound : m.Sound use) (serves : use t = .table r p)
    (inner : InnerPath Inner p path) (ran : Machine.descend path t m = some (g, m'))
    (inside : InnerPath Inner p q) : (m'.tables.walk t q).isSome = true ↔
      (m.tables.walk t q).isSome = true ∨ q <+: path := by
  induction path generalizing t p q m use with
  | nil =>
    cases ran
    rw [List.prefix_nil]
    constructor
    · exact Or.inl
    · rintro (before | rfl)
      · exact before
      · rfl
  | cons i path ih =>
    cases q with
    | nil => simp
    | cons j q =>
      rw [walk_cons_isSome, walk_cons_isSome, List.cons_prefix_cons]
      rw [descend_cons] at ran
      split at ran
      next here =>
        have child := ((sound.entries t r p i serves inner.1.2.1 here).1 inner.1).1
        obtain ⟨use', down⟩ := sound.descend child inner.2 ran
        have own : m'.mem t = m.mem t := down.above t p serves (by simp)
        rw [own]
        by_cases same : j = i
        · subst same
          rw [ih sound child inner.2 ran inside.2]
          simp [here]
        · rw [sound.walk_aside serves inside same fun x used _ away =>
            sound.descend_frame child inner.2 ran used away]
          exact (or_iff_left fun both => same both.1).symm
      next absent =>
        obtain ⟨⟨n, m2⟩, linked, ran⟩ := Option.bind_eq_some_iff.mp ran
        have blank := linkTable_blank linked
        obtain ⟨m1, taken, rfl⟩ := sound.linkTable serves linked
        have sound2 := taken.fill serves inner.1
        have serves2 : Function.update use n (.table r (p ++ [i])) n = .table r (p ++ [i]) :=
          Function.update_self ..
        have other : t ≠ n := taken.ne (by simp [serves])
        obtain ⟨use', down⟩ := sound2.descend serves2 inner.2 ran
        have own : m'.mem t = (m1.fill t i n).mem t :=
          down.above t p (by rw [Function.update_of_ne other, serves]) (by simp)
        have entry_ (k : Nat) : m'.mem t k = if k = i then entry n 7 else m.mem t k := by
          rw [own, fill_mem]
          simp [other, taken.mem]
        rw [entry_]
        by_cases same : j = i
        · subst same
          have leads : frame (entry n 7) = n := by simp [taken.aligned]
          have there : present (entry n 7) = true := by simp
          rw [if_pos rfl, leads, ih sound2 serves2 inner.2 ran inside.2, walk_blank blank]
          simp only [absent, there, true_and, false_and, false_or, Bool.false_eq_true]
          constructor
          · rintro (rfl | ahead)
            · exact List.nil_prefix
            · exact ahead
          · exact Or.inr
        · have kept : ∀ x, use x ≠ .free → x ≠ t → (∀ q, use x = .table r q → ¬p ++ [i] <+: q) →
              m'.mem x = m.mem x := by
            intro x used apart away
            have otherX : x ≠ n := taken.ne used
            have sameX : Function.update use n (.table r (p ++ [i])) x = use x :=
              Function.update_of_ne otherX _ _
            rw [sound2.descend_frame serves2 inner.2 ran (sameX ▸ used) (sameX ▸ away)]
            funext k
            rw [fill_mem, if_neg fun both => apart both.1, if_neg otherX, taken.mem]
          rw [if_neg same, sound.walk_aside serves inside same kept]
          exact (or_iff_left fun both => same both.1).symm

/-! ## One page -/

section

variable {own : Word → Option (Word × List Nat)} (tree : m.Tree own) (root : own r = some (r, []))

include tree root

/-- The kernel's slot is on no way to a user page. -/
theorem Tree.slot_walk (inside : InnerPath Inner [] q) (e : Word) :
    (m.write r 511 e).tables.walk r q = m.tables.walk r q := by
  refine tree.walk_congr root inside fun h q' j rest split owns => ?_
  rw [write_mem, if_neg]
  rintro ⟨rfl, rfl⟩
  rw [root] at owns
  cases owns
  rw [split] at inside
  exact not_inner_slot inside.1

theorem Tree.slot_missing (inner : InnerPath Inner [] path) (e : Word) :
    (m.write r 511 e).missingOn r path = m.missingOn r path := by
  refine Finset.filter_congr fun q member => ?_
  rw [tree.slot_walk root (innerPath_ahead inner (mem_prefixes.mp member).2)]

/-- Mapping a page takes a frame for each table that is missing. -/
theorem Tree.mapOne_head (user : UserAddress v) (ran : m.initTaskPagetables v f r = some m') :
    m.head.length = m'.head.length + (m.missingOn r (upperPath v)).card := by
  rw [initTaskPagetables_eq] at ran
  obtain ⟨⟨t, m2⟩, went, rfl⟩ := Option.map_eq_some_iff.mp ran
  have taken := descend_head went
  rw [tree.slot_missing root (innerPath_upper user)] at taken
  exact taken

theorem Tree.mapOne_enough (user : UserAddress v) (f : Word)
    (enough : (m.missingOn r (upperPath v)).card ≤ m.head.length) :
    ∃ m', m.initTaskPagetables v f r = some m' := by
  rw [initTaskPagetables_eq]
  rw [← tree.slot_missing root (innerPath_upper user)] at enough
  obtain ⟨g, m', went⟩ := descend_enough enough
  rw [went]
  exact ⟨_, rfl⟩

end

/-- What mapping a page takes, and which tables are there afterwards. -/
theorem Sound.mapOne (sound : m.Sound use) (root : use r = .table r []) (user : UserAddress v)
    (ran : m.initTaskPagetables v f r = some m') :
    m.head.length = m'.head.length + (m.missingOn r (upperPath v)).card ∧
      ∀ q, InnerPath Inner [] q → ((m'.tables.walk r q).isSome = true ↔
        (m.tables.walk r q).isSome = true ∨ q <+: upperPath v) := by
  refine ⟨sound.tree.mapOne_head (Use.owner_eq.mpr root) user ran, fun q inside => ?_⟩
  obtain ⟨t, m2, use1, first, went, down, rootKept, rfl⟩ := sound.initTaskPagetables_cases root user ran
  have inner := innerPath_upper user
  rw [down.enter_walk rootKept inside, first.descend_walk root inner went inside,
    sound.tree.slot_walk (Use.owner_eq.mpr root) inside]

theorem Sound.mapOne_enough (sound : m.Sound use) (root : use r = .table r [])
    (user : UserAddress v) (f : Word)
    (enough : (m.missingOn r (upperPath v)).card ≤ m.head.length) :
    ∃ m', m.initTaskPagetables v f r = some m' :=
  sound.tree.mapOne_enough (Use.owner_eq.mpr root) user f enough

/-! ## All pages -/

/-- The tables above the pages `i` to `k - 1`, counted from `start`. -/
def pagePaths (start i k : Nat) : Finset (List Nat) :=
  (Finset.Ico i k).biUnion fun p => prefixes (upperPath (start + 4096 * p))

/-- The tables of `Q` that are not there. -/
def unmade (m : Machine) (r : Word) (Q : Finset (List Nat)) : Finset (List Nat) :=
  Q.filter fun q => m.tables.walk r q = none

/-- What a way down has made is no longer missing. -/
theorem unmade_split {Q : Finset (List Nat)} (inner : ∀ q ∈ Q, InnerPath Inner [] q)
    (tables : prefixes path ⊆ Q)
    (there : ∀ q, InnerPath Inner [] q → ((m'.tables.walk r q).isSome = true ↔
      (m.tables.walk r q).isSome = true ∨ q <+: path)) :
    (m.unmade r Q).card = (m.missingOn r path).card + (m'.unmade r Q).card := by
  have made (q : List Nat) (own : q ∈ prefixes path) : (m'.tables.walk r q).isSome = true :=
    (there q (inner q (tables own))).mpr (Or.inr (mem_prefixes.mp own).2)
  have split : m.unmade r Q = m.missingOn r path ∪ m'.unmade r Q := by
    ext q
    unfold unmade missingOn
    rw [Finset.mem_union, Finset.mem_filter, Finset.mem_filter, Finset.mem_filter]
    constructor
    · rintro ⟨member, absent⟩
      by_cases ahead : q <+: path
      · refine Or.inl ⟨mem_prefixes.mpr ⟨?_, ahead⟩, absent⟩
        rintro rfl
        cases absent
      · refine Or.inr ⟨member, Option.not_isSome_iff_eq_none.mp fun now => ?_⟩
        have before := ((there q (inner q member)).mp now).resolve_right ahead
        rw [absent] at before
        cases before
    · rintro (⟨own, absent⟩ | ⟨member, absent⟩)
      · exact ⟨tables own, absent⟩
      · refine ⟨member, Option.not_isSome_iff_eq_none.mp fun before => ?_⟩
        have now := (there q (inner q member)).mpr (Or.inl before)
        rw [absent] at now
        cases now
  rw [split, Finset.card_union_of_disjoint]
  refine Finset.disjoint_left.mpr fun q here later => ?_
  have now := made q (Finset.mem_filter.mp here).1
  rw [(Finset.mem_filter.mp later).2] at now
  cases now

theorem prefixes_subset {start i p k : Nat} (above : i ≤ p) (below : p < k) :
    prefixes (upperPath (start + 4096 * p)) ⊆ pagePaths start i k := fun _ own =>
  Finset.mem_biUnion.mpr ⟨p, Finset.mem_Ico.mpr ⟨above, below⟩, own⟩

/-- Those that are not there. -/
def missingTables (m : Machine) (r : Word) (start i k : Nat) : Finset (List Nat) :=
  (pagePaths start i k).filter fun q => m.tables.walk r q = none

theorem pagePaths_step {start i k : Nat} (more : i < k) : pagePaths start i k =
    prefixes (upperPath (start + 4096 * i)) ∪ pagePaths start (i + 1) k := by
  unfold pagePaths
  have first : Finset.Ico i k = insert i (Finset.Ico (i + 1) k) := by
    ext p
    simp only [Finset.mem_Ico, Finset.mem_insert]
    omega
  rw [first, Finset.biUnion_insert]

theorem pagePaths_inner {start i k : Nat} (user : ∀ p < k, UserAddress (start + 4096 * p))
    (member : q ∈ pagePaths start i k) : q ≠ [] ∧ InnerPath Inner [] q := by
  obtain ⟨p, range, inside⟩ := Finset.mem_biUnion.mp member
  obtain ⟨some, ahead⟩ := mem_prefixes.mp inside
  exact ⟨some, innerPath_ahead (innerPath_upper (user p (Finset.mem_Ico.mp range).2)) ahead⟩

/-- What page `i` takes is no longer missing for the pages behind it. -/
theorem missingTables_step {start i k : Nat} (more : i < k)
    (user : ∀ p < k, UserAddress (start + 4096 * p))
    (there : ∀ q, InnerPath Inner [] q → ((m'.tables.walk r q).isSome = true ↔
      (m.tables.walk r q).isSome = true ∨ q <+: upperPath (start + 4096 * i))) :
    (m.missingTables r start i k).card =
      (m.missingOn r (upperPath (start + 4096 * i))).card +
        (m'.missingTables r start (i + 1) k).card := by
  have split : m.missingTables r start i k =
      m.missingOn r (upperPath (start + 4096 * i)) ∪ m'.missingTables r start (i + 1) k := by
    ext q
    unfold missingTables missingOn
    rw [pagePaths_step more, Finset.mem_union, Finset.mem_filter, Finset.mem_filter,
      Finset.mem_filter, Finset.mem_union]
    by_cases own : q ∈ prefixes (upperPath (start + 4096 * i))
    · constructor
      · rintro ⟨_, absent⟩
        exact Or.inl ⟨own, absent⟩
      · rintro (⟨_, absent⟩ | ⟨later, absent⟩)
        · exact ⟨Or.inl own, absent⟩
        · have now := (there q (pagePaths_inner user later).2).mpr
            (Or.inr (mem_prefixes.mp own).2)
          rw [absent] at now
          cases now
    · have same (later : q ∈ pagePaths start (i + 1) k) :
          m'.tables.walk r q = none ↔ m.tables.walk r q = none := by
        obtain ⟨some, inner⟩ := pagePaths_inner user later
        have away : ¬q <+: upperPath (start + 4096 * i) := fun ahead =>
          own (mem_prefixes.mpr ⟨some, ahead⟩)
        have both := there q inner
        rw [or_iff_left away] at both
        rw [← Option.not_isSome_iff_eq_none, ← Option.not_isSome_iff_eq_none, both]
      constructor
      · rintro ⟨either, absent⟩
        have later := either.resolve_left own
        exact Or.inr ⟨later, (same later).mpr absent⟩
      · rintro (⟨here, _⟩ | ⟨later, absent⟩)
        · exact absurd here own
        · exact ⟨Or.inr later, (same later).mp absent⟩
  rw [split, Finset.card_union_of_disjoint]
  refine Finset.disjoint_left.mpr fun q here later => ?_
  obtain ⟨own, _⟩ := Finset.mem_filter.mp here
  obtain ⟨later, absent⟩ := Finset.mem_filter.mp later
  have now := (there q (pagePaths_inner user later).2).mpr (Or.inr (mem_prefixes.mp own).2)
  rw [absent] at now
  cases now

theorem missingTables_done (m : Machine) (r : Word) (start k : Nat) :
    m.missingTables r start k k = ∅ := by
  unfold missingTables pagePaths
  rw [Finset.Ico_self]
  rfl

theorem missing_le {start i k : Nat} (more : i < k) :
    (m.missingOn r (upperPath (start + 4096 * i))).card ≤ (m.missingTables r start i k).card := by
  refine Finset.card_le_card fun q member => ?_
  obtain ⟨own, absent⟩ := Finset.mem_filter.mp member
  refine Finset.mem_filter.mpr ⟨?_, absent⟩
  rw [pagePaths_step more]
  exact Finset.mem_union_left _ own

theorem Taken.missingTables (taken : Taken m use n m') (r : Word) (start i k : Nat) :
    m'.missingTables r start i k = m.missingTables r start i k := by
  have same : m'.tables = m.tables := by
    unfold tables
    rw [taken.mem]
  unfold Machine.missingTables
  rw [same]

end Machine

/-! ## malloc -/

open Machine

section

variable {m m' : Machine} {use : Word → Use} {ts ts' : TaskStruct} {first heap : VmaStruct}
  {rest : List VmaStruct} {r : Word} {i k : Nat}

/-- The pages that `malloc` maps for a request. -/
def requestPages (n : Int) : Nat := (n.tdiv 4096 + 1).toNat

/-- The frames that it takes: one for each page, and one for each table that is not there. -/
def framesNeeded (ts : TaskStruct) (n : Int) (m : Machine) : Nat :=
  requestPages n + (m.missingTables ts.pml4e (heapEnd ts.vm) 0 (requestPages n)).card

/-- There are at most three tables above a page. -/
theorem framesNeeded_le (ts : TaskStruct) (n : Int) (m : Machine) :
    framesNeeded ts n m ≤ 4 * requestPages n := by
  have some : (m.missingTables ts.pml4e (heapEnd ts.vm) 0 (requestPages n)).card ≤
      (pagePaths (heapEnd ts.vm) 0 (requestPages n)).card := Finset.card_filter_le _ _
  have all : (pagePaths (heapEnd ts.vm) 0 (requestPages n)).card ≤
      (Finset.Ico 0 (requestPages n)).card * 3 := by
    refine Finset.card_biUnion_le_card_mul _ _ _ fun p _ => ?_
    rw [card_prefixes]
    rfl
  rw [Nat.card_Ico] at all
  unfold framesNeeded
  omega

/-- After `i` of `k` pages: the frames taken are those for the pages and the tables made. -/
structure Growing (m : Machine) (use : Word → Use) (r : Word) (heap : VmaStruct) (k i : Nat)
    (s : VmaStruct × Machine) : Prop where
  last : s.1 = { heap with lastAddress := heap.lastAddress + 4096 * i }
  spread : ∃ use' frames, Spread m use r heap.lastAddress i s.2 use' frames
  taken : s.2.head.length + i + (m.missingTables r heap.lastAddress 0 k).card =
    m.head.length + (s.2.missingTables r heap.lastAddress i k).card

theorem Growing.start (sound : m.Sound use) (r : Word) (heap : VmaStruct) (k : Nat) :
    Growing m use r heap k 0 (heap, m) :=
  ⟨rfl, ⟨use, [], .refl sound _⟩, rfl⟩

theorem Growing.next {s s' : VmaStruct × Machine} (growing : Growing m use r heap k i s)
    (root : use r = .table r [])
    (user : ∀ v, heap.lastAddress ≤ v → v < heap.lastAddress + 4096 * k → UserAddress v)
    (more : i < k) (ran : growHeap r i s = some s') : Growing m use r heap k (i + 1) s' := by
  obtain ⟨last, ⟨use1, frames, spread⟩, accounts⟩ := growing
  obtain ⟨⟨f, s1⟩, popped, ran⟩ := Option.bind_eq_some_iff.mp ran
  obtain ⟨s2, mapped, rfl⟩ := Option.map_eq_some_iff.mp ran
  have here : s.1.lastAddress = heap.lastAddress + 4096 * i := by rw [last]
  rw [here] at mapped
  have taken := spread.sound.getFreeFrame popped
  have userPage : ∀ p < k, UserAddress (heap.lastAddress + 4096 * p) := fun p below =>
    user _ (by omega) (by omega)
  obtain ⟨use2, next⟩ := spread.next root (userPage i more)
    (fun p earlier => not_samePage user earlier (by omega)) popped mapped
  obtain ⟨tables, there⟩ := taken.sound.mapOne (spread.root root) (userPage i more) mapped
  have step := missingTables_step more userPage there
  have before := taken.missingTables r heap.lastAddress i k
  have fewer : s.2.head.length = s1.head.length + 1 := by rw [taken.head, List.length_cons]
  refine ⟨?_, ⟨use2, _, next⟩, ?_⟩
  · rw [last]
    simp only [Nat.mul_add, Nat.mul_one, Nat.add_assoc]
  · rw [before] at step
    dsimp only at tables ⊢
    omega

theorem Growing.enough {s : VmaStruct × Machine} (growing : Growing m use r heap k i s)
    (root : use r = .table r [])
    (user : ∀ v, heap.lastAddress ≤ v → v < heap.lastAddress + 4096 * k → UserAddress v)
    (more : i < k)
    (frames : k + (m.missingTables r heap.lastAddress 0 k).card ≤ m.head.length) :
    ∃ s', growHeap r i s = some s' := by
  obtain ⟨last, ⟨use1, _, spread⟩, accounts⟩ := growing
  have here : s.1.lastAddress = heap.lastAddress + 4096 * i := by rw [last]
  have page : UserAddress (heap.lastAddress + 4096 * i) := user _ (by omega) (by omega)
  have own : (s.2.missingOn r (upperPath (heap.lastAddress + 4096 * i))).card ≤
    (s.2.missingTables r heap.lastAddress i k).card := missing_le more
  obtain ⟨f, s1, popped, fewer⟩ := getFreeFrame_total (m := s.2) (by omega)
  have taken := spread.sound.getFreeFrame popped
  have same : s1.missingOn r (upperPath (heap.lastAddress + 4096 * i)) =
      s.2.missingOn r (upperPath (heap.lastAddress + 4096 * i)) := by
    unfold Machine.missingOn tables
    rw [taken.mem]
  obtain ⟨s2, mapped⟩ := taken.sound.mapOne_enough (spread.root root) page f
    (by rw [same]; omega)
  refine ⟨({ s.1 with lastAddress := s.1.lastAddress + 4096 }, s2), ?_⟩
  unfold growHeap
  rw [popped, Option.bind_some]
  dsimp only
  rw [here, mapped]
  rfl

theorem malloc_congr {n n' : Int} (same : requestPages n = requestPages n') (ts : TaskStruct)
    (m : Machine) : malloc ts n m = malloc ts n' m := by
  unfold requestPages at same
  unfold malloc
  rw [same]

/-- A request for no page returns at once. -/
theorem malloc_none {n : Int} (none : requestPages n = 0) (shape : ts.vm = first :: heap :: rest)
    (m : Machine) : malloc ts n m = some (heap.lastAddress, ts, m) := by
  unfold requestPages at none
  unfold malloc
  rw [shape]
  dsimp only
  rw [none]
  change some (heap.lastAddress, { ts with vm := first :: heap :: rest }, m) = _
  rw [← shape]

/-- Any other request is served like one for full pages. -/
theorem malloc_full {n : Int} (pages : requestPages n = k + 1) (ts : TaskStruct) (m : Machine) :
    malloc ts n m = malloc ts ((4096 * k : Nat) : Int) m := by
  refine malloc_congr (pages.trans ?_) ts m
  have rounds : (((4096 * k : Nat) : Int).tdiv 4096 + 1).toNat = 4096 * k / 4096 + 1 :=
    malloc_rounds (4096 * k)
  unfold requestPages
  rw [rounds, Nat.mul_div_cancel_left k (by decide)]

/-- What `malloc` maps, whatever the sign of the request. -/
theorem Machine.Sound.malloc_pages {n : Int} {ret : Nat} (sound : m.Sound use)
    (root : use ts.pml4e = .table ts.pml4e []) (shape : ts.vm = first :: heap :: rest)
    (room : heap.lastAddress + 4096 * m.head.length ≤ heapLimit)
    (ran : LateOS.malloc ts n m = some (ret, ts', m')) : ∃ use' frames,
      Spread m use ts.pml4e heap.lastAddress (requestPages n) m' use' frames := by
  cases pages : requestPages n with
  | zero =>
    rw [malloc_none pages shape] at ran
    cases ran
    exact ⟨use, [], .refl sound _⟩
  | succ k =>
    rw [malloc_full pages] at ran
    obtain ⟨_, _, use', frames, spread⟩ := sound.malloc_spread root shape room ran
    rw [Nat.mul_div_cancel_left k (by decide)] at spread
    exact ⟨use', frames, spread⟩

/-- `malloc` returns exactly if there are frames for all its pages and tables. -/
theorem Machine.Sound.malloc_returns (sound : m.Sound use)
    (root : use ts.pml4e = .table ts.pml4e []) (shape : ts.vm = first :: heap :: rest)
    (room : heap.lastAddress + 4096 * m.head.length ≤ heapLimit) (n : Int) :
    (∃ ret ts' m', LateOS.malloc ts n m = some (ret, ts', m')) ↔
      framesNeeded ts n m ≤ m.head.length := by
  have start : heapEnd ts.vm = heap.lastAddress := by rw [shape]; rfl
  cases pages : requestPages n with
  | zero =>
    unfold framesNeeded
    rw [malloc_none pages shape, pages, start, missingTables_done]
    exact ⟨fun _ => Nat.zero_le _, fun _ => ⟨_, _, _, rfl⟩⟩
  | succ k =>
    have rounds : 4096 * k / 4096 + 1 = k + 1 := by rw [Nat.mul_div_cancel_left k (by decide)]
    unfold framesNeeded
    rw [pages, start]
    have user (below : k + 1 ≤ m.head.length) : ∀ v, heap.lastAddress ≤ v →
        v < heap.lastAddress + 4096 * (k + 1) → UserAddress v := fun v _ small =>
      user_of_small (Nat.lt_of_lt_of_le small (Nat.le_trans (by omega) (room.trans (by decide))))
    constructor
    · rintro ⟨ret, ts', m', ran⟩
      obtain ⟨use', frames, spread⟩ := sound.malloc_pages root shape room ran
      have left := spread.left
      rw [pages] at left
      rw [malloc_full pages, malloc_eq shape, rounds] at ran
      obtain ⟨grown, looped, _⟩ := Option.map_eq_some_iff.mp ran
      have all : Growing m use ts.pml4e heap (k + 1) (k + 1) grown :=
        loop_inv (I := Growing m use ts.pml4e heap (k + 1)) (.start sound _ _ _)
          (fun i s s' more growing ran => growing.next root (user (by omega)) more ran) looped
      have accounts := all.taken
      rw [missingTables_done, Finset.card_empty] at accounts
      omega
    · intro enough
      obtain ⟨grown, ran, _⟩ : ∃ grown, loop (k + 1) (growHeap ts.pml4e) (heap, m) = some grown ∧
          Growing m use ts.pml4e heap (k + 1) (k + 1) grown := by
        refine loop_total (I := Growing m use ts.pml4e heap (k + 1)) (.start sound _ _ _) ?_
        intro i s more growing
        obtain ⟨s', ran⟩ := growing.enough root (user (by omega)) more enough
        exact ⟨s', ran, growing.next root (user (by omega)) more ran⟩
      rw [malloc_full pages, malloc_eq shape, rounds, ran]
      exact ⟨_, _, _, rfl⟩

theorem Machine.Sound.malloc_exhausted {n : Int} (sound : m.Sound use)
    (root : use ts.pml4e = .table ts.pml4e []) (shape : ts.vm = first :: heap :: rest)
    (room : heap.lastAddress + 4096 * m.head.length ≤ heapLimit)
    (few : m.head.length < requestPages n) : LateOS.malloc ts n m = none := by
  rw [Option.eq_none_iff_forall_ne_some]
  rintro ⟨ret, ts', m'⟩ ran
  have enough := (sound.malloc_returns root shape room n).mp ⟨ret, ts', m', ran⟩
  exact absurd (Nat.le_trans (Nat.le_add_right _ _) enough) (Nat.not_le_of_lt few)

/-! ## The report -/

/-- Every page of the request is mapped, and the heap's VMA takes it in. -/
structure PagesMapped (ts : TaskStruct) (n : Int) (ret : Nat) (ts' : TaskStruct) (m' : Machine) :
    Prop where
  start : ret = heapEnd ts.vm
  covers : ∀ v : Nat, ret ≤ v → (v : Int) < ret + n →
    v < heapEnd ts'.vm ∧ ∃ f, m'.translate ts'.pml4e v = some (entry f 7)

/-- The answer is `(char *)-1`, and neither the VMAs nor any mapping is different. -/
structure Refused (ts : TaskStruct) (m : Machine) (ret : Nat) (ts' : TaskStruct) (m' : Machine) :
    Prop where
  answer : ret = 2 ^ 64 - 1
  vm : ts'.vm = ts.vm
  tables : ∀ v, m'.translate ts'.pml4e v = m.translate ts.pml4e v

/-- Running out of frames is reported: by the kernel's `malloc`, and by the libc's, whose `sbrk`
then answers -1 and which has no free block that is large enough. -/
structure GrowthReported (s : System) (i : Int) (n : Int) : Prop where
  answers : ∃ ret ts m, malloc (s.taskQueue i) n s.machine = some (ret, ts, m) ∧
    (PagesMapped (s.taskQueue i) n ret ts m ∨ Refused (s.taskQueue i) s.machine ret ts m)
  seen : ∀ (heap : Heap) (F U : Finset Nat) (nbytes : Nat), heap.started.InOrder F U →
    (∀ a ∈ F, heap.started.size a < Heap.units nbytes) → ∃ heap',
      (∃ d, ∀ fuel, heap.refused.malloc (fuel + d) nbytes = some (heap', 0)) ∧
        heap'.hdr = heap.started.hdr ∧ heap'.freep = heap.started.freep

theorem GrowthReported.returns {s : System} {j n : Int} (reported : GrowthReported s j n) :
    malloc (s.taskQueue j) n s.machine ≠ none := by
  obtain ⟨ret, ts, m, ran, _⟩ := reported.answers
  rw [ran]
  nofun

theorem Machine.Sound.malloc_covers {n : Int} {ret : Nat} (sound : m.Sound use)
    (root : use ts.pml4e = .table ts.pml4e []) (shape : ts.vm = first :: heap :: rest)
    (room : heap.lastAddress + 4096 * m.head.length ≤ heapLimit)
    (aligned : 4096 ∣ heap.lastAddress) (ran : LateOS.malloc ts n m = some (ret, ts', m')) :
    PagesMapped ts n ret ts' m' := by
  refine ⟨malloc_ret ran, fun v above below => ?_⟩
  rcases Int.lt_or_le n 0 with negative | natural
  · omega
  · obtain ⟨n, rfl⟩ := Int.eq_ofNat_of_zero_le natural
    obtain ⟨rfl, rfl, use', frames, spread⟩ := sound.malloc_spread root shape room ran
    obtain ⟨f, mapped⟩ := spread.covers aligned above (by omega)
    refine ⟨?_, _, mapped⟩
    change v < heap.lastAddress + 4096 * (n / 4096 + 1)
    omega

/-- The `sbrk` of the user heap is the kernel's `malloc`: the break is where the VMA ends, and the
pages up to there are mapped. -/
theorem Machine.Sound.malloc_sbrk {n : Int} {ret : Nat} (sound : m.Sound use)
    (root : use ts.pml4e = .table ts.pml4e []) (shape : ts.vm = first :: heap :: rest)
    (room : heap.lastAddress + 4096 * m.head.length ≤ heapLimit)
    (aligned : 4096 ∣ heap.lastAddress) (ran : LateOS.malloc ts n m = some (ret, ts', m'))
    (user : Heap) (top : user.brk = heapEnd ts.vm) :
    user.sbrk n = (ret, { user with brk := heapEnd ts'.vm }) ∧
      ∀ v, ret ≤ v → v < heapEnd ts'.vm → (m'.translate ts'.pml4e v).isSome := by
  obtain ⟨use', frames, spread⟩ := sound.malloc_pages root shape room ran
  have start := malloc_ret ran
  obtain ⟨first', heap', rest', shape', rfl⟩ := malloc_task ran
  rw [shape] at shape' start
  cases shape'
  have last : heapEnd (first :: { heap with
      lastAddress := heap.lastAddress + 4096 * (n.tdiv 4096 + 1).toNat } :: rest) =
        ret + 4096 * requestPages n := by
    rw [start]
    rfl
  constructor
  · rw [last]
    unfold Heap.sbrk
    rw [top, shape, ← start]
    rfl
  · intro v above below
    rw [last] at below
    have begins : ret = heap.lastAddress := start
    obtain ⟨f, mapped⟩ := spread.covers aligned (begins ▸ above) (begins ▸ below)
    rw [mapped]
    rfl

end

/-- Out of frames, a call of `malloc` has no report for its caller: the growth of the heap answers
exactly if there are frames for all its pages and tables, and then maps them. -/
theorem System.growth_iff {s : System} {run : List (Request × System)} (booted : Booted s)
    (along : Along System.Step s run) :
    let t := lastState s run
    ∀ i, t.User i → ∀ n : Int, GrowthReported t i n ↔
      framesNeeded (t.taskQueue i) n t.machine ≤ t.machine.head.length := by
  obtain ⟨⟨use, inv⟩, heaped⟩ := Heaped.run booted along
  intro t i user n
  obtain ⟨heap, rest, at_i⟩ := heaped i user
  have room := inv.room user at_i
  have root := inv.root i user
  rw [← inv.sound.malloc_returns root at_i.shape room n]
  constructor
  · intro reported
    obtain ⟨⟨ret, ts, m⟩, ran⟩ := Option.ne_none_iff_exists'.mp reported.returns
    exact ⟨ret, ts, m, ran⟩
  · rintro ⟨ret, ts, m, ran⟩
    exact ⟨⟨ret, ts, m, ran, Or.inl (inv.sound.malloc_covers root at_i.shape room at_i.aligned ran)⟩,
      fun _ _ _ _ order small => Heap.malloc_refused order small⟩

theorem System.growth_iff_of_fork :
    GrowthReported (lastState System.boot forkRun) 3 5000 := by
  refine (System.growth_iff System.boot_booted forkRun_along 3 forkRun_users.2 5000).mpr ?_
  exact (framesNeeded_le _ _ _).trans forkRun_frames

/-- 245 pages are more than the frames there are. The last frame is followed by NULL, which
`getFreeFrame` writes through. -/
theorem System.growth_unreported :
    ¬GrowthReported (lastState System.boot forkRun) 3 1000000 := by
  obtain ⟨⟨use, inv⟩, _⟩ := Heaped.run System.boot_booted forkRun_along
  obtain ⟨heap, rest, shape, room, _⟩ := inv.layout 3 forkRun_users.2
  have few : (lastState System.boot forkRun).machine.head.length ≤ 96 := forkRun_facts.2.2
  have many : requestPages 1000000 = 245 := by decide
  have less : (lastState System.boot forkRun).machine.head.length < requestPages 1000000 := by
    omega
  intro reported
  exact reported.returns (inv.sound.malloc_exhausted (inv.root 3 forkRun_users.2) shape room less)

end LateOS
