import LateOS.Memory.Grow

/-!
# Mapping a page

`initTaskPagetables` as a walk down three levels that makes the tables it misses, and what it
does to the translation of addresses.
-/
namespace LateOS

open Lib

namespace Machine

variable {m m' : Machine} {own own' : Word → Option (Word × List Nat)} {use use' : Word → Use}
  {roots : Set Word}
  {r r' t n f g : Word} {p q path : List Nat} {i l : Nat}

/-- The way down `path`, on which missing tables are made. -/
def descend : List Nat → Word → Machine → Option (Word × Machine)
  | [], t, m => some (t, m)
  | i :: path, t, m =>
    if present (m.mem t i) then descend path (frame (m.mem t i)) m
    else do
      let (n, m) ← m.linkTable t i
      descend path n m

theorem descend_cons (i : Nat) (path : List Nat) (t : Word) (m : Machine) :
    descend (i :: path) t m = if present (m.mem t i) then descend path (frame (m.mem t i)) m
      else (m.linkTable t i).bind fun (n, m) => descend path n m := rfl

theorem linkTable_blank (ran : m.linkTable t i = some (n, m')) (j : Nat) : m'.mem n j = 0 := by
  unfold linkTable at ran
  obtain ⟨⟨f, m1⟩, _, rest⟩ := Option.bind_eq_some_iff.mp ran
  cases rest
  simp

/-- A table that is new has no table below it. -/
theorem descend_new (m : Machine) (t : Word) (i j : Nat) (path : List Nat) :
    ((m.linkTable t i).bind fun (n, m) => descend (j :: path) n m) =
      (m.linkTable t i).bind fun (n, m) => (m.linkTable n j).bind fun (n, m) => descend path n m := by
  cases ran : m.linkTable t i with
  | none => rfl
  | some pair =>
    obtain ⟨n, m'⟩ := pair
    -- The new table is zero, so the walk goes on making tables.
    have absent : present (m'.mem n j) = false := by simp [linkTable_blank ran j]
    change descend (j :: path) n m' = _
    rw [descend_cons, if_neg (by simp [absent])]
    rfl

/-- The page is entered in the leaf table. -/
def enter (virtual : Nat) (physical : Word) (leaf : Word × Machine) : Machine :=
  leaf.2.write leaf.1 (ptIndex virtual) (entry physical 7)

theorem setExistingPagePDPE_eq (m : Machine) (virtual : Nat) (physical pdpte : Word) :
    m.setExistingPagePDPE virtual physical pdpte =
      (descend [pdIndex virtual] (frame (m.mem pdpte (pdptIndex virtual))) m).map
        (enter virtual physical) := by
  unfold setExistingPagePDPE descend
  dsimp only
  cases here : present (m.mem (frame (m.mem pdpte (pdptIndex virtual))) (pdIndex virtual)) with
  | true => rfl
  | false =>
    cases m.linkTable (frame (m.mem pdpte (pdptIndex virtual))) (pdIndex virtual) <;> rfl

theorem setNewPagePDPE_eq (m : Machine) (virtual : Nat) (physical pdpte : Word) :
    m.setNewPagePDPE virtual physical pdpte =
      ((m.linkTable pdpte (pdptIndex virtual)).bind fun (n, m) =>
        descend [pdIndex virtual] n m).map (enter virtual physical) := by
  rw [descend_new]
  unfold setNewPagePDPE
  cases m.linkTable pdpte (pdptIndex virtual) with
  | none => rfl
  | some pair =>
    obtain ⟨n, m1⟩ := pair
    simp only [Option.bind_eq_bind, Option.bind_some]
    cases m1.linkTable n (pdIndex virtual) <;> rfl

theorem setExistingPagePDPTE_eq (m : Machine) (virtual : Nat) (physical pml4 : Word) :
    m.setExistingPagePDPTE virtual physical pml4 =
      (descend [pdptIndex virtual, pdIndex virtual] (frame (m.mem pml4 (pml4Index virtual))) m).map
        (enter virtual physical) := by
  unfold setExistingPagePDPTE
  dsimp only
  rw [setNewPagePDPE_eq, setExistingPagePDPE_eq, descend_cons (pdptIndex virtual)]
  cases present (m.mem (frame (m.mem pml4 (pml4Index virtual))) (pdptIndex virtual)) <;> rfl

theorem setNewPagePDPTE_eq (m : Machine) (virtual : Nat) (physical pml4 : Word) :
    m.setNewPagePDPTE virtual physical pml4 =
      ((m.linkTable pml4 (pml4Index virtual)).bind fun (n, m) =>
        descend [pdptIndex virtual, pdIndex virtual] n m).map (enter virtual physical) := by
  rw [descend_new]
  unfold setNewPagePDPTE
  cases m.linkTable pml4 (pml4Index virtual) with
  | none => rfl
  | some pair =>
    have rest := setNewPagePDPE_eq pair.2 virtual physical pair.1
    exact rest

theorem initTaskPagetables_eq (m : Machine) (virtual : Nat) (physical pml4 : Word) :
    m.initTaskPagetables virtual physical pml4 =
      (descend (upperPath virtual) pml4 (m.write pml4 511 (entry (m.mem m.pml4e 511) 7))).map
        (enter virtual physical) := by
  unfold initTaskPagetables upperPath
  dsimp only
  generalize m.write pml4 511 (entry (m.mem m.pml4e 511) 7) = m1
  rw [setNewPagePDPTE_eq, setExistingPagePDPTE_eq, descend_cons (pml4Index virtual)]
  cases present (m1.mem pml4 (pml4Index virtual)) <;> rfl

/-! ## What it does to a tree -/

/-- What a way down leaves behind: table `g` is reached from `t`, and nothing else is. -/
structure WentDown (m : Machine) (own : Word → Option (Word × List Nat)) (t r : Word)
    (p path : List Nat) (g : Word) (m' : Machine) (own' : Word → Option (Word × List Nat)) :
    Prop where
  tree : m'.Tree own'
  kept : ∀ x, own x ≠ none → own' x = own x
  fresh : ∀ x, own x = none → own' x ≠ none → x ∈ m.head
  serves : own' g = some (r, p ++ path)
  reached : m'.tables.walk t path = some g
  above : ∀ x q, own x = some (r, q) → q.length < p.length → m'.mem x = m.mem x
  beside : ∀ j, path.head? ≠ some j → m'.mem t j = m.mem t j
  aside : ∀ x, own x = none → x ∉ m.head → m'.mem x = m.mem x
  pml4e : m'.pml4e = m.pml4e
  pdpte : m'.pdpte = m.pdpte
  lookups : ∀ s r' q path l, own s = some (r', q) → InnerPath Inner q path →
    q.length + path.length = 3 → m'.tables.lookup s path l = m.tables.lookup s path l

theorem WentDown.start (tree : m.Tree own) (serves : own t = some (r, p)) :
    WentDown m own t r p [] t m own :=
  ⟨tree, fun _ _ => rfl, fun x none some => absurd none some, by rw [List.append_nil, serves], rfl,
    fun _ _ _ _ => rfl, fun _ _ => rfl, fun _ _ _ => rfl, rfl, rfl, fun _ _ _ _ _ _ _ _ => rfl⟩

/-- The table is there: it serves the next prefix of the path. -/
theorem WentDown.there (serves : own t = some (r, p)) (here : present (m.mem t i) = true)
    (down : WentDown m own (frame (m.mem t i)) r (p ++ [i]) path g m' own') :
    WentDown m own t r p (i :: path) g m' own' := by
  have kept : m'.mem t = m.mem t := down.above t p serves (by simp)
  refine ⟨down.tree, down.kept, down.fresh, ?_, ?_, ?_, fun j _ => by rw [kept],
    down.aside, down.pml4e, down.pdpte, down.lookups⟩
  · rw [down.serves, List.append_assoc]
    rfl
  · rw [Tables.walk_cons]
    change (m'.tables.target (m'.mem t i)).bind _ = _
    rw [kept, target_some here, Option.bind_some]
    exact down.reached
  · intro x q owns short
    exact down.above x q owns (by simp; omega)

/-- The table is missing: a free frame takes its place. -/
theorem WentDown.made {m1 : Machine} (tree : m.Tree own) (serves : own t = some (r, p))
    (inner : Inner p i) (absent : present (m.mem t i) = false) (picked : Picked m own f m1)
    (down : WentDown (m1.fill t i f) (Function.update own f (some (r, p ++ [i]))) f r (p ++ [i])
      path g m' own') :
    WentDown m own t r p (i :: path) g m' own' := by
  have kept2 {x : Word} (owns : own x ≠ none) :
      Function.update own f (some (r, p ++ [i])) x = own x :=
    Function.update_of_ne (picked.ne owns) _ _
  have kept : m'.mem t = (m1.fill t i f).mem t :=
    down.above t p ((kept2 (by simp [serves])).trans serves) (by simp)
  refine ⟨down.tree, fun x owns => ?_, fun x none some => ?_, ?_, ?_, ?_, ?_, ?_,
    down.pml4e.trans picked.pml4e, down.pdpte.trans picked.pdpte, ?_⟩
  · rw [down.kept x (by rwa [kept2 owns]), kept2 owns]
  · by_cases new : x = f
    · exact new ▸ picked.member
    · exact picked.suffix.mem
        (down.fresh x ((Function.update_of_ne new _ _).trans none) some)
  · rw [down.serves, List.append_assoc]
    rfl
  · rw [Tables.walk_cons]
    change (m'.tables.target (m'.mem t i)).bind _ = _
    have leads : m'.tables.target (entry f 7) = some f := by simp [picked.aligned]
    rw [kept, fill_mem, if_pos ⟨rfl, rfl⟩, leads]
    exact down.reached
  · intro x q owns short
    rw [down.above x q ((kept2 (by simp [owns])).trans owns) (by simp; omega)]
    funext j
    -- Tables above `t` serve shorter paths, so none of them is `t`.
    refine picked.fill_away (by simp [owns]) ?_
    rintro ⟨rfl, _⟩
    rw [serves] at owns
    cases owns
    omega
  · intro j off
    rw [kept]
    exact picked.fill_away (by simp [serves]) fun both => off (congrArg some both.2.symm)
  · intro x owns out
    have new : x ≠ f := by
      rintro rfl
      exact out picked.member
    have old : x ≠ t := by
      rintro rfl
      rw [serves] at owns
      cases owns
    rw [down.aside x ((Function.update_of_ne new _ _).trans owns)
      fun member => out (picked.suffix.mem member)]
    funext j
    rw [fill_mem, if_neg fun both => old both.1, if_neg new, picked.mem]
  · intro s r' q path' l owns inside deep
    rw [down.lookups s r' q path' l ((kept2 (by simp [owns])).trans owns) inside deep]
    exact picked.fill_lookup tree serves inner absent owns inside deep

theorem Tree.descend (tree : m.Tree own) (serves : own t = some (r, p))
    (inner : InnerPath Inner p path) (ran : Machine.descend path t m = some (g, m')) :
    ∃ own', WentDown m own t r p path g m' own' := by
  induction path generalizing t p m own with
  | nil =>
    cases ran
    exact ⟨own, .start tree serves⟩
  | cons i path ih =>
    rw [descend_cons] at ran
    split at ran
    next here =>
      obtain ⟨own', down⟩ := ih tree (tree.child serves inner.1 here) inner.2 ran
      exact ⟨own', down.there serves here⟩
    next absent =>
      obtain ⟨⟨n, m2⟩, linked, ran⟩ := Option.bind_eq_some_iff.mp ran
      obtain ⟨m1, picked, rfl⟩ := tree.linkTable serves linked
      obtain ⟨own', down⟩ := ih (picked.fill serves) (Function.update_self ..) inner.2 ran
      exact ⟨own', down.made tree serves inner.1 (by simpa using absent) picked⟩

/-- Slot 511 of a task is on the way to no page of it. -/
theorem Tree.slot_translate (tree : m.Tree own) (root : own r = some (r, []))
    (root' : own r' = some (r', [])) {v : Nat} (user : UserAddress v) (e : Word) :
    (m.write r 511 e).translate r' v = m.translate r' v := by
  refine tree.lookup_write root root' (innerPath_upper user) ?_
  rintro ⟨rfl, path⟩
  have top := (List.cons_prefix_cons.mp path).1
  exact absurd user (by simp [UserAddress, ← top])

/-- Two addresses that the hardware translates alike. -/
def SamePage (v v' : Nat) : Prop := upperPath v = upperPath v' ∧ ptIndex v = ptIndex v'

section

variable {v v' : Nat} (tree : m.Tree own) (serves : own t = some (r, upperPath v))

include tree serves

/-- The page is found behind its leaf entry. -/
theorem Tree.enter_here (root : own r = some (r, [])) (inner : InnerPath Inner [] (upperPath v))
    (reached : m.tables.walk r (upperPath v) = some t) (same : SamePage v v') :
    (enter v f (t, m)).translate r v' = some (entry f 7) := by
  have walks : (enter v f (t, m)).tables.walk r (upperPath v) = some t := by
    rw [← reached]
    refine tree.walk_congr root inner fun h q j rest split owns => ?_
    refine congrFun (write_mem_of_ne m t _ _ ?_) j
    rintro rfl
    rw [serves] at owns
    cases owns
    have length := congrArg List.length split
    simp [upperPath] at length
  have new : (enter v f (t, m)).mem t (ptIndex v) = entry f 7 := by
    rw [enter, write_mem, if_pos ⟨rfl, rfl⟩]
  unfold translate Tables.lookup
  rw [← same.1, ← same.2, walks]
  change ((enter v f (t, m)).tables.target ((enter v f (t, m)).mem t (ptIndex v))).map
    (fun _ => (enter v f (t, m)).mem t (ptIndex v)) = _
  rw [new]
  simp

theorem Tree.enter_others (root' : own r' = some (r', [])) (user' : UserAddress v')
    (apart : ¬(r' = r ∧ SamePage v v')) :
    (enter v f (t, m)).translate r' v' = m.translate r' v' := by
  refine tree.lookup_write serves root' (innerPath_upper user') ?_
  rintro ⟨rfl, path⟩
  have equal := path.eq_of_length (by simp [upperPath])
  obtain ⟨upper, low⟩ := List.append_inj equal rfl
  exact apart ⟨rfl, upper, List.singleton_inj.mp low⟩

end

/-! ## What it does to a sound memory -/

/-- Every lookup in a table that was in use finds what it found before. -/
def SameLookups (m : Machine) (use : Word → Use) (m' : Machine) : Prop :=
  ∀ s r q path l, use s = .table r q → InnerPath Inner q path → q.length + path.length = 3 →
    m'.tables.lookup s path l = m.tables.lookup s path l

theorem Sound.linkTable (sound : m.Sound use) (serves : use t = .table r p)
    (ran : m.linkTable t i = some (n, m')) : ∃ m1, Taken m use n m1 ∧ m' = m1.fill t i n := by
  obtain ⟨m1, picked, filled⟩ := sound.tree.linkTable (Use.owner_eq.mpr serves) ran
  exact ⟨m1, picked.taken sound, filled⟩

/-- What a way down leaves behind: table `g` is reached from `t`, and nothing else is. -/
structure Descended (m : Machine) (use : Word → Use) (t r : Word) (p path : List Nat) (g : Word)
    (m' : Machine) (use' : Word → Use) : Prop where
  sound : m'.Sound use'
  within : Within {r} m use m' use'
  spared : ∀ x, x ∉ m.head → use' x = use x
  serves : use' g = .table r (p ++ path)
  reached : m'.tables.walk t path = some g
  above : ∀ x q, use x = .table r q → q.length < p.length → m'.mem x = m.mem x
  lookups : SameLookups m use m'

/-- The rule for what holds of the end of a way down: that every table which is made keeps it. -/
theorem Sound.descend_induct {C : Machine → (Word → Use) → Prop}
    (last : ∀ use, m'.Sound use → C m' use)
    (made : ∀ s use1 t p i f s1, s.Sound use1 → use1 t = .table r p → Inner p i →
      present (s.mem t i) = false → Taken s use1 f s1 →
      C (s1.fill t i f) (Function.update use1 f (.table r (p ++ [i]))) → C s use1)
    (sound : m.Sound use) (serves : use t = .table r p) (inner : InnerPath Inner p path)
    (ran : Machine.descend path t m = some (g, m')) : C m use := by
  induction path generalizing t p m use with
  | nil =>
    cases ran
    exact last use sound
  | cons i path ih =>
    rw [descend_cons] at ran
    split at ran
    next here =>
      have child := ((sound.entries t r p i serves inner.1.2.1 here).1 inner.1).1
      exact ih sound child inner.2 ran
    next absent =>
      obtain ⟨⟨n, m2⟩, linked, ran⟩ := Option.bind_eq_some_iff.mp ran
      obtain ⟨m1, taken, rfl⟩ := sound.linkTable serves linked
      exact made m use t p i n m1 sound serves inner.1 (by simpa using absent) taken
        (ih (taken.fill serves inner.1) (Function.update_self ..) inner.2 ran)

/-- The new tables are the only frames put to use. -/
theorem Sound.descend_uses (sound : m.Sound use) (serves : use t = .table r p)
    (inner : InnerPath Inner p path) (ran : Machine.descend path t m = some (g, m')) :
    ∃ use', m'.Sound use' ∧ Within {r} m use m' use' ∧ (∀ x, x ∉ m.head → use' x = use x) ∧
      WentDown m (fun x => (use x).owner) t r p path g m' fun x => (use' x).owner := by
  induction path generalizing t p m use with
  | nil =>
    cases ran
    exact ⟨use, sound, .refl, fun _ _ => rfl, .start sound.tree (Use.owner_eq.mpr serves)⟩
  | cons i path ih =>
    rw [descend_cons] at ran
    split at ran
    next here =>
      have child := ((sound.entries t r p i serves inner.1.2.1 here).1 inner.1).1
      obtain ⟨use', sound', within, spared, down⟩ := ih sound child inner.2 ran
      exact ⟨use', sound', within, spared, down.there (Use.owner_eq.mpr serves) here⟩
    next absent =>
      obtain ⟨⟨n, m2⟩, linked, ran⟩ := Option.bind_eq_some_iff.mp ran
      obtain ⟨m1, taken, rfl⟩ := sound.linkTable serves linked
      obtain ⟨use', sound', within, spared, down⟩ :=
        ih (taken.fill serves inner.1) (Function.update_self ..) inner.2 ran
      rw [owner_update] at down
      refine ⟨use', sound',
        (taken.fill_within serves (Set.mem_singleton r)).trans within, fun x out => ?_,
        down.made sound.tree (Use.owner_eq.mpr serves) inner.1 (by simpa using absent)
          taken.picked⟩
      rw [spared x fun member => out (taken.suffix.mem member)]
      refine Function.update_of_ne ?_ _ _
      rintro rfl
      exact out taken.member

theorem Sound.descend (sound : m.Sound use) (serves : use t = .table r p)
    (inner : InnerPath Inner p path) (ran : descend path t m = some (g, m')) :
    ∃ use', Descended m use t r p path g m' use' := by
  obtain ⟨use', sound', within, spared, down⟩ := sound.descend_uses serves inner ran
  exact ⟨use', sound', within, spared, Use.owner_eq.mp down.serves, down.reached,
    fun x q table => down.above x q (Use.owner_eq.mpr table),
    fun s r' q path' l table => down.lookups s r' q path' l (Use.owner_eq.mpr table)⟩

/-- A leaf entry for a frame that was free. -/
theorem Sound.map (sound : m.Sound use) (serves : use t = .table r p) (deep : p.length = 3)
    (spare : use f = .free) (out : f ∉ m.head) (aligned : frame f = f) :
    (m.write t l (entry f 7)).Sound (Function.update use f .data) := by
  have apart : t ≠ f := by
    rintro rfl
    rw [spare] at serves
    cases serves
  have leads : frame (entry f 7) = f := by simp [aligned]
  refine (sound.claim spare out (Or.inl rfl)).write (r := r) (p := p) ?_ ?_ ?_
  · rw [Function.update_of_ne apart, serves]
  · intro _
    refine ⟨fun inner => ?_, fun _ => ?_, fun top => ?_⟩
    · exact absurd inner.1 (by omega)
    · rw [leads, Function.update_self]
      refine ⟨rfl, entry_seven_and f 5 (by decide), Or.inl ?_⟩
      rw [entry_seven_and f 2 (by decide)]
      decide
    · rw [top] at deep
      cases deep
  · intro _ _ t' l' here _ same
    obtain ⟨⟨r', p', table, _⟩, bound, here⟩ := here
    have old : use t' = .table r' p' := by
      by_cases atF : t' = f
      · subst atF
        rw [Function.update_self] at table
        cases table
      · rwa [Function.update_of_ne atF] at table
    have used := sound.target_used old bound here
    -- Any entry that leads to `f` would make it used.
    rw [same, leads] at used
    exact absurd spare used

theorem Within.write (serves : use t = .table r p) (member : r ∈ roots) {e : Word} :
    Within roots m use (m.write t i e) use := by
  refine ⟨fun _ _ => rfl, fun x r p free table => by simp [free] at table, fun x _ other => ?_,
    List.suffix_refl _, rfl, rfl⟩
  refine write_mem_of_ne m t i e ?_
  rintro rfl
  exact other r p serves member

theorem Within.claim (spare : use f = .free) :
    Within roots m use m (Function.update use f .data) := by
  refine ⟨fun x used => ?_, fun x r p free table => ?_, fun _ _ _ => rfl, List.suffix_refl _,
    rfl, rfl⟩
  · exact Function.update_of_ne (by rintro rfl; exact used spare) _ _
  · by_cases here : x = f
    · subst here
      simp at table
    · rw [Function.update_of_ne here, free] at table
      cases table

/-- Slot 511 of a task is the kernel's. -/
theorem Sound.write_slot (sound : m.Sound use) (root : use r = .table r []) :
    (m.write r 511 (entry (m.mem m.pml4e 511) 7)).Sound use := by
  refine sound.write root (fun _ => ⟨fun top => ?_, fun deep => ?_, fun _ _ => ?_⟩)
    fun deep => ?_
  · exact absurd (top.2.2 rfl) (by decide)
  · cases deep
  · have leads : frame (entry (m.mem m.pml4e 511) 7) = frame (m.mem m.pml4e 511) := by simp
    rw [leads]
    exact sound.kernel _ 0 511 sound.root (by decide) (by decide) sound.slot
  · cases deep

/-- The page is entered behind the way down from the root, once slot 511 is the kernel's. -/
theorem Sound.initTaskPagetables_cases (sound : m.Sound use) (root : use r = .table r [])
    (user : UserAddress v) (ran : m.initTaskPagetables v f r = some m') :
    ∃ t m2 use1, (m.write r 511 (entry (m.mem m.pml4e 511) 7)).Sound use ∧
      LateOS.Machine.descend (upperPath v) r (m.write r 511 (entry (m.mem m.pml4e 511) 7)) =
        some (t, m2) ∧
      Descended (m.write r 511 (entry (m.mem m.pml4e 511) 7)) use r r [] (upperPath v) t m2 use1 ∧
      use1 r = .table r [] ∧ m' = enter v f (t, m2) := by
  rw [initTaskPagetables_eq] at ran
  obtain ⟨⟨t, m2⟩, went, rfl⟩ := Option.map_eq_some_iff.mp ran
  have first := sound.write_slot root
  obtain ⟨use1, down⟩ := first.descend root (innerPath_upper user) went
  have rootKept := (down.within.kept r (by simp [root])).trans root
  exact ⟨t, m2, use1, first, went, down, rootKept, rfl⟩

/-- The entry for the page itself stands in a leaf table, which no walk looks at. -/
theorem Descended.enter_walk {s t : Word} {q : List Nat} {m2 : Machine} {use1 : Word → Use}
    (down : Descended m use s r [] (upperPath v) t m2 use1) (root : use1 r = .table r [])
    (inside : InnerPath Inner [] q) :
    (enter v f (t, m2)).tables.walk r q = m2.tables.walk r q := by
  refine down.sound.walk_congr root inside fun h q' j rest split table => ?_
  refine congrFun (write_mem_of_ne m2 t _ _ ?_) j
  rintro rfl
  rw [down.serves] at table
  have same := (Use.table.inj table).2
  rw [List.nil_append, List.nil_append] at same
  rw [split] at inside
  have deep : q'.length < 3 := (innerPath_at inside).1
  rw [← same] at deep
  exact absurd deep (by simp [upperPath])

/-- What `initTaskPagetables` leaves behind. -/
structure Mapped (m : Machine) (use : Word → Use) (r : Word) (v : Nat) (f : Word) (m' : Machine)
    (use' : Word → Use) : Prop where
  sound : m'.Sound use'
  within : Within {r} m use m' use'
  data : use' f = .data
  here : ∀ v', SamePage v v' → m'.translate r v' = some (entry f 7)
  others : ∀ r' v', use r' = .table r' [] → UserAddress v' → ¬(r' = r ∧ SamePage v v') →
    m'.translate r' v' = m.translate r' v'

theorem Sound.initTaskPagetables (sound : m.Sound use) {v : Nat} (root : use r = .table r [])
    (user : UserAddress v) (spare : use f = .free) (out : f ∉ m.head) (aligned : frame f = f)
    (ran : m.initTaskPagetables v f r = some m') : ∃ use', Mapped m use r v f m' use' := by
  obtain ⟨t, m2, use1, _, _, down, rootKept, rfl⟩ := sound.initTaskPagetables_cases root user ran
  have inner := innerPath_upper user
  have spare1 : use1 f = .free := (down.spared f out).trans spare
  have out1 : f ∉ m2.head := fun member => out (down.within.head.mem member)
  have mapped := down.sound.map (l := ptIndex v) down.serves rfl spare1 out1 aligned
  refine ⟨Function.update use1 f .data, mapped, ?_, Function.update_self .., ?_, ?_⟩
  · have before : Within {r} m use (m.write r 511 (entry (m.mem m.pml4e 511) 7)) use :=
      .write root (Set.mem_singleton r)
    have after : Within {r} m2 use1 (enter v f (t, m2)) use1 := .write down.serves (Set.mem_singleton r)
    exact (before.trans (down.within.trans after)).trans (.claim spare1)
  · intro v' same
    exact down.sound.tree.enter_here (Use.owner_eq.mpr down.serves) (Use.owner_eq.mpr rootKept)
      inner down.reached same
  · intro r' v' table user' apart
    have table1 := (down.within.kept r' (by simp [table])).trans table
    rw [down.sound.tree.enter_others (Use.owner_eq.mpr down.serves) (Use.owner_eq.mpr table1) user'
      apart, ← sound.tree.slot_translate (Use.owner_eq.mpr root) (Use.owner_eq.mpr table) user']
    exact down.lookups r' r' [] (upperPath v') (ptIndex v') table (innerPath_upper user') rfl

end Machine

end LateOS
