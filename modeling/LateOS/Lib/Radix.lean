import Mathlib.Data.List.Basic
import Mathlib.Logic.Function.Basic

/-!
# Radix trees in memory

A memory of tables, in which an entry may lead to another table. A walk follows a path of
indices from a root. `Owned` labels each table with the root and path that it serves, so
that no table can be reached in two ways; it speaks of one entry at a time, and so is easy
to keep when an entry is written.
-/
namespace LateOS.Lib

variable {F E : Type}

/-- The tables of a memory, and where its entries lead. -/
structure Tables (F E : Type) where
  mem : F → Nat → E
  target : E → Option F

namespace Tables

/-- The table that a path leads to. -/
def walk (T : Tables F E) : F → List Nat → Option F
  | f, [] => some f
  | f, i :: path => (T.target (T.mem f i)).bind fun g => walk T g path

variable (T : Tables F E)

@[simp] theorem walk_nil (f : F) : T.walk f [] = some f := rfl

theorem walk_cons (f : F) (i : Nat) (path : List Nat) :
    T.walk f (i :: path) = (T.target (T.mem f i)).bind fun g => T.walk g path := rfl

theorem walk_append (f : F) (path rest : List Nat) :
    T.walk f (path ++ rest) = (T.walk f path).bind fun g => T.walk g rest := by
  induction path generalizing f with
  | nil => rfl
  | cons j path ih =>
    rw [List.cons_append, walk_cons, walk_cons, Option.bind_assoc]
    simp only [ih]

theorem walk_concat (f : F) (path : List Nat) (i : Nat) :
    T.walk f (path ++ [i]) = (T.walk f path).bind fun g => T.target (T.mem g i) := by
  rw [walk_append]
  simp only [walk_cons, walk_nil, Option.bind_fun_some]

/-- Every table on the way along `path`, with the index that is looked up there, meets `P`. -/
def OnWalk (P : F → Nat → Prop) : F → List Nat → Prop
  | _, [] => True
  | f, i :: path => P f i ∧ ∀ g, T.target (T.mem f i) = some g → OnWalk P g path

/-- A walk only depends on the entries it looks up. -/
theorem walk_congr {T T' : Tables F E} (same : T'.target = T.target) {f : F} {path : List Nat}
    (kept : T.OnWalk (fun g i => T'.mem g i = T.mem g i) f path) :
    T'.walk f path = T.walk f path := by
  induction path generalizing f with
  | nil => rfl
  | cons i path ih =>
    rw [walk_cons, walk_cons, same, kept.1]
    cases leads : T.target (T.mem f i) with
    | none => rfl
    | some g => exact ih (kept.2 g leads)

/-- The entry at index `l` of the table that a path leads to, if it leads on. -/
def lookup (f : F) (path : List Nat) (l : Nat) : Option E :=
  (T.walk f path).bind fun g => (T.target (T.mem g l)).map fun _ => T.mem g l

theorem lookup_nil (f : F) (l : Nat) :
    T.lookup f [] l = (T.target (T.mem f l)).map fun _ => T.mem f l := rfl

theorem lookup_cons (f : F) (i : Nat) (path : List Nat) (l : Nat) :
    T.lookup f (i :: path) l = (T.target (T.mem f i)).bind fun g => T.lookup g path l := by
  unfold lookup
  rw [walk_cons]
  cases T.target (T.mem f i) <;> rfl

/-- Nothing is found behind a table without entries. -/
theorem lookup_blank {g : F} (blank : ∀ i, T.target (T.mem g i) = none) (path : List Nat)
    (l : Nat) : T.lookup g path l = none := by
  cases path with
  | nil => rw [lookup_nil, blank]; rfl
  | cons i path => rw [lookup_cons, blank]; rfl

/-- An entry that led nowhere may be made to lead to a table without entries. -/
theorem lookup_grow {T T' : Tables F E} (same : T'.target = T.target) {f : F}
    {path : List Nat} {l : Nat}
    (kept : T.OnWalk (fun g i => T'.mem g i = T.mem g i ∨ T.target (T.mem g i) = none ∧
      ∀ h, T'.target (T'.mem g i) = some h → ∀ k, T'.target (T'.mem h k) = none) f path)
    (last : ∀ g, T.walk f path = some g → T'.mem g l = T.mem g l) :
    T'.lookup f path l = T.lookup f path l := by
  induction path generalizing f with
  | nil => rw [lookup_nil, lookup_nil, same, last f rfl]
  | cons i path ih =>
    rw [lookup_cons, lookup_cons]
    -- Either the step is the old one, or it leads into a table without entries.
    rcases kept.1 with equal | ⟨dead, blank⟩
    · rw [same, equal]
      cases leads : T.target (T.mem f i) with
      | none => rfl
      | some g =>
        refine ih (kept.2 g leads) fun h reached => last h ?_
        rw [walk_cons, leads]
        exact reached
    · rw [dead]
      cases leads : T'.target (T'.mem f i) with
      | none => rfl
      | some g => exact T'.lookup_blank (blank g leads) path l

/-- Where entries that led nowhere are made to lead to `n`, and those of `n` lead nowhere, a walk
ends where it ended before, or at `n`. -/
theorem walk_grow {T T' : Tables F E} (same : T'.target = T.target) {f n g : F} {path : List Nat}
    (kept : T.OnWalk (fun g i => T'.mem g i = T.mem g i ∨ T.target (T.mem g i) = none ∧
      ∀ h, T'.target (T'.mem g i) = some h → h = n) f path)
    (blank : ∀ k, T'.target (T'.mem n k) = none) (reached : T'.walk f path = some g) :
    T.walk f path = some g ∨ g = n := by
  induction path generalizing f with
  | nil => exact Or.inl reached
  | cons i path ih =>
    rw [walk_cons] at reached ⊢
    obtain ⟨h, leads, reached⟩ := Option.bind_eq_some_iff.mp reached
    rcases kept.1 with equal | ⟨_, new⟩
    · rw [same, equal] at leads
      rw [leads]
      exact ih (kept.2 h leads) reached
    · cases new h leads
      -- The walk has come to `n`, and cannot leave it.
      cases path with
      | nil =>
        cases reached
        exact Or.inr rfl
      | cons j path =>
        rw [walk_cons, blank] at reached
        cases reached

end Tables

/-- `own` labels tables with the root and the path they serve. `Inner p i` says that entry
`i` of a table at path `p` leads to a table, and not to a leaf or out of the tree. -/
def Owned (T : Tables F E) (own : F → Option (F × List Nat)) (Inner : List Nat → Nat → Prop) :
    Prop :=
  ∀ f r p i g, own f = some (r, p) → Inner p i → T.target (T.mem f i) = some g →
    own g = some (r, p ++ [i])

/-- All steps of `path`, taken from path `p` on, stay inside the tree. -/
def InnerPath (Inner : List Nat → Nat → Prop) : List Nat → List Nat → Prop
  | _, [] => True
  | p, i :: path => Inner p i ∧ InnerPath Inner (p ++ [i]) path

namespace Owned

variable {T : Tables F E} {own : F → Option (F × List Nat)} {Inner : List Nat → Nat → Prop}
  {f g r : F} {p path : List Nat}

/-- A walk ends at the table that serves its path. -/
theorem walk (owned : Owned T own Inner) (start : own f = some (r, p))
    (inner : InnerPath Inner p path) (reached : T.walk f path = some g) :
    own g = some (r, p ++ path) := by
  induction path generalizing f p with
  | nil =>
    cases reached
    rw [List.append_nil]
    exact start
  | cons i path ih =>
    obtain ⟨h, leads, rest⟩ := Option.bind_eq_some_iff.mp reached
    -- The table behind the first step serves the path longer by one; the rest is the induction.
    have next := owned f r p i h start inner.1 leads
    have last := ih next inner.2 rest
    rwa [List.append_assoc] at last

/-- The tables on a walk serve the prefixes of its path. -/
theorem onWalk (owned : Owned T own Inner) (start : own f = some (r, p))
    (inner : InnerPath Inner p path) {P : F → Nat → Prop}
    (holds : ∀ h q j rest, path = q ++ j :: rest → own h = some (r, p ++ q) → P h j) :
    T.OnWalk P f path := by
  induction path generalizing f p with
  | nil => trivial
  | cons j path ih =>
    refine ⟨holds f [] j path rfl ?_, fun h leads => ?_⟩
    · rw [List.append_nil]
      exact start
    · refine ih (owned f r p j h start inner.1 leads) inner.2 fun h' q k rest split serves => ?_
      refine holds h' (j :: q) k rest ?_ ?_
      · rw [split]
        rfl
      · rw [serves, List.append_assoc]
        rfl

end Owned

/-! ## Trees without shared tables -/

theorem innerPath_concat {Inner : List Nat → Nat → Prop} {p path : List Nat} {i : Nat} :
    InnerPath Inner p (path ++ [i]) ↔ InnerPath Inner p path ∧ Inner (p ++ path) i := by
  induction path generalizing p with
  | nil => simp [InnerPath]
  | cons j path ih =>
    rw [List.cons_append, InnerPath, InnerPath, ih, and_assoc, List.append_assoc]
    rfl

theorem innerPath_ahead {Inner : List Nat → Nat → Prop} {p q path : List Nat}
    (inner : InnerPath Inner p path) (ahead : q <+: path) : InnerPath Inner p q := by
  induction q generalizing p path with
  | nil => trivial
  | cons j q ih =>
    obtain ⟨rest, rfl⟩ := ahead
    exact ⟨inner.1, ih inner.2 (List.prefix_append q rest)⟩

theorem innerPath_at {Inner : List Nat → Nat → Prop} {p q rest : List Nat} {j : Nat}
    (inner : InnerPath Inner p (q ++ j :: rest)) : Inner (p ++ q) j := by
  induction q generalizing p with
  | nil =>
    rw [List.append_nil]
    exact inner.1
  | cons k q ih =>
    have later := ih inner.2
    rwa [List.append_assoc] at later

/-- No table is reached from `r` on two ways. -/
def Unshared (T : Tables F E) (Inner : List Nat → Nat → Prop) (r : F) : Prop :=
  ∀ p q f, InnerPath Inner [] p → InnerPath Inner [] q → T.walk r p = some f →
    T.walk r q = some f → p = q

/-- `f` is a table of the tree at `r`. -/
def Reaches (T : Tables F E) (Inner : List Nat → Nat → Prop) (r f : F) : Prop :=
  ∃ p, InnerPath Inner [] p ∧ T.walk r p = some f

open Classical in
/-- The labels of one tree. -/
noncomputable def label (T : Tables F E) (Inner : List Nat → Nat → Prop) (r f : F) :
    Option (F × List Nat) :=
  if reached : Reaches T Inner r f then some (r, reached.choose) else none

variable {T : Tables F E} {own : F → Option (F × List Nat)} {Inner : List Nat → Nat → Prop}
  {f r : F} {p : List Nat}

theorem Owned.unshared (owned : Owned T own Inner) (root : own r = some (r, [])) :
    Unshared T Inner r := by
  intro p q f innerP innerQ reachedP reachedQ
  have first := owned.walk root innerP reachedP
  have second := owned.walk root innerQ reachedQ
  simpa using first.symm.trans second

theorem label_none : label T Inner r f = none ↔ ¬Reaches T Inner r f := by
  unfold label
  split
  next reached => simp [reached]
  next apart => simp [apart]

theorem Unshared.label_some (unshared : Unshared T Inner r) :
    label T Inner r f = some (r, p) ↔ InnerPath Inner [] p ∧ T.walk r p = some f := by
  unfold label
  split
  next reached =>
    obtain ⟨inner, walk⟩ := reached.choose_spec
    constructor
    · intro same
      cases same
      exact ⟨inner, walk⟩
    · rintro ⟨inner', walk'⟩
      rw [unshared _ _ f inner inner' walk walk']
  next apart =>
    constructor
    · intro absurd
      cases absurd
    · intro reached
      exact absurd ⟨p, reached⟩ apart

theorem label_root {r' : F} (labelled : label T Inner r f = some (r', p)) : r' = r := by
  unfold label at labelled
  split at labelled
  next => cases labelled; rfl
  next => cases labelled

/-- A tree without shared tables can be labelled. -/
theorem Unshared.owned (unshared : Unshared T Inner r) : Owned T (label T Inner r) Inner := by
  intro f r' p i g labelled inner leads
  cases label_root labelled
  obtain ⟨path, walk⟩ := unshared.label_some.mp labelled
  refine unshared.label_some.mpr ⟨innerPath_concat.mpr ⟨path, inner⟩, ?_⟩
  rw [Tables.walk_concat, walk]
  exact leads

/-! ## Writing an entry -/

section Writes

/-- A lookup stays the same when the entries on its way do. -/
theorem Owned.lookup_congr {T' : Tables F E} (owned : Owned T own Inner)
    (same : T'.target = T.target) (serves : own f = some (r, p)) {path : List Nat} {l : Nat}
    (inner : InnerPath Inner p path)
    (kept : ∀ h q j rest, path ++ [l] = q ++ j :: rest → own h = some (r, p ++ q) →
      T'.mem h j = T.mem h j) :
    T'.lookup f path l = T.lookup f path l := by
  refine Tables.lookup_grow same ?_ fun g reached => ?_
  · refine owned.onWalk serves inner fun h q j rest split owns => ?_
    refine Or.inl (kept h q j (rest ++ [l]) ?_ owns)
    rw [split, List.append_assoc]
    rfl
  · exact kept g path l [] rfl (owned.walk serves inner reached)

theorem Owned.walk_congr {T' : Tables F E} (owned : Owned T own Inner)
    (same : T'.target = T.target) (serves : own f = some (r, p)) {path : List Nat}
    (inner : InnerPath Inner p path)
    (kept : ∀ h q j rest, path = q ++ j :: rest → own h = some (r, p ++ q) →
      T'.mem h j = T.mem h j) :
    T'.walk f path = T.walk f path :=
  Tables.walk_congr same (owned.onWalk serves inner kept)

variable [DecidableEq F]

/-- Entry `i` of table `t` is overwritten. -/
def Tables.set (T : Tables F E) (t : F) (i : Nat) (e : E) : Tables F E :=
  { T with mem := Function.update T.mem t (Function.update (T.mem t) i e) }

theorem Tables.set_mem (T : Tables F E) (t x : F) (i j : Nat) (e : E) :
    (T.set t i e).mem x j = if x = t ∧ j = i then e else T.mem x j := by
  by_cases same : x = t
  · subst same
    by_cases here : j = i
    · subst here
      simp [set]
    · simp [set, here]
  · simp [set, same]

variable {t n : F} {i : Nat} {e : E}

/-- A table without a label and without entries is entered in the tree, whatever was there. -/
theorem Owned.grow (owned : Owned T own Inner) (serves : own t = some (r, p))
    (fresh : own n = none) (blank : ∀ i, T.target (T.mem n i) = none)
    (leads : T.target e = some n) :
    Owned (T.set t i e) (Function.update own n (some (r, p ++ [i]))) Inner := by
  have other : t ≠ n := by
    rintro rfl
    rw [fresh] at serves
    cases serves
  intro h r' q j g owns inside reached
  change T.target ((T.set t i e).mem h j) = some g at reached
  rw [Tables.set_mem] at reached
  by_cases new : h = n
  · rw [if_neg fun both => other (both.1.symm.trans new), new, blank] at reached
    cases reached
  rw [Function.update_of_ne new] at owns
  by_cases here : h = t ∧ j = i
  · obtain ⟨rfl, rfl⟩ := here
    rw [if_pos ⟨rfl, rfl⟩, leads] at reached
    cases reached
    rw [serves] at owns
    cases owns
    exact Function.update_self ..
  · rw [if_neg here] at reached
    have labelled := owned h r' q j g owns inside reached
    have old : g ≠ n := by
      rintro rfl
      rw [fresh] at labelled
      cases labelled
    rwa [Function.update_of_ne old]

/-- Where the entry led nowhere, no lookup finds anything new. -/
theorem Owned.grow_lookup (owned : Owned T own Inner) (serves : own t = some (r, p))
    (fresh : own n = none) (blank : ∀ i, T.target (T.mem n i) = none)
    (leads : T.target e = some n) (absent : T.target (T.mem t i) = none)
    {s r' : F} {q path : List Nat} {l : Nat} (start : own s = some (r', q))
    (inside : InnerPath Inner q path) (deep : p.length < q.length + path.length) :
    (T.set t i e).lookup s path l = T.lookup s path l := by
  have away {x : F} {j : Nat} (apart : ¬(x = t ∧ j = i)) : (T.set t i e).mem x j = T.mem x j := by
    rw [Tables.set_mem, if_neg apart]
  have other : t ≠ n := by
    rintro rfl
    rw [fresh] at serves
    cases serves
  have same : (T.set t i e).target = T.target := rfl
  refine Tables.lookup_grow same ?_ fun g reached => ?_
  · refine owned.onWalk start inside fun h q' j rest split owns => ?_
    by_cases here : h = t ∧ j = i
    -- The lookup may come by the new entry; behind it there is nothing yet.
    · obtain ⟨rfl, rfl⟩ := here
      refine Or.inr ⟨absent, fun g reached k => ?_⟩
      change T.target ((T.set h j e).mem h j) = some g at reached
      rw [Tables.set_mem, if_pos ⟨rfl, rfl⟩, leads] at reached
      cases reached
      change T.target ((T.set h j e).mem n k) = none
      rw [away fun both => other both.1.symm, blank]
    · exact Or.inl (away here)
  · have owns := owned.walk start inside reached
    apply away
    rintro ⟨rfl, rfl⟩
    rw [serves] at owns
    cases owns
    rw [List.length_append] at deep
    omega

end Writes

end LateOS.Lib
