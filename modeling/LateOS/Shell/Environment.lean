import LateOS.Lib.Splitting
import Mathlib.Data.List.Induction

/-!
# The environment

`pushenvs`, `setenv` and `getenv` on the strings of `env_var`, and the values that the calls have
set. `setenv` keeps the store right; `getenv` does not look for its name.
-/
namespace LateOS.Environment

/-- `getvar`: the name in front of the `=`, in the 100 characters of `envBuffer`. Without a `=` it
runs past the string. -/
def getvar (name : List UInt8) : Option (List UInt8) :=
  if 61 ∈ name ∧ (name.takeWhile (· ≠ 61)).length < 100 then some (name.takeWhile (· ≠ 61))
  else none

/-- `getenv`, with NULL as the inner `none`. It returns in its first round, and what it returns
begins at the `=`. -/
def getenv (envVar : List (List UInt8)) (_name : List UInt8) : Option (Option (List UInt8)) :=
  match envVar with
  | [] => some none
  | var :: _ => (getvar var).map fun envBuffer => some (var.drop envBuffer.length)

/-- `setenv`, which has no use for `overwrite`. An entry has 1000 characters. -/
def setenv : List (List UInt8) → (name value : List UInt8) → (overwrite : Int) →
    Option (Int × List (List UInt8))
  | [], _, _, _ => some (0, [])
  | var :: envVar, name, value, overwrite =>
    (getvar var).bind fun envBuffer =>
      if name = envBuffer then
        if envBuffer.length + 1 + value.length < 1000 then
          some (1, (var.take (envBuffer.length + 1) ++ value) :: envVar)
        else none
      else (setenv envVar name value overwrite).map fun (returned, envVar) =>
        (returned, var :: envVar)

/-- `pushenvs` into 1000 entries of 1000 characters. -/
def pushenvs (envp : List (List UInt8)) : Option (List (List UInt8)) :=
  if envp.length ≤ 1000 ∧ ∀ str ∈ envp, str.length < 1000 then some envp else none

/-! ## Names and values -/

/-- A name and its value, which make an entry with `=` between them. -/
structure Entry where
  name : List UInt8
  value : List UInt8
  plain : 61 ∉ name
  short : name.length < 100
  fits : name.length + 1 + value.length < 1000
  string : 0 ∉ name ++ value

def Entry.text (e : Entry) : List UInt8 := e.name ++ 61 :: e.value

/-- An environment vector, in which no name occurs twice. -/
structure EnvVector where
  entries : List Entry
  distinct : (entries.map Entry.name).Nodup

/-- A call of `setenv`: the name and the value, and `overwrite`. -/
abbrev Call := Entry × Int

/-- The store after the vector has been loaded and some calls have been made. -/
def store (vector : EnvVector) (calls : List Call) : Option (List (List UInt8)) :=
  (pushenvs (vector.entries.map Entry.text)).bind fun envVar =>
    calls.foldlM (fun envVar (e, overwrite) =>
      (setenv envVar e.name e.value overwrite).map Prod.snd) envVar

/-- The value of the first entry with a name. -/
def valueOf (entries : List Entry) (name : List UInt8) : Option (List UInt8) :=
  (entries.find? (·.name = name)).map Entry.value

/-- For a name of the vector, the value last set for it, or its initial value. -/
def lastValue (vector : EnvVector) (calls : List Call) (name : List UInt8) : Option (List UInt8) :=
  (valueOf vector.entries name).map fun initial =>
    (valueOf (calls.map Prod.fst).reverse name).getD initial

/-- A call says whether the name exists, and leaves the entries of other names alone. -/
structure Sets (envVar : List (List UInt8)) (e : Entry) (returned : Int)
    (after : List (List UInt8)) : Prop where
  returned : returned = 1 ↔ ∃ value, e.name ++ 61 :: value ∈ envVar
  others : ∀ name value, 61 ∉ name → name ≠ e.name →
    (name ++ 61 :: value ∈ after ↔ name ++ 61 :: value ∈ envVar)

/-- Each call of `setenv` is as it should be, and after them `getenv` finds the value of the
name. -/
structure Law (vector : EnvVector) (calls : List Call) (name : List UInt8) : Prop where
  get : ∃ envVar, store vector calls = some envVar ∧
    getenv envVar name = some (lastValue vector calls name)
  set : ∀ before call, before ++ [call] <+: calls → ∃ envVar returned after,
    store vector before = some envVar ∧
      setenv envVar call.1.name call.1.value call.2 = some (returned, after) ∧
      Sets envVar call.1 returned after

/-- The vector has no entries, or the value of the name is that of the first entry with a `=` in
front of it. -/
structure Found (vector : EnvVector) (calls : List Call) (name : List UInt8) : Prop where
  count : vector.entries.length ≤ 1000
  value : vector.entries = [] ∨ ∃ first rest value, vector.entries = first :: rest ∧
    lastValue vector calls first.name = some value ∧
    lastValue vector calls name = some (61 :: value)

section

variable {e c : Entry} {entries : List Entry} {vector : EnvVector} {calls : List Call} {call : Call}
  {name value : List UInt8} {overwrite : Int}

/-! ### Entries -/

theorem Entry.takeWhile_text (e : Entry) : e.text.takeWhile (· ≠ 61) = e.name :=
  Lib.takeWhile_before e.value e.plain

@[simp] theorem getvar_text (e : Entry) : getvar e.text = some e.name := by
  rw [getvar, e.takeWhile_text, if_pos ⟨by simp [Entry.text], e.short⟩]

theorem Entry.drop_text (e : Entry) : e.text.drop e.name.length = 61 :: e.value :=
  List.drop_left

theorem getenv_texts (entries : List Entry) (name : List UInt8) :
    getenv (entries.map Entry.text) name = some (entries.head?.map fun e => 61 :: e.value) := by
  cases entries with
  | nil => rfl
  | cons e rest => rw [List.map_cons, getenv, getvar_text, Option.map_some, e.drop_text]; rfl

/-- The entry of the name gets the value. -/
def set (entries : List Entry) (c : Entry) : List Entry :=
  entries.map fun e => if e.name = c.name then c else e

theorem set_names (entries : List Entry) (c : Entry) :
    (set entries c).map Entry.name = entries.map Entry.name := by
  unfold set
  rw [List.map_map]
  refine List.map_congr_left fun e _ => ?_
  rw [Function.comp_apply]
  split
  next same => exact same.symm
  next => rfl

theorem set_absent (absent : c.name ∉ entries.map Entry.name) : set entries c = entries := by
  unfold set
  conv_rhs => rw [← List.map_id entries]
  refine List.map_congr_left fun e member => if_neg fun same => absent ?_
  exact List.mem_map.mpr ⟨e, member, same⟩

/-- `setenv` sets the entry of its name, if there is one. -/
theorem setenv_texts (distinct : (entries.map Entry.name).Nodup) :
    setenv (entries.map Entry.text) c.name c.value overwrite =
      some (if c.name ∈ entries.map Entry.name then 1 else 0, (set entries c).map Entry.text) := by
  induction entries with
  | nil => rfl
  | cons e rest ih =>
    rw [List.map_cons, List.nodup_cons] at distinct
    rw [List.map_cons, setenv, getvar_text, Option.bind_some]
    by_cases same : c.name = e.name
    · -- The value is stored behind the name and its `=`.
      have fits := c.fits
      have front : e.text.take (e.name.length + 1) = e.name ++ [61] := by
        rw [Entry.text, List.take_length_add_append]
        rfl
      have entry : e.text.take (e.name.length + 1) ++ c.value = c.text := by
        rw [front, ← same, Entry.text]
        simp
      have others : set (e :: rest) c = c :: rest := by
        have absent : c.name ∉ rest.map Entry.name := same ▸ distinct.1
        rw [set, List.map_cons, if_pos same.symm]
        exact congrArg _ (set_absent absent)
      rw [if_pos same, ← same, if_pos fits, same, entry, others]
      simp
    · rw [if_neg same, ih distinct.2]
      simp [set, same, Ne.symm same]

theorem text_eq (apart : 61 ∉ name) : name ++ 61 :: value = e.text ↔
    name = e.name ∧ value = e.value := by
  constructor
  · intro same
    have front := congrArg (List.takeWhile (· ≠ 61)) same
    rw [Lib.takeWhile_before value apart, e.takeWhile_text] at front
    subst front
    rw [Entry.text, List.append_cancel_left_eq, List.cons.injEq] at same
    exact ⟨rfl, same.2⟩
  · rintro ⟨rfl, rfl⟩
    rfl

theorem text_mem (apart : 61 ∉ name) : name ++ 61 :: value ∈ entries.map Entry.text ↔
    ∃ e ∈ entries, e.name = name ∧ e.value = value := by
  rw [List.mem_map]
  constructor
  · rintro ⟨e, member, same⟩
    obtain ⟨rfl, rfl⟩ := (text_eq apart).mp same.symm
    exact ⟨e, member, rfl, rfl⟩
  · rintro ⟨e, member, rfl, rfl⟩
    exact ⟨e, member, rfl⟩

theorem sets_texts (entries : List Entry) (c : Entry) :
    Sets (entries.map Entry.text) c (if c.name ∈ entries.map Entry.name then 1 else 0)
      ((set entries c).map Entry.text) := by
  constructor
  · have exists_ : c.name ∈ entries.map Entry.name ↔
        ∃ value, c.name ++ 61 :: value ∈ entries.map Entry.text := by
      simp only [text_mem c.plain, List.mem_map]
      constructor
      · rintro ⟨e, member, same⟩
        exact ⟨e.value, e, member, same, rfl⟩
      · rintro ⟨value, e, member, same, _⟩
        exact ⟨e, member, same⟩
    rw [← exists_]
    split <;> simp_all
  · intro name value apart other
    rw [text_mem apart, text_mem apart]
    constructor
    · rintro ⟨e', member, rfl, rfl⟩
      obtain ⟨e, here, same⟩ := List.mem_map.mp member
      split at same
      next => exact absurd (congrArg Entry.name same).symm other
      next => exact ⟨e, here, by rw [same], by rw [same]⟩
    · rintro ⟨e, member, rfl, rfl⟩
      exact ⟨e, List.mem_map.mpr ⟨e, member, if_neg other⟩, rfl, rfl⟩

/-! ### Runs -/

/-- The entries after some calls. -/
def after (vector : EnvVector) (calls : List Call) : List Entry :=
  (calls.map Prod.fst).foldl set vector.entries

theorem after_concat : after vector (calls ++ [call]) = set (after vector calls) call.1 := by
  simp [after]

theorem after_names (vector : EnvVector) (calls : List Call) :
    (after vector calls).map Entry.name = vector.entries.map Entry.name := by
  induction calls using List.reverseRecOn with
  | nil => rfl
  | append_singleton calls call ih => rw [after_concat, set_names, ih]

theorem after_distinct (vector : EnvVector) (calls : List Call) :
    ((after vector calls).map Entry.name).Nodup := by
  rw [after_names]
  exact vector.distinct

theorem store_concat : store vector (calls ++ [call]) = (store vector calls).bind fun envVar =>
    (setenv envVar call.1.name call.1.value call.2).map Prod.snd := by
  unfold store
  cases pushenvs (vector.entries.map Entry.text) with
  | none => rfl
  | some envVar => simp [List.foldlM_append]

/-- The store holds the entries. -/
theorem store_eq (count : vector.entries.length ≤ 1000) (calls : List Call) :
    store vector calls = some ((after vector calls).map Entry.text) := by
  induction calls using List.reverseRecOn with
  | nil =>
    rw [store, pushenvs, if_pos]
    · rfl
    · refine ⟨by simpa using count, fun str member => ?_⟩
      obtain ⟨e, _, rfl⟩ := List.mem_map.mp member
      have fits := e.fits
      simp [Entry.text]
      omega
  | append_singleton calls call ih =>
    rw [store_concat, ih, Option.bind_some, setenv_texts (after_distinct vector calls),
      Option.map_some, after_concat]

theorem store_crowded (crowded : ¬vector.entries.length ≤ 1000) (calls : List Call) :
    store vector calls = none := by
  rw [store, pushenvs, if_neg fun both => crowded (by simpa using both.1)]
  rfl

theorem valueOf_cons (e : Entry) (entries : List Entry) (name : List UInt8) :
    valueOf (e :: entries) name = if e.name = name then some e.value else valueOf entries name := by
  unfold valueOf
  by_cases same : e.name = name <;> simp [same]

/-- The value that has been set is found, and those of other names are as before. -/
theorem valueOf_set (entries : List Entry) (c : Entry) (name : List UInt8) :
    valueOf (set entries c) name = if c.name = name then (valueOf entries name).map fun _ => c.value
      else valueOf entries name := by
  induction entries with
  | nil => simp [set, valueOf]
  | cons e rest ih =>
    rw [set, List.map_cons, valueOf_cons, valueOf_cons]
    rw [set] at ih
    rw [ih]
    by_cases here : e.name = c.name
    · rw [if_pos here, here]
      by_cases same : c.name = name <;> simp [same]
    · rw [if_neg here]
      by_cases same : c.name = name
      · subst same
        simp [here]
      · simp [same]

/-- The entries hold the values last set. -/
theorem valueOf_after (vector : EnvVector) (calls : List Call) (name : List UInt8) :
    valueOf (after vector calls) name = lastValue vector calls name := by
  induction calls using List.reverseRecOn with
  | nil =>
    change valueOf vector.entries name = (valueOf vector.entries name).map fun initial => initial
    rw [Option.map_id']
  | append_singleton calls call ih =>
    rw [after_concat, valueOf_set, ih, lastValue, lastValue, List.map_append, List.reverse_append,
      List.map_singleton, List.reverse_singleton, List.singleton_append, valueOf_cons]
    by_cases same : call.1.name = name
    · rw [if_pos same, if_pos same, Option.map_map]
      rfl
    · rw [if_neg same, if_neg same]

/-- What `getenv` returns is what the first entry has from its `=` on. -/
theorem getenv_after {first : Entry} {rest : List Entry} (calls : List Call)
    (entries : vector.entries = first :: rest) (name : List UInt8) :
    ∃ value, lastValue vector calls first.name = some value ∧
      getenv ((after vector calls).map Entry.text) name = some (some (61 :: value)) := by
  have names := after_names vector calls
  rw [entries, List.map_cons] at names
  obtain ⟨e, others, same, here, _⟩ := List.map_eq_cons_iff.mp names
  refine ⟨e.value, ?_, ?_⟩
  · rw [← valueOf_after, same, valueOf_cons, if_pos here]
  · rw [getenv_texts, same]
    rfl

/-- What `setenv` does is right for every vector that fits, whatever is asked of `getenv`. -/
theorem setenv_right (count : vector.entries.length ≤ 1000) (calls : List Call) (c : Entry)
    (overwrite : Int) :
    ∃ envVar returned after, store vector calls = some envVar ∧
      setenv envVar c.name c.value overwrite = some (returned, after) ∧
      Sets envVar c returned after :=
  ⟨_, _, _, store_eq count calls, setenv_texts (after_distinct vector calls),
    sets_texts (Environment.after vector calls) c⟩

/-- The store is as it should be for the vectors and names that meet `Found`, and no others. -/
theorem law_iff (vector : EnvVector) (calls : List Call) (name : List UInt8) :
    Law vector calls name ↔ Found vector calls name := by
  by_cases count : vector.entries.length ≤ 1000
  · have stored := store_eq count
    constructor
    · rintro ⟨⟨envVar, ran, got⟩, _⟩
      rw [stored, Option.some_inj] at ran
      rw [← ran] at got
      refine ⟨count, ?_⟩
      cases entries : vector.entries with
      | nil => exact Or.inl rfl
      | cons first rest =>
        -- Whatever the name is, it is the first entry that is found.
        obtain ⟨value, last, found⟩ := getenv_after calls entries name
        rw [found, Option.some_inj] at got
        exact Or.inr ⟨first, rest, value, rfl, last, got.symm⟩
    · intro found
      refine ⟨⟨_, stored calls, ?_⟩, fun before call initial => ?_⟩
      · rcases found.value with none | ⟨first, rest, value, entries, last, same⟩
        · have names := after_names vector calls
          rw [none, List.map_nil, List.map_eq_nil_iff] at names
          rw [← valueOf_after, names]
          rfl
        · obtain ⟨value', last', got⟩ := getenv_after calls entries name
          rw [last, Option.some_inj] at last'
          rw [got, same, last']
      · exact setenv_right count before call.1 call.2
  · have crowded := store_crowded count calls
    constructor
    · rintro ⟨⟨envVar, stored, _⟩, _⟩
      rw [crowded] at stored
      cases stored
    · intro found
      exact absurd found.count count

end

/-! ### Two entries -/

/-- `PATH=/bin` and `HOME=/`. -/
def pathAndHome : EnvVector where
  entries := [⟨[80, 65, 84, 72], [47, 98, 105, 110], by decide, by decide, by decide, by decide⟩,
    ⟨[72, 79, 77, 69], [47], by decide, by decide, by decide, by decide⟩]
  distinct := by decide

/-- For `HOME` the result is `=/bin`, and so it is for `PATH`. -/
theorem pathAndHome_wrong : (store pathAndHome []).bind (getenv · [72, 79, 77, 69]) =
      some (some [61, 47, 98, 105, 110]) ∧
    lastValue pathAndHome [] [72, 79, 77, 69] = some [47] ∧
    ¬Law pathAndHome [] [72, 79, 77, 69] := by
  have wrong : (store pathAndHome []).bind (getenv · [72, 79, 77, 69]) ≠
      some (lastValue pathAndHome [] [72, 79, 77, 69]) := by
    decide +kernel
  refine ⟨by decide +kernel, by decide +kernel, fun law => ?_⟩
  obtain ⟨envVar, stored, got⟩ := law.get
  rw [stored] at wrong
  exact wrong got

end LateOS.Environment
