import LateOS.Files.Path
import LateOS.Process.Effect
import LateOS.Lib.Trace

/-!
# The current directory

`chdir` on the table that `init_tarfs` makes of an archive, by one call and over runs of calls and
forks.
-/
namespace LateOS

open Descriptors (filePath derivedPath isValidDirectory isfileexists checkFile)
open Lib (render resolve render_nil render_cons render_append Along)

/-- `chdir`: the value returned, and `curr_dir` after it. It is undefined when a string does not fit
its 100 bytes; behind the terminator `deriveRelative` stores one byte more. -/
def chdir (headers : List TarHeader) (currDir path : List UInt8) (fpath k : Buffer) :
    Option (Int × List UInt8) :=
  if path.length < 100 ∧ (filePath currDir path).length < 100 ∧
      (derivedPath currDir fpath path).length < 99 then
    if path = [46, 46, 47] ∧ derivedPath currDir k path = [] then some (0, [47])
    else if (isValidDirectory headers (derivedPath currDir fpath) path).isSome then
      some (0, 47 :: derivedPath currDir k path)
    else some (-1, currDir)
  else none

def getCurrentDirectory (currDir : List UInt8) : List UInt8 :=
  if currDir.length = 1 then currDir else currDir.dropLast

/-! ## Paths and their normal forms -/

/-- A path of components, each with its `/`. -/
def writtenPath (absolute : Bool) (comps : List (List UInt8)) : List UInt8 :=
  if absolute then 47 :: render 47 comps else render 47 comps

def normalForm (absolute : Bool) (dir comps : List (List UInt8)) : List (List UInt8) :=
  resolve up (if absolute then [] else dir) comps

/-- The member is the directory at `dir`. -/
def Lists (members : List TarHeader) (dir : List (List UInt8)) : Prop :=
  ∃ h ∈ members, h.entryName = render 47 dir

/-- `chdir` leads to the normal form if that is the root or a directory member, and otherwise fails
and changes nothing. -/
structure ChangesTo (members headers : List TarHeader) (dir : List (List UInt8)) (absolute : Bool)
    (comps : List (List UInt8)) (fpath k : Buffer) : Prop where
  found : normalForm absolute dir comps = [] ∨ Lists members (normalForm absolute dir comps) →
    chdir headers (47 :: render 47 dir) (writtenPath absolute comps) fpath k =
      some (0, 47 :: render 47 (normalForm absolute dir comps))
  missing : ¬(normalForm absolute dir comps = [] ∨ Lists members (normalForm absolute dir comps)) →
    chdir headers (47 :: render 47 dir) (writtenPath absolute comps) fpath k =
      some (-1, 47 :: render 47 dir)

/-- Nothing goes past the end of its buffer. -/
structure FitsBuffers (dir : List (List UInt8)) (absolute : Bool) (comps : List (List UInt8)) : Prop where
  path : (writtenPath absolute comps).length < 100
  file : (render (47 : UInt8) ((if absolute then [] else dir) ++ comps)).length < 100
  normal : (render (47 : UInt8) (normalForm absolute dir comps)).length < 99

/-- Where the root is meant, the path is `../`, or a nameless header is found behind a `/`; a
directory member is one of the first 32. -/
structure Reaches (members headers : List TarHeader) (dir : List (List UInt8)) (absolute : Bool)
    (comps : List (List UInt8)) : Prop extends FitsBuffers dir absolute comps where
  root : normalForm absolute dir comps = [] → writtenPath absolute comps = [46, 46, 47] ∨
    ∃ h ∈ (headers.take 32).find? fun h => h.name = [], h.lastChar = 47
  listed : normalForm absolute dir comps ≠ [] → Lists members (normalForm absolute dir comps) →
    Lists (members.take 32) (normalForm absolute dir comps)

/-! ## Headers -/

section

variable {bytes : Nat → UInt8} {i limit : Nat} {h : TarHeader} {headers members : List TarHeader}
  {memory : Nat → UInt8} {start stop : Nat} {derive : List UInt8 → List UInt8} {path : List UInt8}

theorem cString_char {k : Nat} (inside : k < (cString bytes i limit).length) :
    (cString bytes i limit)[k] = bytes (i + k) := by
  induction limit generalizing i k with
  | zero => exact absurd inside (Nat.not_lt_zero k)
  | succ limit ih =>
    by_cases last : bytes i = 0
    · simp [cString, last] at inside
    · have unfold_ : cString bytes i (limit + 1) = bytes i :: cString bytes (i + 1) limit := by
        rw [cString, if_neg last]
      simp only [unfold_, List.length_cons] at inside ⊢
      cases k with
      | zero => rfl
      | succ k =>
        rw [List.getElem_cons_succ, ih, Nat.add_assoc, Nat.add_comm 1 k]

/-- `lastChar` is the last character of a name that has one. -/
theorem TarHeader.lastChar_eq (some : h.name ≠ []) : h.name.getLast? = Option.some h.lastChar := by
  have long : 0 < h.name.length := List.length_pos_iff.mpr some
  rw [List.getLast?_eq_getElem?, List.getElem?_eq_getElem (by omega), Option.some_inj]
  have last : h.name[h.name.length - 1] = h.bytes (h.name.length - 1) := by
    unfold TarHeader.name
    rw [cString_char, Nat.zero_add]
  rw [last, TarHeader.bytes, TarHeader.lastChar, Nat.add_sub_assoc (Nat.one_le_of_lt long)]

/-- A name of less than 100 characters ends in its field. -/
theorem TarHeader.short_name (short : h.name.length < 100) : h.name = h.entryName := by
  have ended : h.Terminated := by
    by_contra runs
    have long := h.name_long runs
    omega
  exact ended.name

theorem TarHeader.short_entryName (short : h.entryName.length < 100) : h.name = h.entryName := by
  have ended : h.Terminated := by
    by_contra runs
    have long : 99 < h.entryName.length := by
      refine cString_long (fun k inside => ?_) (by decide)
      rw [Nat.zero_add]
      exact fun zero => runs ⟨k, by omega, zero⟩
    omega
  exact ended.name

/-- `isValidDirectory` looks at the first header of the name. -/
theorem isValidDirectory_eq : isValidDirectory headers derive path =
    ((headers.take 32).find? fun h => h.name = derive path).filter fun h => h.lastChar = 47 := by
  unfold isValidDirectory isfileexists checkFile
  rw [List.find?_eq_bind_findIdx?_getElem?]
  cases found : (headers.take 32).findIdx? fun h => h.name = derive path with
  | none => rfl
  | some fileID =>
    obtain ⟨inside, _⟩ := List.findIdx?_eq_some_iff_getElem.mp found
    rw [List.length_take] at inside
    rw [Option.bind_some, Option.bind_some, List.getElem?_take_of_lt (by omega)]

/-- A header of the table with a name that is not empty is one of a member. -/
theorem Ustar.named (archive : Ustar memory stop start members)
    (loaded : initTarfs memory start stop = some headers) (member : h ∈ headers.take 32)
    (named : h.name ≠ []) : h ∈ members.take 32 := by
  obtain ⟨blanks, rfl, _, all⟩ := archive.table loaded
  rw [List.take_append] at member
  rcases List.mem_append.mp member with own | blank
  · exact own
  · exact absurd (all h (List.mem_of_mem_take blank)).name named

theorem Ustar.take_mem (archive : Ustar memory stop start members)
    (loaded : initTarfs memory start stop = some headers) (member : h ∈ members.take 32) :
    h ∈ headers.take 32 := by
  obtain ⟨blanks, rfl, _, _⟩ := archive.table loaded
  rw [List.take_append]
  exact List.mem_append_left _ member

/-- In the table, the first header of a name that is not empty is the first member of that name. -/
theorem Ustar.find_named (archive : Ustar memory stop start members)
    (loaded : initTarfs memory start stop = some headers) {name : List UInt8} (named : name ≠ [])
    (short : name.length < 99) : ((headers.take 32).find? fun h => h.name = name) =
      (members.take 32).find? fun h => h.entryName = name := by
  obtain ⟨blanks, rfl, -, all⟩ := archive.table loaded
  have none : (blanks.take (32 - members.length)).find? (fun h => h.name = name) = none := by
    rw [List.find?_eq_none]
    intro h here
    rw [(all h (List.mem_of_mem_take here)).name]
    simpa using named
  have same (h : TarHeader) : (h.name = name) = (h.entryName = name) := by
    refine propext ⟨fun own => ?_, fun own => ?_⟩
    · rw [← TarHeader.short_name (by rw [own]; omega), own]
    · rw [TarHeader.short_entryName (by rw [own]; omega), own]
  rw [List.take_append, List.find?_append, none, Option.or_none]
  simp only [same]

end

/-! ## One call -/

section

variable {memory : Nat → UInt8} {start stop : Nat} {headers members : List TarHeader}
  {dir comps : List (List UInt8)} {absolute : Bool} {fpath k : Buffer} {path : List UInt8}

theorem writtenPath_string (components : ∀ c ∈ comps, Name c ∨ c = up) :
    0 ∉ writtenPath absolute comps := by
  have string := render_string fun c member => component_string (components c member)
  unfold writtenPath
  split
  · simpa using string
  · exact string

/-- A relative path begins with a component, and so not with a `/`. -/
theorem filePath_written (components : ∀ c ∈ comps, Name c ∨ c = up) :
    filePath (47 :: render 47 dir) (writtenPath absolute comps) =
      render 47 ((if absolute then [] else dir) ++ comps) := by
  unfold filePath writtenPath
  cases absolute with
  | true => simp
  | false =>
    have relative : (render (47 : UInt8) comps).head? ≠ some 47 := by
      cases comps with
      | nil => nofun
      | cons c rest =>
        rcases components c List.mem_cons_self with name | rfl
        · obtain ⟨x, c, rfl⟩ := List.exists_cons_of_ne_nil name.some
          intro slash
          have same : x = 47 := by simpa using slash
          exact name.apart (by simp [same])
        · simp
    simp [relative]

theorem derivedPath_written (names : ∀ c ∈ dir, Name c) (components : ∀ c ∈ comps, Name c ∨ c = up)
    (short : (writtenPath absolute comps).length < 100) (around : Buffer) :
    derivedPath (47 :: render 47 dir) around (writtenPath absolute comps) =
      (render 47 (normalForm absolute dir comps)).take 100 := by
  refine derivedPath_render (fun c member => ?_) components (filePath_written components)
    (writtenPath_string components) short
  cases absolute with
  | true => cases member
  | false => exact names c member

/-- Where a path starts from. -/
theorem base_names (absolute : Bool) (names : ∀ c ∈ dir, Name c) :
    ∀ c ∈ if absolute then [] else dir, Name c := by
  cases absolute with
  | true => nofun
  | false => exact names

theorem resolve_normalForm (absolute : Bool) (names : ∀ c ∈ dir, Name c)
    (comps : List (List UInt8)) : resolve up [] ((if absolute then [] else dir) ++ comps) =
      normalForm absolute dir comps := by
  rw [Lib.resolve_append, Lib.resolve_plain fun c member => (base_names absolute names c member).ne_up,
    List.nil_append, normalForm]

/-- A name that is not empty is found as a directory where one of the first 32 members is listed
under it. -/
theorem isValidDirectory_listed (archive : Ustar memory stop start members)
    (loaded : initTarfs memory start stop = some headers) {derive : List UInt8 → List UInt8}
    (derived : derive path = render 47 dir) (short : (render (47 : UInt8) dir).length < 99)
    (below : dir ≠ []) :
    (isValidDirectory headers derive path).isSome ↔ Lists (members.take 32) dir := by
  have named : render (47 : UInt8) dir ≠ [] := mt Lib.render_eq_nil.mp below
  rw [isValidDirectory_eq, derived]
  constructor
  · intro found
    obtain ⟨h, here⟩ := Option.isSome_iff_exists.mp found
    have first := (Option.filter_eq_some_iff.mp here).1
    have same : h.name = render 47 dir := by simpa using List.find?_some first
    refine ⟨h, archive.named loaded (List.mem_of_find?_eq_some first) (same ▸ named), ?_⟩
    rw [← TarHeader.short_name (by rw [same]; omega), same]
  · rintro ⟨g, member, same⟩
    have name : g.name = render 47 dir := by
      rw [TarHeader.short_entryName (by rw [same]; omega), same]
    have some : ((headers.take 32).find? fun h => h.name = render 47 dir).isSome := by
      rw [List.find?_isSome]
      exact ⟨g, archive.take_mem loaded member, by simpa using name⟩
    obtain ⟨h, first⟩ := Option.isSome_iff_exists.mp some
    have own : h.name = render 47 dir := by simpa using List.find?_some first
    -- The path ends with a `/`, and so does the name that was found.
    have last := TarHeader.lastChar_eq (h := h) (own ▸ named)
    rw [own, Lib.render_getLast below, Option.some_inj] at last
    rw [first, Option.filter_some, if_pos (by simpa using last.symm)]
    rfl

theorem FitsBuffers.derived (fits : FitsBuffers dir absolute comps) (names : ∀ c ∈ dir, Name c)
    (components : ∀ c ∈ comps, Name c ∨ c = up) (around : Buffer) :
    derivedPath (47 :: render 47 dir) around (writtenPath absolute comps) =
      render 47 (normalForm absolute dir comps) := by
  have short := fits.normal
  rw [derivedPath_written names components fits.path, List.take_of_length_le (by omega)]

theorem FitsBuffers.chdir (fits : FitsBuffers dir absolute comps) (names : ∀ c ∈ dir, Name c)
    (components : ∀ c ∈ comps, Name c ∨ c = up) :
    chdir headers (47 :: render 47 dir) (writtenPath absolute comps) fpath k =
      if writtenPath absolute comps = [46, 46, 47] ∧ normalForm absolute dir comps = [] then
        some (0, [47])
      else if (isValidDirectory headers (derivedPath (47 :: render 47 dir) fpath)
          (writtenPath absolute comps)).isSome then
        some (0, 47 :: render 47 (normalForm absolute dir comps))
      else some (-1, 47 :: render 47 dir) := by
  have inside : (writtenPath absolute comps).length < 100 ∧
      (filePath (47 :: render 47 dir) (writtenPath absolute comps)).length < 100 ∧
      (derivedPath (47 :: render 47 dir) fpath (writtenPath absolute comps)).length < 99 := by
    rw [filePath_written components, fits.derived names components]
    exact ⟨fits.path, fits.file, fits.normal⟩
  rw [LateOS.chdir, if_pos inside, fits.derived names components k]
  simp only [Lib.render_eq_nil]

theorem chdir_fitsBuffers (names : ∀ c ∈ dir, Name c) (components : ∀ c ∈ comps, Name c ∨ c = up)
    {answer : Int × List UInt8}
    (ran : chdir headers (47 :: render 47 dir) (writtenPath absolute comps) fpath k = some answer) :
    FitsBuffers dir absolute comps := by
  unfold chdir at ran
  split at ran
  next inside =>
    obtain ⟨path, file, normal⟩ := inside
    rw [filePath_written components] at file
    rw [derivedPath_written names components path, List.length_take] at normal
    exact ⟨path, file, by omega⟩
  next => cases ran

/-- `chdir` does what it is for on the paths that meet `Reaches`, and on no others. -/
theorem chdir_iff (archive : Ustar memory stop start members)
    (loaded : initTarfs memory start stop = some headers) (names : ∀ c ∈ dir, Name c)
    (components : ∀ c ∈ comps, Name c ∨ c = up) (fpath k : Buffer) :
    ChangesTo members headers dir absolute comps fpath k ↔
      Reaches members headers dir absolute comps := by
  constructor
  · intro changes
    have fits : FitsBuffers dir absolute comps := by
      by_cases target : normalForm absolute dir comps = [] ∨
          Lists members (normalForm absolute dir comps)
      · exact chdir_fitsBuffers names components (changes.found target)
      · exact chdir_fitsBuffers names components (changes.missing target)
    refine ⟨fits, fun root => ?_, fun below listed => ?_⟩
    · have ran := changes.found (Or.inl root)
      rw [fits.chdir names components] at ran
      by_cases special : writtenPath absolute comps = [46, 46, 47]
      · exact Or.inl special
      · right
        rw [if_neg fun both => special both.1] at ran
        by_cases valid : (isValidDirectory headers (derivedPath (47 :: render 47 dir) fpath)
            (writtenPath absolute comps)).isSome
        · obtain ⟨h, here⟩ := Option.isSome_iff_exists.mp valid
          rw [isValidDirectory_eq, fits.derived names components, root] at here
          obtain ⟨first, last⟩ := Option.filter_eq_some_iff.mp here
          exact ⟨h, first, by simpa using last⟩
        · rw [if_neg valid] at ran
          cases ran
    · have ran := changes.found (Or.inr listed)
      rw [fits.chdir names components, if_neg fun both => below both.2] at ran
      by_cases valid : (isValidDirectory headers (derivedPath (47 :: render 47 dir) fpath)
          (writtenPath absolute comps)).isSome
      · exact (isValidDirectory_listed archive loaded (fits.derived names components fpath)
          fits.normal below).mp valid
      · rw [if_neg valid] at ran
        cases ran
  · intro reaches
    have fits := reaches.toFitsBuffers
    have valid (below : normalForm absolute dir comps ≠ []) :=
      isValidDirectory_listed archive loaded (fits.derived names components fpath) fits.normal below
    constructor
    · intro target
      rw [fits.chdir names components]
      by_cases root : normalForm absolute dir comps = []
      · by_cases special : writtenPath absolute comps = [46, 46, 47]
        · rw [if_pos ⟨special, root⟩, root]
          rfl
        · obtain ⟨h, first, last⟩ := (reaches.root root).resolve_left special
          have found : (isValidDirectory headers (derivedPath (47 :: render 47 dir) fpath)
              (writtenPath absolute comps)).isSome := by
            rw [isValidDirectory_eq, fits.derived names components, root, render_nil,
              Option.mem_def.mp first, Option.filter_some, if_pos (by simpa using last)]
            rfl
          rw [if_neg fun both => special both.1, if_pos found]
      · have listed := reaches.listed root (target.resolve_left root)
        rw [if_neg fun both => root both.2, if_pos ((valid root).mpr listed)]
    · intro missing
      rw [not_or] at missing
      obtain ⟨below, none⟩ := missing
      have unlisted : ¬Lists (members.take 32) (normalForm absolute dir comps) := by
        rintro ⟨h, member, same⟩
        exact none ⟨h, List.mem_of_mem_take member, same⟩
      rw [fits.chdir names components, if_neg fun both => below both.2,
        if_neg (mt (valid below).mp unlisted)]

end

/-! ## Calls and forks -/

/-- What `curr_dir` may be: `/`, or `/` and the name of a member that ends with a `/`. -/
def CurrentDirectory (members : List TarHeader) (currDir : List UInt8) : Prop :=
  currDir = [47] ∨ ∃ h ∈ members, currDir = 47 :: h.entryName ∧ h.entryName.getLast? = some 47

/-- `getCurrentDirectory` leaves out the last `/`, but not that of the root. -/
structure Shown (currDir : List UInt8) : Prop where
  root : currDir = [47] → getCurrentDirectory currDir = [47]
  below : currDir ≠ [47] → currDir = getCurrentDirectory currDir ++ [47]

/-- The process table, and the tasks in it. -/
structure Tasks where
  taskQueue : TaskQueue
  tasks : List Int

inductive DirectoryCall where
  | chdir (path : List UInt8) (fpath k : Buffer)
  | fork (pml4e : BitVec 64)

/-- The value returned to task `i`, and the tasks after the call. -/
def Tasks.call (headers : List TarHeader) (s : Tasks) :
    Int × DirectoryCall → Option (Int × Tasks)
  | (i, .chdir path fpath k) =>
    if i ∈ s.tasks then
      (chdir headers (s.taskQueue i).currDir path fpath k).map fun (ret, currDir) =>
        (ret, { s with taskQueue :=
          Function.update s.taskQueue i { s.taskQueue i with currDir := currDir } })
    else none
  | (i, .fork pml4e) =>
    if i ∈ s.tasks then
      let child := newPID s.taskQueue
      some (child,
        { taskQueue := increaseChildCount
            (createChild s.taskQueue i pml4e (s.taskQueue i).vm) i
          tasks := child :: s.tasks })
    else none

/-- One call, of any task, with any value returned. -/
def Tasks.Step (headers : List TarHeader) (s : Tasks) (a : Int × DirectoryCall) (t : Tasks) : Prop :=
  ∃ ret, s.call headers a = some (ret, t)

/-- Each task is in a directory of the archive. -/
def Tasks.Valid (members : List TarHeader) (s : Tasks) : Prop :=
  ∀ i ∈ s.tasks, CurrentDirectory members (s.taskQueue i).currDir

/-- After a call each task is in a directory of the archive, which it is shown; a `chdir` that
returns -1 has changed nothing. -/
structure KeepsDirectories (members headers : List TarHeader) (s : Tasks) (a : Int × DirectoryCall)
    (t : Tasks) : Prop where
  valid : t.Valid members
  shown : ∀ i ∈ t.tasks, Shown (t.taskQueue i).currDir
  refused : ∀ i path fpath k, a = (i, .chdir path fpath k) →
    s.call headers a = some (-1, t) → t = s

section

variable {memory : Nat → UInt8} {start stop : Nat} {headers members : List TarHeader}
  {currDir after path : List UInt8} {fpath k : Buffer} {ret : Int} {s t : Tasks}
  {a : Int × DirectoryCall}

theorem CurrentDirectory.shown (valid : CurrentDirectory members currDir) : Shown currDir := by
  refine ⟨fun root => by rw [root]; rfl, fun below => ?_⟩
  obtain ⟨h, _, rfl, last⟩ := valid.resolve_left below
  have long : (47 :: h.entryName).length ≠ 1 := by
    cases name : h.entryName with
    | nil =>
      rw [name] at last
      cases last
    | cons c rest => simp
  obtain ⟨init, slash⟩ := List.getLast?_eq_some_iff.mp last
  rw [getCurrentDirectory, if_neg long, slash, ← List.cons_append, List.dropLast_concat]

/-- What `chdir` stores is a directory again: both times the path becomes the same string. -/
theorem CurrentDirectory.chdir (archive : Ustar memory stop start members)
    (loaded : initTarfs memory start stop = some headers)
    (valid : CurrentDirectory members currDir)
    (ran : chdir headers currDir path fpath k = some (ret, after)) :
    CurrentDirectory members after ∧ (ret = -1 → after = currDir) := by
  unfold LateOS.chdir at ran
  split at ran
  next fits =>
    obtain ⟨_, _, short⟩ := fits
    split at ran
    next =>
      cases ran
      exact ⟨Or.inl rfl, nofun⟩
    next =>
      split at ran
      next found =>
        cases ran
        refine ⟨?_, nofun⟩
        obtain ⟨h, here⟩ := Option.isSome_iff_exists.mp found
        rw [isValidDirectory_eq] at here
        obtain ⟨first, last⟩ := Option.filter_eq_some_iff.mp here
        have same : h.name = derivedPath currDir fpath path := by
          simpa using List.find?_some first
        rw [derivedPath_around currDir path k fpath, ← same]
        by_cases root : h.name = []
        · rw [root]
          exact Or.inl rfl
        · right
          have name : h.name = h.entryName := TarHeader.short_name (by rw [same]; omega)
          have member := archive.named loaded (List.mem_of_find?_eq_some first) root
          refine ⟨h, List.mem_of_mem_take member, by rw [name], ?_⟩
          rw [← name, TarHeader.lastChar_eq root, of_decide_eq_true last]
      next =>
        cases ran
        exact ⟨valid, fun _ => rfl⟩
  next => cases ran

/-- The child of a fork begins in the directory of its parent. -/
theorem Tasks.step_valid (archive : Ustar memory stop start members)
    (loaded : initTarfs memory start stop = some headers)
    (valid : s.Valid members) (step : s.Step headers a t) : t.Valid members := by
  obtain ⟨ret, ran⟩ := step
  obtain ⟨i, ⟨path, fpath, k⟩ | pml4e⟩ := a
  · rw [Tasks.call] at ran
    split at ran
    next task =>
      obtain ⟨⟨ret, after⟩, called, same⟩ := Option.map_eq_some_iff.mp ran
      cases same
      intro j member
      by_cases own : j = i
      · subst own
        dsimp only
        rw [Function.update_self]
        exact ((valid j task).chdir archive loaded called).1
      · dsimp only
        rw [Function.update_of_ne own]
        exact valid j member
    next => cases ran
  · rw [Tasks.call] at ran
    split at ran
    next task =>
      cases ran
      intro j member
      rw [increaseChildCount_currDir, createChild_currDir]
      split
      · exact valid i task
      next other => exact valid j ((List.mem_cons.mp member).resolve_left other)
    next => cases ran

theorem Tasks.refused (archive : Ustar memory stop start members)
    (loaded : initTarfs memory start stop = some headers)
    (valid : s.Valid members) {i : Int}
    (ran : s.call headers (i, .chdir path fpath k) = some (-1, t)) : t = s := by
  rw [Tasks.call] at ran
  split at ran
  next task =>
    obtain ⟨⟨ret, after⟩, called, same⟩ := Option.map_eq_some_iff.mp ran
    cases same
    rw [((valid i task).chdir archive loaded called).2 rfl]
    simp
  next => cases ran

/-- In every run of calls of `chdir` and forks that starts with all tasks in `/`, every task is in a
directory of the archive. -/
theorem directories_kept (archive : Ustar memory stop start members)
    (loaded : initTarfs memory start stop = some headers)
    (start_ : ∀ i ∈ s.tasks, (s.taskQueue i).currDir = [47])
    {run : List ((Int × DirectoryCall) × Tasks)} (along : Along (Tasks.Step headers) s run) :
    Along (KeepsDirectories members headers) s run := by
  have initial : s.Valid members := fun i member => Or.inl (start_ i member)
  have preserved : ∀ s a t, Tasks.Valid members s → Tasks.Step headers s a t →
      Tasks.Valid members t := fun s a t valid step => Tasks.step_valid archive loaded valid step
  refine (Along.invariant preserved initial along).mono fun s a t ⟨before, _, after⟩ => ?_
  refine ⟨after, fun i member => (after i member).shown, ?_⟩
  rintro i path fpath k rfl ran
  exact Tasks.refused archive loaded before ran

end

/-! ## An archive of one directory -/

/-- The directory `a/`. -/
def oneDirectory : List (List UInt8) := [[97, 47]]

theorem oneDirectory_loaded : initTarfs (flatArchive oneDirectory) 512 (flatStop oneDirectory) =
    some (flatHeaders oneDirectory) := (flat_scanned oneDirectory (by decide)).1

theorem name_a : Name [97] := ⟨by decide, by decide, by decide, by decide⟩

/-- From the root to `a/`. -/
theorem chdir_a : ChangesTo (flatMembers oneDirectory) (flatHeaders oneDirectory) [] false [[97]] (fun _ => 0)
    fun _ => 0 := by
  have root : ∀ c ∈ ([] : List (List UInt8)), Name c := nofun
  refine (chdir_iff (flat_ustar oneDirectory) oneDirectory_loaded root (fun c member => ?_) _ _).mpr
    ⟨⟨by decide, by decide, by decide⟩, fun root => ?_, fun _ _ => ?_⟩
  · rw [List.mem_singleton.mp member]
    exact Or.inl name_a
  · cases root
  · exact ⟨⟨flatArchive oneDirectory, 512⟩, List.mem_singleton.mpr rfl, by decide +kernel⟩

/-- `/` is refused, from the root itself. -/
theorem chdir_root : Ustar (flatArchive oneDirectory) (flatStop oneDirectory) 512
      (flatMembers oneDirectory) ∧
    ¬ChangesTo (flatMembers oneDirectory) (flatHeaders oneDirectory) [] true [] (fun _ => 0) fun _ => 0 := by
  have refused : chdir (flatHeaders oneDirectory) [47] [47] (fun _ => 0) (fun _ => 0) = some (-1, [47]) := by
    decide +kernel
  refine ⟨flat_ustar oneDirectory, fun changes => ?_⟩
  have found := changes.found (Or.inl rfl)
  change chdir (flatHeaders oneDirectory) [47] [47] _ _ = _ at found
  rw [refused] at found
  cases found

/-- One task, in `/`. -/
def lone : Tasks := ⟨bootQueue, [2]⟩

/-- It goes to `a/` and forks, and then its child goes back. -/
def loneRun : List ((Int × DirectoryCall) × Tasks) :=
  Lib.follow (fun s a => (s.call (flatHeaders oneDirectory) a).map Prod.snd) lone
    [(2, .chdir [97, 47] (fun _ => 0) fun _ => 0), (2, .fork 0),
      (newPID bootQueue, .chdir [46, 46, 47] (fun _ => 0) fun _ => 0)]

theorem loneRun_along : Along (Tasks.Step (flatHeaders oneDirectory)) lone loneRun := by
  refine (Lib.along_follow _ lone _).mono fun s a t stepped => ?_
  obtain ⟨⟨ret, after⟩, ran, rfl⟩ := Option.map_eq_some_iff.mp stepped
  exact ⟨ret, ran⟩

theorem directories_kept_of_lone :
    Along (KeepsDirectories (flatMembers oneDirectory) (flatHeaders oneDirectory)) lone loneRun ∧
      (loneRun.map fun (_, t) => t.tasks.map fun i => (t.taskQueue i).currDir) =
        [[[47, 97, 47]], [[47, 97, 47], [47, 97, 47]], [[47], [47, 97, 47]]] := by
  refine ⟨directories_kept (flat_ustar oneDirectory) oneDirectory_loaded ?_ loneRun_along,
    by decide +kernel⟩
  intro i member
  rw [List.mem_singleton.mp member]
  rfl

end LateOS
