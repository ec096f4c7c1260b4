import LateOS.Files.Listing
import LateOS.Files.NormalForm

/-!
# ls

The program `ls`, with `opendir` and `readdir` of the C library and the calls of the kernel behind
them: from the argument to the names on the screen.
-/
namespace LateOS

open Descriptors (derivedPath fileNameField filePath isValidDirectory)
open Lib (render resolve)

namespace LsProgram

/-- `Incorrect parameter` and a newline. -/
def incorrect : List UInt8 :=
  [73, 110, 99, 111, 114, 114, 101, 99, 116, 32, 112, 97, 114, 97, 109, 101, 116, 101, 114, 10]

/-- `openDirectory` up to `opendir`: the string in `dir`, which has 100 bytes. -/
def openDirectory (currDir : List UInt8) : Option (List UInt8) → Option (List UInt8)
  | none =>
    let dir := getCurrentDirectory currDir
    let dir := if 1 < dir.length then dir ++ [47] else dir
    if dir.length < 100 then some dir else none
  | some arg =>
    -- `dir[strlen(dir)]` is the terminator, and so never a `/`.
    if (arg ++ [47]).length < 100 then some (arg ++ [47]) else none

/-- `openDirFile`, undefined where `isfileexists` leaves one of its buffers. -/
def opendir (headers : List TarHeader) (currDir : List UInt8) (fpath : Buffer)
    (task : Descriptors) (path : List UInt8) : Option (Int × Descriptors) :=
  if path = [47] ∨ path.length < 100 ∧ (filePath currDir path).length < 100 ∧
      (derivedPath currDir fpath path).length < 99 then
    some (task.openDirFile headers (derivedPath currDir fpath) path)
  else none

/-- The loop of `printList`, by the strings that it gives to `puts`. -/
def printList (headers : List TarHeader) (fd : Int) :
    Nat → Descriptors → Option (List (List UInt8) × Descriptors)
  | 0, _ => none
  | rounds + 1, task =>
    match task.readDirTarfsFile headers fd with
    | (some name, task) =>
      (printList headers fd rounds task).map fun (puts, task) => (name :: [32] :: puts, task)
    | (none, task) => some ([[10]], task)

/-- `main`. Behind `dir` and `d`, which have 100 entries, it is undefined. -/
def main (headers : List TarHeader) (currDir : List UInt8) (fpath : Buffer) (task : Descriptors)
    (arg : Option (List UInt8)) (rounds : Nat) : Option (List (List UInt8) × Descriptors) := do
  let path ← openDirectory currDir arg
  let (fd, task) ← opendir headers currDir fpath task path
  if fd = -1 then some ([incorrect], task)
  else if 100 ≤ fd then none
  else
    let (puts, task) ← printList headers fd rounds task
    some (puts, (task.closeTarfsFile fd).2)

/-- The names, each with a space behind it, and a newline. -/
def shown (names : List (List UInt8)) : List (List UInt8) :=
  names.flatMap (fun name => [name, [32]]) ++ [[10]]

section

variable {headers members : List TarHeader} {d h : TarHeader} {fd : Int} {task : Descriptors}
  {memory : Nat → UInt8} {start stop rounds : Nat} {dir comps : List (List UInt8)} {absolute : Bool}
  {fpath : Buffer} {path fileName : List UInt8} {names other : List (List UInt8)}

/-! ## The names that are printed -/

theorem shown_injective (same : shown names = shown other) : names = other := by
  have pairs := List.append_cancel_right same
  clear same
  induction names generalizing other with
  | nil =>
    cases other with
    | nil => rfl
    | cons name other => cases pairs
  | cons name names ih =>
    cases other with
    | nil => cases pairs
    | cons name' other =>
      simp only [List.flatMap_cons, List.cons_append, List.nil_append, List.cons.injEq,
        true_and] at pairs
      rw [pairs.1, ih pairs.2]

/-- What the rounds print of what the calls store, up to the call that finds nothing. -/
def spoken : List (Option (List UInt8)) → Option (List (List UInt8))
  | [] => none
  | none :: _ => some [[10]]
  | some name :: rest => (spoken rest).map fun puts => name :: [32] :: puts

theorem printList_spoken (headers : List TarHeader) (fd : Int) (rounds : Nat)
    (task : Descriptors) : (printList headers fd rounds task).map Prod.fst =
      spoken ((listing headers fd rounds task).map Prod.snd) := by
  induction rounds generalizing task with
  | zero => rfl
  | succ rounds ih =>
    rw [printList, listing]
    obtain ⟨name, after⟩ := task.readDirTarfsFile headers fd
    cases name with
    | none => rfl
    | some name =>
      rw [Option.map_map, List.map_cons, spoken, ← ih, Option.map_map]
      rfl

theorem spoken_append (names : List (List UInt8)) (misses : Nat) :
    spoken (names.map some ++ List.replicate misses none) =
      if misses = 0 then none else some (shown names) := by
  induction names with
  | nil => cases misses <;> rfl
  | cons name names ih =>
    rw [List.map_cons, List.cons_append, spoken, ih]
    split <;> rfl

theorem spoken_served (found : List TarHeader) (rounds : Nat) :
    spoken ((served fileName found rounds).map Prod.snd) =
      if rounds ≤ found.length then none else some (shown (found.map (listedName fileName))) := by
  have stored : (served fileName found rounds).map Prod.snd =
      ((found.take rounds).map (listedName fileName)).map some ++
        List.replicate (rounds - found.length) none := by
    rw [served, List.map_append, List.map_map, List.map_map, List.map_replicate]
    rfl
  rw [stored, spoken_append]
  by_cases few : rounds ≤ found.length
  · rw [if_pos (by omega), if_pos few]
  · rw [if_neg (by omega), if_neg few, List.take_of_length_le (by omega)]

/-- A fresh descriptor is printed as the names of all matches but the first. -/
theorem printList_iff (named : (task.fd fd).fileName = fileName) (fresh : (task.fd fd).entry = 0) :
    (∃ rounds after, printList headers fd rounds task = some (names, after)) ↔
      names = shown (((headers.take 32).filter (Matches fileName)).tail.map
        (listedName fileName)) := by
  generalize found_ : ((headers.take 32).filter (Matches fileName)).tail = found
  have printed (rounds : Nat) : (printList headers fd rounds task).map Prod.fst =
      if rounds ≤ found.length then none else some (shown (found.map (listedName fileName))) := by
    rw [printList_spoken, listing_fresh rounds named fresh, found_, spoken_served]
  constructor
  · rintro ⟨rounds, after, ran⟩
    have same := printed rounds
    rw [ran] at same
    split at same
    · cases same
    · exact Option.some.inj same
  · rintro rfl
    have all := printed (found.length + 1)
    rw [if_neg (by omega)] at all
    obtain ⟨⟨puts, after⟩, ran, rfl⟩ := Option.map_eq_some_iff.mp all
    exact ⟨_, after, ran⟩

/-- Where a directory is opened, the program does what the loop does. -/
theorem main_opened {currDir : List UInt8} {arg : Option (List UInt8)} {opened : Descriptors}
    (path_ : openDirectory currDir arg = some path)
    (opens : opendir headers currDir fpath task path = some (fd, opened))
    (room : 0 ≤ fd ∧ fd < 100) :
    (∃ rounds after, main headers currDir fpath task arg rounds = some (names, after)) ↔
      ∃ rounds after, printList headers fd rounds opened = some (names, after) := by
  have ran (rounds : Nat) : main headers currDir fpath task arg rounds =
      (printList headers fd rounds opened).map fun (puts, after) =>
        (puts, (after.closeTarfsFile fd).2) := by
    rw [main, path_, Option.bind_eq_bind, Option.bind_some, opens, Option.bind_eq_bind,
      Option.bind_some]
    dsimp only
    rw [if_neg (by omega), if_neg (by omega)]
    cases printList headers fd rounds opened with
    | none => rfl
    | some printed => rfl
  simp only [ran]
  constructor
  · rintro ⟨rounds, after, closed⟩
    obtain ⟨⟨puts, left⟩, printed, same⟩ := Option.map_eq_some_iff.mp closed
    cases same
    exact ⟨rounds, left, printed⟩
  · rintro ⟨rounds, left, printed⟩
    exact ⟨rounds, _, by rw [printed, Option.map_some]⟩

theorem main_refused {currDir : List UInt8} {arg : Option (List UInt8)} {opened : Descriptors}
    (path_ : openDirectory currDir arg = some path)
    (refuses : opendir headers currDir fpath task path = some (-1, opened)) :
    main headers currDir fpath task arg rounds = some ([incorrect], opened) := by
  rw [main, path_, Option.bind_eq_bind, Option.bind_some, refuses]
  rfl

/-! ## What the directory holds -/

/-- Behind a match, everything is behind the first match. -/
theorem sublist_tail {a : TarHeader} (pre post : List TarHeader) :
    post.Sublist (pre ++ a :: post).tail := by
  cases pre with
  | nil => exact List.Sublist.refl post
  | cons b pre => exact (List.sublist_cons_self a post).trans (List.sublist_append_right pre _)

/-- In an archive of 32 members at most, what a directory holds is among what is printed. -/
theorem inside_sublist (archive : Ustar memory stop start members)
    (loaded : initTarfs memory start stop = some headers) (first : DirectoriesFirst members)
    (few : members.length ≤ 32) (member : d ∈ members) (directory : d.Directory) :
    (members.filter d.Inside).Sublist
      ((headers.take 32).filter (Matches (fileNameField d.name))).tail := by
  obtain ⟨blanks, rfl, -, -⟩ := archive.table loaded
  have ascending := archive.ascending
  obtain ⟨pre, post, split⟩ := List.append_of_mem member
  rw [split] at ascending
  have before : pre.filter d.Inside = [] := by
    rw [List.filter_eq_nil_iff]
    intro h here within
    have inside : d.Inside h := by simpa using within
    have above := (List.pairwise_append.mp ascending).2.2 h here d List.mem_cons_self
    have below := first d member h (split ▸ List.mem_append_left _ here) directory inside
    exact absurd (Nat.lt_trans above below) (Nat.lt_irrefl _)
  have itself : decide (d.Inside d) = false := decide_eq_false fun inside => inside.2 rfl
  have own : (d :: post).filter (Matches (fileNameField d.name)) =
      d :: post.filter (Matches (fileNameField d.name)) :=
    List.filter_cons_of_pos (decide_eq_true (matches_begins directory (List.prefix_refl _)))
  rw [List.take_append, List.take_of_length_le few, split, List.filter_append, List.filter_append,
    List.filter_append, before, List.filter_cons_of_neg (by simp [itself]),
    own, List.nil_append, List.append_assoc, List.cons_append]
  refine List.Sublist.trans ?_ (sublist_tail _ _)
  refine (List.monotone_filter_right post fun h within => ?_).trans (List.sublist_append_left _ _)
  exact decide_eq_true (matches_begins directory (of_decide_eq_true within).1)

/-- What is printed are the names of what the directory holds exactly if it is listable; for the
converse the members have to be within reach. -/
theorem prints_iff (archive : Ustar memory stop start members)
    (loaded : initTarfs memory start stop = some headers) (first : DirectoriesFirst members)
    (listed : d ∈ headers.take 32) (member : d ∈ members) (directory : d.Directory) :
    (Listable members headers (some d) →
      ((headers.take 32).filter (Matches (fileNameField d.name))).tail.map
          (listedName (fileNameField d.name)) =
        (contents members (some d)).map (relativeName (some d))) ∧
    (members.length ≤ 32 →
      ((headers.take 32).filter (Matches (fileNameField d.name))).tail.map
          (listedName (fileNameField d.name)) =
        (contents members (some d)).map (relativeName (some d)) →
      Listable members headers (some d)) := by
  have whole := tail_iff archive loaded first listed member directory
  constructor
  · rintro ⟨only, both⟩
    rw [whole.mpr ⟨fun h here test => only h here ((matches_iff directory).mp test),
      fun h within inside => (both h within inside).1⟩]
    refine List.map_congr_left fun h here => ?_
    obtain ⟨within, inside⟩ := List.mem_filter.mp here
    have inside : d.Inside h := by simpa using inside
    exact (listedName_iff directory inside).mpr (both h within inside).2
  · intro few same
    have lengths := congrArg List.length same
    rw [List.length_map, List.length_map] at lengths
    have all := (inside_sublist archive loaded first few member directory).eq_of_length lengths.symm
    obtain ⟨only, reach⟩ := whole.mp all.symm
    refine ⟨fun h here test => only h here ((matches_iff directory).mpr test),
      fun h within inside => ⟨reach h within inside, ?_⟩⟩
    rw [← listedName_iff directory inside]
    rw [← all] at same
    refine List.map_inj_left.mp same h (List.mem_filter.mpr ⟨within, ?_⟩)
    exact decide_eq_true inside

/-! ## The path -/

theorem pathOf_slash (absolute : Bool) (some : comps ≠ []) :
    pathOf absolute false comps ++ [47] = writtenPath absolute comps := by
  obtain ⟨init, c, rfl⟩ := (List.eq_nil_or_concat' comps).resolve_left some
  cases absolute <;> simp [pathOf, writtenPath, joined_false]

theorem writtenPath_ne (components : ∀ c ∈ comps, Name c ∨ c = up) (some : comps ≠ []) :
    writtenPath absolute comps ≠ [47] := by
  obtain ⟨c, rest, rfl⟩ := List.exists_cons_of_ne_nil some
  have long : c ≠ [] := by
    rcases components c List.mem_cons_self with name | rfl
    · exact name.some
    · decide
  intro root
  have length := congrArg List.length root
  have positive := List.length_pos_iff.mpr long
  cases absolute <;> simp [writtenPath] at length
  omega

/-- The first of the first 32 members that has the name of the directory. -/
def directoryAt (members : List TarHeader) (dir : List (List UInt8)) : Option TarHeader :=
  (members.take 32).find? fun h => h.entryName = render 47 dir

theorem isValidDirectory_find (archive : Ustar memory stop start members)
    (loaded : initTarfs memory start stop = some headers) {derive : List UInt8 → List UInt8}
    (derived : derive path = render 47 dir) (short : (render (47 : UInt8) dir).length < 99)
    (below : dir ≠ []) : isValidDirectory headers derive path = directoryAt members dir := by
  have named : render (47 : UInt8) dir ≠ [] := mt Lib.render_eq_nil.mp below
  rw [isValidDirectory_eq, derived, archive.find_named loaded named short]
  change (directoryAt members dir).filter _ = _
  cases found : directoryAt members dir with
  | none => rfl
  | some h =>
    have own : h.entryName = render 47 dir := by simpa using List.find?_some found
    have name : h.name = render 47 dir := by
      rw [TarHeader.short_entryName (by rw [own]; omega), own]
    have last := TarHeader.lastChar_eq (h := h) (name ▸ named)
    rw [name, Lib.render_getLast below, Option.some_inj] at last
    rw [Option.filter_some, if_pos (by simpa using last.symm)]

/-- The argument is the path, without a `/` behind it, or there is none and the path leads to the
current directory. -/
def Asks (dir : List (List UInt8)) (absolute : Bool) (comps : List (List UInt8))
    (arg : Option (List UInt8)) : Prop :=
  arg = some (pathOf absolute false comps) ∨ arg = none ∧ absolute = true ∧ comps = dir

theorem openDirectory_asks {arg : Option (List UInt8)} (asks : Asks dir absolute comps arg)
    (components : ∀ c ∈ comps, Name c ∨ c = up) (long : comps ≠ [])
    (short : (writtenPath absolute comps).length < 100) :
    openDirectory (47 :: render 47 dir) arg = some (writtenPath absolute comps) := by
  rcases asks with rfl | ⟨rfl, rfl, rfl⟩
  · rw [openDirectory, pathOf_slash absolute long, if_pos short]
  · have ended : (render (47 : UInt8) comps).getLast? = some 47 := Lib.render_getLast long
    have other : render (47 : UInt8) comps ≠ [47] :=
      (writtenPath_ne components long : writtenPath false comps ≠ [47])
    rw [writtenPath, if_pos rfl] at short ⊢
    generalize render (47 : UInt8) comps = shown at ended other short
    rcases shown with _ | ⟨c, _ | ⟨d, rest⟩⟩
    · cases ended
    · exact absurd (congrArg (fun c => [c]) (Option.some.inj ended)) other
    · have last : (c :: d :: rest).dropLast ++ [47] = c :: d :: rest :=
        List.dropLast_append_getLast? 47 ended
      have whole : getCurrentDirectory (47 :: c :: d :: rest) =
          47 :: (c :: d :: rest).dropLast := by
        rw [getCurrentDirectory, if_neg (by simp), List.dropLast_cons_of_ne_nil (by simp)]
      have two : 1 < (47 :: (c :: d :: rest).dropLast).length := by simp
      simp only [openDirectory, whole, if_pos two, List.cons_append, last]
      exact if_pos short

theorem opendir_asks (archive : Ustar memory stop start members)
    (loaded : initTarfs memory start stop = some headers) (names : ∀ c ∈ dir, Name c)
    (components : ∀ c ∈ comps, Name c ∨ c = up) (long : comps ≠ [])
    (below : normalForm absolute dir comps ≠ []) (fits : FitsBuffers dir absolute comps) :
    opendir headers (47 :: render 47 dir) fpath task (writtenPath absolute comps) =
      match directoryAt members (normalForm absolute dir comps) with
      | none => some (-1, task)
      | some d => some (task.setCurrentTaskVal 10 d (-1)) := by
  have inside : (filePath (47 :: render 47 dir) (writtenPath absolute comps)).length < 100 ∧
      (derivedPath (47 :: render 47 dir) fpath (writtenPath absolute comps)).length < 99 := by
    rw [filePath_written components, fits.derived names components]
    exact ⟨fits.file, fits.normal⟩
  rw [opendir, if_pos (.inr ⟨fits.path, inside⟩), Descriptors.openDirFile,
    if_neg (writtenPath_ne components long),
    isValidDirectory_find archive loaded (fits.derived names components fpath) fits.normal below]
  cases directoryAt members (normalForm absolute dir comps) with
  | none => rfl
  | some d => rfl

/-- For every argument that is a path without a `/` behind it, and without an argument: where the
path leads to a directory among the first 32 members, `ls` prints the names of what it holds, in
order, if it is listable, and in an archive of 32 members only then. Where it leads to none below
the root, `ls` says so. -/
theorem ls_iff (archive : Ustar memory stop start members)
    (loaded : initTarfs memory start stop = some headers) (first : DirectoriesFirst members)
    (names : ∀ c ∈ dir, Name c) (components : ∀ c ∈ comps, Name c ∨ c = up) (long : comps ≠ [])
    (below : normalForm absolute dir comps ≠ []) (fits : FitsBuffers dir absolute comps)
    {arg : Option (List UInt8)} (asks : Asks dir absolute comps arg)
    (room : 0 ≤ task.fdC ∧ task.fdC + 3 < 100) :
    (∀ d, directoryAt members (normalForm absolute dir comps) = some d →
      let out := shown ((contents members (some d)).map (relativeName (some d)))
      (Listable members headers (some d) → ∃ rounds after,
        main headers (47 :: render 47 dir) fpath task arg rounds = some (out, after)) ∧
      (members.length ≤ 32 → (∃ rounds after,
          main headers (47 :: render 47 dir) fpath task arg rounds = some (out, after)) →
        Listable members headers (some d))) ∧
    (¬Lists (members.take 32) (normalForm absolute dir comps) → ∀ rounds,
      main headers (47 :: render 47 dir) fpath task arg rounds = some ([incorrect], task)) := by
  have path := openDirectory_asks asks components long fits.path
  constructor
  · intro d found
    have member := List.mem_of_mem_take (List.mem_of_find?_eq_some found)
    have listed := archive.take_mem loaded (List.mem_of_find?_eq_some found)
    have own : d.entryName = render 47 (normalForm absolute dir comps) := by
      simpa using List.find?_some found
    have directory : d.Directory := by
      rw [TarHeader.Directory, own, Lib.render_getLast below]
    obtain ⟨able, unable⟩ := prints_iff archive loaded first listed member directory
    have opens : opendir headers (47 :: render 47 dir) fpath task (writtenPath absolute comps) =
        some (task.fdC + 3, (task.setCurrentTaskVal 10 d (-1)).2) := by
      rw [opendir_asks archive loaded names components long below fits, found]
      rfl
    have named : ((task.setCurrentTaskVal 10 d (-1)).2.fd (task.fdC + 3)).fileName =
        fileNameField d.name := by
      simp [Descriptors.setCurrentTaskVal]
    have fresh : ((task.setCurrentTaskVal 10 d (-1)).2.fd (task.fdC + 3)).entry = 0 := by
      simp [Descriptors.setCurrentTaskVal]
    have inside : 0 ≤ task.fdC + 3 ∧ task.fdC + 3 < 100 := by omega
    simp only [main_opened path opens inside, printList_iff named fresh]
    exact ⟨fun lists => congrArg shown (able lists).symm,
      fun few same => unable few (shown_injective same).symm⟩
  · intro none rounds
    have missing : directoryAt members (normalForm absolute dir comps) = Option.none := by
      rw [directoryAt, List.find?_eq_none]
      exact fun h here same => none ⟨h, here, by simpa using same⟩
    refine main_refused path ?_
    rw [opendir_asks archive loaded names components long below fits, missing]

theorem populated_shown :
    shown ((contents (flatMembers populated) (some populatedDirectory)).map
      (relativeName (some populatedDirectory))) = [[120], [32], [121, 122], [32], [10]] := by
  decide +kernel

theorem name_b : Name [98] := ⟨by decide, by decide, by decide, by decide⟩

/-- `ls b`. -/
theorem ls_iff_of_populated : ∃ rounds after, main (flatHeaders populated) [47] (fun _ => 0)
    closedFiles (some [98]) rounds = some ([[120], [32], [121, 122], [32], [10]], after) := by
  obtain ⟨loaded, -⟩ := flat_scanned populated (by decide)
  have found : directoryAt (flatMembers populated) (normalForm false [] [[98]]) =
      some populatedDirectory := by
    rw [directoryAt, populated_members]
    exact List.find?_cons_of_pos (by decide +kernel)
  have component : ∀ c ∈ [[98]], Name c ∨ c = up := fun c member =>
    .inl (List.mem_singleton.mp member ▸ name_b)
  have fits : FitsBuffers [] false [[98]] := ⟨by decide, by decide, by decide⟩
  have names : ∀ c ∈ ([] : List (List UInt8)), Name c := nofun
  have room : 0 ≤ closedFiles.fdC ∧ closedFiles.fdC + 3 < 100 := by decide
  obtain ⟨rounds, after, printed⟩ := ((ls_iff (flat_ustar populated) loaded populated_first names
    component (by decide) (by decide) fits (.inl rfl) room).1 populatedDirectory found).1
      populated_listable
  exact ⟨rounds, after, printed.trans (by rw [populated_shown])⟩

/-! ## A slash too many -/

theorem filePath_append (currDir more : List UInt8) (some : path ≠ []) :
    filePath currDir (path ++ more) = filePath currDir path ++ more := by
  obtain ⟨c, rest, rfl⟩ := List.exists_cons_of_ne_nil some
  unfold filePath
  rw [List.cons_append, List.head?_cons, List.head?_cons]
  split
  · rw [List.append_assoc, List.cons_append]
  · rfl

/-- A second `/` at the end of the path stays at the end of its normal form. -/
theorem derivedPath_slash (names : ∀ c ∈ dir, Name c) (components : ∀ c ∈ comps, Name c ∨ c = up)
    (some : writtenPath absolute comps ≠ [])
    (short : (writtenPath absolute comps ++ [47]).length < 100) :
    derivedPath (47 :: render 47 dir) fpath (writtenPath absolute comps ++ [47]) =
      (render 47 (normalForm absolute dir comps) ++ [47]).take 100 := by
  have base := base_names absolute names
  have both : ∀ c ∈ (if absolute then [] else dir) ++ comps, Name c ∨ c = up := by
    intro c member
    rcases List.mem_append.mp member with old | new
    · exact .inl (base c old)
    · exact components c new
  have target := resolve_normalForm absolute names comps
  have string : 0 ∉ writtenPath absolute comps ++ [47] := by
    simpa using writtenPath_string components
  have empty : Stored (render 47 [])
      (resetString (strcpy fpath (writtenPath absolute comps ++ [47])) 0) 0 := ⟨rfl, nofun⟩
  obtain ⟨absPath, pathOffset, walked, stored⟩ :=
    deriveLoop_render [47] (fun c member => absurd member List.not_mem_nil) both empty
  rw [target] at stored
  have whole : readString (strcpy fpath (writtenPath absolute comps ++ [47])) =
      writtenPath absolute comps ++ [47] := by
    rw [readString_strcpy string, List.take_of_length_le (by omega)]
  unfold derivedPath Descriptors.deriveRelative
  rw [whole, filePath_append _ _ some, filePath_written components]
  dsimp only
  rw [walked]
  refine (stored.push (x := 47)).read ?_
  have plain := render_string fun c member => (resolve_name base components c member).string
  simpa [normalForm] using plain

/-- `ls` puts a `/` behind one that is there already, and finds no directory under such a path. So
it refuses `ls /`, and each directory whose name is written with its `/`. -/
theorem ls_slash_refused (archive : Ustar memory stop start members)
    (loaded : initTarfs memory start stop = some headers) (names : ∀ c ∈ dir, Name c)
    (components : ∀ c ∈ comps, Name c ∨ c = up) (some : absolute = true ∨ comps ≠ [])
    (path : (writtenPath absolute comps).length < 99)
    (file : (render (47 : UInt8) ((if absolute then [] else dir) ++ comps)).length < 99)
    (normal : (render (47 : UInt8) (normalForm absolute dir comps)).length < 98)
    (proper : ∀ h ∈ members, h.name ≠ render 47 (normalForm absolute dir comps) ++ [47]) :
    main headers (47 :: render 47 dir) fpath task (Option.some (writtenPath absolute comps))
      rounds = Option.some ([incorrect], task) := by
  have long : writtenPath absolute comps ≠ [] := by
    rcases some with rfl | some
    · exact List.cons_ne_nil _ _
    · cases absolute with
      | true => exact List.cons_ne_nil _ _
      | false => exact mt Lib.render_eq_nil.mp some
  have short : (writtenPath absolute comps ++ [47]).length < 100 := by
    rw [List.length_append, List.length_singleton]
    omega
  have derived : derivedPath (47 :: render 47 dir) fpath (writtenPath absolute comps ++ [47]) =
      render 47 (normalForm absolute dir comps) ++ [47] := by
    rw [derivedPath_slash names components long short, List.take_of_length_le]
    rw [List.length_append, List.length_singleton]
    omega
  have other : writtenPath absolute comps ++ [47] ≠ [47] := by
    intro same
    exact long (List.append_cancel_right (same.trans (List.nil_append [47]).symm))
  have missing : isValidDirectory headers (derivedPath (47 :: render 47 dir) fpath)
      (writtenPath absolute comps ++ [47]) = none := by
    obtain ⟨blanks, rfl, -, all⟩ := archive.table loaded
    rw [isValidDirectory_eq, derived, List.find?_eq_none.mpr, Option.filter_none]
    intro h here
    rcases List.mem_append.mp (List.mem_of_mem_take here) with own | blank
    · simpa using proper h own
    · simp [(all h blank).name]
  have fits : (filePath (47 :: render 47 dir)
      (writtenPath absolute comps ++ [47])).length < 100 := by
    rw [filePath_append _ _ long, filePath_written components, List.length_append,
      List.length_singleton]
    omega
  have inside : (derivedPath (47 :: render 47 dir) fpath
      (writtenPath absolute comps ++ [47])).length < 99 := by
    rw [derived, List.length_append, List.length_singleton]
    omega
  refine main_refused (if_pos short) ?_
  rw [opendir, if_pos (.inr ⟨short, fits, inside⟩), Descriptors.openDirFile, if_neg other, missing]

/-- `ls b/`. -/
theorem ls_slash_refused_of_nested : main (flatHeaders nested) [47] (fun _ => 0) closedFiles
    (some [98, 47]) 1 = some ([incorrect], closedFiles) := by
  obtain ⟨loaded, -⟩ := flat_scanned nested (by decide)
  have component : ∀ c ∈ [[98]], Name c ∨ c = up := fun c member =>
    .inl (List.mem_singleton.mp member ▸ name_b)
  have names : ∀ c ∈ ([] : List (List UInt8)), Name c := nofun
  have proper : ∀ h ∈ flatMembers nested,
      h.name ≠ render 47 (normalForm false [] [[98]]) ++ [47] := by
    decide +kernel
  have refused : main (flatHeaders nested) (47 :: render 47 []) (fun _ => 0) closedFiles
      (some (writtenPath false [[98]])) 1 = some ([incorrect], closedFiles) :=
    ls_slash_refused (flat_ustar nested) loaded names component (.inr (by decide)) (by decide)
      (by decide) (by decide) proper
  exact refused

/-! ## The root -/

theorem listedName_root (proper : h.name.head? ≠ some 47) : listedName [47] h = h.name := by
  have none : startsWith h.name [47] = -1 := by
    cases own : h.name with
    | nil => rfl
    | cons c rest =>
      rw [own, List.head?_cons] at proper
      rw [startsWith, if_neg fun same => proper (congrArg some same)]
  rw [listedName, none]
  rfl

/-- In the root directory, `ls` prints all names of the table but the first, and with them one that
is empty for each zero block. -/
theorem ls_root (archive : Ustar memory stop start members)
    (loaded : initTarfs memory start stop = some headers)
    (proper : ∀ h ∈ members, h.name.head? ≠ some 47) (room : 0 ≤ task.fdC ∧ task.fdC + 3 < 100) :
    (∃ rounds after, main headers [47] fpath task none rounds = some (other, after)) ↔
      other = shown ((headers.take 32).tail.map TarHeader.name) := by
  have all : (headers.take 32).filter (Matches [47]) = headers.take 32 := by
    rw [List.filter_eq_self]
    intro h _
    simp [Matches]
  have own : (headers.take 32).tail.map (listedName [47]) =
      (headers.take 32).tail.map TarHeader.name := by
    refine List.map_congr_left fun h here => listedName_root ?_
    obtain ⟨blanks, rfl, -, blank⟩ := archive.table loaded
    rcases List.mem_append.mp (List.mem_of_mem_take (List.mem_of_mem_tail here)) with named | zero
    · exact proper h named
    · simp [(blank h zero).name]
  have opens : opendir headers [47] fpath task [47] = some (task.fdC + 3,
      (task.openDirFile headers (derivedPath [47] fpath) [47]).2) := if_pos (.inl rfl)
  obtain ⟨fresh, named⟩ : ((task.openDirFile headers (derivedPath [47] fpath) [47]).2.fd
      (task.fdC + 3)).entry = 0 ∧ ((task.openDirFile headers (derivedPath [47] fpath) [47]).2.fd
        (task.fdC + 3)).fileName = [47] := by
    simp [Descriptors.openDirFile]
  have inside : 0 ≤ task.fdC + 3 ∧ task.fdC + 3 < 100 := by omega
  rw [main_opened rfl opens inside, printList_iff named fresh, all, own]

/-- `b/x`, and an empty name. -/
theorem ls_root_of_nested : ∃ rounds after, main (flatHeaders nested) [47] (fun _ => 0) closedFiles
    none rounds = some ([[98, 47, 120], [32], [], [32], [10]], after) := by
  obtain ⟨loaded, -⟩ := flat_scanned nested (by decide)
  have proper : ∀ h ∈ flatMembers nested, h.name.head? ≠ some 47 := by decide +kernel
  have room : 0 ≤ closedFiles.fdC ∧ closedFiles.fdC + 3 < 100 := by decide
  have table : shown (((flatHeaders nested).take 32).tail.map TarHeader.name) =
      [[98, 47, 120], [32], [], [32], [10]] := by
    decide +kernel
  exact (ls_root (flat_ustar nested) loaded proper room).mpr table.symm

end

end LsProgram

end LateOS
