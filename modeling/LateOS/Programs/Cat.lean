import LateOS.Files.NormalForm
import LateOS.Files.Listing
import LateOS.Files.Reading
import LateOS.Strings.Compare

/-!
# cat

The program `cat`, with the calls behind it, from its argument to what it writes.
-/
namespace LateOS

open Descriptors (derivedPath filePath isfileexists)
open Lib (render resolve overlay Terminated)

namespace CatProgram

/-- `Usage : cat <file nama>` and a newline. -/
def usage : List UInt8 :=
  [85, 115, 97, 103, 101, 32, 58, 32, 99, 97, 116, 32, 60, 102, 105, 108, 101, 32, 110, 97, 109, 97,
    62, 10]

/-- `File not found` and a newline. -/
def notFound : List UInt8 :=
  [70, 105, 108, 101, 32, 110, 111, 116, 32, 102, 111, 117, 110, 100, 10]

/-- `fopen`, undefined where `isfileexists` leaves one of its buffers or the task has no descriptor
left. -/
def fopen (headers : List TarHeader) (currDir : List UInt8) (fpath : Buffer) (task : Descriptors)
    (name : List UInt8) : Option (Int × Descriptors) :=
  if name.length < 100 ∧ (filePath currDir name).length < 100 ∧
      (derivedPath currDir fpath name).length < 99 ∧ task.fdC + 3 < 100 then
    some (task.openTarfsFile headers (derivedPath currDir fpath) name 0)
  else none

/-- The argument is missing where `argc` is less than 2. -/
def validateARGS (headers : List TarHeader) (currDir : List UInt8) (fpath : Buffer)
    (task : Descriptors) : Option (List UInt8) → Option (List (List UInt8) × Int × Descriptors)
  | none => some ([usage], -1, task)
  | some filename => do
    let (file, task) ← fopen headers currDir fpath task filename
    if file < 0 then some ([notFound], -1, task)
    else some ([], 1, (task.closeTarfsFile file).2)

/-- `main`, by the strings that it writes. The two calls of `isfileexists` have buffers of their
own, and `inpString` is where the program's buffer lies in its memory. -/
def main (headers : List TarHeader) (currDir : List UInt8) (fpath fpath' : Buffer) (fuel : Nat)
    (mem : Bytes) (inpString : Nat) (task : Descriptors) (arg : Option (List UInt8)) :
    Option (List (List UInt8) × Descriptors) := do
  let (said, valid, task) ← validateARGS headers currDir fpath task arg
  if valid = -1 then some (said, task)
  else
    let (file, task) ← fopen headers currDir fpath' task (arg.getD [])
    -- A read from descriptor 0 would wait for the terminal.
    if file = 0 then none
    else
      let (stored, _) ← task.readTarfsFile file 4096
      let shown ← Strings.puts fuel (overlay mem inpString (stored ++ [0])) inpString
      some ([shown], (task.closeTarfsFile file).2)

section

variable {headers members : List TarHeader} {h : TarHeader} {file : Int} {task : Descriptors}
  {memory : Nat → UInt8} {start stop fuel inpString n : Nat} {dir comps : List (List UInt8)}
  {absolute : Bool} {fpath fpath' : Buffer} {path name : List UInt8} {mem : Bytes}

/-! ## What a read leaves in the buffer -/

/-- The bytes behind the first one of the header are the name's, up to its terminator. -/
theorem puts_chunk (short : h.name.length < 512) (named : h.name ≠ [])
    (enough : h.name.length ≤ fuel) :
    Strings.puts fuel (overlay mem inpString (h.chunk n ++ [0])) inpString =
      some ((h.name.drop 1).take (min (toBinaryFile h.size) n)) := by
  have string : StringAt h.bytes 0 h.name := Strings.cString_ends short
  have positive := List.length_pos_iff.mpr named
  generalize count_ : min (toBinaryFile h.size) n = count
  have length : (h.chunk n).length = count := by rw [h.chunk_length, count_]
  have cell {k : Nat} (below : k < count) :
      overlay mem inpString (h.chunk n ++ [0]) (inpString + k) = h.bytes (1 + k) := by
    rw [Lib.overlay_inside (by rw [List.length_append, length]; omega),
      List.getElem_append_left (by omega)]
    simp [TarHeader.chunk]
  have rest : (h.name.drop 1).length = h.name.length - 1 := List.length_drop
  refine Strings.puts_eq (Terminated.of_cells (fun zero => ?_) (fun k inside => ?_) ?_) ?_
  · exact string.apart (List.mem_of_mem_drop (List.mem_of_mem_take zero))
  · rw [List.length_take, rest] at inside
    have here := string.cell (show 1 + k < h.name.length by omega)
    rw [Nat.zero_add] at here
    rw [cell (by omega), List.getElem_take, List.getElem_drop]
    exact here
  · rw [List.length_take, rest]
    -- Either the size cuts the name, or its own terminator comes first.
    by_cases cut : count ≤ h.name.length - 1
    · rw [Nat.min_eq_left cut, Lib.overlay_inside (by rw [List.length_append, length]; simp),
        List.getElem_append_right (by omega)]
      simp
    · have last := string.last
      rw [Nat.min_eq_right (by omega), cell (by omega), ← last]
      congr 1
      omega
  · rw [List.length_take, rest]
    omega

/-! ## Opening -/

/-- The first of the first 32 members that has the name. -/
def fileAt (members : List TarHeader) (name : List UInt8) : Option TarHeader :=
  (members.take 32).find? fun h => h.entryName = name

theorem isfileexists_find {derive : List UInt8 → List UInt8} :
    (isfileexists headers derive path).bind (headers[·]?) =
      (headers.take 32).find? fun h => h.name = derive path := by
  unfold isfileexists Descriptors.checkFile
  rw [List.find?_eq_bind_findIdx?_getElem?]
  cases found : (headers.take 32).findIdx? fun h => h.name = derive path with
  | none => rfl
  | some fileID =>
    obtain ⟨inside, _⟩ := List.findIdx?_eq_some_iff_getElem.mp found
    rw [List.length_take] at inside
    rw [Option.bind_some, Option.bind_some, List.getElem?_take_of_lt (by omega)]

/-- Nothing goes past the end of its buffer. -/
structure FitsPath (dir : List (List UInt8)) (absolute : Bool) (comps : List (List UInt8)) :
    Prop where
  path : (pathOf absolute false comps).length < 100
  file : (joined false ((if absolute then [] else dir) ++ comps)).length < 100
  normal : (joined false (normalForm absolute dir comps)).length < 99

theorem derivedPath_pathOf (names : ∀ c ∈ dir, Name c) (components : ∀ c ∈ comps, Name c ∨ c = up)
    (long : comps ≠ []) (fits : FitsPath dir absolute comps) (fpath : Buffer) :
    (filePath (47 :: render 47 dir) (pathOf absolute false comps)).length < 100 ∧
      derivedPath (47 :: render 47 dir) fpath (pathOf absolute false comps) =
        joined false (normalForm absolute dir comps) := by
  have both : ∀ c ∈ (if absolute then [] else dir) ++ comps, Name c ∨ c = up := by
    intro c member
    rcases List.mem_append.mp member with old | new
    · exact .inl (base_names absolute names c old)
    · exact components c new
  have string : 0 ∉ pathOf absolute false comps := by
    cases absolute with
    | true => simpa [pathOf] using joined_string components
    | false => exact joined_string components
  have file : filePath (47 :: render 47 dir) (pathOf absolute false comps) =
      joined false ((if absolute then [] else dir) ++ comps) := by
    rw [filePath_pathOf dir absolute false components, List.isEmpty_eq_false_iff.mpr long]
    rfl
  have short : (filePath (47 :: render 47 dir) (pathOf absolute false comps)).length < 100 := by
    rw [file]
    exact fits.file
  have holds : HoldsString (strcpy fpath (pathOf absolute false comps))
      (pathOf absolute false comps) := by
    refine ⟨fun k inside => ?_, ?_⟩
    · rw [strcpy_char (Nat.le_of_lt inside), List.getD_eq_getElem _ _ inside]
    · rw [strcpy_char (Nat.le_refl _), List.getD_eq_default _ _ (Nat.le_refl _)]
  refine ⟨short, ?_⟩
  unfold derivedPath
  rw [deriveRelative_normalises (fun c member => .inl (names c member)) components holds short,
    file, resolve_normalForm absolute names comps]
  simp [joined_getLast both]

theorem joined_normalForm_ne (names : ∀ c ∈ dir, Name c)
    (components : ∀ c ∈ comps, Name c ∨ c = up) (below : normalForm absolute dir comps ≠ []) :
    joined false (normalForm absolute dir comps) ≠ [] := by
  have resolved : ∀ c ∈ normalForm absolute dir comps, Name c :=
    resolve_name (base_names absolute names) components
  obtain ⟨init, c, whole⟩ := (List.eq_nil_or_concat' _).resolve_left below
  rw [whole] at resolved ⊢
  simp [joined_false, (resolved c (by simp)).some]

/-! ## From the argument to the screen -/

theorem fopen_cases (fpath : Buffer) (archive : Ustar memory stop start members)
    (loaded : initTarfs memory start stop = some headers) (names : ∀ c ∈ dir, Name c)
    (components : ∀ c ∈ comps, Name c ∨ c = up) (long : comps ≠ [])
    (below : normalForm absolute dir comps ≠ []) (fits : FitsPath dir absolute comps)
    (room : task.fdC + 3 < 100) :
    (∀ h, fileAt members (joined false (normalForm absolute dir comps)) = some h →
      h.name = joined false (normalForm absolute dir comps) ∧ ∃ after,
        fopen headers (47 :: render 47 dir) fpath task (pathOf absolute false comps) =
          some (task.fdC + 3, after) ∧ Opened after (task.fdC + 3) h ∧ after.fdC = task.fdC + 1) ∧
    (fileAt members (joined false (normalForm absolute dir comps)) = none →
      fopen headers (47 :: render 47 dir) fpath task (pathOf absolute false comps) =
        some (-1, task)) := by
  have named : joined false (normalForm absolute dir comps) ≠ [] :=
    joined_normalForm_ne names components below
  obtain ⟨short, derived⟩ := derivedPath_pathOf names components long fits fpath
  have small := fits.normal
  have normal := fits.normal
  rw [← derived] at normal
  have finds : ((headers.take 32).find? fun h =>
      h.name = joined false (normalForm absolute dir comps)) =
        fileAt members (joined false (normalForm absolute dir comps)) :=
    archive.find_named loaded named fits.normal
  rw [fopen, if_pos ⟨fits.path, short, normal, room⟩, Descriptors.openTarfsFile, isfileexists_find,
    derived, finds]
  constructor
  · intro h found
    have own : h.entryName = joined false (normalForm absolute dir comps) := by
      simpa using List.find?_some found
    rw [found]
    refine ⟨?_, _, rfl, setCurrentTaskVal_opened task 2 h 0, rfl⟩
    rw [TarHeader.short_entryName (by rw [own]; omega), own]
  · intro none
    rw [none]

/-- Behind a check that has closed its file, `main` opens it again and writes what it reads. -/
theorem main_reads {closed after : Descriptors} {count : Int} {currDir stored : List UInt8}
    (valid : validateARGS headers currDir fpath task (some name) = some ([], 1, closed))
    (opens : fopen headers currDir fpath' closed name = some (file, after)) (real : file ≠ 0)
    (read : after.readTarfsFile file 4096 = some (stored, count)) :
    main headers currDir fpath fpath' fuel mem inpString task (some name) =
      (Strings.puts fuel (overlay mem inpString (stored ++ [0])) inpString).map fun shown =>
        ([shown], (after.closeTarfsFile file).2) := by
  rw [main, valid, Option.bind_eq_bind, Option.bind_some]
  dsimp only
  rw [if_neg (by decide), Option.getD_some, opens, Option.bind_eq_bind, Option.bind_some]
  dsimp only
  rw [if_neg real, read, Option.map_eq_bind]
  rfl

/-- For every path to a file, `cat` writes nothing of what the file holds: it writes the name in the
archive without its first character, cut to what `toBinaryFile` makes of the size. Where the path
leads to no file among the first 32 members, it says so. -/
theorem cat_iff (archive : Ustar memory stop start members)
    (loaded : initTarfs memory start stop = some headers) (names : ∀ c ∈ dir, Name c)
    (components : ∀ c ∈ comps, Name c ∨ c = up) (long : comps ≠ [])
    (below : normalForm absolute dir comps ≠ []) (fits : FitsPath dir absolute comps)
    (room : 0 ≤ task.fdC ∧ task.fdC + 4 < 100) (enough : 99 ≤ fuel) :
    (∀ h, fileAt members (joined false (normalForm absolute dir comps)) = some h → ∃ after,
      main headers (47 :: render 47 dir) fpath fpath' fuel mem inpString task
        (some (pathOf absolute false comps)) =
          some ([((joined false (normalForm absolute dir comps)).drop 1).take
            (min (toBinaryFile h.size) 4096)], after)) ∧
    (fileAt members (joined false (normalForm absolute dir comps)) = none →
      main headers (47 :: render 47 dir) fpath fpath' fuel mem inpString task
        (some (pathOf absolute false comps)) = some ([notFound], task)) := by
  have opens (fpath : Buffer) (task : Descriptors) (free : task.fdC + 3 < 100) :=
    fopen_cases fpath archive loaded names components long below fits free
  obtain ⟨first, refused⟩ := opens fpath task (by omega)
  have small := fits.normal
  constructor
  · intro h found
    obtain ⟨name, once, checked, -, count⟩ := first h found
    -- The file is closed and opened once more.
    obtain ⟨closed, closes⟩ : ∃ closed, closed = (once.closeTarfsFile (task.fdC + 3)).2 :=
      ⟨_, rfl⟩
    have same : closed.fdC = task.fdC + 1 := by
      rw [closes]
      exact count
    obtain ⟨-, after, reopened, opened, -⟩ := (opens fpath' closed (by omega)).1 h found
    have valid : validateARGS headers (47 :: render 47 dir) fpath task
        (some (pathOf absolute false comps)) = some ([], 1, closed) := by
      rw [validateARGS, checked, Option.bind_eq_bind, Option.bind_some]
      dsimp only
      rw [if_neg (by omega), closes]
    have read : after.readTarfsFile (closed.fdC + 3) 4096 =
        some (h.chunk 4096, ((h.chunk 4096).length : Int)) := opened.read (by decide)
    rw [← name] at small ⊢
    have shown : Strings.puts fuel (overlay mem inpString (h.chunk 4096 ++ [0])) inpString = _ :=
      puts_chunk (by omega) (name ▸ joined_normalForm_ne names components below) (by omega)
    refine ⟨(after.closeTarfsFile (closed.fdC + 3)).2, ?_⟩
    rw [main_reads valid reopened (by omega) read, shown]
    rfl
  · intro none
    rw [main, validateARGS, refused none]
    rfl

/-- An archive at 512 with the file `abc`, in which is `h`. -/
def greeting (k : Nat) : UInt8 :=
  if k = 512 then 97 else if k = 513 then 98 else if k = 514 then 99
  else if 636 ≤ k ∧ k < 646 then 48 else if k = 646 then 49 else if k = 1024 then 104 else 0

theorem greeting_ustar : Ustar greeting 2560 512 [⟨greeting, 512⟩] := by
  have size : TarHeader.dataSize ⟨greeting, 512⟩ = 1 := by decide +kernel
  refine .member ⟨by decide +kernel, by rw [size]; decide⟩ (@Ustar.close greeting 2560 _ 1 ?_ ?_)
  · rw [TarHeader.span, size]
  · intro k above _
    rw [TarHeader.span, size] at above
    simp only [greeting]
    repeat rw [if_neg (by omega)]

/-- `cat abc`. -/
theorem cat_iff_of_greeting : ∃ headers after, initTarfs greeting 512 2560 = some headers ∧
    main headers [47] (fun _ => 0) (fun _ => 0) 99 (fun _ => 0) 0 closedFiles (some [97, 98, 99]) =
      some ([[98]], after) := by
  obtain ⟨phantom, loaded, -⟩ := greeting_ustar.scanned 200 (by decide) (by decide)
  have name : Name [97, 98, 99] := ⟨by decide, by decide, by decide, by decide⟩
  have component : ∀ c ∈ [[97, 98, 99]], Name c ∨ c = up := fun c member =>
    .inl (List.mem_singleton.mp member ▸ name)
  have names : ∀ c ∈ ([] : List (List UInt8)), Name c := nofun
  have fits : FitsPath [] false [[97, 98, 99]] := ⟨by decide, by decide, by decide⟩
  have found : fileAt [⟨greeting, 512⟩] (joined false (normalForm false [] [[97, 98, 99]])) =
      some ⟨greeting, 512⟩ :=
    List.find?_cons_of_pos (by decide +kernel)
  have size : toBinaryFile (TarHeader.size ⟨greeting, 512⟩) = 1 := by decide +kernel
  have written : ∃ after, main _ (47 :: render 47 []) (fun _ => 0) (fun _ => 0) 99 (fun _ => 0) 0
      closedFiles (some (pathOf false false [[97, 98, 99]])) = some ([_], after) :=
    (cat_iff greeting_ustar loaded names component (by decide) (by decide) fits (by decide)
      (Nat.le_refl 99)).1 _ found
  obtain ⟨after, written⟩ := written
  rw [size] at written
  exact ⟨_, after, loaded, written⟩

end

end CatProgram

end LateOS
