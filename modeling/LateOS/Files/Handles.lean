import LateOS.Files.Reading
import LateOS.Lib.Trace
import LateOS.Process.Task

/-!
# Descriptors over the life of a slot

The calls of all processes on their descriptors. `fd_c` only counts up, for the slot and not for
the process.
-/
namespace LateOS

open Lib

/-- The calls on files; a path comes with what `deriveRelative` makes of it. -/
inductive FileCall where
  | openDir (path derived : List UInt8)
  | openFile (path derived : List UInt8) (flags : Int)
  | read (fd count : Int)
  | readDir (fd : Int)
  | close (fd : Int)

/-- A slot of `taskQueue`, with the descriptors that its process holds and how many the slot has
ever handed out. -/
structure FileSlot where
  state : TaskState
  files : Descriptors
  held : List Int
  opened : Nat

inductive FileEvent where
  | call (i : Int) (c : FileCall)
  | spawn
  | exit (i : Int)
  | reap (i : Int)

section

variable (headers : List TarHeader)

namespace FileCall

/-- An open: what it returns, and the descriptors behind it. -/
def opens (files : Descriptors) : FileCall → Option (Int × Descriptors)
  | .openDir path derived => some (files.openDirFile headers (fun _ => derived) path)
  | .openFile path derived flags => some (files.openTarfsFile headers (fun _ => derived) path flags)
  | _ => none

/-- A new descriptor. -/
def returned (files : Descriptors) (c : FileCall) : Option Int :=
  (c.opens headers files).bind fun result => if result.1 = -1 then none else some result.1

/-- The index at which the call uses the array `fd`. -/
def index (files : Descriptors) (c : FileCall) : Option Int :=
  match c with
  | .read fd _ | .readDir fd | .close fd => some fd
  | _ => (c.returned headers files).map fun _ => files.fdC + 3

end FileCall

namespace FileSlot

variable (slot : FileSlot)

/-- What an open returns is held from then on. A process that has 97 descriptors open opens no
other. -/
def take (result : Int × Descriptors) : Option FileSlot :=
  if result.1 = -1 then some { slot with files := result.2 }
  else if slot.held.length < 97 then
    some { slot with
      files := result.2, held := result.1 :: slot.held, opened := slot.opened + 1 }
  else none

/-- The process in the slot makes a call, and uses only what it holds. -/
def call : FileCall → Option FileSlot
  | .openDir path derived =>
    slot.take (slot.files.openDirFile headers (fun _ => derived) path)
  | .openFile path derived flags =>
    slot.take (slot.files.openTarfsFile headers (fun _ => derived) path flags)
  | .read fd _ => if fd ∈ slot.held then some slot else none
  | .readDir fd =>
    if fd ∈ slot.held then some { slot with files := (slot.files.readDirTarfsFile headers fd).2 }
    else none
  | .close fd =>
    if fd ∈ slot.held then
      some { slot with files := (slot.files.closeTarfsFile fd).2, held := slot.held.erase fd }
    else none

end FileSlot

/-- The slots, with what the processes do in them. -/
def fileStep (s : Int → FileSlot) : FileEvent → Option (Int → FileSlot)
  | .call i c =>
    if (s i).state = .ready ∨ (s i).state = .zombie then none
    else ((s i).call headers c).map (Function.update s i)
  | .spawn =>
    -- A new process holds nothing, but `fd_c` and `fd` stay as the last one left them.
    (firstSlot fun i => (s i).state = .ready).map fun i =>
      Function.update s i { s i with state := .running, held := [] }
  | .exit i =>
    if (s i).state = .ready then none
    else some (Function.update s i { s i with state := .zombie })
  | .reap i =>
    if (s i).state = .zombie then some (Function.update s i { s i with state := .ready }) else none

def FileStep (s : Int → FileSlot) (a : FileEvent) (t : Int → FileSlot) : Prop :=
  fileStep headers s a = some t

/-- The call stays inside the array, and a new descriptor is none that the process holds. -/
def Proper (s : Int → FileSlot) : FileEvent → Prop
  | .call i c =>
    (∀ k ∈ c.index headers (s i).files, 0 ≤ k ∧ k ≤ 99) ∧
      ∀ fd ∈ c.returned headers (s i).files, fd ∉ (s i).held
  | _ => True

/-- A slot that hands out a descriptor has handed out fewer than 97 before. -/
def Unspent (s : Int → FileSlot) : FileEvent → Prop
  | .call i c => (c.returned headers (s i).files).isSome → (s i).opened < 97
  | _ => True

instance (s : Int → FileSlot) : (a : FileEvent) → Decidable (Proper headers s a)
  | .call _ _ => inferInstanceAs (Decidable (_ ∧ _))
  | .spawn | .exit _ | .reap _ => isTrue trivial

instance (s : Int → FileSlot) : (a : FileEvent) → Decidable (Unspent headers s a)
  | .call i c => inferInstanceAs
      (Decidable ((c.returned headers (s i).files).isSome → (s i).opened < 97))
  | .spawn | .exit _ | .reap _ => isTrue trivial

end

/-- At boot no descriptor has been handed out. -/
def FilesBooted (s : Int → FileSlot) : Prop :=
  ∀ i, (s i).files.fdC = 0 ∧ (s i).held = [] ∧ (s i).opened = 0

/-! ## The two opens -/

variable {headers : List TarHeader} {files files' : Descriptors} {c : FileCall} {ret fd : Int}

/-- An open starts the next descriptor from its first entry, or fails. -/
theorem FileCall.opens_writes (ran : c.opens headers files = some (ret, files')) :
    (∃ file : File, file.entry = 0 ∧ ret = files.fdC + 3 ∧
      files' = ⟨Function.update files.fd (files.fdC + 3) file, files.fdC + 1⟩) ∨
      (ret = -1 ∧ files' = files) := by
  cases c with
  | openDir path derived =>
    have equal := Option.some.inj ran
    unfold Descriptors.openDirFile at equal
    split at equal
    · cases equal
      exact Or.inl ⟨_, rfl, rfl, rfl⟩
    · split at equal
      · cases equal
        exact Or.inl ⟨_, rfl, rfl, rfl⟩
      · cases equal
        exact Or.inr ⟨rfl, rfl⟩
  | openFile path derived flags =>
    have equal := Option.some.inj ran
    unfold Descriptors.openTarfsFile at equal
    split at equal
    · cases equal
      exact Or.inl ⟨_, rfl, rfl, rfl⟩
    · cases equal
      exact Or.inr ⟨rfl, rfl⟩
  | read fd count => cases ran
  | readDir fd => cases ran
  | close fd => cases ran

/-- An open takes the next index, or fails. -/
theorem FileCall.opens_cases (ran : c.opens headers files = some (ret, files')) :
    (ret = files.fdC + 3 ∧ files'.fdC = files.fdC + 1) ∨ (ret = -1 ∧ files' = files) := by
  rcases c.opens_writes ran with ⟨file, _, next, rfl⟩ | failed
  · exact Or.inl ⟨next, rfl⟩
  · exact Or.inr failed

theorem FileCall.returned_eq (new : c.returned headers files = some fd) : fd = files.fdC + 3 := by
  obtain ⟨⟨ret, files'⟩, ran, new⟩ := Option.bind_eq_some_iff.mp new
  split at new
  · cases new
  next other =>
    cases new
    rcases c.opens_cases ran with ⟨next, _⟩ | ⟨failed, _⟩
    · exact next
    · exact absurd failed other

theorem FileCall.index_of_returned (new : c.returned headers files = some fd) :
    c.index headers files = some (files.fdC + 3) := by
  cases c with
  | openDir path derived =>
    unfold FileCall.index
    rw [new]
    rfl
  | openFile path derived flags =>
    unfold FileCall.index
    rw [new]
    rfl
  | read fd count => cases new
  | readDir fd => cases new
  | close fd => cases new

/-! ## The invariant -/

/-- All descriptors that are held lie inside the array and below the next one. -/
structure FileSlot.Tidy (slot : FileSlot) : Prop where
  counted : slot.files.fdC = slot.opened
  held : ∀ fd ∈ slot.held, 0 ≤ fd ∧ fd ≤ 99 ∧ fd < slot.files.fdC + 3

variable {slot slot' : FileSlot}

theorem FileSlot.Tidy.low (tidy : slot.Tidy) : 0 ≤ slot.files.fdC := by
  rw [tidy.counted]
  exact Int.natCast_nonneg _

theorem FileSlot.Tidy.take {result : Int × Descriptors} (tidy : slot.Tidy)
    (opens : c.opens headers slot.files = some result) (ran : slot.take result = some slot')
    (unspent : (c.returned headers slot.files).isSome → slot.opened < 97) : slot'.Tidy := by
  obtain ⟨ret, files'⟩ := result
  unfold FileSlot.take at ran
  rcases c.opens_cases opens with ⟨rfl, count⟩ | ⟨rfl, rfl⟩
  · have low := tidy.low
    -- `fd_c` never goes down, so the next index is no error code.
    have other : ¬slot.files.fdC + 3 = -1 := by omega
    have new : c.returned headers slot.files = some (slot.files.fdC + 3) := by
      simp only [FileCall.returned, opens, Option.bind_some, if_neg other]
    have few := unspent (by rw [new]; rfl)
    rw [if_neg other] at ran
    split at ran
    · cases ran
      have counted := tidy.counted
      refine ⟨?_, fun fd member => ?_⟩
      · dsimp only
        rw [count, counted]
        rfl
      · dsimp only at member ⊢
        rcases List.mem_cons.mp member with rfl | old
        · omega
        -- What was held stays below the next index, which has only grown.
        · have before := tidy.held fd old
          omega
    · cases ran
  · rw [if_pos rfl] at ran
    cases ran
    exact tidy

theorem FileSlot.Tidy.call (tidy : slot.Tidy) (ran : slot.call headers c = some slot')
    (unspent : (c.returned headers slot.files).isSome → slot.opened < 97) : slot'.Tidy := by
  cases c with
  | openDir path derived => exact tidy.take rfl ran unspent
  | openFile path derived flags => exact tidy.take rfl ran unspent
  | read fd count =>
    dsimp only [FileSlot.call] at ran
    split at ran
    · cases ran
      exact tidy
    · cases ran
  | readDir fd =>
    dsimp only [FileSlot.call] at ran
    split at ran
    · cases ran
      exact ⟨tidy.counted, tidy.held⟩
    · cases ran
  | close fd =>
    dsimp only [FileSlot.call] at ran
    split at ran
    · cases ran
      exact ⟨tidy.counted, fun fd' member => tidy.held fd' (List.mem_of_mem_erase member)⟩
    · cases ran

/-- The index of a call on a descriptor that is held is that descriptor. -/
theorem FileSlot.Tidy.index (tidy : slot.Tidy) (ran : slot.call headers c = some slot')
    (unspent : (c.returned headers slot.files).isSome → slot.opened < 97) {k : Int}
    (used : c.index headers slot.files = some k) : 0 ≤ k ∧ k ≤ 99 := by
  have holds {fd : Int} (member : fd ∈ slot.held) : 0 ≤ fd ∧ fd ≤ 99 :=
    ⟨(tidy.held fd member).1, (tidy.held fd member).2.1⟩
  have next (used : (c.returned headers slot.files).map (fun _ => slot.files.fdC + 3) = some k) :
      0 ≤ k ∧ k ≤ 99 := by
    obtain ⟨fd, new, rfl⟩ := Option.map_eq_some_iff.mp used
    have few := unspent (by rw [new]; rfl)
    have low := tidy.low
    have counted := tidy.counted
    omega
  cases c with
  | openDir path derived => exact next used
  | openFile path derived flags => exact next used
  | read fd count =>
    cases used
    dsimp only [FileSlot.call] at ran
    split at ran
    next member => exact holds member
    next => cases ran
  | readDir fd =>
    cases used
    dsimp only [FileSlot.call] at ran
    split at ran
    next member => exact holds member
    next => cases ran
  | close fd =>
    cases used
    dsimp only [FileSlot.call] at ran
    split at ran
    next member => exact holds member
    next => cases ran

theorem FileSlot.Tidy.fresh (tidy : slot.Tidy) (new : c.returned headers slot.files = some fd) :
    fd ∉ slot.held := by
  intro member
  have below := (tidy.held fd member).2.2
  have next := c.returned_eq new
  omega

/-! ## Runs -/

variable {s t : Int → FileSlot} {a : FileEvent}

theorem Tidy.step (tidy : ∀ i, (s i).Tidy) (ran : FileStep headers s a t)
    (unspent : Unspent headers s a) : (∀ i, (t i).Tidy) ∧ Proper headers s a := by
  -- Every event writes one slot.
  have update {i : Int} {slot : FileSlot} (new : slot.Tidy) :
      ∀ j, (Function.update s i slot j).Tidy := by
    intro j
    by_cases here : j = i
    · subst here
      rw [Function.update_self]
      exact new
    · rw [Function.update_of_ne here]
      exact tidy j
  unfold FileStep fileStep at ran
  cases a with
  | call i c =>
    dsimp only at ran
    split at ran
    · cases ran
    · obtain ⟨slot, called, rfl⟩ := Option.map_eq_some_iff.mp ran
      refine ⟨update ((tidy i).call called unspent), fun k used => ?_, fun fd new => ?_⟩
      · exact (tidy i).index called unspent used
      · exact (tidy i).fresh new
  | spawn =>
    obtain ⟨i, _, rfl⟩ := Option.map_eq_some_iff.mp ran
    exact ⟨update ⟨(tidy i).counted, nofun⟩, trivial⟩
  | exit i =>
    dsimp only at ran
    split at ran
    · cases ran
    · cases ran
      exact ⟨update ⟨(tidy i).counted, (tidy i).held⟩, trivial⟩
  | reap i =>
    dsimp only at ran
    split at ran
    · cases ran
      exact ⟨update ⟨(tidy i).counted, (tidy i).held⟩, trivial⟩
    · cases ran

/-- The slot's next index is behind the array. -/
theorem Tidy.overrun (tidy : ∀ i, (s i).Tidy) (spent : ¬Unspent headers s a) :
    ¬Proper headers s a := by
  cases a with
  | call i c =>
    simp only [Unspent, Classical.not_imp, Nat.not_lt] at spent
    obtain ⟨some, many⟩ := spent
    obtain ⟨fd, new⟩ := Option.isSome_iff_exists.mp some
    rintro ⟨inside, _⟩
    have bound := inside _ (c.index_of_returned new)
    have counted := (tidy i).counted
    omega
  | spawn => exact absurd trivial spent
  | exit i => exact absurd trivial spent
  | reap i => exact absurd trivial spent

/-- All calls of a run stay inside the array, with new descriptors each time, exactly when no slot
hands out more than 97 descriptors in the whole run. -/
theorem descriptors_iff {run : List (FileEvent × (Int → FileSlot))} (booted : FilesBooted s)
    (along : Along (FileStep headers) s run) :
    Along (fun s a _ => Proper headers s a) s run ↔
      Along (fun s a _ => Unspent headers s a) s run := by
  have initial : ∀ i, (s i).Tidy := by
    intro i
    obtain ⟨count, held, opened⟩ := booted i
    refine ⟨?_, ?_⟩
    · rw [count, opened]
      rfl
    · rw [held]
      nofun
  refine Along.exact_of_strong (I := fun s => ∀ i, (s i).Tidy) ?_ ?_ initial along
  · exact fun s a t tidy ran unspent => Tidy.step tidy ran unspent
  · exact fun s a t tidy _ spent => Tidy.overrun tidy spent

/-! ## Two runs -/

def bootSlots : Int → FileSlot := fun _ => ⟨.ready, .none, [], 0⟩

theorem bootSlots_booted : FilesBooted bootSlots := fun _ => ⟨rfl, rfl, rfl⟩

/-- A process opens the file `a` and closes it again, `n` times. -/
def reopen (n : Nat) : List (FileEvent × (Int → FileSlot)) :=
  follow (fileStep [small]) bootSlots (.spawn :: (List.range n).flatMap fun (k : Nat) =>
    [.call 0 (.openFile [97] [97] 0), .call 0 (.close (k + 3))])

theorem reopen_once : (reopen 1).length = 3 ∧
    Along (fun s a _ => Proper [small] s a) bootSlots (reopen 1) := by
  have along : Along (FileStep [small]) bootSlots (reopen 1) := along_follow _ _ _
  exact ⟨by decide +kernel, (descriptors_iff bootSlots_booted along).mpr (by decide +kernel)⟩

/-- One descriptor at a time is open, and the 98th lies behind the array. -/
theorem reopen_often : Along (FileStep [small]) bootSlots (reopen 98) ∧ (reopen 98).length = 197 ∧
    ¬Along (fun s a _ => Proper [small] s a) bootSlots (reopen 98) :=
  ⟨along_follow _ _ _, by decide +kernel, by decide +kernel⟩

end LateOS
