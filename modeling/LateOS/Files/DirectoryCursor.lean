import LateOS.Files.Listing
import LateOS.Files.Handles

/-!
# The cursor of a directory

Calls of `readDirTarfsFile` on one descriptor, among any other calls of any tasks. The cursor
counts the matches that have been passed; the first one, which is the directory's own header, is
passed by the first call and never returned.
-/
namespace LateOS

deriving instance DecidableEq for FileCall

/-! ## Calls of all tasks -/

/-- A call of a task, with the buffer that it passes. -/
structure TaskCall where
  task : Int
  call : FileCall
  buf : Buffer

section

variable (headers : List TarHeader)

/-- The descriptors behind a call. -/
def FileCall.perform (files : Descriptors) : FileCall → Descriptors
  | .openDir path derived => (files.openDirFile headers (fun _ => derived) path).2
  | .openFile path derived flags => (files.openTarfsFile headers (fun _ => derived) path flags).2
  | .read _ _ => files
  | .readDir fd => (files.readDirTarfsFile headers fd).2
  | .close fd => (files.closeTarfsFile fd).2

/-- What `readDirTarfsFile` returns, and what it leaves in the buffer. -/
def readDirReply (files : Descriptors) (fd : Int) (buf : Buffer) : Int × Buffer :=
  match (files.readDirTarfsFile headers fd).1 with
  | some name => (1, strcpy buf name)
  | none => (0, buf)

def TaskCall.perform (c : TaskCall) (tasks : Int → Descriptors) : Int → Descriptors :=
  Function.update tasks c.task (c.call.perform headers (tasks c.task))

/-- The call reads the directory at `fd` of the task. -/
def TaskCall.Asks (task fd : Int) (c : TaskCall) : Prop := c.task = task ∧ c.call = .readDir fd

instance (task fd : Int) (c : TaskCall) : Decidable (c.Asks task fd) :=
  inferInstanceAs (Decidable (_ ∧ _))

def TaskCall.Closes (task fd : Int) (c : TaskCall) : Prop := c.task = task ∧ c.call = .close fd

instance (task fd : Int) (c : TaskCall) : Decidable (c.Closes task fd) :=
  inferInstanceAs (Decidable (_ ∧ _))

/-- The replies to the calls that read the directory. -/
def replies (task fd : Int) : List TaskCall → (Int → Descriptors) → List (Int × Buffer)
  | [], _ => []
  | c :: rest, tasks =>
    let later := replies task fd rest (c.perform headers tasks)
    if c.Asks task fd then readDirReply headers (tasks task) fd c.buf :: later else later

end

/-! ## What is to be returned -/

/-- The positions below 32 whose headers pass the test. -/
def matchPositions (headers : List TarHeader) (fileName : List UInt8) : List Nat :=
  (List.range 32).filter fun i => headers[i]?.any fun h => Matches fileName h

/-- The end of a name, behind what it has in common with another. -/
def beyond : List UInt8 → List UInt8 → List UInt8
  | a :: s, b :: t => if a = b then beyond s t else a :: s
  | s, _ => s

/-- The reply to the `k`-th call. -/
def cursorReply (headers : List TarHeader) (fileName : List UInt8) (k : Nat) (buf : Buffer) :
    Int × Buffer :=
  match (matchPositions headers fileName)[k]?.bind fun i => headers[i]? with
  | some h => (1, strcpy buf (beyond h.name fileName))
  | none => (0, buf)

variable {headers : List TarHeader} {fileName : List UInt8}

theorem beyond_eq (s t : List UInt8) : substring s (startsWith s t) = beyond s t := by
  unfold substring
  induction s generalizing t with
  | nil => cases t <;> rfl
  | cons a s ih =>
    cases t with
    | nil => rfl
    | cons b t =>
      have low := startsWith_low s t
      rw [startsWith, beyond]
      split
      · have index : (startsWith s t + 1 + 1).toNat = (startsWith s t + 1).toNat + 1 := by omega
        rw [index, List.drop_succ_cons, ih]
      · rfl

/-- The headers at the positions are those that pass the test, in order. -/
theorem matchPositions_map (headers : List TarHeader) (fileName : List UInt8) (n : Nat) :
    (((List.range n).filter fun i => headers[i]?.any fun h => Matches fileName h).map
        fun i => headers[i]?) =
      ((headers.take n).filter fun h => Matches fileName h).map some := by
  induction n with
  | zero => rfl
  | succ n ih =>
    rw [List.range_succ, List.filter_append, List.map_append, ih, List.take_add_one,
      List.filter_append, List.map_append]
    refine congrArg _ ?_
    cases here : headers[n]? with
    | none => simp [here]
    | some h => by_cases passes : Matches fileName h <;> simp [here, passes]

theorem matchPositions_get (k : Nat) :
    ((matchPositions headers fileName)[k]?.bind fun i => headers[i]?) =
      ((headers.take 32).filter fun h => Matches fileName h)[k]? := by
  have same := congrArg (fun l => l[k]?) (matchPositions_map headers fileName 32)
  rw [List.getElem?_map, List.getElem?_map] at same
  unfold matchPositions
  cases position : ((List.range 32).filter fun i =>
      headers[i]?.any fun h => Matches fileName h)[k]? with
  | none =>
    rw [position] at same
    exact (Option.map_eq_none_iff.mp same.symm).symm
  | some i =>
    rw [position] at same
    obtain ⟨h, found, here⟩ := Option.map_eq_some_iff.mp same.symm
    rw [found]
    exact here.symm

theorem cursorReply_eq (k : Nat) (buf : Buffer) : cursorReply headers fileName k buf =
    match ((headers.take 32).filter fun h => Matches fileName h)[k]? with
    | some h => (1, strcpy buf (listedName fileName h))
    | none => (0, buf) := by
  unfold cursorReply listedName
  rw [matchPositions_get]
  simp only [beyond_eq]

/-! ## The cursor over a run -/

variable {files files' : Descriptors} {c : FileCall} {fd ret : Int} {n : Nat}

/-- The cursor after `n` calls: the number of matches passed, which are all at the end. -/
def cursorEntry (n total : Nat) : Int := if n = 0 then 0 else (min (n + 1) total : Nat)

/-- After `n` calls on a descriptor that was handed out. -/
structure CursorAt (headers : List TarHeader) (fileName : List UInt8) (fd : Int) (n : Nat)
    (files : Descriptors) : Prop where
  named : (files.fd fd).fileName = fileName
  entry : (files.fd fd).entry =
    cursorEntry n ((headers.take 32).filter (Matches fileName)).length
  taken : fd < files.fdC + 3

/-- One more call stops at the next match, if there is one. -/
theorem readDirStop_cursor (headers : List TarHeader) (fileName : List UInt8) (n : Nat) :
    readDirStop fileName headers 0 (cursorEntry n (headers.filter (Matches fileName)).length) =
      (cursorEntry (n + 1) (headers.filter (Matches fileName)).length,
        (headers.filter (Matches fileName))[n + 1]?) := by
  cases found : headers.filter (Matches fileName) with
  | nil =>
    have stop : readDirStop fileName headers 0 0 = _ := readDirStop_start
    rw [found] at stop
    have start (k : Nat) : cursorEntry k ([] : List TarHeader).length = 0 := by
      unfold cursorEntry
      split <;> simp
    rw [start, start, stop]
    rfl
  | cons first rest =>
    cases n with
    | zero =>
      -- The first call steps over the first match.
      have stop : readDirStop fileName headers 0 0 = _ := readDirStop_start
      rw [found] at stop
      rw [show cursorEntry 0 (first :: rest).length = 0 from rfl, stop]
      cases rest with
      | nil => rfl
      | cons second rest =>
        simp [cursorEntry]
    | succ n =>
      -- The later ones go to the match that the cursor counts up to.
      have stop : readDirStop fileName headers 0
          (min (n + 1 + 1) (first :: rest).length : Nat) = _ :=
        readDirStop_set (min (n + 1 + 1) (first :: rest).length)
          (by rw [List.length_cons]; omega) (Int.zero_add _).symm
      rw [found] at stop
      unfold cursorEntry
      rw [if_neg (Nat.succ_ne_zero n), if_neg (Nat.succ_ne_zero _), stop]
      by_cases more : n + 1 + 1 < (first :: rest).length
      · rw [Nat.min_eq_left more.le, List.drop_eq_getElem_cons more, List.getElem?_eq_getElem more,
          Nat.min_eq_left more]
        rfl
      · have all : (first :: rest).length ≤ n + 1 + 1 := Nat.le_of_not_lt more
        rw [Nat.min_eq_right all, List.drop_length, List.getElem?_eq_none all,
          Nat.min_eq_right (Nat.le_succ_of_le all)]

theorem CursorAt.ask (cursor : CursorAt headers fileName fd n files) (buf : Buffer) :
    readDirReply headers files fd buf = cursorReply headers fileName (n + 1) buf ∧
      CursorAt headers fileName fd (n + 1) (files.readDirTarfsFile headers fd).2 := by
  have stop := readDirStop_cursor (headers.take 32) fileName n
  have ran : files.readDirTarfsFile headers fd =
      ((((headers.take 32).filter (Matches fileName))[n + 1]?).map (listedName fileName),
        files.setEntry fd
          (cursorEntry (n + 1) ((headers.take 32).filter (Matches fileName)).length)) := by
    unfold Descriptors.readDirTarfsFile
    rw [readDirLoop_eq, cursor.named, cursor.entry, stop]
    rfl
  refine ⟨?_, ?_⟩
  · unfold readDirReply
    rw [cursorReply_eq, ran]
    cases ((headers.take 32).filter (Matches fileName))[n + 1]? <;> rfl
  · rw [ran]
    exact ⟨by rw [setEntry_fileName, cursor.named], setEntry_entry, cursor.taken⟩

/-- What touches neither the descriptor nor its number leaves the cursor where it is. -/
theorem CursorAt.kept (cursor : CursorAt headers fileName fd n files)
    (same : files'.fd fd = files.fd fd) (more : files.fdC ≤ files'.fdC) :
    CursorAt headers fileName fd n files' := by
  refine ⟨?_, ?_, ?_⟩
  · rw [same]
    exact cursor.named
  · rw [same]
    exact cursor.entry
  · have taken := cursor.taken
    omega

/-- An open takes a descriptor that was not handed out. -/
theorem CursorAt.opens (cursor : CursorAt headers fileName fd n files)
    (ran : c.opens headers files = some (ret, files')) : CursorAt headers fileName fd n files' := by
  rcases c.opens_writes ran with ⟨file, _, _, rfl⟩ | ⟨_, rfl⟩
  · refine cursor.kept (Function.update_of_ne cursor.taken.ne _ _) ?_
    dsimp only
    omega
  · exact cursor

theorem CursorAt.perform (cursor : CursorAt headers fileName fd n files) (asks : c ≠ .readDir fd)
    (closes : c ≠ .close fd) : CursorAt headers fileName fd n (c.perform headers files) := by
  cases c with
  | openDir path derived => exact cursor.opens (c := .openDir path derived) rfl
  | openFile path derived flags => exact cursor.opens (c := .openFile path derived flags) rfl
  | read fd' count => exact cursor
  | readDir fd' =>
    have other : fd ≠ fd' := fun same => asks (congrArg FileCall.readDir same.symm)
    exact cursor.kept (Function.update_of_ne other _ _) (Int.le_refl _)
  | close fd' =>
    have other : fd ≠ fd' := fun same => closes (congrArg FileCall.close same.symm)
    exact cursor.kept (Function.update_of_ne other _ _) (Int.le_refl _)

/-! ## Runs -/

variable {tasks : Int → Descriptors} {task : Int} {calls : List TaskCall}

/-- A call by anyone that does not ask for the next name. -/
theorem CursorAt.elsewhere {call : TaskCall} (cursor : CursorAt headers fileName fd n (tasks task))
    (asks : ¬call.Asks task fd) (closes : ¬call.Closes task fd) :
    CursorAt headers fileName fd n (call.perform headers tasks task) := by
  unfold TaskCall.perform
  by_cases own : task = call.task
  · subst own
    rw [Function.update_self]
    exact cursor.perform (fun same => asks ⟨rfl, same⟩) (fun same => closes ⟨rfl, same⟩)
  · rw [Function.update_of_ne own]
    exact cursor

theorem replies_from (cursor : CursorAt headers fileName fd n (tasks task))
    (unclosed : ∀ call ∈ calls, ¬call.Closes task fd) :
    replies headers task fd calls tasks =
      (calls.filter fun call => call.Asks task fd).mapIdx fun k call =>
        cursorReply headers fileName (n + (k + 1)) call.buf := by
  induction calls generalizing tasks n with
  | nil => rfl
  | cons call rest ih =>
    have later : ∀ call ∈ rest, ¬call.Closes task fd := fun c member =>
      unclosed c (List.mem_cons_of_mem call member)
    rw [replies]
    by_cases asks : call.Asks task fd
    -- The cursor has moved on for the rest of the run.
    · obtain ⟨reply, next⟩ := cursor.ask call.buf
      have moved : CursorAt headers fileName fd (n + 1) (call.perform headers tasks task) := by
        unfold TaskCall.perform
        rw [asks.1, Function.update_self, asks.2]
        exact next
      rw [if_pos asks, List.filter_cons_of_pos (by simpa using asks), List.mapIdx_cons, reply,
        ih moved later]
      refine congrArg _ ?_
      refine congrArg (fun f => List.mapIdx f _) ?_
      funext k c
      rw [Nat.add_assoc, Nat.add_comm 1]
    · have unmoved := cursor.elsewhere asks (unclosed call List.mem_cons_self)
      rw [if_neg asks, List.filter_cons_of_neg (by simpa using asks), ih unmoved later]

theorem CursorAt.fresh (opened : c.opens headers files = some (fd, files')) (valid : fd ≠ -1) :
    CursorAt headers (files'.fd fd).fileName fd 0 files' := by
  rcases c.opens_writes opened with ⟨file, start, rfl, rfl⟩ | ⟨failed, _⟩
  · refine ⟨rfl, ?_, ?_⟩
    · change (Function.update files.fd (files.fdC + 3) file (files.fdC + 3)).entry = 0
      rw [Function.update_self, start]
    · dsimp only
      omega
  · exact absurd failed valid

/-- The calls on a descriptor, from its open on, give the matches behind the first one after the
other and then 0, among any calls that do not close it. The array of descriptors is as long as it
needs to be. -/
theorem replies_opened (opened : c.opens headers (tasks task) = some (fd, files)) (valid : fd ≠ -1)
    (unclosed : ∀ call ∈ calls, ¬call.Closes task fd) :
    replies headers task fd calls (Function.update tasks task files) =
      (calls.filter fun call => call.Asks task fd).mapIdx fun k call =>
        cursorReply headers (files.fd fd).fileName (k + 1) call.buf := by
  have start : CursorAt headers (files.fd fd).fileName fd 0
      (Function.update tasks task files task) := by
    rw [Function.update_self]
    exact .fresh opened valid
  rw [replies_from start unclosed]
  simp only [Nat.zero_add]

/-- The directory `b/` from two descriptors in turn, among other calls. -/
def turns : List TaskCall :=
  [⟨0, .readDir 3, fun _ => 0⟩, ⟨0, .openDir [98, 47] [98, 47], fun _ => 0⟩,
    ⟨0, .readDir 4, fun _ => 0⟩, ⟨1, .close 3, fun _ => 0⟩, ⟨0, .readDir 3, fun _ => 7⟩,
    ⟨0, .close 4, fun _ => 0⟩, ⟨0, .readDir 3, fun _ => 7⟩]

/-- Tasks that have opened nothing. -/
def noFiles : Int → Descriptors := fun _ => closedFiles

theorem replies_turns : (replies (flatHeaders nested) 0 3 turns (Function.update noFiles 0
      ((noFiles 0).openDirFile (flatHeaders nested) id [47]).2)).map
    (fun reply => (reply.1, reply.2 0, reply.2 1, reply.2 2, reply.2 3)) =
      [(1, 98, 47, 120, 0), (1, 0, 7, 7, 7), (0, 7, 7, 7, 7)] := by
  have opened : (FileCall.openDir [47] [47]).opens (flatHeaders nested) (noFiles 0) =
      some (3, ((noFiles 0).openDirFile (flatHeaders nested) id [47]).2) := rfl
  rw [replies_opened opened (by decide) (by decide)]
  decide +kernel

end LateOS
