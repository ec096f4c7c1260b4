import LateOS.Memory.Stack

/-!
# From the stack to `main`

What `setRSPandExec` has stored, byte by byte, and what the `_start` of `crt/crt1.c` reads back
from it.
-/
namespace LateOS

open Lib Machine

variable {m m' m1 : Machine} {use use' : Word → Use} {ts ts' : TaskStruct} {r : Word}
  {v w k n rsp rsp' rsp1 : Nat} {store : Nat × Byte} {stores stores' : Stores} {b : Byte}
  {str : List Byte} {strs envs args : List (List Byte)} {words : List Nat}

/-! ## `_start` -/

namespace Machine

variable (m : Machine) (r : Word)

/-- A number of `n` bytes. -/
def readBytes : Nat → Nat → Option Nat
  | 0, _ => some 0
  | n + 1, v => do
    let b ← m.byteAt r v
    let rest ← readBytes n (v + 1)
    some (b.toNat + 256 * rest)

def readWords : Nat → Nat → Option (List Nat)
  | 0, _ => some []
  | n + 1, v => do
    let w ← m.readBytes r 8 v
    let rest ← readWords n (v + 8)
    some (w :: rest)

/-- The loop that fills `argv`, which has 20 slots. -/
def readArgs (argc : Int) (v : Nat) : Option (List Nat) :=
  if argc ≤ 20 then m.readWords r argc.toNat v else none

/-- The loop that fills `env`, in which so many slots are left. -/
def readEnv : Nat → Nat → Option (List Nat)
  | slots, v => do
    let w ← m.readBytes r 8 v
    if w = 0 then some []
    else match slots with
      | 0 => none
      | slots + 1 => (readEnv slots (v + 8)).map (w :: ·)

/-- What `_start` passes to `main`. Its frame takes one word, so that `setENVvalue + 2` is the `rsp`
that it is entered with. -/
def start (rsp : Nat) : Option (Int × List Nat × List Nat) := do
  let low ← m.readBytes r 4 rsp
  let argc := (BitVec.ofNat 32 low).toInt
  let argv ← m.readArgs r argc (rsp + 8)
  let env ← m.readEnv r 100 (rsp + 8 + 8 * argc.toNat + 8)
  some (argc, argv, env)

/-- The word at `v` is `w`. -/
def WordAt (v w : Nat) : Prop := ∀ k < 8, m.byteAt r (v + k) = some (BitVec.ofNat 8 (w / 256 ^ k))

/-- The string at `v`, with its terminator, is `str`. -/
def StringAt (v : Nat) (str : List Byte) : Prop :=
  ∀ k ≤ str.length, m.byteAt r (v + k) = some (str.getD k 0)

end Machine

theorem readBytes_of_bytes (here : ∀ k < n, m.byteAt r (v + k) = some (BitVec.ofNat 8 (w / 256 ^ k))) :
    m.readBytes r n v = some (w % 256 ^ n) := by
  induction n generalizing v w with
  | zero => simp [readBytes, Nat.mod_one]
  | succ n ih =>
    have first := here 0 (Nat.succ_pos n)
    have rest : m.readBytes r n (v + 1) = some (w / 256 % 256 ^ n) := by
      apply ih
      intro k below
      have next := here (k + 1) (Nat.succ_lt_succ below)
      rw [pow_succ, Nat.mul_comm, ← Nat.div_div_eq_div_mul] at next
      rw [Nat.add_assoc, Nat.add_comm 1 k]
      exact next
    -- The lowest byte comes first.
    rw [Nat.add_zero, pow_zero, Nat.div_one] at first
    rw [readBytes, first, rest, pow_succ, Nat.mul_comm (256 ^ n), Nat.mod_mul]
    simp

theorem Machine.WordAt.readBytes (word : m.WordAt r v w) (small : w < 2 ^ 64) :
    m.readBytes r 8 v = some w := by
  rw [readBytes_of_bytes word, Nat.mod_eq_of_lt (small.trans_eq (by decide))]

theorem readWords_of_words (small : ∀ w ∈ words, w < 2 ^ 64)
    (here : ∀ i w, words[i]? = some w → m.WordAt r (v + 8 * i) w) :
    m.readWords r words.length v = some words := by
  induction words generalizing v with
  | nil => rfl
  | cons w rest ih =>
    have first : m.readBytes r 8 v = some w := (here 0 w rfl).readBytes (small w (by simp))
    have later : m.readWords r rest.length (v + 8) = some rest := by
      apply ih (fun w member => small w (by simp [member]))
      intro i w found
      have next := here (i + 1) w (by simpa using found)
      rw [Nat.mul_succ, Nat.add_comm (8 * i), ← Nat.add_assoc] at next
      exact next
    rw [List.length_cons, readWords, first, later]
    rfl

theorem readEnv_of_words {slots : Nat} (fits : words.length ≤ slots)
    (small : ∀ w ∈ words, 0 < w ∧ w < 2 ^ 64)
    (here : ∀ i w, (words ++ [0])[i]? = some w → m.WordAt r (v + 8 * i) w) :
    m.readEnv r slots v = some words := by
  induction words generalizing v slots with
  | nil =>
    have last : m.readBytes r 8 v = some 0 := (here 0 0 rfl).readBytes (by decide)
    rw [readEnv, last]
    rfl
  | cons w rest ih =>
    obtain ⟨positive, bound⟩ := small w (by simp)
    have first : m.readBytes r 8 v = some w := (here 0 w rfl).readBytes bound
    rw [List.length_cons] at fits
    cases slots with
    | zero => omega
    | succ slots =>
      have later : m.readEnv r slots (v + 8) = some rest := by
        apply ih (by omega) (fun w member => small w (by simp [member]))
        intro i w found
        have next := here (i + 1) w (by simpa using found)
        rw [Nat.mul_succ, Nat.add_comm (8 * i), ← Nat.add_assoc] at next
        exact next
      rw [readEnv, first, Option.bind_eq_bind, Option.bind_some, if_neg (by omega)]
      dsimp only
      rw [later]
      rfl

/-! ## Stores read back -/

theorem sameByte_small {u : Nat} (smallU : u < 2 ^ 47) (smallV : v < 2 ^ 47) (same : SameByte u v) :
    u = v := by
  obtain ⟨page, low⟩ := same
  rw [samePage_iff] at page
  omega

theorem Machine.Private.poke_byte (own : m.Private use ts.pml4e) (user : UserAddress store.1)
    (ran : LateOS.poke ts m store = some m') :
    ∃ use', m'.Private use' ts.pml4e ∧ ∀ v, UserAddress v →
      (SameByte store.1 v → m'.byteAt ts.pml4e v = some store.2) ∧
      (¬SameByte store.1 v → ∀ b, m.byteAt ts.pml4e v = some b → m'.byteAt ts.pml4e v = some b) := by
  -- The store itself, after the page fault if there was one.
  have last {m1 : Machine} {use1 : Word → Use} (own1 : m1.Private use1 ts.pml4e)
      (stored : m1.storeByte ts.pml4e store.1 store.2 = some m') :
      m'.Private use1 ts.pml4e ∧ ∀ v, UserAddress v →
        (SameByte store.1 v → m'.byteAt ts.pml4e v = some store.2) ∧
        (¬SameByte store.1 v → m'.byteAt ts.pml4e v = m1.byteAt ts.pml4e v) := by
    refine ⟨(own1.storeByte user stored).after, fun v userV => ?_⟩
    have byte := own1.sound.byteAt_store own1.root user stored
      (fun e => own1.unshared store.1 e user) own1.root userV
    rw [byte]
    constructor
    · intro same
      rw [if_pos ⟨rfl, same⟩]
    · intro other
      rw [if_neg fun both => other both.2]
  rcases poke_cases ran with stored | ⟨unmapped, m1, handled, stored⟩
  · obtain ⟨after, bytes⟩ := last own stored
    refine ⟨use, after, fun v userV => ⟨(bytes v userV).1, fun other b had => ?_⟩⟩
    rw [(bytes v userV).2 other]
    exact had
  · obtain ⟨use1, repaired⟩ := own.sound.isr14 own.root (fun _ => user)
      (fun _ e found => by simp [unmapped] at found) handled
    obtain ⟨after, bytes⟩ := last (repaired.loaded own).after stored
    refine ⟨use1, after, fun v userV => ⟨(bytes v userV).1, fun other b had => ?_⟩⟩
    rw [(bytes v userV).2 other]
    exact repaired.kept v b userV had

/-- A byte that all stores to its address agree on. -/
theorem Machine.Private.pokes_byte (own : m.Private use ts.pml4e)
    (user : ∀ store ∈ stores, UserAddress store.1) (userV : UserAddress v)
    (ran : LateOS.pokes ts m stores = some m')
    (only : ∀ store ∈ stores, SameByte store.1 v → store.2 = b)
    (had : m.byteAt ts.pml4e v = some b ∨ ∃ store ∈ stores, SameByte store.1 v) :
    m'.byteAt ts.pml4e v = some b := by
  -- Either the byte is there already and stays, or a later store puts it there.
  induction stores generalizing m use with
  | nil =>
    cases ran
    rcases had with had | ⟨store, member, _⟩
    · exact had
    · cases member
  | cons store rest ih =>
    obtain ⟨m1, first, ran⟩ := Option.bind_eq_some_iff.mp ran
    obtain ⟨use1, own1, bytes⟩ := own.poke_byte (user store (by simp)) first
    obtain ⟨written, kept⟩ := bytes v userV
    apply ih own1 (fun store member => user store (by simp [member])) ran
      (fun store member => only store (by simp [member]))
    by_cases same : SameByte store.1 v
    · left
      rw [written same, only store (by simp) same]
    · rcases had with had | ⟨other, member, there⟩
      · exact Or.inl (kept same b had)
      · rcases List.mem_cons.mp member with rfl | member
        · exact absurd there same
        · exact Or.inr ⟨other, member, there⟩

/-! ## What is where on the stack -/

/-- How many words strings take on the stack. -/
def stringWords (strs : List (List Byte)) : Nat := (strs.map fun str => str.length + 1).sum

/-- Stores between `rsp'` and `rsp`, at most one byte at each address. -/
structure Pushed (rsp : Nat) (stores : Stores) (rsp' : Nat) : Prop where
  lower : rsp' ≤ rsp
  inside : ∀ store ∈ stores, rsp' ≤ store.1 ∧ store.1 < rsp
  single : ∀ x ∈ stores, ∀ y ∈ stores, x.1 = y.1 → x.2 = y.2

theorem Pushed.nil (rsp : Nat) : Pushed rsp [] rsp := by
  constructor
  case lower => exact Nat.le_refl rsp
  case inside => simp
  case single => simp

theorem Pushed.trans (first : Pushed rsp stores rsp1) (second : Pushed rsp1 stores' rsp') :
    Pushed rsp (stores ++ stores') rsp' := by
  have lower := first.lower
  have lower' := second.lower
  constructor
  case lower => omega
  case inside =>
    intro store member
    rcases List.mem_append.mp member with old | new
    · have bounds := first.inside store old
      omega
    · have bounds := second.inside store new
      omega
  case single =>
    -- Stores of the two parts are at different addresses.
    have apart {x y : Nat × Byte} (old : x ∈ stores) (new : y ∈ stores') : x.1 ≠ y.1 := by
      have boundsX := first.inside x old
      have boundsY := second.inside y new
      omega
    intro x memberX y memberY same
    rcases List.mem_append.mp memberX with oldX | newX
    · rcases List.mem_append.mp memberY with oldY | newY
      · exact first.single x oldX y oldY same
      · exact absurd same (apart oldX newY)
    · rcases List.mem_append.mp memberY with oldY | newY
      · exact absurd same.symm (apart oldY newX)
      · exact second.single x newX y newY same

/-- Stores to `n` addresses from `v` on. -/
theorem pushed_range (room : v + n ≤ rsp) (byte : Nat → Byte) :
    Pushed rsp ((List.range n).map fun k => (v + k, byte k)) v := by
  constructor
  case lower => omega
  case inside =>
    intro store member
    obtain ⟨k, below, rfl⟩ := List.mem_map.mp member
    rw [List.mem_range] at below
    dsimp only
    omega
  case single =>
    intro x memberX y memberY same
    obtain ⟨j, _, rfl⟩ := List.mem_map.mp memberX
    obtain ⟨k, _, rfl⟩ := List.mem_map.mp memberY
    have equal : j = k := Nat.add_left_cancel same
    rw [equal]

theorem pushStrings_pushed (strs : List (List Byte)) (rsp : Nat) (room : 8 * stringWords strs ≤ rsp) :
    (pushStrings strs rsp).2.1 = rsp - 8 * stringWords strs ∧
      Pushed rsp (pushStrings strs rsp).2.2 (pushStrings strs rsp).2.1 := by
  induction strs with
  -- The strings are stored from the last to the first, so that the head is the lowest one.
  | nil => exact ⟨rfl, .nil rsp⟩
  | cons str rest ih =>
    have size : stringWords (str :: rest) = str.length + 1 + stringWords rest := rfl
    obtain ⟨ends, pushed⟩ := ih (by omega)
    constructor
    · change (pushStrings rest rsp).2.1 - 8 * (str.length + 1) = _
      omega
    · have fits : (pushStrings rest rsp).2.1 - 8 * (str.length + 1) + (str.length + 1) ≤
          (pushStrings rest rsp).2.1 := by omega
      exact pushed.trans (pushed_range fits _)

/-- Each address that is returned is the one of its string. -/
theorem pushStrings_stored (strs : List (List Byte)) (rsp : Nat) :
    List.Forall₂ (fun v str => storeString v str ⊆ (pushStrings strs rsp).2.2)
      (pushStrings strs rsp).1 strs := by
  induction strs with
  | nil => exact .nil
  | cons str rest ih =>
    constructor
    · exact List.subset_append_right _ _
    · exact ih.imp fun v str stored => List.subset_append_of_subset_left _ stored

theorem pushStrings_bounds (strs : List (List Byte)) (rsp : Nat) (room : 8 * stringWords strs ≤ rsp) :
    ∀ v ∈ (pushStrings strs rsp).1, rsp - 8 * stringWords strs ≤ v ∧ v < rsp := by
  induction strs with
  | nil => exact nofun
  | cons str rest ih =>
    have size : stringWords (str :: rest) = str.length + 1 + stringWords rest := rfl
    have ends := (pushStrings_pushed rest rsp (by omega)).1
    intro v member
    rcases List.mem_cons.mp member with rfl | member
    · change _ ≤ (pushStrings rest rsp).2.1 - 8 * (str.length + 1) ∧
        (pushStrings rest rsp).2.1 - 8 * (str.length + 1) < rsp
      omega
    · have bounds := ih (by omega) v member
      omega

theorem pushWords_pushed (words : List Nat) (rsp : Nat) (room : 8 * words.length ≤ rsp) :
    (pushWords words rsp).1 = rsp - 8 * words.length ∧
      Pushed rsp (pushWords words rsp).2 (pushWords words rsp).1 := by
  induction words with
  | nil => exact ⟨rfl, .nil rsp⟩
  | cons w rest ih =>
    rw [List.length_cons] at room ⊢
    obtain ⟨ends, pushed⟩ := ih (by omega)
    constructor
    · change (pushWords rest rsp).1 - 8 = _
      omega
    · exact pushed.trans (pushed_range (by omega) _)

/-- The words stand in their order. -/
theorem pushWords_stored (words : List Nat) (rsp : Nat) (room : 8 * words.length ≤ rsp) (i w : Nat)
    (found : words[i]? = some w) :
    storeWord ((pushWords words rsp).1 + 8 * i) w ⊆ (pushWords words rsp).2 := by
  induction words generalizing i with
  | nil => simp at found
  | cons first rest ih =>
    rw [List.length_cons] at room
    have ends := (pushWords_pushed rest rsp (by omega)).1
    cases i with
    | zero =>
      cases found
      exact List.subset_append_right _ _
    | succ i =>
      have stored := ih (by omega) i (by simpa using found)
      have place : (pushWords (first :: rest) rsp).1 + 8 * (i + 1) =
          (pushWords rest rsp).1 + 8 * i := by
        change (pushWords rest rsp).1 - 8 + 8 * (i + 1) = _
        omega
      rw [place]
      exact List.subset_append_of_subset_left _ stored

/-- How many words `stackOf` stores to: the strings, both lists of pointers with a NULL behind
them, and the count. -/
def stackWords (envs args : List (List Byte)) : Nat :=
  stringWords envs + stringWords args + (envs.length + 1) + (args.length + 2)

/-- Where the strings of `envs` end and those of `args` begin, and so on down. -/
structure StackLayout (envs args : List (List Byte)) (rsp : Nat) (argv env : List Nat) : Prop where
  ends : (stackOf envs args rsp).1 = rsp - 8 * stackWords envs args
  pushed : Pushed rsp (stackOf envs args rsp).2 (stackOf envs args rsp).1
  bounds : ∀ v, v ∈ argv ∨ v ∈ env → rsp - 8 * stackWords envs args ≤ v ∧ v < rsp
  argStrings : List.Forall₂ (fun v str => storeString v str ⊆ (stackOf envs args rsp).2) argv args
  envStrings : List.Forall₂ (fun v str => storeString v str ⊆ (stackOf envs args rsp).2) env envs
  argWords : ∀ i w, (args.length :: argv ++ [0])[i]? = some w →
    storeWord ((stackOf envs args rsp).1 + 8 * i) w ⊆ (stackOf envs args rsp).2
  envWords : ∀ i w, (env ++ [0])[i]? = some w →
    storeWord ((stackOf envs args rsp).1 + 8 * (args.length + 2) + 8 * i) w ⊆
      (stackOf envs args rsp).2

/-- The addresses of the strings are those that `pushStrings` returns. -/
theorem stackOf_pushed (envs args : List (List Byte)) (rsp : Nat)
    (room : 8 * stackWords envs args ≤ rsp) :
    StackLayout envs args rsp (pushStrings args (pushStrings envs rsp).2.1).1
      (pushStrings envs rsp).1 := by
  unfold stackWords at room
  -- From the top down: the strings of `envs`, those of `args`, and the two lists of pointers.
  obtain ⟨ends1, pushed1⟩ := pushStrings_pushed envs rsp (by omega)
  have strings1 := pushStrings_stored envs rsp
  have bounds1 := pushStrings_bounds envs rsp (by omega)
  have shape : stackOf envs args rsp =
    ((pushWords (args.length :: (pushStrings args (pushStrings envs rsp).2.1).1 ++ [0])
      (pushWords ((pushStrings envs rsp).1 ++ [0]) (pushStrings args (pushStrings envs rsp).2.1).2.1).1).1,
    (pushStrings envs rsp).2.2 ++ (pushStrings args (pushStrings envs rsp).2.1).2.2 ++
      (pushWords ((pushStrings envs rsp).1 ++ [0]) (pushStrings args (pushStrings envs rsp).2.1).2.1).2 ++
      (pushWords (args.length :: (pushStrings args (pushStrings envs rsp).2.1).1 ++ [0])
        (pushWords ((pushStrings envs rsp).1 ++ [0])
          (pushStrings args (pushStrings envs rsp).2.1).2.1).1).2) := rfl
  generalize pushStrings envs rsp = first at *
  obtain ⟨env, rsp1, envStores⟩ := first
  dsimp only at ends1 pushed1 strings1 bounds1 shape
  obtain ⟨ends2, pushed2⟩ := pushStrings_pushed args rsp1 (by omega)
  have strings2 := pushStrings_stored args rsp1
  have bounds2 := pushStrings_bounds args rsp1 (by omega)
  generalize pushStrings args rsp1 = second at *
  obtain ⟨argv, rsp2, argStores⟩ := second
  dsimp only at ends2 pushed2 strings2 bounds2 shape
  have envLength : (env ++ [0]).length = envs.length + 1 := by
    rw [List.length_append, strings1.length_eq, List.length_singleton]
  have argLength : (args.length :: argv ++ [0]).length = args.length + 2 := by
    rw [List.length_append, List.length_cons, strings2.length_eq, List.length_singleton]
  obtain ⟨ends3, pushed3⟩ := pushWords_pushed (env ++ [0]) rsp2 (by omega)
  have words3 := pushWords_stored (env ++ [0]) rsp2 (by omega)
  generalize pushWords (env ++ [0]) rsp2 = third at *
  obtain ⟨rsp3, envWords⟩ := third
  dsimp only at ends3 pushed3 words3 shape
  obtain ⟨ends4, pushed4⟩ :=
    pushWords_pushed (args.length :: argv ++ [0]) rsp3 (by omega)
  have words4 := pushWords_stored (args.length :: argv ++ [0]) rsp3 (by omega)
  generalize pushWords (args.length :: argv ++ [0]) rsp3 = fourth at *
  obtain ⟨rsp4, argWords⟩ := fourth
  dsimp only at ends4 pushed4 words4 shape
  constructor
  case ends =>
    rw [shape]
    unfold stackWords
    dsimp only
    omega
  case pushed =>
    rw [shape]
    exact ((pushed1.trans pushed2).trans pushed3).trans pushed4
  case bounds =>
    unfold stackWords
    rintro v (inArgv | inEnv)
    · have bounds := bounds2 v inArgv
      omega
    · have bounds := bounds1 v inEnv
      omega
  case argStrings =>
    rw [shape]
    apply strings2.imp
    intro v str stored store member
    simp [stored member]
  case envStrings =>
    rw [shape]
    apply strings1.imp
    intro v str stored store member
    simp [stored member]
  case argWords =>
    rw [shape]
    intro i w found store member
    simp [words4 i w found member]
  case envWords =>
    rw [shape]
    intro i w found store member
    have place : rsp4 + 8 * (args.length + 2) = rsp3 := by omega
    dsimp only at member
    rw [place] at member
    simp [words3 i w found member]

theorem stackOf_layout (envs args : List (List Byte)) (rsp : Nat)
    (room : 8 * stackWords envs args ≤ rsp) :
    ∃ argv env, StackLayout envs args rsp argv env :=
  ⟨_, _, stackOf_pushed envs args rsp room⟩

/-! ## Through memory -/

variable {argv env : List Nat}

/-- A byte stored on the stack is there when all stores have been made. -/
theorem Pushed.byteAt (pushed : Pushed rsp stores rsp') (own : m.Private use ts.pml4e)
    (low : rsp ≤ 2 ^ 47) (ran : pokes ts m stores = some m') (member : (v, b) ∈ stores) :
    m'.byteAt ts.pml4e v = some b := by
  have small {store : Nat × Byte} (member : store ∈ stores) : store.1 < 2 ^ 47 :=
    (pushed.inside store member).2.trans_le low
  apply own.pokes_byte (fun store member => user_of_small (small member))
    (user_of_small (small member)) ran
  · intro store there same
    exact pushed.single store there (v, b) member (sameByte_small (small there) (small member) same)
  · exact Or.inr ⟨(v, b), member, .refl _, rfl⟩

theorem Pushed.wordAt (pushed : Pushed rsp stores rsp') (own : m.Private use ts.pml4e)
    (low : rsp ≤ 2 ^ 47) (ran : pokes ts m stores = some m') (stored : storeWord v w ⊆ stores) :
    m'.WordAt ts.pml4e v w := by
  intro k below
  apply pushed.byteAt own low ran
  exact stored (List.mem_map.mpr ⟨k, List.mem_range.mpr below, rfl⟩)

theorem Pushed.stringAt (pushed : Pushed rsp stores rsp') (own : m.Private use ts.pml4e)
    (low : rsp ≤ 2 ^ 47) (ran : pokes ts m stores = some m') (stored : storeString v str ⊆ stores) :
    m'.StringAt ts.pml4e v str := by
  intro k below
  apply pushed.byteAt own low ran
  exact stored (List.mem_map.mpr ⟨k, List.mem_range.mpr (Nat.lt_succ_of_le below), rfl⟩)

/-- The count that `_start` reads. -/
theorem StackLayout.argc (layout : StackLayout envs args rsp argv env)
    (own : m.Private use ts.pml4e) (low : rsp ≤ 2 ^ 47) (few : args.length < 2 ^ 31)
    (ran : pokes ts m (stackOf envs args rsp).2 = some m') :
    ∃ low, m'.readBytes ts.pml4e 4 (stackOf envs args rsp).1 = some low ∧
      (BitVec.ofNat 32 low).toInt = args.length := by
  have word := layout.pushed.wordAt own low ran (layout.argWords 0 args.length rfl)
  refine ⟨args.length % 256 ^ 4, readBytes_of_bytes fun k below => word k (by omega), ?_⟩
  have value : args.length % 256 ^ 4 = args.length := Nat.mod_eq_of_lt (by omega)
  rw [value, BitVec.toInt_eq_toNat_cond, BitVec.toNat_ofNat]
  have small : args.length % 2 ^ 32 = args.length := Nat.mod_eq_of_lt (by omega)
  rw [small, if_pos (by omega)]

/-- What `_start` hands to `main`, where its arrays are large enough. -/
theorem StackLayout.start (layout : StackLayout envs args rsp argv env)
    (own : m.Private use ts.pml4e) (low : rsp ≤ 2 ^ 47) (room : 8 * stackWords envs args < rsp)
    (few : args.length ≤ 20) (fewE : envs.length ≤ 100)
    (ran : pokes ts m (stackOf envs args rsp).2 = some m') :
    m'.start ts.pml4e (stackOf envs args rsp).1 = some ((args.length : Int), argv, env) := by
  obtain ⟨bytes, read, argc⟩ := layout.argc own low (by omega) ran
  have small {v : Nat} (member : v ∈ argv ∨ v ∈ env) : 0 < v ∧ v < 2 ^ 64 := by
    have bounds := layout.bounds v member
    omega
  have lengthA := layout.argStrings.length_eq
  have lengthE := layout.envStrings.length_eq
  have words : m'.readArgs ts.pml4e args.length ((stackOf envs args rsp).1 + 8) = some argv := by
    unfold readArgs
    rw [if_pos (by omega), Int.toNat_natCast, ← lengthA]
    apply readWords_of_words fun w member => (small (Or.inl member)).2
    intro i w found
    have inside := (List.getElem?_eq_some_iff.mp found).1
    have word := layout.pushed.wordAt own low ran (layout.argWords (i + 1) w (by
      rw [List.cons_append, List.getElem?_cons_succ, List.getElem?_append_left inside]
      exact found))
    rw [Nat.mul_succ, Nat.add_comm (8 * i), ← Nat.add_assoc] at word
    exact word
  have rest : m'.readEnv ts.pml4e 100 ((stackOf envs args rsp).1 + 8 + 8 * args.length + 8) = some env := by
    apply readEnv_of_words (by omega) fun w member => small (Or.inr member)
    intro i w found
    have word := layout.pushed.wordAt own low ran (layout.envWords i w found)
    have place : (stackOf envs args rsp).1 + 8 + 8 * args.length + 8 + 8 * i =
        (stackOf envs args rsp).1 + 8 * (args.length + 2) + 8 * i := by omega
    rw [place]
    exact word
  unfold Machine.start
  simp [read, argc, words, rest]

/-- `_start` does not get through with more arguments than `argv` has slots. -/
theorem StackLayout.few (layout : StackLayout envs args rsp argv env)
    (own : m.Private use ts.pml4e) (low : rsp ≤ 2 ^ 47) (small : args.length < 2 ^ 31)
    (ran : pokes ts m (stackOf envs args rsp).2 = some m') {argc : Int} {argv' env' : List Nat}
    (started : m'.start ts.pml4e (stackOf envs args rsp).1 = some (argc, argv', env')) :
    argc = args.length ∧ args.length ≤ 20 := by
  obtain ⟨bytes, read, count⟩ := layout.argc own low small ran
  unfold Machine.start at started
  rw [read] at started
  obtain ⟨_, same, started⟩ := Option.bind_eq_some_iff.mp started
  cases same
  obtain ⟨_, filled, started⟩ := Option.bind_eq_some_iff.mp started
  obtain ⟨_, _, started⟩ := Option.bind_eq_some_iff.mp started
  cases started
  rw [count] at filled
  unfold readArgs at filled
  split at filled
  next fits => exact ⟨count, by omega⟩
  next => cases filled

end LateOS
