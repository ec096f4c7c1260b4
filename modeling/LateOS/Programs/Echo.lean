import LateOS.Memory.RoundTrip
import LateOS.Strings.Copies

/-!
# echo

The program `echo`, which puts a space behind each of its arguments where they lie on its first
stack. `setRSPandExec` takes a word of the stack for each byte of a string, and so each argument
has room behind it.
-/
namespace LateOS

open Lib Machine

/-- The memory of a program, with zeros where it has none. -/
def Machine.seen (m : Machine) (r : Word) : Bytes := fun v =>
  ((m.byteAt r v).map UInt8.ofBitVec).getD 0

/-- The characters of a string. -/
def characters (str : List Byte) : List UInt8 := str.map UInt8.ofBitVec

/-- An array of pointers. -/
def arrayAt (pointers : List Nat) (i : Nat) : Nat := pointers.getD i 0

@[simp] theorem characters_length (str : List Byte) : (characters str).length = str.length :=
  List.length_map _

namespace EchoProgram

/-- `Usage : echo <type-something>` and a newline. -/
def usage : List UInt8 :=
  [85, 115, 97, 103, 101, 32, 58, 32, 101, 99, 104, 111, 32, 60, 116, 121, 112, 101, 45, 115, 111,
    109, 101, 116, 104, 105, 110, 103, 62, 10]

def validateARGS (str : Nat) : List (List UInt8) × Int := if str = 0 then ([usage], -1) else ([], 0)

/-- The loop of `printEmAll`, by the strings that it gives to `puts`; `space` is where the literal
with the space lies. -/
def printLoop (fuel space : Nat) (argv : Nat → Nat) :
    Nat → Nat → Bytes → Option (List (List UInt8) × Bytes)
  | 0, _, mem => some ([], mem)
  | rounds + 1, index, mem => do
    let (mem, _) ← Strings.strcat fuel mem (argv index) space
    let said ← Strings.puts fuel mem (argv index)
    let (rest, mem) ← printLoop fuel space argv rounds (index + 1) mem
    some (said :: rest, mem)

def printEmAll (fuel space : Nat) (mem : Bytes) (argc : Int) (argv : Nat → Nat) :
    Option (List (List UInt8) × Bytes) := do
  let (said, mem) ← printLoop fuel space argv (argc - 1).toNat 1 mem
  some (said ++ [[10]], mem)

def main (fuel space : Nat) (mem : Bytes) (argc : Int) (argv : Nat → Nat) :
    Option (List (List UInt8) × Int × Bytes) := do
  let (said, valid) := validateARGS (argv 1)
  if valid = -1 then some (said, -1, mem)
  else
    let (said, mem) ← printEmAll fuel space mem argc argv
    some (said, 0, mem)

end EchoProgram

/-! ## Room behind the strings -/

section

variable {m m' : Machine} {use : Word → Use} {ts ts' : TaskStruct} {r : Word}
  {mem : Bytes} {a v rsp fuel space index : Nat} {argc : Int} {str : List Byte} {s : List UInt8}
  {strs envs args : List (List Byte)} {argv env : List Nat} {pointers : Nat → Nat}

/-- Strings with `n` cells for each character and the terminator, one behind the other. -/
def Roomy {α : Type} (n : Nat) (places : List (Nat × List α)) : Prop :=
  places.Pairwise fun x y => x.1 + n * (x.2.length + 1) ≤ y.1

theorem pushStrings_roomy (strs : List (List Byte)) (rsp : Nat)
    (room : 8 * stringWords strs ≤ rsp) :
    Roomy 8 ((pushStrings strs rsp).1.zip strs) ∧ ∀ x ∈ (pushStrings strs rsp).1.zip strs,
      (pushStrings strs rsp).2.1 ≤ x.1 ∧ x.1 + 8 * (x.2.length + 1) ≤ rsp := by
  induction strs with
  | nil => exact ⟨.nil, nofun⟩
  | cons str rest ih =>
    have size : stringWords (str :: rest) = str.length + 1 + stringWords rest := rfl
    obtain ⟨roomy, inside⟩ := ih (by omega)
    have ends := (pushStrings_pushed rest rsp (by omega)).1
    have place : (pushStrings (str :: rest) rsp).2.1 =
        (pushStrings rest rsp).2.1 - 8 * (str.length + 1) := rfl
    have shape : (pushStrings (str :: rest) rsp).1.zip (str :: rest) =
        ((pushStrings (str :: rest) rsp).2.1, str) :: (pushStrings rest rsp).1.zip rest := rfl
    rw [shape]
    refine ⟨List.pairwise_cons.mpr ⟨fun x member => ?_, roomy⟩, fun x member => ?_⟩
    · have above := (inside x member).1
      dsimp only
      omega
    · rcases List.mem_cons.mp member with rfl | member
      · dsimp only
        omega
      · have bounds := inside x member
        omega

/-- The arguments and the environment, from the stack pointer up. -/
theorem stack_roomy (envs args : List (List Byte)) (rsp : Nat)
    (room : 8 * stackWords envs args ≤ rsp) :
    let env := (pushStrings envs rsp).1
    let argv := (pushStrings args (pushStrings envs rsp).2.1).1
    Roomy 8 (argv.zip args ++ env.zip envs) ∧ ∀ x ∈ argv.zip args ++ env.zip envs,
      (stackOf envs args rsp).1 ≤ x.1 ∧ x.1 + 8 * (x.2.length + 1) ≤ rsp := by
  have layout := stackOf_pushed envs args rsp room
  have ends := layout.ends
  unfold stackWords at room ends
  have ends1 := (pushStrings_pushed envs rsp (by omega)).1
  obtain ⟨roomy1, inside1⟩ := pushStrings_roomy envs rsp (by omega)
  have ends2 := (pushStrings_pushed args (pushStrings envs rsp).2.1 (by omega)).1
  obtain ⟨roomy2, inside2⟩ := pushStrings_roomy args (pushStrings envs rsp).2.1 (by omega)
  refine ⟨List.pairwise_append.mpr ⟨roomy2, roomy1, fun x lower y upper => ?_⟩, fun x member => ?_⟩
  · have below := (inside2 x lower).2
    have above := (inside1 y upper).1
    omega
  · rcases List.mem_append.mp member with arg | env
    · have bounds := inside2 x arg
      omega
    · have bounds := inside1 x env
      omega

/-! ## The loop -/

/-- Where each argument has room for the space, each one gets it, and nothing else is changed. -/
theorem printLoop_eq {places : List (Nat × List UInt8)}
    (pointed : ∀ i x, places[i]? = some x → pointers (index + i) = x.1)
    (held : ∀ x ∈ places, StringAt mem x.1 x.2)
    (apart : places.Pairwise fun x y => x.1 + x.2.length + 2 ≤ y.1)
    (blank : StringAt mem space [32])
    (outside : ∀ x ∈ places, space + 2 ≤ x.1 ∨ x.1 + x.2.length + 2 ≤ space)
    (enough : ∀ x ∈ places, x.2.length + 2 ≤ fuel) :
    ∃ mem', EchoProgram.printLoop fuel space pointers places.length index mem =
        some (places.map fun x => x.2 ++ [32], mem') ∧
      (∀ x ∈ places, StringAt mem' x.1 (x.2 ++ [32])) ∧
      ∀ a, (∀ x ∈ places, a < x.1 + x.2.length ∨ x.1 + x.2.length + 2 ≤ a) → mem' a = mem a := by
  induction places generalizing mem index with
  | nil => exact ⟨mem, rfl, nofun, fun _ _ => rfl⟩
  | cons x rest ih =>
    obtain ⟨above, apart⟩ := List.pairwise_cons.mp apart
    have place : pointers index = x.1 := pointed 0 x rfl
    have string := held x List.mem_cons_self
    have free := outside x List.mem_cons_self
    have fuel_ := enough x List.mem_cons_self
    -- One round: the space is appended, and the argument is written.
    have appended : Strings.strcat fuel mem x.1 space =
        some (overlay mem (x.1 + x.2.length) ([32] ++ [0]), x.1 + x.2.length + 1) :=
      Strings.strcat_apart string blank (by simp only [List.length_singleton]; omega)
        (by omega) (by simp only [List.length_singleton]; omega)
    obtain ⟨mem1, same⟩ : ∃ mem1, mem1 = overlay mem (x.1 + x.2.length) ([32] ++ [0]) := ⟨_, rfl⟩
    have kept {a : Nat} (other : a < x.1 + x.2.length ∨ x.1 + x.2.length + 2 ≤ a) :
        mem1 a = mem a := by
      rw [same]
      exact overlay_outside other
    have longer : StringAt mem1 x.1 (x.2 ++ [32]) := by
      refine Terminated.append string.apart (fun i inside => ?_) ?_
      · rw [kept (.inl (by omega))]
        exact string.cell inside
      · rw [same]
        exact overlay_terminated (by decide)
    have said : Strings.puts fuel mem1 x.1 = some (x.2 ++ [32]) :=
      Strings.puts_eq longer (by rw [List.length_append, List.length_singleton]; omega)
    rw [← same] at appended
    -- The others are where they were.
    have next : ∀ i y, rest[i]? = some y → pointers (index + 1 + i) = y.1 := by
      intro i y found
      rw [Nat.add_assoc, Nat.add_comm 1 i]
      exact pointed (i + 1) y found
    have others : ∀ y ∈ rest, StringAt mem1 y.1 y.2 := by
      intro y member
      refine (held y (List.mem_cons_of_mem _ member)).keep fun i _ => kept (.inr ?_)
      have := above y member
      omega
    have literal : StringAt mem1 space [32] := by
      refine blank.keep fun i inside => kept ?_
      rw [List.length_singleton] at inside
      omega
    obtain ⟨mem', printed, strings, frame⟩ := ih next others apart literal
      (fun y member => outside y (List.mem_cons_of_mem _ member))
      (fun y member => enough y (List.mem_cons_of_mem _ member))
    refine ⟨mem', ?_, fun y member => ?_, fun a other => ?_⟩
    · rw [List.length_cons, EchoProgram.printLoop, place, appended, Option.bind_eq_bind,
        Option.bind_some]
      dsimp only
      rw [said, Option.bind_eq_bind, Option.bind_some, printed]
      rfl
    · rcases List.mem_cons.mp member with rfl | member
      · refine longer.keep fun i inside => frame _ fun z later => .inl ?_
        have := above z later
        rw [List.length_append, List.length_singleton] at inside
        omega
      · exact strings y member
    · rw [frame a fun y member => other y (List.mem_cons_of_mem _ member)]
      exact kept (other x List.mem_cons_self)

/-! ## What is seen of the first stack -/

theorem seen_string (here : m.StringAt r v str) (string : 0 ∉ str) :
    LateOS.StringAt (m.seen r) v (characters str) := by
  have char (k : Nat) (below : k ≤ str.length) :
      m.seen r (v + k) = UInt8.ofBitVec (str.getD k 0) := by
    unfold Machine.seen
    rw [here k below]
    rfl
  refine .of_cells (fun zero => ?_) (fun k inside => ?_) ?_
  · obtain ⟨b, member, same⟩ := List.mem_map.mp zero
    have : b = 0 := congrArg UInt8.toBitVec same
    exact string (this ▸ member)
  · have below : k < str.length := by simpa [characters] using inside
    rw [char k (Nat.le_of_lt below), List.getD_eq_getElem _ _ below]
    simp [characters]
  · rw [characters_length, char _ (Nat.le_refl _), List.getD_eq_default _ _ (Nat.le_refl _)]
    rfl

/-! ## From the exec to the screen -/

theorem arrayAt_filled {n i p : Nat} {filled : List Nat} (found : filled[i]? = some p) :
    arrayAt (staticArray n filled) i = p := by
  obtain ⟨inside, rfl⟩ := List.getElem?_eq_some_iff.mp found
  unfold arrayAt staticArray
  rw [List.getD_append _ _ _ _ inside, List.getD_eq_getElem _ _ inside]

theorem arrayAt_null {n i : Nat} {filled : List Nat} (behind : filled.length ≤ i) :
    arrayAt (staticArray n filled) i = 0 := by
  unfold arrayAt staticArray
  rw [List.getD_append_right _ _ _ _ behind, List.getD_eq_getElem?_getD, List.getElem?_replicate]
  split <;> rfl

/-- Without an argument behind the name of the program, `argv[1]` is NULL. -/
theorem main_usage {pointers : Nat → Nat} (null : pointers 1 = 0) :
    EchoProgram.main fuel space mem argc pointers = some ([EchoProgram.usage], -1, mem) := by
  rw [EchoProgram.main, EchoProgram.validateARGS, if_pos null]
  rfl

/-- The strings of a new program as it sees them, between its stack pointer and `top`. -/
structure FirstStack (mem : Bytes) (rsp top : Nat) (argv env : List Nat)
    (args envs : List (List Byte)) : Prop where
  lengthA : argv.length = args.length
  lengthE : env.length = envs.length
  positive : ∀ v ∈ argv, v ≠ 0
  strings : ∀ x ∈ argv.zip args ++ env.zip envs, StringAt mem x.1 (characters x.2)
  roomy : Roomy 8 (argv.zip args ++ env.zip envs)
  inside : ∀ x ∈ argv.zip args ++ env.zip envs, rsp ≤ x.1 ∧ x.1 + 8 * (x.2.length + 1) ≤ top

theorem setRSPandExec_firstStack (own : m.Private use ts.pml4e) (top : ts.rsp = stackS + 510 * 8)
    (few : args.length ≤ 19) (fewE : envs.length ≤ 99) (strings : CStrings args)
    (stringsE : CStrings envs) (ran : setRSPandExec ts envs args m = some (ts', m'))
    (started : m'.start ts'.pml4e ts'.rsp = some (argc, argv, env)) :
    argc = args.length ∧ FirstStack (m'.seen ts'.pml4e) ts'.rsp ts.rsp argv env args envs := by
  have value := stackS_eq
  have words := stackWords_few few fewE strings stringsE
  have layout := stackOf_pushed envs args ts.rsp (by omega)
  obtain ⟨roomy, inside⟩ := stack_roomy envs args ts.rsp (by omega)
  rw [setRSPandExec_eq] at ran
  obtain ⟨m1, stored, same⟩ := Option.bind_eq_some_iff.mp ran
  cases same
  have low : ts.rsp ≤ 2 ^ 47 := by
    rw [top]
    decide
  have given := layout.start own low (by omega) (by omega) (by omega) stored
  rw [given] at started
  cases started
  refine ⟨rfl, layout.argStrings.length_eq, layout.envStrings.length_eq, fun v member => ?_,
    fun x member => ?_, roomy, inside⟩
  · have bounds := layout.bounds v (.inl member)
    omega
  · rcases List.mem_append.mp member with arg | env
    · have here := layout.pushed.stringAt own low stored
        ((List.forall₂_iff_zip.mp layout.argStrings).2 arg)
      exact seen_string here (strings x.2 (List.of_mem_zip arg).2).2
    · have here := layout.pushed.stringAt own low stored
        ((List.forall₂_iff_zip.mp layout.envStrings).2 env)
      exact seen_string here (stringsE x.2 (List.of_mem_zip env).2).2

namespace FirstStack

variable {low top : Nat}

/-- The arguments that the loop goes through. -/
def echoed (argv : List Nat) (args : List (List Byte)) : List (Nat × List UInt8) :=
  (argv.zip args).tail.map fun x => (x.1, characters x.2)

theorem mem_echoed {x : Nat × List UInt8} (member : x ∈ echoed argv args) :
    ∃ y ∈ argv.zip args, x = (y.1, characters y.2) := by
  obtain ⟨y, here, rfl⟩ := List.mem_map.mp member
  exact ⟨y, List.mem_of_mem_tail here, rfl⟩

theorem echoed_pointed (i : Nat) (x : Nat × List UInt8) (found : (echoed argv args)[i]? = some x) :
    arrayAt (staticArray 20 argv) (1 + i) = x.1 := by
  rw [echoed, List.getElem?_map, List.getElem?_tail] at found
  obtain ⟨y, here, rfl⟩ := Option.map_eq_some_iff.mp found
  rw [Nat.add_comm]
  exact arrayAt_filled (List.getElem?_zip_eq_some.mp here).1

theorem echoed_strings (lengths : argv.length = args.length) :
    (echoed argv args).map (fun x => x.2 ++ [32]) =
      args.tail.map fun str => characters str ++ [32] := by
  have whole : (argv.zip args).map Prod.snd = args := List.map_snd_zip (by omega)
  have others : args.tail = (argv.zip args).tail.map Prod.snd := by
    rw [List.map_tail, whole]
  rw [echoed, others, List.map_map, List.map_map]
  rfl

/-- The loop, with the eight cells for each character that `setRSPandExec` has taken. -/
theorem printLoop (stack : FirstStack mem low top argv env args envs) (strings : CStrings args)
    (blank : StringAt mem space [32]) (apart : space + 2 ≤ low ∨ top ≤ space)
    (enough : 101 ≤ fuel) :
    ∃ mem', EchoProgram.printLoop fuel space (arrayAt (staticArray 20 argv)) (args.length - 1) 1 mem =
        some (args.tail.map fun str => characters str ++ [32], mem') ∧
      (∀ x ∈ env.zip envs, StringAt mem' x.1 (characters x.2)) ∧
      ∀ a, a < low ∨ top ≤ a → mem' a = mem a := by
  obtain ⟨spaced, -, across⟩ := List.pairwise_append.mp stack.roomy
  have held : ∀ x ∈ echoed argv args, StringAt mem x.1 x.2 := by
    intro x member
    obtain ⟨y, here, rfl⟩ := mem_echoed member
    exact stack.strings y (List.mem_append_left _ here)
  have roomy : (echoed argv args).Pairwise fun x y => x.1 + x.2.length + 2 ≤ y.1 := by
    refine List.pairwise_map.mpr (spaced.tail.imp fun {x y} above => ?_)
    rw [characters_length]
    omega
  have bounds {x : Nat × List UInt8} (member : x ∈ echoed argv args) :
      low ≤ x.1 ∧ x.1 + x.2.length + 2 ≤ top := by
    obtain ⟨y, here, rfl⟩ := mem_echoed member
    have bounds := stack.inside y (List.mem_append_left _ here)
    rw [characters_length]
    omega
  have fits : ∀ x ∈ echoed argv args, x.2.length + 2 ≤ fuel := by
    intro x member
    obtain ⟨y, here, rfl⟩ := mem_echoed member
    have short := (strings y.2 (List.of_mem_zip here).2).1
    rw [characters_length]
    omega
  obtain ⟨mem', printed, -, frame⟩ := printLoop_eq echoed_pointed held roomy blank
    (fun x member => by have := bounds member; omega) fits
  have rounds : (echoed argv args).length = args.length - 1 := by
    simp [echoed, stack.lengthA]
  rw [rounds, echoed_strings stack.lengthA] at printed
  refine ⟨mem', printed, fun x member => ?_, fun a other => frame a fun x here => ?_⟩
  · -- The environment lies behind the room of the last argument.
    refine (stack.strings x (List.mem_append_right _ member)).keep fun i _ => frame _ fun y loop => ?_
    obtain ⟨z, here, rfl⟩ := mem_echoed loop
    have above := across z here x member
    rw [characters_length]
    omega
  · have := bounds here
    omega

end FirstStack

/-- Whatever arguments and environment a program is given, `echo` prints each argument with a space
behind it, and puts nothing on the stack on anything else: the environment stays what it is. -/
theorem echo_prints (own : m.Private use ts.pml4e) (top : ts.rsp = stackS + 510 * 8)
    (few : args.length ≤ 19) (fewE : envs.length ≤ 99) (strings : CStrings args)
    (stringsE : CStrings envs) (ran : setRSPandExec ts envs args m = some (ts', m'))
    (started : m'.start ts'.pml4e ts'.rsp = some (argc, argv, env))
    (blank : StringAt (m'.seen ts'.pml4e) space [32])
    (apart : space + 2 ≤ ts'.rsp ∨ ts.rsp ≤ space) (enough : 101 ≤ fuel) :
    ∃ mem' valid, EchoProgram.main fuel space (m'.seen ts'.pml4e) argc
        (arrayAt (staticArray 20 argv)) =
          some (if args.length < 2 then [EchoProgram.usage]
            else args.tail.map (fun str => characters str ++ [32]) ++ [[10]], valid, mem') ∧
      (∀ x ∈ env.zip envs, StringAt mem' x.1 (characters x.2)) ∧
      ∀ a, a < ts'.rsp ∨ ts.rsp ≤ a → mem' a = m'.seen ts'.pml4e a := by
  obtain ⟨rfl, stack⟩ :=
    setRSPandExec_firstStack own top few fewE strings stringsE ran started
  have lengths := stack.lengthA
  by_cases single : args.length < 2
  · rw [if_pos single]
    exact ⟨_, _, main_usage (arrayAt_null (by omega)),
      fun x member => stack.strings x (List.mem_append_right _ member), fun _ _ => rfl⟩
  · obtain ⟨mem', printed, kept, frame⟩ := stack.printLoop strings blank apart enough
    have first : arrayAt (staticArray 20 argv) 1 ≠ 0 := by
      have here : argv[1]? = some argv[1] := List.getElem?_eq_getElem (by omega)
      rw [arrayAt_filled here]
      exact stack.positive _ (List.getElem_mem _)
    have count : ((args.length : Int) - 1).toNat = args.length - 1 := by omega
    refine ⟨mem', 0, ?_, kept, frame⟩
    simp [EchoProgram.main, EchoProgram.validateARGS, EchoProgram.printEmAll, first, single, count,
      printed]

/-- What lies above the strings stays. -/
theorem setRSPandExec_above (own : m.Private use ts.pml4e) (top : ts.rsp = stackS + 510 * 8)
    (room : 8 * stackWords envs args ≤ ts.rsp)
    (ran : setRSPandExec ts envs args m = some (ts', m')) (above : ts.rsp ≤ v) (small : v < 2 ^ 47)
    {b : Byte} (had : m.byteAt ts.pml4e v = some b) : m'.byteAt ts'.pml4e v = some b := by
  have value := stackS_eq
  have layout := stackOf_pushed envs args ts.rsp room
  rw [setRSPandExec_eq] at ran
  obtain ⟨m1, stored, same⟩ := Option.bind_eq_some_iff.mp ran
  cases same
  have low {store : Nat × Byte} (member : store ∈ (stackOf envs args ts.rsp).2) :
      store.1 < 2 ^ 47 := by
    have bounds := layout.pushed.inside store member
    omega
  refine own.pokes_byte (fun store member => user_of_small (low member)) (user_of_small small)
    stored (fun store member same => ?_) (.inl had)
  have bounds := layout.pushed.inside store member
  have here := sameByte_small (low member) small same
  omega

/-- A space with its terminator, somewhere on the stack. -/
theorem Growable.literal {room : Nat} (growable : Growable room m use ts) (one : InStack room v)
    (two : InStack room (v + 1)) : ∃ m' use', Growable room m' use' ts ∧
      m'.byteAt ts.pml4e v = some 32 ∧ m'.byteAt ts.pml4e (v + 1) = some 0 := by
  obtain ⟨m1, use1, first, growable1⟩ :
      ∃ m1 use1, LateOS.poke ts m (v, 32) = some m1 ∧ Growable room m1 use1 ts :=
    growable.poke one
  obtain ⟨m2, use2, second, growable2⟩ :
      ∃ m2 use2, LateOS.poke ts m1 (v + 1, 0) = some m2 ∧ Growable room m2 use2 ts :=
    growable1.poke two
  have userOne : UserAddress ((v, 32) : Nat × Byte).1 := one.user
  have userTwo : UserAddress ((v + 1, 0) : Nat × Byte).1 := two.user
  obtain ⟨_, -, written⟩ := growable.neat.own.poke_byte userOne first
  obtain ⟨_, -, written'⟩ := growable1.neat.own.poke_byte userTwo second
  have other : ¬SameByte (v + 1) v := fun same =>
    absurd (sameByte_small two.small one.small same) (Nat.succ_ne_self v)
  refine ⟨m2, use2, growable2, ?_, (written' _ two.user).1 ⟨.refl _, rfl⟩⟩
  exact (written' _ one.user).2 other _ ((written _ one.user).1 ⟨.refl _, rfl⟩)

/-- `echo b c`. -/
theorem echo_prints_of_created : ∃ mem space pointers valid mem',
    EchoProgram.main 101 space mem 3 pointers =
      some ([[98, 32], [99, 32], [10]], valid, mem') := by
  obtain ⟨_, enough, _⟩ := created_ready
  obtain ⟨use, sound, root⟩ := created_sound
  obtain ⟨ts, m, use1, growable, top, _⟩ : ∃ ts m use1, Growable 0 m use1 ts ∧
      ts.rsp = stackS + 510 * 8 ∧ _ :=
    sound.execImage_begins root emptyImage_given enough (by decide) [] [[97], [98], [99]]
  obtain ⟨m, use2, growable, one, two⟩ := growable.literal (v := ts.rsp)
    (by rw [top]; exact ⟨by decide, by decide⟩) (by rw [top]; exact ⟨by decide, by decide⟩)
  have strings : CStrings [[97], [98], [99]] := by
    unfold CStrings
    decide
  have none : CStrings [] := nofun
  obtain ⟨back, total⟩ := setRSPandExec_round_trip growable.neat.own top (by decide) (by decide)
    strings none
  obtain ⟨ts', m', ran⟩ := total 0 growable (by decide)
  obtain ⟨argv, env, started, _⟩ := (back ts' m' ran).spaced
  have kept {v : Nat} {b : Byte} (above : ts.rsp ≤ v) (small : v < 2 ^ 47)
      (had : m.byteAt ts.pml4e v = some b) : m'.byteAt ts'.pml4e v = some b :=
    setRSPandExec_above growable.neat.own top (by rw [top]; decide) ran above small had
  have literal : m'.StringAt ts'.pml4e ts.rsp [32] := by
    intro k below
    match k with
    | 0 => exact kept (Nat.le_refl _) (by rw [top]; decide) one
    | 1 => exact kept (Nat.le_succ _) (by rw [top]; decide) two
    | _ + 2 => simp at below
  obtain ⟨mem', valid, printed, _⟩ := echo_prints growable.neat.own top (by decide) (by decide)
    strings none ran started (seen_string literal (by decide)) (.inr (Nat.le_refl _))
      (Nat.le_refl 101)
  exact ⟨_, _, _, valid, mem', printed⟩

end

end LateOS
