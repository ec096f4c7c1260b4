import LateOS.Memory.Fault
import LateOS.Process.Kernel

/-!
# Program images

The loaders of `sys/process.c`, the stack that a new program starts with, and the parts of
`createNewTask`, `copytask`, `execvpe`, `malloc` and `removeProcess` that work on memory. A
task is passed in and returned as its `taskStruct`.
-/
namespace LateOS

open Lib

/-- `Elf64_Phdr`. -/
structure Phdr where
  p_type : Nat
  p_offset : Nat
  p_vaddr : Nat
  p_filesz : Nat
  p_memsz : Nat

/-- A program file in the archive: the header fields that are read, the program headers in
the order of the file, and the bytes of kernel memory from the start of the file on. -/
structure Elf where
  e_entry : Nat
  phdrs : List Phdr
  content : Nat → Option Byte

/-- `from` of the heap's VMA. -/
abbrev heapS : Nat := 0x4B0FFFFF0000

/-- `toend` of the stack's VMA. -/
abbrev stackEnd : Nat := 0x100FFEFF0000

/-! ## Kernel writes to user pages -/

namespace Machine

variable (m : Machine) (pml4e : Word)

/-- `while (k < last) { … k += pageSize; }` over the pages from `k` on. -/
def mapPages (k last : Nat) : Option Machine :=
  loop ((last - k + 4095) / 4096) (fun i m => do
    let (yy, m) ← m.getFreeFrame
    m.initTaskPagetables (k + 4096 * i) yy pml4e) m

def memcpy (dest : Nat) (src : Nat → Option Byte) (n : Nat) : Option Machine :=
  loop n (fun k m => do
    let b ← src k
    m.storeByte pml4e (dest + k) b) m

def memset (s : Nat) (c : Byte) (n : Nat) : Option Machine :=
  loop n (fun k m => m.storeByte pml4e (s + k) c) m

end Machine

/-- Bytes with the addresses they are stored at, in order. -/
abbrev Stores := List (Nat × Byte)

/-- A store of the kernel for `ts`, which is the current task: a page that is missing
faults. -/
def poke (ts : TaskStruct) (m : Machine) (store : Nat × Byte) : Option Machine :=
  match m.storeByte ts.pml4e store.1 store.2 with
  | some m => some m
  | none =>
    -- The handler returns to the instruction, which is run again.
    match m.isr14 ts store.1 with
    | some (.resumed m) => m.storeByte ts.pml4e store.1 store.2
    | _ => none

def pokes (ts : TaskStruct) : Machine → Stores → Option Machine
  | m, [] => some m
  | m, store :: rest => (poke ts m store).bind fun m => pokes ts m rest

/-! ## Segments -/

/-- The VMA of a segment and the first page to map. Nothing sets or reads `offset`. -/
def setupVMA (ep : Phdr) : VmaStruct × Nat :=
  ({ beginAddress := ep.p_vaddr, lastAddress := (ep.p_vaddr + ep.p_memsz) % 2 ^ 64, offset := 0 },
    if ep.p_vaddr % 4096 ≠ 0 then pageOf ep.p_vaddr else ep.p_vaddr)

/-- The body of the loops of `readELFandFork` and `readELFandExec` for a PT_LOAD header.
`eh + ep->p_offset` counts in units of `sizeof(Elf64_Ehdr)`. -/
def loadSegment (file : Elf) (ep : Phdr) (ts : TaskStruct) (m : Machine) :
    Option (TaskStruct × Machine) := do
  let (_, m) ← m.kmalloc 32
  let (vm, k) := setupVMA ep
  let ts := { ts with vm := vm :: ts.vm }
  let m ← m.mapPages ts.pml4e k vm.lastAddress
  -- The kernel copies through the tables of the task, into the frames that are mapped there now.
  let m ← m.memcpy ts.pml4e vm.beginAddress (fun j => file.content (64 * ep.p_offset + j)) ep.p_filesz
  let m ← m.memset ts.pml4e (vm.beginAddress + ep.p_filesz) 0
    ((ep.p_memsz + 2 ^ 64 - ep.p_filesz) % 2 ^ 64)
  some (ts, m)

def loadSegments (file : Elf) : List Phdr → TaskStruct → Machine → Option (TaskStruct × Machine)
  | [], ts, m => some (ts, m)
  | ep :: rest, ts, m =>
    if ep.p_type ≠ 1 then loadSegments file rest ts m
    else do
      let (ts, m) ← loadSegment file ep ts m
      loadSegments file rest ts m

/-- The loops go from the last program header to the first. -/
def readELFandFork (file : Elf) (ts : TaskStruct) (m : Machine) : Option (TaskStruct × Machine) := do
  let (pml4, m) ← m.getNewPage
  let m := m.zero pml4
  loadSegments file file.phdrs.reverse { ts with pml4e := pml4, rip := file.e_entry } m

def readELFandExec (file : Elf) (ts : TaskStruct) (m : Machine) : Option (TaskStruct × Machine) := do
  -- The tables are cleared and the VMA list is left as it is.
  let m ← m.deallocTask ts.pml4e
  loadSegments file file.phdrs.reverse { ts with rip := file.e_entry } m

/-! ## Further VMAs -/

/-- A VMA in front of the list. -/
def pushVMA (ts : TaskStruct) (first toend : Nat) (m : Machine) : Option (TaskStruct × Machine) := do
  let (_, m) ← m.kmalloc 32
  some ({ ts with vm := { beginAddress := first, lastAddress := toend, offset := 0 } :: ts.vm }, m)

def setMyVMA := pushVMA

def shiftTaskVMA := pushVMA

def setNewVMA (ts : TaskStruct) (first toend : Nat) (m : Machine) :
    Option (TaskStruct × Machine) := do
  let (physical, m) ← m.getFreeFrame
  let m ← m.initTaskPagetables first physical ts.pml4e
  pushVMA { ts with ustack := first, rsp := first + 510 * 8 } first toend m

/-! ## The first stack -/

def storeWord (v w : Nat) : Stores :=
  (List.range 8).map fun k => (v + k, BitVec.ofNat 8 (w / 256 ^ k))

/-- A string is stored with its terminator. -/
def storeString (v : Nat) (str : List Byte) : Stores :=
  (List.range (str.length + 1)).map fun k => (v + k, str.getD k 0)

/-- The loops that store `envs` and `args`, last string first. `rsp` is a pointer to words, so
a string of `l` bytes is given `l` words. The addresses are in the order of the strings. -/
def pushStrings : List (List Byte) → Nat → List Nat × Nat × Stores
  | [], rsp => ([], rsp, [])
  | str :: rest, rsp =>
    let (temp, rsp, stores) := pushStrings rest rsp
    let rsp := rsp - 8 * (str.length + 1)
    (rsp :: temp, rsp, stores ++ storeString rsp str)

/-- Words pushed from the last to the first. -/
def pushWords : List Nat → Nat → Nat × Stores
  | [], rsp => (rsp, [])
  | w :: rest, rsp =>
    let (rsp, stores) := pushWords rest rsp
    (rsp - 8, stores ++ storeWord (rsp - 8) w)

/-- The stack of `setRSPandExec`: where it ends, and what is stored. -/
def stackOf (envs args : List (List Byte)) (rsp : Nat) : Nat × Stores :=
  let (temp1, rsp, envStores) := pushStrings envs rsp
  let (temp, rsp, argStores) := pushStrings args rsp
  let (rsp, envWords) := pushWords (temp1 ++ [0]) rsp
  let (rsp, argWords) := pushWords (args.length :: temp ++ [0]) rsp
  (rsp, envStores ++ argStores ++ envWords ++ argWords)

def setRSPandExec (ts : TaskStruct) (envs args : List (List Byte)) (m : Machine) :
    Option (TaskStruct × Machine) := do
  let (rsp, stores) := stackOf envs args ts.rsp
  let m ← pokes ts m stores
  some ({ ts with rsp := rsp }, m)

/-- The word at index 2 is the address of the word above it. -/
def setTaskRSP (name : List Byte) (ts : TaskStruct) (m : Machine) : Option (TaskStruct × Machine) := do
  let rsp := ts.rsp - 8 * (name.length + 1)
  -- From the top down: the name, two zero words, the address of the lower one, and the count.
  let stores := storeString rsp name ++ storeWord (rsp - 8) 0 ++ storeWord (rsp - 16) 0 ++
    storeWord (rsp - 24) (rsp - 16) ++ storeWord (rsp - 32) 1
  let m ← stores.foldlM (fun m store => m.storeByte ts.pml4e store.1 store.2) m
  some ({ ts with rsp := rsp - 32 }, m)

/-! ## Calls -/

/-- `createNewTask` from the loader on. -/
def createNewTask (file : Elf) (ts : TaskStruct) (m : Machine) : Option (TaskStruct × Machine) := do
  let (ts, m) ← readELFandFork file ts m
  let (ts, m) ← setMyVMA ts heapS heapS m
  let (physical, m) ← m.getFreeFrame
  let m ← m.initTaskPagetables stackS physical ts.pml4e
  let ts := { ts with ustack := stackS, rsp := stackS + 510 * 8 }
  let (ts, m) ← setMyVMA ts stackS stackEnd m
  setTaskRSP (ts.name.map UInt8.toBitVec) ts m

/-- `execvpe` from the loader on, with the strings it has copied. -/
def execImage (file : Elf) (envs args : List (List Byte)) (ts : TaskStruct) (m : Machine) :
    Option (TaskStruct × Machine) := do
  let (ts, m) ← readELFandExec file ts m
  let (ts, m) ← shiftTaskVMA ts heapS heapS m
  let (ts, m) ← setNewVMA ts stackS stackEnd m
  setRSPandExec ts envs args m

/-- The page tables of `copytask`, and the node that `copyVMA` takes for each VMA. -/
def copySpace (current : TaskStruct) (m : Machine) : Option (Word × Machine) := do
  let (pml4, m) ← m.getNewPage
  let m ← (m.zero pml4).copytables current.pml4e pml4
  let m ← loop current.vm.length (fun _ m => (m.kmalloc 32).map Prod.snd) m
  some (pml4, m)

/-- The second VMA is taken for the heap's; its old end is returned. -/
def malloc (current : TaskStruct) (no_of_bytes : Int) (m : Machine) :
    Option (Nat × TaskStruct × Machine) :=
  match current.vm with
  | first :: vm :: rest => do
    let (vm', m) ← loop (no_of_bytes.tdiv 4096 + 1).toNat (fun _ (vm, m) => do
      let (s_add, m) ← m.getFreeFrame
      let m ← m.initTaskPagetables vm.lastAddress s_add current.pml4e
      some ({ vm with lastAddress := vm.lastAddress + 4096 }, m)) (vm, m)
    some (vm.lastAddress, { current with vm := first :: vm' :: rest }, m)
  | _ => none

end LateOS
