import Mathlib.Logic.Function.Basic
import LateOS.Lib.Loop
import LateOS.Lib.Radix
import LateOS.Memory.Entry

/-!
# Paging

Physical memory and the functions of `sys/paging.c` on it. A kernel pointer `kernbase + p`
is modelled as the physical address `p` that the direct map gives it. An empty free list
ends in a NULL dereference, so what needs a frame is fallible.
-/
namespace LateOS

open Lib

/-- Physical memory by frames of 512 words, the free list from `head` on, and the frames of
the kernel tables that the static pointers `pml4e` and `pdpte` map. -/
structure Machine where
  mem : Word → Nat → Word
  head : List Word
  refCount : Word → Nat
  pml4e : Word
  pdpte : Word

namespace Machine

variable (m : Machine)

def write (t : Word) (i : Nat) (e : Word) : Machine :=
  { m with mem := Function.update m.mem t (Function.update (m.mem t) i e) }

/-- `memset(t, 0, pageSize)`. -/
def zero (t : Word) : Machine := { m with mem := Function.update m.mem t fun _ => 0 }

/-- `memcpy` of a whole page. -/
def copyFrame (dest src : Word) : Machine :=
  { m with mem := Function.update m.mem dest (m.mem src) }

def getFreeFrame : Option (Word × Machine) :=
  match m.head with
  | [] => none
  | f :: rest => some (f, { m with head := rest, refCount := Function.update m.refCount f 1 })

/-- Frames are never given back. -/
def free (_ : Word) : Machine := m

/-! ## Kernel mappings -/

/-- A new table, entered in `t` for the kernel alone. -/
def linkKernel (t : Word) (i : Nat) : Option (Word × Machine) := do
  let (table, m) ← m.getFreeFrame
  some (table, m.write t i (entry table 3))

def mapNewFrameNew (virtual : Nat) (physical : Word) : Option Machine := do
  let (pdpte, m) ← m.linkKernel m.pml4e (pml4Index virtual)
  let (pdpe, m) ← m.linkKernel pdpte (pdptIndex virtual)
  let (pte, m) ← m.linkKernel pdpe (pdIndex virtual)
  some (m.write pte (ptIndex virtual) (entry physical 3))

/-- This and the next function go by the static `pdpte`. -/
def mapFreeFrameExistYes (virtual : Nat) (physical : Word) : Option Machine := do
  let (pdpe, m) ← m.linkKernel m.pdpte (pdptIndex virtual)
  let (pte, m) ← m.linkKernel pdpe (pdIndex virtual)
  some (m.write pte (ptIndex virtual) (entry physical 3))

def mapFreeFrameExistNo (virtual : Nat) (physical : Word) : Option Machine :=
  let pdpe := frame (m.mem m.pdpte (pdptIndex virtual))
  if !present (m.mem pdpe (pdIndex virtual)) then do
    let (pte, m) ← m.linkKernel pdpe (pdIndex virtual)
    some (m.write pte (ptIndex virtual) (entry physical 3))
  else
    let pte := frame (m.mem pdpe (pdIndex virtual))
    some (m.write pte (ptIndex virtual) (entry physical 3))

def mapFreeFrameExist (virtual : Nat) (physical : Word) : Option Machine :=
  let pdpte := frame (m.mem m.pml4e (pml4Index virtual))
  if !present (m.mem pdpte (pdptIndex virtual)) then m.mapFreeFrameExistYes virtual physical
  else m.mapFreeFrameExistNo virtual physical

def mapNewFrame (virtual : Nat) (physical : Word) : Option Machine :=
  if !present (m.mem m.pml4e (pml4Index virtual)) then m.mapNewFrameNew virtual physical
  else m.mapFreeFrameExist virtual physical

/-- The answer is the frame behind the kernel address that the source returns. -/
def getNewPage : Option (Word × Machine) := do
  let (newframe, m) ← m.getFreeFrame
  let m ← m.mapNewFrame (kernbase + newframe.toNat) newframe
  some (newframe, m)

/-- `kmalloc`; its callers only ask for less than a page. -/
def kmalloc (size : Nat) : Option (Word × Machine) := do
  let (add, m) ← m.getNewPage
  -- The further pages need not lie behind the first one.
  let m ← loop (size / 4096) (fun _ m => m.getNewPage.map Prod.snd) m
  some (add, m)

/-! ## Task page tables -/

/-- A new table, entered in `t` for user code and cleared. -/
def linkTable (t : Word) (i : Nat) : Option (Word × Machine) := do
  let (table, m) ← m.getFreeFrame
  some (table, (m.write t i (entry table 7)).zero table)

def setNewPagePDPTE (virtual : Nat) (physical pml4 : Word) : Option Machine := do
  let (pdpte, m) ← m.linkTable pml4 (pml4Index virtual)
  let (pdpe, m) ← m.linkTable pdpte (pdptIndex virtual)
  let (pte, m) ← m.linkTable pdpe (pdIndex virtual)
  some (m.write pte (ptIndex virtual) (entry physical 7))

def setNewPagePDPE (virtual : Nat) (physical pdpte : Word) : Option Machine := do
  let (pdpe, m) ← m.linkTable pdpte (pdptIndex virtual)
  let (pte, m) ← m.linkTable pdpe (pdIndex virtual)
  some (m.write pte (ptIndex virtual) (entry physical 7))

def setExistingPagePDPE (virtual : Nat) (physical pdpte : Word) : Option Machine :=
  let pdpe := frame (m.mem pdpte (pdptIndex virtual))
  if !present (m.mem pdpe (pdIndex virtual)) then do
    let (pte, m) ← m.linkTable pdpe (pdIndex virtual)
    some (m.write pte (ptIndex virtual) (entry physical 7))
  else
    let pte := frame (m.mem pdpe (pdIndex virtual))
    some (m.write pte (ptIndex virtual) (entry physical 7))

def setExistingPagePDPTE (virtual : Nat) (physical pml4 : Word) : Option Machine :=
  let pdpte := frame (m.mem pml4 (pml4Index virtual))
  if !present (m.mem pdpte (pdptIndex virtual)) then m.setNewPagePDPE virtual physical pdpte
  else m.setExistingPagePDPE virtual physical pdpte

def initTaskPagetables (virtual : Nat) (physical pml4 : Word) : Option Machine :=
  -- Every mapping refreshes the kernel's slot first.
  let m := m.write pml4 511 (entry (m.mem m.pml4e 511) 7)
  if !present (m.mem pml4 (pml4Index virtual)) then m.setNewPagePDPTE virtual physical pml4
  else m.setExistingPagePDPTE virtual physical pml4

/-- The innermost loop of `copytables`: a leaf entry is shared between parent and child. -/
def shareEntry (parent child : Word) (l : Nat) : Option Machine :=
  let e := m.mem parent l
  -- The entry is changed in place, so that the child gets what the parent now has.
  if present e then
    let m := { m with refCount := Function.update m.refCount (frame e) (m.refCount (frame e) + 1) }
    let m := m.write parent l (share e)
    some (m.write child l (m.mem parent l))
  else some m

/-- The loops of `copytables` over tables that are `n` levels above the leaf tables. -/
def copyLevel : Nat → Nat → Word → Word → Machine → Option Machine
  | 0, bound, parent, child, m => loop bound (fun l m => m.shareEntry parent child l) m
  | n + 1, bound, parent, child, m => loop bound (fun i m =>
      if present (m.mem parent i) then do
        let (table, m) ← m.getNewPage
        let m := (m.zero table).write child i (entry table 7)
        copyLevel n 512 (frame (m.mem parent i)) table m
      else some m) m

def copytables (parent child : Word) : Option Machine :=
  copyLevel 3 511 parent child (m.write child 511 (m.mem parent 511))

/-- The loops of `deallocTask` over tables that are `n` levels above the leaf tables. -/
def deallocLevel : Nat → Nat → Word → Machine → Option Machine
  | 0, bound, t, m => loop bound (fun l m =>
      -- `free` does nothing, so a frame is lost here whoever else maps it.
      let m := if present (m.mem t l) then m.free (frame (m.mem t l)) else m
      some (m.write t l 0)) m
  | n + 1, bound, t, m => loop bound (fun i m => do
      let m ← if present (m.mem t i) then
          (deallocLevel n 512 (frame (m.mem t i)) m).map fun m => m.free (frame (m.mem t i))
        else some m
      some (m.write t i 0)) m

def deallocTask (pm4 : Word) : Option Machine := deallocLevel 3 511 pm4 m

/-- The leaf table for an address; no level is checked for presence. -/
def getPTE (pml4 : Word) (address : Nat) : Word :=
  let pdpte := frame (m.mem pml4 (pml4Index address))
  let pdpe := frame (m.mem pdpte (pdptIndex address))
  frame (m.mem pdpe (pdIndex address))

/-! ## Translation by the hardware -/

/-- The tables as the hardware walks them. -/
def tables : Tables Word Word := ⟨m.mem, fun e => if present e then some (frame e) else none⟩

/-- The three indices that lead from a PML4 to the leaf table of an address. -/
def upperPath (v : Nat) : List Nat := [pml4Index v, pdptIndex v, pdIndex v]

/-- The leaf entry for an address, if every level is present. -/
def translate (pml4 : Word) (v : Nat) : Option Word :=
  m.tables.lookup pml4 (upperPath v) (ptIndex v)

/-- Every entry on the walk has all the bits of `need`. -/
def permits (need pml4 : Word) (v : Nat) : Bool :=
  let pdpte := frame (m.mem pml4 (pml4Index v))
  let pdpe := frame (m.mem pdpte (pdptIndex v))
  let pte := frame (m.mem pdpe (pdIndex v))
  m.mem pml4 (pml4Index v) &&& need == need && m.mem pdpte (pdptIndex v) &&& need == need &&
    m.mem pdpe (pdIndex v) &&& need == need && m.mem pte (ptIndex v) &&& need == need

/-- The byte at a virtual address. -/
def byteAt (pml4 : Word) (v : Nat) : Option Byte :=
  (m.translate pml4 v).map fun e => getByte (m.mem (frame e) (v % 4096 / 8)) (v % 8)

/-- A store to the frame that an address is mapped to. -/
def storeByte (pml4 : Word) (v : Nat) (b : Byte) : Option Machine :=
  (m.translate pml4 v).map fun e =>
    let w := v % 4096 / 8
    m.write (frame e) w (setByte (m.mem (frame e) w) (v % 8) b)

end Machine

end LateOS
