import Mathlib.Algebra.GroupWithZero.Nat
import Mathlib.Logic.Function.Basic

/-!
# The user heap

`malloc`, `free` and `morecore` of `libc/util_sys.c`, over a memory of block headers. An
address is a `Nat`; `sbrk` moves the break as the kernel's `malloc` moves the end of the
heap's VMA. The loops run on fuel.
-/
namespace LateOS

/-- `union header`: the link is only meaningful in a free block. -/
structure Header where
  ptr : Nat
  size : Nat
  deriving DecidableEq, Repr

/-- `sizeof(Header)`; pointer arithmetic on headers counts in it. -/
abbrev headerSize : Nat := 16

abbrev pageSize : Nat := 4096

/-- `NALLOC`. -/
abbrev nalloc : Nat := 1024

/-- The arithmetic of `unsigned`. -/
def unsigned (n : Nat) : Nat := n % 2 ^ 32

/-- What is left of a number in an `int`. -/
def int (n : Nat) : Int := (BitVec.ofNat 32 n).toInt

/-- The heap of a user program. `regions` is a ghost: each region that `morecore` has
obtained, with its units. -/
structure Heap where
  hdr : Nat → Header
  base : Nat
  freep : Nat
  brk : Nat
  regions : List (Nat × Nat)

namespace Heap

variable (m : Heap)

def next (a : Nat) : Nat := (m.hdr a).ptr

def size (a : Nat) : Nat := (m.hdr a).size

def setPtr (a p : Nat) : Heap :=
  { m with hdr := Function.update m.hdr a { m.hdr a with ptr := p } }

def setSize (a n : Nat) : Heap :=
  { m with hdr := Function.update m.hdr a { m.hdr a with size := n } }

def setFreep (f : Nat) : Heap := { m with freep := f }

/-- The loop of `free`: the free block behind which `bp` belongs. -/
def findSlot (bp : Nat) : Nat → Nat → Option Nat
  | 0, _ => none
  | fuel + 1, p =>
    if p < bp ∧ bp < m.next p then some p
    else if m.next p ≤ p ∧ (p < bp ∨ bp < m.next p) then some p
    else findSlot bp fuel (m.next p)

/-- The first `if` of `free` behind its loop: `bp` takes in the block behind it, or only
its address. -/
def joinUpper (p bp : Nat) : Heap :=
  let q := m.next p
  if bp + headerSize * m.size bp = q then
    let m := m.setSize bp (unsigned (m.size bp + m.size q))
    m.setPtr bp (m.next q)
  else m.setPtr bp q

/-- The second `if`: `p` takes in `bp`, or only its address. -/
def joinLower (p bp : Nat) : Heap :=
  if p + headerSize * m.size p = bp then
    let m := m.setSize p (unsigned (m.size p + m.size bp))
    m.setPtr p (m.next bp)
  else m.setPtr p bp

def splice (p bp : Nat) : Heap := ((m.joinUpper p bp).joinLower p bp).setFreep p

def free (fuel ap : Nat) : Option Heap :=
  let bp := ap - headerSize
  (m.findSlot bp fuel m.freep).map fun p => m.splice p bp

/-- `sbrk`: the kernel's `malloc` maps one page more than the whole pages asked for, and none
for less than minus one page. -/
def sbrk (increment : Int) : Nat × Heap :=
  (m.brk, { m with brk := m.brk + pageSize * (increment.tdiv pageSize + 1).toNat })

/-- `morecore`; the answer 0 is NULL. -/
def morecore (fuel : Nat) (nu : Int) : Option (Heap × Nat) :=
  let nu := (if nu < nalloc then (nalloc : Int) else nu).toNat
  let (cp, m) := m.sbrk (int (nu * headerSize))
  if cp = 2 ^ 64 - 1 then some (m, 0)
  -- With no page there, the store to `up->s.size` ends the program.
  else if m.brk ≤ cp then none
  else
    let m := { m.setSize cp nu with regions := (cp, nu) :: m.regions }
    (m.free fuel (cp + headerSize)).map fun m => (m, m.freep)

/-- `malloc`'s unit count: whole headers, and one for the block's own. -/
def units (nbytes : Nat) : Nat := unsigned ((nbytes + headerSize - 1) % 2 ^ 64 / headerSize + 1)

/-- `malloc` in the block `p` behind `prevp`, from the end of it if it is too large. -/
def take (prevp p nunits : Nat) : Heap × Nat :=
  if m.size p = nunits then ((m.setPtr prevp (m.next p)).setFreep prevp, p + headerSize)
  else
    let m := m.setSize p (unsigned (m.size p - nunits))
    let p := p + headerSize * m.size p
    ((m.setSize p nunits).setFreep prevp, p + headerSize)

/-- The loop of `malloc`. -/
def search (nunits : Nat) : Nat → Heap → Nat → Nat → Option (Heap × Nat)
  | 0, _, _, _ => none
  | fuel + 1, m, prevp, p =>
    if nunits ≤ m.size p then some (m.take prevp p nunits)
    else if p = m.freep then
      match m.morecore fuel (int nunits) with
      | none => none
      | some (m, p) => if p = 0 then some (m, 0) else search nunits fuel m p (m.next p)
    else search nunits fuel m p (m.next p)

/-- `malloc`'s first `if`: the ring starts out as `base` alone. -/
def started : Heap :=
  if m.freep = 0 then ((m.setPtr m.base m.base).setFreep m.base).setSize m.base 0 else m

/-- `malloc`; the answer 0 is NULL. -/
def malloc (fuel nbytes : Nat) : Option (Heap × Nat) :=
  let m := m.started
  search (units nbytes) fuel m m.freep (m.next m.freep)

end Heap

end LateOS
