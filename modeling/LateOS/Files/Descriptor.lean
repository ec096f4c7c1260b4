import Mathlib.Algebra.Group.Int.Defs
import Mathlib.Algebra.GroupWithZero.Nat
import Mathlib.Logic.Function.Basic
import Mathlib.Data.List.GetD

/-!
# Files of the archive

The headers of `sys/tarfs.c` and what its calls do to the descriptors of the current task. A
path is looked up as `deriveRelative` leaves it.
-/
namespace LateOS

/-- The characters before the terminator, `limit` at most. -/
def cString (bytes : Nat → UInt8) : Nat → Nat → List UInt8
  | _, 0 => []
  | i, limit + 1 => if bytes i = 0 then [] else bytes i :: cString bytes (i + 1) limit

/-- A pointer to a `posix_header_ustar`, into kernel memory. -/
structure TarHeader where
  memory : Nat → UInt8
  addr : Nat

def TarHeader.bytes (h : TarHeader) (k : Nat) : UInt8 := h.memory (h.addr + k)

/-- The string at `name`, which runs on into the next fields if it fills the 100 bytes. -/
def TarHeader.name (h : TarHeader) : List UInt8 := cString h.bytes 0 512

def TarHeader.size (h : TarHeader) : List UInt8 := cString h.bytes 124 12

/-- `name[strlen(name) - 1]`, which for an empty name is the byte in front of the header. -/
def TarHeader.lastChar (h : TarHeader) : UInt8 := h.memory (h.addr + h.name.length - 1)

/-! ## Sizes -/

/-- An `int` after an operation. -/
def wrapInt (n : Int) : Int := n.bmod (2 ^ 32)

/-- `octal_dict`, whose last entry is left to zero. -/
def octalDict (temp : Int) : Int := [0, 1, 10, 11, 100, 101, 111, 0].getD temp.toNat 0

/-- The second loop of `toBinaryFile`; an `int` has at most ten digits. -/
def toBinaryLoop : Nat → Int → Int → Int → Int
  | 0, _, _, bin => bin
  | n + 1, oct, i, bin =>
    if oct = 0 then bin
    else toBinaryLoop n (oct.tdiv 10) (wrapInt (i * 1000))
      (bin + wrapInt (octalDict (oct.tmod 10) * i))

def toBinaryFile (octal : List UInt8) : Nat :=
  let oct := octal.foldl (fun oct c => wrapInt (c.toBitVec.toInt - 48 + wrapInt (oct * 10))) 0
  (toBinaryLoop 10 oct 1 0 % 2 ^ 64).toNat

/-! ## Strings -/

/-- `starts_with`: one less than the length of the common prefix. -/
def startsWith : List UInt8 → List UInt8 → Int
  | a :: s, b :: t => if a = b then startsWith s t + 1 else -1
  | _, _ => -1

def substring (s : List UInt8) (index : Int) : List UInt8 := s.drop (index + 1).toNat

/-! ## Descriptors -/

/-- A `file_t`. -/
structure File where
  fd : Int
  fileName : List UInt8
  aval : Int
  offset : Int
  entry : Int
  flags : Int
  size : Nat
  address : Option TarHeader

/-- The descriptors of a task: its array `fd`, and `fd_c`. The array of the source has 100 entries
and is never checked: what is said here is said of a task that opens at most 97 files. -/
structure Descriptors where
  fd : Int → File
  fdC : Int

namespace Descriptors

variable (headers : List TarHeader) (deriveRelative : List UInt8 → List UInt8) (task : Descriptors)

/-- Only the first 32 headers are looked at. -/
def checkFile (path : List UInt8) : Option Nat :=
  (headers.take 32).findIdx? fun h => h.name = path

def isfileexists (path : List UInt8) : Option Nat := checkFile headers (deriveRelative path)

/-- What is left of a string in `file_name` once `aval` is 1: the array has 50 bytes, and two
more lie in front of `aval`. -/
def fileNameField (name : List UInt8) : List UInt8 :=
  if name.length < 52 then name else name.take 52 ++ [1]

def setCurrentTaskVal (setflag : Int) (header : TarHeader) (flags : Int) : Int × Descriptors :=
  -- `fd_c` is only ever counted up, and no free entry is looked for.
  let fileCounter := task.fdC + 3
  let old := task.fd fileCounter
  let file := { old with
    fileName := fileNameField header.name, entry := 0, aval := 1, size := toBinaryFile header.size,
    address := some header, fd := fileCounter,
    flags := if setflag ≠ 10 then flags else old.flags }
  (fileCounter, { fd := Function.update task.fd fileCounter file, fdC := task.fdC + 1 })

/-- A header whose name ends in `/`. -/
def isValidDirectory (path : List UInt8) : Option TarHeader :=
  (isfileexists headers deriveRelative path).bind fun fileID =>
    headers[fileID]?.filter fun h => h.lastChar = 47

def openDirFile (path : List UInt8) : Int × Descriptors :=
  if path = [47] then
    let fdc := task.fdC + 3
    let file := { task.fd fdc with entry := 0, fileName := [47] }
    (fdc, { fd := Function.update task.fd fdc file, fdC := task.fdC + 1 })
  else
    match isValidDirectory headers deriveRelative path with
    | some h => task.setCurrentTaskVal 10 h (-1)
    | none => (-1, task)

def openTarfsFile (path : List UInt8) (flags : Int) : Int × Descriptors :=
  match (isfileexists headers deriveRelative path).bind fun fileID => headers[fileID]? with
  | some h => task.setCurrentTaskVal 2 h flags
  | none => (-1, task)

/-- `setFilePath`: `(char *)header + 1 + i` counts in bytes. -/
def setFilePath (count : Int) (header : TarHeader) : List UInt8 :=
  (List.range count.toNat).map fun i => header.bytes (1 + i)

/-- The bytes stored before the terminator, and the value returned. -/
def readTarfsFile (fd count : Int) : Option (List UInt8 × Int) := do
  let filedescriptor := task.fd fd
  let header ← filedescriptor.address
  -- `size` is unsigned, so a negative `count` is a large one here.
  let count := if filedescriptor.size < (count % 2 ^ 64).toNat then wrapInt filedescriptor.size
    else count
  some (setFilePath count header, count)

/-- The loop of `readDirTarfsFile`: the entry reached, and the name it stops at. -/
def readDirLoop (fileName : List UInt8) : List TarHeader → Int → Int → Int × Option (List UInt8)
  | [], _, entry => (entry, none)
  | h :: rest, count, entry =>
    if 0 < startsWith h.name fileName ∨ fileName = [47] then
      -- The directory's own header comes first and is skipped once.
      if count = 0 ∧ entry = 0 then readDirLoop fileName rest (count + 1) (entry + 1)
      else if count = entry then
        (entry + 1, some (substring h.name (startsWith h.name fileName)))
      else readDirLoop fileName rest (count + 1) entry
    else readDirLoop fileName rest count entry

def readDirTarfsFile (fd : Int) : Option (List UInt8) × Descriptors :=
  let (entry, name) := readDirLoop (task.fd fd).fileName (headers.take 32) 0 (task.fd fd).entry
  (name, { task with fd := Function.update task.fd fd { task.fd fd with entry := entry } })

def closeTarfsFile (fp : Int) : Int × Descriptors :=
  -- The address stays, so that a closed descriptor still reads; the size does not.
  let filedescriptor := { task.fd fp with fileName := [], offset := 0, size := 0, aval := 0 }
  (filedescriptor.fd, { task with fd := Function.update task.fd fp filedescriptor })

end Descriptors

end LateOS
