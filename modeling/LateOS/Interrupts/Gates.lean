import LateOS.Memory.Entry

/-!
# Descriptors

The tables of segments and of gates, as the kernel writes them and as the processor reads them.
-/
namespace LateOS

/-! ## Segments -/

namespace Gdt

def GDT_CS : Word := 0x00180000000000
def GDT_DS : Word := 0x00100000000000
def DPL0 : Word := 0x00000000000000
def DPL3 : Word := 0x00600000000000
def P : Word := 0x00800000000000
def L : Word := 0x20000000000000
def W : Word := 0x00020000000000

/-- The entries of `gdt` that are not left 0, the TSS apart. -/
def gdt : List Word :=
  [0, GDT_CS ||| P ||| DPL0 ||| L, GDT_DS ||| P ||| W ||| DPL0, 0, GDT_DS ||| P ||| W ||| DPL3,
    GDT_CS ||| P ||| DPL3 ||| L]

end Gdt

/-- `struct sys_segment_descriptor`. -/
structure SysSegmentDescriptor where
  sd_lolimit : BitVec 16
  sd_lobase : BitVec 24
  sd_type : BitVec 5
  sd_dpl : BitVec 2
  sd_p : BitVec 1
  sd_hilimit : BitVec 4
  sd_xx1 : BitVec 3
  sd_gran : BitVec 1
  sd_hibase : BitVec 40
  sd_xx2 : BitVec 8
  sd_zero : BitVec 5
  sd_xx3 : BitVec 19

/-- The fields in memory, the first one lowest. -/
def SysSegmentDescriptor.image (sd : SysSegmentDescriptor) : BitVec 128 :=
  sd.sd_xx3 ++ sd.sd_zero ++ sd.sd_xx2 ++ sd.sd_hibase ++ sd.sd_gran ++ sd.sd_xx1 ++
    sd.sd_hilimit ++ sd.sd_p ++ sd.sd_dpl ++ sd.sd_type ++ sd.sd_lobase ++ sd.sd_lolimit

/-- The descriptor that `init_gdt` makes for the TSS at address `tss`, of 104 bytes. -/
def init_gdt (tss : Word) : SysSegmentDescriptor where
  sd_lolimit := 104 - 1
  sd_lobase := tss.setWidth 24
  sd_type := 9
  sd_dpl := 0
  sd_p := 1
  sd_hilimit := 0
  sd_xx1 := 0
  sd_gran := 0
  sd_hibase := (tss >>> 24).setWidth 40
  sd_xx2 := 0
  sd_zero := 0
  sd_xx3 := 0

/-- Where the processor looks for the TSS. -/
def tssBase (d : BitVec 128) : Word :=
  d.extractLsb' 64 32 ++ d.extractLsb' 56 8 ++ d.extractLsb' 16 24

/-- The processor finds the TSS wherever it is. -/
theorem tssBase_init_gdt (tss : Word) : tssBase (init_gdt tss).image = tss := by
  apply BitVec.eq_of_getLsbD_eq
  intro i below
  simp only [tssBase, SysSegmentDescriptor.image, init_gdt, BitVec.getLsbD_append,
    BitVec.getLsbD_extractLsb', BitVec.getLsbD_setWidth, BitVec.getLsbD_ushiftRight]
  grind

/-- A segment of code, that a selector without the table bit names. -/
def codeSegment (selector : BitVec 16) : Option (BitVec 2) := do
  let d ← Gdt.gdt[(selector >>> 3).toNat]?
  if d.getLsbD 43 ∧ d.getLsbD 44 ∧ d.getLsbD 47 ∧ ¬selector.getLsbD 2 then
    some (d.extractLsb' 45 2)
  else none

theorem codeSegment_kernel : codeSegment 0x08 = some 0 := by decide

/-! ## Gates -/

/-- `struct idt`. -/
structure Idt where
  lower_offset : BitVec 16
  selector : BitVec 16
  zero_1 : BitVec 8
  type : BitVec 8
  mid_offset : BitVec 16
  high_offset : BitVec 32
  zero_2 : BitVec 32

def Idt.image (g : Idt) : BitVec 128 :=
  g.zero_2 ++ g.high_offset ++ g.mid_offset ++ g.type ++ g.zero_1 ++ g.selector ++ g.lower_offset

def idtLowerMask : Word := 0xFFFF
def idtMidMask : Word := 0xFFFF
def idthighMask : Word := 0xFFFFFFFF

def setIDTtype (interrupt : Nat) : BitVec 8 := if interrupt = 128 then 0xEE else 0x8E

def initISR (interrupt : Nat) (function : Word) (IDTset : Nat → Idt) : Nat → Idt :=
  Function.update IDTset interrupt
    { selector := 0x08
      lower_offset := (function &&& idtLowerMask).setWidth 16
      mid_offset := (function >>> 16 &&& idtMidMask).setWidth 16
      high_offset := (function >>> 32 &&& idthighMask).setWidth 32
      zero_1 := 0
      zero_2 := 0
      type := setIDTtype interrupt }

/-- The routines of `idt.s`. -/
inductive Stub where
  | ISR0
  | ISR14
  | ISR128
  | timer
  | keyboard
deriving DecidableEq

/-- The table, where `address` is where the routines are. -/
def IDTinitialise (address : Stub → Word) : Nat → Idt :=
  let IDTset := (List.range 32).foldl (fun T i => initISR i (address .ISR0) T)
    fun _ => ⟨0, 0, 0, 0, 0, 0, 0⟩
  let IDTset := initISR 14 (address .ISR14) IDTset
  let IDTset := initISR 32 (address .timer) IDTset
  let IDTset := initISR 33 (address .keyboard) IDTset
  initISR 128 (address .ISR128) IDTset

/-- A gate as the processor reads it. -/
structure Gate where
  offset : Word
  selector : BitVec 16
  ist : BitVec 3
  kind : BitVec 5
  dpl : BitVec 2
  present : Bool
deriving DecidableEq

def Gate.read (d : BitVec 128) : Gate where
  offset := d.extractLsb' 64 32 ++ d.extractLsb' 48 16 ++ d.extractLsb' 0 16
  selector := d.extractLsb' 16 16
  ist := d.extractLsb' 32 3
  kind := d.extractLsb' 40 5
  dpl := d.extractLsb' 45 2
  present := d.getLsbD 47

namespace Idt

variable (g : Idt)

/-- The image with the low parts of two fields apart, as `Gate.read` takes them. -/
theorem image_offset : g.image.extractLsb' 64 32 ++ g.image.extractLsb' 48 16 ++
    g.image.extractLsb' 0 16 = g.high_offset ++ g.mid_offset ++ g.lower_offset := by
  apply BitVec.eq_of_getLsbD_eq
  intro i below
  simp only [image, BitVec.getLsbD_append, BitVec.getLsbD_extractLsb']
  grind

theorem image_selector : g.image.extractLsb' 16 16 = g.selector := by
  apply BitVec.eq_of_getLsbD_eq
  intro i below
  simp only [image, BitVec.getLsbD_append, BitVec.getLsbD_extractLsb']
  grind

theorem image_ist : g.image.extractLsb' 32 3 = g.zero_1.extractLsb' 0 3 := by
  apply BitVec.eq_of_getLsbD_eq
  intro i below
  simp only [image, BitVec.getLsbD_append, BitVec.getLsbD_extractLsb']
  grind

theorem image_type : g.image.extractLsb' 40 8 = g.type := by
  apply BitVec.eq_of_getLsbD_eq
  intro i below
  simp only [image, BitVec.getLsbD_append, BitVec.getLsbD_extractLsb']
  grind

end Idt

theorem Gate.read_image (g : Idt) : Gate.read g.image =
    ⟨g.high_offset ++ g.mid_offset ++ g.lower_offset, g.selector, g.zero_1.extractLsb' 0 3,
      g.type.extractLsb' 0 5, g.type.extractLsb' 5 2, g.type.getLsbD 7⟩ := by
  have inner (i w : Nat) (fits : i + w ≤ 8) :
      g.image.extractLsb' (40 + i) w = (g.image.extractLsb' 40 8).extractLsb' i w := by
    apply BitVec.eq_of_getLsbD_eq
    intro j below
    simp only [BitVec.getLsbD_extractLsb']
    grind
  have present : g.image.getLsbD 47 = (g.image.extractLsb' 40 8).getLsbD 7 := by
    rw [BitVec.getLsbD_extractLsb']
    rfl
  rw [Gate.read, g.image_offset, g.image_selector, g.image_ist, inner 0 5 (by decide),
    inner 5 2 (by decide), present, g.image_type]

/-- The three parts of an address are the address. -/
theorem offset_parts (function : Word) :
    (function >>> 32 &&& idthighMask).setWidth 32 ++ (function >>> 16 &&& idtMidMask).setWidth 16 ++
      (function &&& idtLowerMask).setWidth 16 = function := by
  have high : idthighMask.setWidth 32 = BitVec.allOnes 32 := by decide
  have mid : idtMidMask.setWidth 16 = BitVec.allOnes 16 := by decide
  have lower : idtLowerMask.setWidth 16 = BitVec.allOnes 16 := by decide
  simp only [BitVec.setWidth_and, high, mid, lower, BitVec.and_allOnes]
  apply BitVec.eq_of_getLsbD_eq
  intro i below
  simp only [BitVec.getLsbD_append, BitVec.getLsbD_setWidth, BitVec.getLsbD_ushiftRight]
  grind

/-- The processor reads what `initISR` writes, for a routine at any address. -/
theorem read_initISR (T : Nat → Idt) (interrupt : Nat) (function : Word) :
    Gate.read (initISR interrupt function T interrupt).image =
      ⟨function, 0x08, 0, 0x0E, if interrupt = 128 then 3 else 0, true⟩ := by
  rw [Gate.read_image]
  unfold initISR
  simp only [Function.update_self, offset_parts, setIDTtype]
  split <;> rfl

theorem initISR_of_ne (T : Nat → Idt) {interrupt n : Nat} (function : Word)
    (other : n ≠ interrupt) : initISR interrupt function T n = T n :=
  Function.update_of_ne other _ _

/-- The loop of `IDTinitialise`. -/
theorem foldl_initISR (T : Nat → Idt) (function : Word) (k n : Nat) :
    (List.range k).foldl (fun T i => initISR i function T) T n =
      if n < k then initISR n function T n else T n := by
  induction k with
  | zero => rfl
  | succ k ih =>
    rw [List.range_succ, List.foldl_append, List.foldl_cons, List.foldl_nil]
    by_cases last : n = k
    · subst last
      rw [if_pos (Nat.lt_succ_self n)]
      unfold initISR
      rw [Function.update_self, Function.update_self]
    · rw [initISR_of_ne _ _ last, ih]
      exact ite_congr (propext (by omega)) (fun _ => rfl) fun _ => rfl

/-- The routine that serves a vector. -/
def Stub.ofVector (n : Nat) : Option Stub :=
  if n = 128 then some .ISR128
  else if n = 33 then some .keyboard
  else if n = 32 then some .timer
  else if n = 14 then some .ISR14
  else if n < 32 then some .ISR0
  else none

/-- What the processor finds in the whole table. -/
theorem read_IDTinitialise (address : Stub → Word) (n : Nat) :
    Gate.read (IDTinitialise address n).image =
      match Stub.ofVector n with
      | some s => ⟨address s, 0x08, 0, 0x0E, if s = .ISR128 then 3 else 0, true⟩
      | none => ⟨0, 0, 0, 0, 0, false⟩ := by
  unfold IDTinitialise Stub.ofVector
  by_cases gate : n = 128
  · subst gate
    exact read_initISR _ _ _
  rw [initISR_of_ne _ _ gate, if_neg gate]
  by_cases gate : n = 33
  · subst gate
    exact read_initISR _ _ _
  rw [initISR_of_ne _ _ gate, if_neg gate]
  by_cases gate : n = 32
  · subst gate
    exact read_initISR _ _ _
  rw [initISR_of_ne _ _ gate, if_neg gate]
  by_cases gate : n = 14
  · subst gate
    exact read_initISR _ _ _
  rw [initISR_of_ne _ _ gate, if_neg gate, foldl_initISR]
  split
  · rw [read_initISR, if_neg (by omega)]
    rfl
  · rfl

end LateOS
