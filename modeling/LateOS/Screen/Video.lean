import LateOS.Screen.Console

/-!
# Video memory

The functions of `sys/kprintf.c` that write to the screen, with the cells that they store to.
`backspace` trusts its counter, so a cell may lie in front of the screen.
-/
namespace LateOS

open Lib

/-- The memory around the screen by cells from its first one, and the cells stored to so far. -/
structure Video where
  cells : Int → UInt8
  temp2 : Int
  toLeft : Int
  numLines : Nat
  stores : List Int

namespace Video

def put (v : Video) (i : Int) (ch : UInt8) : Video :=
  { v with cells := Function.update v.cells i ch, stores := i :: v.stores }

def rollUP (v : Video) : Video :=
  let v := rounds maxheight (fun i => rounds maxwidth fun j v =>
    v.put (i * maxwidth + j : Nat) (v.cells ((i + 1) * maxwidth + j : Nat))) v
  rounds maxwidth (fun i v => v.put (maxwidth * (maxheight - 1) + i : Nat) 0) v

def store (v : Video) (ch : UInt8) : Video := { v.put v.temp2 ch with temp2 := v.temp2 + 1 }

/-- The second `if` of `writeToSbush`. -/
def advance (v : Video) : Video :=
  if v.toLeft = 79 ∧ v.numLines = maxheight - 1 then
    { v.rollUP with temp2 := (maxwidth * 22 : Nat), toLeft := 0 }
  else if v.toLeft = 79 ∧ v.numLines ≠ maxheight - 1 then
    { v with numLines := v.numLines + 1, toLeft := 0 }
  else { v with toLeft := v.toLeft + 1 }

def writeToSbush (v : Video) (ch : UInt8) : Video :=
  if ch = 10 then
    let v := { v with temp2 := (maxwidth * (v.numLines + 1) : Nat) }
    let v := if v.numLines = maxheight - 1 then v.rollUP else { v with numLines := v.numLines + 1 }
    { v with toLeft := 0 }
  else if ch = 13 then { v with temp2 := (maxwidth * v.numLines : Nat), toLeft := 0 }.advance
  else (v.store ch).advance

/-- The colours, of which the first stands in front of the screen, are left out here too. -/
def clearScreen (v : Video) : Video :=
  let v := rounds (maxheight + 1) (fun _ => rounds maxwidth fun _ v => v.store 32)
    { v with temp2 := 0 }
  { v with temp2 := 0, toLeft := 0, numLines := 0 }

def backspace (v : Video) : Video :=
  -- Nothing is taken back across a wrap.
  if v.toLeft = 0 then v
  else
    let v := { v with toLeft := v.toLeft - 1, temp2 := v.temp2 - 1 }
    let v := v.writeToSbush 32
    { v with toLeft := v.toLeft - 1, temp2 := v.temp2 - 1 }

variable {v v' v'' : Video} {s : Console} {ch : UInt8} {i : Int}

/-! ## Stores to the screen -/

/-- The 25 rows of 80 columns. -/
def OnScreen (i : Int) : Prop := 0 ≤ i ∧ i < 25 * 80

instance (i : Int) : Decidable (OnScreen i) := inferInstanceAs (Decidable (_ ∧ _))

/-- The pointer and the counters are as before, and stores have gone to the screen alone. -/
structure Painted (v v' : Video) : Prop where
  temp2 : v'.temp2 = v.temp2
  toLeft : v'.toLeft = v.toLeft
  numLines : v'.numLines = v.numLines
  stores : (∀ i ∈ v'.stores, OnScreen i) ↔ ∀ i ∈ v.stores, OnScreen i

theorem Painted.refl (v : Video) : v.Painted v := ⟨rfl, rfl, rfl, Iff.rfl⟩

theorem put_stores (v : Video) (i : Int) (ch : UInt8) :
    (∀ j ∈ (v.put i ch).stores, OnScreen j) ↔ OnScreen i ∧ ∀ j ∈ v.stores, OnScreen j :=
  List.forall_mem_cons

theorem Painted.put (painted : v.Painted v') (inside : OnScreen i) :
    v.Painted (v'.put i ch) := by
  refine ⟨painted.temp2, painted.toLeft, painted.numLines, ?_⟩
  rw [put_stores, painted.stores]
  exact and_iff_right inside

theorem rollUP_painted (v : Video) : v.Painted v.rollUP := by
  unfold rollUP
  refine rounds_inv (I := fun _ t => v.Painted t) ?_ fun i t below painted => ?_
  · refine rounds_inv (I := fun _ t => v.Painted t) (.refl v) fun i t below painted => ?_
    refine rounds_inv (I := fun _ t => v.Painted t) painted fun j t below' painted => ?_
    refine painted.put ?_
    simp only [OnScreen, maxwidth, maxheight] at *
    omega
  · refine painted.put ?_
    simp only [OnScreen, maxwidth, maxheight] at *
    omega

/-! ## The console that is seen -/

/-- The screen is the console's, whatever lies in front of it. -/
structure Shows (v : Video) (s : Console) : Prop where
  cells : ∀ k : Nat, v.cells k = s.cells k
  temp2 : v.temp2 = s.temp2
  toLeft : v.toLeft = s.toLeft
  numLines : v.numLines = s.numLines

theorem put_cells {cells : Nat → UInt8} (same : ∀ k : Nat, v.cells k = cells k) (n : Nat) :
    ∀ k : Nat, (v.put n ch).cells k = Function.update cells n ch k := by
  intro k
  by_cases here : k = n
  · subst here
    change Function.update v.cells (k : Int) ch k = _
    rw [Function.update_self, Function.update_self]
  · have apart : (k : Int) ≠ n := by omega
    exact (Function.update_of_ne apart ..).trans
      ((same k).trans (Function.update_of_ne here ..).symm)

theorem rollUP_cells {cells : Nat → UInt8} (same : ∀ k : Nat, v.cells k = cells k) :
    ∀ k : Nat, v.rollUP.cells k = Console.rollUP cells k := by
  unfold rollUP Console.rollUP
  refine rounds_related (R := fun (v : Video) (cells : Nat → UInt8) =>
    ∀ k : Nat, v.cells k = cells k) ?_ fun i t cells same => put_cells same _
  refine rounds_related (R := fun (v : Video) (cells : Nat → UInt8) =>
    ∀ k : Nat, v.cells k = cells k) same fun i t cells same => ?_
  refine rounds_related (R := fun (v : Video) (cells : Nat → UInt8) =>
    ∀ k : Nat, v.cells k = cells k) same fun j t cells same => ?_
  rw [same]
  exact put_cells same _

-- From here on the loops are known by what they do.
attribute [irreducible] rollUP

theorem Shows.rollUP (shows : v.Shows s) :
    v.rollUP.Shows { s with cells := Console.rollUP s.cells } := by
  have painted := rollUP_painted v
  exact ⟨rollUP_cells shows.cells, painted.temp2.trans shows.temp2,
    painted.toLeft.trans shows.toLeft, painted.numLines.trans shows.numLines⟩

theorem Shows.moveTo (shows : v.Shows s) (place column : Nat) :
    Shows { v with temp2 := place, toLeft := column } { s with temp2 := place, toLeft := column } :=
  ⟨shows.cells, rfl, rfl, shows.numLines⟩

theorem Shows.store (shows : v.Shows s) (ch : UInt8) : (v.store ch).Shows (s.store ch) := by
  have temp2 := shows.temp2
  refine ⟨?_, ?_, shows.toLeft, shows.numLines⟩
  · unfold Video.store
    rw [temp2]
    exact put_cells shows.cells s.temp2
  · change v.temp2 + 1 = (s.temp2 + 1 : Nat)
    omega

theorem Shows.advance (shows : v.Shows s) : v.advance.Shows s.advance := by
  have toLeft := shows.toLeft
  have column : v.toLeft = 79 ↔ s.toLeft = 79 := by omega
  unfold Video.advance Console.advance
  simp only [column, shows.numLines]
  split
  · exact shows.rollUP.moveTo (maxwidth * 22) 0
  split
  · exact ⟨shows.cells, shows.temp2, rfl, rfl⟩
  · refine ⟨shows.cells, shows.temp2, ?_, rfl⟩
    change v.toLeft + 1 = (s.toLeft + 1 : Nat)
    omega

theorem Shows.fill (shows : v.Shows s) (rows columns : Nat) :
    Shows (rounds rows (fun _ => rounds columns fun _ v => v.store 32) v)
      (rounds rows (fun _ => rounds columns fun _ s => s.store 32) s) :=
  rounds_related shows fun _ _ _ shows => rounds_related shows fun _ _ _ shows => shows.store 32

theorem Shows.home (shows : v.Shows s) :
    Shows { v with temp2 := 0, toLeft := 0, numLines := 0 }
      { s with temp2 := 0, toLeft := 0, numLines := 0 } :=
  ⟨shows.cells, rfl, rfl, rfl⟩

theorem Shows.clearScreen (shows : v.Shows s) : v.clearScreen.Shows s.clearScreen := by
  have start : Shows { v with temp2 := 0 } { s with temp2 := 0 } :=
    ⟨shows.cells, rfl, shows.toLeft, shows.numLines⟩
  exact (start.fill (maxheight + 1) maxwidth).home

/-- A character goes to the console as it does to video memory. -/
theorem Shows.writeToSbush (shows : v.Shows s) (ch : UInt8) :
    (v.writeToSbush ch).Shows (s.writeToSbush ch) := by
  have line := shows.numLines
  unfold Video.writeToSbush Console.writeToSbush
  simp only [line]
  split
  · split
    · have start : Shows { v with temp2 := (maxwidth * (s.numLines + 1) : Nat), numLines := s.numLines }
          { s with temp2 := maxwidth * (s.numLines + 1) } := ⟨shows.cells, rfl, shows.toLeft, rfl⟩
      have rolled := start.rollUP
      exact ⟨rolled.cells, rolled.temp2, rfl, rolled.numLines⟩
    · exact ⟨shows.cells, rfl, rfl, rfl⟩
  split
  · exact Shows.advance ⟨shows.cells, rfl, rfl, rfl⟩
  · exact (shows.store ch).advance

end Video

end LateOS
