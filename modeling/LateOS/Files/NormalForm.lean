import LateOS.Files.Path

/-!
# Normal forms

What `deriveRelative` makes of a path whose components are names and ways up, with or without a `/`
behind the last one.
-/
namespace LateOS

open Descriptors
open Lib (render resolve render_nil render_cons render_append)

/-- The components with a `/` between any two, and one behind the last if `slash`. -/
def joined (slash : Bool) (comps : List (List UInt8)) : List UInt8 :=
  [47].intercalate comps ++ if slash ∧ comps ≠ [] then [47] else []

/-- A path as it is written. -/
def pathOf (absolute slash : Bool) (comps : List (List UInt8)) : List UInt8 :=
  if absolute then 47 :: joined slash comps else joined slash comps

/-- The buffer holds the string and its terminator. -/
structure HoldsString (buf : Buffer) (s : List UInt8) : Prop where
  chars : ∀ k (inside : k < s.length), buf k = s[k]
  ended : buf s.length = 0

section

variable {dir comps init stack : List (List UInt8)} {c s : List UInt8} {absolute slash : Bool}
  {buf absPath : Buffer} {pathOffset : Int}

/-! ## Joined components -/

theorem joined_nil (slash : Bool) : joined slash [] = [] := by simp [joined]

theorem joined_true (comps : List (List UInt8)) : joined true comps = render 47 comps := by
  rcases List.eq_nil_or_concat comps with rfl | ⟨init, c, rfl⟩
  · exact joined_nil true
  · simp [joined, Lib.intercalate_concat]

theorem joined_false (init : List (List UInt8)) (c : List UInt8) :
    joined false (init ++ [c]) = render 47 init ++ c := by
  simp [joined, Lib.intercalate_concat]

/-- A component does not end with a `/`. -/
theorem component_last (component : Name c ∨ c = up) (s : List UInt8) :
    (s ++ c).getLast? ≠ some 47 := by
  have some : c ≠ [] := by
    rcases component with name | rfl
    · exact name.some
    · decide
  have apart : 47 ∉ c := by
    rcases component with name | rfl
    · exact name.apart
    · decide
  intro last
  rw [List.getLast?_append_of_ne_nil s some] at last
  exact apart (List.mem_of_getLast? last)

/-- A relative path does not begin with a `/`. -/
theorem joined_head (components : ∀ c ∈ comps, Name c ∨ c = up) :
    (joined slash comps).head? ≠ some 47 := by
  cases comps with
  | nil => simp [joined_nil]
  | cons d rest =>
    have first : Name d ∨ d = up := components d List.mem_cons_self
    -- No component is empty, so that the first character is that of a component.
    obtain ⟨x, d, rfl⟩ : ∃ x rest, d = x :: rest := by
      rcases first with name | rfl
      · exact List.exists_cons_of_ne_nil name.some
      · exact ⟨46, [46], rfl⟩
    have apart : x ≠ 47 := by
      rcases first with name | same
      · exact fun slash => name.apart (by simp [slash])
      · cases same
        decide
    cases rest with
    | nil => simpa [joined] using apart
    | cons e rest => simpa [joined] using apart

/-- A directory in front of a path. -/
theorem render_joined (dir comps : List (List UInt8)) (slash : Bool) :
    render 47 dir ++ joined slash comps = joined (slash || comps.isEmpty) (dir ++ comps) := by
  rcases List.eq_nil_or_concat comps with rfl | ⟨init, c, rfl⟩
  · simp [joined_nil, joined_true]
  · have some : (init ++ [c]).isEmpty = false := by simp
    rw [List.concat_eq_append, some, Bool.or_false]
    cases slash with
    | true => simp [joined_true]
    | false =>
      rw [joined_false, ← List.append_assoc dir, joined_false, render_append, List.append_assoc]

/-- What `deriveRelative` works on are the components of the directory and the path. -/
theorem filePath_pathOf (dir : List (List UInt8)) (absolute slash : Bool)
    (components : ∀ c ∈ comps, Name c ∨ c = up) :
    filePath (47 :: render 47 dir) (pathOf absolute slash comps) =
      joined (slash || comps.isEmpty) ((if absolute then [] else dir) ++ comps) := by
  rw [filePath]
  cases absolute with
  | true =>
    have path : pathOf true slash comps = 47 :: joined slash comps := rfl
    have whole := render_joined [] comps slash
    rw [path, if_neg (by simp)]
    exact whole
  | false =>
    have path : pathOf false slash comps = joined slash comps := rfl
    rw [path, if_pos (joined_head components)]
    exact render_joined dir comps slash

theorem joined_length (comps : List (List UInt8)) (slash : Bool) :
    (joined slash comps).length ≤ (render (47 : UInt8) comps).length ∧
      (render (47 : UInt8) comps).length ≤ (joined slash comps).length + 1 := by
  rcases List.eq_nil_or_concat comps with rfl | ⟨init, c, rfl⟩
  · simp [joined_nil]
  · rw [List.concat_eq_append]
    cases slash with
    | true => simp [joined_true]
    | false =>
      simp [joined_false]
      omega

/-- The characters of a path are not terminators. -/
theorem joined_string (components : ∀ c ∈ comps, Name c ∨ c = up) : 0 ∉ joined slash comps := by
  have whole := render_string fun c member => component_string (components c member)
  rcases List.eq_nil_or_concat comps with rfl | ⟨init, c, rfl⟩
  · simp [joined_nil]
  · rw [List.concat_eq_append] at whole ⊢
    cases slash with
    | true => rwa [joined_true]
    | false =>
      rw [joined_false]
      intro zero
      apply whole
      simp only [render_append, render_cons, render_nil, List.mem_append, List.mem_cons] at zero ⊢
      tauto

/-! ## The last component -/

/-- The end of a path that ends with a `/`. -/
theorem joined_getLast (components : ∀ c ∈ comps, Name c ∨ c = up) :
    (joined slash comps).getLast? = some 47 ↔ slash = true ∧ comps ≠ [] := by
  rcases List.eq_nil_or_concat comps with rfl | ⟨init, c, rfl⟩
  · simp [joined_nil]
  · rw [List.concat_eq_append] at components ⊢
    cases slash with
    | true => simp [joined_true]
    | false =>
      rw [joined_false]
      have other := component_last (components c (by simp)) (render 47 init)
      simpa using other

/-- The way up at the end of a path leaves the offset at the `/` in front of the last component, or
in front of the buffer. -/
theorem read_back (p : Int) (front : p = (render (47 : UInt8) stack).length - 1)
    (kept : ∀ k : Nat, k < (render 47 stack).length → absPath k = (render 47 stack).getD k 0)
    (string : ∀ c ∈ stack, 0 ∉ c) :
    readString (resetString (resetString absPath p) (p + 1)) = (joined false stack).take 100 := by
  rcases List.eq_nil_or_concat stack with rfl | ⟨init, c, rfl⟩
  · have start : p + 1 = 0 := by simp [front]
    rw [joined_nil, start]
    exact cString_take nofun (Function.update_self _ _ _) (by simp)
  · rw [List.concat_eq_append] at front kept string ⊢
    -- The terminator takes the place of the last `/`.
    have whole : render (47 : UInt8) (init ++ [c]) = (render 47 init ++ c) ++ [47] := by simp
    rw [whole] at front kept
    rw [joined_false]
    apply Stored.read
    · constructor
      · simp [front]
        omega
      · intro k inside
        rw [kept k (by simp at inside ⊢; omega), List.getD_eq_getElem _ _ (by simp at inside ⊢; omega),
          List.getElem_append_left inside]
    · intro zero
      rcases List.mem_append.mp zero with before | last
      · exact render_string (fun d member => string d (by simp [member])) before
      · exact string c (by simp) last

/-! ## The buffer in the end -/

theorem HoldsString.read (holds : HoldsString buf s) (string : 0 ∉ s) : readString buf = s.take 100 := by
  apply cString_take
  · intro k inside
    rw [Nat.zero_add, holds.chars k inside]
  · rw [Nat.zero_add, holds.ended]
  · exact string

/-- Names and ways up without the `/` behind the last one. -/
theorem deriveLoop_joined (slash : Bool) (components : ∀ c ∈ comps, Name c ∨ c = up)
    (stored : Stored [] absPath 0) :
    ∃ absPath' p, deriveLoop (joined slash comps) absPath 0 = (absPath', p) ∧
      readString (resetString (resetString absPath' p) (p + 1)) =
        (joined slash (resolve up [] comps)).take 100 := by
  have root : ∀ c ∈ ([] : List (List UInt8)), 47 ∉ c := nofun
  have names := resolve_name (fun c member => absurd member List.not_mem_nil) components
  cases slash with
  | true =>
    obtain ⟨absPath', p, walked, after⟩ := deriveLoop_render [] root components stored
    rw [List.append_nil] at walked
    rw [joined_true, joined_true]
    exact ⟨absPath', p, walked, after.read (render_string fun c member => (names c member).string)⟩
  | false =>
    rcases List.eq_nil_or_concat comps with rfl | ⟨init, c, rfl⟩
    · rw [joined_nil]
      exact ⟨absPath, 0, rfl, stored.read (by simp)⟩
    · rw [List.concat_eq_append] at components names ⊢
      have before : ∀ d ∈ init, Name d ∨ d = up := fun d member => components d (by simp [member])
      have stack := resolve_name (fun c member => absurd member List.not_mem_nil) before
      -- All but the last component have their `/`, and the last one is taken by itself.
      obtain ⟨b, o, walked, after⟩ := deriveLoop_render c root before stored
      rw [joined_false, walked]
      by_cases back : c = up
      · subst back
        obtain ⟨p, absPath', ended, front, kept⟩ :=
          deriveLoop_back [] (fun d member => (stack d member).apart) after
        rw [Lib.resolve_concat_up] at names ⊢
        rw [List.append_nil] at ended
        exact ⟨absPath', p, ended, read_back p front kept fun d member => (names d member).string⟩
      · have name := (components c (by simp)).resolve_right back
        obtain ⟨absPath', p, ended, last⟩ := deriveLoop_copy [] name.dots (by simp) after
        rw [List.append_nil] at ended
        rw [Lib.resolve_concat back, joined_false]
        refine ⟨absPath', p, ended, last.read fun zero => ?_⟩
        rcases List.mem_append.mp zero with front | behind
        · exact render_string (fun d member => (stack d member).string) front
        · exact name.string behind

/-- `deriveRelative` leaves the normal form of the path in its buffer, with a `/` behind it if what
it worked on had one. -/
theorem deriveRelative_normalises (directory : ∀ c ∈ dir, Name c ∨ c = up)
    (components : ∀ c ∈ comps, Name c ∨ c = up) (holds : HoldsString absPath (pathOf absolute slash comps))
    (short : (filePath (47 :: render 47 dir) (pathOf absolute slash comps)).length < 100) :
    readString (deriveRelative (47 :: render 47 dir) absPath) =
      joined ((filePath (47 :: render 47 dir) (pathOf absolute slash comps)).getLast? = some 47)
        (resolve up [] ((if absolute then [] else dir) ++ comps)) := by
  -- An absolute path does not look at the directory.
  have both : ∀ c ∈ (if absolute then [] else dir) ++ comps, Name c ∨ c = up := by
    intro c member
    rcases List.mem_append.mp member with base | own
    · cases absolute with
      | true => cases base
      | false => exact directory c base
    · exact components c own
  have read : readString absPath = pathOf absolute slash comps := by
    have string : 0 ∉ pathOf absolute slash comps := by
      cases absolute with
      | true => simpa [pathOf] using joined_string components
      | false => exact joined_string components
    have fits : (pathOf absolute slash comps).length ≤ 100 := by
      rw [filePath] at short
      split at short
      · rw [List.length_append] at short
        omega
      · rw [List.length_drop] at short
        omega
    rw [holds.read string, List.take_of_length_le fits]
  have start : Stored [] (resetString absPath 0) 0 := ⟨rfl, nofun⟩
  have file := filePath_pathOf dir absolute slash components
  generalize (if absolute then [] else dir) ++ comps = whole at both file ⊢
  generalize (slash || comps.isEmpty) = ends at file
  obtain ⟨absPath', p, walked, ended⟩ := deriveLoop_joined ends both start
  -- Resolving makes a path no longer, and so nothing is cut off.
  have length : ((joined ends (resolve up [] whole)).take 100) = joined ends (resolve up [] whole) := by
    have resolved := @Lib.resolve_length _ _ up [] whole 47
    have first := (joined_length (resolve up [] whole) ends).1
    have second := (joined_length whole ends).2
    rw [file] at short
    apply List.take_of_length_le
    simp only [render_nil, List.length_nil] at resolved
    omega
  unfold deriveRelative
  rw [read, file]
  dsimp only
  rw [walked, ended, length]
  by_cases none : whole = []
  · rw [none, Lib.resolve_nil, joined_nil, joined_nil]
  · congr 1
    simp only [joined_getLast both, none, ne_eq, not_false_eq_true, and_true, Bool.decide_eq_true]

/-- `../b/` from `/a/c/`. -/
theorem normalised_below_a :
    readString (deriveRelative [47, 97, 47, 99, 47] (strcpy (fun _ => 0) [46, 46, 47, 98, 47])) =
      [97, 47, 98, 47] := by
  have name (x : UInt8) (letter : x = 97 ∨ x = 98 ∨ x = 99) : Name [x] := by
    rcases letter with rfl | rfl | rfl
    all_goals exact ⟨by decide, by decide, by decide, by decide⟩
  have directory : ∀ c ∈ [[97], [99]], Name c ∨ c = up := by
    simp [name]
  have components : ∀ c ∈ [up, [98]], Name c ∨ c = up := by
    simp [name]
  have holds : HoldsString (strcpy (fun _ => 0) [46, 46, 47, 98, 47]) (pathOf false true [up, [98]]) :=
    ⟨by decide, rfl⟩
  exact @deriveRelative_normalises _ _ false true _ directory components holds (by decide)

end

end LateOS
