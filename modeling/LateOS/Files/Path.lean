import LateOS.Lib.Paths
import LateOS.Files.Lookup

/-!
# Paths in buffers

`deriveRelative`, which rewrites a path in place. A buffer comes with the memory around it, by the
offset from its first byte. Two dots with nothing in front of them make `deriveRelative` store in
front of the buffer: the model keeps those bytes, and takes them for the buffer's own.
-/
namespace LateOS

open Lib (render resolve render_nil render_cons render_append)

abbrev Buffer := Int → UInt8

def resetString (buf : Buffer) (i : Int) : Buffer := Function.update buf i 0

def strcpy (buf : Buffer) (s : List UInt8) : Buffer := fun i =>
  if 0 ≤ i ∧ i ≤ s.length then s.getD i.toNat 0 else buf i

/-- The string in a buffer of 100 bytes. -/
def readString (buf : Buffer) : List UInt8 := cString (fun k => buf k) 0 100

namespace Descriptors

/-- `file_path`: the path itself, or the path behind `curr_dir`, without the first `/`. -/
def filePath (currDir path : List UInt8) : List UInt8 :=
  if path.head? ≠ some 47 then currDir.drop 1 ++ path else path.drop 1

/-- The inner loop; `fuel` steps lead to the front of the buffer. -/
def unwindLoop : Nat → Buffer → Int → Buffer × Int
  | 0, absPath, pathOffset => (absPath, pathOffset)
  | fuel + 1, absPath, pathOffset =>
    if absPath pathOffset ≠ 47 ∧ 0 ≤ pathOffset then
      unwindLoop fuel (resetString absPath pathOffset) (pathOffset - 1)
    else (absPath, pathOffset)

/-- The loop over `file_path`. What `previousDir` takes for a component is any two dots. -/
def deriveLoop : List UInt8 → Buffer → Int → Buffer × Int
  | [], absPath, pathOffset => (absPath, pathOffset)
  | [c], absPath, pathOffset => (Function.update absPath pathOffset c, pathOffset + 1)
  | c :: d :: rest, absPath, pathOffset =>
    if c = 46 ∧ d = 46 then
      let (absPath, pathOffset) := unwindLoop pathOffset.toNat
        (resetString absPath (pathOffset - 1)) (pathOffset - 1)
      deriveLoop rest absPath pathOffset
    else deriveLoop (d :: rest) (Function.update absPath pathOffset c) (pathOffset + 1)

def deriveRelative (currDir : List UInt8) (absPath : Buffer) : Buffer :=
  let file_path := filePath currDir (readString absPath)
  let (absPath, pathOffset) := deriveLoop file_path (resetString absPath 0) 0
  resetString (resetString absPath pathOffset) (pathOffset + 1)

/-- What becomes of a path that is copied to a buffer. -/
def derivedPath (currDir : List UInt8) (fpath : Buffer) (path : List UInt8) : List UInt8 :=
  readString (deriveRelative currDir (strcpy fpath path))

end Descriptors

/-- A name in a path. -/
structure Name (c : List UInt8) : Prop where
  some : c ≠ []
  apart : 47 ∉ c
  string : 0 ∉ c
  dots : ¬[46, 46] <:+: c

/-- The component that leads to the directory above. -/
abbrev up : List UInt8 := [46, 46]

open Descriptors

/-! ## Strings in memory -/

section

variable {bytes bytes' : Nat → UInt8} {s : List UInt8} {i n limit : Nat}

theorem cString_take (same : ∀ k (inside : k < s.length), bytes (i + k) = s[k])
    (ended : bytes (i + s.length) = 0) (string : 0 ∉ s) : cString bytes i limit = s.take limit := by
  induction s generalizing i limit with
  | nil =>
    cases limit with
    | zero => rfl
    | succ limit =>
      rw [List.length_nil, Nat.add_zero] at ended
      simp [cString, ended]
  | cons c rest ih =>
    cases limit with
    | zero => rfl
    | succ limit =>
      have first : bytes i = c := same 0 (Nat.succ_pos _)
      have other : c ≠ 0 := fun zero => string (by simp [zero])
      rw [cString, first, if_neg other, List.take_succ_cons]
      congr 1
      refine ih (fun k inside => ?_) ?_ fun member => string (List.mem_cons_of_mem c member)
      · have next := same (k + 1) (Nat.succ_lt_succ inside)
        rwa [List.getElem_cons_succ, show i + (k + 1) = i + 1 + k by omega] at next
      · rwa [List.length_cons, show i + (rest.length + 1) = i + 1 + rest.length by omega] at ended

/-- A string is read no further than to the first terminator. -/
theorem cString_congr (same : ∀ k < n, bytes (i + k) = bytes' (i + k)) (ended : bytes (i + n) = 0)
    (ended' : bytes' (i + n) = 0) : cString bytes i limit = cString bytes' i limit := by
  induction n generalizing i limit with
  | zero =>
    cases limit with
    | zero => rfl
    | succ limit =>
      rw [Nat.add_zero] at ended ended'
      rw [cString, cString, if_pos ended, if_pos ended']
  | succ n ih =>
    cases limit with
    | zero => rfl
    | succ limit =>
      have first : bytes i = bytes' i := same 0 (Nat.succ_pos _)
      have later : ∀ k < n, bytes (i + 1 + k) = bytes' (i + 1 + k) := fun k inside => by
        have next := same (k + 1) (Nat.succ_lt_succ inside)
        rwa [show i + (k + 1) = i + 1 + k by omega] at next
      have shift : i + (n + 1) = i + 1 + n := by omega
      rw [shift] at ended ended'
      rw [cString, cString, first, ih later ended ended']

end

theorem strcpy_char {buf : Buffer} {s : List UInt8} {k : Nat} (inside : k ≤ s.length) :
    strcpy buf s k = s.getD k 0 := by
  have range : (0 : Int) ≤ k ∧ (k : Int) ≤ s.length := by omega
  rw [strcpy, if_pos range, Int.toNat_natCast]

theorem readString_strcpy {buf : Buffer} {s : List UInt8} (string : 0 ∉ s) :
    readString (strcpy buf s) = s.take 100 := by
  refine cString_take (fun k inside => ?_) ?_ string
  · rw [Nat.zero_add, strcpy_char inside.le]
    simp [inside]
  · rw [Nat.zero_add, strcpy_char (Nat.le_refl _)]
    simp

theorem readString_strcpy_around (buf buf' : Buffer) (s : List UInt8) :
    readString (strcpy buf s) = readString (strcpy buf' s) := by
  refine cString_congr (n := s.length) (fun k inside => ?_) ?_ ?_
  · rw [Nat.zero_add, strcpy_char inside.le, strcpy_char inside.le]
  · rw [Nat.zero_add, strcpy_char (Nat.le_refl _)]
    simp
  · rw [Nat.zero_add, strcpy_char (Nat.le_refl _)]
    simp

/-! ## Names and the way up -/

/-- `s` has been stored in the buffer, up to the offset. -/
structure Stored (s : List UInt8) (absPath : Buffer) (pathOffset : Int) : Prop where
  offset : pathOffset = s.length
  chars : ∀ k (inside : k < s.length), absPath k = s[k]

section

variable {s c rest : List UInt8} {stack comps : List (List UInt8)} {absPath : Buffer}
  {pathOffset p : Int} {x : UInt8}

theorem Stored.push (stored : Stored s absPath pathOffset) :
    Stored (s ++ [x]) (Function.update absPath pathOffset x) (pathOffset + 1) := by
  have offset := stored.offset
  refine ⟨by simp [offset], fun k inside => ?_⟩
  rw [List.length_append, List.length_singleton] at inside
  by_cases last : k = s.length
  · subst last
    rw [offset, Function.update_self, List.getElem_concat_length]
    rfl
  · have before : k < s.length := by omega
    have apart : (k : Int) ≠ pathOffset := by omega
    rw [Function.update_of_ne apart, stored.chars k before, List.getElem_append_left before]

theorem deriveLoop_push (apart : ¬(x = 46 ∧ rest.head? = some 46)) :
    deriveLoop (x :: rest) absPath pathOffset =
      deriveLoop rest (Function.update absPath pathOffset x) (pathOffset + 1) := by
  cases rest with
  | nil => rfl
  | cons d rest =>
    rw [List.head?_cons, Option.some_inj] at apart
    rw [deriveLoop, if_neg apart]

/-- In a name without `..`, each byte is copied by itself. -/
theorem dots_cons (dots : ¬[46, 46] <:+: x :: c) (behind : rest.head? ≠ some 46) :
    ¬(x = 46 ∧ (c ++ rest).head? = some 46) ∧ ¬[46, 46] <:+: c := by
  constructor
  · rintro ⟨rfl, next⟩
    cases c with
    | nil => exact behind next
    | cons y c =>
      cases next
      exact dots ⟨[], c, rfl⟩
  · intro inside
    exact dots (inside.trans (List.suffix_cons x c).isInfix)

/-- A name is copied as it stands. -/
theorem deriveLoop_copy (rest : List UInt8) (dots : ¬[46, 46] <:+: c) (behind : rest.head? ≠ some 46)
    (stored : Stored s absPath pathOffset) :
    ∃ absPath' pathOffset', deriveLoop (c ++ rest) absPath pathOffset =
      deriveLoop rest absPath' pathOffset' ∧ Stored (s ++ c) absPath' pathOffset' := by
  induction c generalizing s absPath pathOffset with
  | nil => exact ⟨absPath, pathOffset, rfl, by rwa [List.append_nil]⟩
  | cons x c ih =>
    obtain ⟨apart, later⟩ := dots_cons dots behind
    obtain ⟨absPath', pathOffset', walked, after⟩ := ih later (stored.push (x := x))
    refine ⟨absPath', pathOffset', ?_, ?_⟩
    · rw [List.cons_append, deriveLoop_push apart, walked]
    · rwa [List.append_assoc, List.singleton_append] at after

/-- So is one with its `/`. -/
theorem deriveLoop_name (rest : List UInt8) (dots : ¬[46, 46] <:+: c) (stored : Stored s absPath pathOffset) :
    ∃ absPath' pathOffset', deriveLoop (c ++ 47 :: rest) absPath pathOffset =
      deriveLoop rest absPath' pathOffset' ∧ Stored (s ++ (c ++ [47])) absPath' pathOffset' := by
  have slash : (47 :: rest).head? ≠ some 46 := by simp
  obtain ⟨absPath', pathOffset', walked, after⟩ := deriveLoop_copy (47 :: rest) dots slash stored
  refine ⟨Function.update absPath' pathOffset' 47, pathOffset' + 1, ?_, ?_⟩
  · rw [walked]
    exact deriveLoop_push fun both => absurd both.1 (by decide)
  · rw [← List.append_assoc]
    exact after.push

/-- The inner loop steps back over everything that is not a `/`, to the front at most. -/
theorem unwindLoop_back {n fuel : Nat} (plain : ∀ k, p < k → k ≤ p + n → absPath k ≠ 47)
    (halt : absPath p = 47 ∨ p < 0) (low : -1 ≤ p) (enough : n ≤ fuel) :
    ∃ absPath', unwindLoop fuel absPath (p + n) = (absPath', p) ∧ ∀ k ≤ p, absPath' k = absPath k := by
  induction n generalizing fuel absPath with
  | zero =>
    refine ⟨absPath, ?_, fun _ _ => rfl⟩
    rw [Nat.cast_zero, Int.add_zero]
    cases fuel with
    | zero => rfl
    | succ fuel =>
      have stop : ¬(absPath p ≠ 47 ∧ 0 ≤ p) := by
        rintro ⟨other, front⟩
        rcases halt with slash | before
        · exact other slash
        · omega
      rw [unwindLoop, if_neg stop]
  | succ n ih =>
    obtain ⟨fuel, rfl⟩ : ∃ f, fuel = f + 1 := ⟨fuel - 1, by omega⟩
    have here := plain (p + (n + 1 : Nat)) (by omega) (Int.le_refl _)
    have shift : p + ((n + 1 : Nat) : Int) - 1 = p + n := by omega
    have untouched (k : Int) (below : k ≤ p + n) :
        resetString absPath (p + (n + 1 : Nat)) k = absPath k :=
      Function.update_of_ne (by omega) _ _
    have plain' (k : Int) (above : p < k) (below : k ≤ p + n) :
        resetString absPath (p + (n + 1 : Nat)) k ≠ 47 := by
      rw [untouched k below]
      exact plain k above (by omega)
    have within : n ≤ fuel := by omega
    obtain ⟨absPath', walked, kept⟩ := ih plain' (by rwa [untouched p (by omega)]) within
    refine ⟨absPath', ?_, fun k below => ?_⟩
    · rw [unwindLoop, if_pos ⟨here, by omega⟩, shift, walked]
    · rw [kept k below, untouched k (by omega)]

/-- The walk back goes over the last component, and stops at the `/` in front of it or at the
root. -/
theorem unwindLoop_up (apart : ∀ c ∈ stack, 47 ∉ c)
    (stored : Stored (render 47 stack) absPath pathOffset) :
    ∃ (n : Nat) (p : Int) (absPath' : Buffer), p + n = pathOffset - 1 ∧
      p = (render 47 stack.dropLast).length - 1 ∧
      unwindLoop pathOffset.toNat (resetString absPath (pathOffset - 1)) (p + n) = (absPath', p) ∧
      ∀ k : Nat, k < (render 47 stack.dropLast).length →
        absPath' k = (render 47 stack.dropLast).getD k 0 := by
  have offset := stored.offset
  rcases List.eq_nil_or_concat stack with rfl | ⟨init, c, rfl⟩
  · -- At the root there is nothing to go back over.
    refine ⟨0, -1, resetString absPath (pathOffset - 1), ?_, rfl, ?_, nofun⟩
    · simp [offset]
    · rw [show pathOffset.toNat = 0 by simp [offset]]
      rfl
  · rw [List.concat_eq_append] at stored apart offset ⊢
    rw [List.dropLast_concat]
    have whole : render 47 (init ++ [c]) = render 47 init ++ (c ++ [47]) := by simp
    rw [whole] at stored offset
    simp only [List.length_append, List.length_singleton] at offset
    have below (k : Int) (before : k < pathOffset - 1) :
        resetString absPath (pathOffset - 1) k = absPath k :=
      Function.update_of_ne (by omega) _ _
    have kept (k : Nat) (inside : k < (render 47 init).length) :
        resetString absPath (pathOffset - 1) k = (render 47 init).getD k 0 := by
      rw [below k (by omega), stored.chars k (by simp; omega), List.getElem_append_left inside]
      simp [inside]
    have plain (k : Int) (above : ((render 47 init).length : Int) - 1 < k)
        (upTo : k ≤ ((render 47 init).length : Int) - 1 + (c.length + 1 : Nat)) :
        resetString absPath (pathOffset - 1) k ≠ 47 := by
      by_cases last : k = pathOffset - 1
      · rw [last, resetString, Function.update_self]
        decide
      · obtain ⟨j, rfl⟩ : ∃ j : Nat, k = ((render 47 init).length + j : Nat) :=
          ⟨(k - (render 47 init).length).toNat, by omega⟩
        have inside : j < c.length := by omega
        rw [below _ (by omega), stored.chars _ (by simp; omega),
          List.getElem_append_right (Nat.le_add_right _ _)]
        simp only [Nat.add_sub_cancel_left]
        rw [List.getElem_append_left inside]
        intro slash
        exact apart c (by simp) (slash ▸ List.getElem_mem inside)
    have halt : resetString absPath (pathOffset - 1) ((render 47 init).length - 1) = 47 ∨
        ((render 47 init).length : Int) - 1 < 0 := by
      by_cases root : init = []
      · subst root
        exact Or.inr (by decide)
      · left
        have last : (render 47 init).getLast? = some 47 := Lib.render_getLast root
        rw [List.getLast?_eq_getElem?] at last
        have some : 0 < (render 47 init).length :=
          List.length_pos_iff.mpr (mt Lib.render_eq_nil.mp root)
        have here := kept ((render 47 init).length - 1) (by omega)
        rwa [List.getD_eq_getElem?_getD, last, Nat.cast_sub some] at here
    have enough : c.length + 1 ≤ pathOffset.toNat := by omega
    obtain ⟨absPath', walked, same⟩ := unwindLoop_back plain halt (by omega) enough
    refine ⟨c.length + 1, _, absPath', by omega, rfl, walked, fun k inside => ?_⟩
    rw [same k (by omega), kept k inside]

/-- Two dots take the last component away, and with it the `/` in front of it. -/
theorem deriveLoop_back (rest : List UInt8) (apart : ∀ c ∈ stack, 47 ∉ c)
    (stored : Stored (render 47 stack) absPath pathOffset) :
    ∃ (p : Int) (absPath' : Buffer), deriveLoop (up ++ rest) absPath pathOffset =
      deriveLoop rest absPath' p ∧ p = (render 47 stack.dropLast).length - 1 ∧
      ∀ k : Nat, k < (render 47 stack.dropLast).length →
        absPath' k = (render 47 stack.dropLast).getD k 0 := by
  obtain ⟨n, p, absPath', start, front, walked, kept⟩ := unwindLoop_up apart stored
  refine ⟨p, absPath', ?_, front, kept⟩
  rw [start] at walked
  rw [List.cons_append, List.cons_append, List.nil_append, deriveLoop, if_pos ⟨rfl, rfl⟩, walked]

/-- The `/` behind them takes its place. -/
theorem deriveLoop_up (rest : List UInt8) (apart : ∀ c ∈ stack, 47 ∉ c)
    (stored : Stored (render 47 stack) absPath pathOffset) :
    ∃ absPath' pathOffset', deriveLoop (up ++ 47 :: rest) absPath pathOffset =
      deriveLoop rest absPath' pathOffset' ∧
        Stored (render 47 stack.dropLast) absPath' pathOffset' := by
  obtain ⟨p, absPath', walked, front, kept⟩ := deriveLoop_back (47 :: rest) apart stored
  refine ⟨Function.update absPath' p 47, p + 1, ?_, by omega, fun k inside => ?_⟩
  · rw [walked]
    exact deriveLoop_push fun both => absurd both.1 (by decide)
  · have stays := kept k inside
    rw [List.getD_eq_getElem _ _ inside] at stays
    by_cases last : (k : Int) = p
    · -- The `/` is stored over itself.
      have some : stack.dropLast ≠ [] := by
        intro none
        rw [none] at inside
        exact absurd inside (Nat.not_lt_zero k)
      have slash : (render 47 stack.dropLast).getLast? = Option.some 47 := Lib.render_getLast some
      rw [List.getLast?_eq_getElem?, show (render 47 stack.dropLast).length - 1 = k by omega,
        List.getElem?_eq_getElem inside, Option.some_inj] at slash
      rw [last, Function.update_self, slash]
    · rw [Function.update_of_ne last, stays]

theorem apart_concat (apart : ∀ c ∈ stack, 47 ∉ c) (plain : 47 ∉ c) :
    ∀ d ∈ stack ++ [c], 47 ∉ d :=
  List.forall_mem_append.mpr ⟨apart, List.forall_mem_singleton.mpr plain⟩

/-- A path of names and ways up is resolved. -/
theorem deriveLoop_render (rest : List UInt8) (apart : ∀ c ∈ stack, 47 ∉ c)
    (path : ∀ c ∈ comps, Name c ∨ c = up) (stored : Stored (render 47 stack) absPath pathOffset) :
    ∃ absPath' pathOffset', deriveLoop (render 47 comps ++ rest) absPath pathOffset =
      deriveLoop rest absPath' pathOffset' ∧
        Stored (render 47 (resolve up stack comps)) absPath' pathOffset' := by
  induction comps generalizing stack absPath pathOffset with
  | nil => exact ⟨absPath, pathOffset, rfl, stored⟩
  | cons c comps ih =>
    have later : ∀ c ∈ comps, Name c ∨ c = up := fun d member => path d (List.mem_cons_of_mem c member)
    rw [render_cons, List.append_assoc, List.cons_append]
    by_cases back : c = up
    · subst back
      obtain ⟨b, o, walked, after⟩ := deriveLoop_up (render 47 comps ++ rest) apart stored
      rw [walked, Lib.resolve_up]
      exact ih (fun d member => apart d ((List.dropLast_prefix stack).mem member)) later after
    · have name := (path c List.mem_cons_self).resolve_right back
      obtain ⟨b, o, walked, after⟩ := deriveLoop_name (render 47 comps ++ rest) name.dots stored
      rw [walked, Lib.resolve_cons back]
      exact ih (apart_concat apart name.apart) later (by simpa using after)

/-- What is stored is read back, once it has its terminator. -/
theorem Stored.read (stored : Stored s absPath pathOffset) (string : 0 ∉ s) :
    readString (resetString (resetString absPath pathOffset) (pathOffset + 1)) = s.take 100 := by
  have offset := stored.offset
  refine cString_take (fun k inside => ?_) ?_ string
  · rw [Nat.zero_add, resetString, Function.update_of_ne (by omega), resetString,
      Function.update_of_ne (by omega), stored.chars k inside]
  · rw [Nat.zero_add, resetString, Function.update_of_ne (by omega), resetString, ← offset,
      Function.update_self]

theorem Name.ne_up (name : Name c) : c ≠ up := by
  rintro rfl
  exact name.dots (List.infix_refl _)

theorem component_string (component : Name c ∨ c = up) : 0 ∉ c := by
  rcases component with name | rfl
  · exact name.string
  · decide

/-- Names and ways up leave names. -/
theorem resolve_name {base : List (List UInt8)} (names : ∀ c ∈ base, Name c)
    (path : ∀ c ∈ comps, Name c ∨ c = up) : ∀ c ∈ resolve up base comps, Name c := by
  intro c member
  rcases Lib.mem_resolve member with old | ⟨new, other⟩
  · exact names c old
  · exact (path c new).resolve_right other

theorem render_string (names : ∀ c ∈ comps, 0 ∉ c) : 0 ∉ render (47 : UInt8) comps := by
  intro member
  rcases Lib.mem_render member with slash | ⟨c, inside, here⟩
  · exact absurd slash (by decide)
  · exact names c inside here

/-- The buffer holds the normal form of the path, as far as it is read. -/
theorem derivedPath_render {currDir path : List UInt8} {base : List (List UInt8)} {fpath : Buffer}
    (names : ∀ c ∈ base, Name c) (components : ∀ c ∈ comps, Name c ∨ c = up)
    (file : filePath currDir path = render 47 (base ++ comps)) (string : 0 ∉ path)
    (short : path.length < 100) :
    derivedPath currDir fpath path = (render 47 (resolve up base comps)).take 100 := by
  have both : ∀ c ∈ base ++ comps, Name c ∨ c = up := by
    intro c member
    rcases List.mem_append.mp member with old | new
    · exact Or.inl (names c old)
    · exact components c new
  have start : resolve up [] (base ++ comps) = resolve up base comps := by
    rw [Lib.resolve_append, Lib.resolve_plain fun c member => (names c member).ne_up, List.nil_append]
  have empty : Stored (render 47 []) (resetString (strcpy fpath path) 0) 0 := ⟨rfl, nofun⟩
  have root : ∀ c ∈ ([] : List (List UInt8)), 47 ∉ c := nofun
  obtain ⟨absPath, pathOffset, walked, stored⟩ := deriveLoop_render [] root both empty
  rw [start] at stored
  rw [List.append_nil] at walked
  have whole : readString (strcpy fpath path) = path := by
    rw [readString_strcpy string, List.take_of_length_le (by omega)]
  unfold derivedPath deriveRelative
  rw [whole, file]
  dsimp only
  rw [walked]
  exact stored.read (render_string fun c member => (resolve_name names components c member).string)

end

/-! ## What the buffer held before -/

/-- Two buffers agree up to the offset; at the front or before it they hold the same string. -/
structure Alike (pathOffset : Int) (b b' : Buffer) : Prop where
  chars : ∀ k, 0 ≤ k → k < pathOffset → b k = b' k
  front : pathOffset ≤ 0 → ∃ n : Nat, (∀ k : Nat, k < n → b k = b' k) ∧ b n = 0 ∧ b' n = 0

section

variable {b b' : Buffer} {o : Int}

theorem Alike.store (alike : Alike o b b') (x : UInt8) :
    Alike (o + 1) (Function.update b o x) (Function.update b' o x) := by
  refine ⟨fun k low high => ?_, fun before => ?_⟩
  · by_cases last : k = o
    · rw [last, Function.update_self, Function.update_self]
    · rw [Function.update_of_ne last, Function.update_of_ne last]
      exact alike.chars k low (by omega)
  · -- In front of the buffer, nothing is stored in the string.
    obtain ⟨n, same, zero, zero'⟩ := alike.front (by omega)
    refine ⟨n, fun k inside => ?_, ?_, ?_⟩
    · rw [Function.update_of_ne (by omega), Function.update_of_ne (by omega)]
      exact same k inside
    · rwa [Function.update_of_ne (by omega)]
    · rwa [Function.update_of_ne (by omega)]

/-- Up to the offset and with the character there. -/
structure AlikeAt (o : Int) (b b' : Buffer) : Prop where
  chars : ∀ k, 0 ≤ k → k ≤ o → b k = b' k
  front : o ≤ 0 → ∃ n : Nat, (∀ k : Nat, k < n → b k = b' k) ∧ b n = 0 ∧ b' n = 0

/-- A terminator at the offset, the step with which the way back begins. -/
theorem Alike.reset (alike : Alike (o + 1) b b') :
    AlikeAt o (resetString b o) (resetString b' o) := by
  have same (k : Int) (low : 0 ≤ k) (high : k ≤ o) : resetString b o k = resetString b' o k := by
    unfold resetString
    by_cases last : k = o
    · rw [last, Function.update_self, Function.update_self]
    · rw [Function.update_of_ne last, Function.update_of_ne last]
      exact alike.chars k low (by omega)
  refine ⟨same, fun before => ?_⟩
  by_cases root : o = 0
  · subst root
    exact ⟨0, nofun, Function.update_self 0 _ _, Function.update_self 0 _ _⟩
  · obtain ⟨n, agree, zero, zero'⟩ := alike.front (by omega)
    unfold resetString
    refine ⟨n, fun k inside => ?_, ?_, ?_⟩
    · rw [Function.update_of_ne (by omega), Function.update_of_ne (by omega)]
      exact agree k inside
    · rwa [Function.update_of_ne (by omega)]
    · rwa [Function.update_of_ne (by omega)]

theorem AlikeAt.unwind (fuel : Nat) (alike : AlikeAt o b b') :
    (unwindLoop fuel b o).2 = (unwindLoop fuel b' o).2 ∧
      AlikeAt (unwindLoop fuel b o).2 (unwindLoop fuel b o).1 (unwindLoop fuel b' o).1 := by
  induction fuel generalizing o b b' with
  | zero => exact ⟨rfl, alike⟩
  | succ fuel ih =>
    have agree : b o ≠ 47 ∧ 0 ≤ o ↔ b' o ≠ 47 ∧ 0 ≤ o := by
      constructor
      · rintro ⟨other, low⟩
        exact ⟨alike.chars o low (Int.le_refl o) ▸ other, low⟩
      · rintro ⟨other, low⟩
        exact ⟨alike.chars o low (Int.le_refl o) ▸ other, low⟩
    by_cases more : b o ≠ 47 ∧ 0 ≤ o
    · rw [unwindLoop, unwindLoop, if_pos more, if_pos (agree.mp more)]
      refine ih ⟨fun k low high => ?_, fun before => ?_⟩
      · unfold resetString
        rw [Function.update_of_ne (by omega), Function.update_of_ne (by omega)]
        exact alike.chars k low (by omega)
      · -- The terminator just stored ends both strings.
        obtain ⟨n, rfl⟩ : ∃ n : Nat, o = n := ⟨o.toNat, by omega⟩
        unfold resetString
        refine ⟨n, fun k inside => ?_, Function.update_self _ _ _, Function.update_self _ _ _⟩
        rw [Function.update_of_ne (by omega), Function.update_of_ne (by omega)]
        exact alike.chars k (by omega) (by omega)
    · rw [unwindLoop, unwindLoop, if_neg more, if_neg (mt agree.mpr more)]
      exact ⟨rfl, alike⟩

theorem Alike.deriveLoop (alike : Alike o b b') (path : List UInt8) :
    (deriveLoop path b o).2 = (deriveLoop path b' o).2 ∧
      Alike (deriveLoop path b o).2 (deriveLoop path b o).1 (deriveLoop path b' o).1 := by
  induction path, b, o using deriveLoop.induct generalizing b' with
  | case1 b o => exact ⟨rfl, alike⟩
  | case2 c b o => exact ⟨rfl, alike.store c⟩
  | case3 c d rest b o dots absPath pathOffset unwound ih =>
    have before : Alike (o - 1 + 1) b b' := by rwa [Int.sub_add_cancel]
    obtain ⟨same, after⟩ := before.reset.unwind o.toNat
    rw [Descriptors.deriveLoop, Descriptors.deriveLoop, if_pos dots, if_pos dots, unwound]
    cases unwound' : unwindLoop o.toNat (resetString b' (o - 1)) (o - 1) with
    | mk absPath' pathOffset' =>
      rw [unwound, unwound'] at same after
      cases same
      exact ih ⟨fun k low high => after.chars k low high.le, after.front⟩
  | case4 c d rest b o other ih =>
    rw [Descriptors.deriveLoop, Descriptors.deriveLoop, if_neg other, if_neg other]
    exact ih (alike.store c)

/-- The two terminators make the strings the same. -/
theorem Alike.read (alike : Alike o b b') :
    readString (resetString (resetString b o) (o + 1)) =
      readString (resetString (resetString b' o) (o + 1)) := by
  unfold resetString
  by_cases inside : 0 ≤ o
  · obtain ⟨n, rfl⟩ : ∃ n : Nat, o = n := ⟨o.toNat, by omega⟩
    refine cString_congr (n := n) (fun k before => ?_) ?_ ?_
    · rw [Nat.zero_add, Function.update_of_ne (by omega), Function.update_of_ne (by omega),
        Function.update_of_ne (by omega), Function.update_of_ne (by omega)]
      exact alike.chars k (by omega) (by omega)
    · rw [Nat.zero_add, Function.update_of_ne (by omega), Function.update_self]
    · rw [Nat.zero_add, Function.update_of_ne (by omega), Function.update_self]
  · obtain ⟨n, same, zero, zero'⟩ := alike.front (by omega)
    by_cases next : o + 1 = 0
    · refine cString_congr (n := 0) nofun ?_ ?_
      · rw [next]
        exact Function.update_self _ _ _
      · rw [next]
        exact Function.update_self _ _ _
    · refine cString_congr (n := n) (fun k before => ?_) ?_ ?_
      · rw [Nat.zero_add, Function.update_of_ne (by omega), Function.update_of_ne (by omega),
          Function.update_of_ne (by omega), Function.update_of_ne (by omega)]
        exact same k before
      · rwa [Nat.zero_add, Function.update_of_ne (by omega), Function.update_of_ne (by omega)]
      · rwa [Nat.zero_add, Function.update_of_ne (by omega), Function.update_of_ne (by omega)]

/-- What becomes of a path does not depend on the buffer that it is copied to. -/
theorem derivedPath_around (currDir path : List UInt8) (fpath k : Buffer) :
    derivedPath currDir fpath path = derivedPath currDir k path := by
  have start : Alike 0 (resetString (strcpy fpath path) 0) (resetString (strcpy k path) 0) :=
    ⟨fun _ low high => absurd low (Int.not_le.mpr high),
      fun _ => ⟨0, nofun, Function.update_self _ _ _, Function.update_self _ _ _⟩⟩
  obtain ⟨same, after⟩ :=
    start.deriveLoop (filePath currDir (readString (strcpy k path)))
  unfold derivedPath deriveRelative
  rw [readString_strcpy_around fpath k path]
  dsimp only
  rw [← same]
  exact after.read

end

end LateOS
