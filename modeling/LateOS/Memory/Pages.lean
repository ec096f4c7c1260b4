import LateOS.Memory.Load

/-!
# Runs of pages

The loaders and `malloc` map one page after the other, each to the next free frame.
-/
namespace LateOS

open Lib

namespace Machine

variable {m m' m1 m'' : Machine} {use use' : Word → Use} {roots : Set Word} {r f t : Word}
  {v start count : Nat} {frames : List Word} {path : List Nat}

/-! ## Enough frames -/

theorem getFreeFrame_total (enough : 1 ≤ m.head.length) :
    ∃ f m', m.getFreeFrame = some (f, m') ∧ m.head.length = m'.head.length + 1 := by
  obtain ⟨f, rest, head⟩ := List.exists_cons_of_length_pos (l := m.head) (by omega)
  unfold getFreeFrame
  rw [head]
  exact ⟨f, _, rfl, rfl⟩

/-- A way down takes at most one frame for each of its tables. -/
theorem descend_total (path : List Nat) (t : Word) (m : Machine)
    (enough : path.length ≤ m.head.length) :
    ∃ g m', descend path t m = some (g, m') ∧ m.head.length ≤ m'.head.length + path.length := by
  induction path generalizing t m with
  | nil => exact ⟨t, m, rfl, Nat.le_refl _⟩
  | cons i path ih =>
    rw [List.length_cons] at enough
    rw [descend_cons, List.length_cons]
    split
    · obtain ⟨g, m', went, left⟩ := ih (frame (m.mem t i)) m (by omega)
      exact ⟨g, m', went, by omega⟩
    · obtain ⟨f, m1, popped, fewer⟩ := getFreeFrame_total (m := m) (by omega)
      have linked : m.linkTable t i = some (f, (m1.write t i (entry f 7)).zero f) := by
        unfold linkTable
        rw [popped]
        rfl
      have head : ((m1.write t i (entry f 7)).zero f).head = m1.head := rfl
      obtain ⟨g, m', went, left⟩ := ih f ((m1.write t i (entry f 7)).zero f) (by rw [head]; omega)
      rw [head] at left
      refine ⟨g, m', ?_, by omega⟩
      rw [linked]
      exact went

theorem initTaskPagetables_total (v : Nat) (f r : Word) (enough : 3 ≤ m.head.length) :
    ∃ m', m.initTaskPagetables v f r = some m' ∧ m.head.length ≤ m'.head.length + 3 := by
  obtain ⟨g, m1, went, left⟩ := descend_total (upperPath v) r
    (m.write r 511 (entry (m.mem m.pml4e 511) 7)) enough
  rw [initTaskPagetables_eq, went]
  exact ⟨_, rfl, left⟩

/-- One more page. -/
theorem mapPage_total (v : Nat) (r : Word) (enough : 4 ≤ m.head.length) :
    ∃ f m1 m', m.getFreeFrame = some (f, m1) ∧ m1.initTaskPagetables v f r = some m' ∧
      m.head.length ≤ m'.head.length + 4 := by
  obtain ⟨f, m1, popped, fewer⟩ := getFreeFrame_total (m := m) (by omega)
  obtain ⟨m', mapped, left⟩ := initTaskPagetables_total (m := m1) v f r (by omega)
  exact ⟨f, m1, m', popped, mapped, by omega⟩

/-! ## What is mapped -/

theorem SamePage.refl (v : Nat) : SamePage v v := ⟨rfl, rfl⟩

theorem SamePage.symm {v w : Nat} (same : SamePage v w) : SamePage w v :=
  ⟨same.1.symm, same.2.symm⟩

theorem SamePage.trans {u v w : Nat} (first : SamePage u v) (second : SamePage v w) :
    SamePage u w :=
  ⟨first.1.trans second.1, first.2.trans second.2⟩

theorem samePage_iff (v w : Nat) : SamePage v w ↔ v / 4096 % 2 ^ 36 = w / 4096 % 2 ^ 36 := by
  unfold SamePage upperPath pml4Index pdptIndex pdIndex ptIndex
  simp only [index_eq, List.cons.injEq, and_true]
  constructor
  · rintro ⟨⟨one, two, three⟩, four⟩
    omega
  · intro same
    refine ⟨⟨?_, ?_, ?_⟩, ?_⟩ <;> omega

theorem SamePage.user {w : Nat} (same : SamePage v w) (user : UserAddress v) : UserAddress w := by
  unfold UserAddress at user ⊢
  rw [← (List.cons.inj same.1).1]
  exact user

/-- The frames that stay free keep what was left in them. -/
theorem Sound.descend_stale {g : Word} {p : List Nat} (sound : m.Sound use)
    (serves : use t = .table r p) (inner : InnerPath Inner p path)
    (ran : Machine.descend path t m = some (g, m')) : ∀ x ∈ m'.head, m'.mem x = m.mem x := by
  have all : m'.head <:+ m.head ∧ ∀ x ∈ m'.head, m'.mem x = m.mem x := by
    refine sound.descend_induct
      (C := fun s _ => m'.head <:+ s.head ∧ ∀ x ∈ m'.head, m'.mem x = s.mem x)
      (fun _ _ => ⟨List.suffix_refl _, fun _ _ => rfl⟩) ?_ serves inner ran
    rintro s use1 t p i f s1 sound1 serves1 - - taken ⟨suffix, same⟩
    refine ⟨suffix.trans taken.suffix, fun x member => ?_⟩
    have free : x ∈ s1.head := suffix.mem member
    rw [same x member]
    -- Only the table above and the new table have been written.
    have notNew : x ≠ f := by
      rintro rfl
      exact taken.out free
    have notTable : x ≠ t := by
      rintro rfl
      rw [sound1.free x (taken.suffix.mem free)] at serves1
      cases serves1
    funext j
    rw [fill_mem, if_neg fun both => notTable both.1, if_neg notNew, taken.mem]
  exact all.2

theorem Sound.initTaskPagetables_stale {v : Nat} (sound : m.Sound use) (root : use r = .table r [])
    (user : UserAddress v) (ran : m.initTaskPagetables v f r = some m') :
    ∀ x ∈ m'.head, m'.mem x = m.mem x := by
  obtain ⟨t, m2, use1, first, went, down, _, rfl⟩ := sound.initTaskPagetables_cases root user ran
  have inner := innerPath_upper user
  intro x member
  have free : x ∈ m.head := down.within.head.mem member
  -- Only the root, the new tables and the leaf table have been written.
  have notLeaf : x ≠ t := by
    rintro rfl
    have serves := down.serves
    rw [down.sound.free x member] at serves
    cases serves
  have notRoot : x ≠ r := by
    rintro rfl
    rw [sound.free x free] at root
    cases root
  have last : (enter v f (t, m2)).mem x = m2.mem x := write_mem_of_ne m2 t _ _ notLeaf
  rw [last, first.descend_stale root inner went x member, write_mem_of_ne m r _ _ notRoot]

/-- `count` pages from `start` on are mapped to frames of their own, which were free. -/
structure Spread (m : Machine) (use : Word → Use) (r : Word) (start count : Nat) (m' : Machine)
    (use' : Word → Use) (frames : List Word) : Prop where
  sound : m'.Sound use'
  within : Within {r} m use m' use'
  user : ∀ p < count, UserAddress (start + 4096 * p)
  length : frames.length = count
  nodup : frames.Nodup
  free : ∀ f ∈ frames, f ∈ m.head ∧ f ∉ m'.head
  data : ∀ f ∈ frames, use' f = .data
  stale : ∀ f, f ∈ frames ∨ f ∈ m'.head → m'.mem f = m.mem f
  here : ∀ p f, frames[p]? = some f → ∀ v, SamePage (start + 4096 * p) v →
    m'.translate r v = some (entry f 7)
  rest : ∀ v, UserAddress v → (∀ p < count, ¬SamePage (start + 4096 * p) v) →
    m'.translate r v = m.translate r v

theorem Spread.refl (sound : m.Sound use) (start : Nat) : Spread m use r start 0 m use [] :=
  ⟨sound, .refl, nofun, rfl, .nil, nofun, nofun, fun _ _ => rfl, nofun, fun _ _ _ => rfl⟩

theorem Spread.root (spread : Spread m use r start count m' use' frames)
    (root : use r = .table r []) : use' r = .table r [] :=
  (spread.within.kept r (by simp [root])).trans root

/-- Between the first of the pages and the end of the last every address is mapped. -/
theorem Spread.covers {v : Nat} (spread : Spread m use r start count m' use' frames)
    (aligned : 4096 ∣ start) (above : start ≤ v) (below : v < start + 4096 * count) :
    ∃ f, m'.translate r v = some (entry f 7) := by
  have inside : (v - start) / 4096 < frames.length := by
    rw [spread.length]
    omega
  have same : SamePage (start + 4096 * ((v - start) / 4096)) v := by
    rw [samePage_iff]
    omega
  exact ⟨_, spread.here _ _ (List.getElem?_eq_getElem inside) v same⟩

/-- The next page, which is none of the pages before it. -/
theorem Spread.next (spread : Spread m use r start count m' use' frames)
    (root : use r = .table r []) (user : UserAddress (start + 4096 * count))
    (apart : ∀ p < count, ¬SamePage (start + 4096 * p) (start + 4096 * count))
    (popped : m'.getFreeFrame = some (f, m1))
    (ran : m1.initTaskPagetables (start + 4096 * count) f r = some m'') :
    ∃ use'', Spread m use r start (count + 1) m'' use'' (frames ++ [f]) := by
  have taken := spread.sound.getFreeFrame popped
  have root' := spread.root root
  obtain ⟨use2, page⟩ := taken.sound.initTaskPagetables root' user taken.spare taken.out
    taken.aligned ran
  have before (w : Nat) : m1.translate r w = m'.translate r w := by
    unfold translate tables
    rw [taken.mem]
  refine ⟨use2, page.sound, spread.within.trans (taken.within.trans page.within), fun p below => ?_,
    ?_, ?_, ?_, ?_, ?_, ?_, ?_⟩
  · by_cases last : p = count
    · rw [last]
      exact user
    · exact spread.user p (by omega)
  · rw [List.length_append, spread.length, List.length_singleton]
  · refine List.nodup_append.mpr ⟨spread.nodup, List.nodup_singleton f, fun g member h last => ?_⟩
    rw [List.mem_singleton.mp last]
    rintro rfl
    exact (spread.free g member).2 taken.member
  · intro g member
    have shrunk : m''.head <:+ m1.head := page.within.head
    rcases List.mem_append.mp member with old | new
    · obtain ⟨was, gone⟩ := spread.free g old
      exact ⟨was, fun back => gone (taken.suffix.mem (shrunk.mem back))⟩
    · cases List.mem_singleton.mp new
      exact ⟨spread.within.head.mem taken.member, fun back => taken.out (shrunk.mem back)⟩
  · intro g member
    rcases List.mem_append.mp member with old | new
    · have data := spread.data g old
      exact (page.within.kept g (by simp [data])).trans data
    · cases List.mem_singleton.mp new
      exact page.data
  · intro g which
    -- What was in the frame before this round was in it at the start.
    have early (member : g ∈ frames ∨ g ∈ m'.head) (same : m''.mem g = m1.mem g) :
        m''.mem g = m.mem g := by
      rw [same, taken.mem]
      exact spread.stale g member
    rcases which with member | member
    · rcases List.mem_append.mp member with old | new
      · have data := spread.data g old
        refine early (Or.inl old) (page.within.mem g (fun back => ?_) fun r' q table => ?_)
        · exact (spread.free g old).2 (taken.suffix.mem back)
        · rw [data] at table
          cases table
      · cases List.mem_singleton.mp new
        refine early (Or.inr taken.member) (page.within.mem f taken.out fun r' q table => ?_)
        rw [taken.spare] at table
        cases table
    · have free : g ∈ m1.head := page.within.head.mem member
      refine early (Or.inr (taken.suffix.mem free)) ?_
      exact taken.sound.initTaskPagetables_stale root' user ran g member
  · intro p g found w same
    by_cases last : p = count
    · subst last
      rw [← spread.length, List.getElem?_concat_length] at found
      cases found
      exact page.here w same
    · have earlier : p < count := by
        have bound := (List.getElem?_eq_some_iff.mp found).1
        rw [List.length_append, spread.length, List.length_singleton] at bound
        omega
      rw [List.getElem?_append_left (by rw [spread.length]; exact earlier)] at found
      have reached := spread.here p g found w same
      have userW := same.user (spread.user p earlier)
      rw [page.others r w root' userW fun both => apart p earlier (same.trans both.2.symm), before]
      exact reached
  · intro w userW out
    rw [page.others r w root' userW fun both => out count (Nat.lt_succ_self _) both.2, before]
    exact spread.rest w userW fun p earlier => out p (Nat.lt_succ_of_lt earlier)

/-- Each page takes a frame. -/
theorem Spread.left (spread : Spread m use r start count m' use' frames) :
    m'.head.length + count ≤ m.head.length := by
  obtain ⟨front, split⟩ := spread.within.head
  -- The frames have gone from the front of the free list.
  have inFront : ∀ f ∈ frames, f ∈ front := fun f member => by
    obtain ⟨was, gone⟩ := spread.free f member
    rw [← split] at was
    exact (List.mem_append.mp was).resolve_right gone
  have fewer := (spread.nodup.subperm inFront).length_le
  rw [spread.length] at fewer
  rw [← split, List.length_append]
  omega

theorem Spread.byteAt (spread : Spread m use r start count m' use' frames) (sound : m.Sound use)
    (root : use r = .table r []) (user : UserAddress v)
    (out : ∀ p < count, ¬SamePage (start + 4096 * p) v) : m'.byteAt r v = m.byteAt r v := by
  unfold Machine.byteAt
  rw [spread.rest v user out]
  cases found : m.translate r v with
  | none => rfl
  | some e => simp [spread.within.mem_data sound (sound.translate_facts root user found).2.1]

/-- A range of user addresses does not wrap around: its addresses are bytes of their own. -/
theorem not_sameByte {last u w : Nat} (user : ∀ v, start ≤ v → v < last → UserAddress v)
    (above : start ≤ u) (before : u < w) (inside : w < last) : ¬SameByte u w := by
  rintro ⟨page, low⟩
  rw [samePage_iff] at page
  -- The two are at least 2^48 apart, so that slot 511 lies between them.
  have top := user ((u / 2 ^ 39 + (511 - u / 2 ^ 39 % 512)) * 2 ^ 39)
  have first := user u above (by omega)
  unfold UserAddress pml4Index at top first
  rw [index_eq] at top first
  omega

theorem not_samePage {last p q : Nat} (user : ∀ v, start ≤ v → v < last → UserAddress v)
    (before : p < q) (inside : start + 4096 * q < last) :
    ¬SamePage (start + 4096 * p) (start + 4096 * q) := by
  intro same
  have low : (start + 4096 * p) % 4096 = (start + 4096 * q) % 4096 := by omega
  exact not_sameByte user (by omega) (by omega) inside ⟨same, low⟩

/-- The loop of the loaders. -/
theorem Sound.mapPages {k last : Nat} (sound : m.Sound use) (root : use r = .table r [])
    (user : ∀ v, k ≤ v → v < last → UserAddress v) (ran : m.mapPages r k last = some m') :
    ∃ use' frames, Spread m use r k ((last - k + 4095) / 4096) m' use' frames := by
  refine loop_inv (I := fun i s => ∃ use' frames, Spread m use r k i s use' frames)
    ⟨use, [], .refl sound k⟩ ?_ ran
  intro i s s' below ⟨use1, frames, spread⟩ ran
  obtain ⟨⟨f, s1⟩, popped, mapped⟩ := Option.bind_eq_some_iff.mp ran
  have inside : k + 4096 * i < last := by omega
  obtain ⟨use2, next⟩ := spread.next root (user _ (by omega) inside)
    (fun p earlier => not_samePage user earlier inside) popped mapped
  exact ⟨use2, _, next⟩

theorem mapPages_total (r : Word) (k last : Nat)
    (enough : 4 * ((last - k + 4095) / 4096) ≤ m.head.length) :
    ∃ m', m.mapPages r k last = some m' ∧
      m.head.length ≤ m'.head.length + 4 * ((last - k + 4095) / 4096) := by
  refine loop_total (I := fun i (s : Machine) => m.head.length ≤ s.head.length + 4 * i)
    (Nat.le_refl _) ?_
  intro i s below left
  obtain ⟨f, s1, s', popped, mapped, fewer⟩ :=
    mapPage_total (m := s) (k + 4096 * i) r (by omega)
  refine ⟨s', ?_, by omega⟩
  rw [popped]
  exact mapped

end Machine

/-! ## malloc -/

open Machine

variable {m m' : Machine} {use : Word → Use} {ts ts' : TaskStruct} {first heap : VmaStruct}
  {rest : List VmaStruct} {ret n : Nat}

theorem malloc_rounds (n : Nat) : ((n : Int).tdiv 4096 + 1).toNat = n / 4096 + 1 := by
  have same : (n : Int).tdiv 4096 = ((n / 4096 : Nat) : Int) := rfl
  rw [same]
  omega

/-- The body of the loop of `malloc`. -/
def growHeap (r : Word) (_ : Nat) (grown : VmaStruct × Machine) : Option (VmaStruct × Machine) :=
  grown.2.getFreeFrame.bind fun (s_add, m) =>
    (m.initTaskPagetables grown.1.lastAddress s_add r).map fun m =>
      ({ grown.1 with lastAddress := grown.1.lastAddress + 4096 }, m)

theorem malloc_eq (shape : ts.vm = first :: heap :: rest) (n : Nat) (m : Machine) :
    malloc ts n m = (loop (n / 4096 + 1) (growHeap ts.pml4e) (heap, m)).map fun grown =>
      (heap.lastAddress, { ts with vm := first :: grown.1 :: rest }, grown.2) := by
  have body : (fun (_ : Nat) (x : VmaStruct × Machine) => do
      let (s_add, m) ← x.2.getFreeFrame
      let m ← m.initTaskPagetables x.1.lastAddress s_add ts.pml4e
      some ({ x.1 with lastAddress := x.1.lastAddress + 4096 }, m)) = growHeap ts.pml4e := by
    funext _ x
    unfold growHeap
    cases x.2.getFreeFrame with
    | none => rfl
    | some popped =>
      obtain ⟨f, m1⟩ := popped
      change (m1.initTaskPagetables _ f _).bind _ = (m1.initTaskPagetables _ f _).map _
      cases m1.initTaskPagetables x.1.lastAddress f ts.pml4e <;> rfl
  unfold malloc
  rw [shape, malloc_rounds, ← body]
  change Option.bind _ _ = _
  cases loop (n / 4096 + 1) _ (heap, m) <;> rfl

/-- With enough frames `malloc` returns. -/
theorem malloc_total (shape : ts.vm = first :: heap :: rest)
    (enough : 4 * (n / 4096 + 1) ≤ m.head.length) : ∃ ret ts' m', malloc ts n m = some (ret, ts', m') := by
  obtain ⟨grown, ran, -⟩ : ∃ grown, loop (n / 4096 + 1) (growHeap ts.pml4e) (heap, m) = some grown ∧
      m.head.length ≤ grown.2.head.length + 4 * (n / 4096 + 1) := by
    refine loop_total (I := fun i (s : VmaStruct × Machine) =>
      m.head.length ≤ s.2.head.length + 4 * i) (Nat.le_refl _) fun i s below left => ?_
    obtain ⟨f, s1, s', popped, mapped, fewer⟩ :=
      mapPage_total (m := s.2) s.1.lastAddress ts.pml4e (by omega)
    refine ⟨({ s.1 with lastAddress := s.1.lastAddress + 4096 }, s'), ?_, by dsimp only; omega⟩
    unfold growHeap
    rw [popped, Option.bind_some]
    dsimp only
    rw [mapped]
    rfl
  rw [malloc_eq shape, ran]
  exact ⟨_, _, _, rfl⟩

/-- The pages that `malloc` maps. -/
theorem Machine.Sound.malloc_spread (sound : m.Sound use) (root : use ts.pml4e = .table ts.pml4e [])
    (shape : ts.vm = first :: heap :: rest)
    (room : heap.lastAddress + 4096 * m.head.length ≤ heapLimit)
    (ran : LateOS.malloc ts n m = some (ret, ts', m')) :
    ret = heap.lastAddress ∧
    ts' = { ts with vm := first ::
      { heap with lastAddress := heap.lastAddress + 4096 * (n / 4096 + 1) } :: rest } ∧
    ∃ use' frames,
      Spread m use ts.pml4e heap.lastAddress (n / 4096 + 1) m' use' frames := by
  have user : ∀ v, heap.lastAddress ≤ v → v < heap.lastAddress + 4096 * m.head.length →
      UserAddress v := fun v _ below =>
    user_of_small (Nat.lt_of_lt_of_le below (room.trans (by decide)))
  rw [malloc_eq shape] at ran
  obtain ⟨grown, looped, ran⟩ := Option.map_eq_some_iff.mp ran
  cases ran
  have all : grown.1 = { heap with lastAddress := heap.lastAddress + 4096 * (n / 4096 + 1) } ∧
      ∃ use' frames,
        Spread m use ts.pml4e heap.lastAddress (n / 4096 + 1) grown.2 use' frames := by
    refine loop_inv (I := fun i (s : VmaStruct × Machine) =>
      s.1 = { heap with lastAddress := heap.lastAddress + 4096 * i } ∧ ∃ use' frames,
        Spread m use ts.pml4e heap.lastAddress i s.2 use' frames)
      ⟨rfl, use, [], .refl sound _⟩ ?_ looped
    rintro i s s' below ⟨last, use1, frames, spread⟩ ran
    obtain ⟨⟨f, s1⟩, popped, ran⟩ := Option.bind_eq_some_iff.mp ran
    obtain ⟨s2, mapped, rfl⟩ := Option.map_eq_some_iff.mp ran
    -- One frame for the page itself, so that the next page lies within the room for the frames
    -- left.
    have fewer : s1.head.length + 1 = s.2.head.length := by
      rw [(spread.sound.getFreeFrame popped).head, List.length_cons]
    have left := spread.left
    have inside : heap.lastAddress + 4096 * i < heap.lastAddress + 4096 * m.head.length := by omega
    have here : s.1.lastAddress = heap.lastAddress + 4096 * i := by rw [last]
    rw [here] at mapped
    obtain ⟨use2, next⟩ := spread.next root (user _ (by omega) inside)
      (fun p earlier => not_samePage user earlier inside) popped mapped
    refine ⟨?_, use2, _, next⟩
    rw [last]
    simp only [Nat.mul_add, Nat.mul_one, Nat.add_assoc]
  exact ⟨rfl, by rw [all.1], all.2⟩

end LateOS
