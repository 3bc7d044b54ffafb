/-
  The arenas of locked memory (src/support/lockedpool.cpp).
-/
import Rcoin.Lib.SortedMap
import Rcoin.Lib.Tiling

namespace Rcoin

open Tiling List SortedMap

/-- `align_up`, with the wrap-around of `size_t`. -/
def alignUp (x align : UInt64) : UInt64 := (x + align - 1) &&& ~~~(align - 1)

/-- An arena; the addresses of the chunks are below 2^64, and 0 is the null pointer. -/
structure Arena where
  chunks_free : SortedMap Nat Nat
  chunks_used : SortedMap Nat Nat
  base : Nat
  «end» : Nat
  alignment : UInt64

/-- The memory that an arena is made for: not at the null pointer, and with an end. -/
structure Memory where
  base : Nat
  size : Nat
  base_pos : 0 < base
  size_pos : 0 < size
  fits : base + size ≤ 2 ^ 64

namespace Arena

/-- `std::map::emplace`: an entry that is there stays. -/
def emplace (m : SortedMap Nat Nat) (k v : Nat) : SortedMap Nat Nat :=
  if (m.lookup k).isSome then m else m.insert k v

def new (mem : Memory) (alignment_in : UInt64) : Arena where
  chunks_free := emplace .empty mem.base mem.size
  chunks_used := .empty
  base := mem.base
  «end» := mem.base + mem.size
  alignment := alignment_in

/-- The pointer is 0 where nothing is allocated. -/
def alloc (s : Arena) (size : UInt64) : Nat × Arena :=
  let size := (alignUp size s.alignment).toNat
  if size = 0 then (0, s)
  else
    match s.chunks_free.entries.find? fun chunk => decide (size ≤ chunk.2) with
    | none => (0, s)
    | some it =>
      let alloced := it.1 + it.2 - size
      let used := emplace s.chunks_used alloced size
      let rest := it.2 - size
      let free := if rest = 0 then s.chunks_free.erase it.1 else s.chunks_free.insert it.1 rest
      (alloced, { s with chunks_free := free, chunks_used := used })

inductive RuntimeError where
  /-- "Arena: invalid or double free" -/
  | invalidOrDoubleFree
  deriving DecidableEq, Repr

/-- The free chunk at the upper bound of an address, and the one before it. -/
def neighbours (free : SortedMap Nat Nat) (ptr : Nat) : Option (Nat × Nat) × Option (Nat × Nat) :=
  (free.entries.find? fun c => decide (ptr < c.1),
    (free.entries.filter fun c => decide (c.1 ≤ ptr)).getLast?)

/-- Put a chunk behind the previous one, if it begins at its end: the chunk that it is then
    part of, and the chunks. -/
def joinPrev (free : SortedMap Nat Nat) (prev : Option (Nat × Nat)) (freed : Nat × Nat) :
    (Nat × Nat) × SortedMap Nat Nat :=
  match prev with
  | none => (freed, emplace free freed.1 freed.2)
  | some p =>
    if p.1 + p.2 = freed.1 then ((p.1, p.2 + freed.2), free.insert p.1 (p.2 + freed.2))
    else (freed, emplace free freed.1 freed.2)

/-- Put the next chunk behind one, if it begins at its end. -/
def joinNext (free : SortedMap Nat Nat) (prev : Nat × Nat) (next : Option (Nat × Nat)) :
    SortedMap Nat Nat :=
  match next with
  | none => free
  | some n =>
    if prev.1 + prev.2 = n.1 then (free.insert prev.1 (prev.2 + n.2)).erase n.1 else free

/-- The exception that is thrown, if one is. -/
def free (s : Arena) (ptr : Nat) : Option RuntimeError × Arena :=
  if ptr = 0 then (none, s)
  else
    match s.chunks_used.lookup ptr with
    | none => (some .invalidOrDoubleFree, s)
    | some size =>
      let used := s.chunks_used.erase ptr
      let (next, prev) := neighbours s.chunks_free ptr
      let (prev, free) := joinPrev s.chunks_free prev (ptr, size)
      (none, { s with chunks_free := joinNext free prev next, chunks_used := used })

/-- The calls a run of an arena is made of. -/
inductive Call where
  | alloc (size : UInt64)
  | free (ptr : Nat)

/-- A call, and the pointers that were allocated and not freed since. -/
def call (x : Arena × List Nat) : Call → Arena × List Nat
  | .alloc size =>
    let (ptr, s) := x.1.alloc size
    (s, if ptr = 0 then x.2 else ptr :: x.2)
  | .free ptr =>
    let (error, s) := x.1.free ptr
    (s, if error.isSome then x.2 else x.2.filter (· ≠ ptr))

def run (s : Arena) (calls : List Call) : Arena × List Nat := calls.foldl call (s, [])

/-! ## Maps of chunks -/

variable {m : SortedMap Nat Nat} {k : Nat}

theorem emplace_of_none (h : m.lookup k = none) (v : Nat) : emplace m k v = m.insert k v := by
  rw [emplace, h]
  rfl

theorem perm_insert_of_none (h : m.lookup k = none) (v : Nat) :
    (m.insert k v).entries.Perm ((k, v) :: m.entries) := by
  have hperm := m.perm_insert k v
  rwa [erase_of_none h] at hperm

section

variable {F : SortedMap Nat Nat} {ptr : Nat} {c p n : Nat × Nat}

theorem next_some (h : (neighbours F ptr).1 = some n) :
    n ∈ F.entries ∧ ptr < n.1 ∧ ∀ c ∈ F.entries, ptr < c.1 → n.1 ≤ c.1 := by
  obtain ⟨hn, before, after, heq, hbefore⟩ := find?_eq_some_iff_append.mp h
  have hsorted := F.sorted
  rw [heq] at hsorted ⊢
  refine ⟨mem_append_right _ mem_cons_self, of_decide_eq_true hn, fun c hc hlt => ?_⟩
  rcases mem_append.mp hc with hc | hc
  · have hle := hbefore c hc
    rw [decide_eq_true hlt] at hle
    cases hle
  rcases mem_cons.mp hc with rfl | hc
  · exact le_refl _
  · have hgt := (pairwise_cons.mp (pairwise_append.mp hsorted).2.1).1 c hc
    exact le_of_lt hgt

theorem next_none (h : (neighbours F ptr).1 = none) (hc : c ∈ F.entries) : c.1 ≤ ptr := by
  have hle := find?_eq_none.mp h c hc
  rw [decide_eq_true_eq] at hle
  exact not_lt.mp hle

theorem prev_some (h : (neighbours F ptr).2 = some p) :
    p ∈ F.entries ∧ p.1 ≤ ptr ∧ ∀ c ∈ F.entries, c.1 ≤ ptr → c.1 ≤ p.1 := by
  obtain ⟨before, heq⟩ := getLast?_eq_some_iff.mp h
  have hmem : ∀ c, c ∈ before ++ [p] ↔ c ∈ F.entries ∧ c.1 ≤ ptr := by
    intro c
    rw [← heq, mem_filter, decide_eq_true_eq]
  have hp := (hmem p).mp (mem_append_right _ mem_cons_self)
  have hsorted := F.sorted.filter fun c => decide (c.1 ≤ ptr)
  rw [heq] at hsorted
  refine ⟨hp.1, hp.2, fun c hc hle => ?_⟩
  rcases mem_append.mp ((hmem c).mpr ⟨hc, hle⟩) with hc | hc
  · exact le_of_lt ((pairwise_append.mp hsorted).2.2 c hc p mem_cons_self)
  · rw [mem_singleton.mp hc]

theorem prev_none (h : (neighbours F ptr).2 = none) (hc : c ∈ F.entries) : ptr < c.1 := by
  have hnil := getLast?_eq_none_iff.mp h
  by_contra hle
  have hmem : c ∈ F.entries.filter fun c => decide (c.1 ≤ ptr) :=
    mem_filter.mpr ⟨hc, decide_eq_true (not_lt.mp hle)⟩
  rw [hnil] at hmem
  cases hmem

end

/-! ## The invariant -/

/-- All chunks. -/
def chunks (s : Arena) : List (Nat × Nat) := s.chunks_free.entries ++ s.chunks_used.entries

/-- The chunks cut the arena into pieces, and no two free ones meet. -/
structure Inv (s : Arena) : Prop where
  base_pos : 0 < s.base
  nonempty : s.base < s.end
  tiles : Tiles s.chunks s.base s.end
  apart : ∀ c ∈ s.chunks_free.entries, ∀ d ∈ s.chunks_free.entries, c.1 + c.2 ≠ d.1

theorem inv_new (mem : Memory) (alignment : UInt64) : (new mem alignment).Inv where
  base_pos := mem.base_pos
  nonempty := Nat.lt_add_of_pos_right mem.size_pos
  tiles := Tiles.single mem.size_pos
  apart := by
    intro c hc d hd
    rw [mem_singleton.mp hc, mem_singleton.mp hd]
    exact Nat.ne_of_gt (Nat.lt_add_of_pos_right mem.size_pos)

theorem lookup_none_of_covers {c : Nat × Nat} {l : List (Nat × Nat)} {lo hi p : Nat}
    (h : Tiles (c :: l) lo hi) (hm : ∀ d ∈ m.entries, d ∈ l) (hp : Covers c p) :
    m.lookup p = none := by
  rw [Option.eq_none_iff_forall_ne_some]
  intro v hv
  have hmem := hm _ (mem_entries.mpr hv)
  exact (pairwise_cons.mp h.disjoint).1 _ hmem p hp
    ⟨Nat.le_refl p, Nat.lt_add_of_pos_right (h.nonempty _ (mem_cons_of_mem _ hmem))⟩

theorem Inv.alloc {s : Arena} (h : s.Inv) (size : UInt64) :
    s.alloc size = (0, s) ∧ (alignUp size s.alignment = 0 ∨
      ∀ c ∈ s.chunks_free.entries, c.2 < (alignUp size s.alignment).toNat) ∨
    ∃ ptr, ptr ≠ 0 ∧ (s.alloc size).1 = ptr ∧ (s.alloc size).2.Inv ∧
      (s.alloc size).2.chunks_used = s.chunks_used.insert ptr (alignUp size s.alignment).toNat := by
  unfold Arena.alloc
  generalize hk : (alignUp size s.alignment).toNat = k
  by_cases hzero : k = 0
  · refine .inl ⟨if_pos hzero, .inl ?_⟩
    exact UInt64.toNat_inj.mp (hk.trans hzero)
  rw [if_neg hzero]
  cases hfind : s.chunks_free.entries.find? fun chunk => decide (k ≤ chunk.2) with
  | none =>
    refine .inl ⟨rfl, .inr fun c hc => ?_⟩
    have hlt := find?_eq_none.mp hfind c hc
    rw [decide_eq_true_eq] at hlt
    exact not_le.mp hlt
  | some it =>
    obtain ⟨a, n⟩ := it
    right
    have hle : k ≤ n := of_decide_eq_true (find?_some (p := fun c : Nat × Nat => decide (k ≤ c.2)) hfind)
    have hfree : s.chunks_free.lookup a = some n :=
      mem_entries.mp (mem_of_find?_eq_some hfind)
    have htiles : Tiles ((a, n) :: ((s.chunks_free.erase a).entries ++ s.chunks_used.entries))
        s.base s.end :=
      h.tiles.perm ((perm_erase hfree).append_right _)
    have hused : s.chunks_used.lookup (a + n - k) = none :=
      lookup_none_of_covers htiles (fun d hd => mem_append_right _ hd) ⟨by omega, by omega⟩
    have hstart : a + n - k ≠ 0 := by
      have hlow := (htiles.within mem_cons_self).1
      have hpos := h.base_pos
      omega
    have hold : ∀ c ∈ (s.chunks_free.erase a).entries, c ∈ s.chunks_free.entries := fun c =>
      mem_of_mem_erase
    have hperm := fun l : List (Nat × Nat) =>
      ((perm_insert_of_none hused k).append_left l).trans perm_middle
    refine ⟨a + n - k, hstart, rfl, ?_, emplace_of_none hused k⟩
    by_cases hrest : n - k = 0
    · refine ⟨h.base_pos, h.nonempty, ?_, ?_⟩
      · dsimp only [chunks]
        rw [if_pos hrest, emplace_of_none hused]
        refine Tiles.perm ?_ (hperm _).symm
        obtain rfl : k = n := by omega
        rwa [Nat.add_sub_cancel]
      · dsimp only
        rw [if_pos hrest]
        exact fun c hc d hd => h.apart c (hold c hc) d (hold d hd)
    · have hsub : a + n - k = a + (n - k) := Nat.add_sub_assoc hle a
      refine ⟨h.base_pos, h.nonempty, ?_, ?_⟩
      · dsimp only [chunks]
        rw [if_neg hrest, emplace_of_none hused]
        refine Tiles.perm ?_ ((hperm _).trans (((perm_insert ..).append_right _).cons _)
          |>.trans (.swap ..)).symm
        rw [hsub]
        refine (tiles_split (Nat.pos_of_ne_zero hrest) (Nat.pos_of_ne_zero hzero)).mp ?_
        rwa [Nat.sub_add_cancel hle]
      · -- the chunk that is cut ends inside of where it was
        dsimp only
        rw [if_neg hrest]
        have hcut : ∀ d ∈ (s.chunks_free.erase a).entries, a + (n - k) ≠ d.1 := by
          intro d hd heq
          have hnone := (pairwise_cons.mp htiles.disjoint).1 d (mem_append_left _ hd) d.1
          have hpos := h.tiles.nonempty d (mem_append_left _ (hold d hd))
          exact hnone ⟨by dsimp only; omega, by dsimp only; omega⟩
            ⟨Nat.le_refl _, Nat.lt_add_of_pos_right hpos⟩
        have hmem := fun c => ((s.chunks_free.perm_insert a (n - k)).mem_iff (a := c)).trans
          mem_cons
        have houter := mem_entries.mpr hfree
        intro c hc d hd
        rcases (hmem c).mp hc with rfl | hc <;> rcases (hmem d).mp hd with rfl | hd
        · dsimp only
          omega
        · exact hcut d hd
        · exact h.apart c (hold c hc) (a, n) houter
        · exact h.apart c (hold c hc) d (hold d hd)

section

variable {F F1 : SortedMap Nat Nat} {used : List (Nat × Nat)} {lo hi ptr size : Nat}
  {p : Nat × Nat}

/-- The free chunk `p` that a chunk is part of once it is freed: no other one ends where it
    starts. -/
structure Freed (F : SortedMap Nat Nat) (used : List (Nat × Nat)) (lo hi ptr size : Nat)
    (p : Nat × Nat) (F1 : SortedMap Nat Nat) : Prop where
  le : p.1 ≤ ptr
  ends : p.1 + p.2 = ptr + size
  insert : F1 = F.insert p.1 p.2
  tiles : Tiles (F1.entries ++ used) lo hi
  apart : ∀ c ∈ F.entries, c.1 + c.2 ≠ p.1

theorem joinPrev_freed (ht : Tiles ((ptr, size) :: (F.entries ++ used)) lo hi)
    (happart : ∀ c ∈ F.entries, ∀ d ∈ F.entries, c.1 + c.2 ≠ d.1)
    (h : joinPrev F (neighbours F ptr).2 (ptr, size) = (p, F1)) :
    Freed F used lo hi ptr size p F1 := by
  have hsize := ht.nonempty _ mem_cons_self
  have hnone : F.lookup ptr = none :=
    lookup_none_of_covers ht (fun d hd => mem_append_left _ hd)
      ⟨Nat.le_refl _, Nat.lt_add_of_pos_right hsize⟩
  -- where there is nothing to join, no free chunk ends at the pointer
  have hnew : (∀ c ∈ F.entries, c.1 + c.2 ≠ ptr) → ((ptr, size), emplace F ptr size) = (p, F1) →
      Freed F used lo hi ptr size p F1 := by
    intro hends heq
    cases heq
    rw [emplace_of_none hnone]
    exact ⟨le_refl _, rfl, rfl,
      ht.perm ((perm_insert_of_none hnone size).append_right used).symm, hends⟩
  unfold joinPrev at h
  cases hprev : (neighbours F ptr).2 with
  | none =>
    rw [hprev] at h
    refine hnew (fun c hc heq => ?_) h
    have hlt := prev_none hprev hc
    omega
  | some q =>
    obtain ⟨hq, hle, hmax⟩ := prev_some hprev
    rw [hprev] at h
    dsimp only at h
    split at h
    next hjoin =>
      cases h
      have hfree := mem_entries.mp (show (q.1, q.2) ∈ F.entries from hq)
      refine ⟨hle, by dsimp only; omega, rfl, ?_, fun c hc => happart c hc q hq⟩
      refine Tiles.perm ?_ ((F.perm_insert q.1 _).append_right used).symm
      have hqpos := ht.nonempty q (mem_cons_of_mem _ (mem_append_left _ hq))
      refine (tiles_split hqpos hsize).mpr ?_
      rw [hjoin]
      exact ht.perm ((((perm_erase hfree).append_right used).cons _).trans
        (.swap ..))
    next hjoin =>
      refine hnew (fun c hc heq => ?_) h
      -- a chunk that ends at the pointer is the last one before it
      have hqpos := ht.nonempty q (mem_cons_of_mem _ (mem_append_left _ hq))
      have hqne : q.1 ≠ ptr := by
        intro hqptr
        rw [← hqptr, mem_entries.mp (show (q.1, q.2) ∈ F.entries from hq)] at hnone
        cases hnone
      have hcle := hmax c hc (by omega)
      by_cases hcq : c = q
      · exact hjoin (hcq ▸ heq)
      · have := ht.separate (mem_cons_of_mem _ (mem_append_left _ hc))
          (mem_cons_of_mem _ (mem_append_left _ hq)) hcq
        omega

theorem joinNext_tiles (ht : Tiles ((ptr, size) :: (F.entries ++ used)) lo hi)
    (happart : ∀ c ∈ F.entries, ∀ d ∈ F.entries, c.1 + c.2 ≠ d.1)
    (hp : Freed F used lo hi ptr size p F1) :
    Tiles ((joinNext F1 p (neighbours F ptr).1).entries ++ used) lo hi ∧
      ∀ c ∈ (joinNext F1 p (neighbours F ptr).1).entries,
        ∀ d ∈ (joinNext F1 p (neighbours F ptr).1).entries, c.1 + c.2 ≠ d.1 := by
  obtain ⟨hle, hend, rfl, htiles, hends⟩ := hp
  have hsize := ht.nonempty _ mem_cons_self
  have hmem := fun c : Nat × Nat => ((F.perm_insert p.1 p.2).mem_iff (a := c)).trans mem_cons
  -- where there is nothing to join, no free chunk begins at the end
  have hstay : (∀ d ∈ F.entries, p.1 + p.2 ≠ d.1) →
      ∀ c ∈ (F.insert p.1 p.2).entries, ∀ d ∈ (F.insert p.1 p.2).entries, c.1 + c.2 ≠ d.1 := by
    intro hbegins c hc d hd
    rcases (hmem c).mp hc with rfl | hc <;> rcases (hmem d).mp hd with rfl | hd
    · dsimp only
      omega
    · exact hbegins d (mem_of_mem_erase hd)
    · exact hends c (mem_of_mem_erase hc)
    · exact happart c (mem_of_mem_erase hc) d (mem_of_mem_erase hd)
  unfold joinNext
  cases hnext : (neighbours F ptr).1 with
  | none =>
    refine ⟨htiles, hstay fun d hd heq => ?_⟩
    have := next_none hnext hd
    omega
  | some n =>
    obtain ⟨hn, hlt, hmin⟩ := next_some hnext
    have hnfree := mem_entries.mp (show (n.1, n.2) ∈ F.entries from hn)
    have hnpos := ht.nonempty n (mem_cons_of_mem _ (mem_append_left _ hn))
    dsimp only
    split
    next hjoin =>
      have hne : n.1 ≠ p.1 := by omega
      have heq : ((F.insert p.1 p.2).insert p.1 (p.2 + n.2)).erase n.1 =
          (F.erase n.1).insert p.1 (p.2 + n.2) := by
        refine ext_lookup fun k => ?_
        simp only [lookup_erase, lookup_insert]
        by_cases hk : k = n.1
        · rw [if_pos hk, if_neg (hk ▸ hne), if_pos hk]
        · rw [if_neg hk, if_neg hk]
          by_cases hkp : k = p.1
          · rw [if_pos hkp, if_pos hkp]
          · rw [if_neg hkp, if_neg hkp, if_neg hkp]
      rw [heq]
      have hmem' := fun c : Nat × Nat =>
        (((F.erase n.1).perm_insert p.1 (p.2 + n.2)).mem_iff (a := c)).trans mem_cons
      refine ⟨?_, fun c hc d hd => ?_⟩
      · have hswap : ((F.insert p.1 p.2).entries ++ used).Perm ((p.1, p.2) :: (n.1, n.2) ::
            (((F.erase n.1).erase p.1).entries ++ used)) := by
          have hnone : (F.erase p.1).lookup n.1 = some n.2 := by
            rw [lookup_erase, if_neg hne, hnfree]
          have hperm := perm_erase hnone
          rw [SortedMap.erase_comm] at hperm
          exact ((F.perm_insert p.1 p.2).trans (hperm.cons _)).append_right used
        have hppos := htiles.nonempty p (mem_append_left _ ((hmem p).mpr (.inl rfl)))
        refine Tiles.perm ?_ (((F.erase n.1).perm_insert p.1 _).append_right used).symm
        refine (tiles_split hppos hnpos).mpr ?_
        rw [hjoin]
        exact htiles.perm hswap
      · have hold : ∀ c ∈ ((F.erase n.1).erase p.1).entries, c ∈ F.entries := fun c hc =>
          mem_of_mem_erase (mem_of_mem_erase hc)
        rcases (hmem' c).mp hc with rfl | hc <;> rcases (hmem' d).mp hd with rfl | hd
        · dsimp only
          omega
        · dsimp only
          rw [← Nat.add_assoc, hjoin]
          exact happart n hn d (hold d hd)
        · exact hends c (hold c hc)
        · exact happart c (hold c hc) d (hold d hd)
    next hjoin =>
      refine ⟨htiles, hstay fun d hd heq => ?_⟩
      -- a chunk that begins there is the next one
      have hdlt : ptr < d.1 := by omega
      have hnd := hmin d hd hdlt
      have hnot := (pairwise_cons.mp ht.disjoint).1 n (mem_append_left _ hn) n.1
      by_cases hin : n.1 < ptr + size
      · exact hnot ⟨Nat.le_of_lt hlt, hin⟩ ⟨Nat.le_refl _, Nat.lt_add_of_pos_right hnpos⟩
      · exact hjoin (by omega)

end

theorem Inv.free {s : Arena} (h : s.Inv) {ptr : Nat} (hptr : ptr ≠ 0) :
    s.chunks_used.lookup ptr = none ∧ s.free ptr = (some .invalidOrDoubleFree, s) ∨
    s.chunks_used.lookup ptr ≠ none ∧ (s.free ptr).1 = none ∧ (s.free ptr).2.Inv ∧
      (s.free ptr).2.chunks_used = s.chunks_used.erase ptr := by
  unfold Arena.free
  rw [if_neg hptr]
  cases hused : s.chunks_used.lookup ptr with
  | none => exact .inl ⟨rfl, rfl⟩
  | some size =>
    have ht : Tiles ((ptr, size) ::
        (s.chunks_free.entries ++ (s.chunks_used.erase ptr).entries)) s.base s.end :=
      h.tiles.perm (((perm_erase hused).append_left _).trans perm_middle)
    obtain ⟨htiles, happart⟩ := joinNext_tiles ht h.apart (joinPrev_freed ht h.apart rfl)
    exact .inr ⟨nofun, rfl, ⟨h.base_pos, h.nonempty, htiles, happart⟩, rfl⟩

/-! ## Runs -/

/-- The chunks in use are those that were allocated and not freed since. -/
def Tracks (x : Arena × List Nat) : Prop :=
  x.1.Inv ∧ ∀ ptr, ptr ∈ x.2 ↔ x.1.chunks_used.lookup ptr ≠ none

theorem call_frame (x : Arena × List Nat) (c : Call) : (call x c).1.base = x.1.base ∧
    (call x c).1.end = x.1.end ∧ (call x c).1.alignment = x.1.alignment := by
  cases c with
  | alloc size =>
    unfold call alloc
    dsimp only
    split
    · exact ⟨rfl, rfl, rfl⟩
    · split <;> exact ⟨rfl, rfl, rfl⟩
  | free ptr =>
    unfold call free
    dsimp only
    split
    · exact ⟨rfl, rfl, rfl⟩
    · split <;> exact ⟨rfl, rfl, rfl⟩

theorem Tracks.call {x : Arena × List Nat} (h : Tracks x) (c : Call) : Tracks (call x c) := by
  obtain ⟨s, live⟩ := x
  obtain ⟨hinv, hlive⟩ := h
  cases c with
  | alloc size =>
    unfold Arena.call
    dsimp only
    rcases hinv.alloc size with ⟨hnull, -⟩ | ⟨ptr, hne, hptr, hinv', hused⟩
    · rw [hnull]
      exact ⟨hinv, hlive⟩
    · rw [hptr, if_neg hne]
      refine ⟨hinv', fun p => ?_⟩
      dsimp only at hlive ⊢
      rw [hused, lookup_insert, mem_cons, hlive]
      by_cases hp : p = ptr
      · rw [if_pos hp]
        exact iff_of_true (.inl hp) nofun
      · rw [if_neg hp]
        exact or_iff_right hp
  | free ptr =>
    unfold Arena.call
    dsimp only
    by_cases hptr : ptr = 0
    · -- the null pointer is no chunk
      have hsame : s.free ptr = (none, s) := if_pos hptr
      rw [hsame]
      refine ⟨hinv, fun p => ?_⟩
      show p ∈ live.filter (· ≠ ptr) ↔ s.chunks_used.lookup p ≠ none
      rw [mem_filter, hlive, decide_eq_true_eq]
      refine and_iff_left_of_imp fun hp hpz => hp ?_
      rw [hpz, hptr, Option.eq_none_iff_forall_ne_some]
      intro v hv
      have hmem := mem_append_right s.chunks_free.entries (mem_entries.mpr hv)
      have hle := (hinv.tiles.within hmem).1
      have hpos : 0 < s.base := hinv.base_pos
      dsimp only at hle
      omega
    · rcases hinv.free hptr with ⟨-, hthrow⟩ | ⟨-, hok, hinv', hused⟩
      · rw [hthrow]
        exact ⟨hinv, hlive⟩
      · rw [hok]
        refine ⟨hinv', fun p => ?_⟩
        show p ∈ live.filter (· ≠ ptr) ↔ (s.free ptr).2.chunks_used.lookup p ≠ none
        rw [hused, lookup_erase, mem_filter, hlive, decide_eq_true_eq]
        by_cases hp : p = ptr
        · rw [if_pos hp]
          exact iff_of_false (fun hno => hno.2 hp) (fun hno => hno rfl)
        · rw [if_neg hp]
          exact and_iff_left hp

theorem tracks_run (mem : Memory) (alignment : UInt64) (calls : List Call) :
    Tracks ((new mem alignment).run calls) ∧
      ((new mem alignment).run calls).1.base = mem.base ∧
      ((new mem alignment).run calls).1.end = mem.base + mem.size ∧
      ((new mem alignment).run calls).1.alignment = alignment := by
  induction calls using List.reverseRecOn with
  | nil =>
    exact ⟨⟨inv_new mem alignment, fun ptr => iff_of_false nofun fun h => h rfl⟩, rfl, rfl, rfl⟩
  | append_singleton calls c ih =>
    obtain ⟨htracks, hbase, hend, halign⟩ := ih
    rw [run, foldl_concat, ← run]
    have hframe := call_frame ((new mem alignment).run calls) c
    exact ⟨htracks.call c, hframe.1.trans hbase, hframe.2.1.trans hend, hframe.2.2.trans halign⟩

/-- After any calls: the chunks cut the memory into pieces, free ones do not meet, an allocation
    fails only for want of one large chunk, freeing anything else than an allocation or the
    null pointer throws, and with everything freed the memory is one chunk. -/
theorem arena_spec (mem : Memory) (alignment : UInt64) (calls : List Call) :
    let s := ((new mem alignment).run calls).1
    let live := ((new mem alignment).run calls).2
    Tiles (s.chunks_free.entries ++ s.chunks_used.entries) mem.base (mem.base + mem.size) ∧
    (∀ c ∈ s.chunks_free.entries, ∀ d ∈ s.chunks_free.entries, c.1 + c.2 ≠ d.1) ∧
    (∀ size, (s.alloc size).1 = 0 → alignUp size alignment = 0 ∨
      ∀ c ∈ s.chunks_free.entries, c.2 < (alignUp size alignment).toNat) ∧
    (∀ ptr, ptr ≠ 0 → ptr ∉ live → s.free ptr = (some .invalidOrDoubleFree, s)) ∧
    s.free 0 = (none, s) ∧
    (live = [] → s.chunks_free.entries = [(mem.base, mem.size)]) := by
  obtain ⟨⟨hinv, hlive⟩, hbase, hend, halign⟩ := tracks_run mem alignment calls
  generalize (new mem alignment).run calls = x at *
  obtain ⟨s, live⟩ := x
  dsimp only at *
  have htiles := hinv.tiles
  rw [hbase, hend] at htiles
  refine ⟨htiles, hinv.apart, fun size hnull => ?_, fun ptr hptr hnot => ?_, rfl, fun hnil => ?_⟩
  · rcases hinv.alloc size with ⟨-, hwhy⟩ | ⟨ptr, hne, hptr, -⟩
    · rwa [halign] at hwhy
    · exact absurd (hptr.symm.trans hnull) hne
  · rcases hinv.free hptr with ⟨-, hthrow⟩ | ⟨hsome, -⟩
    · exact hthrow
    · exact absurd ((hlive ptr).mpr hsome) hnot
  · have hused : s.chunks_used.entries = [] := by
      refine eq_nil_iff_forall_not_mem.mpr fun c hc => ?_
      have hmem := (hlive c.1).mpr (by rw [mem_entries.mp hc]; nofun)
      rw [hnil] at hmem
      cases hmem
    rw [chunks, hused, append_nil] at htiles
    have hlt := hinv.nonempty
    rw [hbase, hend] at hlt
    have hone := htiles.eq_singleton hlt hinv.apart s.chunks_free.nodup_entries
    rwa [Nat.add_sub_cancel_left] at hone

/-- The null pointer is no allocation, and freeing it does not throw. -/
theorem not_free_throws : ¬∀ (mem : Memory) (alignment : UInt64) (calls : List Call) (ptr : Nat),
    ptr ∉ ((new mem alignment).run calls).2 →
      (((new mem alignment).run calls).1.free ptr).1 = some .invalidOrDoubleFree := by
  intro h
  have hthrow := h ⟨16, 16, by decide, by decide, by decide⟩ 16 [] 0 nofun
  cases hthrow

end Arena

end Rcoin
