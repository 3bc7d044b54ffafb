/-
  `limitedmap`: a map of bounded size with a multimap from the values to the map's
  elements, from which the element to give up is taken.

  Source: src/limitedmap.h.  An iterator into `map` is the key of its element; `none`
  stands for a failed assertion or the use of an iterator that is not valid.
-/
import Rcoin.Lib.Maps
import Rcoin.Lib.Multimap

namespace Rcoin

open Maps List

/-- A map, its inverse index and its limit. -/
structure LimitedMap (K V : Type) [DecidableEq K] [LinearOrder V] where
  map : AList fun _ : K => V
  rmap : Multimap V K
  nMaxSize : Nat

namespace LimitedMap

variable {K V : Type} [DecidableEq K]

section

variable {s : AList fun _ : K => V} {k : K} {v : V}

/-- The elements of the map, as `rmap` has them. -/
def pairs (s : AList fun _ : K => V) : List (V × K) := s.entries.map fun e => (e.2, e.1)

theorem mem_pairs : (v, k) ∈ pairs s ↔ s.lookup k = some v := by
  rw [lookup_eq_some_iff_mem, pairs, mem_map]
  constructor
  · rintro ⟨⟨k', v'⟩, hmem, heq⟩
    obtain ⟨rfl, rfl⟩ := Prod.mk.inj heq
    exact hmem
  · exact fun h => ⟨_, h, rfl⟩

theorem pairs_insert (k : K) (v : V) : pairs (s.insert k v) = (v, k) :: pairs (s.erase k) := rfl

theorem perm_pairs_erase (h : s.lookup k = some v) : (pairs s).Perm ((v, k) :: pairs (s.erase k)) :=
  (perm_cons_erase h).map _

theorem size_erase (h : s.lookup k = some v) :
    s.entries.length = (s.erase k).entries.length + 1 := (perm_cons_erase h).length_eq

theorem size_insert (h : s.lookup k = none) (v : V) :
    (s.insert k v).entries.length = s.entries.length + 1 := by
  rw [AList.entries_insert_of_notMem (AList.lookup_eq_none.mp h), length_cons]

end

variable [LinearOrder V]

def new (nMaxSizeIn : Nat) : Option (LimitedMap K V) :=
  if nMaxSizeIn > 0 then some ⟨∅, .empty, nMaxSizeIn⟩ else none

def size (m : LimitedMap K V) : Nat := m.map.entries.length

/-- The erasure of `rmap.begin()` and of the element it stands for. -/
def eraseLowest (m : LimitedMap K V) : Option (LimitedMap K V) :=
  match m.rmap.entries with
  | [] => none
  | (_, it) :: _ =>
    if it ∈ m.map then some { m with map := m.map.erase it, rmap := m.rmap.eraseBegin } else none

def insert (x : K × V) (m : LimitedMap K V) : Option (LimitedMap K V) :=
  if x.1 ∈ m.map then some m
  else
    let m := { m with map := m.map.insert x.1 x.2 }
    (if m.size > m.nMaxSize then m.eraseLowest else some m).map fun m =>
      { m with rmap := m.rmap.insert x.2 x.1 }

def erase (k : K) (m : LimitedMap K V) : Option (LimitedMap K V) :=
  match m.map.lookup k with
  | none => some m
  | some v =>
    if (v, k) ∈ m.rmap.entries then
      some { m with map := m.map.erase k, rmap := m.rmap.erase v k }
    else none

/-- `update(find(itIn), v)`. -/
def update (itIn : K) (v : V) (m : LimitedMap K V) : Option (LimitedMap K V) :=
  match m.map.lookup itIn with
  | none => some m
  | some old =>
    if (old, itIn) ∈ m.rmap.entries then
      some { m with
        map := m.map.insert itIn v
        rmap := (m.rmap.erase old itIn).insert v itIn }
    else none

/-- The loop of `max_size`; it erases at most as many elements as there are. -/
def shrink (s : Nat) : Nat → LimitedMap K V → Option (LimitedMap K V)
  | 0, m => some m
  | n + 1, m => if m.size > s then m.eraseLowest >>= shrink s n else some m

def max_size (s : Nat) (m : LimitedMap K V) : Option (LimitedMap K V) :=
  if s > 0 then (m.shrink s m.size).map fun m => { m with nMaxSize := s } else none

/-- The calls a run of the map is made of. -/
inductive Call (K V : Type) where
  | insert (x : K × V)
  | erase (k : K)
  | update (itIn : K) (v : V)
  | max_size (s : Nat)

def call (m : LimitedMap K V) : Call K V → Option (LimitedMap K V)
  | .insert x => m.insert x
  | .erase k => m.erase k
  | .update itIn v => m.update itIn v
  | .max_size s => m.max_size s

/-- The states that sequences of calls lead to. -/
inductive Reached : LimitedMap K V → Prop
  | new {n : Nat} {m : LimitedMap K V} : new n = some m → Reached m
  | call {m m' : LimitedMap K V} (c : Call K V) : Reached m → m.call c = some m' → Reached m'

/-! ## The two containers -/

/-- There is one entry of `rmap` for each element of `map`, which has at most
    `nMaxSize` elements. -/
structure Linked (m : LimitedMap K V) : Prop where
  perm : m.rmap.entries.Perm (pairs m.map)
  size_le : m.size ≤ m.nMaxSize
  pos : 0 < m.nMaxSize

variable {k : K} {v : V} {m m' : LimitedMap K V}

theorem Linked.mem_iff (h : m.Linked) : (v, k) ∈ m.rmap.entries ↔ m.map.lookup k = some v :=
  h.perm.mem_iff.trans mem_pairs

theorem eraseLowest_eq {more rest : List (V × K)} (h : (more ++ m.rmap.entries).Perm (pairs m.map))
    (hrmap : m.rmap.entries = (v, k) :: rest) :
    m.map.lookup k = some v ∧ (more ++ rest).Perm (pairs (m.map.erase k)) ∧
      m.eraseLowest = some { m with map := m.map.erase k, rmap := m.rmap.eraseBegin } := by
  rw [hrmap] at h
  have hk : m.map.lookup k = some v := mem_pairs.mp (h.mem_iff.mp (by simp))
  refine ⟨hk, ?_, ?_⟩
  · exact (perm_middle.symm.trans (h.trans (perm_pairs_erase hk))).cons_inv
  · have hmem : k ∈ m.map := AList.lookup_isSome.mp (by rw [hk]; rfl)
    rw [eraseLowest]
    simp only [hrmap, if_pos hmem]

variable {x : K × V}

theorem insert_of_new (hx : m.map.lookup x.1 = none) :
    m.insert x = (if m.size + 1 > m.nMaxSize then
        { m with map := m.map.insert x.1 x.2 }.eraseLowest
      else some { m with map := m.map.insert x.1 x.2 }).map fun m =>
        { m with rmap := m.rmap.insert x.2 x.1 } := by
  rw [insert, if_neg (AList.lookup_eq_none.mp hx)]
  simp only [size, size_insert hx]
  rfl

theorem Linked.insert_of_lt (h : m.Linked) (hx : m.map.lookup x.1 = none)
    (hlt : m.size < m.nMaxSize) : ∃ m', m.insert x = some m' ∧ m'.Linked := by
  have hsize : (m.map.insert x.1 x.2).entries.length = m.size + 1 := size_insert hx x.2
  refine ⟨{ m with map := m.map.insert x.1 x.2, rmap := m.rmap.insert x.2 x.1 }, ?_, ?_, ?_, h.pos⟩
  · rw [insert_of_new hx, if_neg (Nat.not_lt.mpr hlt)]
    rfl
  · rw [pairs_insert, erase_of_lookup_none hx]
    exact (Multimap.perm_insert ..).trans (h.perm.cons _)
  · exact hsize.trans_le hlt

theorem Linked.insert_full (h : m.Linked) (hx : m.map.lookup x.1 = none)
    (hfull : m.size = m.nMaxSize) : ∃ v it rest, m.rmap.entries = (v, it) :: rest ∧
      m.map.lookup it = some v ∧ ∃ m', m.insert x = some m' ∧ m'.Linked ∧
        m'.map = (m.map.insert x.1 x.2).erase it ∧ m'.size = m'.nMaxSize := by
  match hrmap : m.rmap.entries with
  | [] =>
    have hlen : m.rmap.entries.length = m.size := h.perm.length_eq.trans (length_map _)
    rw [hrmap, hfull, length_nil] at hlen
    exact absurd h.pos (hlen ▸ Nat.lt_irrefl 0)
  | (v, it) :: rest =>
    have hit : m.map.lookup it = some v := h.mem_iff.mp (by rw [hrmap]; exact mem_cons_self)
    have hne : it ≠ x.1 := by
      rintro rfl
      rw [hx] at hit
      cases hit
    have hperm : ([(x.2, x.1)] ++ m.rmap.entries).Perm (pairs (m.map.insert x.1 x.2)) := by
      rw [pairs_insert, erase_of_lookup_none hx]
      exact h.perm.cons _
    obtain ⟨hk, hrest, heq⟩ := @eraseLowest_eq _ _ _ _ it v
      { m with map := m.map.insert x.1 x.2 } [(x.2, x.1)] rest hperm hrmap
    have hins : (m.map.insert x.1 x.2).entries.length = m.size + 1 := size_insert hx x.2
    have hera : (m.map.insert x.1 x.2).entries.length = _ := size_erase hk
    have hsize : ((m.map.insert x.1 x.2).erase it).entries.length = m.nMaxSize := by omega
    refine ⟨v, it, rest, rfl, hit, { m with
      map := (m.map.insert x.1 x.2).erase it
      rmap := m.rmap.eraseBegin.insert x.2 x.1 }, ?_, ⟨?_, hsize.le, h.pos⟩, rfl, hsize⟩
    · rw [insert_of_new hx, if_pos (by omega), heq]
      rfl
    · refine (Multimap.perm_insert ..).trans ?_
      rw [Multimap.entries_eraseBegin hrmap]
      exact hrest

theorem Linked.erase (h : m.Linked) (k : K) : ∃ m', m.erase k = some m' ∧ m'.Linked := by
  rw [LimitedMap.erase]
  match hk : m.map.lookup k with
  | none => exact ⟨m, rfl, h⟩
  | some v =>
    simp only [if_pos (h.mem_iff.mpr hk)]
    refine ⟨_, rfl, ?_, ?_, h.pos⟩
    · exact ((perm_cons_erase (h.mem_iff.mpr hk)).symm.trans
        (h.perm.trans (perm_pairs_erase hk))).cons_inv
    · exact (Nat.le_of_succ_le (size_erase hk).ge).trans h.size_le

theorem Linked.update (h : m.Linked) (k : K) (v : V) :
    ∃ m', m.update k v = some m' ∧ m'.Linked := by
  rw [LimitedMap.update]
  match hk : m.map.lookup k with
  | none => exact ⟨m, rfl, h⟩
  | some old =>
    simp only [if_pos (h.mem_iff.mpr hk)]
    refine ⟨_, rfl, ?_, ?_, h.pos⟩
    · rw [pairs_insert]
      refine (Multimap.perm_insert ..).trans (.cons _ ?_)
      exact ((List.perm_cons_erase (h.mem_iff.mpr hk)).symm.trans
        (h.perm.trans (perm_pairs_erase hk))).cons_inv
    · exact (size_erase hk).ge.trans h.size_le

theorem Linked.shrink {s : Nat} (hs : 0 < s) (n : Nat) (h : m.Linked) (hn : m.size ≤ s + n) :
    ∃ m', m.shrink s n = some m' ∧ m'.Linked ∧ m'.size ≤ s := by
  induction n generalizing m with
  | zero => exact ⟨m, rfl, h, hn⟩
  | succ n ih =>
    rw [LimitedMap.shrink]
    split
    next hgt =>
      match hrmap : m.rmap.entries with
      | [] =>
        have hlen : m.rmap.entries.length = m.size := h.perm.length_eq.trans (length_map _)
        rw [hrmap, length_nil] at hlen
        omega
      | (v, it) :: rest =>
        obtain ⟨hk, hrest, heq⟩ := @eraseLowest_eq _ _ _ _ it v m [] rest h.perm hrmap
        have hsize : m.size = (m.map.erase it).entries.length + 1 := size_erase hk
        have hle := h.size_le
        rw [heq]
        refine ih ⟨?_, ?_, h.pos⟩ ?_
        · exact (Perm.of_eq (Multimap.entries_eraseBegin hrmap)).trans hrest
        · show (m.map.erase it).entries.length ≤ m.nMaxSize
          omega
        · show (m.map.erase it).entries.length ≤ s + n
          omega
    next hle => exact ⟨m, rfl, h, Nat.not_lt.mp hle⟩

theorem Linked.call (h : m.Linked) (c : Call K V) :
    (m.call c = none ↔ c = .max_size 0) ∧ ∀ m', m.call c = some m' → m'.Linked := by
  have hok : ∀ {r : Option (LimitedMap K V)}, (∃ m', r = some m' ∧ m'.Linked) →
      c ≠ .max_size 0 → (r = none ↔ c = .max_size 0) ∧ ∀ m', r = some m' → m'.Linked := by
    rintro _ ⟨m', rfl, hm'⟩ hc
    refine ⟨⟨nofun, fun h => absurd h hc⟩, fun m'' heq => ?_⟩
    obtain rfl := Option.some.inj heq
    exact hm'
  match c with
  | .insert x =>
    refine hok ?_ nofun
    match hx : m.map.lookup x.1 with
    | some v =>
      have hmem : x.1 ∈ m.map := AList.lookup_isSome.mp (by rw [hx]; rfl)
      exact ⟨m, if_pos hmem, h⟩
    | none =>
      obtain hlt | heq := Nat.lt_or_eq_of_le h.size_le
      · exact h.insert_of_lt hx hlt
      · obtain ⟨_, _, _, -, -, m', hm', hlinked, -, -⟩ := h.insert_full hx heq
        exact ⟨m', hm', hlinked⟩
  | .erase k => exact hok (h.erase k) nofun
  | .update k v => exact hok (h.update k v) nofun
  | .max_size 0 => exact ⟨iff_of_true rfl rfl, nofun⟩
  | .max_size (s + 1) =>
    obtain ⟨m', hm', hlinked, hsize⟩ := Linked.shrink (Nat.succ_pos s) m.size h (by omega)
    refine hok ⟨{ m' with nMaxSize := s + 1 }, ?_, hlinked.perm, hsize, Nat.succ_pos s⟩ nofun
    rw [LimitedMap.call, max_size, if_pos (Nat.succ_pos s), hm']
    rfl

theorem Reached.linked (h : Reached m) : m.Linked := by
  induction h with
  | @new n m hnew =>
    rw [LimitedMap.new] at hnew
    split at hnew
    next hpos =>
      obtain rfl := Option.some.inj hnew
      exact ⟨.refl _, Nat.zero_le n, hpos⟩
    next => cases hnew
  | call c _ hcall ih => exact (ih.call c).2 _ hcall

/-! ## What a full map keeps -/

/-- Of the old elements and the new one, none that is given up has a higher value
    than one that is kept. -/
structure KeepsHighest (m : LimitedMap K V) (x : K × V) (m' : LimitedMap K V) : Prop where
  kept : ∀ k v, m'.map.lookup k = some v → (m.map.insert x.1 x.2).lookup k = some v
  highest : ∀ k v, (m.map.insert x.1 x.2).lookup k = some v → m'.map.lookup k = none →
    ∀ k' v', m'.map.lookup k' = some v' → v ≤ v'

/-- In every state that calls lead to, `rmap` has one entry for each element of `map`,
    the bound holds and no call fails but `max_size(0)`.  An insertion into a full map
    keeps the highest values if and only if the new value is not below all old ones. -/
theorem limitedmap_spec (h : Reached m) : m.Linked ∧ (∀ c, m.call c = none ↔ c = .max_size 0) ∧
    ∀ x : K × V, m.map.lookup x.1 = none → m.size = m.nMaxSize →
      ∃ m', m.insert x = some m' ∧ m'.size = m'.nMaxSize ∧
        (KeepsHighest m x m' ↔ ∃ k v, m.map.lookup k = some v ∧ v ≤ x.2) := by
  refine ⟨h.linked, fun c => (h.linked.call c).1, fun x hx hfull => ?_⟩
  obtain ⟨v, it, rest, hrmap, hit, m', hins, -, hmap, hsize⟩ := h.linked.insert_full hx hfull
  have hne : x.1 ≠ it := by
    rintro heq
    rw [← heq, hx] at hit
    cases hit
  have hlowest : ∀ k w, m.map.lookup k = some w → v ≤ w := by
    intro k w hk
    have hsorted := m.rmap.sorted
    have hmem := h.linked.mem_iff.mpr hk
    rw [hrmap] at hsorted hmem
    obtain heq | hmem := mem_cons.mp hmem
    · exact (Prod.mk.inj heq).1.ge
    · exact (pairwise_cons.mp hsorted).1 _ hmem
  refine ⟨m', hins, hsize, fun hkeeps => ?_, fun hsome => ⟨fun k w hk => ?_, ?_⟩⟩
  · -- the element that was given up is not above the new one
    have hold : (m.map.insert x.1 x.2).lookup it = some v := by
      rw [lookup_insert, if_neg hne.symm, hit]
    have hnew : m'.map.lookup x.1 = some x.2 := by
      rw [hmap, lookup_erase, if_neg hne, lookup_insert, if_pos rfl]
    exact ⟨it, v, hit, hkeeps.highest it v hold (by rw [hmap, lookup_erase, if_pos rfl]) _ _ hnew⟩
  · rw [hmap, lookup_erase] at hk
    split at hk
    · cases hk
    · exact hk
  · intro k w hk hgone k' w' hk'
    rw [hmap, lookup_erase] at hgone hk'
    split at hgone
    next heq =>
      rw [heq, lookup_insert, if_neg hne.symm, hit] at hk
      obtain rfl := Option.some.inj hk
      split at hk'
      · cases hk'
      · rw [lookup_insert] at hk'
        split at hk'
        · obtain ⟨k0, v0, hk0, hle⟩ := hsome
          exact Option.some.inj hk' ▸ (hlowest k0 v0 hk0).trans hle
        · exact hlowest k' w' hk'
    next => rw [hgone] at hk; cases hk

/-- A map of one element gives it up for one with a lower value. -/
theorem limitedmap_keeps_lower : ∃ m m' : LimitedMap Nat Nat, Reached m ∧
    m.map.entries = [⟨1, 5⟩] ∧ m.nMaxSize = 1 ∧ m.insert (2, 3) = some m' ∧
      m'.map.entries = [⟨2, 3⟩] ∧ ¬KeepsHighest m (2, 3) m' := by
  refine ⟨_, _, .call (.insert (1, 5)) (.new (if_pos Nat.one_pos)) rfl, rfl, rfl, rfl, rfl, fun h => ?_⟩
  have hle := h.highest 1 5 rfl rfl 2 3 rfl
  exact absurd hle (by decide)

/-- Two elements where no more may be, and a new one between them. -/
theorem limitedmap_spec_full : ∃ m m' : LimitedMap Nat Nat, Reached m ∧ m.Linked ∧
    m.map.entries = [⟨2, 3⟩, ⟨1, 5⟩] ∧ m.nMaxSize = 2 ∧ m.insert (3, 4) = some m' ∧
      m'.map.entries = [⟨3, 4⟩, ⟨1, 5⟩] ∧ KeepsHighest m (3, 4) m' := by
  have hreached := Reached.call (.insert (2, 3)) (.call (.insert ((1 : Nat), (5 : Nat)))
    (.new (n := 2) (if_pos Nat.two_pos)) rfl) rfl
  obtain ⟨hlinked, -, hinsert⟩ := limitedmap_spec hreached
  obtain ⟨m', hm', -, hkeeps⟩ := hinsert (3, 4) rfl rfl
  refine ⟨_, m', hreached, hlinked, rfl, rfl, hm', ?_, hkeeps.mpr ⟨2, 3, rfl, by decide⟩⟩
  cases hm'
  rfl

end LimitedMap

end Rcoin
