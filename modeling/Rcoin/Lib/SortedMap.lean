/-
  Finite maps as lists of entries with strictly increasing keys: what `std::map`
  is to a program that sets and removes entries, looks up, counts and walks from
  the least key on.
-/
import Mathlib

/-- A finite map, its entries listed from the least key on. -/
structure SortedMap (K : Type*) [LinearOrder K] (V : Type*) where
  entries : List (K × V)
  sorted : entries.Pairwise (·.1 < ·.1)

namespace SortedMap

open List

variable {K V : Type*} [LinearOrder K]

def empty : SortedMap K V := ⟨[], List.Pairwise.nil⟩

def isEmpty (m : SortedMap K V) : Bool := m.entries.isEmpty

variable {m : SortedMap K V}

theorem isEmpty_iff : m.isEmpty = true ↔ m.entries = [] := List.isEmpty_iff

/-! ## Lookup -/

/-- The value of the first entry with a key. -/
def lookupEntries (k : K) : List (K × V) → Option V
  | [] => none
  | x :: l => if x.1 = k then some x.2 else lookupEntries k l

def lookup (m : SortedMap K V) (k : K) : Option V := lookupEntries k m.entries

variable {k : K} {v : V} {l : List (K × V)}

theorem mem_of_lookupEntries (h : lookupEntries k l = some v) : (k, v) ∈ l := by
  induction l with
  | nil => cases h
  | cons x l ih =>
    rw [lookupEntries] at h
    split at h
    · rename_i hk
      cases h
      rw [← hk]
      exact mem_cons_self ..
    · exact mem_cons_of_mem _ (ih h)

theorem lookupEntries_of_mem (hl : l.Pairwise (·.1 < ·.1)) (h : (k, v) ∈ l)
    : lookupEntries k l = some v := by
  induction l with
  | nil => cases h
  | cons x l ih =>
    obtain ⟨hx, hl⟩ := pairwise_cons.mp hl
    rw [lookupEntries]
    rcases mem_cons.mp h with rfl | hmem
    · exact if_pos rfl
    · rw [if_neg (ne_of_lt (hx _ hmem))]
      exact ih hl hmem

theorem mem_entries : (k, v) ∈ m.entries ↔ m.lookup k = some v :=
  ⟨lookupEntries_of_mem m.sorted, mem_of_lookupEntries⟩

/-! ## Setting an entry -/

def insertEntries (k : K) (v : V) : List (K × V) → List (K × V)
  | [] => [(k, v)]
  | x :: l =>
    if k < x.1 then (k, v) :: x :: l
    else if k = x.1 then (k, v) :: l
    else x :: insertEntries k v l

theorem mem_insertEntries {x : K × V} (h : x ∈ insertEntries k v l) : x = (k, v) ∨ x ∈ l := by
  induction l with
  | nil => exact .inl (mem_singleton.mp h)
  | cons y l ih =>
    rw [insertEntries] at h
    split at h
    · exact mem_cons.mp h
    split at h
    · exact (mem_cons.mp h).imp id (mem_cons_of_mem _)
    · rcases mem_cons.mp h with rfl | hmem
      · exact .inr (mem_cons_self ..)
      · exact (ih hmem).imp id (mem_cons_of_mem _)

theorem sorted_insertEntries (k : K) (v : V) (h : l.Pairwise (·.1 < ·.1)) :
    (insertEntries k v l).Pairwise (·.1 < ·.1) := by
  induction l with
  | nil => exact pairwise_singleton _ _
  | cons y l ih =>
    obtain ⟨hy, hl⟩ := pairwise_cons.mp h
    rw [insertEntries]
    split
    next hlt =>
      refine pairwise_cons.mpr ⟨fun x hx => ?_, h⟩
      rcases mem_cons.mp hx with rfl | hmem
      · exact hlt
      · exact hlt.trans (hy x hmem)
    next hlt =>
      split
      next heq => exact pairwise_cons.mpr ⟨fun x hx => heq ▸ hy x hx, hl⟩
      next hne =>
        refine pairwise_cons.mpr ⟨fun x hx => ?_, ih hl⟩
        rcases mem_insertEntries hx with rfl | hmem
        · exact lt_of_le_of_ne (not_lt.mp hlt) (Ne.symm hne)
        · exact hy x hmem

/-- `m[k] = v`. -/
def insert (m : SortedMap K V) (k : K) (v : V) : SortedMap K V :=
  ⟨insertEntries k v m.entries, sorted_insertEntries k v m.sorted⟩

theorem entries_insert_last (h : ∀ x ∈ m.entries, x.1 < k) (v : V) :
    (m.insert k v).entries = m.entries ++ [(k, v)] := by
  have hgen : ∀ l : List (K × V), (∀ x ∈ l, x.1 < k) → insertEntries k v l = l ++ [(k, v)] := by
    intro l
    induction l with
    | nil => exact fun _ => rfl
    | cons x l ih =>
      intro hl
      obtain ⟨hx, hl⟩ := forall_mem_cons.mp hl
      rw [insertEntries, if_neg (not_lt.mpr hx.le), if_neg hx.ne', ih hl]
      rfl
  exact hgen m.entries h

theorem lookupEntries_insertEntries (k k' : K) (v : V) (l : List (K × V)) :
    lookupEntries k' (insertEntries k v l) = if k' = k then some v else lookupEntries k' l := by
  induction l with
  | nil =>
    exact if_congr eq_comm rfl rfl
  | cons y l ih =>
    rw [insertEntries]
    split
    · rw [lookupEntries]
      exact if_congr eq_comm rfl rfl
    split
    next heq =>
      rw [lookupEntries, lookupEntries, ← heq]
      by_cases hk : k = k'
      · rw [if_pos hk, if_pos hk.symm]
      · rw [if_neg hk, if_neg (Ne.symm hk), if_neg hk]
    next hne =>
      rw [lookupEntries, lookupEntries, ih]
      by_cases hy : y.1 = k'
      · have hk : k' ≠ k := fun h => hne (h.symm.trans hy.symm)
        rw [if_pos hy, if_pos hy, if_neg hk]
      · rw [if_neg hy, if_neg hy]

@[simp] theorem lookup_insert (m : SortedMap K V) (k k' : K) (v : V) :
    (m.insert k v).lookup k' = if k' = k then some v else m.lookup k' :=
  lookupEntries_insertEntries k k' v m.entries

/-- An entry after an insertion is the one inserted or was there. -/
theorem lookup_insert_some {k' : K} {v' : V} (h : (m.insert k v).lookup k' = some v') :
    (k' = k ∧ v' = v) ∨ (k' ≠ k ∧ m.lookup k' = some v') := by
  rw [lookup_insert] at h
  split at h
  next hk => exact .inl ⟨hk, (Option.some.inj h).symm⟩
  next hk => exact .inr ⟨hk, h⟩

/-- What holds of the inserted entry and of those that were there holds of every entry. -/
theorem forall_insert {P : K → V → Prop} (hk : P k v)
    (hold : ∀ k' v', m.lookup k' = some v' → P k' v') (k' : K) (v' : V)
    (h : (m.insert k v).lookup k' = some v') : P k' v' := by
  rcases lookup_insert_some h with ⟨rfl, rfl⟩ | ⟨-, h⟩
  · exact hk
  · exact hold k' v' h

theorem lookup_insert_self (m : SortedMap K V) (k : K) (v : V) :
    (m.insert k v).lookup k = some v := by rw [lookup_insert, if_pos rfl]

theorem lookup_insert_of_ne (m : SortedMap K V) {k' : K} (h : k' ≠ k) (v : V) :
    (m.insert k v).lookup k' = m.lookup k' := by rw [lookup_insert, if_neg h]

theorem nodup_entries (m : SortedMap K V) : m.entries.Nodup :=
  m.sorted.imp fun h heq => ne_of_lt h (congrArg Prod.fst heq)

theorem ext_lookup {m' : SortedMap K V} (h : ∀ k, m.lookup k = m'.lookup k) : m = m' := by
  have hperm : m.entries.Perm m'.entries := by
    refine (perm_ext_iff_of_nodup m.nodup_entries m'.nodup_entries).mpr fun e => ?_
    rw [mem_entries (k := e.1) (v := e.2), mem_entries (k := e.1) (v := e.2), h]
  obtain ⟨l, hl⟩ := m
  obtain ⟨l', hl'⟩ := m'
  congr 1
  exact hperm.eq_of_pairwise (fun x y _ _ hxy hyx => absurd (hxy.trans hyx) (lt_irrefl _)) hl hl'

/-! ## Removing an entry -/

def erase (m : SortedMap K V) (k : K) : SortedMap K V :=
  ⟨m.entries.filter (·.1 ≠ k), m.sorted.filter _⟩

@[simp] theorem lookup_erase (m : SortedMap K V) (k k' : K) :
    (m.erase k).lookup k' = if k' = k then none else m.lookup k' := by
  refine Option.ext fun v => ?_
  have hmem : (m.erase k).lookup k' = some v ↔ (k', v) ∈ m.entries ∧ k' ≠ k := by
    rw [← mem_entries, erase, mem_filter, decide_eq_true_eq]
  rw [hmem, mem_entries]
  by_cases h : k' = k
  · rw [if_pos h]
    exact ⟨fun hv => absurd h hv.2, fun hv => (nomatch hv)⟩
  · rw [if_neg h]
    exact ⟨fun hv => hv.1, fun hv => ⟨hv, h⟩⟩

theorem lookup_erase_some {k' : K} {v' : V} (h : (m.erase k).lookup k' = some v') :
    k' ≠ k ∧ m.lookup k' = some v' := by
  rw [lookup_erase] at h
  split at h
  next => exact nomatch h
  next hk => exact ⟨hk, h⟩

theorem mem_of_mem_erase {e : K × V} (h : e ∈ (m.erase k).entries) :
    e ∈ m.entries := mem_of_mem_filter h

theorem erase_comm (m : SortedMap K V) (j k : K) : (m.erase j).erase k = (m.erase k).erase j :=
  ext_lookup fun i => by
    simp only [lookup_erase]
    split <;> split <;> rfl

/-! ## Counting -/

/-- The number of values with a property. -/
def count (m : SortedMap K V) (p : V → Bool) : Nat := m.entries.countP fun e => p e.2

theorem perm_insert (m : SortedMap K V) (k : K) (v : V) :
    (m.insert k v).entries.Perm ((k, v) :: (m.erase k).entries) := by
  have hnodup : ((k, v) :: (m.erase k).entries).Nodup := by
    refine nodup_cons.mpr ⟨fun hmem => ?_, (m.erase k).nodup_entries⟩
    rw [mem_entries, lookup_erase, if_pos rfl] at hmem
    exact nomatch hmem
  refine (perm_ext_iff_of_nodup (m.insert k v).nodup_entries hnodup).mpr fun e => ?_
  obtain ⟨k', v'⟩ := e
  rw [mem_entries, lookup_insert, mem_cons, mem_entries, lookup_erase, Prod.mk.injEq]
  by_cases h : k' = k
  · rw [if_pos h, if_pos h, Option.some.injEq]
    exact ⟨fun hv => .inl ⟨h, hv.symm⟩, fun hv => hv.elim (fun hv => hv.2.symm) (nomatch ·)⟩
  · rw [if_neg h, if_neg h]
    exact ⟨.inr, fun hv => hv.elim (fun hv => absurd hv.1 h) id⟩

theorem perm_erase (h : m.lookup k = some v) : m.entries.Perm ((k, v) :: (m.erase k).entries) := by
  have hsame : m.insert k v = m := ext_lookup fun k' => by
    rw [lookup_insert]
    split
    next hk => rw [hk, h]
    next => rfl
  have hperm := m.perm_insert k v
  rwa [hsame] at hperm

theorem erase_of_none (h : m.lookup k = none) : m.erase k = m :=
  ext_lookup fun k' => by
    rw [lookup_erase]
    split
    next hk => rw [hk, h]
    next => rfl

theorem count_erase (h : m.lookup k = some v) (p : V → Bool) :
    (m.erase k).count p + (p v).toNat = m.count p := by
  have hperm := (perm_erase h).countP_eq fun e => p e.2
  rw [count, count, hperm, countP_cons]
  cases p v <;> rfl

theorem count_insert_of_none (h : m.lookup k = none) (v : V) (p : V → Bool)
    : (m.insert k v).count p = m.count p + (p v).toNat := by
  have hperm := (m.perm_insert k v).countP_eq fun e => p e.2
  rw [erase_of_none h] at hperm
  rw [count, count, hperm, countP_cons]
  cases p v <;> rfl

theorem count_insert_of_some (h : m.lookup k = some v) (w : V) (p : V → Bool)
    : (m.insert k w).count p + (p v).toNat = m.count p + (p w).toNat := by
  have hperm := (m.perm_insert k w).countP_eq fun e => p e.2
  rw [← count_erase h p, count, hperm, countP_cons]
  cases p w <;> cases p v <;> rfl

theorem count_insert_same {w : V} (h : m.lookup k = some v) {p : V → Bool} (hp : p w = p v)
    : (m.insert k w).count p = m.count p := by
  have hcount := count_insert_of_some h w p
  rw [hp] at hcount
  exact Nat.add_right_cancel hcount

/-- The values with a property, and those without. -/
theorem count_split (m : SortedMap K V) (p : V → Bool) :
    m.count (fun _ => true) = m.count p + m.count (!p ·) := by
  simp only [count, countP_true]
  rw [length_eq_countP_add_countP fun e => p e.2]
  simp only [Bool.not_eq_true, Bool.decide_eq_false]

end SortedMap
