/-
  Finite sets as strictly increasing lists: what `std::set` is to a program that
  inserts, erases, looks up and walks from the least element on.
-/
import Mathlib

/-- A finite set, listed from its least element on. -/
@[ext] structure SortedSet (K : Type*) [LinearOrder K] where
  elems : List K
  sorted : elems.Pairwise (· < ·)
  deriving DecidableEq

namespace SortedSet

variable {K : Type*} [LinearOrder K]

instance : Membership K (SortedSet K) := ⟨fun s a => a ∈ s.elems⟩

instance (a : K) (s : SortedSet K) : Decidable (a ∈ s) := inferInstanceAs (Decidable (a ∈ s.elems))

instance : EmptyCollection (SortedSet K) := ⟨⟨[], .nil⟩⟩

instance : Inhabited (SortedSet K) := ⟨∅⟩

variable {s : SortedSet K} {a : K}

@[simp] theorem mem_elems : a ∈ s.elems ↔ a ∈ s := Iff.rfl

@[simp] theorem not_mem_empty (a : K) : a ∉ (∅ : SortedSet K) := List.not_mem_nil

variable {t : SortedSet K}

theorem ext_mem (h : ∀ a, a ∈ s ↔ a ∈ t) : s = t :=
  SortedSet.ext (s.sorted.eq_of_mem_iff t.sorted h)

theorem nodup (s : SortedSet K) : s.elems.Nodup := s.sorted.imp fun h => ne_of_lt h

/-! ## Insertion -/

def insertElems (a : K) : List K → List K
  | [] => [a]
  | b :: l => if a < b then a :: b :: l else if a = b then b :: l else b :: insertElems a l

variable {x : K} {l : List K}

theorem mem_insertElems : x ∈ insertElems a l ↔ x = a ∨ x ∈ l := by
  induction l with
  | nil => simp [insertElems]
  | cons b l ih =>
    rw [insertElems]
    split
    · simp
    · split
      next h => subst h; simp
      · simp only [List.mem_cons, ih]
        tauto

theorem sorted_insertElems (a : K) (h : l.Pairwise (· < ·)) :
    (insertElems a l).Pairwise (· < ·) := by
  induction l with
  | nil => exact List.pairwise_singleton _ a
  | cons b l ih =>
    obtain ⟨hb, hl⟩ := List.pairwise_cons.mp h
    rw [insertElems]
    split
    next hab =>
      refine List.pairwise_cons.mpr ⟨fun x hx => ?_, h⟩
      rcases List.mem_cons.mp hx with rfl | hx
      · exact hab
      · exact hab.trans (hb x hx)
    next hab =>
      split
      · exact h
      next hne =>
        refine List.pairwise_cons.mpr ⟨fun x hx => ?_, ih hl⟩
        rcases mem_insertElems.mp hx with rfl | hx
        · exact lt_of_le_of_ne (not_lt.mp hab) (Ne.symm hne)
        · exact hb x hx

def insert (s : SortedSet K) (a : K) : SortedSet K :=
  ⟨insertElems a s.elems, sorted_insertElems a s.sorted⟩

theorem elems_insert_last (h : ∀ x ∈ s, x < a) : (s.insert a).elems = s.elems ++ [a] := by
  have hgen : ∀ l : List K, (∀ x ∈ l, x < a) → insertElems a l = l ++ [a] := by
    intro l
    induction l with
    | nil => exact fun _ => rfl
    | cons b l ih =>
      intro hl
      obtain ⟨hb, hl⟩ := List.forall_mem_cons.mp hl
      rw [insertElems, if_neg (not_lt.mpr hb.le), if_neg hb.ne', ih hl]
      rfl
  exact hgen s.elems h

@[simp] theorem mem_insert : x ∈ s.insert a ↔ x = a ∨ x ∈ s :=
  mem_insertElems

/-- The set of the elements of a list, put in one after the other. -/
def insertAll (s : SortedSet K) (l : List K) : SortedSet K := l.foldl insert s

@[simp] theorem mem_insertAll : x ∈ s.insertAll l ↔ x ∈ s ∨ x ∈ l := by
  induction l generalizing s with
  | nil => simp [insertAll]
  | cons a l ih =>
    show x ∈ (s.insert a).insertAll l ↔ _
    rw [ih, mem_insert, List.mem_cons]
    tauto

def ofList (l : List K) : SortedSet K := insertAll ∅ l

@[simp] theorem mem_ofList : x ∈ ofList l ↔ x ∈ l := by
  simp [ofList]

/-! ## Erasure -/

def erase (s : SortedSet K) (a : K) : SortedSet K :=
  ⟨s.elems.filter (· ≠ a), s.sorted.filter _⟩

@[simp] theorem mem_erase : x ∈ s.erase a ↔ x ≠ a ∧ x ∈ s := by
  show x ∈ s.elems.filter (· ≠ a) ↔ _
  rw [List.mem_filter, decide_eq_true_iff, mem_elems, and_comm]

/-- The elements for which `p` holds. -/
def filter (s : SortedSet K) (p : K → Bool) : SortedSet K := ⟨s.elems.filter p, s.sorted.filter _⟩

@[simp] theorem mem_filter {p : K → Bool} : a ∈ s.filter p ↔ a ∈ s ∧ p a = true := List.mem_filter

/-! ## As a `Finset` -/

def toFinset (s : SortedSet K) : Finset K := ⟨s.elems, s.nodup⟩

@[simp] theorem mem_toFinset : a ∈ s.toFinset ↔ a ∈ s := Iff.rfl

theorem sum_elems {M : Type*} [AddCommMonoid M] (s : SortedSet K) (f : K → M) :
    (s.elems.map f).sum = ∑ a ∈ s.toFinset, f a := rfl

/-! ## Size -/

def size (s : SortedSet K) : Nat := s.elems.length

theorem card_toFinset (s : SortedSet K) : s.toFinset.card = s.size := rfl

theorem toFinset_insert (s : SortedSet K) (a : K) :
    (s.insert a).toFinset = Insert.insert a s.toFinset := by
  ext x
  rw [Finset.mem_insert, mem_toFinset, mem_toFinset, mem_insert]

theorem size_le_of_subset (h : ∀ x ∈ s, x ∈ t) : s.size ≤ t.size :=
  Finset.card_le_card (s := s.toFinset) (t := t.toFinset) h

theorem size_insert_of_not_mem (h : a ∉ s) : (s.insert a).size = s.size + 1 := by
  rw [← card_toFinset, toFinset_insert, Finset.card_insert_of_notMem h, card_toFinset]

theorem size_erase_of_mem (h : a ∈ s) : (s.erase a).size + 1 = s.size := by
  have hself : ∀ x, x ∈ (s.erase a).insert a ↔ x ∈ s := by
    intro x
    by_cases hx : x = a
    · simp [hx, h]
    · simp [hx]
  have hnot : a ∉ s.erase a := fun hm => (mem_erase.mp hm).1 rfl
  rw [← size_insert_of_not_mem hnot]
  exact Nat.le_antisymm (size_le_of_subset fun x hx => (hself x).mp hx)
    (size_le_of_subset fun x hx => (hself x).mpr hx)

/-- Two disjoint sets within a third. -/
theorem size_add_size_le {u : SortedSet K} (hst : ∀ x ∈ s, x ∉ t) (hs : ∀ x ∈ s, x ∈ u)
    (ht : ∀ x ∈ t, x ∈ u) : s.size + t.size ≤ u.size := by
  have hdisj : Disjoint s.toFinset t.toFinset := Finset.disjoint_left.mpr hst
  rw [← card_toFinset, ← card_toFinset, ← Finset.card_union_of_disjoint hdisj]
  have hs' : s.toFinset ⊆ u.toFinset := hs
  have ht' : t.toFinset ⊆ u.toFinset := ht
  exact Finset.card_le_card (Finset.union_subset hs' ht')

end SortedSet
