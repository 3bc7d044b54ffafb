/-
  Multimaps as lists ordered by their keys: what `std::multimap` is to a program that
  inserts, erases single elements and walks from the beginning on.
-/
import Mathlib

/-- The elements from the least key on; those of one key in the order of insertion. -/
structure Multimap (K : Type*) [LinearOrder K] (V : Type*) where
  entries : List (K × V)
  sorted : entries.Pairwise (·.1 ≤ ·.1)

namespace Multimap

variable {K V : Type*} [LinearOrder K]

def empty : Multimap K V := ⟨[], List.Pairwise.nil⟩

def insertEntries (k : K) (v : V) : List (K × V) → List (K × V)
  | [] => [(k, v)]
  | e :: l => if k < e.1 then (k, v) :: e :: l else e :: insertEntries k v l

variable (k : K) (v : V) (l : List (K × V)) (m : Multimap K V)

theorem perm_insertEntries : (insertEntries k v l).Perm ((k, v) :: l) := by
  induction l with
  | nil => exact .refl _
  | cons e l ih =>
    rw [insertEntries]
    split
    · exact .refl _
    · exact (ih.cons e).trans (.swap _ _ _)

variable {l} in
theorem sorted_insertEntries (h : l.Pairwise (·.1 ≤ ·.1)) :
    (insertEntries k v l).Pairwise (·.1 ≤ ·.1) := by
  induction l with
  | nil => exact List.pairwise_singleton _ _
  | cons e l ih =>
    obtain ⟨hhead, htail⟩ := List.pairwise_cons.mp h
    rw [insertEntries]
    split
    next hlt =>
      refine List.pairwise_cons.mpr ⟨fun b hb => ?_, h⟩
      obtain rfl | hb := List.mem_cons.mp hb
      · exact hlt.le
      · exact hlt.le.trans (hhead b hb)
    next hle =>
      refine List.pairwise_cons.mpr ⟨fun b hb => ?_, ih htail⟩
      obtain rfl | hb := List.mem_cons.mp ((perm_insertEntries k v l).mem_iff.mp hb)
      · exact not_lt.mp hle
      · exact hhead b hb

def insert : Multimap K V := ⟨insertEntries k v m.entries, sorted_insertEntries k v m.sorted⟩

theorem perm_insert : (m.insert k v).entries.Perm ((k, v) :: m.entries) :=
  perm_insertEntries k v m.entries

/-- `erase(begin())`. -/
def eraseBegin : Multimap K V := ⟨m.entries.tail, m.sorted.tail⟩

theorem entries_eraseBegin {m : Multimap K V} {e : K × V} {l : List (K × V)}
    (h : m.entries = e :: l) : m.eraseBegin.entries = l := congrArg List.tail h

/-- The elements from `lower_bound(k)` on. -/
def lowerBound : List (K × V) := m.entries.dropWhile (·.1 < k)

theorem lowerBound_sublist : (m.lowerBound k).Sublist m.entries := List.dropWhile_sublist _

theorem mem_lowerBound {e : K × V} : e ∈ m.lowerBound k ↔ e ∈ m.entries ∧ k ≤ e.1 := by
  obtain ⟨l, hl⟩ := m
  rw [lowerBound]
  induction l with
  | nil => simp
  | cons f l ih =>
    obtain ⟨hhead, htail⟩ := List.pairwise_cons.mp hl
    rw [List.dropWhile_cons, List.mem_cons]
    split
    next hlt =>
      rw [ih htail]
      refine ⟨fun h => ⟨.inr h.1, h.2⟩, fun h => ⟨h.1.resolve_left ?_, h.2⟩⟩
      rintro rfl
      exact absurd h.2 (not_le.mpr (of_decide_eq_true hlt))
    next hnlt =>
      have hle : k ≤ f.1 := not_lt.mp fun hlt => hnlt (decide_eq_true hlt)
      refine ⟨fun h => ⟨List.mem_cons.mp h, ?_⟩, fun h => List.mem_cons.mpr h.1⟩
      obtain rfl | h := List.mem_cons.mp h
      · exact hle
      · exact hle.trans (hhead e h)

/-- Where a predicate holds up to some element and not behind it. -/
theorem mem_takeWhile {α : Type*} {p : α → Bool} {l : List α} {a : α}
    (h : l.Pairwise fun a b => p b = true → p a = true) :
    a ∈ l.takeWhile p ↔ a ∈ l ∧ p a = true := by
  induction l with
  | nil => simp
  | cons b l ih =>
    obtain ⟨hhead, htail⟩ := List.pairwise_cons.mp h
    rw [List.takeWhile_cons, List.mem_cons]
    split
    next hb =>
      rw [List.mem_cons, ih htail]
      refine ⟨fun h => h.elim (fun h => ⟨.inl h, h ▸ hb⟩) fun h => ⟨.inr h.1, h.2⟩, fun h => ?_⟩
      exact h.1.imp_right fun hmem => ⟨hmem, h.2⟩
    next hb =>
      refine iff_of_false List.not_mem_nil fun h => ?_
      obtain rfl | hmem := h.1
      · exact hb h.2
      · exact hb (hhead a hmem h.2)

variable [DecidableEq V]

/-- The first element with this key and value is erased. -/
def erase : Multimap K V := ⟨m.entries.erase (k, v), m.sorted.erase _⟩

end Multimap
