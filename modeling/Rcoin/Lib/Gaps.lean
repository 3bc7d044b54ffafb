/-
  The positions a list of taken positions leaves free, in order: `gap taken i` is
  the `i`-th of them.  Behind the `i`-th gap lie `i` gaps and the taken positions
  before it.
-/
import Mathlib

namespace Rcoin.Gaps

/-- The `i`-th position that is not taken. -/
noncomputable def gap (taken : List Nat) (i : Nat) : Nat := Nat.nth (fun p => p ∉ taken) i

section

variable (taken : List Nat)

theorem infinite_free : (Set.ofPred fun p => p ∉ taken).Infinite :=
  (List.finite_toSet taken).infinite_compl

theorem gap_notMem (i : Nat) : gap taken i ∉ taken :=
  Nat.nth_mem_of_infinite (infinite_free taken) i

theorem gap_strictMono : StrictMono (gap taken) := Nat.nth_strictMono (infinite_free taken)

variable {taken}

variable {p i : Nat}

/-- Between one gap and the next everything is taken. -/
theorem mem_of_between (hlt : gap taken i < p) (hgt : p < gap taken (i + 1)) : p ∈ taken := by
  by_contra hp
  have hle : p ≤ gap taken i := Nat.le_nth_of_lt_nth_succ hgt hp
  omega

theorem mem_of_lt_gap_zero (h : p < gap taken 0) : p ∈ taken := by
  by_contra hp
  have hcount : Nat.count (fun p => p ∉ taken) p = 0 :=
    Nat.le_zero.mp (Nat.le_nth_of_count_le (Nat.le_of_lt h))
  have heq : gap taken 0 = p := by
    rw [gap, ← hcount]
    exact Nat.nth_count hp
  omega

theorem count_eq_card_sdiff (b : Nat) :
    Nat.count (fun p => p ∉ taken) b = (Finset.range b \ taken.toFinset).card := by
  have hfilter : (Finset.range b).filter (fun p => p ∉ taken) =
      Finset.range b \ taken.toFinset := by
    ext p
    simp
  rw [Nat.count_eq_card_filter_range, hfilter]

variable {b : Nat}

/-- The free positions below a bound that the taken ones respect. -/
theorem count_free (hnd : taken.Nodup) (hlt : ∀ p ∈ taken, p < b) :
    Nat.count (fun p => p ∉ taken) b = b - taken.length := by
  have hsub : taken.toFinset ⊆ Finset.range b := by
    intro p hp
    exact Finset.mem_range.mpr (hlt p (List.mem_toFinset.mp hp))
  rw [count_eq_card_sdiff, Finset.card_sdiff_of_subset hsub, Finset.card_range,
    List.toFinset_card_of_nodup hnd]

theorem length_le_of_lt (hnd : taken.Nodup) (hlt : ∀ p ∈ taken, p < b) : taken.length ≤ b := by
  have hsub : taken ⊆ List.range b := fun p hp => List.mem_range.mpr (hlt p hp)
  simpa using List.Nodup.length_le_of_subset hnd hsub

/-- As many taken positions as there are below a bound: all of them. -/
theorem mem_of_length_eq (hnd : taken.Nodup) (hlt : ∀ p ∈ taken, p < b) (hfull : taken.length = b)
    (hp : p < b) : p ∈ taken := by
  have hcount := count_free hnd hlt
  rw [hfull, Nat.sub_self, Nat.count_iff_forall_not] at hcount
  exact not_not.mp (hcount p hp)

/-- Where the `i`-th gap lies, seen from a bound of the taken positions. -/
theorem gap_lt_iff (hnd : taken.Nodup) (hlt : ∀ p ∈ taken, p < b) :
    gap taken i < b ↔ i + taken.length < b := by
  have hgc := Nat.count_le_iff_le_nth (infinite_free taken) (a := b) (b := i)
  rw [count_free hnd hlt] at hgc
  have hgap : gap taken i = Nat.nth (fun p => p ∉ taken) i := rfl
  omega

variable (taken) in
/-- No gap is further off than all the taken positions before it. -/
theorem gap_le (i : Nat) : gap taken i ≤ i + taken.length := by
  have hcount : Nat.count (fun p => p ∉ taken) (gap taken i) = i :=
    Nat.count_nth_of_infinite (infinite_free taken) i
  have hcard : (Finset.range (gap taken i)).card - taken.toFinset.card ≤
      (Finset.range (gap taken i) \ taken.toFinset).card := Finset.le_card_sdiff _ _
  have hlen := List.toFinset_card_le taken
  rw [Finset.card_range, ← count_eq_card_sdiff, hcount] at hcard
  omega

end

end Rcoin.Gaps
