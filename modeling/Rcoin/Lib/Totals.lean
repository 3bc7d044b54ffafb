/-
  The total of a finitely supported integer function: how it changes when the
  function changes at one key, and how it is computed from a set of keys.
-/
import Mathlib

namespace Totals

open Finset

variable {K : Type*} {f g : K → ℤ}

/-- Sum of all values of `f` (of which finitely many are not zero). -/
noncomputable def total (f : K → ℤ) : ℤ := ∑ᶠ k, f k

theorem total_eq_sum {s : Finset K} (h : ∀ k, k ∉ s → f k = 0) : total f = ∑ k ∈ s, f k := by
  apply finsum_eq_sum_of_support_subset
  intro k hk
  by_contra hks
  exact hk (h k (fun hm => hks hm))

/-- A change at some keys changes the total by the difference there. -/
theorem total_of_eq_off (hf : f.support.Finite) (s : Finset K) (h : ∀ k, k ∉ s → g k = f k) :
    total g = total f - ∑ k ∈ s, f k + ∑ k ∈ s, g k := by
  classical
  have hout : ∀ k, k ∉ hf.toFinset ∪ s → f k = 0 ∧ g k = 0 := by
    intro k hk
    have hf0 : f k = 0 := by
      by_contra hne
      exact hk (mem_union_left _ (hf.mem_toFinset.mpr hne))
    exact ⟨hf0, by rw [h k fun hm => hk (mem_union_right _ hm), hf0]⟩
  have hsub : s ⊆ hf.toFinset ∪ s := subset_union_right
  have hrest : ∑ k ∈ (hf.toFinset ∪ s) \ s, g k = ∑ k ∈ (hf.toFinset ∪ s) \ s, f k :=
    sum_congr rfl fun k hk => h k (mem_sdiff.mp hk).2
  rw [total_eq_sum fun k hk => (hout k hk).1, total_eq_sum fun k hk => (hout k hk).2,
    ← sum_sdiff hsub, ← sum_sdiff hsub, hrest]
  omega

theorem total_mono (hf : f.support.Finite) (hg : g.support.Finite) (h : ∀ k, f k ≤ g k) :
    total f ≤ total g := by
  classical
  have hf' : ∀ k, k ∉ hf.toFinset ∪ hg.toFinset → f k = 0 := by
    intro k hk
    by_contra hne
    exact hk (mem_union_left _ (hf.mem_toFinset.mpr hne))
  have hg' : ∀ k, k ∉ hf.toFinset ∪ hg.toFinset → g k = 0 := by
    intro k hk
    by_contra hne
    exact hk (mem_union_right _ (hg.mem_toFinset.mpr hne))
  rw [total_eq_sum hf', total_eq_sum hg']
  exact sum_le_sum fun k _ => h k

theorem total_congr (h : ∀ k, f k = g k) : total f = total g := by
  exact finsum_congr h

end Totals
