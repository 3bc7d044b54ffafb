/-
  Matching a list into another one in order: every item of the first list is
  related to an item of the second, at growing positions.  The relation is
  Mathlib's `List.SublistForall₂`; here is the greedy choice, and the matching as
  a strictly increasing map of positions.
-/
import Mathlib

namespace Rcoin.Matching

open List

section

variable {α β : Type*} {R : α → β → Prop}

variable {as : List α} {bs : List β}

theorem length_le (h : SublistForall₂ R as bs) : as.length ≤ bs.length := by
  obtain ⟨l, hf, hs⟩ := sublistForall₂_iff.mp h
  rw [hf.length_eq]
  exact hs.length_le

variable {a : α}

theorem of_cons (h : SublistForall₂ R (a :: as) bs) : SublistForall₂ R as bs := by
  obtain ⟨l, hf, hs⟩ := sublistForall₂_iff.mp h
  cases hf with
  | cons _ hf => exact sublistForall₂_iff.mpr ⟨_, hf, (sublist_cons_self _ _).trans hs⟩

/-- Two related heads may as well be matched with each other. -/
theorem cons_cons_iff_of_rel {b : β} (hab : R a b) :
    SublistForall₂ R (a :: as) (b :: bs) ↔ SublistForall₂ R as bs := by
  constructor
  · intro h
    cases h with
    | cons _ h => exact h
    | cons_right h => exact of_cons h
  · exact .cons hab

/-- A head that the first item is not related to stays unmatched. -/
theorem cons_cons_iff_of_not_rel {b : β} (hab : ¬R a b) :
    SublistForall₂ R (a :: as) (b :: bs) ↔ SublistForall₂ R (a :: as) bs := by
  constructor
  · intro h
    cases h with
    | cons h _ => exact absurd h hab
    | cons_right h => exact h
  · exact .cons_right

/-- A matching is a strictly increasing map of positions. -/
theorem iff_exists_strictMono : SublistForall₂ R as bs ↔ ∃ f : Fin as.length → Fin bs.length,
      StrictMono f ∧ ∀ i, R as[i] bs[f i] := by
  rw [sublistForall₂_iff]
  constructor
  · rintro ⟨l, hf, hs⟩
    obtain ⟨g, hg⟩ := sublist_iff_exists_fin_orderEmbedding_get_eq.mp hs
    refine ⟨fun i => g (Fin.cast hf.length_eq i), fun i j hij => ?_, fun i => ?_⟩
    · exact g.strictMono hij
    · have hi := hf.get i.isLt (hf.length_eq ▸ i.isLt)
      have hg' := hg (Fin.cast hf.length_eq i)
      simp only [List.get_eq_getElem, Fin.val_cast] at hi hg'
      simpa only [Fin.getElem_fin, ← hg'] using hi
  · rintro ⟨f, hf, hR⟩
    -- the matched items, in order
    refine ⟨List.ofFn fun i => bs[f i], ?_, ?_⟩
    · refine forall₂_iff_get.mpr ⟨by simp, fun i hi _ => ?_⟩
      simpa using hR ⟨i, hi⟩
    · refine sublist_iff_exists_fin_orderEmbedding_get_eq.mpr ?_
      refine ⟨OrderEmbedding.ofStrictMono (fun i => f (Fin.cast (by simp) i)) ?_, fun i => ?_⟩
      · exact fun i j hij => hf hij
      · simp only [List.get_eq_getElem, List.getElem_ofFn]
        rfl

end

end Rcoin.Matching
