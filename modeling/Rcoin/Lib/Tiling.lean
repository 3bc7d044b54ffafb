/-
  Intervals of numbers, each given by its start and its length, that cut a range
  into pieces.  An interval may be cut in two, and two that meet may be joined.
-/
import Mathlib

namespace Tiling

open List

/-- The numbers of an interval. -/
def Covers (c : Nat × Nat) (p : Nat) : Prop := c.1 ≤ p ∧ p < c.1 + c.2

/-- No number is in both. -/
def Apart (c d : Nat × Nat) : Prop := ∀ p, Covers c p → ¬Covers d p

instance : Std.Symm Apart := ⟨fun _ _ h p hd hc => h p hc hd⟩

/-- The intervals are not empty, and every number of the range, and no other, is in
    exactly one of them. -/
structure Tiles (l : List (Nat × Nat)) (lo hi : Nat) : Prop where
  nonempty : ∀ c ∈ l, 0 < c.2
  disjoint : l.Pairwise Apart
  covers : ∀ p, (∃ c ∈ l, Covers c p) ↔ lo ≤ p ∧ p < hi

variable {l l' : List (Nat × Nat)} {lo hi : Nat} {c d : Nat × Nat}

theorem Tiles.perm (h : Tiles l lo hi) (hp : l.Perm l') : Tiles l' lo hi where
  nonempty c hc := h.nonempty c (hp.mem_iff.mpr hc)
  disjoint := h.disjoint.perm hp fun hcd => symm hcd
  covers p := by
    rw [← h.covers p]
    simp only [hp.mem_iff]

theorem Tiles.single (h : 0 < hi) : Tiles [(lo, hi)] lo (lo + hi) where
  nonempty c hc := by
    rw [mem_singleton.mp hc]
    exact h
  disjoint := pairwise_singleton _ _
  covers p := ⟨fun ⟨c, hc, hp⟩ => by rw [mem_singleton.mp hc] at hp; exact hp,
    fun hp => ⟨_, mem_singleton_self _, hp⟩⟩

/-- One interval, or two that meet. -/
theorem tiles_split {a m k : Nat} (hm : 0 < m) (hk : 0 < k) :
    Tiles ((a, m + k) :: l) lo hi ↔ Tiles ((a, m) :: (a + m, k) :: l) lo hi := by
  have hcut : ∀ p, Covers (a, m + k) p ↔ Covers (a, m) p ∨ Covers (a + m, k) p := by
    simp only [Covers]
    omega
  constructor
  · intro h
    obtain ⟨hhead, htail⟩ := pairwise_cons.mp h.disjoint
    refine ⟨?_, ?_, fun p => ?_⟩
    · simp only [forall_mem_cons]
      exact ⟨hm, hk, fun c hc => h.nonempty c (mem_cons_of_mem _ hc)⟩
    · simp only [pairwise_cons, forall_mem_cons]
      refine ⟨⟨fun p hp hp' => ?_, fun d hd p hp => ?_⟩, fun d hd p hp => ?_, htail⟩
      · simp only [Covers] at hp hp'
        omega
      · exact hhead d hd p ((hcut p).mpr (.inl hp))
      · exact hhead d hd p ((hcut p).mpr (.inr hp))
    · rw [← h.covers p]
      simp only [exists_mem_cons_iff, hcut p, or_assoc]
  · intro h
    obtain ⟨hfirst, hrest⟩ := pairwise_cons.mp h.disjoint
    obtain ⟨hsecond, htail⟩ := pairwise_cons.mp hrest
    refine ⟨?_, ?_, fun p => ?_⟩
    · rw [forall_mem_cons]
      exact ⟨Nat.add_pos_left hm k, fun c hc =>
        h.nonempty c (mem_cons_of_mem _ (mem_cons_of_mem _ hc))⟩
    · refine pairwise_cons.mpr ⟨fun d hd p hp => ?_, htail⟩
      rcases (hcut p).mp hp with hp | hp
      · exact hfirst d (mem_cons_of_mem _ hd) p hp
      · exact hsecond d hd p hp
    · rw [← h.covers p]
      simp only [exists_mem_cons_iff, hcut p, or_assoc]

theorem Tiles.separate (h : Tiles l lo hi) (hc : c ∈ l) (hd : d ∈ l) (hne : c ≠ d) :
    c.1 + c.2 ≤ d.1 ∨ d.1 + d.2 ≤ c.1 := by
  have hall := h.disjoint.forall hc hd hne (max c.1 d.1)
  have hcpos := h.nonempty c hc
  have hdpos := h.nonempty d hd
  simp only [Covers] at hall
  omega

theorem Tiles.within (h : Tiles l lo hi) (hc : c ∈ l) : lo ≤ c.1 ∧ c.1 + c.2 ≤ hi := by
  have hpos := h.nonempty c hc
  have hfirst := (h.covers c.1).mp ⟨c, hc, Nat.le_refl _, by omega⟩
  have hlast := (h.covers (c.1 + c.2 - 1)).mp ⟨c, hc, by omega, by omega⟩
  omega

/-- Intervals that do not meet are one. -/
theorem Tiles.eq_singleton (h : Tiles l lo hi) (hlt : lo < hi)
    (happart : ∀ c ∈ l, ∀ d ∈ l, c.1 + c.2 ≠ d.1) (hnodup : l.Nodup) : l = [(lo, hi - lo)] := by
  obtain ⟨c, hc, hcov⟩ := (h.covers lo).mpr ⟨Nat.le_refl _, hlt⟩
  have hin := h.within hc
  have hstart : c.1 = lo := by
    have := hcov.1
    omega
  have hend : c.1 + c.2 = hi := by
    by_contra hne
    obtain ⟨d, hd, hdcov⟩ := (h.covers (c.1 + c.2)).mpr ⟨by omega, by omega⟩
    have hcd : c ≠ d := by
      rintro rfl
      exact Nat.lt_irrefl _ hdcov.2
    have hapart := happart c hc d hd
    have := h.separate hc hd hcd
    simp only [Covers] at hdcov
    omega
  have hall : ∀ d ∈ l, d = c := by
    intro d hd
    by_contra hne
    have hdin := h.within hd
    have hdpos := h.nonempty d hd
    have := h.separate hc hd (Ne.symm hne)
    omega
  have hlen : l = List.replicate l.length c := eq_replicate_iff.mpr ⟨rfl, hall⟩
  have hone : l.length = 1 := by
    have hle : l.length ≤ 1 := by
      rw [hlen] at hnodup
      exact nodup_replicate.mp hnodup
    have hpos := length_pos_of_mem hc
    omega
  rw [hlen, hone, ← hstart]
  show [c] = [(c.1, hi - c.1)]
  rw [← hend, Nat.add_sub_cancel_left]

end Tiling
