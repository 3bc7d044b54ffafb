/-
  `std::lower_bound`: a binary search for the end of the positions of which a test
  holds.  It is right where the test never holds again once it has failed.
-/
import Mathlib

namespace LowerBound

/-- The rounds over the `len` positions from `first` on.  `none` when the test is asked of
    a position where it is not defined; each round takes at least one position away. -/
def search (before : Nat → Option Bool) : Nat → Nat → Nat → Option Nat
  | 0, first, _ => some first
  | fuel + 1, first, len =>
    if len = 0 then some first
    else
      let half := len / 2
      match before (first + half) with
      | none => none
      | some true => search before fuel (first + half + 1) (len - half - 1)
      | some false => search before fuel first half

/-- The search over the positions below `n`. -/
def lowerBound (before : Nat → Option Bool) (n : Nat) : Option Nat := search before n 0 n

/-- `r` parts the positions from `lo` to `hi`: `p` holds below it, and not from it on. -/
structure Parts (p : Nat → Bool) (lo hi r : Nat) : Prop where
  lower : lo ≤ r
  upper : r ≤ hi
  holds : ∀ i, lo ≤ i → i < r → p i = true
  fails : ∀ i, r ≤ i → i < hi → p i = false

variable {before : Nat → Option Bool} {p : Nat → Bool} {n : Nat}

/-- The positions that a round leaves out are on the side of the one it asks about. -/
theorem search_spec (hanti : ∀ i j, i ≤ j → j < n → p j = true → p i = true)
    (htest : ∀ i < n, before i = some (p i)) (fuel first len : Nat) (hfuel : len ≤ fuel)
    (hend : first + len ≤ n) :
    ∃ r, search before fuel first len = some r ∧ Parts p first (first + len) r := by
  induction fuel generalizing first len with
  | zero =>
    obtain rfl : len = 0 := Nat.le_zero.mp hfuel
    exact ⟨first, rfl, le_refl _, le_refl _, fun i h h' => by omega, fun i h h' => by omega⟩
  | succ fuel ih =>
    rw [search]
    split
    next hzero =>
      subst hzero
      exact ⟨first, rfl, le_refl _, le_refl _, fun i h h' => by omega, fun i h h' => by omega⟩
    next hlen =>
      have hmid : first + len / 2 < n := by omega
      dsimp only
      rw [htest _ hmid]
      cases hp : p (first + len / 2) with
      | true =>
        have hrest : first + len / 2 + 1 + (len - len / 2 - 1) = first + len := by omega
        obtain ⟨r, hr, hparts⟩ := ih (first + len / 2 + 1) (len - len / 2 - 1)
          (by omega) (by omega)
        rw [hrest] at hparts
        refine ⟨r, hr, ?_, hparts.upper, fun i hi hir => ?_, hparts.fails⟩
        · have := hparts.lower
          omega
        · by_cases hle : i ≤ first + len / 2
          · exact hanti i _ hle hmid hp
          · exact hparts.holds i (by omega) hir
      | false =>
        obtain ⟨r, hr, hparts⟩ := ih first (len / 2) (by omega) (by omega)
        refine ⟨r, hr, hparts.lower, ?_, hparts.holds, fun i hir hi => ?_⟩
        · have := hparts.upper
          omega
        · by_cases hlt : i < first + len / 2
          · exact hparts.fails i hir hlt
          · -- the test failed before, so it cannot hold here
            cases hpi : p i with
            | false => rfl
            | true =>
              have htrue := hanti (first + len / 2) i (by omega) (by omega) hpi
              rw [hp] at htrue
              exact nomatch htrue

theorem lowerBound_spec (hanti : ∀ i j, i ≤ j → j < n → p j = true → p i = true)
    (htest : ∀ i < n, before i = some (p i)) :
    ∃ r, lowerBound before n = some r ∧ Parts p 0 n r := by
  obtain ⟨r, hr, hparts⟩ := search_spec hanti htest n 0 n (le_refl n) (by omega)
  rw [Nat.zero_add] at hparts
  exact ⟨r, hr, hparts⟩

end LowerBound
