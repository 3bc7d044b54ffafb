/-
  Binary trees of hashes over any number of leaves.  A level has half as many nodes
  as the one below, rounded up; the last node of an odd level is paired with itself.
-/
import Mathlib

namespace MerkleTree

variable {H : Type*} {n h p q : Nat}

/-! ## Levels -/

/-- The number of nodes at height `h` over `n` leaves. -/
def width (n h : Nat) : Nat := (n + 2 ^ h - 1) / 2 ^ h

theorem lt_width_iff : p < width n h ↔ p * 2 ^ h < n := by
  have hpos : 0 < 2 ^ h := Nat.two_pow_pos h
  rw [width, ← Nat.succ_le_iff, Nat.le_div_iff_mul_le hpos, Nat.succ_mul]
  omega

theorem width_zero : width n 0 = n := by
  rw [width, Nat.pow_zero, Nat.div_one, Nat.add_sub_cancel]

/-- Below a node there is at least its left child. -/
theorem left_lt_width (hp : p < width n (h + 1)) : p * 2 < width n h := by
  rw [lt_width_iff] at hp ⊢
  rwa [Nat.mul_assoc, ← Nat.pow_succ']

/-- The least height at which there is one node at most. -/
structure IsHeight (n h : Nat) : Prop where
  width_le : width n h ≤ 1
  below : ∀ l < h, 1 < width n l

theorem IsHeight.unique {h' : Nat} (hh : IsHeight n h) (hh' : IsHeight n h') : h = h' := by
  rcases Nat.lt_trichotomy h h' with hlt | heq | hlt
  · exact absurd (hh'.below h hlt) (Nat.not_lt.mpr hh.width_le)
  · exact heq
  · exact absurd (hh.below h' hlt) (Nat.not_lt.mpr hh'.width_le)

/-! ## The hash of a node -/

/-- The hash of node `pos` at a height, over the first `n` of `leaf`. -/
def hash (node : H → H → H) (leaf : Nat → H) (n : Nat) : Nat → Nat → H
  | 0, pos => leaf pos
  | h + 1, pos =>
    node (hash node leaf n h (pos * 2))
      (if pos * 2 + 1 < width n h then hash node leaf n h (pos * 2 + 1)
        else hash node leaf n h (pos * 2))

variable {node : H → H → H} {leaf : Nat → H}

theorem hash_of_two (h2 : p * 2 + 1 < width n h) : hash node leaf n (h + 1) p =
    node (hash node leaf n h (p * 2)) (hash node leaf n h (p * 2 + 1)) := by
  rw [hash, if_pos h2]

theorem hash_of_one (h1 : ¬ p * 2 + 1 < width n h) : hash node leaf n (h + 1) p =
    node (hash node leaf n h (p * 2)) (hash node leaf n h (p * 2)) := by
  rw [hash, if_neg h1]

/-- Different nodes at one height have different hashes, when the leaves are different
    and `node` is injective. -/
theorem hash_injective (hnode : ∀ a b c d, node a b = node c d → a = c ∧ b = d)
    (hleaf : ∀ i < n, ∀ j < n, leaf i = leaf j → i = j) (hp : p < width n h) (hq : q < width n h)
    (heq : hash node leaf n h p = hash node leaf n h q) : p = q := by
  induction h generalizing p q with
  | zero =>
    rw [width_zero] at hp hq
    exact hleaf p hp q hq heq
  | succ h ih =>
    have hchild := ih (left_lt_width hp) (left_lt_width hq) (hnode _ _ _ _ heq).1
    omega

/-! ## The leaves below a node -/

/-- How many leaves there are below node `pos`. -/
def leaves (n h pos : Nat) : Nat := min ((pos + 1) * 2 ^ h) n - pos * 2 ^ h

theorem leaves_pos (hp : p < width n h) : 0 < leaves n h p := by
  rw [lt_width_iff] at hp
  have hpow := Nat.two_pow_pos h
  rw [leaves, Nat.succ_mul]
  omega

theorem leaves_of_two :
    leaves n (h + 1) p = leaves n h (p * 2) + leaves n h (p * 2 + 1) := by
  have hstart : p * 2 ^ (h + 1) = p * 2 * 2 ^ h := by ring
  have hend : (p + 1) * 2 ^ (h + 1) = p * 2 * 2 ^ h + 2 ^ h + 2 ^ h := by ring
  simp only [leaves, hstart, hend, Nat.succ_mul]
  omega

theorem leaves_of_one (h1 : ¬ p * 2 + 1 < width n h) :
    leaves n (h + 1) p = leaves n h (p * 2) := by
  rw [lt_width_iff] at h1
  have hstart : p * 2 ^ (h + 1) = p * 2 * 2 ^ h := by ring
  have hend : (p + 1) * 2 ^ (h + 1) = p * 2 * 2 ^ h + 2 ^ h + 2 ^ h := by ring
  simp only [leaves, hstart, hend, Nat.succ_mul] at h1 ⊢
  omega

end MerkleTree
