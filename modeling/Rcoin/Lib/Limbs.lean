/-
  Numbers as lists of words of a fixed width, the least significant first: the
  number such a list stands for, one word read or changed, and the arithmetic of
  carrying from word to word.
-/
import Mathlib

namespace Limbs

open List Nat

variable {w : Nat}

/-- The number whose words are given, the least significant first. -/
def value : List (BitVec w) → Nat
  | [] => 0
  | d :: ds => d.toNat + 2 ^ w * value ds

@[simp] theorem value_nil : value ([] : List (BitVec w)) = 0 := rfl

@[simp] theorem value_cons (d : BitVec w) (ds : List (BitVec w)) :
    value (d :: ds) = d.toNat + 2 ^ w * value ds := rfl

theorem value_append (ds es : List (BitVec w)) :
    value (ds ++ es) = value ds + 2 ^ (w * ds.length) * value es := by
  induction ds with
  | nil => simp
  | cons d ds ih =>
    rw [List.cons_append, value_cons, ih, value_cons, length_cons, Nat.mul_succ, Nat.pow_add]
    ring

theorem value_lt (ds : List (BitVec w)) : value ds < 2 ^ (w * ds.length) := by
  induction ds with
  | nil => simp
  | cons d ds ih =>
    rw [value_cons, length_cons, Nat.mul_succ, Nat.pow_add]
    have hle : 2 ^ w * (value ds + 1) ≤ 2 ^ w * 2 ^ (w * ds.length) :=
      Nat.mul_le_mul_left _ ih
    rw [Nat.mul_comm (2 ^ (w * ds.length))]
    rw [Nat.mul_succ] at hle
    omega

variable {ds : List (BitVec w)}

theorem value_inj {es : List (BitVec w)} (hlen : ds.length = es.length) (h : value ds = value es)
    : ds = es := by
  induction ds generalizing es with
  | nil => exact (length_eq_zero_iff.mp hlen.symm).symm
  | cons d ds ih =>
    cases es with
    | nil => nomatch hlen
    | cons e es =>
      rw [value_cons, value_cons] at h
      have hmod := congrArg (· % 2 ^ w) h
      simp only [add_mul_mod_self_left, mod_eq_of_lt d.isLt, mod_eq_of_lt e.isLt]
        at hmod
      have hrest : 2 ^ w * value ds = 2 ^ w * value es := by omega
      rw [BitVec.eq_of_toNat_eq hmod,
        ih (Nat.succ.inj hlen) (Nat.eq_of_mul_eq_mul_left (Nat.two_pow_pos w) hrest)]

@[simp] theorem value_replicate_zero (n : Nat) : value (List.replicate n 0#w) = 0 := by
  induction n with
  | zero => rfl
  | succ n ih => rw [List.replicate_succ, value_cons, ih, BitVec.toNat_zero, Nat.mul_zero]

/-! ## One word -/

theorem value_take_succ (ds : List (BitVec w)) (i : Nat) :
    value (ds.take (i + 1)) = value (ds.take i) + 2 ^ (w * i) * (ds.getD i 0#w).toNat := by
  by_cases hi : i < ds.length
  · have hlen : (ds.take i).length = i := length_take_of_le hi.le
    rw [take_succ_eq_append_getElem hi, value_append, hlen, getD_eq_getElem _ _ hi,
      value_cons, value_nil, Nat.mul_zero, Nat.add_zero]
  · rw [take_of_length_le (by omega), take_of_length_le (by omega),
      getD_eq_default _ _ (by omega), BitVec.toNat_zero, Nat.mul_zero, Nat.add_zero]

theorem value_take_lt (ds : List (BitVec w)) (i : Nat) : value (ds.take i) < 2 ^ (w * i) := by
  refine Nat.lt_of_lt_of_le (value_lt _) (Nat.pow_le_pow_right (by omega) ?_)
  exact Nat.mul_le_mul_left _ (List.length_take_le i ds)

theorem value_take (ds : List (BitVec w)) (i : Nat) :
    value (ds.take i) = value ds % 2 ^ (w * i) := by
  have hlt := value_take_lt ds i
  by_cases hi : i ≤ ds.length
  · conv_rhs => rw [← take_append_drop i ds]
    rw [value_append, length_take_of_le hi, add_mul_mod_self_left, mod_eq_of_lt hlt]
  · rw [take_of_length_le (by omega)] at hlt ⊢
    rw [mod_eq_of_lt hlt]

/-- A word is the digit of the number at its place. -/
theorem toNat_getD (ds : List (BitVec w)) (i : Nat) :
    (ds.getD i 0#w).toNat = value ds / 2 ^ (w * i) % 2 ^ w := by
  have h := value_take_succ ds i
  rw [value_take, value_take, Nat.mul_succ, Nat.pow_add, Nat.mod_mul] at h
  exact (Nat.eq_of_mul_eq_mul_left (Nat.two_pow_pos _) (Nat.add_left_cancel h)).symm

/-- Changing one word changes the number by the difference at its place. -/
theorem value_modify (f : BitVec w → BitVec w) {i : Nat} (hi : i < ds.length) :
    value (ds.modify i f) + 2 ^ (w * i) * (ds.getD i 0#w).toNat =
      value ds + 2 ^ (w * i) * (f (ds.getD i 0#w)).toNat := by
  induction ds generalizing i with
  | nil => nomatch hi
  | cons d ds ih =>
    cases i with
    | zero => simp [Nat.add_comm, Nat.add_left_comm]
    | succ i =>
      have h := ih (lt_of_succ_lt_succ hi)
      rw [modify_succ_cons, value_cons, value_cons, getD_cons_succ, Nat.mul_succ,
        Nat.pow_add, Nat.mul_comm (2 ^ (w * i)), Nat.mul_assoc, Nat.mul_assoc, Nat.add_assoc,
        Nat.add_assoc, ← Nat.mul_add, ← Nat.mul_add, h]

theorem getD_modify (f : BitVec w → BitVec w) {i : Nat} (hi : i < ds.length) (j : Nat) :
    (ds.modify i f).getD j 0#w = if j = i then f (ds.getD i 0#w) else ds.getD j 0#w := by
  rw [getD_eq_getElem?_getD, getElem?_modify]
  by_cases hj : j = i
  · subst hj
    rw [if_pos rfl, getD_eq_getElem _ _ hi, List.getElem?_eq_getElem hi]
    simp
  · rw [if_neg hj, getD_eq_getElem?_getD]
    simp [Ne.symm hj]

/-! ## Carrying -/

/-- A double word splits into the word that stays and the carry. -/
theorem low_add_carry (B M n x : Nat) :
    n % B + B * ((n / B + x) % M) = (n + B * x) % (B * M) := by
  rw [Nat.mod_mul, add_mul_mod_self_left]
  rcases Nat.eq_zero_or_pos B with rfl | hB
  · simp
  · rw [add_mul_div_left _ _ hB]

/-- Words with no bit in common are added by `or`. -/
theorem toNat_or_of_disjoint {x y : BitVec w} {s : Nat} (hx : x.toNat < 2 ^ s)
    (hy : 2 ^ s ∣ y.toNat) : (x ||| y).toNat = x.toNat + y.toNat := by
  obtain ⟨k, hk⟩ := hy
  rw [BitVec.toNat_or, hk, Nat.or_comm, ← two_pow_add_eq_or_of_lt hx, Nat.add_comm]

theorem value_map_not (ds : List (BitVec w)) :
    value (ds.map (~~~ ·)) + value ds + 1 = 2 ^ (w * ds.length) := by
  induction ds with
  | nil => simp
  | cons d ds ih =>
    rw [map_cons, value_cons, value_cons, length_cons, Nat.mul_succ, Nat.pow_add, ← ih,
      BitVec.toNat_not]
    have hsum : 2 ^ w - 1 - d.toNat + d.toNat + 1 = 2 ^ w := by omega
    calc 2 ^ w - 1 - d.toNat + 2 ^ w * value (ds.map (~~~ ·)) + (d.toNat + 2 ^ w * value ds) + 1
        = 2 ^ w - 1 - d.toNat + d.toNat + 1 +
            2 ^ w * (value (ds.map (~~~ ·)) + value ds) := by ring
      _ = (value (ds.map (~~~ ·)) + value ds + 1) * 2 ^ w := by rw [hsum]; ring

end Limbs
