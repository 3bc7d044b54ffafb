/-
  Numbers as lists of integer digits, the least significant first and of either
  sign: the number such a list stands for, one digit changed, and the multiple of
  a group element that is added up digit by digit.
-/
import Mathlib

namespace SignedDigits

open List

/-- The number with these digits to base `b`. -/
def value (b : Int) : List Int → Int
  | [] => 0
  | d :: ds => d + b * value b ds

variable {b : Int}

@[simp] theorem value_nil : value b [] = 0 := rfl

@[simp] theorem value_cons (d : Int) (ds : List Int) : value b (d :: ds) = d + b * value b ds := rfl

theorem value_eq_sum (ds : List Int) :
    value b ds = ∑ i ∈ Finset.range ds.length, b ^ i * ds.getD i 0 := by
  induction ds with
  | nil => simp
  | cons d ds ih =>
    rw [value_cons, ih, length_cons, Finset.sum_range_succ', Finset.mul_sum, add_comm]
    congr 1
    · refine Finset.sum_congr rfl fun i _ => ?_
      rw [getD_cons_succ, pow_succ]
      ring
    · rw [pow_zero, one_mul, getD_cons_zero]

variable {ds : List Int} {i : Nat}

/-- Changing a digit changes the number by the difference at its place. -/
theorem value_set (hi : i < ds.length) (d : Int) :
    value b (ds.set i d) = value b ds + b ^ i * (d - ds.getD i 0) := by
  induction ds generalizing i with
  | nil => nomatch hi
  | cons e ds ih =>
    cases i with
    | zero =>
      rw [set_cons_zero, value_cons, value_cons, getD_cons_zero, pow_zero]
      ring
    | succ i =>
      rw [set_cons_succ, value_cons, value_cons, getD_cons_succ,
        ih (Nat.lt_of_succ_lt_succ hi), pow_succ]
      ring

theorem getD_set (hi : i < ds.length) (d : Int) (j : Nat) :
    (ds.set i d).getD j 0 = if j = i then d else ds.getD j 0 := by
  rw [getD_eq_getElem?_getD, getElem?_set]
  by_cases hj : i = j
  · rw [if_pos hj, if_pos (hj ▸ hi), if_pos hj.symm]
    rfl
  · rw [if_neg hj, if_neg (Ne.symm hj), getD_eq_getElem?_getD]

theorem value_take_succ (hi : i < ds.length) :
    value b (ds.take (i + 1)) = value b (ds.take i) + b ^ i * ds.getD i 0 := by
  rw [value_eq_sum, value_eq_sum, length_take_of_le hi, length_take_of_le hi.le,
    Finset.sum_range_succ]
  congr 1
  · refine Finset.sum_congr rfl fun j hj => ?_
    have hj := Finset.mem_range.mp hj
    rw [getD_eq_getElem?_getD, getD_eq_getElem?_getD, getElem?_take_of_lt hj,
      getElem?_take_of_lt (Nat.lt_succ_of_lt hj)]
  · rw [getD_eq_getElem?_getD, getElem?_take_of_lt (Nat.lt_succ_self i),
      ← getD_eq_getElem?_getD]

/-- Zeros above a place do not count. -/
theorem value_take_add {n : Nat} (hn : i + n ≤ ds.length)
    (h : ∀ j, i ≤ j → j < i + n → ds.getD j 0 = 0) :
    value b (ds.take (i + n)) = value b (ds.take i) := by
  induction n with
  | zero => rfl
  | succ n ih =>
    have hlast : i + n < ds.length := hn
    rw [← Nat.add_assoc, value_take_succ hlast, ih hlast.le
      fun j hi hj => h j hi (Nat.lt_succ_of_lt hj), h (i + n) (Nat.le_add_right ..)
      (Nat.lt_succ_self _), mul_zero, add_zero]

theorem value_take_congr {es : List Int} (hds : i ≤ ds.length) (hes : i ≤ es.length)
    (h : ∀ j < i, ds.getD j 0 = es.getD j 0) : value b (ds.take i) = value b (es.take i) := by
  rw [value_eq_sum, value_eq_sum, length_take_of_le hds, length_take_of_le hes]
  refine Finset.sum_congr rfl fun j hj => ?_
  have hj := Finset.mem_range.mp hj
  rw [getD_eq_getElem?_getD, getElem?_take_of_lt hj, ← getD_eq_getElem?_getD,
    h j hj, getD_eq_getElem?_getD, getD_eq_getElem?_getD, getElem?_take_of_lt hj]

/-- The digits below and from a place on. -/
theorem value_take_add_drop (ds : List Int) (hi : i ≤ ds.length) :
    value b (ds.take i) + b ^ i * value b (ds.drop i) = value b ds := by
  induction ds generalizing i with
  | nil =>
    simp
  | cons d ds ih =>
    cases i with
    | zero => simp
    | succ i =>
      rw [take_succ_cons, drop_succ_cons, value_cons, value_cons,
        ← ih (Nat.le_of_succ_le_succ hi), pow_succ]
      ring

/-! ## Multiples of a group element -/

variable {G : Type*} [AddCommGroup G]

/-- From the top digit down: multiply by the base, add the multiples for a digit of
    each of two numbers. -/
theorem foldr_zip_smul {es : List Int} (h : ds.length = es.length) (P Q : G) :
    (ds.zip es).foldr (fun d h => b • h + d.1 • P + d.2 • Q) 0 = value b ds • P + value b es • Q := by
  induction ds generalizing es with
  | nil =>
    obtain rfl := length_eq_zero_iff.mp h.symm
    simp
  | cons d ds ih =>
    cases es with
    | nil => nomatch h
    | cons e es =>
      rw [zip_cons_cons, foldr_cons, ih (Nat.succ.inj h), value_cons, value_cons,
        add_smul, add_smul, mul_smul, mul_smul, smul_add]
      abel

end SignedDigits
