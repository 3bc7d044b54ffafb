/-
  Strings of decimal digits and the numbers that they stand for.
-/
import Mathlib

namespace Decimal

open List

def isdigit (c : UInt8) : Bool := decide (48 ≤ c ∧ c ≤ 57)

/-- `c - '0'`. -/
def digit (c : UInt8) : Nat := c.toNat - 48

def value (ds : List UInt8) : Nat := ds.foldl (fun x c => x * 10 + digit c) 0

def Digits (ds : List UInt8) : Prop := ∀ c ∈ ds, isdigit c = true

theorem digit_le {c : UInt8} (h : isdigit c = true) : digit c ≤ 9 := by
  have hle := UInt8.le_iff_toNat_le.mp (of_decide_eq_true h).2
  exact Nat.sub_le_sub_right hle 48

theorem foldl_value (ds : List UInt8) (x : Nat) :
    ds.foldl (fun x c => x * 10 + digit c) x = x * 10 ^ ds.length + value ds := by
  induction ds generalizing x with
  | nil => simp [value]
  | cons c ds ih =>
    rw [value, foldl_cons, foldl_cons, ih, ih (0 * 10 + digit c), length_cons]
    ring

@[simp] theorem value_nil : value [] = 0 := rfl

theorem value_append (a b : List UInt8) : value (a ++ b) = value a * 10 ^ b.length + value b := by
  rw [value, foldl_append, foldl_value]
  rfl

theorem value_cons (c : UInt8) (ds : List UInt8) :
    value (c :: ds) = digit c * 10 ^ ds.length + value ds := by
  rw [← singleton_append, value_append]
  simp [value]

theorem value_zeros (n : Nat) : value (List.replicate n 48) = 0 := by
  induction n with
  | zero => rfl
  | succ n ih => rw [replicate_succ, value_cons, ih, show digit 48 = 0 from rfl, Nat.zero_mul]

theorem value_lt {ds : List UInt8} (h : Digits ds) : value ds < 10 ^ ds.length := by
  induction ds with
  | nil => exact Nat.one_pos
  | cons c ds ih =>
    obtain ⟨hc, hds⟩ := forall_mem_cons.mp h
    have hle := Nat.mul_le_mul_right (10 ^ ds.length) (digit_le hc)
    have hlt := ih hds
    rw [value_cons, length_cons, Nat.pow_succ]
    omega

/-- `%d` of a number that is not negative. -/
def toDigits (n : Nat) : List UInt8 :=
  if n < 10 then [48 + UInt8.ofNat n] else toDigits (n / 10) ++ [48 + UInt8.ofNat (n % 10)]

theorem digit_ofNat : ∀ d < 10, isdigit (48 + UInt8.ofNat d) = true ∧
    digit (48 + UInt8.ofNat d) = d := by
  decide

theorem digits_toDigits (n : Nat) : Digits (toDigits n) := by
  induction n using toDigits.induct with
  | case1 n hlt =>
    rw [toDigits, if_pos hlt]
    exact forall_mem_singleton.mpr (digit_ofNat n hlt).1
  | case2 n hlt ih =>
    rw [toDigits, if_neg hlt]
    exact forall_mem_append.mpr
      ⟨ih, forall_mem_singleton.mpr (digit_ofNat _ (Nat.mod_lt _ (by decide))).1⟩

theorem value_toDigits (n : Nat) : value (toDigits n) = n := by
  induction n using toDigits.induct with
  | case1 n hlt =>
    rw [toDigits, if_pos hlt, value_cons, (digit_ofNat n hlt).2]
    exact Nat.mul_one n
  | case2 n hlt ih =>
    rw [toDigits, if_neg hlt, value_append, ih, value_cons,
      (digit_ofNat _ (Nat.mod_lt _ (by decide))).2]
    simp only [length_cons, length_nil, value_nil]
    omega

theorem length_toDigits_le {n k : Nat} (h : n < 10 ^ (k + 1)) : (toDigits n).length ≤ k + 1 := by
  induction k generalizing n with
  | zero =>
    rw [toDigits, if_pos (by simpa using h)]
    exact Nat.le_refl 1
  | succ k ih =>
    rw [toDigits]
    split
    · exact Nat.succ_le_succ (Nat.zero_le _)
    · rw [length_append]
      exact Nat.succ_le_succ (ih (by omega))

end Decimal
