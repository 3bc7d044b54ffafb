/-
  Big-endian digit lists of a fixed digit width: the number a list of `w`-bit
  digits stands for, and the list of the low `n` digits of a number.  The two
  are inverse to each other on numbers of `w * n` bits, so regrouping a string
  of bits into digits of another width is one number written twice.
-/
import Mathlib

namespace Digits

open List Nat

/-- The number whose big-endian `w`-bit digits are given. -/
def ofDigits (w : Nat) (ds : List Nat) : Nat := ds.foldl (fun x d => x * 2 ^ w + d) 0

/-- The low `n` digits of `w` bits, the most significant first. -/
def digits (w : Nat) : Nat → Nat → List Nat
  | 0, _ => []
  | n + 1, x => (x >>> (w * n)) % 2 ^ w :: digits w n x

theorem forall_uint8 {p : UInt8 → Prop} (h : ∀ n < 256, p n.toUInt8) (b : UInt8) : p b := by
  have hb := h b.toNat b.toNat_lt
  rwa [show b.toNat.toUInt8 = b from UInt8.ofNat_toNat] at hb

@[simp] theorem ofDigits_nil (w : Nat) : ofDigits w [] = 0 := rfl

theorem ofDigits_concat (w : Nat) (ds : List Nat) (d : Nat) :
    ofDigits w (ds ++ [d]) = ofDigits w ds * 2 ^ w + d := by
  rw [ofDigits, foldl_append]
  rfl

@[simp] theorem digits_zero (w x : Nat) : digits w 0 x = [] := rfl

theorem digits_succ (w n x : Nat) :
    digits w (n + 1) x = (x >>> (w * n)) % 2 ^ w :: digits w n x := rfl

@[simp] theorem length_digits (w n x : Nat) : (digits w n x).length = n := by
  induction n with
  | zero => rfl
  | succ n ih => rw [digits_succ, length_cons, ih]

theorem digits_eq_map (w n x : Nat) :
    digits w n x = (List.range n).map fun i => (x >>> (w * (n - i - 1))) % 2 ^ w := by
  induction n with
  | zero => rfl
  | succ n ih =>
    rw [digits_succ, ih, range_succ_eq_map, map_cons, map_map]
    congr 1
    apply map_congr_left
    intro i _
    have hidx : n + 1 - (i + 1) - 1 = n - i - 1 := by omega
    rw [Function.comp_apply, succ_eq_add_one, hidx]

variable {w : Nat}

variable {n x : Nat}

theorem lt_of_mem_digits {d : Nat} (h : d ∈ digits w n x) : d < 2 ^ w := by
  induction n with
  | zero => cases h
  | succ n ih =>
    rcases List.mem_cons.mp h with rfl | hmem
    · exact Nat.mod_lt _ (Nat.two_pow_pos w)
    · exact ih hmem

theorem digits_concat (w n x : Nat) :
    digits w (n + 1) x = digits w n (x >>> w) ++ [x % 2 ^ w] := by
  induction n with
  | zero => simp [digits]
  | succ n ih =>
    have hshift : x >>> (w * (n + 1)) = (x >>> w) >>> (w * n) := by
      rw [← shiftRight_add, Nat.mul_succ, Nat.add_comm]
    rw [digits_succ, ih, digits_succ w n, cons_append, hshift]

theorem ofDigits_digits (w n x : Nat) : ofDigits w (digits w n x) = x % 2 ^ (w * n) := by
  induction n generalizing x with
  | zero => simp [Nat.mod_one]
  | succ n ih =>
    have hsplit : x % 2 ^ (w * (n + 1)) = x % 2 ^ w + 2 ^ w * (x / 2 ^ w % 2 ^ (w * n)) := by
      rw [Nat.mul_succ, Nat.add_comm, Nat.pow_add, mod_mul]
    rw [digits_concat, ofDigits_concat, ih, Nat.shiftRight_eq_div_pow, hsplit, Nat.mul_comm,
      Nat.add_comm]

theorem ofDigits_digits_of_lt (h : x < 2 ^ (w * n)) : ofDigits w (digits w n x) = x := by
  rw [ofDigits_digits, Nat.mod_eq_of_lt h]

variable {ds : List Nat}

theorem ofDigits_lt (h : ∀ d ∈ ds, d < 2 ^ w) : ofDigits w ds < 2 ^ (w * ds.length) := by
  induction ds using List.reverseRecOn with
  | nil => simp
  | append_singleton ds d ih =>
    have hd : d < 2 ^ w := h d (by simp)
    have hds := ih fun d' hd' => h d' (mem_append_left _ hd')
    have hle : (ofDigits w ds + 1) * 2 ^ w ≤ 2 ^ (w * ds.length) * 2 ^ w :=
      Nat.mul_le_mul_right _ hds
    rw [ofDigits_concat, List.length_append, List.length_singleton, Nat.mul_succ, Nat.pow_add]
    rw [Nat.add_mul, Nat.one_mul] at hle
    omega

theorem digits_ofDigits (h : ∀ d ∈ ds, d < 2 ^ w) : digits w ds.length (ofDigits w ds) = ds := by
  induction ds using List.reverseRecOn with
  | nil => rfl
  | append_singleton ds d ih =>
    have hd : d < 2 ^ w := h d (by simp)
    have hds := ih fun d' hd' => h d' (mem_append_left _ hd')
    have hmod : (ofDigits w ds * 2 ^ w + d) % 2 ^ w = d := by
      rw [Nat.mul_comm, mul_add_mod, Nat.mod_eq_of_lt hd]
    have hdiv : (ofDigits w ds * 2 ^ w + d) >>> w = ofDigits w ds := by
      rw [Nat.shiftRight_eq_div_pow, Nat.mul_comm, Nat.mul_add_div (Nat.two_pow_pos w),
        Nat.div_eq_of_lt hd, Nat.add_zero]
    rw [List.length_append, List.length_singleton, digits_concat, ofDigits_concat, hmod, hdiv, hds]

/-- A single digit behind zeros. -/
theorem ofDigits_last (w n d : Nat) : ofDigits w (List.replicate n 0 ++ [d]) = d := by
  have hzero : ofDigits w (List.replicate n 0) = 0 := by
    induction n with
    | zero => rfl
    | succ n ih => rw [replicate_succ', ofDigits_concat, ih, Nat.zero_mul]
  rw [ofDigits_concat, hzero, Nat.zero_mul, Nat.zero_add]

theorem ofDigits_append (w : Nat) (ds es : List Nat) :
    ofDigits w (ds ++ es) = ofDigits w ds * 2 ^ (w * es.length) + ofDigits w es := by
  induction es using List.reverseRecOn with
  | nil => simp
  | append_singleton es e ih =>
    rw [← append_assoc, ofDigits_concat, ofDigits_concat, ih, length_append, length_singleton,
      Nat.mul_succ, Nat.pow_add, Nat.add_mul, Nat.mul_assoc, Nat.add_assoc]

/-- The first digits are those of the number without its low bits. -/
theorem ofDigits_take (h : ∀ d ∈ ds, d < 2 ^ w) (j : Nat) :
    ofDigits w ds >>> (w * (ds.length - j)) = ofDigits w (ds.take j) := by
  have hlow : ofDigits w (ds.drop j) < 2 ^ (w * (ds.length - j)) := by
    have hdigits : ∀ d ∈ ds.drop j, d < 2 ^ w := fun d hd => h d (mem_of_mem_drop hd)
    have hlt := ofDigits_lt hdigits
    rwa [length_drop] at hlt
  have happend := ofDigits_append w (ds.take j) (ds.drop j)
  rw [take_append_drop, length_drop] at happend
  rw [happend, Nat.shiftRight_eq_div_pow, Nat.mul_comm, Nat.mul_add_div (Nat.two_pow_pos _),
    Nat.div_eq_of_lt hlow, Nat.add_zero]

/-- The digits above the number's bits are zero. -/
theorem digits_add_of_lt (m : Nat) (h : x < 2 ^ (w * n)) :
    digits w (m + n) x = List.replicate m 0 ++ digits w n x := by
  induction m with
  | zero => rw [Nat.zero_add]; rfl
  | succ m ih =>
    have hle : 2 ^ (w * n) ≤ 2 ^ (w * (m + n)) :=
      Nat.pow_le_pow_right (by decide) (Nat.mul_le_mul_left w (Nat.le_add_left n m))
    have hzero : x >>> (w * (m + n)) = 0 := by
      rw [Nat.shiftRight_eq_div_pow, Nat.div_eq_of_lt (Nat.lt_of_lt_of_le h hle)]
    rw [Nat.add_right_comm, digits_succ, ih, hzero, Nat.zero_mod, replicate_succ,
      cons_append]

/-- Exclusive or with what lies below is addition. -/
theorem mul_xor_of_lt {b i : Nat} (hb : b < 2 ^ i) (a : Nat) :
    (a * 2 ^ i) ^^^ b = a * 2 ^ i + b := by
  rw [Nat.mul_comm, two_pow_add_eq_or_of_lt hb]
  apply eq_of_testBit_eq
  intro j
  rw [testBit_xor, testBit_or, testBit_two_pow_mul]
  by_cases hj : i ≤ j
  · rw [Nat.testBit_lt_two_pow (lt_of_lt_of_le hb (Nat.pow_le_pow_right (by decide) hj)),
      Bool.xor_false, Bool.or_false]
  · rw [decide_eq_false hj, Bool.false_and, Bool.false_xor, Bool.false_or]

theorem digits_xor (w n x y : Nat) :
    digits w n (x ^^^ y) = (digits w n x).zipWith (· ^^^ ·) (digits w n y) := by
  induction n with
  | zero => rfl
  | succ n ih =>
    rw [digits_succ, digits_succ, digits_succ, zipWith_cons_cons, ih,
      shiftRight_xor_distrib, xor_mod_two_pow]

end Digits
