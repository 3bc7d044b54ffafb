/-
  `base_uint<BITS>`: `WIDTH` words of 32 bits and the loops over them that add,
  negate, multiply by a word, compare and count bits, with what each computes of the
  number the words stand for.

  Source: src/arith_uint256.{h,cpp}.
-/
import Rcoin.Lib.Limbs

namespace Rcoin

open Limbs BitVec List Nat

/-- `WIDTH` words of 32 bits, the lowest first. -/
structure BaseUint (WIDTH : Nat) where
  pn : List (BitVec 32)
  width : pn.length = WIDTH
  deriving DecidableEq

/-- `arith_uint256`, a `base_uint<256>`. -/
abbrev ArithUint256 := BaseUint 8

namespace BaseUint

variable {WIDTH : Nat}

/-- The number the words stand for. -/
def value (a : BaseUint WIDTH) : Nat := Limbs.value a.pn

/-- `pn[i]`. -/
def word (a : BaseUint WIDTH) (i : Nat) : BitVec 32 := a.pn.getD i 0#32

theorem value_lt (a : BaseUint WIDTH) : a.value < 2 ^ (32 * WIDTH) := by
  have h := Limbs.value_lt a.pn
  rw [a.width] at h
  exact h

variable {a b : BaseUint WIDTH}

theorem ext_value (h : a.value = b.value) : a = b := by
  cases a with | mk pn hw =>
  cases b with | mk pn' hw' =>
  obtain rfl : pn = pn' := value_inj (hw.trans hw'.symm) h
  rfl

/-! ## Construction -/

def zero : BaseUint WIDTH := ⟨replicate WIDTH 0#32, length_replicate⟩

@[simp] theorem value_zero : (zero : BaseUint WIDTH).value = 0 := value_replicate_zero _

def ofUInt64 (b : BitVec 64) : ArithUint256 :=
  ⟨b.setWidth 32 :: (b >>> 32).setWidth 32 :: replicate 6 0#32, rfl⟩

@[simp] theorem value_ofUInt64 (b : BitVec 64) : (ofUInt64 b).value = b.toNat := by
  rw [value, ofUInt64, Limbs.value_cons, Limbs.value_cons, value_replicate_zero,
    toNat_setWidth, toNat_setWidth, toNat_ushiftRight,
    shiftRight_eq_div_pow]
  omega

/-- `UintToArith256`: the words of a 256-bit number. -/
def ofUint256 (a : Nat) : ArithUint256 :=
  ⟨(range 8).map fun x => BitVec.ofNat 32 (a >>> (32 * x)), by simp⟩

theorem value_map_range (a n : Nat) :
    Limbs.value ((range n).map fun x => BitVec.ofNat 32 (a >>> (32 * x))) =
      a % 2 ^ (32 * n) := by
  induction n generalizing a with
  | zero => simp [mod_one]
  | succ n ih =>
    have hshift : ((fun x => BitVec.ofNat 32 (a >>> (32 * x))) ∘ succ) =
        fun x => BitVec.ofNat 32 ((a >>> 32) >>> (32 * x)) := by
      funext x
      rw [Function.comp_apply, ← Nat.shiftRight_add, Nat.mul_succ, Nat.add_comm]
    rw [range_succ_eq_map, map_cons, map_map, hshift, Limbs.value_cons, ih,
      Nat.mul_succ, Nat.pow_add, Nat.mul_comm (2 ^ (32 * n)), mod_mul, toNat_ofNat,
      shiftRight_eq_div_pow a 32]
    rfl

@[simp] theorem value_ofUint256 {a : Nat} (h : a < 2 ^ 256) : (ofUint256 a).value = a := by
  rw [value, ofUint256, value_map_range, show 32 * 8 = 256 from rfl, mod_eq_of_lt h]

def getLow64 (a : BaseUint WIDTH) : BitVec 64 :=
  (a.word 0).setWidth 64 ||| (a.word 1).setWidth 64 <<< 32

/-! ## Adding and negating -/

def addLoop : BitVec 64 → List (BitVec 32) → List (BitVec 32) → List (BitVec 32)
  | carry, d :: ds, e :: es =>
    let n := carry + d.setWidth 64 + e.setWidth 64
    n.setWidth 32 :: addLoop (n >>> 32) ds es
  | _, _, _ => []

theorem length_addLoop (carry : BitVec 64) {ds es : List (BitVec 32)}
    (h : ds.length = es.length) : (addLoop carry ds es).length = ds.length := by
  induction ds generalizing carry es with
  | nil => rfl
  | cons d ds ih =>
    cases es with
    | nil => nomatch h
    | cons e es => rw [addLoop, length_cons, ih _ (succ.inj h), length_cons]

theorem value_addLoop (carry : BitVec 64) (hcarry : carry.toNat ≤ 1) {ds es : List (BitVec 32)}
    (h : ds.length = es.length) :
    Limbs.value (addLoop carry ds es) =
      (carry.toNat + Limbs.value ds + Limbs.value es) % 2 ^ (32 * ds.length) := by
  induction ds generalizing carry es with
  | nil => simp [addLoop, mod_one]
  | cons d ds ih =>
    cases es with
    | nil => nomatch h
    | cons e es =>
      have hn : (carry + d.setWidth 64 + e.setWidth 64).toNat =
          carry.toNat + d.toNat + e.toNat := by
        simp only [toNat_add, toNat_setWidth]
        omega
      have hshift : ((carry + d.setWidth 64 + e.setWidth 64) >>> 32).toNat =
          (carry.toNat + d.toNat + e.toNat) / 2 ^ 32 := by
        rw [toNat_ushiftRight, hn, shiftRight_eq_div_pow]
      rw [addLoop, Limbs.value_cons, toNat_setWidth, hn,
        ih _ (by rw [hshift]; omega) (Nat.succ.inj h), hshift, List.length_cons, Nat.mul_succ,
        pow_add, mul_comm (2 ^ (32 * ds.length)), add_assoc (_ / _),
        low_add_carry, Limbs.value_cons, Limbs.value_cons]
      ring_nf

/-- `operator+=`. -/
def add (a b : BaseUint WIDTH) : BaseUint WIDTH :=
  ⟨addLoop 0 a.pn b.pn, (length_addLoop 0 (a.width.trans b.width.symm)).trans a.width⟩

@[simp] theorem value_add (a b : BaseUint WIDTH) :
    (a.add b).value = (a.value + b.value) % 2 ^ (32 * WIDTH) := by
  have h := value_addLoop 0 (zero_le _) (a.width.trans b.width.symm)
  rw [a.width, show (0 : BitVec 64).toNat = 0 from rfl, zero_add] at h
  exact h

/-- `operator++`: while the word incremented is zero, the next one. -/
def incLoop : List (BitVec 32) → List (BitVec 32)
  | [] => []
  | d :: ds => if d + 1 = 0 then (d + 1) :: incLoop ds else (d + 1) :: ds

theorem length_incLoop (ds : List (BitVec 32)) : (incLoop ds).length = ds.length := by
  induction ds with
  | nil => rfl
  | cons d ds ih =>
    rw [incLoop]
    split
    · rw [length_cons, ih, length_cons]
    · rfl

theorem value_incLoop (ds : List (BitVec 32)) :
    Limbs.value (incLoop ds) = (Limbs.value ds + 1) % 2 ^ (32 * ds.length) := by
  induction ds with
  | nil => simp [incLoop]
  | cons d ds ih =>
    have hinc : (d + 1).toNat = (d.toNat + 1) % 2 ^ 32 := toNat_add d 1
    rw [incLoop]
    split
    next h0 =>
      rw [h0] at hinc
      have hlast : d.toNat + 1 = 2 ^ 32 := by
        have hz : (0 : BitVec 32).toNat = 0 := rfl
        omega
      have hadd := low_add_carry (2 ^ 32) (2 ^ (32 * ds.length)) (d.toNat + 1)
        (Limbs.value ds)
      rw [hlast, Nat.mod_self, Nat.div_self (Nat.two_pow_pos 32), Nat.add_comm 1] at hadd
      rw [Limbs.value_cons, h0, ih, Limbs.value_cons, List.length_cons, Nat.mul_succ, Nat.pow_add,
        mul_comm (2 ^ (32 * ds.length)), add_right_comm, hlast]
      exact hadd
    next h0 =>
      have hne : d.toNat + 1 ≠ 2 ^ 32 := by
        intro heq
        rw [heq, mod_self] at hinc
        exact h0 (eq_of_toNat_eq hinc)
      have hlt' : d.toNat + 1 < 2 ^ 32 := by omega
      rw [Limbs.value_cons, hinc, mod_eq_of_lt hlt', Limbs.value_cons, add_right_comm]
      -- the number does not reach the top
      have hrest := Limbs.value_lt ds
      have htop : d.toNat + 1 + 2 ^ 32 * Limbs.value ds < 2 ^ (32 * (d :: ds).length) := by
        rw [List.length_cons, Nat.mul_succ, Nat.pow_add]
        omega
      rw [add_right_comm] at htop
      rw [mod_eq_of_lt htop]

/-- Unary minus: the complement of every word, incremented. -/
def neg (b : BaseUint WIDTH) : BaseUint WIDTH :=
  ⟨incLoop (b.pn.map (~~~ ·)), (length_incLoop _).trans ((length_map _).trans b.width)⟩

theorem value_neg (b : BaseUint WIDTH) :
    b.neg.value = (2 ^ (32 * WIDTH) - b.value) % 2 ^ (32 * WIDTH) := by
  have hnot := value_map_not b.pn
  have hlt := b.value_lt
  rw [b.width] at hnot
  change Limbs.value (incLoop _) = _
  rw [value_incLoop, length_map, b.width]
  congr 1
  rw [value] at hlt ⊢
  omega

/-- `operator-=`. -/
def sub (a b : BaseUint WIDTH) : BaseUint WIDTH := a.add b.neg

theorem value_sub (h : b.value ≤ a.value) : (a.sub b).value = a.value - b.value := by
  have ha := a.value_lt
  have hsum : a.value + (2 ^ (32 * WIDTH) - b.value) = a.value - b.value + 2 ^ (32 * WIDTH) := by
    omega
  rw [sub, value_add, value_neg, add_mod_mod, hsum, add_mod_right]
  exact mod_eq_of_lt (by omega)

/-! ## Multiplying by a word -/

def mulLoop (b32 : BitVec 32) : BitVec 64 → List (BitVec 32) → List (BitVec 32)
  | _, [] => []
  | carry, d :: ds =>
    let n := carry + b32.setWidth 64 * d.setWidth 64
    n.setWidth 32 :: mulLoop b32 (n >>> 32) ds

theorem length_mulLoop (b32 : BitVec 32) (carry : BitVec 64) (ds : List (BitVec 32)) :
    (mulLoop b32 carry ds).length = ds.length := by
  induction ds generalizing carry with
  | nil => rfl
  | cons d ds ih => rw [mulLoop, length_cons, ih, length_cons]

theorem value_mulLoop (b32 : BitVec 32) (carry : BitVec 64) (hcarry : carry.toNat < 2 ^ 32)
    (ds : List (BitVec 32)) :
    Limbs.value (mulLoop b32 carry ds) =
      (carry.toNat + b32.toNat * Limbs.value ds) % 2 ^ (32 * ds.length) := by
  induction ds generalizing carry with
  | nil => simp [mulLoop, mod_one]
  | cons d ds ih =>
    have hmul : b32.toNat * d.toNat ≤ (2 ^ 32 - 1) * (2 ^ 32 - 1) :=
      Nat.mul_le_mul (by omega) (by omega)
    have hn : (carry + b32.setWidth 64 * d.setWidth 64).toNat =
        carry.toNat + b32.toNat * d.toNat := by
      rw [toNat_add, toNat_mul, toNat_setWidth, toNat_setWidth,
        mod_eq_of_lt (by omega : b32.toNat < 2 ^ 64),
        mod_eq_of_lt (by omega : d.toNat < 2 ^ 64)]
      omega
    have hshift : ((carry + b32.setWidth 64 * d.setWidth 64) >>> 32).toNat =
        (carry.toNat + b32.toNat * d.toNat) / 2 ^ 32 := by
      rw [toNat_ushiftRight, hn, shiftRight_eq_div_pow]
    rw [mulLoop, Limbs.value_cons, toNat_setWidth, hn, ih _ (by rw [hshift]; omega), hshift,
      List.length_cons, Nat.mul_succ, Nat.pow_add, Nat.mul_comm (2 ^ (32 * ds.length)),
      low_add_carry, Limbs.value_cons]
    ring_nf

/-- `operator*=(uint32_t)`. -/
def mulWord (a : BaseUint WIDTH) (b32 : BitVec 32) : BaseUint WIDTH :=
  ⟨mulLoop b32 0 a.pn, (length_mulLoop b32 0 a.pn).trans a.width⟩

@[simp] theorem value_mulWord (a : BaseUint WIDTH) (b32 : BitVec 32) :
    (a.mulWord b32).value = b32.toNat * a.value % 2 ^ (32 * WIDTH) := by
  have h := value_mulLoop b32 0 (Nat.two_pow_pos 32) a.pn
  rw [a.width, show (0 : BitVec 64).toNat = 0 from rfl, zero_add] at h
  exact h

/-! ## Comparing -/

/-- The loop of `CompareTo` from word `i - 1` down. -/
def compareLoop (a b : BaseUint WIDTH) : Nat → Int
  | 0 => 0
  | i + 1 =>
    if a.word i < b.word i then -1
    else if a.word i > b.word i then 1
    else compareLoop a b i

def compareTo (a b : BaseUint WIDTH) : Int := compareLoop a b WIDTH

theorem compareLoop_spec (a b : BaseUint WIDTH) (i : Nat) :
    (compareLoop a b i < 0 ↔ Limbs.value (a.pn.take i) < Limbs.value (b.pn.take i)) ∧
      (0 < compareLoop a b i ↔ Limbs.value (b.pn.take i) < Limbs.value (a.pn.take i)) := by
  induction i with
  | zero => simp [compareLoop]
  | succ i ih =>
    rw [compareLoop, value_take_succ, value_take_succ]
    have ha := value_take_lt a.pn i
    have hb := value_take_lt b.pn i
    generalize hx : Limbs.value (a.pn.take i) = x at ih ha ⊢
    generalize hy : Limbs.value (b.pn.take i) = y at ih hb ⊢
    change (_ ↔ x + _ * (a.word i).toNat < y + _ * (b.word i).toNat) ∧
      (_ ↔ y + _ * (b.word i).toNat < x + _ * (a.word i).toNat)
    generalize 2 ^ (32 * i) = B at ha hb ⊢
    -- a higher word outweighs all words below it
    have hstep : ∀ {p q : Nat}, p < q → B * p + B ≤ B * q := by
      intro p q hpq
      exact mul_le_mul_left _ hpq
    split
    next hlt =>
      have hle := hstep (lt_def.mp hlt)
      omega
    next hnot =>
      split
      next hgt =>
        have hle := hstep (lt_def.mp hgt)
        omega
      next hnot' =>
        have heq : (a.word i).toNat = (b.word i).toNat := by
          rw [lt_def] at hnot
          rw [gt_iff_lt, lt_def] at hnot'
          omega
        rw [heq]
        omega

theorem compareTo_neg : a.compareTo b < 0 ↔ a.value < b.value := by
  have h := (compareLoop_spec a b WIDTH).1
  rwa [take_of_length_le a.width.le, take_of_length_le b.width.le] at h

theorem compareTo_pos : 0 < a.compareTo b ↔ b.value < a.value := by
  have h := (compareLoop_spec a b WIDTH).2
  rwa [take_of_length_le a.width.le, take_of_length_le b.width.le] at h

/-! ## Counting bits -/

/-- The highest bit set of a word that is not zero: bit `nbits`, or one below. -/
def topBit (d : BitVec 32) : Nat → Nat
  | 0 => 0
  | nbits + 1 => if d &&& (1#32 <<< (nbits + 1)) ≠ 0 then nbits + 1 else topBit d nbits

/-- The loop of `bits` from word `pos - 1` down. -/
def bitsLoop (a : BaseUint WIDTH) : Nat → Nat
  | 0 => 0
  | pos + 1 => if a.word pos ≠ 0 then 32 * pos + topBit (a.word pos) 31 + 1 else bitsLoop a pos

def bits (a : BaseUint WIDTH) : Nat := bitsLoop a WIDTH

variable {n : Nat}

theorem and_bit_ne_zero (d : BitVec 32) (hn : n < 32) :
    d &&& (1#32 <<< n) ≠ 0 ↔ d.toNat / 2 ^ n % 2 = 1 := by
  have hbit : (d &&& (1#32 <<< n)).toNat = (d.toNat.testBit n).toNat * 2 ^ n := by
    rw [toNat_and, toNat_shiftLeft, toNat_ofNat, Nat.shiftLeft_eq,
      mod_eq_of_lt (by decide : 1 < 2 ^ 32), one_mul,
      Nat.mod_eq_of_lt (Nat.pow_lt_pow_right (by decide) hn), Nat.and_two_pow]
  rw [← decide_eq_true_iff (p := d.toNat / 2 ^ n % 2 = 1), ← testBit_eq_decide_div_mod_eq]
  constructor
  · intro h
    by_contra hf
    rw [Bool.eq_false_iff.mpr hf, Bool.toNat_false, Nat.zero_mul] at hbit
    exact h (eq_of_toNat_eq hbit)
  · intro ht h
    rw [ht, h, Bool.toNat_true, one_mul] at hbit
    exact absurd hbit.symm (Nat.two_pow_pos n).ne'

theorem topBit_spec {d : BitVec 32} (hd : d ≠ 0) (hn : n < 32) (hlt : d.toNat < 2 ^ (n + 1)) :
    2 ^ topBit d n ≤ d.toNat ∧ d.toNat < 2 ^ (topBit d n + 1) := by
  induction n with
  | zero =>
    have hpos : d.toNat ≠ 0 := fun h => hd (eq_of_toNat_eq h)
    exact ⟨one_le_iff_ne_zero.mpr hpos, hlt⟩
  | succ n ih =>
    rw [topBit]
    split
    next hbit =>
      have hdiv := (and_bit_ne_zero d hn).mp hbit
      refine ⟨?_, hlt⟩
      by_contra hsmall
      rw [div_eq_of_lt (not_le.mp hsmall)] at hdiv
      nomatch hdiv
    next hbit =>
      refine ih (by omega) ?_
      by_contra hlarge
      have hdiv : d.toNat / 2 ^ (n + 1) = 1 := by
        exact Nat.div_eq_of_lt_le (by omega) (by omega)
      exact hbit ((and_bit_ne_zero d hn).mpr (by rw [hdiv]))

theorem size_eq_succ {k : Nat} (hle : 2 ^ k ≤ n) (hlt : n < 2 ^ (k + 1)) : n.size = k + 1 :=
  le_antisymm (size_le.mpr hlt) (lt_size.mpr hle)

theorem bitsLoop_eq (a : BaseUint WIDTH) (pos : Nat) :
    bitsLoop a pos = (Limbs.value (a.pn.take pos)).size := by
  induction pos with
  | zero => simp [bitsLoop]
  | succ pos ih =>
    rw [bitsLoop, value_take_succ]
    change _ = (_ + _ * (a.word pos).toNat).size
    split
    next hd =>
      obtain ⟨hle, hlt⟩ := topBit_spec hd (by decide : 31 < 32) (a.word pos).isLt
      have hlow := value_take_lt a.pn pos
      refine (size_eq_succ ?_ ?_).symm
      · rw [pow_add]
        exact le_trans (mul_le_mul_left _ hle) (le_add_left _ _)
      · have htop := mul_le_mul_left (2 ^ (32 * pos)) hlt
        rw [Nat.mul_succ] at htop
        rw [add_assoc, pow_add]
        omega
    next hd =>
      rw [ih, not_not.mp hd, show (0 : BitVec 32).toNat = 0 from rfl, Nat.mul_zero, Nat.add_zero]

theorem bits_eq (a : BaseUint WIDTH) : a.bits = a.value.size := by
  rw [bits, bitsLoop_eq, take_of_length_le a.width.le, value]

end BaseUint

end Rcoin
