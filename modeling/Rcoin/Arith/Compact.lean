/-
  The compact form of `arith_uint256`: a mantissa of 23 bits and an exponent to
  base 256.  Two numbers of one compact form are less than a factor of two apart.

  Source: src/arith_uint256.cpp.
-/
import Rcoin.Arith.Division
import Rcoin.Chain.ChainState

namespace Rcoin

open Limbs BitVec Nat

namespace BaseUint

/-! ## From the compact form -/

/-- `SetCompact`: the number, whether it is negative, and whether it overflows. -/
def setCompact (nCompact : BitVec 32) : ArithUint256 × Bool × Bool :=
  let nSize := (nCompact >>> 24).toNat
  let nWord := nCompact &&& 0x007fffff#32
  let shifted := if nSize ≤ 3 then nWord >>> (8 * (3 - nSize)) else nWord
  let value := if nSize ≤ 3 then ofUInt64 (shifted.setWidth 64)
    else (ofUInt64 (nWord.setWidth 64)).shiftLeft (8 * (nSize - 3))
  (value, decide (shifted ≠ 0) && decide (nCompact &&& 0x00800000#32 ≠ 0),
    decide (shifted ≠ 0) && (decide (nSize > 34) ||
      (decide (shifted > 0xff) && decide (nSize > 33)) ||
      (decide (shifted > 0xffff) && decide (nSize > 32))))

theorem toNat_shifted (x : BitVec 32) (c : Prop) [Decidable c] (k : Nat) :
    (if c then x >>> k else x).toNat = if c then x.toNat >>> k else x.toNat := by
  split
  · exact toNat_ushiftRight ..
  · rfl

theorem setCompact_eq (nCompact : BitVec 32) :
    ((setCompact nCompact).1.value, (setCompact nCompact).2) =
      Rcoin.setCompact nCompact.toNat := by
  have hzero : ∀ {x : BitVec 32}, x ≠ 0 ↔ x.toNat ≠ 0 := fun {x} =>
    not_congr ⟨fun h => h ▸ rfl, fun h => eq_of_toNat_eq h⟩
  have hword : (nCompact &&& 0x007fffff#32).toNat = nCompact.toNat &&& 0x007fffff :=
    toNat_and ..
  have hsize : (nCompact >>> 24).toNat = nCompact.toNat >>> 24 := toNat_ushiftRight ..
  have hsign : (nCompact &&& 0x00800000#32).toNat = nCompact.toNat &&& 0x00800000 :=
    toNat_and ..
  have hwide : ∀ x : BitVec 32, (ofUInt64 (x.setWidth 64)).value = x.toNat := by
    intro x
    rw [value_ofUInt64, toNat_setWidth]
    omega
  rw [setCompact, Rcoin.setCompact]
  simp only [hzero, gt_iff_lt, lt_def, toNat_shifted, hword, hsize, hsign]
  congr 1
  split
  next h => rw [hwide, toNat_ushiftRight, hword]
  next h => rw [value_shiftLeft, hwide, hword, Nat.shiftLeft_eq]

/-! ## To the compact form -/

/-- `GetCompact`; `none` when an assertion fails. -/
def getCompact (a : ArithUint256) (fNegative : Bool) : Option (BitVec 32) :=
  let nSize := (a.bits + 7) / 8
  let nCompact : BitVec 32 :=
    if nSize ≤ 3 then (a.getLow64 <<< (8 * (3 - nSize))).setWidth 32
    else (a.shiftRight (8 * (nSize - 3))).getLow64.setWidth 32
  -- The 0x00800000 bit denotes the sign.
  let sign := nCompact &&& 0x00800000#32 ≠ 0
  let nSize := if sign then nSize + 1 else nSize
  let nCompact := if sign then nCompact >>> 8 else nCompact
  if nCompact &&& ~~~0x007fffff#32 = 0 ∧ nSize < 256 then
    let nCompact := nCompact ||| BitVec.ofNat 32 nSize <<< 24
    some (nCompact ||| if fNegative ∧ nCompact &&& 0x007fffff#32 ≠ 0 then 0x00800000#32 else 0#32)
  else none

variable (a : ArithUint256)

theorem toNat_word (i : Nat) :
    (a.word i).toNat = a.value / 2 ^ (32 * i) % 2 ^ 32 := Limbs.toNat_getD a.pn i

theorem toNat_getLow64 : a.getLow64.toNat = a.value % 2 ^ 64 := by
  have h0 := (a.word 0).isLt
  have hlow : ((a.word 0).setWidth 64).toNat = (a.word 0).toNat := by
    rw [BitVec.toNat_setWidth]
    omega
  have hhigh : ((a.word 1).setWidth 64 <<< 32).toNat = 2 ^ 32 * (a.word 1).toNat := by
    rw [BitVec.toNat_shiftLeft, BitVec.toNat_setWidth, Nat.shiftLeft_eq]
    omega
  rw [getLow64, Limbs.toNat_or_of_disjoint (hlow.symm ▸ h0) (hhigh.symm ▸ Nat.dvd_mul_right _ _),
    hlow, hhigh, toNat_word, toNat_word, Nat.mul_zero, Nat.pow_zero, Nat.div_one, Nat.mul_one,
    show 2 ^ 64 = 2 ^ 32 * 2 ^ 32 by rw [← Nat.pow_add], Nat.mod_mul]

/-- The leading three bytes of a number, the first of which is not zero. -/
def mantissa (v size : Nat) : Nat :=
  if size ≤ 3 then v * 2 ^ (8 * (3 - size)) else v / 2 ^ (8 * (size - 3))

variable {size v : Nat}

theorem mantissa_bounds (hlt : v < 2 ^ (8 * size)) :
    mantissa v size < 2 ^ 24 ∧ mantissa v size * 2 ^ (8 * size) ≤ v * 2 ^ 24 ∧
      v * 2 ^ 24 < (mantissa v size + 1) * 2 ^ (8 * size) := by
  rw [mantissa]
  split
  next hsize =>
    have hpow : 2 ^ 24 = 2 ^ (8 * (3 - size)) * 2 ^ (8 * size) := by
      rw [← pow_add]
      congr 1
      omega
    refine ⟨?_, ?_, ?_⟩
    · rw [hpow, mul_comm]
      exact Nat.mul_lt_mul_of_pos_left hlt (Nat.two_pow_pos _)
    · rw [mul_assoc, ← hpow]
    · rw [Nat.succ_mul, Nat.mul_assoc, ← hpow]
      exact Nat.lt_add_of_pos_right (Nat.two_pow_pos _)
  next hsize =>
    have hpow : 2 ^ (8 * size) = 2 ^ (8 * (size - 3)) * 2 ^ 24 := by
      rw [← pow_add]
      congr 1
      omega
    have hpos : 0 < 2 ^ (8 * (size - 3)) := Nat.two_pow_pos _
    refine ⟨?_, ?_, ?_⟩
    · rw [div_lt_iff_lt_mul hpos, mul_comm, ← hpow]
      exact hlt
    · rw [hpow, ← mul_assoc]
      exact mul_le_mul_right _ (div_mul_le_self _ _)
    · rw [hpow, ← mul_assoc]
      exact mul_lt_mul_of_pos_right ((div_lt_iff_lt_mul hpos).mp (lt_succ_self _))
        (Nat.two_pow_pos _)

theorem le_mantissa (hle : 2 ^ (8 * (size - 1)) ≤ v) : 2 ^ 16 ≤ mantissa v size := by
  rw [mantissa]
  split
  next hsize =>
    calc 2 ^ 16 ≤ 2 ^ (8 * (size - 1)) * 2 ^ (8 * (3 - size)) := by
          rw [← pow_add]
          exact Nat.pow_le_pow_right (by decide) (by omega)
      _ ≤ v * 2 ^ (8 * (3 - size)) := mul_le_mul_right _ hle
  next hsize =>
    rw [Nat.le_div_iff_mul_le (Nat.two_pow_pos _), ← Nat.pow_add]
    exact le_trans (Nat.pow_le_pow_right (by decide) (by omega)) hle

theorem toNat_mantissa (hlt : a.value < 2 ^ (8 * size)) :
    (if size ≤ 3 then (a.getLow64 <<< (8 * (3 - size))).setWidth 32
      else (a.shiftRight (8 * (size - 3))).getLow64.setWidth 32 : BitVec 32).toNat =
      mantissa a.value size := by
  have hm := (mantissa_bounds hlt).1
  rw [mantissa] at hm ⊢
  split
  next hsize =>
    rw [if_pos hsize] at hm
    have ha : a.value < 2 ^ 64 :=
      Nat.lt_of_lt_of_le hlt (Nat.pow_le_pow_right (by decide) (by omega))
    rw [BitVec.toNat_setWidth, BitVec.toNat_shiftLeft, toNat_getLow64, Nat.shiftLeft_eq,
      mod_eq_of_lt ha]
    omega
  next hsize =>
    rw [if_neg hsize] at hm
    rw [toNat_setWidth, toNat_getLow64, value_shiftRight]
    generalize a.value / 2 ^ (8 * (size - 3)) = m at hm ⊢
    omega

theorem and_not_mask {x : BitVec 32} (hx : x.toNat < 2 ^ 23) : x &&& ~~~0x007fffff#32 = 0 := by
  refine eq_of_getLsbD_eq fun i hi => ?_
  rw [getLsbD_and, getLsbD_not, ← testBit_toNat, ← testBit_toNat]
  by_cases h23 : i < 23
  · have hmask : (0x007fffff#32).toNat = 2 ^ 23 - 1 := rfl
    rw [hmask, testBit_two_pow_sub_one, decide_eq_true h23, Bool.not_true, Bool.and_false,
      Bool.and_false]
    exact (getLsbD_zero).symm
  · have hle : 2 ^ 23 ≤ 2 ^ i := Nat.pow_le_pow_right (by decide) (by omega)
    rw [testBit_lt_two_pow (by omega), Bool.false_and]
    exact (getLsbD_zero).symm

/-- `m` and `e` are the mantissa and the exponent of `v`, which is at least `m` and less than
    `m + 1` times `256 ^ (e - 3)`.  Only zero has a mantissa below `2 ^ 15`. -/
structure CompactForm (v m e : Nat) : Prop where
  lt : m < 2 ^ 23
  le : m * 2 ^ (8 * e) ≤ v * 2 ^ 24
  gt : v * 2 ^ 24 < (m + 1) * 2 ^ (8 * e)
  lead : v ≠ 0 → 2 ^ 15 ≤ m
  zero : v = 0 → e = 0

theorem getCompact_spec :
    ∃ m e c, a.getCompact false = some c ∧ c.toNat = m + e * 2 ^ 24 ∧ e < 2 ^ 8 ∧
      CompactForm a.value m e := by
  have ha := a.value_lt
  set size := (a.bits + 7) / 8 with hsize
  have hbits : a.bits ≤ 256 := by
    rw [bits_eq]
    exact size_le.mpr ha
  have hlt : a.value < 2 ^ (8 * size) := by
    refine size_le.mp ?_
    rw [← bits_eq]
    omega
  obtain ⟨hm24, hlow, hhigh⟩ := mantissa_bounds hlt
  -- size counts whole bytes, so the top byte of the mantissa is not zero
  have hlead : a.value ≠ 0 → 2 ^ 16 ≤ mantissa a.value size := by
    intro h0
    refine le_mantissa (lt_size.mp ?_)
    have hpos : a.bits ≠ 0 := by
      rw [bits_eq]
      exact fun h => h0 (size_eq_zero.mp h)
    rw [← bits_eq]
    omega
  have hsize0 : a.value = 0 → size = 0 ∧ mantissa a.value size = 0 := by
    intro h0
    have hbits0 : a.bits = 0 := by rw [bits_eq, h0, size_zero]
    rw [hsize, hbits0, h0]
    exact ⟨rfl, rfl⟩
  have hnat := toNat_mantissa a hlt
  rw [getCompact]
  simp only [← hsize]
  generalize hx : (if size ≤ 3 then (a.getLow64 <<< (8 * (3 - size))).setWidth 32
      else (a.shiftRight (8 * (size - 3))).getLow64.setWidth 32 : BitVec 32) = x at hnat ⊢
  generalize mantissa a.value size = m at *
  -- bit 23 is the sign of the compact form
  have hsign : x &&& 0x00800000#32 ≠ 0 ↔ 2 ^ 23 ≤ m := by
    have h := and_bit_ne_zero x (by decide : 23 < 32)
    rw [show (1#32 <<< 23) = 0x00800000#32 from rfl, hnat] at h
    rw [h]
    omega
  have hform : ∀ (y : BitVec 32) (e : Nat), y.toNat < 2 ^ 23 → e < 2 ^ 8 →
      (y ||| BitVec.ofNat 32 e <<< 24).toNat = y.toNat + e * 2 ^ 24 := by
    intro y e hy he
    have hexp : (BitVec.ofNat 32 e <<< 24).toNat = e * 2 ^ 24 := by
      rw [toNat_shl, toNat_ofNat]
      omega
    rw [Limbs.toNat_or_of_disjoint (lt_trans hy (by decide : 2 ^ 23 < 2 ^ 24))
      (hexp.symm ▸ dvd_mul_left _ _), hexp]
  -- a mantissa that would set it gives up its last byte for a larger exponent
  by_cases hs : 2 ^ 23 ≤ m
  · have hshift : (x >>> 8).toNat = m / 2 ^ 8 := by rw [toNat_shr, hnat]
    have hy : (x >>> 8).toNat < 2 ^ 23 := by
      omega
    refine ⟨m / 2 ^ 8, size + 1, _, ?_, (hform (x >>> 8) (size + 1) hy (by omega)).trans ?_,
      by omega, by omega, ?_, ?_, fun h0 => by omega, fun h0 => ?_⟩
    · rw [if_pos (hsign.mpr hs), if_pos (hsign.mpr hs), if_pos ⟨and_not_mask hy, by omega⟩,
        if_neg (fun h => Bool.false_ne_true h.1), BitVec.or_zero]
    · rw [hshift]
    · rw [Nat.mul_succ, Nat.pow_add, Nat.mul_comm (2 ^ (8 * size)), ← Nat.mul_assoc]
      exact le_trans (mul_le_mul_right _ (div_mul_le_self _ _)) hlow
    · rw [Nat.mul_succ, Nat.pow_add, Nat.mul_comm (2 ^ (8 * size)), ← Nat.mul_assoc]
      refine lt_of_lt_of_le hhigh (mul_le_mul_right _ ?_)
      omega
    · -- the mantissa of zero has no sign bit to make room for
      omega
  · have hy : x.toNat < 2 ^ 23 := by omega
    refine ⟨m, size, _, ?_, (hform x size hy (by omega)).trans (by rw [hnat]), by omega, by omega,
      hlow, hhigh, fun h0 => ?_, fun h0 => (hsize0 h0).1⟩
    · rw [if_neg fun h => hs (hsign.mp h), if_neg fun h => hs (hsign.mp h),
        if_pos ⟨and_not_mask hy, by omega⟩, if_neg (fun h => Bool.false_ne_true h.1),
        BitVec.or_zero]
    · have := hlead h0
      omega

theorem lt_two_mul_of_getCompact_eq {a b : ArithUint256} (hb : b.value ≠ 0)
    (h : a.getCompact false = b.getCompact false) : b.value < 2 * a.value := by
  obtain ⟨m, e, c, hc, hform, -, ha⟩ := getCompact_spec a
  obtain ⟨m', e', c', hc', hform', -, hb'⟩ := getCompact_spec b
  have hm := ha.lt
  have hm' := hb'.lt
  obtain rfl : c = c' := Option.some.inj (hc.symm.trans (h.trans hc'))
  obtain rfl : e = e' := by omega
  obtain rfl : m = m' := by omega
  have hlead := hb'.lead hb
  have hlow := ha.le
  have hhigh := hb'.gt
  have hle : (m + 1) * 2 ^ (8 * e) ≤ 2 * (m * 2 ^ (8 * e)) := by
    rw [← mul_assoc]
    exact mul_le_mul_right _ (by omega)
  omega

end BaseUint

end Rcoin
