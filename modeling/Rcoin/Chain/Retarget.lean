/-
  The retarget of the proof of work, whose product is taken in 256 bits before it
  is divided.  With the limits of the main and the test network the product can
  need more bits: the new target is the one over unbounded integers exactly if it
  does not.

  Source: src/pow.cpp; the parameters are those of src/chainparams.cpp.
-/
import Rcoin.Arith.Compact

namespace Rcoin

open BaseUint

/-- The parameters of the proof of work. -/
structure PowParams where
  powLimit : Nat
  nPowTargetTimespan : Int
  fPowNoRetargeting : Bool

namespace PowParams

/-- `CMainParams`. -/
def main : PowParams where
  powLimit := 0x0007ffffffffffffffffffffffffffffffffffffffffffffffffffffffffffff
  nPowTargetTimespan := 2 * 24 * 60 * 60
  fPowNoRetargeting := false

/-- `CTestNetParams`. -/
def test : PowParams where
  powLimit := 0x07ffffffffffffffffffffffffffffffffffffffffffffffffffffffffffffff
  nPowTargetTimespan := 2 * 24 * 60 * 60
  fPowNoRetargeting := false

end PowParams

open PowParams

/-- Limit adjustment step. -/
def actualTimespan (params : PowParams) (blockTime firstBlockTime : Int) : Int :=
  let nActualTimespan := blockTime - firstBlockTime
  let nActualTimespan :=
    if nActualTimespan < params.nPowTargetTimespan.tdiv 4 then params.nPowTargetTimespan.tdiv 4
    else nActualTimespan
  if nActualTimespan > params.nPowTargetTimespan * 4 then params.nPowTargetTimespan * 4
  else nActualTimespan

/-- `CalculateNextWorkRequired` for a last block with these bits and time. -/
def calculateNextWorkRequired (params : PowParams) (nBits : BitVec 32)
    (blockTime nFirstBlockTime : Int) : Option (BitVec 32) :=
  if params.fPowNoRetargeting then some nBits
  else do
    let nActualTimespan := actualTimespan params blockTime nFirstBlockTime
    let bnPowLimit := ofUint256 params.powLimit
    let bnNew := (BaseUint.setCompact nBits).1
    let bnNew := bnNew.mulWord (BitVec.ofInt 32 nActualTimespan)
    let bnNew ← bnNew.div (ofUInt64 (BitVec.ofInt 64 params.nPowTargetTimespan))
    let bnNew := if bnNew.compareTo bnPowLimit > 0 then bnPowLimit else bnNew
    bnNew.getCompact false

/-- The target `nBits` stands for. -/
def target (nBits : BitVec 32) : Nat := (BaseUint.setCompact nBits).1.value

/-- The new target over unbounded integers, for the clamped timespan `c`. -/
def nextTarget (params : PowParams) (T : Nat) (c : Int) : Int :=
  min params.powLimit (T * c / params.nPowTargetTimespan)

/-- What the retarget needs of the parameters: times that fit into a word, and a
    limit above twice any quotient of 256 bits. -/
structure PowParams.Retargets (params : PowParams) : Prop where
  enabled : params.fPowNoRetargeting = false
  timespan : 4 ≤ params.nPowTargetTimespan ∧ params.nPowTargetTimespan * 4 < 2 ^ 32
  powLimit : params.powLimit < 2 ^ 256
  quotient : 2 * (2 ^ 256 / params.nPowTargetTimespan) ≤ params.powLimit

theorem PowParams.retargets_main : main.Retargets :=
  ⟨rfl, by decide, by decide, by decide⟩

theorem PowParams.retargets_test : test.Retargets :=
  ⟨rfl, by decide, by decide, by decide⟩

section Retarget

variable {params : PowParams}

theorem actualTimespan_bounds (h : params.Retargets) (blockTime firstBlockTime : Int) :
    0 < actualTimespan params blockTime firstBlockTime ∧
      actualTimespan params blockTime firstBlockTime < 2 ^ 32 := by
  obtain ⟨hle, hlt⟩ := h.timespan
  have hquarter : params.nPowTargetTimespan.tdiv 4 = params.nPowTargetTimespan / 4 :=
    Int.tdiv_eq_ediv_of_nonneg (by omega)
  rw [actualTimespan, hquarter]
  omega

theorem calculateNextWorkRequired_eq (h : params.Retargets) (nBits : BitVec 32)
    (blockTime nFirstBlockTime : Int) :
    ∃ bnNew : ArithUint256,
      calculateNextWorkRequired params nBits blockTime nFirstBlockTime = bnNew.getCompact false ∧
        bnNew.value = min params.powLimit
          ((actualTimespan params blockTime nFirstBlockTime).toNat * target nBits % 2 ^ 256 /
            params.nPowTargetTimespan.toNat) := by
  obtain ⟨hle, hlt⟩ := h.timespan
  obtain ⟨hpos, hword⟩ := actualTimespan_bounds h blockTime nFirstBlockTime
  rw [calculateNextWorkRequired, if_neg (by rw [h.enabled]; exact Bool.false_ne_true)]
  generalize actualTimespan params blockTime nFirstBlockTime = c at hpos hword ⊢
  have hc : (BitVec.ofInt 32 c).toNat = c.toNat := by
    rw [BitVec.toNat_ofInt]
    omega
  have hN : (ofUInt64 (BitVec.ofInt 64 params.nPowTargetTimespan)).value =
      params.nPowTargetTimespan.toNat := by
    rw [value_ofUInt64, BitVec.toNat_ofInt]
    omega
  have hN0 : (ofUInt64 (BitVec.ofInt 64 params.nPowTargetTimespan)).value ≠ 0 := by
    omega
  obtain ⟨q, hq, hvalue⟩ :=
    value_div ((BaseUint.setCompact nBits).1.mulWord (BitVec.ofInt 32 c)) hN0
  rw [value_mulWord, hc, hN] at hvalue
  refine ⟨if q.compareTo (ofUint256 params.powLimit) > 0 then ofUint256 params.powLimit else q,
    ?_, ?_⟩
  · dsimp only
    rw [hq]
    rfl
  rw [target, ← hvalue]
  split
  next hgt =>
    have hlt := compareTo_pos.mp hgt
    rw [value_ofUint256 h.powLimit] at hlt ⊢
    omega
  next hle =>
    have hnot := not_lt.mp fun hlt => hle (compareTo_pos.mpr hlt)
    rw [value_ofUint256 h.powLimit] at hnot
    omega

theorem calculateNextWorkRequired_iff_of_retargets (h : params.Retargets) (nBits : BitVec 32)
    (blockTime nFirstBlockTime : Int) :
    calculateNextWorkRequired params nBits blockTime nFirstBlockTime =
        (ofUint256 (nextTarget params (target nBits)
          (actualTimespan params blockTime nFirstBlockTime)).toNat).getCompact false ↔
      target nBits * actualTimespan params blockTime nFirstBlockTime < 2 ^ 256 := by
  obtain ⟨bnNew, hcode, hnew⟩ := calculateNextWorkRequired_eq h nBits blockTime nFirstBlockTime
  obtain ⟨hpos, -⟩ := actualTimespan_bounds h blockTime nFirstBlockTime
  obtain ⟨hN4, hN32⟩ := h.timespan
  have hlimit := h.powLimit
  have hquot := h.quotient
  rw [hcode]
  generalize actualTimespan params blockTime nFirstBlockTime = c at *
  generalize target nBits = T at *
  obtain ⟨C, rfl⟩ := Int.eq_ofNat_of_zero_le hpos.le
  obtain ⟨N, hN⟩ := Int.eq_ofNat_of_zero_le (show 0 ≤ params.nPowTargetTimespan by omega)
  rw [hN] at hnew hquot hN4 hN32
  rw [Int.toNat_natCast, Int.toNat_natCast] at hnew
  have hN0 : 0 < N := by omega
  have hnext : (nextTarget params T C).toNat = min params.powLimit (C * T / N) := by
    have hcast : (T : Int) * C / N = ((C * T / N : Nat) : Int) := by
      rw [Int.natCast_ediv, Int.natCast_mul, Int.mul_comm]
    rw [nextTarget, hN, hcast, ← Nat.cast_min, Int.toNat_natCast]
  have hprod : ((T : Int) * C < 2 ^ 256) ↔ C * T < 2 ^ 256 := by
    rw [← Int.natCast_mul, Nat.mul_comm C T]
    omega
  have hvalue : (ofUint256 (min params.powLimit (C * T / N))).value =
      min params.powLimit (C * T / N) :=
    value_ofUint256 (Nat.lt_of_le_of_lt (Nat.min_le_left _ _) hlimit)
  rw [hnext, hprod]
  constructor
  · intro heq
    by_contra hwrap
    have hlt := Nat.mod_lt (C * T) (Nat.two_pow_pos 256)
    -- what is left after the wrap is at most half of the quotient, and of the limit
    have hhalf : 2 * (C * T % 2 ^ 256 / N) ≤ C * T / N := by
      rw [Nat.le_div_iff_mul_le hN0, Nat.mul_assoc]
      have hle := Nat.div_mul_le_self (C * T % 2 ^ 256) N
      omega
    have hquot' : 2 * (2 ^ 256 / N) ≤ params.powLimit := by exact_mod_cast hquot
    have hsmall : 2 * (C * T % 2 ^ 256 / N) ≤ params.powLimit := by
      have hle : C * T % 2 ^ 256 / N ≤ 2 ^ 256 / N := Nat.div_le_div_right hlt.le
      omega
    have hpos : min params.powLimit (C * T / N) ≠ 0 := by
      have hone : 1 ≤ 2 ^ 256 / N := (Nat.le_div_iff_mul_le hN0).mpr (by omega)
      have hle : 2 ^ 256 / N ≤ C * T / N := Nat.div_le_div_right (by omega)
      omega
    have hclose := lt_two_mul_of_getCompact_eq (hvalue.symm ▸ hpos) heq
    omega
  · intro hfits
    refine congrArg (fun b => b.getCompact false) (ext_value ?_)
    rw [hnew, hvalue, Nat.mod_eq_of_lt hfits]

end Retarget

/-- For the main and the test network, any bits and any times: the retarget gives
    the clamped, scaled and limited target over unbounded integers exactly if the
    product of target and timespan needs at most 256 bits. -/
theorem calculateNextWorkRequired_iff (params : PowParams)
    (hparams : params = main ∨ params = test) (nBits : BitVec 32)
    (blockTime nFirstBlockTime : Int) :
    calculateNextWorkRequired params nBits blockTime nFirstBlockTime =
        (ofUint256 (nextTarget params (target nBits)
          (actualTimespan params blockTime nFirstBlockTime)).toNat).getCompact false ↔
      target nBits * actualTimespan params blockTime nFirstBlockTime < 2 ^ 256 := by
  have h : params.Retargets := by
    rcases hparams with rfl | rfl
    · exact retargets_main
    · exact retargets_test
  exact calculateNextWorkRequired_iff_of_retargets h nBits blockTime nFirstBlockTime

/-- The bits of the genesis block, with blocks at the intended pace: the target
    should stay, and falls to less than its two hundredth part. -/
theorem calculateNextWorkRequired_wraps :
    0 < target 0x1f07ffff#32 ∧ target 0x1f07ffff#32 ≤ main.powLimit ∧
      actualTimespan main 172800 0 = 172800 ∧
      calculateNextWorkRequired main 0x1f07ffff#32 172800 0 = some 0x1e09192b#32 ∧
      (ofUint256 (nextTarget main (target 0x1f07ffff#32) 172800).toNat).getCompact
        false = some 0x1f07ffff#32 := by
  decide +kernel

theorem calculateNextWorkRequired_iff_fits :
    calculateNextWorkRequired main 0x1e07ffff#32 172800 0 =
        (ofUint256 (nextTarget main (target 0x1e07ffff#32)
          (actualTimespan main 172800 0)).toNat).getCompact false ↔
      target 0x1e07ffff#32 * actualTimespan main 172800 0 < 2 ^ 256 :=
  calculateNextWorkRequired_iff main (.inl rfl) 0x1e07ffff#32 172800 0

end Rcoin
