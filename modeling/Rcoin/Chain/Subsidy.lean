/-
  The emission schedule: the subsidy halves every `nSubsidyHalvingInterval` blocks,
  and with the genesis coins all subsidies together stay within `MAX_MONEY`.

  Source: GetBlockSubsidy (src/validation.cpp), the constants of src/amount.h and
  the networks of src/chainparams.cpp.
-/
import Rcoin.Chain.Validation

namespace Rcoin

open Finset

/-! ## Sums of truncated halvings -/

/-- All halvings of `a` together are at most `2 * a`: what is left to come after
    `n` terms is at most twice the next one. -/
theorem sum_halvings_le (a n : Nat) :
    ∑ k ∈ Finset.range n, a / 2 ^ k + 2 * (a / 2 ^ n) ≤ 2 * a := by
  induction n with
  | zero => simp
  | succ n ih =>
    have hhalf : a / 2 ^ (n + 1) = a / 2 ^ n / 2 := by
      rw [Nat.div_div_eq_div_mul, pow_succ]
    rw [Finset.sum_range_succ, hhalf]
    omega

theorem sum_range_periods (f : Nat → Nat) {p : Nat} (hp : 0 < p) (n : Nat) :
    ∑ h ∈ Finset.range (p * n), f (h / p) = p * ∑ k ∈ Finset.range n, f k := by
  induction n with
  | zero => simp
  | succ n ih =>
    have hperiod : ∀ x ∈ Finset.range p, f ((p * n + x) / p) = f n := by
      intro x hx
      rw [Nat.mul_add_div hp, Nat.div_eq_of_lt (mem_range.mp hx), Nat.add_zero]
    rw [Nat.mul_succ, sum_range_add, ih, sum_congr rfl hperiod, sum_const,
      card_range, nsmul_eq_mul, Finset.sum_range_succ, Nat.mul_add, Nat.cast_id]

/-! ## The schedule -/

/-- The networks of `CreateChainParams`. -/
inductive CChainParams where
  | main
  | test
  | regTest

def CChainParams.nSubsidyHalvingInterval : CChainParams → Nat
  | main => 200000
  | test => 200000
  | regTest => 150

/-- `x >> n` for 64-bit `x`; `none` where the shift is undefined. -/
def shiftRight64 (x n : Int) : Option Int :=
  if 0 ≤ n ∧ n < 64 then some (x >>> n.toNat) else none

/-- `GetBlockSubsidy` on the integers of the code: `none` where the division or
    the shift is undefined. -/
def getBlockSubsidyInt (nSubsidyHalvingInterval nHeight : Int) : Option Int :=
  if nHeight = 0 then some GENESIS_MONEY
  else if nSubsidyHalvingInterval = 0 then none
  else
    let halvings := nHeight.tdiv nSubsidyHalvingInterval
    if halvings ≥ 64 then some 0 else shiftRight64 INITIAL_SUBSIDY halvings

/-- The subsidy after so many halvings, in the smallest unit. -/
def subsidyAfter (halvings : Nat) : Nat := 500000000 / 2 ^ halvings

theorem subsidyAfter_eq_zero {halvings : Nat} (h : 64 ≤ halvings) : subsidyAfter halvings = 0 := by
  refine Nat.div_eq_of_lt (lt_of_lt_of_le ?_ (Nat.pow_le_pow_right (by decide) h))
  decide

theorem subsidyAfter_anti {k k' : Nat} (h : k ≤ k') : subsidyAfter k' ≤ subsidyAfter k :=
  Nat.div_le_div_left (Nat.pow_le_pow_right (by decide) h) (Nat.two_pow_pos k)

theorem INITIAL_SUBSIDY_shiftRight (halvings : Nat) :
    INITIAL_SUBSIDY >>> halvings = (subsidyAfter halvings : Int) := by
  rw [Int.shiftRight_eq_div_pow]
  rfl

section

variable (interval : Nat)

theorem getBlockSubsidy_eq {nHeight : Nat} (h : nHeight ≠ 0) :
    getBlockSubsidy interval nHeight = (subsidyAfter (nHeight / interval) : Int) := by
  simp only [getBlockSubsidy, if_neg h]
  split
  next hlarge =>
    rw [subsidyAfter_eq_zero hlarge]
    rfl
  next => exact INITIAL_SUBSIDY_shiftRight _

theorem getBlockSubsidyInt_eq (hpos : 0 < interval) {nHeight : Int} (h : 0 ≤ nHeight) :
    getBlockSubsidyInt interval nHeight = some (getBlockSubsidy interval nHeight.toNat) := by
  lift nHeight to Nat using h
  have hne : interval ≠ 0 := hpos.ne'
  have hdiv : (nHeight : Int).tdiv interval = ((nHeight / interval : Nat) : Int) := by
    exact (Int.natCast_ediv _ _).symm
  simp only [getBlockSubsidyInt, getBlockSubsidy, hdiv, if_neg hne, Int.toNat_natCast,
    Int.natCast_eq_zero, shiftRight64]
  generalize nHeight / interval = halvings
  by_cases hzero : nHeight = 0
  · rw [if_pos hzero, if_pos hzero]
  · rw [if_neg hzero, if_neg hzero]
    by_cases hlarge : halvings ≥ 64
    · rw [if_pos hlarge, if_pos (by omega)]
    · rw [if_neg hlarge, if_neg (by omega), if_pos (by omega)]

theorem getBlockSubsidy_nonneg (nHeight : Nat) : 0 ≤ getBlockSubsidy interval nHeight := by
  by_cases h : nHeight = 0
  · rw [h, getBlockSubsidy, if_pos rfl]
    decide
  · rw [getBlockSubsidy_eq interval h]
    omega

theorem getBlockSubsidy_anti {nHeight nHeight' : Nat} (h : nHeight ≤ nHeight') :
    getBlockSubsidy interval nHeight' ≤ getBlockSubsidy interval nHeight := by
  by_cases hzero' : nHeight' = 0
  · obtain rfl : nHeight = nHeight' := by omega
    exact le_refl _
  · rw [getBlockSubsidy_eq interval hzero']
    have hmono := subsidyAfter_anti (Nat.div_le_div_right h (c := interval))
    by_cases hzero : nHeight = 0
    · -- the genesis coins are more than any subsidy
      have hfirst := subsidyAfter_anti (Nat.zero_le (nHeight' / interval))
      have hinitial : (subsidyAfter 0 : Int) ≤ GENESIS_MONEY := by decide
      rw [hzero, getBlockSubsidy, if_pos rfl]
      omega
    · rw [getBlockSubsidy_eq interval hzero]
      omega

theorem sum_getBlockSubsidy_le (hpos : 0 < interval) {s : Finset Nat} (hs : ∀ h ∈ s, 1 ≤ h) :
    ∑ h ∈ s, getBlockSubsidy interval h ≤ interval * (2 * INITIAL_SUBSIDY) := by
  -- all heights lie in the first `n` periods
  obtain ⟨n, hn⟩ : ∃ n, s ⊆ Finset.range (interval * n) := by
    refine ⟨s.sup id + 1, fun h hh => mem_range.mpr ?_⟩
    have hle : h ≤ s.sup id := le_sup (f := id) hh
    calc h < s.sup id + 1 := by omega
      _ ≤ interval * (s.sup id + 1) := Nat.le_mul_of_pos_left _ hpos
  have hsum : ∑ h ∈ s, subsidyAfter (h / interval) ≤ interval * (2 * 500000000) :=
    calc ∑ h ∈ s, subsidyAfter (h / interval)
      _ ≤ ∑ h ∈ Finset.range (interval * n), subsidyAfter (h / interval) :=
        sum_le_sum_of_subset hn
      _ = interval * ∑ k ∈ Finset.range n, subsidyAfter k := sum_range_periods subsidyAfter hpos n
      _ ≤ interval * (2 * 500000000) := by
        refine Nat.mul_le_mul_left interval ?_
        have := sum_halvings_le 500000000 n
        unfold subsidyAfter
        omega
  have heq : ∑ h ∈ s, getBlockSubsidy interval h =
      ((∑ h ∈ s, subsidyAfter (h / interval) : Nat) : Int) := by
    rw [Nat.cast_sum]
    exact sum_congr rfl fun h hh =>
      getBlockSubsidy_eq interval (Nat.one_le_iff_ne_zero.mp (hs h hh))
  have hinitial : INITIAL_SUBSIDY = 500000000 := rfl
  rw [heq, hinitial]
  exact_mod_cast hsum

end

/-- On each network: the genesis coins and the subsidies of any blocks after it are
    together within `MAX_MONEY` (so that no sum of them leaves an `int64_t`), the
    subsidy never grows with the height, and it is computed without an undefined
    division or shift for every height. -/
theorem emission_bounded (params : CChainParams) :
    (∀ s : Finset Nat, (∀ h ∈ s, 1 ≤ h) →
      0 ≤ GENESIS_MONEY + ∑ h ∈ s, getBlockSubsidy params.nSubsidyHalvingInterval h ∧
      GENESIS_MONEY + ∑ h ∈ s, getBlockSubsidy params.nSubsidyHalvingInterval h ≤ MAX_MONEY) ∧
    MAX_MONEY < 2 ^ 63 ∧
    (∀ h h', h ≤ h' → getBlockSubsidy params.nSubsidyHalvingInterval h' ≤
      getBlockSubsidy params.nSubsidyHalvingInterval h) ∧
    ∀ nHeight : Int, 0 ≤ nHeight → getBlockSubsidyInt params.nSubsidyHalvingInterval nHeight =
      some (getBlockSubsidy params.nSubsidyHalvingInterval nHeight.toNat) := by
  have hpos : 0 < params.nSubsidyHalvingInterval := by cases params <;> decide
  have hle : params.nSubsidyHalvingInterval ≤ 200000 := by cases params <;> decide
  refine ⟨fun s hs => ?_, by decide, fun h h' => getBlockSubsidy_anti _,
    fun nHeight => getBlockSubsidyInt_eq _ hpos⟩
  have hsum := sum_getBlockSubsidy_le _ hpos hs
  have hnonneg : 0 ≤ ∑ h ∈ s, getBlockSubsidy params.nSubsidyHalvingInterval h :=
    sum_nonneg fun h _ => getBlockSubsidy_nonneg _ h
  have hgenesis : GENESIS_MONEY = 800000000000000 := rfl
  have hmax : MAX_MONEY = 1000000000000000 := rfl
  have hinitial : INITIAL_SUBSIDY = 500000000 := rfl
  rw [hinitial] at hsum
  omega

/-- With half as many blocks again in a period the subsidies would not fit. -/
example : MAX_MONEY < GENESIS_MONEY + 300000 * (INITIAL_SUBSIDY + INITIAL_SUBSIDY >>> 1) := by decide

end Rcoin
