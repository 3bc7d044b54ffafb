/-
  The shifts of `base_uint<BITS>` and the long division made of them.

  Source: src/arith_uint256.cpp.
-/
import Rcoin.Arith.BaseUint

namespace Rcoin

open Limbs List Nat

namespace BaseUint

variable {WIDTH : Nat}

/-! ## Shifts -/

/-- `pn[i] |= x`. -/
def orWord (pn : List (BitVec 32)) (i : Nat) (x : BitVec 32) : List (BitVec 32) :=
  pn.modify i (· ||| x)

theorem length_orWord (pn : List (BitVec 32)) (i : Nat) (x : BitVec 32) :
    (orWord pn i x).length = pn.length := length_modify ..

variable {pn : List (BitVec 32)} {i : Nat}

theorem getD_orWord (hi : i < pn.length) (x : BitVec 32) (j : Nat) :
    (orWord pn i x).getD j 0#32 = if j = i then pn.getD i 0#32 ||| x else pn.getD j 0#32 :=
  Limbs.getD_modify (· ||| x) hi j

variable {s : Nat}

theorem value_orWord (hi : i < pn.length) {x : BitVec 32} (hlow : (pn.getD i 0#32).toNat < 2 ^ s)
    (hx : 2 ^ s ∣ x.toNat) :
    Limbs.value (orWord pn i x) = Limbs.value pn + 2 ^ (32 * i) * x.toNat := by
  have h := Limbs.value_modify (· ||| x) hi
  rw [toNat_or_of_disjoint hlow hx, mul_add] at h
  rw [orWord]
  omega

/-- One round of `operator<<=`. -/
def shlStep (a : BaseUint WIDTH) (k s : Nat) (pn : List (BitVec 32)) (i : Nat) :
    List (BitVec 32) :=
  let pn := if i + k + 1 < WIDTH ∧ s ≠ 0 then orWord pn (i + k + 1) (a.word i >>> (32 - s)) else pn
  if i + k < WIDTH then orWord pn (i + k) (a.word i <<< s) else pn

/-- One round of `operator>>=`. -/
def shrStep (a : BaseUint WIDTH) (k s : Nat) (pn : List (BitVec 32)) (i : Nat) :
    List (BitVec 32) :=
  let pn := if k + 1 ≤ i ∧ s ≠ 0 then orWord pn (i - k - 1) (a.word i <<< (32 - s)) else pn
  if k ≤ i then orWord pn (i - k) (a.word i >>> s) else pn

variable (a : BaseUint WIDTH)

theorem length_shlStep (k s : Nat) (pn : List (BitVec 32)) (i : Nat) :
    (shlStep a k s pn i).length = pn.length := by
  rw [shlStep]
  split
  · rw [length_orWord]
    split
    · rw [length_orWord]
    · rfl
  · split
    · rw [length_orWord]
    · rfl

theorem length_shrStep (k s : Nat) (pn : List (BitVec 32)) (i : Nat) :
    (shrStep a k s pn i).length = pn.length := by
  rw [shrStep]
  split
  · rw [length_orWord]
    split
    · rw [length_orWord]
    · rfl
  · split
    · rw [length_orWord]
    · rfl

theorem length_foldl {step : List (BitVec 32) → Nat → List (BitVec 32)}
    (hstep : ∀ pn i, (step pn i).length = pn.length) (l : List Nat) (pn : List (BitVec 32)) :
    (l.foldl step pn).length = pn.length := by
  induction l generalizing pn with
  | nil => rfl
  | cons i l ih => rw [foldl_cons, ih, hstep]

/-- `operator<<=`. -/
def shiftLeft (a : BaseUint WIDTH) (shift : Nat) : BaseUint WIDTH :=
  ⟨(range WIDTH).foldl (shlStep a (shift / 32) (shift % 32)) (zero : BaseUint WIDTH).pn,
    (length_foldl (length_shlStep a _ _) _ _).trans zero.width⟩

/-- `operator>>=`. -/
def shiftRight (a : BaseUint WIDTH) (shift : Nat) : BaseUint WIDTH :=
  ⟨(range WIDTH).foldl (shrStep a (shift / 32) (shift % 32)) (zero : BaseUint WIDTH).pn,
    (length_foldl (length_shrStep a _ _) _ _).trans zero.width⟩

variable (d : BitVec 32)

theorem split_word (hs : s ≤ 32) :
    2 ^ 32 * (d.toNat / 2 ^ (32 - s)) + d.toNat * 2 ^ s % 2 ^ 32 = d.toNat * 2 ^ s := by
  have hpow : 2 ^ 32 = 2 ^ (32 - s) * 2 ^ s := by
    rw [← pow_add]
    congr 1
    omega
  have hdiv : d.toNat * 2 ^ s / 2 ^ 32 = d.toNat / 2 ^ (32 - s) := by
    rw [hpow, Nat.mul_div_mul_right _ _ (Nat.two_pow_pos s)]
  rw [← hdiv]
  exact div_add_mod _ _

theorem toNat_shl (s : Nat) : (d <<< s).toNat = d.toNat * 2 ^ s % 2 ^ 32 := by
  rw [BitVec.toNat_shiftLeft, Nat.shiftLeft_eq]

theorem toNat_shr (s : Nat) : (d >>> s).toNat = d.toNat / 2 ^ s := by
  rw [BitVec.toNat_ushiftRight, shiftRight_eq_div_pow]

theorem dvd_shl (hs : s ≤ 32) : 2 ^ s ∣ (d <<< s).toNat := by
  rw [toNat_shl]
  exact (dvd_mod_iff (pow_dvd_pow 2 hs)).mpr (dvd_mul_left _ _)

/-- What the first `i` rounds of `<<=` have made: the lower words shifted, with
    only the bits carried over in the next word and none above. -/
structure ShiftedLeft (a : BaseUint WIDTH) (k s i : Nat) (pn : List (BitVec 32)) : Prop where
  length : pn.length = WIDTH
  value : Limbs.value pn ≡ Limbs.value (a.pn.take i) * 2 ^ (32 * k + s) [MOD 2 ^ (32 * WIDTH)]
  carried : (pn.getD (i + k) 0#32).toNat < 2 ^ s
  above : ∀ j, i + k < j → pn.getD j 0#32 = 0#32

variable {k : Nat}

theorem ShiftedLeft.step {a : BaseUint WIDTH} (hs : s < 32) (h : ShiftedLeft a k s i pn)
    : ShiftedLeft a k s (i + 1) (shlStep a k s pn i) := by
  have hvalue : Limbs.value (a.pn.take (i + 1)) * 2 ^ (32 * k + s) =
      Limbs.value (a.pn.take i) * 2 ^ (32 * k + s) +
        2 ^ (32 * (i + k)) * ((a.word i).toNat * 2 ^ s) := by
    rw [value_take_succ, Nat.mul_add, Nat.pow_add, Nat.pow_add, ← word]
    ring
  rw [shlStep]
  set d := a.word i
  have hsplit := split_word d hs.le
  -- the bits carried over
  set mid := if i + k + 1 < WIDTH ∧ s ≠ 0 then orWord pn (i + k + 1) (d >>> (32 - s)) else pn
    with hmid
  have hcarry : (d >>> (32 - s)).toNat < 2 ^ s := by
    have hd := d.isLt
    rw [toNat_shr, Nat.div_lt_iff_lt_mul (Nat.two_pow_pos _), ← Nat.pow_add,
      show s + (32 - s) = 32 by omega]
    exact hd
  have hnext : pn.getD (i + k + 1) 0#32 = 0#32 := h.above _ (Nat.lt_succ_self _)
  have hmidlen : mid.length = WIDTH := by
    rw [hmid]
    split
    · rw [length_orWord, h.length]
    · exact h.length
  have hmidword : ∀ j, j ≠ i + k + 1 → mid.getD j 0#32 = pn.getD j 0#32 := by
    intro j hj
    rw [hmid]
    split
    next hin => rw [getD_orWord (h.length ▸ hin.1), if_neg hj]
    · rfl
  have hmidnext : (mid.getD (i + k + 1) 0#32).toNat < 2 ^ s := by
    rw [hmid]
    split
    next hin =>
      rw [getD_orWord (h.length ▸ hin.1), if_pos rfl, hnext, BitVec.zero_or]
      exact hcarry
    · rw [hnext]
      exact Nat.two_pow_pos s
  have hmidvalue : Limbs.value mid = Limbs.value pn +
      if i + k + 1 < WIDTH then 2 ^ (32 * (i + k + 1)) * (d.toNat / 2 ^ (32 - s)) else 0 := by
    rw [hmid]
    by_cases hin : i + k + 1 < WIDTH
    · by_cases hs0 : s = 0
      · have hd := d.isLt
        subst hs0
        rw [if_neg fun hand => hand.2 rfl, if_pos hin, Nat.div_eq_of_lt hd, Nat.mul_zero,
          Nat.add_zero]
      · have hzero : (pn.getD (i + k + 1) 0#32).toNat < 2 ^ 0 := by rw [hnext]; decide
        have hone : 2 ^ 0 ∣ (d >>> (32 - s)).toNat := by
          exact Nat.one_dvd _
        rw [if_pos ⟨hin, hs0⟩, if_pos hin, value_orWord (h.length ▸ hin) hzero hone, toNat_shr]
    · rw [if_neg fun hand => hin hand.1, if_neg hin, Nat.add_zero]
  -- the bits that stay in the word
  have hcur : (mid.getD (i + k) 0#32).toNat < 2 ^ s := by
    rw [hmidword _ (by omega)]
    exact h.carried
  have hlen : ∀ x, (if i + k < WIDTH then orWord mid (i + k) x else mid).length = WIDTH := by
    intro x
    split
    · rw [length_orWord, hmidlen]
    · exact hmidlen
  have hword : ∀ j, j ≠ i + k →
      (if i + k < WIDTH then orWord mid (i + k) (d <<< s) else mid).getD j 0#32 =
        mid.getD j 0#32 := by
    intro j hj
    split
    next hin => rw [getD_orWord (hmidlen ▸ hin), if_neg hj]
    · rfl
  refine ⟨hlen _, ?_, ?_, fun j hj => ?_⟩
  · have hsum : Limbs.value (if i + k < WIDTH then orWord mid (i + k) (d <<< s) else mid) =
        Limbs.value mid +
          if i + k < WIDTH then 2 ^ (32 * (i + k)) * (d.toNat * 2 ^ s % 2 ^ 32) else 0 := by
      split
      next hin => rw [value_orWord (hmidlen ▸ hin) hcur (dvd_shl d hs.le), toNat_shl]
      · rw [Nat.add_zero]
    rw [hsum, hmidvalue, hvalue, Nat.add_assoc]
    refine h.value.add ?_
    by_cases hin : i + k + 1 < WIDTH
    · rw [if_pos hin, if_pos (by omega), Nat.mul_succ, Nat.pow_add, Nat.mul_assoc, ← Nat.mul_add,
        hsplit]
    · rw [if_neg hin, Nat.zero_add]
      by_cases hlast : i + k < WIDTH
      · have htop : 32 * WIDTH = 32 * (i + k) + 32 := by omega
        -- the upper part of the top word is lost
        rw [if_pos hlast, htop, Nat.pow_add]
        exact ModEq.mul_left' (2 ^ (32 * (i + k))) (mod_modEq _ _)
      · rw [if_neg hlast]
        have hdvd : 2 ^ (32 * WIDTH) ∣ 2 ^ (32 * (i + k)) * (d.toNat * 2 ^ s) := by
          refine Nat.dvd_mul_right_of_dvd (Nat.pow_dvd_pow 2 ?_) _
          omega
        exact ((Nat.modEq_zero_iff_dvd).mpr hdvd).symm
  · rw [show i + 1 + k = i + k + 1 by omega, hword _ (by omega)]
    exact hmidnext
  · rw [hword j (by omega), hmidword j (by omega)]
    exact h.above j (by omega)

theorem getD_zero (j : Nat) : (zero : BaseUint WIDTH).pn.getD j 0#32 = 0#32 := by
  rw [zero, getD_eq_getElem?_getD, getElem?_replicate]
  split
  · rfl
  · rfl

theorem value_shiftLeft (shift : Nat) :
    (a.shiftLeft shift).value = a.value * 2 ^ shift % 2 ^ (32 * WIDTH) := by
  have hs : shift % 32 < 32 := mod_lt _ (by decide)
  have hrun : ∀ n, ShiftedLeft a (shift / 32) (shift % 32) n
      ((range n).foldl (shlStep a (shift / 32) (shift % 32)) (zero : BaseUint WIDTH).pn) := by
    intro n
    induction n with
    | zero =>
      refine ⟨zero.width, ?_, ?_, fun j _ => getD_zero j⟩
      · rw [take_zero, value_nil, zero_mul]
        exact congrArg (· % 2 ^ (32 * WIDTH)) value_zero
      · rw [range_zero, foldl_nil, getD_zero]
        exact Nat.two_pow_pos _
    | succ n ih =>
      rw [range_succ, foldl_append]
      exact ih.step hs
  have h := (hrun WIDTH).value
  rw [take_of_length_le a.width.le, div_add_mod] at h
  rw [← mod_eq_of_lt (value_lt (a.shiftLeft shift))]
  exact h

/-- What the first `i` rounds of `>>=` have made: the lower words shifted, with
    room in the last word for the bits of the next, and no word after it. -/
structure ShiftedRight (a : BaseUint WIDTH) (k s i : Nat) (pn : List (BitVec 32)) : Prop where
  length : pn.length = WIDTH
  value : Limbs.value pn = Limbs.value (a.pn.take i) / 2 ^ (32 * k + s)
  room : ∀ j, j + k + 1 = i → (pn.getD j 0#32).toNat < 2 ^ (32 - s)
  above : ∀ j, i ≤ j + k → pn.getD j 0#32 = 0#32

theorem ShiftedRight.step {a : BaseUint WIDTH} (hs : s < 32) (hi : i < WIDTH)
    (h : ShiftedRight a k s i pn) :
    ShiftedRight a k s (i + 1) (shrStep a k s pn i) := by
  have hlow := value_take_lt a.pn i
  have htake := value_take_succ a.pn i
  rw [← word] at htake
  rw [shrStep]
  set d := a.word i
  by_cases hik : k ≤ i
  case neg =>
    -- nothing of the lower words is left yet
    rw [if_neg hik, if_neg fun hand => hik (by omega)]
    refine ⟨h.length, ?_, fun j hj => by omega, fun j hj => h.above j (by omega)⟩
    have hlt := value_take_lt a.pn (i + 1)
    have hle : 2 ^ (32 * (i + 1)) ≤ 2 ^ (32 * k + s) :=
      Nat.pow_le_pow_right (by decide) (by omega)
    rw [h.value, div_eq_of_lt (by omega), div_eq_of_lt (by omega)]
  rw [if_pos hik]
  have hdshr : (d >>> s).toNat < 2 ^ (32 - s) := by
    have hd := d.isLt
    rw [toNat_shr, Nat.div_lt_iff_lt_mul (Nat.two_pow_pos _), ← Nat.pow_add,
      show 32 - s + s = 32 by omega]
    exact hd
  -- the low bits go into the word before, which has room for them
  set mid := if k + 1 ≤ i ∧ s ≠ 0 then orWord pn (i - k - 1) (d <<< (32 - s)) else pn with hmid
  have hmidlen : mid.length = WIDTH := by
    rw [hmid]
    split
    · rw [length_orWord, h.length]
    · exact h.length
  have hmidword : ∀ j, j + k ≥ i → mid.getD j 0#32 = 0#32 := by
    intro j hj
    rw [hmid]
    split
    next hin =>
      rw [getD_orWord (by rw [h.length]; omega), if_neg (by omega)]
      exact h.above j hj
    · exact h.above j hj
  have hmidvalue : Limbs.value mid = Limbs.value pn +
      if k + 1 ≤ i then 2 ^ (32 * (i - k - 1)) * (d.toNat * 2 ^ (32 - s) % 2 ^ 32) else 0 := by
    rw [hmid]
    by_cases hin : k + 1 ≤ i
    · by_cases hs0 : s = 0
      · subst hs0
        rw [if_neg fun hand => hand.2 rfl, if_pos hin, mul_mod_left, mul_zero, add_zero]
      · rw [if_pos ⟨hin, hs0⟩, if_pos hin, value_orWord (by rw [h.length]; omega)
          (h.room (i - k - 1) (by omega)) (dvd_shl d (by omega)), toNat_shl]
    · rw [if_neg fun hand => hin hand.1, if_neg hin, add_zero]
  have hin : i - k < mid.length := by
    omega
  have hcur : (mid.getD (i - k) 0#32).toNat < 2 ^ 0 := by
    rw [hmidword _ (by omega)]
    decide
  have hone : 2 ^ 0 ∣ (d >>> s).toNat := by
    exact one_dvd _
  have hvalue := value_orWord hin hcur hone
  refine ⟨by rw [length_orWord, hmidlen], ?_, fun j hj => ?_, fun j hj => ?_⟩
  · rw [hvalue, hmidvalue, h.value, htake, toNat_shr]
    by_cases hlater : k + 1 ≤ i
    · have hsplit := split_word d (sub_le 32 s)
      rw [Nat.sub_sub_self hs.le] at hsplit
      have hplace : 2 ^ (32 * (i - k)) = 2 ^ (32 * (i - k - 1)) * 2 ^ 32 := by
        rw [← pow_add]
        congr 1
        omega
      have hshift : 2 ^ (32 * i) =
          2 ^ (32 * k + s) * (2 ^ (32 * (i - k - 1)) * 2 ^ (32 - s)) := by
        rw [← pow_add, ← pow_add]
        congr 1
        omega
      rw [if_pos hlater, hplace, add_assoc, mul_assoc, ← mul_add, add_comm (_ % _),
        hsplit, hshift, Nat.mul_assoc, Nat.add_mul_div_left _ _ (Nat.two_pow_pos _), Nat.mul_assoc,
        mul_comm (2 ^ (32 - s))]
    · obtain rfl : i = k := by omega
      rw [if_neg hlater, Nat.add_zero, Nat.sub_self, Nat.mul_zero, Nat.pow_zero, Nat.one_mul,
        Nat.pow_add, ← Nat.div_div_eq_div_mul, ← Nat.div_div_eq_div_mul,
        Nat.add_mul_div_left _ _ (Nat.two_pow_pos _), Nat.div_eq_of_lt hlow, Nat.zero_div,
        zero_add, zero_add]
  · rw [getD_orWord hin, if_pos (by omega), hmidword _ (by omega), BitVec.zero_or]
    exact hdshr
  · rw [getD_orWord hin, if_neg (by omega)]
    exact hmidword j (by omega)

theorem value_shiftRight (shift : Nat) : (a.shiftRight shift).value = a.value / 2 ^ shift := by
  have hs : shift % 32 < 32 := mod_lt _ (by decide)
  have hrun : ∀ n ≤ WIDTH, ShiftedRight a (shift / 32) (shift % 32) n
      ((range n).foldl (shrStep a (shift / 32) (shift % 32)) (zero : BaseUint WIDTH).pn) := by
    intro n hn
    induction n with
    | zero =>
      refine ⟨zero.width, ?_, fun j hj => by omega, fun j _ => getD_zero j⟩
      rw [take_zero, value_nil, Nat.zero_div]
      exact value_zero
    | succ n ih =>
      rw [range_succ, foldl_append]
      exact (ih (by omega)).step hs (by omega)
  have h := (hrun WIDTH le_rfl).value
  rw [take_of_length_le a.width.le, div_add_mod] at h
  exact h

/-! ## Long division -/

/-- `pn[shift / 32] |= (1 << (shift & 31))`. -/
def setBit (q : BaseUint WIDTH) (shift : Nat) : BaseUint WIDTH :=
  ⟨orWord q.pn (shift / 32) (1#32 <<< (shift % 32)), (length_orWord ..).trans q.width⟩

/-- The loop of `operator/=` from `shift = n - 1` down: the divisor as it is shifted
    back, what is left of the dividend, and the quotient. -/
def divLoop : Nat → BaseUint WIDTH → BaseUint WIDTH → BaseUint WIDTH → BaseUint WIDTH
  | 0, _, _, q => q
  | shift + 1, div, num, q =>
    if num.compareTo div ≥ 0 then divLoop shift (div.shiftRight 1) (num.sub div) (q.setBit shift)
    else divLoop shift (div.shiftRight 1) num q

/-- `operator/=`; `none` is the exception for a division by zero. -/
def div (a b : BaseUint WIDTH) : Option (BaseUint WIDTH) :=
  let num_bits := a.bits
  let div_bits := b.bits
  if div_bits = 0 then none
  else if div_bits > num_bits then some zero
  else
    let shift := num_bits - div_bits
    some (divLoop (shift + 1) (b.shiftLeft shift) a zero)

theorem value_setBit {q : BaseUint WIDTH} {shift : Nat} (hshift : shift < 32 * WIDTH)
    (hq : 2 ^ (shift + 1) ∣ q.value) : (q.setBit shift).value = q.value + 2 ^ shift := by
  have hin : shift / 32 < q.pn.length := by
    rw [q.width]
    omega
  have hbit : (1#32 <<< (shift % 32)).toNat = 2 ^ (shift % 32) := by
    rw [toNat_shl, BitVec.toNat_ofNat, Nat.mod_eq_of_lt (by decide : 1 < 2 ^ 32), Nat.one_mul]
    exact Nat.mod_eq_of_lt (Nat.pow_lt_pow_right (by decide) (by omega))
  have hplace : 2 ^ shift = 2 ^ (32 * (shift / 32)) * 2 ^ (shift % 32) := by
    rw [← pow_add, div_add_mod]
  -- the bits of the word from this one down are not set
  have hword : 2 ^ (shift % 32 + 1) ∣ (q.pn.getD (shift / 32) 0#32).toNat := by
    rw [toNat_getD, dvd_mod_iff (pow_dvd_pow 2 (by omega))]
    obtain ⟨c, hc⟩ := hq
    have hpow : 2 ^ (shift + 1) = 2 ^ (32 * (shift / 32)) * 2 ^ (shift % 32 + 1) := by
      rw [← pow_add, ← add_assoc, div_add_mod]
    rw [value, hpow, mul_assoc] at hc
    rw [hc, Nat.mul_div_cancel_left _ (Nat.two_pow_pos _)]
    exact dvd_mul_right _ _
  have hmodify := Limbs.value_modify (· ||| 1#32 <<< (shift % 32)) hin
  rw [BitVec.or_comm, toNat_or_of_disjoint _ hword, hbit, Nat.mul_add, ← hplace] at hmodify
  · change Limbs.value (orWord _ _ _) = Limbs.value q.pn + _
    rw [orWord]
    omega
  · rw [hbit]
    exact Nat.pow_lt_pow_right (by decide) (Nat.lt_succ_self _)

theorem value_divLoop {b : Nat} (n : Nat) (hn : n ≤ 32 * WIDTH) {div num q : BaseUint WIDTH}
    (hdiv : ∀ m, n = m + 1 → div.value = b * 2 ^ m) (hnum : num.value < b * 2 ^ n)
    (hq : 2 ^ n ∣ q.value) : (divLoop n div num q).value = q.value + num.value / b := by
  induction n generalizing div num q with
  | zero =>
    rw [pow_zero, mul_one] at hnum
    rw [divLoop, div_eq_of_lt hnum, add_zero]
  | succ n ih =>
    have hdivn := hdiv n rfl
    have hbpos : 0 < b := by
      by_contra h0
      rw [Nat.eq_zero_of_not_pos h0, Nat.zero_mul] at hnum
      nomatch hnum
    -- the divisor goes down by one bit a round
    have hnext : ∀ m, n = m + 1 → (div.shiftRight 1).value = b * 2 ^ m := by
      rintro m rfl
      rw [value_shiftRight, hdivn, pow_one, pow_succ, ← mul_assoc,
        Nat.mul_div_cancel _ (by decide)]
    have hqn : 2 ^ n ∣ q.value := dvd_trans (pow_dvd_pow 2 (le_succ n)) hq
    rw [pow_succ, ← mul_assoc] at hnum
    rw [divLoop]
    split
    -- the bit is set: the quotient gains `2 ^ n`, the dividend loses `b * 2 ^ n`
    next hge =>
      have hle : div.value ≤ num.value := by
        by_contra hlt
        have hneg := compareTo_neg.mpr (not_le.mp hlt)
        omega
      have hsub := value_sub hle
      have hset := value_setBit (by omega) hq
      rw [ih (by omega) hnext (by rw [hsub]; omega)
        (by rw [hset]; exact Nat.dvd_add hqn (Nat.dvd_refl _)), hset, hsub, hdivn, Nat.add_assoc]
      congr 1
      rw [hdivn] at hle
      conv_rhs => rw [← Nat.sub_add_cancel hle]
      rw [add_mul_div_left _ _ hbpos, add_comm]
    -- the divisor does not fit, and both stay
    next hlt =>
      have hneg := compareTo_neg.mp (not_le.mp hlt)
      exact ih (by omega) hnext (by omega) hqn

theorem value_div {b : BaseUint WIDTH} (hb : b.value ≠ 0) :
    ∃ q, a.div b = some q ∧ q.value = a.value / b.value := by
  have ha := a.value_lt
  have hbits : b.bits ≠ 0 := by
    rw [bits_eq]
    exact fun h => hb (size_eq_zero.mp h)
  have hsizeA : a.value < 2 ^ a.bits := by
    rw [bits_eq]
    exact lt_size_self _
  have hsizeB : 2 ^ (b.bits - 1) ≤ b.value := by
    rw [← lt_size, ← bits_eq]
    omega
  have hlew : a.bits ≤ 32 * WIDTH := by
    rw [bits_eq]
    exact size_le.mpr ha
  simp only [div, if_neg hbits]
  split
  next hgt =>
    refine ⟨zero, rfl, ?_⟩
    have hpow : 2 ^ a.bits ≤ 2 ^ (b.bits - 1) := Nat.pow_le_pow_right (by decide) (by omega)
    rw [value_zero, div_eq_of_lt (by omega)]
  next hle =>
    refine ⟨_, rfl, ?_⟩
    -- the divisor is shifted to the top bit of the dividend, which loses nothing
    have hlt : b.value * 2 ^ (a.bits - b.bits) < 2 ^ (32 * WIDTH) := by
      have hb' : b.value < 2 ^ b.bits := by
        rw [bits_eq]
        exact lt_size_self _
      calc b.value * 2 ^ (a.bits - b.bits)
          < 2 ^ b.bits * 2 ^ (a.bits - b.bits) :=
            Nat.mul_lt_mul_of_pos_right hb' (Nat.two_pow_pos _)
        _ = 2 ^ a.bits := by
            rw [← pow_add]
            congr 1
            omega
        _ ≤ 2 ^ (32 * WIDTH) := Nat.pow_le_pow_right (by decide) hlew
    have hshl : (b.shiftLeft (a.bits - b.bits)).value = b.value * 2 ^ (a.bits - b.bits) := by
      rw [value_shiftLeft, mod_eq_of_lt hlt]
    have hnum : a.value < b.value * 2 ^ (a.bits - b.bits + 1) := by
      calc a.value < 2 ^ a.bits := hsizeA
        _ = 2 ^ (b.bits - 1) * 2 ^ (a.bits - b.bits + 1) := by
            rw [← pow_add]
            congr 1
            omega
        _ ≤ b.value * 2 ^ (a.bits - b.bits + 1) := mul_le_mul_right _ hsizeB
    have hzero : 2 ^ (a.bits - b.bits + 1) ∣ (zero : BaseUint WIDTH).value := by
      rw [value_zero]
      exact dvd_zero _
    rw [value_divLoop (a.bits - b.bits + 1) (by omega) (fun m hm => ?_) hnum hzero, value_zero,
      zero_add]
    rw [hshl, succ.inj hm]

end BaseUint

end Rcoin
