/-
  The numbers a compact word can stand for: `SetCompact` reads one of them exactly, and
  `GetCompact` rounds down to the next.

  Source: src/arith_uint256.cpp.
-/
import Rcoin.Arith.Compact

namespace Rcoin

open Limbs Nat

namespace BaseUint

/-- `m * 256 ^ (e - 3)`, rounded down. -/
def scaled (m e : Nat) : Nat := m * 2 ^ (8 * e) / 2 ^ 24

/-- The mantissa of a compact word and its exponent. -/
def compactValue (nCompact : BitVec 32) : Nat :=
  scaled (nCompact &&& 0x007fffff#32).toNat (nCompact >>> 24).toNat

/-! ## Scaling -/

theorem scaled_of_le {e : Nat} (he : e ≤ 3) (m : Nat) : scaled m e = m / 2 ^ (8 * (3 - e)) := by
  have hpow : 2 ^ 24 = 2 ^ (8 * (3 - e)) * 2 ^ (8 * e) := by
    rw [← Nat.pow_add]
    congr 1
    omega
  rw [scaled, hpow, Nat.mul_div_mul_right _ _ (Nat.two_pow_pos _)]

theorem scaled_of_ge {e : Nat} (he : 3 ≤ e) (m : Nat) : scaled m e = m * 2 ^ (8 * (e - 3)) := by
  have hpow : 2 ^ (8 * e) = 2 ^ (8 * (e - 3)) * 2 ^ 24 := by
    rw [← Nat.pow_add]
    congr 1
    omega
  rw [scaled, hpow, ← Nat.mul_assoc, Nat.mul_div_cancel _ (Nat.two_pow_pos _)]

theorem exists_scaled_of_ge {m : Nat} (hm : m < 2 ^ 23) (e : Nat) :
    ∃ m' e', m' < 2 ^ 23 ∧ 3 ≤ e' ∧ scaled m e = scaled m' e' := by
  by_cases he : 3 ≤ e
  · exact ⟨m, e, hm, he, rfl⟩
  · refine ⟨m / 2 ^ (8 * (3 - e)), 3, lt_of_le_of_lt (div_le_self _ _) hm, le_rfl, ?_⟩
    rw [scaled_of_le (by omega), scaled_of_ge le_rfl]
    simp

/-! ## From a word -/

theorem and_mantissa_lt (n : Nat) : n &&& 0x007fffff < 2 ^ 23 :=
  lt_of_le_of_lt and_le_right (by decide)

theorem setCompact_scaled (n : Nat) :
    (Rcoin.setCompact n).1 = scaled (n &&& 0x007fffff) (n >>> 24) % 2 ^ 256 ∧
      ((Rcoin.setCompact n).2.1 = true ↔
        scaled (n &&& 0x007fffff) (n >>> 24) ≠ 0 ∧ n &&& 0x00800000 ≠ 0) ∧
      ((Rcoin.setCompact n).2.2 = true ↔ 2 ^ 256 ≤ scaled (n &&& 0x007fffff) (n >>> 24)) := by
  have hm := and_mantissa_lt n
  simp only [Rcoin.setCompact, Bool.and_eq_true, Bool.or_eq_true, decide_eq_true_eq]
  generalize n &&& 0x007fffff = m at hm ⊢
  generalize n >>> 24 = e
  by_cases he : e ≤ 3
  · -- a small number, that always fits
    have hlt : m / 2 ^ (8 * (3 - e)) < 2 ^ 23 := lt_of_le_of_lt (div_le_self _ _) hm
    simp only [if_pos he, scaled_of_le he, shiftRight_eq_div_pow]
    refine ⟨(mod_eq_of_lt (by omega)).symm, trivial, ?_⟩
    omega
  · have hpow := Nat.two_pow_pos (8 * (e - 3))
    have hne : m * 2 ^ (8 * (e - 3)) ≠ 0 ↔ m ≠ 0 := by
      rw [mul_ne_zero_iff]
      exact and_iff_left hpow.ne'
    simp only [if_neg he, scaled_of_ge (le_of_not_ge he), shiftLeft_eq]
    refine ⟨trivial, and_congr_left fun _ => hne.symm, ?_⟩
    -- the three thresholds are those of a mantissa of one, two and three bytes
    by_cases h35 : 35 ≤ e
    · have hle : 2 ^ 256 ≤ 2 ^ (8 * (e - 3)) := Nat.pow_le_pow_right (by decide) (by omega)
      constructor
      · intro h
        exact le_trans hle (Nat.le_mul_of_pos_left _ (Nat.pos_of_ne_zero h.1))
      · intro h
        refine ⟨fun h0 => ?_, .inl (.inl (by omega))⟩
        omega
    · have h34 : e = 34 ∨ e = 33 ∨ e ≤ 32 := by omega
      rcases h34 with rfl | rfl | hle
      · omega
      · omega
      · have hsmall : 2 ^ (8 * (e - 3)) ≤ 2 ^ 232 := Nat.pow_le_pow_right (by decide) (by omega)
        have hmul : m * 2 ^ (8 * (e - 3)) ≤ 2 ^ 23 * 2 ^ 232 := Nat.mul_le_mul hm.le hsmall
        omega

theorem setCompact_word (nCompact : BitVec 32) :
    (setCompact nCompact).1.value = compactValue nCompact % 2 ^ 256 ∧
      ((setCompact nCompact).2.1 = true ↔
        compactValue nCompact ≠ 0 ∧ nCompact &&& 0x00800000#32 ≠ 0) ∧
      ((setCompact nCompact).2.2 = true ↔ 2 ^ 256 ≤ compactValue nCompact) := by
  have h := setCompact_scaled nCompact.toNat
  have hsign : nCompact &&& 0x00800000#32 ≠ 0 ↔ nCompact.toNat &&& 0x00800000 ≠ 0 := by
    rw [Ne, ← BitVec.toNat_inj, BitVec.toNat_and]
    rfl
  rw [← setCompact_eq] at h
  rw [compactValue, BitVec.toNat_and, BitVec.toNat_ushiftRight, hsign]
  exact h

/-! ## To a word -/

namespace CompactForm

variable {v m e : Nat}

variable (h : CompactForm v m e)

include h

theorem scaled_le : scaled m e ≤ v := by
  exact Nat.div_le_of_le_mul (by rw [Nat.mul_comm (2 ^ 24)]; exact h.le)

theorem scaled_eq_of_lt (he : e < 3) : scaled m e = v := by
  have hle := h.le
  have hgt := h.gt
  have hpow : 2 ^ 24 = 2 ^ (8 * (3 - e)) * 2 ^ (8 * e) := by
    rw [← Nat.pow_add]
    congr 1
    omega
  -- the mantissa is the number shifted left
  have hm : v * 2 ^ (8 * (3 - e)) = m := by
    rw [hpow, ← Nat.mul_assoc] at hle hgt
    have hle' := Nat.le_of_mul_le_mul_right hle (Nat.two_pow_pos _)
    have hgt' := Nat.lt_of_mul_lt_mul_right hgt
    omega
  rw [scaled_of_le he.le, ← hm, Nat.mul_div_cancel _ (Nat.two_pow_pos _)]

theorem scaled_bounds (he : 3 ≤ e) :
    m * 2 ^ (8 * (e - 3)) ≤ v ∧ v < (m + 1) * 2 ^ (8 * (e - 3)) := by
  have hpow : 2 ^ (8 * e) = 2 ^ (8 * (e - 3)) * 2 ^ 24 := by
    rw [← pow_add]
    congr 1
    omega
  have hle := h.le
  have hgt := h.gt
  rw [hpow, ← mul_assoc] at hle hgt
  exact ⟨Nat.le_of_mul_le_mul_right hle (Nat.two_pow_pos _), Nat.lt_of_mul_lt_mul_right hgt⟩

theorem scaled_le_scaled {m' e' : Nat} (hm' : m' < 2 ^ 23) (hle : scaled m' e' ≤ v) :
    scaled m' e' ≤ scaled m e := by
  by_cases he : e < 3
  · rw [h.scaled_eq_of_lt he]
    exact hle
  · obtain ⟨m', e', hm', he', heq⟩ := exists_scaled_of_ge hm' e'
    obtain ⟨-, hgt⟩ := h.scaled_bounds (not_lt.mp he)
    rw [heq, scaled_of_ge he'] at hle
    rw [heq, scaled_of_ge he', scaled_of_ge (not_lt.mp he)]
    by_cases hee : e ≤ e'
    · -- a multiple of the same power
      have hpow : 2 ^ (8 * (e' - 3)) = 2 ^ (8 * (e' - e)) * 2 ^ (8 * (e - 3)) := by
        rw [← pow_add]
        congr 1
        omega
      rw [hpow, ← mul_assoc] at hle ⊢
      exact Nat.mul_le_mul_right _
        (Nat.le_of_lt_succ (Nat.lt_of_mul_lt_mul_right (lt_of_le_of_lt hle hgt)))
    · -- a lower power has too small a mantissa
      have hv : v ≠ 0 := by
        intro h0
        have := h.zero h0
        omega
      calc m' * 2 ^ (8 * (e' - 3)) ≤ 2 ^ 23 * 2 ^ (8 * (e' - 3)) := mul_le_mul_right _ hm'.le
        _ = 2 ^ 15 * 2 ^ (8 * (e' - 3) + 8) := by ring
        _ ≤ 2 ^ 15 * 2 ^ (8 * (e - 3)) :=
            Nat.mul_le_mul_left _ (Nat.pow_le_pow_right (by decide) (by omega))
        _ ≤ m * 2 ^ (8 * (e - 3)) := mul_le_mul_right _ (h.lead hv)

theorem word_le {v' m' e' : Nat} (h' : CompactForm v' m' e') (hle : v ≤ v') :
    m + e * 2 ^ 24 ≤ m' + e' * 2 ^ 24 := by
  have hlt := h.lt
  have hlow := h.le
  have hhigh := h'.gt
  by_cases hv : v = 0
  · have he := h.zero hv
    rw [hv, Nat.zero_mul, he, Nat.mul_zero, Nat.pow_zero, Nat.mul_one] at hlow
    omega
  · have hlead := h.lead hv
    have hlt' := h'.lt
    have hchain : m * 2 ^ (8 * e) < (m' + 1) * 2 ^ (8 * e') :=
      lt_of_le_of_lt (le_trans hlow (Nat.mul_le_mul_right _ hle)) hhigh
    rcases lt_trichotomy e e' with hee | rfl | hee
    · omega
    · have := Nat.lt_of_mul_lt_mul_right hchain
      omega
    · -- the mantissa would be too small for the larger exponent
      have hpow : 2 ^ (8 * e' + 8) ≤ 2 ^ (8 * e) := Nat.pow_le_pow_right (by decide) (by omega)
      have hbig : 2 ^ 15 * 2 ^ (8 * e' + 8) ≤ m * 2 ^ (8 * e) := Nat.mul_le_mul hlead hpow
      have hsmall : (m' + 1) * 2 ^ (8 * e') ≤ 2 ^ 23 * 2 ^ (8 * e') := Nat.mul_le_mul_right _ hlt'
      rw [Nat.pow_add 2 (8 * e') 8] at hbig
      omega

theorem of_scaled : CompactForm (scaled m e) m e := by
  by_cases he : e < 3
  · rw [h.scaled_eq_of_lt he]
    exact h
  · have hexact : scaled m e * 2 ^ 24 = m * 2 ^ (8 * e) := by
      have hpow : 2 ^ (8 * e) = 2 ^ (8 * (e - 3)) * 2 ^ 24 := by
        rw [← pow_add]
        congr 1
        omega
      rw [scaled_of_ge (not_lt.mp he), hpow, mul_assoc]
    have hv : v ≠ 0 := by
      intro h0
      have := h.zero h0
      omega
    have hlead := h.lead hv
    refine ⟨h.lt, hexact.ge, ?_, fun _ => hlead, fun h0 => ?_⟩
    · rw [hexact]
      exact Nat.mul_lt_mul_of_pos_right (Nat.lt_succ_self m) (Nat.two_pow_pos _)
    · rw [h0, zero_mul] at hexact
      have := Nat.mul_pos (by omega : 0 < m) (Nat.two_pow_pos (8 * e))
      omega

omit h

end CompactForm

theorem compactValue_eq {c : BitVec 32} {m e : Nat} (hc : c.toNat = m + e * 2 ^ 24)
    (hm : m < 2 ^ 23) : compactValue c = scaled m e ∧ c &&& 0x00800000#32 = 0 := by
  have hmask : (c &&& 0x007fffff#32).toNat = m := by
    rw [BitVec.toNat_and, show (0x007fffff#32).toNat = 2 ^ 23 - 1 from rfl,
      and_two_pow_sub_one_eq_mod, hc]
    omega
  have hexp : (c >>> 24).toNat = e := by
    rw [BitVec.toNat_ushiftRight, shiftRight_eq_div_pow, hc]
    omega
  refine ⟨by rw [compactValue, hmask, hexp], ?_⟩
  by_contra hsign
  have h := (and_bit_ne_zero c (by decide : 23 < 32)).mp hsign
  omega

/-- `GetCompact` gives the word of the greatest number that has a compact form and does not
    exceed this one, and the word is the same for the two. -/
theorem getCompact_greatest (a : ArithUint256) :
    ∃ c, a.getCompact false = some c ∧ (setCompact c).2 = (false, false) ∧
      IsGreatest {v | (∃ c, compactValue c = v) ∧ v ≤ a.value} (setCompact c).1.value ∧
      (setCompact c).1.getCompact false = some c := by
  obtain ⟨m, e, c, hc, hform, he, h⟩ := getCompact_spec a
  obtain ⟨hval, hsign⟩ := compactValue_eq hform h.lt
  obtain ⟨hset, hneg, hover⟩ := setCompact_word c
  have ha := a.value_lt
  have hle := h.scaled_le
  rw [hval] at hset hneg hover
  rw [mod_eq_of_lt (by omega)] at hset
  refine ⟨c, hc, ?_, ⟨⟨⟨c, hval.trans hset.symm⟩, hset.trans_le hle⟩, ?_⟩, ?_⟩
  · refine Prod.ext ?_ ?_
    · exact Bool.eq_false_iff.mpr fun htrue => (hneg.mp htrue).2 hsign
    · refine Bool.eq_false_iff.mpr fun htrue => ?_
      have := hover.mp htrue
      omega
  · rintro _ ⟨⟨c', rfl⟩, hc'⟩
    rw [hset]
    refine h.scaled_le_scaled ?_ hc'
    exact and_mantissa_lt _
  · -- both words have the one compact form of the rounded number
    obtain ⟨m', e', c', hc', hform', -, h'⟩ := getCompact_spec (setCompact c).1
    rw [hset] at h'
    have hwordle := h.of_scaled.word_le h' le_rfl
    have hwordge := h'.word_le h.of_scaled le_rfl
    rw [hc', BitVec.eq_of_toNat_eq (by omega : c'.toNat = c.toNat)]

theorem getCompact_mono {a b : ArithUint256} (hab : a.value ≤ b.value) {c d : BitVec 32}
    (hc : a.getCompact false = some c) (hd : b.getCompact false = some d) : c ≤ d := by
  obtain ⟨m, e, c', hc', hform, -, h⟩ := getCompact_spec a
  obtain ⟨m', e', d', hd', hform', -, h'⟩ := getCompact_spec b
  obtain rfl : c = c' := Option.some.inj (hc.symm.trans hc')
  obtain rfl : d = d' := Option.some.inj (hd.symm.trans hd')
  rw [BitVec.le_def, hform, hform']
  exact h.word_le h' hab

/-! ## The format -/

/-- `GetCompact` gives the greatest value below that has a compact form, in order, and `SetCompact`
    reads every word. -/
theorem compact_format :
    (∀ a : ArithUint256, ∃ c, a.getCompact false = some c ∧ (setCompact c).2 = (false, false) ∧
      IsGreatest {v | (∃ c, compactValue c = v) ∧ v ≤ a.value} (setCompact c).1.value ∧
      (setCompact c).1.getCompact false = some c) ∧
    (∀ (a b : ArithUint256) (c d : BitVec 32), a.value ≤ b.value → a.getCompact false = some c →
      b.getCompact false = some d → c ≤ d) ∧
    ∀ nCompact : BitVec 32,
      (setCompact nCompact).1.value = compactValue nCompact % 2 ^ 256 ∧
      ((setCompact nCompact).2.1 = true ↔
        compactValue nCompact ≠ 0 ∧ nCompact &&& 0x00800000#32 ≠ 0) ∧
      ((setCompact nCompact).2.2 = true ↔ 2 ^ 256 ≤ compactValue nCompact) :=
  ⟨getCompact_greatest, fun _ _ _ _ hab hc hd => getCompact_mono hab hc hd, setCompact_word⟩

/-- A mantissa that is shifted out is not negative, whatever its sign bit. -/
theorem setCompact_shifted_out :
    ¬∀ nCompact : BitVec 32, (setCompact nCompact).2.1 = true ↔
      nCompact &&& 0x007fffff#32 ≠ 0 ∧ nCompact &&& 0x00800000#32 ≠ 0 := by
  intro h
  exact absurd ((h 0x01803456#32).mpr (by decide)) (by decide)

end BaseUint

end Rcoin
