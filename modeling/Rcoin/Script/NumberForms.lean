/-
  `CScriptNum::serialize` and the constructor from bytes (src/script/script.h) as
  inverses: a number of 64 bits comes back from its bytes unless it is the least one,
  whose negation overflows, and the test for minimal bytes accepts exactly the bytes
  that are written for a number.
-/
import Rcoin.Script.Machine
import Rcoin.Script.Numbers

namespace Rcoin

open CScriptNum Machine Nat

/-! ## On machine numbers -/

/-- `serialize`; `-value` is computed as an `int64_t`. -/
def CScriptNum.serialize (value : Int64) : Except ScriptExit Valtype := do
  let _ ← if value.toInt < 0 then int64 (-value.toInt) else pure value.toInt
  return getvch value.toInt

/-- `set_vch`; a byte behind the eighth is shifted by 64 bits or more. -/
def setVch64 (vch : Valtype) : Except ScriptExit CScriptNum :=
  if vch.length ≤ 8 then .ok (setVch vch) else .error .undefined

/-! ## The bytes of the absolute value -/

theorem absBytes_ofLE {fuel : Nat} {l : List UInt8} (hlen : l.length ≤ fuel)
    (hlast : l.getLast? ≠ some 0) : absBytes fuel (ofLE l) = l := by
  induction l generalizing fuel with
  | nil => cases fuel <;> rfl
  | cons b l ih =>
    obtain ⟨fuel, rfl⟩ := exists_eq_add_one.mpr (lt_of_lt_of_le (succ_pos _) hlen)
    have hlast' : l.getLast? ≠ some 0 := by
      cases l with
      | nil => exact (nomatch ·)
      | cons c l => rwa [List.getLast?_cons_cons] at hlast
    have hrest := ih (le_of_succ_le_succ hlen) hlast'
    -- a number without bytes is zero, and the last byte is not
    have hne : ofLE (b :: l) ≠ 0 := by
      intro hzero
      rw [ofLE] at hzero
      have hb : b = 0 := UInt8.toNat_inj.mp (by show b.toNat = 0; omega)
      have hl : ofLE l = 0 := by omega
      rw [hl] at hrest
      have hnil : l = [] := by
        rw [← hrest]
        cases fuel <;> rfl
      rw [hb, hnil] at hlast
      exact hlast rfl
    have hlow : UInt8.ofNat (ofLE (b :: l)) = b := by
      apply UInt8.toNat_inj.mp
      have hb := b.toNat_lt
      rw [UInt8.toNat_ofNat', ofLE]
      omega
    have hhigh : ofLE (b :: l) / 256 = ofLE l := by
      have hb := b.toNat_lt
      rw [ofLE]
      omega
    rw [absBytes, if_neg hne, hlow, hhigh, hrest]

theorem getLast?_absBytes {fuel v : Nat} (h : v < 256 ^ fuel) :
    (absBytes fuel v).getLast? ≠ some 0 := by
  induction fuel generalizing v with
  | zero => exact (nomatch ·)
  | succ fuel ih =>
    have hdiv : v / 256 < 256 ^ fuel := by omega
    rw [absBytes]
    split
    · exact (nomatch ·)
    · next hne =>
      cases hbytes : absBytes fuel (v / 256) with
      | nil =>
        have hhigh := ofLE_absBytes hdiv
        rw [hbytes, ofLE] at hhigh
        rw [List.getLast?_singleton]
        intro hb
        have hb := congrArg UInt8.toNat (Option.some.inj hb)
        have hzero : v % 256 = 0 := hb
        omega
      | cons c l =>
        rw [List.getLast?_cons_cons, ← hbytes]
        exact ih hdiv

/-! ## Sign and magnitude -/

theorem two_pow_sign (n : Nat) : 2 ^ (8 * n + 7) = 256 ^ n * 128 := by
  rw [Nat.pow_add, Nat.pow_mul]

theorem setVch_concat (init : List UInt8) (b : UInt8) :
    setVch (init ++ [b]) =
      (if 128 ≤ b.toNat then -1 else 1) *
        ((ofLE init + 256 ^ init.length * (b.toNat % 128) : Nat) : Int) := by
  have hb := b.toNat_lt
  have hinit := ofLE_lt init
  rw [setVch, List.getLast?_concat, Option.any_some, and_0x80]
  by_cases hsign : 128 ≤ b.toNat
  · obtain ⟨low, hlow⟩ : ∃ low, b.toNat = low + 128 := ⟨b.toNat - 128, by omega⟩
    have hmod : b.toNat % 128 = low := by omega
    have hmag : ofLE init + 256 ^ init.length * low < 2 ^ (8 * init.length + 7) := by
      have hle : 256 ^ init.length * low ≤ 256 ^ init.length * 127 :=
        Nat.mul_le_mul_left _ (by omega)
      rw [two_pow_sign]
      omega
    have hshift : 0x80 <<< (8 * ((init ++ [b]).length - 1)) = 1 * 2 ^ (8 * init.length + 7) := by
      rw [List.length_append, List.length_singleton, Nat.add_sub_cancel, Nat.shiftLeft_eq,
        Nat.one_mul, Nat.pow_add, Nat.mul_comm]
    have hsum : ofLE (init ++ [b]) =
        1 * 2 ^ (8 * init.length + 7) + (ofLE init + 256 ^ init.length * low) := by
      rw [ofLE_concat, hlow, Nat.one_mul, two_pow_sign, Nat.mul_add]
      omega
    -- the mask takes the bit of the sign away
    rw [if_pos (decide_eq_true hsign), if_pos hsign, hshift, hsum, ← Digits.mul_xor_of_lt hmag,
      Nat.xor_comm (1 * _), Nat.xor_assoc, Nat.xor_self, Nat.xor_zero, hmod]
    exact (neg_one_mul _).symm
  · rw [if_neg (by rwa [decide_eq_true_eq]), if_neg hsign, ofLE_concat,
      Nat.mod_eq_of_lt (by omega)]
    exact (one_mul _).symm

theorem getvch_of_absBytes {value : CScriptNum} {init : List UInt8} {back : UInt8}
    (h : absBytes 8 value.natAbs = init ++ [back]) :
    value.getvch = if 128 ≤ back.toNat then init ++ [back] ++ [if value < 0 then 0x80 else 0]
      else if value < 0 then init ++ [back ||| 0x80] else init ++ [back] := by
  have hrev : (absBytes 8 value.natAbs).reverse = back :: init.reverse := by
    rw [h, List.reverse_append]
    rfl
  unfold getvch
  simp only [hrev]
  rw [and_0x80, h]
  by_cases hback : 128 ≤ back.toNat
  · rw [if_pos (decide_eq_true hback), if_pos hback]
    simp only [decide_eq_true_eq]
  · rw [if_neg (by rwa [decide_eq_true_eq]), if_neg hback]
    simp only [decide_eq_true_eq, List.reverse_cons, List.reverse_reverse]

theorem toNat_or_0x80 {b : UInt8} (h : b.toNat < 128) : (b ||| 0x80).toNat = b.toNat + 128 := by
  have hadd := two_pow_add_eq_or_of_lt (i := 7) h 1
  rw [UInt8.toNat_or, Nat.or_comm]
  exact hadd.symm.trans (add_comm ..)

theorem and_0x7f (b : UInt8) : (b &&& 0x7f == 0) = decide (b.toNat % 128 = 0) := by
  have hmod : (b &&& 0x7f).toNat = b.toNat % 128 := by
    exact and_two_pow_sub_one_eq_mod b.toNat 7
  rw [beq_eq_decide, decide_eq_decide, ← hmod]
  exact UInt8.toNat_inj.symm

theorem isMinimallyEncoded_concat (init : List UInt8) (b : UInt8) :
    isMinimallyEncoded (init ++ [b]) =
      (decide (b.toNat % 128 ≠ 0) || init.getLast?.any fun c => decide (128 ≤ c.toNat)) := by
  unfold isMinimallyEncoded
  rw [List.reverse_append]
  show (if b &&& 0x7f == 0 then init.reverse.head?.any _ else true) = _
  rw [and_0x7f, List.head?_reverse, decide_not]
  simp only [and_0x80]
  cases hzero : decide (b.toNat % 128 = 0) with
  | true => rfl
  | false => rfl

/-! ## Both ways -/

theorem exists_concat_of_absBytes {v : Nat} (h0 : v ≠ 0) (h : v < 256 ^ 8) :
    ∃ init back, absBytes 8 v = init ++ [back] ∧ back.toNat ≠ 0 ∧
      ofLE init + 256 ^ init.length * back.toNat = v := by
  have hvalue := ofLE_absBytes h
  have hlast := getLast?_absBytes h
  rcases List.eq_nil_or_concat (absBytes 8 v) with hnil | ⟨init, back, hconcat⟩
  · rw [hnil] at hvalue
    exact absurd hvalue.symm h0
  · rw [List.concat_eq_append] at hconcat
    rw [hconcat, List.getLast?_concat] at hlast
    rw [hconcat, ofLE_concat] at hvalue
    exact ⟨init, back, hconcat, fun hb => hlast (congrArg some (UInt8.toNat_inj.mp hb)), hvalue⟩

theorem setVch_getvch {value : Int} (h : value.natAbs < 256 ^ 8) :
    setVch (getvch value) = value ∧
      isMinimallyEncoded (getvch value) = true := by
  by_cases h0 : value = 0
  · rw [h0]
    exact ⟨rfl, rfl⟩
  have hneg_eq : value < 0 → -1 * (value.natAbs : Int) = value := by omega
  have hpos_eq : ¬value < 0 → 1 * (value.natAbs : Int) = value := by omega
  obtain ⟨init, back, hbytes, hback, hvalue⟩ :=
    exists_concat_of_absBytes (Int.natAbs_ne_zero.mpr h0) h
  rw [getvch_of_absBytes hbytes]
  by_cases hhigh : 128 ≤ back.toNat
  · -- a byte of its own for the sign
    rw [if_pos hhigh, setVch_concat, isMinimallyEncoded_concat, ofLE_concat, hvalue,
      List.getLast?_concat, Option.any_some, decide_eq_true hhigh, Bool.or_true]
    refine ⟨?_, rfl⟩
    by_cases hneg : value < 0
    · rw [if_pos hneg, if_pos (by decide)]
      exact hneg_eq hneg
    · rw [if_neg hneg, if_neg (by decide)]
      exact hpos_eq hneg
  rw [if_neg hhigh]
  by_cases hneg : value < 0
  · have hor : (back ||| 0x80).toNat = back.toNat + 128 := toNat_or_0x80 (by omega)
    have hmod : (back.toNat + 128) % 128 = back.toNat := by omega
    rw [if_pos hneg, setVch_concat, isMinimallyEncoded_concat, hor, hmod, hvalue,
      if_pos (le_add_left ..), decide_eq_true hback]
    exact ⟨hneg_eq hneg, rfl⟩
  · have hmod : back.toNat % 128 = back.toNat := by omega
    rw [if_neg hneg, setVch_concat, isMinimallyEncoded_concat, hmod, hvalue, if_neg hhigh,
      decide_eq_true hback]
    exact ⟨hpos_eq hneg, rfl⟩

theorem getvch_length_le_eight {value : Int} (h : value.natAbs < 256 ^ 7 * 128) :
    (getvch value).length ≤ 8 := by
  by_cases h0 : value = 0
  · rw [h0]
    exact zero_le _
  obtain ⟨init, back, hbytes, hback, hvalue⟩ :=
    exists_concat_of_absBytes (Int.natAbs_ne_zero.mpr h0) (by omega)
  have hlen := absBytes_length_le 8 value.natAbs
  rw [hbytes, List.length_append, List.length_singleton] at hlen
  rw [getvch_of_absBytes hbytes]
  by_cases hhigh : 128 ≤ back.toNat
  · have hshort : init.length ≠ 7 := by
      intro hseven
      rw [hseven] at hvalue
      omega
    rw [if_pos hhigh, List.length_append, List.length_append, List.length_singleton,
      List.length_singleton]
    omega
  · rw [if_neg hhigh]
    split <;>
    · rw [List.length_append, List.length_singleton]
      exact hlen

variable {vch : Valtype}

theorem getvch_setVch (hlen : vch.length ≤ 8) (h : isMinimallyEncoded vch = true)
    : (setVch vch).getvch = vch := by
  rcases List.eq_nil_or_concat vch with rfl | ⟨init, b, rfl⟩
  · rfl
  rw [List.concat_eq_append] at *
  rw [List.length_append, List.length_singleton] at hlen
  have hb := b.toNat_lt
  have hsign : ∀ x : Nat, x ≠ 0 →
      (((if 128 ≤ b.toNat then -1 else 1) * (x : Int)).natAbs = x) ∧
      ((if 128 ≤ b.toNat then -1 else 1) * (x : Int) < 0 ↔ 128 ≤ b.toNat) := by
    split <;> omega
  rw [isMinimallyEncoded_concat, Bool.or_eq_true, decide_eq_true_eq] at h
  rw [setVch_concat]
  by_cases hlow : b.toNat % 128 = 0
  · -- the byte is the sign alone, above a byte whose highest bit is set
    obtain ⟨c, hc, hchigh⟩ := (Option.any_eq_true ..).mp (h.resolve_left fun hne => hne hlow)
    have hchigh := of_decide_eq_true hchigh
    obtain ⟨init', rfl⟩ := List.getLast?_eq_some_iff.mp hc
    have hlast : (init' ++ [c]).getLast? ≠ some 0 := by
      rw [List.getLast?_concat]
      intro h0
      rw [Option.some.inj h0] at hchigh
      exact absurd hchigh (by decide)
    have hbytes := @absBytes_ofLE 8 _ (by omega) hlast
    have hne : ofLE (init' ++ [c]) ≠ 0 := by
      intro h0
      rw [h0] at hbytes
      cases init' <;> cases hbytes
    obtain ⟨habs, hneg⟩ := hsign _ hne
    rw [hlow, mul_zero, add_zero, getvch_of_absBytes (by rw [habs]; exact hbytes),
      if_pos hchigh]
    congr 2
    rw [if_congr hneg rfl rfl]
    apply UInt8.toNat_inj.mp
    split
    · show 128 = b.toNat
      omega
    · show 0 = b.toNat
      omega
  · obtain ⟨back, hback⟩ : ∃ back : UInt8, back.toNat = b.toNat % 128 :=
      ⟨UInt8.ofNat (b.toNat % 128), by rw [UInt8.toNat_ofNat']; omega⟩
    have hlast : (init ++ [back]).getLast? ≠ some 0 := by
      rw [List.getLast?_concat]
      intro h0
      rw [Option.some.inj h0] at hback
      exact hlow hback.symm
    have hbytes := @absBytes_ofLE 8 _
      (by rw [List.length_append, List.length_singleton]; exact hlen) hlast
    rw [ofLE_concat, hback] at hbytes
    have hne : ofLE init + 256 ^ init.length * (b.toNat % 128) ≠ 0 := by
      intro h0
      rw [h0] at hbytes
      cases init <;> cases hbytes
    obtain ⟨habs, hneg⟩ := hsign _ hne
    rw [getvch_of_absBytes (by rw [habs]; exact hbytes), if_neg (by omega), if_congr hneg rfl rfl]
    split
    · congr 2
      apply UInt8.toNat_inj.mp
      rw [toNat_or_0x80 (by omega)]
      omega
    · congr 2
      apply UInt8.toNat_inj.mp
      omega

/-! ## The claims of the class -/

theorem serialize_eq_ok {value : Int64} :
    serialize value = .ok (getvch value.toInt) ↔ value ≠ Int64.minValue := by
  have hlow := value.le_toInt
  have hmin : value = Int64.minValue ↔ value.toInt = -2 ^ 63 := by
    rw [← Int64.toInt_inj]
    rfl
  unfold serialize int64 int64Min int64Max
  rw [ne_eq, hmin]
  by_cases hneg : value.toInt < 0
  · rw [if_pos hneg]
    by_cases hmost : value.toInt = -2 ^ 63
    · rw [if_neg (by omega)]
      exact iff_of_false (nomatch ·) (not_not_intro hmost)
    · rw [if_pos (by omega)]
      exact iff_of_true rfl hmost
  · rw [if_neg hneg]
    exact iff_of_true rfl (by omega)

theorem scriptNum_eq_ok {nMaxNumSize : Nat} (hlen : vch.length ≤ nMaxNumSize) :
    (∃ n, scriptNum vch true nMaxNumSize = .ok n) ↔ isMinimallyEncoded vch = true := by
  unfold scriptNum Fallible.failIf
  rw [if_neg (by rw [decide_eq_true_eq]; exact not_lt.mpr hlen), Bool.true_and]
  cases isMinimallyEncoded vch with
  | true => exact iff_of_true ⟨_, rfl⟩ rfl
  | false => exact iff_of_false (fun ⟨_, h⟩ => nomatch h) (nomatch ·)

theorem exists_setVch64 (hlen : vch.length ≤ 7) :
    ∃ n : Int64, n ≠ Int64.minValue ∧ setVch vch = n.toInt := by
  obtain ⟨hlow, hhigh⟩ := setVch_bounds hlen (by decide)
  have hlow' : (-2 ^ 55 : Int) < setVch vch := hlow
  have hhigh' : (2 ^ 55 : Int) > setVch vch := hhigh
  have hofInt : (Int64.ofInt (setVch vch)).toInt = setVch vch := by
    rw [Int64.toInt_ofInt]
    apply Int.bmod_eq_of_le
    · show -((2 ^ 64 : Nat) : Int) / 2 ≤ _
      omega
    · show _ < (((2 ^ 64 : Nat) : Int) + 1) / 2
      omega
  refine ⟨Int64.ofInt (setVch vch), ?_, hofInt.symm⟩
  intro hmin
  rw [hmin] at hofInt
  have hleast : -2 ^ 63 = setVch vch := hofInt
  rw [← hleast] at hlow'
  exact absurd hlow' (by decide)

/-- A number comes back from its bytes unless it is the least one; and the constructor
    accepts as minimal exactly the bytes that are written for the number they stand for. -/
theorem scriptNum_exact (n : Int64) :
    ((∃ vch, serialize n = .ok vch ∧ setVch64 vch = .ok n.toInt) ↔ n ≠ Int64.minValue) ∧
    ∀ (nMaxNumSize : Nat) (vch : Valtype), nMaxNumSize = 4 ∨ nMaxNumSize = 5 →
      vch.length ≤ nMaxNumSize →
      ((∃ n, scriptNum vch true nMaxNumSize = .ok n) ↔
        ∃ n : Int64, setVch64 vch = .ok n.toInt ∧ serialize n = .ok vch) := by
  refine ⟨?_, fun nMaxNumSize vch hmax hlen => ?_⟩
  · constructor
    · rintro ⟨vch, hwrite, -⟩
      intro hmin
      rw [hmin] at hwrite
      cases hwrite
    · intro hne
      have hlow := n.le_toInt
      have hhigh := n.toInt_lt
      obtain ⟨hback, -⟩ := @setVch_getvch n.toInt (by omega)
      have hleast : n.toInt ≠ -2 ^ 63 := fun h => hne (Int64.toInt_inj.mp h)
      refine ⟨_, serialize_eq_ok.mpr hne, ?_⟩
      rw [setVch64, if_pos (getvch_length_le_eight (by omega)), hback]
  · rw [scriptNum_eq_ok hlen]
    have hshort : vch.length ≤ 7 := by omega
    obtain ⟨n, hne, hvalue⟩ := exists_setVch64 hshort
    have hread : setVch64 vch = .ok n.toInt := by
      rw [← hvalue]
      exact if_pos (by omega)
    constructor
    · intro hminimal
      refine ⟨n, hread, ?_⟩
      rw [serialize_eq_ok.mpr hne, ← hvalue, getvch_setVch (by omega) hminimal]
    · rintro ⟨n', hread', hwrite⟩
      have hsame := Except.ok.inj (hread.symm.trans hread')
      have hlow := n.le_toInt
      have hhigh := n.toInt_lt
      obtain ⟨-, hminimal⟩ := @setVch_getvch n.toInt (by omega)
      rw [← Int64.toInt_inj.mp hsame, serialize_eq_ok.mpr hne] at hwrite
      rwa [Except.ok.inj hwrite] at hminimal

theorem scriptNum_exact_one :
    (∃ vch, serialize 1 = .ok vch ∧ setVch64 vch = .ok (1 : Int64).toInt) ∧
      ∃ n, scriptNum [0x01] true 4 = .ok n :=
  ⟨(scriptNum_exact 1).1.mpr (by decide),
    ((scriptNum_exact 1).2 4 [0x01] (.inl rfl) (by decide)).mpr ⟨1, rfl, rfl⟩⟩

/-- The negation of the least number overflows. -/
theorem serialize_least_undefined :
    ¬∀ n : Int64, ∃ vch, serialize n = .ok vch ∧ setVch64 vch = .ok n.toInt := by
  intro h
  obtain ⟨vch, hwrite, -⟩ := h Int64.minValue
  cases hwrite

end Rcoin
