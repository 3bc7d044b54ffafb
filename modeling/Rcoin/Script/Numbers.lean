/-
  Bounds of script numbers: how large a number of a few bytes is, and how long the
  bytes of a number are (src/script/script.h).
-/
import Rcoin.Lib.Digits
import Rcoin.Script.Script

namespace Rcoin

open List

/-! ## Numbers of bytes -/

theorem ofLE_lt (bytes : List UInt8) : ofLE bytes < 256 ^ bytes.length := by
  induction bytes with
  | nil => exact Nat.one_pos
  | cons b bytes ih =>
    have hb := b.toNat_lt
    rw [ofLE, length_cons, Nat.pow_succ]
    omega

theorem ofLE_concat (bytes : List UInt8) (b : UInt8) :
    ofLE (bytes ++ [b]) = ofLE bytes + 256 ^ bytes.length * b.toNat := by
  induction bytes with
  | nil =>
    rw [nil_append, ofLE, ofLE, ofLE, length_nil, Nat.pow_zero, Nat.one_mul, Nat.mul_zero,
      Nat.add_zero, Nat.zero_add]
  | cons c bytes ih =>
    rw [cons_append, ofLE, ofLE, ih, length_cons, Nat.pow_succ]
    ring

theorem and_0x80 (b : UInt8) : (b &&& 0x80 != 0) = decide (128 ≤ b.toNat) := by
  have hall : ∀ c : UInt8, (c &&& 0x80 != 0) = decide (128 ≤ c.toNat) :=
    Digits.forall_uint8 (by decide +kernel)
  exact hall b

theorem xor_two_pow_lt {x m : Nat} (hle : 2 ^ m ≤ x) (hlt : x < 2 ^ (m + 1)) :
    x ^^^ 2 ^ m < 2 ^ m := by
  apply Nat.lt_pow_two_of_testBit
  intro i hi
  rw [Nat.testBit_xor, Nat.testBit_two_pow]
  rcases Nat.eq_or_lt_of_le hi with rfl | hmi
  · have hdiv : x / 2 ^ m = 1 := by
      exact Nat.div_eq_of_lt_le (by omega) (by omega)
    rw [Nat.testBit_eq_decide_div_mod_eq, hdiv]
    simp
  · have hpow : 2 ^ (m + 1) ≤ 2 ^ i := Nat.pow_le_pow_right (by omega) hmi
    rw [Nat.testBit_lt_two_pow (hlt.trans_le hpow), decide_eq_false (by omega)]
    rfl

theorem setVch_bounds {vch : Valtype} {n : Nat} (hlen : vch.length ≤ n) (hn : 0 < n) :
    -2 ^ (8 * n - 1) < setVch vch ∧ setVch vch < 2 ^ (8 * n - 1) := by
  have hsuffices : ∀ x : Nat, x < 2 ^ (8 * n - 1) → -2 ^ (8 * n - 1) < (x : Int) ∧
      -2 ^ (8 * n - 1) < -(x : Int) ∧ (x : Int) < 2 ^ (8 * n - 1) ∧
        -(x : Int) < 2 ^ (8 * n - 1) := by
    have hcast : ((2 ^ (8 * n - 1) : Nat) : Int) = 2 ^ (8 * n - 1) := by push_cast; rfl
    omega
  rcases List.eq_nil_or_concat vch with rfl | ⟨init, b, rfl⟩
  · have hzero := hsuffices 0 (Nat.two_pow_pos _)
    exact ⟨hzero.1, hzero.2.2.1⟩
  · rw [List.concat_eq_append] at hlen ⊢
    rw [length_append, length_singleton] at hlen
    have hinit := ofLE_lt init
    have hb := b.toNat_lt
    have hk : 256 ^ init.length = 2 ^ (8 * init.length) := by rw [Nat.pow_mul]
    have htop : 2 ^ (8 * init.length + 7) = 2 ^ (8 * init.length) * 128 := Nat.pow_add ..
    have hmono : 2 ^ (8 * init.length + 7) ≤ 2 ^ (8 * n - 1) :=
      Nat.pow_le_pow_right (by omega) (by omega)
    have hvalue := ofLE_concat init b
    rw [hk] at hinit hvalue
    rw [setVch, getLast?_concat, Option.any_some, and_0x80]
    split
    · next hsign =>
      have hsign' := of_decide_eq_true hsign
      have hmul : 2 ^ (8 * init.length) * 128 ≤ 2 ^ (8 * init.length) * b.toNat :=
        Nat.mul_le_mul_left _ hsign'
      have hmul' : 2 ^ (8 * init.length) * b.toNat ≤ 2 ^ (8 * init.length) * 255 :=
        Nat.mul_le_mul_left _ (by omega)
      have hshift : 0x80 <<< (8 * ((init ++ [b]).length - 1)) = 2 ^ (8 * init.length + 7) := by
        rw [length_append, length_singleton, Nat.add_sub_cancel, Nat.shiftLeft_eq, htop,
          Nat.mul_comm]
      have hclear := xor_two_pow_lt (x := ofLE (init ++ [b])) (m := 8 * init.length + 7)
        (by omega) (by omega)
      rw [hshift]
      have hall := hsuffices _ (hclear.trans_le hmono)
      exact ⟨hall.2.1, hall.2.2.2⟩
    · next hsign =>
      have hsign' : ¬128 ≤ b.toNat := fun hle => hsign (decide_eq_true hle)
      have hmul : 2 ^ (8 * init.length) * b.toNat ≤ 2 ^ (8 * init.length) * 127 :=
        Nat.mul_le_mul_left _ (by omega)
      have hall := hsuffices (ofLE (init ++ [b])) (by omega)
      exact ⟨hall.1, hall.2.2.1⟩

/-! ## The bytes of a number -/

theorem absBytes_length_le (fuel v : Nat) : (absBytes fuel v).length ≤ fuel := by
  induction fuel generalizing v with
  | zero => exact Nat.le_refl 0
  | succ fuel ih =>
    unfold absBytes
    split
    · exact Nat.zero_le _
    · exact Nat.succ_le_succ (ih _)

theorem ofLE_absBytes {fuel v : Nat} (h : v < 256 ^ fuel) : ofLE (absBytes fuel v) = v := by
  induction fuel generalizing v with
  | zero =>
    show 0 = v
    omega
  | succ fuel ih =>
    unfold absBytes
    split
    · rename_i hv
      exact hv.symm
    · have hdiv : v / 256 < 256 ^ fuel := by
        exact Nat.div_lt_of_lt_mul (by omega)
      rw [ofLE, ih hdiv, UInt8.toNat_ofNat']
      omega

theorem getvch_length_le (value : CScriptNum) : value.getvch.length ≤ 9 := by
  have hle := absBytes_length_le 8 value.natAbs
  rw [CScriptNum.getvch]
  split
  · exact Nat.zero_le _
  · next back below hrev =>
    have hlen := congrArg List.length hrev
    rw [length_reverse, length_cons] at hlen
    split
    · rw [length_append, length_singleton]
      omega
    · split
      · rw [length_reverse, length_cons]
        omega
      · omega

end Rcoin
