/-
  `ConvertBits` (src/utilstrencodings.h): the bits of a sequence are cut into groups of
  another width, and padded groups are cut back into what they were made of.
-/
import Rcoin.Lib.Digits

namespace Rcoin

open Digits List Nat

namespace ConvertBits

/-! ## The function -/

section

variable (frombits tobits : Nat)

/-- `while (bits >= tobits)`; every pass takes a bit at least. -/
def outLoop (acc : Nat) : Nat → Nat → List UInt8 × Nat
  | 0, bits => ([], bits)
  | fuel + 1, bits =>
    if bits ≥ tobits then
      let bits := bits - tobits
      let (out, rest) := outLoop acc fuel bits
      (UInt8.ofNat ((acc >>> bits) &&& (2 ^ tobits - 1)) :: out, rest)
    else ([], bits)

/-- `while (it != end)`; `acc` keeps as many bits as are looked at again, which fit a
    `size_t` also before they are masked. -/
def convertLoop : List UInt8 → Nat → Nat → List UInt8 × Nat × Nat
  | [], acc, bits => ([], acc, bits)
  | b :: it, acc, bits =>
    let acc := ((acc <<< frombits) ||| b.toNat) &&& (2 ^ (frombits + tobits - 1) - 1)
    let bits := bits + frombits
    let (out, bits) := outLoop tobits acc bits bits
    let (outs, acc, bits) := convertLoop it acc bits
    (out ++ outs, acc, bits)

/-- What is returned, and what `outfn` was called with. -/
def convertBits (pad : Bool) (it : List UInt8) : Bool × List UInt8 :=
  let (out, acc, bits) := convertLoop frombits tobits it 0 0
  let last := (acc <<< (tobits - bits)) &&& (2 ^ tobits - 1)
  if pad then (true, if bits ≠ 0 then out ++ [UInt8.ofNat last] else out)
  else (!(bits ≥ frombits || last ≠ 0), out)

end

/-! ## Shifts and masks -/

variable {x m : Nat}

variable {b t : Nat}

theorem shiftRight_mod (h : b + t ≤ m) : ((x % 2 ^ m) >>> b) % 2 ^ t = (x >>> b) % 2 ^ t := by
  apply eq_of_testBit_eq
  intro i
  simp only [testBit_mod_two_pow, testBit_shiftRight]
  by_cases hi : i < t
  · rw [decide_eq_true (by omega : b + i < m), Bool.true_and]
  · rw [decide_eq_false hi, Bool.false_and, Bool.false_and]

theorem shiftLeft_or_mod {f : Nat} (hb : b < 2 ^ f) :
    (((x % 2 ^ m) <<< f) ||| b) &&& (2 ^ m - 1) = (x * 2 ^ f + b) % 2 ^ m := by
  rw [and_two_pow_sub_one_eq_mod, shiftLeft_eq, mul_comm,
    ← two_pow_add_eq_or_of_lt hb, mul_comm]
  exact ((mod_modEq x _).mul_right _).add_right b

theorem append_shiftRight {f : Nat} (hb : b < 2 ^ f) (bits : Nat) :
    (x * 2 ^ f + b) >>> (bits + f) = x >>> bits := by
  rw [Nat.add_comm bits, Nat.shiftRight_add, Nat.shiftRight_eq_div_pow _ f, Nat.mul_comm,
    Nat.mul_add_div (Nat.two_pow_pos f), Nat.div_eq_of_lt hb, Nat.add_zero]

theorem toNat_ofNat_and (ht : t ≤ 8) (x : Nat) :
    (UInt8.ofNat (x &&& (2 ^ t - 1))).toNat = x % 2 ^ t := by
  have hle : 2 ^ t ≤ 2 ^ 8 := Nat.pow_le_pow_right (by decide) ht
  rw [Nat.and_two_pow_sub_one_eq_mod, UInt8.toNat_ofNat']
  omega

theorem shiftLeft_mask {p : Nat} (h : t ≤ m) :
    ((x % 2 ^ m) <<< p) &&& (2 ^ t - 1) = (x * 2 ^ p) % 2 ^ t := by
  rw [and_two_pow_sub_one_eq_mod, shiftLeft_eq]
  exact ((mod_modEq x _).of_dvd (pow_dvd_pow 2 h)).mul_right _

/-! ## The loops -/

section

variable {frombits tobits acc bits : Nat}

theorem outLoop_spec (hpos : 0 < tobits) (hle : tobits ≤ 8) (hacc : acc = x % 2 ^ m) {fuel : Nat}
    (hfuel : bits ≤ fuel) (hbits : bits ≤ m) (n : Nat) :
    ∃ out rest k, outLoop tobits acc fuel bits = (out, rest) ∧ rest < tobits ∧
      k * tobits + rest = n * tobits + bits ∧
      Digits.digits tobits n (x >>> bits) ++ out.map (·.toNat) =
        Digits.digits tobits k (x >>> rest) := by
  induction fuel generalizing bits n with
  | zero =>
    obtain rfl := le_zero.mp hfuel
    exact ⟨[], 0, n, rfl, hpos, rfl, append_nil _⟩
  | succ fuel ih =>
    rw [outLoop]
    by_cases hmore : bits ≥ tobits
    · have hless : bits - tobits ≤ fuel := by omega
      have hbits' : bits - tobits ≤ m := by omega
      obtain ⟨out, rest, k, hout, hrest, hk, hdigits⟩ := ih hless hbits' (n + 1)
      rw [Nat.succ_mul] at hk
      refine ⟨UInt8.ofNat ((acc >>> (bits - tobits)) &&& (2 ^ tobits - 1)) :: out, rest, k, ?_,
        hrest, by omega, ?_⟩
      · rw [if_pos hmore]
        simp only [hout]
      · have hgroup : (UInt8.ofNat ((acc >>> (bits - tobits)) &&& (2 ^ tobits - 1))).toNat =
            (x >>> (bits - tobits)) % 2 ^ tobits := by
          rw [toNat_ofNat_and hle, hacc, shiftRight_mod (by omega)]
        rw [← hdigits, digits_concat, ← Nat.shiftRight_add, Nat.sub_add_cancel hmore,
          map_cons, hgroup, append_assoc]
        rfl
    · exact ⟨[], bits, n, if_neg hmore, Nat.not_le.mp hmore, rfl, append_nil _⟩

variable {it : List UInt8}

theorem convertLoop_spec (hpos : 0 < tobits) (hle : tobits ≤ 8)
    (hit : ∀ b ∈ it, b.toNat < 2 ^ frombits) (hacc : acc = x % 2 ^ (frombits + tobits - 1))
    (hbits : bits < tobits) (n : Nat) :
    ∃ y out rest k, y = (it.map (·.toNat)).foldl (fun x d => x * 2 ^ frombits + d) x ∧
      convertLoop frombits tobits it acc bits =
        (out, y % 2 ^ (frombits + tobits - 1), rest) ∧ rest < tobits ∧
      k * tobits + rest = n * tobits + bits + frombits * it.length ∧
      Digits.digits tobits n (x >>> bits) ++ out.map (·.toNat) =
        Digits.digits tobits k (y >>> rest) := by
  induction it generalizing x acc bits n with
  | nil => exact ⟨x, [], bits, n, rfl, by rw [convertLoop, hacc], hbits, rfl, append_nil _⟩
  | cons b it ih =>
    rw [forall_mem_cons] at hit
    have hnext : ((acc <<< frombits) ||| b.toNat) &&& (2 ^ (frombits + tobits - 1) - 1) =
        (x * 2 ^ frombits + b.toNat) % 2 ^ (frombits + tobits - 1) := by
      rw [hacc, shiftLeft_or_mod hit.1]
    obtain ⟨out, mid, j, hout, hmid, hj, hdigits⟩ :=
      outLoop_spec hpos hle hnext (le_refl (bits + frombits)) (by omega) n
    obtain ⟨y, outs, rest, k, hy, houts, hrest, hk, hdigits'⟩ := ih hit.2 hnext hmid j
    refine ⟨y, out ++ outs, rest, k, hy, ?_, hrest, ?_, ?_⟩
    · rw [convertLoop]
      simp only [hout, houts]
    · rw [length_cons, mul_succ]
      omega
    · rw [← hdigits', ← hdigits, append_shiftRight hit.1, map_append, append_assoc]

theorem convertBits_pad (hfrom : 0 < frombits) (hpos : 0 < tobits) (hle : tobits ≤ 8)
    (hit : ∀ b ∈ it, b.toNat < 2 ^ frombits) :
    ∃ k padding, padding < tobits ∧ k * tobits = frombits * it.length + padding ∧
      (convertBits frombits tobits true it).2.map (·.toNat) = Digits.digits tobits k
        (Digits.ofDigits frombits (it.map (·.toNat)) * 2 ^ padding) := by
  obtain ⟨y, out, rest, k, hy, hout, hrest, hk, hdigits⟩ :=
    convertLoop_spec hpos hle hit (zero_mod _).symm hpos 0
  have hy : y = Digits.ofDigits frombits (it.map (·.toNat)) := hy
  unfold convertBits
  simp only [hout, if_true, ne_eq]
  by_cases hzero : rest = 0
  · rw [hzero] at hdigits
    refine ⟨k, 0, hpos, by omega, ?_⟩
    rw [if_neg (not_not_intro hzero), pow_zero, mul_one, ← hy]
    exact hdigits
  · have hfill : (y * 2 ^ (tobits - rest)) >>> tobits = y >>> rest := by
      obtain ⟨fill, hfill⟩ : ∃ fill, tobits = rest + fill := ⟨tobits - rest, by omega⟩
      rw [hfill, Nat.add_sub_cancel_left]
      exact append_shiftRight (b := 0) (Nat.two_pow_pos fill) rest
    refine ⟨k + 1, tobits - rest, by omega, ?_, ?_⟩
    · rw [succ_mul]
      omega
    · rw [if_pos hzero, map_append, digits_concat, ← hy, hfill, map_singleton,
        toNat_ofNat_and hle, ← and_two_pow_sub_one_eq_mod, shiftLeft_mask (by omega)]
      exact congrArg (· ++ _) hdigits

theorem map_toNat_injective {l l' : List UInt8} (h : l.map (·.toNat) = l'.map (·.toNat)) :
    l = l' :=
  map_injective_iff.mpr (fun _ _ => UInt8.toNat_inj.mp) h

theorem lt_of_mem_convertBits (hfrom : 0 < frombits) (hpos : 0 < tobits) (hle : tobits ≤ 8)
    (hit : ∀ b ∈ it, b.toNat < 2 ^ frombits) {b : UInt8}
    (hb : b ∈ (convertBits frombits tobits true it).2) : b.toNat < 2 ^ tobits := by
  obtain ⟨k, padding, -, -, hdigits⟩ := convertBits_pad hfrom hpos hle hit
  have hmem := mem_map_of_mem (f := (·.toNat)) hb
  rw [hdigits] at hmem
  exact lt_of_mem_digits hmem

theorem convertBits_convertBits (hpos : 0 < tobits) (hle : tobits ≤ frombits) (hfrom : frombits ≤ 8)
    (hit : ∀ b ∈ it, b.toNat < 2 ^ frombits) :
    convertBits tobits frombits false (convertBits frombits tobits true it).2 = (true, it) := by
  have hfpos : 0 < frombits := Nat.lt_of_lt_of_le hpos hle
  obtain ⟨k, padding, hpadding, hk, hdigits⟩ :=
    convertBits_pad hfpos hpos (Nat.le_trans hle hfrom) hit
  have hgroup : ∀ b ∈ (convertBits frombits tobits true it).2, b.toNat < 2 ^ tobits := fun b =>
    lt_of_mem_convertBits hfpos hpos (Nat.le_trans hle hfrom) hit
  generalize (convertBits frombits tobits true it).2 = out at hdigits hgroup ⊢
  have hlen : out.length = k := by
    have hlen := congrArg List.length hdigits
    rwa [List.length_map, Digits.length_digits] at hlen
  have hvalues : ∀ d ∈ it.map (·.toNat), d < 2 ^ frombits := by
    rw [List.forall_mem_map]
    exact hit
  obtain ⟨x, hx⟩ : ∃ x, x = Digits.ofDigits frombits (it.map (·.toNat)) := ⟨_, rfl⟩
  have hxlt : x < 2 ^ (frombits * it.length) := by
    rw [hx, ← List.length_map fun b : UInt8 => b.toNat]
    exact ofDigits_lt hvalues
  obtain ⟨y, back, rest, n, hy, hback, hrest, hn, hbytes⟩ :=
    convertLoop_spec hfpos hfrom hgroup (Nat.zero_mod _).symm hfpos 0
  have hy : y = x * 2 ^ padding := by
    rw [hy, hdigits, ← hx]
    refine ofDigits_digits_of_lt ?_
    rw [Nat.mul_comm tobits, hk, Nat.pow_add]
    exact Nat.mul_lt_mul_of_pos_right hxlt (Nat.two_pow_pos _)
  rw [hlen, Nat.zero_mul, Nat.zero_add, Nat.mul_comm tobits, hk] at hn
  -- less than a byte is left over, so the number of bytes is the one there was
  have hcount : n = it.length ∧ rest = padding := by
    rw [Nat.mul_comm n, Nat.add_comm] at hn
    obtain ⟨hdiv, hmod⟩ := (Nat.div_mod_unique hfpos).mpr ⟨hn, hrest⟩
    obtain ⟨hdiv', hmod'⟩ := (Nat.div_mod_unique hfpos).mpr
      ⟨Nat.add_comm padding _, Nat.lt_of_lt_of_le hpadding hle⟩
    exact ⟨hdiv.symm.trans hdiv', hmod.symm.trans hmod'⟩
  obtain ⟨rfl, rfl⟩ := hcount
  have hit' : back = it := by
    apply map_toNat_injective
    have hshift : y >>> rest = x := by
      rw [hy, Nat.shiftRight_eq_div_pow, Nat.mul_div_cancel _ (Nat.two_pow_pos _)]
    rw [hshift, hx, ← List.length_map fun b : UInt8 => b.toNat,
      digits_ofDigits hvalues] at hbytes
    exact hbytes
  have hnone : (y * 2 ^ (frombits - rest)) % 2 ^ frombits = 0 := by
    rw [hy, Nat.mul_assoc, ← Nat.pow_add, Nat.add_sub_cancel' (by omega), Nat.mul_mod_left]
  rw [convertBits]
  simp only [hback, shiftLeft_mask (by omega : frombits ≤ tobits + frombits - 1), hnone, hit']
  simp [hpadding]

theorem convertBits_of_valid (hpos : 0 < frombits) (hle : frombits ≤ tobits) (hto : tobits ≤ 8)
    {out : List UInt8} (hit : ∀ b ∈ it, b.toNat < 2 ^ frombits)
    (h : convertBits frombits tobits false it = (true, out)) :
    (convertBits tobits frombits true out).2 = it := by
  have htpos : 0 < tobits := Nat.lt_of_lt_of_le hpos hle
  obtain ⟨y, back, rest, k, hy, hback, hrest, hk, hdigits⟩ :=
    convertLoop_spec htpos hto hit (Nat.zero_mod _).symm htpos 0
  have hy : y = Digits.ofDigits frombits (it.map (·.toNat)) := hy
  rw [convertBits] at h
  simp only [hback, shiftLeft_mask (by omega : tobits ≤ frombits + tobits - 1),
    Bool.false_eq_true, if_false, Prod.mk.injEq, Bool.not_eq_true', Bool.or_eq_false_iff,
    decide_eq_false_iff_not, ne_eq, Decidable.not_not, ge_iff_le, not_le] at h
  obtain ⟨⟨hless, hzero⟩, rfl⟩ := h
  have hdigits : back.map (·.toNat) = Digits.digits tobits k (y >>> rest) := hdigits
  -- the bits that are left over are none of the number
  have hshift : y >>> rest * 2 ^ rest = y := by
    have hdvd : 2 ^ rest * 2 ^ (tobits - rest) ∣ y * 2 ^ (tobits - rest) := by
      rw [← Nat.pow_add, Nat.add_sub_cancel' (by omega)]
      exact Nat.dvd_of_mod_eq_zero hzero
    rw [Nat.shiftRight_eq_div_pow]
    exact Nat.div_mul_cancel (Nat.dvd_of_mul_dvd_mul_right (Nat.two_pow_pos _) hdvd)
  have hvalues : ∀ d ∈ it.map (·.toNat), d < 2 ^ frombits := by
    rw [List.forall_mem_map]
    exact hit
  have hylt : y < 2 ^ (frombits * it.length) := by
    rw [hy, ← List.length_map fun b : UInt8 => b.toNat]
    exact ofDigits_lt hvalues
  have hlen : back.length = k := by
    have hlen := congrArg List.length hdigits
    rwa [List.length_map, Digits.length_digits] at hlen
  have hbytes : ∀ b ∈ back, b.toNat < 2 ^ tobits := by
    intro b hb
    have hmem : b.toNat ∈ back.map (·.toNat) := mem_map_of_mem hb
    rw [hdigits] at hmem
    exact lt_of_mem_digits hmem
  obtain ⟨n, padding, hpadding, hn, hgroups⟩ := convertBits_pad htpos hpos (by omega) hbytes
  rw [Nat.zero_mul, Nat.zero_add] at hk
  rw [hlen, Nat.mul_comm tobits] at hn
  have hcount : n = it.length ∧ padding = rest := by
    have hsum : rest + frombits * n = padding + frombits * it.length := by
      rw [Nat.mul_comm frombits n]
      omega
    obtain ⟨hdiv, hmod⟩ := (Nat.div_mod_unique hpos).mpr ⟨hsum, hless⟩
    obtain ⟨hdiv', hmod'⟩ := (Nat.div_mod_unique hpos).mpr ⟨rfl, hpadding⟩
    exact ⟨hdiv.symm.trans hdiv', hmod'.symm.trans hmod⟩
  obtain ⟨rfl, rfl⟩ := hcount
  apply map_toNat_injective
  rw [hgroups, hdigits, ofDigits_digits_of_lt, hshift, hy,
    ← List.length_map fun b : UInt8 => b.toNat, digits_ofDigits hvalues]
  rw [Nat.shiftRight_eq_div_pow, Nat.div_lt_iff_lt_mul (Nat.two_pow_pos _), ← Nat.pow_add,
    Nat.mul_comm tobits, hk]
  exact hylt

end

end ConvertBits

end Rcoin
