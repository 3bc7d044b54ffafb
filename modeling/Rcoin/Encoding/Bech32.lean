/-
  Bech32: a human-readable part, a separator and a string of 5-bit values, the last six of which
  are a checksum.

  Source: src/bech32.cpp.  A `char` is its byte.
-/
import Rcoin.Lib.Digits

namespace Rcoin

open BitVec Digits List Nat

namespace Bech32

def CHARSET : List UInt8 :=
  "qpzry9x8gf2tvdw0s3jn54khce6mua7l".toList.map fun c => c.toNat.toUInt8

def CHARSET_REV : List Int :=
  [-1, -1, -1, -1, -1, -1, -1, -1, -1, -1, -1, -1, -1, -1, -1, -1,
   -1, -1, -1, -1, -1, -1, -1, -1, -1, -1, -1, -1, -1, -1, -1, -1,
   -1, -1, -1, -1, -1, -1, -1, -1, -1, -1, -1, -1, -1, -1, -1, -1,
   15, -1, 10, 17, 21, 20, 26, 30,  7,  5, -1, -1, -1, -1, -1, -1,
   -1, 29, -1, 24, 13, 25,  9,  8, 23, -1, 18, 22, 31, 27, 19, -1,
    1,  0,  3, 16, 11, 28, 12, 14,  6,  4,  2, -1, -1, -1, -1, -1,
   -1, 29, -1, 24, 13, 25,  9,  8, 23, -1, 18, 22, 31, 27, 19, -1,
    1,  0,  3, 16, 11, 28, 12, 14,  6,  4,  2, -1, -1, -1, -1, -1]

/-! ## The checksum -/

/-- One round of `PolyMod`. -/
def polyStep (c : BitVec 32) (v_i : UInt8) : BitVec 32 :=
  let c0 := (c >>> 25).setWidth 8
  let c := ((c &&& 0x1ffffff#32) <<< 5) ^^^ v_i.toBitVec.setWidth 32
  -- for each set bit n in c0, conditionally add {2^n}k(x)
  let c := if c0 &&& 1#8 ≠ 0 then c ^^^ 0x3b6a57b2#32 else c
  let c := if c0 &&& 2#8 ≠ 0 then c ^^^ 0x26508e6d#32 else c
  let c := if c0 &&& 4#8 ≠ 0 then c ^^^ 0x1ea119fa#32 else c
  let c := if c0 &&& 8#8 ≠ 0 then c ^^^ 0x3d4233dd#32 else c
  if c0 &&& 16#8 ≠ 0 then c ^^^ 0x2a1462b3#32 else c

def polyMod (v : List UInt8) : BitVec 32 := v.foldl polyStep 1

def lowerCase (c : UInt8) : UInt8 := if 65 ≤ c ∧ c ≤ 90 then c - 65 + 97 else c

/-- `ExpandHRP`: the high bits of every character, a zero, and the low bits. -/
def expandHRP (hrp : List UInt8) : List UInt8 :=
  hrp.map (fun c => c >>> (5 : UInt8)) ++ 0 :: hrp.map fun c => c &&& (0x1f : UInt8)

def verifyChecksum (hrp values : List UInt8) : Bool := polyMod (expandHRP hrp ++ values) == 1

def createChecksum (hrp values : List UInt8) : List UInt8 :=
  let mod := polyMod (expandHRP hrp ++ values ++ List.replicate 6 0) ^^^ 1
  -- Convert the 5-bit groups in mod to checksum values.
  (range 6).map fun i => ((mod >>> (5 * (5 - i))) &&& 31#32).toNat.toUInt8

/-! ## Strings -/

/-- `CHARSET[c]`, of a value of 5 bits. -/
def charsetChar (c : UInt8) : UInt8 := CHARSET.getD c.toNat 0

def encode (hrp values : List UInt8) : List UInt8 :=
  hrp ++ 49 :: (values ++ createChecksum hrp values).map charsetChar

/-- The value of a character; `none` when there is none. -/
def charsetRev (c : UInt8) : Option UInt8 :=
  let rev := if c < 33 ∨ c > 126 then -1 else CHARSET_REV.getD c.toNat (-1)
  if rev = -1 then none else some rev.toNat.toUInt8

/-- `str.rfind(c)`. -/
def rfind (c : UInt8) (str : List UInt8) : Option Nat :=
  (str.reverse.idxOf? c).map fun i => str.length - 1 - i

/-- `Decode`; an empty human-readable part means failure. -/
def decode (str : List UInt8) : List UInt8 × List UInt8 :=
  let lower := str.any fun c => decide (97 ≤ c ∧ c ≤ 122)
  let upper := str.any fun c => decide (65 ≤ c ∧ c ≤ 90)
  if str.any fun c => decide (c < 33 ∨ c > 126) then ([], [])
  else if lower && upper then ([], [])
  else
    match rfind 49 str with
    | none => ([], [])
    | some pos =>
      if str.length > 90 ∨ pos = 0 ∨ pos + 7 > str.length then ([], [])
      else
        match (str.drop (pos + 1)).mapM charsetRev with
        | none => ([], [])
        | some values =>
          let hrp := (str.take pos).map lowerCase
          if verifyChecksum hrp values then (hrp, values.take (values.length - 6)) else ([], [])

/-! ## PolyMod is linear -/

/-- The round without an input: the polynomial is multiplied by `x`. -/
def shiftPoly (c : BitVec 32) : BitVec 32 := polyStep c 0

/-- `k` if the bit is set. -/
def pick (b : Bool) (k : BitVec 32) : BitVec 32 := if b then k else 0

theorem pick_xor (a b : Bool) (k : BitVec 32) : pick (a ^^ b) k = pick a k ^^^ pick b k := by
  cases a <;> cases b <;> simp [pick]

theorem xor_pick (x : BitVec 32) (b : Bool) (k : BitVec 32) :
    (if b = true then x ^^^ k else x) = x ^^^ pick b k := by
  cases b <;> simp [pick]

theorem bit_iff (x : BitVec 8) : (x &&& 1#8 ≠ 0 ↔ x.getLsbD 0 = true) ∧
    (x &&& 2#8 ≠ 0 ↔ x.getLsbD 1 = true) ∧ (x &&& 4#8 ≠ 0 ↔ x.getLsbD 2 = true) ∧
    (x &&& 8#8 ≠ 0 ↔ x.getLsbD 3 = true) ∧ (x &&& 16#8 ≠ 0 ↔ x.getLsbD 4 = true) := by
  revert x
  decide +kernel

variable (c : BitVec 32)

theorem polyStep_eq_pick (v_i : UInt8) :
    polyStep c v_i = ((c &&& 0x1ffffff#32) <<< 5) ^^^ v_i.toBitVec.setWidth 32 ^^^
      pick (c.getLsbD 25) 0x3b6a57b2#32 ^^^ pick (c.getLsbD 26) 0x26508e6d#32 ^^^
      pick (c.getLsbD 27) 0x1ea119fa#32 ^^^ pick (c.getLsbD 28) 0x3d4233dd#32 ^^^
      pick (c.getLsbD 29) 0x2a1462b3#32 := by
  obtain ⟨h0, h1, h2, h3, h4⟩ := bit_iff ((c >>> 25).setWidth 8)
  simp only [polyStep, h0, h1, h2, h3, h4, xor_pick, getLsbD_setWidth,
    getLsbD_ushiftRight]
  rfl

theorem polyStep_eq (v_i : UInt8) : polyStep c v_i = shiftPoly c ^^^ v_i.toBitVec.setWidth 32 := by
  rw [shiftPoly, polyStep_eq_pick, polyStep_eq_pick]
  have hzero : (0 : UInt8).toBitVec.setWidth 32 = 0#32 := rfl
  ac_rfl

theorem xor_and_distrib (a b m : BitVec 32) : (a ^^^ b) &&& m = (a &&& m) ^^^ (b &&& m) := by
  ext i
  simp only [getElem_and, getElem_xor, Bool.and_xor_distrib_right]

theorem shiftPoly_xor (a b : BitVec 32) :
    shiftPoly (a ^^^ b) = shiftPoly a ^^^ shiftPoly b := by
  have hzero : (0 : UInt8).toBitVec.setWidth 32 = 0#32 := rfl
  simp only [shiftPoly, polyStep_eq_pick, hzero, BitVec.xor_zero, getLsbD_xor, pick_xor,
    xor_and_distrib, BitVec.shiftLeft_xor_distrib]
  ac_rfl

theorem polyStep_lt {v_i : UInt8} (hv : v_i < 32) : (polyStep c v_i).toNat < 2 ^ 30 := by
  have hpick : ∀ (b : Bool) (k : BitVec 32), k.toNat < 2 ^ 30 → (pick b k).toNat < 2 ^ 30 := by
    intro b k hk
    cases b
    · exact Nat.two_pow_pos 30
    · exact hk
  have hv32 : v_i.toNat < 32 := UInt8.lt_iff_toNat_lt.mp hv
  have hlow : (c &&& 0x1ffffff#32).toNat < 2 ^ 25 := by
    exact lt_of_le_of_lt and_le_right (by decide)
  rw [polyStep_eq_pick]
  refine xor_lt_two_pow (xor_lt_two_pow (xor_lt_two_pow (xor_lt_two_pow
    (xor_lt_two_pow (xor_lt_two_pow ?_ ?_) ?_) ?_) ?_) ?_) ?_
  · rw [BitVec.toNat_shiftLeft, Nat.shiftLeft_eq]
    omega
  · rw [toNat_setWidth]
    exact lt_of_le_of_lt (mod_le _ _) (lt_trans hv32 (by decide))
  all_goals exact hpick _ _ (by decide)

theorem shiftPoly_small {c : BitVec 32} (hc : c.toNat < 2 ^ 25) :
    (shiftPoly c).toNat = c.toNat * 2 ^ 5 := by
  have hbit : ∀ n, 25 ≤ n → c.getLsbD n = false := by
    intro n hn
    exact Nat.testBit_lt_two_pow (lt_of_lt_of_le hc (Nat.pow_le_pow_right (by decide) hn))
  have hmask : c &&& 0x1ffffff#32 = c := by
    apply eq_of_toNat_eq
    rw [toNat_and, show (0x1ffffff#32).toNat = 2 ^ 25 - 1 from rfl,
      and_two_pow_sub_one_eq_mod, mod_eq_of_lt hc]
  have hzero : (0 : UInt8).toBitVec.setWidth 32 = 0#32 := rfl
  rw [shiftPoly, polyStep_eq_pick, hmask, hzero, hbit 25 (by decide), hbit 26 (by decide),
    hbit 27 (by decide), hbit 28 (by decide), hbit 29 (by decide)]
  simp only [pick, Bool.false_eq_true, if_false, BitVec.xor_zero, ofNat_eq_ofNat]
  rw [BitVec.toNat_shiftLeft, Nat.shiftLeft_eq]
  omega

/-- The values as one number. -/
def packed (vs : List UInt8) : Nat := Digits.ofDigits 5 (vs.map (·.toNat))

variable {vs : List UInt8}

theorem packed_lt (h : ∀ v ∈ vs, v < 32) : packed vs < 2 ^ (5 * vs.length) := by
  rw [packed, ← length_map (f := fun v : UInt8 => v.toNat)]
  refine ofDigits_lt fun d hd => ?_
  obtain ⟨v, hv, rfl⟩ := mem_map.mp hd
  exact UInt8.lt_iff_toNat_lt.mp (h v hv)

theorem foldl_polyStep (hlen : vs.length ≤ 6) (h : ∀ v ∈ vs, v < 32) :
    vs.foldl polyStep c = shiftPoly^[vs.length] c ^^^ BitVec.ofNat 32 (packed vs) := by
  induction vs using reverseRecOn with
  | nil => exact (BitVec.xor_zero).symm
  | append_singleton vs v ih =>
    rw [length_append, length_singleton] at hlen ⊢
    have hvs : ∀ v ∈ vs, v < 32 := fun x hx => h x (mem_append_left _ hx)
    have hv : v.toNat < 2 ^ 5 := UInt8.lt_iff_toNat_lt.mp (h v (by simp))
    have hlt : packed vs < 2 ^ 25 :=
      lt_of_lt_of_le (packed_lt hvs) (Nat.pow_le_pow_right (by decide) (by omega))
    have hpacked : packed (vs ++ [v]) = packed vs * 2 ^ 5 + v.toNat := by
      rw [packed, map_append, map_singleton, Digits.ofDigits_concat]
      rfl
    have hnat : (BitVec.ofNat 32 (packed vs)).toNat = packed vs := by
      rw [toNat_ofNat]
      omega
    -- multiplying by x leaves room for the next value
    have hnext : shiftPoly (BitVec.ofNat 32 (packed vs)) ^^^ v.toBitVec.setWidth 32 =
        BitVec.ofNat 32 (packed (vs ++ [v])) := by
      apply eq_of_toNat_eq
      have hsmall := shiftPoly_small (hnat.trans_lt hlt)
      have hv' : (v.toBitVec.setWidth 32).toNat = v.toNat := by
        rw [toNat_setWidth]
        exact mod_eq_of_lt (lt_trans hv (by decide))
      rw [toNat_xor, hsmall, hnat, hv', toNat_ofNat, hpacked, mul_xor_of_lt hv]
      omega
    rw [foldl_append, ih (by omega) hvs, foldl_cons, foldl_nil, polyStep_eq,
      shiftPoly_xor, xor_assoc, hnext, Function.iterate_succ_apply']

theorem iterate_shiftPoly_lt (n : Nat) : (shiftPoly^[n + 1] c).toNat < 2 ^ 30 := by
  rw [Function.iterate_succ_apply']
  exact polyStep_lt _ (by decide)

/-! ## The checksum is the one that is verified -/

/-- The remainder that the checksum makes one. -/
def remainder (hrp values : List UInt8) : Nat :=
  (shiftPoly^[6] (polyMod (expandHRP hrp ++ values)) ^^^ 1).toNat

variable (hrp values : List UInt8)

theorem remainder_lt : remainder hrp values < 2 ^ 30 := by
  exact xor_lt_two_pow (iterate_shiftPoly_lt _ 5) (by decide)

theorem createChecksum_eq :
    (createChecksum hrp values).map (·.toNat) = Digits.digits 5 6 (remainder hrp values) := by
  have hsmall : ∀ v ∈ replicate 6 (0 : UInt8), v < 32 := by
    intro v hv
    rw [eq_of_mem_replicate hv]
    decide
  have hzeros : polyMod (expandHRP hrp ++ values ++ List.replicate 6 0) =
      shiftPoly^[6] (polyMod (expandHRP hrp ++ values)) := by
    rw [polyMod, foldl_append, foldl_polyStep _ (by decide) hsmall]
    exact xor_zero
  rw [digits_eq_map, createChecksum, map_map, hzeros]
  refine map_congr_left fun i hi => ?_
  have hmask : ((shiftPoly^[6] (polyMod (expandHRP hrp ++ values)) ^^^ 1) >>> (5 * (5 - i)) &&&
      31#32).toNat = remainder hrp values >>> (5 * (6 - i - 1)) % 2 ^ 5 := by
    rw [toNat_and, toNat_ushiftRight, show (31#32).toNat = 2 ^ 5 - 1 from rfl,
      and_two_pow_sub_one_eq_mod, remainder, show 6 - i - 1 = 5 - i by omega]
  have hlt : remainder hrp values >>> (5 * (6 - i - 1)) % 2 ^ 5 < 2 ^ 5 :=
    Nat.mod_lt _ (Nat.two_pow_pos 5)
  rw [Function.comp_apply, hmask]
  exact mod_eq_of_lt (lt_trans hlt (by decide))

theorem lt_of_mem_createChecksum {hrp values : List UInt8} {v : UInt8}
    (h : v ∈ createChecksum hrp values) : v < 32 := by
  have hmem : v.toNat ∈ (createChecksum hrp values).map (·.toNat) := mem_map_of_mem h
  rw [createChecksum_eq] at hmem
  exact UInt8.lt_iff_toNat_lt.mpr (lt_of_mem_digits hmem)

theorem length_createChecksum : (createChecksum hrp values).length = 6 := by
  rw [createChecksum, length_map, length_range]

theorem verifyChecksum_iff {six : List UInt8} (hlen : six.length = 6) (h : ∀ v ∈ six, v < 32) :
    verifyChecksum hrp (values ++ six) = true ↔ six = createChecksum hrp values := by
  have hlt := packed_lt h
  have hrem := remainder_lt hrp values
  rw [hlen] at hlt
  -- six values of five bits are the digits of one number
  have hpacked : packed six = remainder hrp values ↔ six = createChecksum hrp values := by
    constructor
    · intro heq
      refine map_injective_iff.mpr (fun a b hab => UInt8.toNat_inj.mp hab) ?_
      rw [createChecksum_eq, ← heq, packed]
      have hdigits : ∀ d ∈ six.map (·.toNat), d < 2 ^ 5 := by
        intro d hd
        obtain ⟨v, hv, rfl⟩ := List.mem_map.mp hd
        exact UInt8.lt_iff_toNat_lt.mp (h v hv)
      have hsix := Digits.digits_ofDigits hdigits
      rw [length_map, hlen] at hsix
      exact hsix.symm
    · rintro rfl
      rw [packed, createChecksum_eq]
      exact ofDigits_digits_of_lt hrem
  rw [← hpacked, verifyChecksum, beq_iff_eq, ← List.append_assoc, polyMod, foldl_append,
    foldl_polyStep _ hlen.le h, hlen, ← polyMod, ← BitVec.toNat_inj, remainder]
  have hnat : (BitVec.ofNat 32 (packed six)).toNat = packed six := by
    rw [BitVec.toNat_ofNat]
    omega
  -- the checksum is what makes the remainder `1`
  generalize shiftPoly^[6] (polyMod (expandHRP hrp ++ values)) = r
  rw [BitVec.toNat_inj]
  constructor
  · intro hone
    rw [← hone, ← BitVec.xor_assoc, BitVec.xor_self, BitVec.zero_xor, hnat]
  · intro heq
    have hofNat : BitVec.ofNat 32 (packed six) = r ^^^ 1 :=
      BitVec.eq_of_toNat_eq (hnat.trans heq)
    rw [hofNat, ← BitVec.xor_assoc, BitVec.xor_self, BitVec.zero_xor]

/-! ## Characters -/

theorem charsetChar_spec : ∀ v : UInt8, v < 32 → charsetRev (charsetChar v) = some v ∧
    33 ≤ charsetChar v ∧ charsetChar v ≤ 126 ∧ charsetChar v ≠ 49 ∧
    ¬(65 ≤ charsetChar v ∧ charsetChar v ≤ 90) :=
  forall_uint8 (by decide +kernel)

theorem charsetRev_spec : ∀ c v : UInt8, charsetRev c = some v →
    v < 32 ∧ charsetChar v = lowerCase c := by
  -- as a Boolean test the kernel looks at the one value only
  have h : ∀ c : UInt8,
      (charsetRev c).all (fun v => decide (v < 32 ∧ charsetChar v = lowerCase c)) = true :=
    forall_uint8 (by decide +kernel)
  intro c v hv
  have hc := h c
  rw [hv] at hc
  exact of_decide_eq_true hc

theorem mapM_charsetRev {l : List UInt8} (h : l.mapM charsetRev = some vs) :
    (∀ v ∈ vs, v < 32) ∧ vs.map charsetChar = l.map lowerCase := by
  induction l generalizing vs with
  | nil =>
    cases h
    exact ⟨nofun, rfl⟩
  | cons c l ih =>
    rw [mapM_cons] at h
    obtain ⟨v, hv, h⟩ := Option.bind_eq_some_iff.mp h
    obtain ⟨vs', hvs', h⟩ := Option.bind_eq_some_iff.mp h
    cases h
    obtain ⟨hlt, hchar⟩ := charsetRev_spec c v hv
    obtain ⟨hlts, hmap⟩ := ih hvs'
    refine ⟨fun x hx => ?_, by rw [map_cons, map_cons, hchar, hmap]⟩
    rcases mem_cons.mp hx with rfl | hx
    · exact hlt
    · exact hlts x hx

theorem mapM_charsetChar (h : ∀ v ∈ vs, v < 32) :
    (vs.map charsetChar).mapM charsetRev = some vs := by
  induction vs with
  | nil => rfl
  | cons v vs ih =>
    rw [map_cons, mapM_cons, (charsetChar_spec v (h v mem_cons_self)).1,
      ih fun x hx => h x (mem_cons_of_mem _ hx)]
    rfl

theorem not_upper_of_lowerCase : ∀ c : UInt8, lowerCase c = c → ¬(65 ≤ c ∧ c ≤ 90) :=
  forall_uint8 (by decide +kernel)

theorem rfind_append {c : UInt8} (a : List UInt8) {b : List UInt8} (h : c ∉ b) :
    rfind c (a ++ c :: b) = some a.length := by
  have hidx : (b.reverse ++ c :: a.reverse).idxOf? c = some b.length := by
    have hlen : b.length < (b.reverse ++ c :: a.reverse).length := by simp
    refine idxOf?_eq_some_iff.mpr ⟨hlen, ?_, fun j hj heq => h ?_⟩
    · rw [getElem_append_right (by simp)]
      simp
    · rw [getElem_append_left (by simpa using hj)] at heq
      exact mem_reverse.mp (heq ▸ getElem_mem _)
  rw [rfind, List.reverse_append, reverse_cons, List.append_assoc, singleton_append,
    hidx, Option.map_some, length_append, length_cons]
  congr 1
  omega

variable {str : List UInt8}

theorem eq_of_rfind {c : UInt8} {pos : Nat} (h : rfind c str = some pos) :
    str = str.take pos ++ c :: str.drop (pos + 1) := by
  obtain ⟨i, hi, rfl⟩ := Option.map_eq_some_iff.mp h
  obtain ⟨hlt, hc, -⟩ := idxOf?_eq_some_iff.mp hi
  rw [length_reverse] at hlt
  rw [List.getElem_reverse] at hc
  conv_lhs => rw [← take_append_drop (str.length - 1 - i) str]
  rw [drop_eq_getElem_cons (by omega), hc]

/-! ## Round trips -/

theorem decode_ok (h : (decode str).1 ≠ []) :
    ∃ pos values, str = str.take pos ++ 49 :: str.drop (pos + 1) ∧ pos + 7 ≤ str.length ∧
      (str.drop (pos + 1)).mapM charsetRev = some values ∧
      verifyChecksum ((str.take pos).map lowerCase) values = true ∧
      decode str = ((str.take pos).map lowerCase, values.take (values.length - 6)) := by
  rw [decode] at h ⊢
  dsimp only at h ⊢
  split at h
  · exact absurd rfl h
  next hrange =>
    rw [if_neg hrange]
    split at h
    · exact absurd rfl h
    next hcase =>
      rw [if_neg hcase]
      split at h
      · exact absurd rfl h
      next pos hpos =>
        split at h
        · exact absurd rfl h
        next hsize =>
          split at h
          · exact absurd rfl h
          next values hvalues =>
            split at h
            next hverify =>
              -- every test has passed; the checksum is cut off
              refine ⟨pos, values, eq_of_rfind hpos, by omega, hvalues, hverify, ?_⟩
              simp only [if_neg hsize, if_pos hverify]
            next => exact absurd rfl h

theorem encode_decode (h : (decode str).1 ≠ []) :
    encode (decode str).1 (decode str).2 = str.map lowerCase := by
  obtain ⟨pos, values, hstr, hlen, hvalues, hverify, hdecode⟩ := decode_ok h
  obtain ⟨hlt, hmap⟩ := mapM_charsetRev hvalues
  have hlength : values.length = str.length - (pos + 1) := by
    have := congrArg length hmap
    rwa [length_map, length_map, length_drop] at this
  -- the last six values can only be the checksum
  have hsplit := take_append_drop (values.length - 6) values
  have hsix : (values.drop (values.length - 6)).length = 6 := by
    rw [length_drop]
    omega
  rw [← hsplit, verifyChecksum_iff _ _ hsix fun v hv => hlt v (mem_of_mem_drop hv)] at hverify
  rw [hdecode, encode, ← hverify, hsplit, hmap]
  conv_rhs => rw [hstr]
  rw [map_append, map_cons]
  rfl

theorem decode_encode {hrp values : List UInt8} (hne : hrp ≠ [])
    (hhrp : ∀ c ∈ hrp, lowerCase c = c ∧ 33 ≤ c ∧ c ≤ 126) (hvalues : ∀ v ∈ values, v < 32)
    (hlen : (encode hrp values).length ≤ 90) : decode (encode hrp values) = (hrp, values) := by
  have hall : ∀ v ∈ values ++ createChecksum hrp values, v < 32 := by
    intro v hv
    rcases mem_append.mp hv with hv | hv
    · exact hvalues v hv
    · exact lt_of_mem_createChecksum hv
  -- every character of the encoding is in range and not of upper case
  have hchar : ∀ c ∈ encode hrp values, 33 ≤ c ∧ c ≤ 126 ∧ ¬(65 ≤ c ∧ c ≤ 90) := by
    intro c hc
    rcases mem_append.mp hc with hc | hc
    · exact ⟨(hhrp c hc).2.1, (hhrp c hc).2.2, not_upper_of_lowerCase c (hhrp c hc).1⟩
    · rcases mem_cons.mp hc with rfl | hc
      · decide
      · obtain ⟨v, hv, rfl⟩ := List.mem_map.mp hc
        obtain ⟨-, hlow, hhigh, -, hcase⟩ := charsetChar_spec v (hall v hv)
        exact ⟨hlow, hhigh, hcase⟩
  have hrange : ((encode hrp values).any fun c => decide (c < 33 ∨ c > 126)) = false := by
    rw [List.any_eq_false]
    intro c hc
    obtain ⟨hlow, hhigh, -⟩ := hchar c hc
    rw [decide_eq_true_eq]
    rintro (h | h)
    · exact absurd hlow (UInt8.not_le.mpr h)
    · exact absurd hhigh (UInt8.not_le.mpr h)
  have hupper : ((encode hrp values).any fun c => decide (65 ≤ c ∧ c ≤ 90)) = false := by
    rw [List.any_eq_false]
    intro c hc
    rw [decide_eq_true_eq]
    exact (hchar c hc).2.2
  have hsep : (49 : UInt8) ∉ (values ++ createChecksum hrp values).map charsetChar := by
    intro hmem
    obtain ⟨v, hv, heq⟩ := List.mem_map.mp hmem
    exact (charsetChar_spec v (hall v hv)).2.2.2.1 heq
  have hpos : hrp.length ≠ 0 := fun h0 => hne (length_eq_zero_iff.mp h0)
  have hdata : (values ++ createChecksum hrp values).length = values.length + 6 := by
    rw [length_append, length_createChecksum]
  have hlength : (encode hrp values).length = hrp.length + (values.length + 6 + 1) := by
    rw [encode, length_append, length_cons, length_map, hdata]
  have hlower : hrp.map lowerCase = hrp :=
    (map_congr_left fun c hc => (hhrp c hc).1).trans (List.map_id _)
  have hverify := (verifyChecksum_iff hrp values (length_createChecksum hrp values)
    fun v hv => lt_of_mem_createChecksum hv).mpr rfl
  have hsize : ¬((encode hrp values).length > 90 ∨ hrp.length = 0 ∨
      hrp.length + 7 > (encode hrp values).length) := by omega
  have hfind : rfind 49 (encode hrp values) = some hrp.length := rfind_append hrp hsep
  have hdrop : (encode hrp values).drop (hrp.length + 1) =
      (values ++ createChecksum hrp values).map charsetChar := by
    rw [encode, ← drop_drop, drop_left]
    rfl
  have htake : (encode hrp values).take hrp.length = hrp := take_left
  rw [decode]
  simp only [hrange, hupper, Bool.and_false, Bool.false_eq_true, if_false, hfind, if_neg hsize,
    hdrop, htake, mapM_charsetChar hall, hlower, if_pos hverify, hdata, Nat.add_sub_cancel,
    take_left]

/-- Bech32 in both directions. -/
theorem bech32_exact :
    (∀ hrp values : List UInt8, hrp ≠ [] →
      (∀ c ∈ hrp, lowerCase c = c ∧ 33 ≤ c ∧ c ≤ 126) → (∀ v ∈ values, v < 32) →
      (encode hrp values).length ≤ 90 → decode (encode hrp values) = (hrp, values)) ∧
    ∀ str : List UInt8, (decode str).1 ≠ [] →
      encode (decode str).1 (decode str).2 = str.map lowerCase :=
  ⟨fun _ _ => decode_encode, fun _ => encode_decode⟩

/-- `RC11QL3P5CKZZDD`. -/
def capitals : List UInt8 :=
  [82, 67, 49, 49, 81, 76, 51, 80, 53, 67, 75, 90, 90, 68, 68]

/-- "rc1", with a separator in it, and five values; and the string in capitals. -/
theorem bech32_exact_rc1 :
    decode (encode [114, 99, 49] [0, 31, 17, 1, 20]) = ([114, 99, 49], [0, 31, 17, 1, 20]) ∧
      encode (decode capitals).1 (decode capitals).2 = capitals.map lowerCase :=
  ⟨bech32_exact.1 [114, 99, 49] [0, 31, 17, 1, 20] (by decide) (by decide +kernel)
      (by decide +kernel) (by decide +kernel),
    bech32_exact.2 capitals (by decide +kernel)⟩

/-- A space has no upper case, and is encoded, but not decoded. -/
theorem space_not_decoded : ¬∀ hrp values : List UInt8, hrp ≠ [] →
    (∀ c ∈ hrp, lowerCase c = c) → (∀ v ∈ values, v < 32) →
    (encode hrp values).length ≤ 90 → decode (encode hrp values) = (hrp, values) := by
  intro h
  exact absurd (h [32] [] (by decide) (forall_mem_singleton.mpr rfl)
    (forall_mem_nil _) (by decide +kernel)) (by decide +kernel)

end Bech32

end Rcoin
