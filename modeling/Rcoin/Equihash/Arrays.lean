/-
  `ExpandArray`, `CompressArray` and the index conversions of
  src/crypto/equihash.cpp.  Both array functions cut a string of bits anew; in
  terms of numbers, the bytes on one side and the elements on the other are the
  big-endian digits of one number.

  The accumulators are `uint32_t`: values are kept modulo `2 ^ 32`.  Two asserts
  of the source (`bit_len >= 8`, `32 >= 7 + bit_len`) are hypotheses of the
  results; the third fixes the size of the output buffer, which here is the
  length of the result.
-/
import Rcoin.Lib.Digits

namespace Rcoin

open Digits List Nat UInt8

/-! ## `ExpandArray` -/

/-- The state of `ExpandArray`'s loop; `out` is what was written so far. -/
structure ExpandState where
  acc_bits : Nat
  acc_value : Nat
  out : List UInt8

/-- The bytes of one output element behind the padding: the `bit_len` bits above
    the `acc_bits` low bits of the accumulator. -/
def expandElement (bit_len acc_bits acc_value : Nat) : List UInt8 :=
  let width := (bit_len + 7) / 8
  let bit_len_mask := (1 <<< bit_len) - 1
  (List.range width).map fun x =>
    -- big-endian; the mask is applied across byte boundaries
    ofNat ((acc_value >>> (acc_bits + 8 * (width - x - 1))) &&&
      ((bit_len_mask >>> (8 * (width - x - 1))) &&& 0xFF))

def expandStep (bit_len byte_pad : Nat) (s : ExpandState) (byte : UInt8) : ExpandState :=
  let acc_value := ((s.acc_value <<< 8) ||| byte.toNat) % 2 ^ 32
  let acc_bits := s.acc_bits + 8
  if acc_bits ≥ bit_len then
    { acc_bits := acc_bits - bit_len
      acc_value := acc_value
      out := s.out ++ List.replicate byte_pad 0 ++
        expandElement bit_len (acc_bits - bit_len) acc_value }
  else { s with acc_bits := acc_bits, acc_value := acc_value }

def expandArray (bit_len byte_pad : Nat) (input : List UInt8) : List UInt8 :=
  (input.foldl (expandStep bit_len byte_pad) ⟨0, 0, []⟩).out

/-! ## `CompressArray` -/

/-- The accumulators of `CompressArray`. -/
structure CompressState where
  acc_bits : Nat
  acc_value : Nat
  /-- The input from position `j` on. -/
  input : List UInt8
  out : List UInt8

/-- The next input element, without its padding. -/
def readElement (bit_len byte_pad : Nat) (input : List UInt8) : Nat :=
  let width := (bit_len + 7) / 8
  let bit_len_mask := (1 <<< bit_len) - 1
  (List.range width).foldl (fun acc x =>
    acc ||| (((input.getD (byte_pad + x) 0).toNat &&&
      ((bit_len_mask >>> (8 * (width - x - 1))) &&& 0xFF)) <<< (8 * (width - x - 1)))) 0

def compressStep (bit_len byte_pad : Nat) (s : CompressState) (_i : Nat) : CompressState :=
  let s' :=
    if s.acc_bits < 8 then
      { s with
        acc_value := ((s.acc_value <<< bit_len) % 2 ^ 32) ||| readElement bit_len byte_pad s.input
        input := s.input.drop ((bit_len + 7) / 8 + byte_pad)
        acc_bits := s.acc_bits + bit_len }
    else s
  { s' with
    acc_bits := s'.acc_bits - 8
    out := s'.out ++ [ofNat ((s'.acc_value >>> (s'.acc_bits - 8)) &&& 0xFF)] }

def compressArray (bit_len byte_pad out_len : Nat) (input : List UInt8) : List UInt8 :=
  ((List.range out_len).foldl (compressStep bit_len byte_pad) ⟨0, 0, input, []⟩).out

/-! ## Indices -/

/-- `sizeof(eh_index)`. -/
def sizeofIndex : Nat := 4

/-- Big-endian bytes of a 32-bit index. -/
def ehIndexToArray (i : Nat) : List UInt8 := (Digits.digits 8 sizeofIndex i).map ofNat

def arrayToEhIndex (array : List UInt8) : Nat := Digits.ofDigits 8 ((array.take sizeofIndex).map toNat)

/-- The index without its `ilen - 8` low bits, as one byte. -/
def truncateIndex (i ilen : Nat) : UInt8 := ofNat ((i >>> (ilen - 8)) &&& 0xff)

def untruncateIndex (t : UInt8) (r ilen : Nat) : Nat := (t.toNat <<< (ilen - 8)) ||| r

/-- The bytes of the array four at a time, as indices. -/
def arrayIndices (array : List UInt8) : List Nat :=
  (List.range (array.length / sizeofIndex)).map fun i => arrayToEhIndex (array.drop (sizeofIndex * i))

def getIndicesFromMinimal (minimal : List UInt8) (cBitLen : Nat) : List Nat :=
  let bytePad := sizeofIndex - ((cBitLen + 1) + 7) / 8
  arrayIndices (expandArray (cBitLen + 1) bytePad minimal)

/-- `GetIndices` of a row, and `GetMinimalFromIndices`: the indices as bytes,
    compressed. -/
def getMinimalFromIndices (indices : List Nat) (cBitLen : Nat) : List UInt8 :=
  let lenIndices := indices.length * sizeofIndex
  let minLen := (cBitLen + 1) * lenIndices / (8 * sizeofIndex)
  let bytePad := sizeofIndex - ((cBitLen + 1) + 7) / 8
  compressArray (cBitLen + 1) bytePad minLen (indices.flatMap ehIndexToArray)

/-! ## `ExpandArray` writes the digits of its input -/

/-- The bytes of an element, without padding. -/
def element (bit_len v : Nat) : List UInt8 := (Digits.digits 8 ((bit_len + 7) / 8) v).map ofNat

/-- The number whose big-endian bytes are given. -/
def ofBytes (bytes : List UInt8) : Nat := Digits.ofDigits 8 (bytes.map toNat)

theorem ofBytes_concat (bytes : List UInt8) (b : UInt8) :
    ofBytes (bytes ++ [b]) = ofBytes bytes * 2 ^ 8 + b.toNat := by
  rw [ofBytes, List.map_append, map_singleton, ofDigits_concat]
  rfl

theorem ofBytes_lt (bytes : List UInt8) : ofBytes bytes < 2 ^ (8 * bytes.length) := by
  have hbytes : ∀ d ∈ bytes.map toNat, d < 2 ^ 8 := by
    intro d hd
    obtain ⟨b, -, rfl⟩ := List.mem_map.mp hd
    exact b.toNat_lt
  have h := ofDigits_lt hbytes
  rwa [length_map] at h

theorem expandElement_eq (bit_len acc_bits acc_value : Nat) :
    expandElement bit_len acc_bits acc_value =
      element bit_len ((acc_value >>> acc_bits) % 2 ^ bit_len) := by
  unfold expandElement element
  rw [digits_eq_map, List.map_map]
  apply map_congr_left
  intro x _
  have hmask : (0xFF : Nat) = 2 ^ 8 - 1 := rfl
  rw [Function.comp_apply, Nat.shiftRight_add, ← Nat.and_assoc, ← shiftRight_and_distrib,
    one_shiftLeft, and_two_pow_sub_one_eq_mod, hmask, and_two_pow_sub_one_eq_mod]

theorem bits_of_mod {a c : Nat} (h : a + c ≤ 32) (x : Nat) :
    ((x % 2 ^ 32) >>> a) % 2 ^ c = (x >>> a) % 2 ^ c := by
  have hsplit : (2 : Nat) ^ 32 = 2 ^ a * 2 ^ (32 - a) := by
    rw [← Nat.pow_add]
    congr 1
    omega
  rw [Nat.shiftRight_eq_div_pow, Nat.shiftRight_eq_div_pow, hsplit, mod_mul_right_div_self,
    mod_mod_of_dvd]
  exact Nat.pow_dvd_pow 2 (by omega)

theorem shift_or_byte (x : Nat) (b : UInt8) :
    (((x % 2 ^ 32) <<< 8) ||| b.toNat) % 2 ^ 32 = (x * 2 ^ 8 + b.toNat) % 2 ^ 32 := by
  rw [← shiftLeft_add_eq_or_of_lt b.toNat_lt, Nat.shiftLeft_eq]
  omega

/-- What the loop of `ExpandArray` has done after some input bytes: the
    accumulator ends in their bits, of which `acc_bits` are not written yet. -/
structure Expanded (bit_len byte_pad : Nat) (bytes : List UInt8) (m : Nat) (s : ExpandState) :
    Prop where
  bits : 8 * bytes.length = bit_len * m + s.acc_bits
  bits_lt : s.acc_bits < bit_len
  value : s.acc_value = ofBytes bytes % 2 ^ 32
  out : s.out = (Digits.digits bit_len m (ofBytes bytes >>> s.acc_bits)).flatMap fun v =>
    List.replicate byte_pad 0 ++ element bit_len v

variable {bit_len byte_pad : Nat} {bytes : List UInt8}

theorem Expanded.step (h8 : 8 ≤ bit_len) (h25 : bit_len ≤ 25) {m : Nat} {s : ExpandState}
    (h : Expanded bit_len byte_pad bytes m s) (b : UInt8) :
    ∃ m', Expanded bit_len byte_pad (bytes ++ [b]) m' (expandStep bit_len byte_pad s b) := by
  have hvalue : ((s.acc_value <<< 8) ||| b.toNat) % 2 ^ 32 = ofBytes (bytes ++ [b]) % 2 ^ 32 := by
    rw [h.value, shift_or_byte, ofBytes_concat]
  have hlen : 8 * (bytes ++ [b]).length = bit_len * m + (s.acc_bits + 8) := by
    rw [length_append, length_singleton, Nat.mul_add, h.bits, Nat.add_assoc]
  -- the bits that were written are those above the new byte and the pending bits
  have hold : ofBytes (bytes ++ [b]) >>> (s.acc_bits + 8) = ofBytes bytes >>> s.acc_bits := by
    have hdiv : (ofBytes bytes * 2 ^ 8 + b.toNat) >>> 8 = ofBytes bytes := by
      have hb : b.toNat < 2 ^ 8 := b.toNat_lt
      omega
    rw [ofBytes_concat, Nat.add_comm s.acc_bits 8, Nat.shiftRight_add, hdiv]
  have hlt := h.bits_lt
  unfold expandStep
  simp only [hvalue]
  by_cases hge : s.acc_bits + 8 ≥ bit_len
  · rw [if_pos hge]
    refine ⟨m + 1, ?_, ?_, rfl, ?_⟩
    · rw [hlen, Nat.mul_succ]
      show _ = bit_len * m + bit_len + (s.acc_bits + 8 - bit_len)
      omega
    · show s.acc_bits + 8 - bit_len < bit_len
      omega
    · show s.out ++ List.replicate byte_pad 0 ++ _ = _
      have hshift : (ofBytes (bytes ++ [b]) >>> (s.acc_bits + 8 - bit_len)) >>> bit_len =
          ofBytes bytes >>> s.acc_bits := by
        rw [← Nat.shiftRight_add, ← hold]
        congr 1
        omega
      rw [digits_concat, hshift, flatMap_append, ← h.out, flatMap_singleton,
        expandElement_eq, bits_of_mod (by omega), append_assoc]
  · rw [if_neg hge]
    refine ⟨m, hlen, Nat.lt_of_not_le hge, rfl, ?_⟩
    rw [hold]
    exact h.out

theorem expandArray_digits (h8 : 8 ≤ bit_len) (h25 : bit_len ≤ 25) (byte_pad : Nat)
    (bytes : List UInt8) :
    expandArray bit_len byte_pad bytes = (Digits.digits bit_len (8 * bytes.length / bit_len)
      (ofBytes bytes >>> (8 * bytes.length % bit_len))).flatMap fun v =>
        List.replicate byte_pad 0 ++ element bit_len v := by
  have hrun : ∀ bs : List UInt8, ∃ m, Expanded bit_len byte_pad bs m
      (bs.foldl (expandStep bit_len byte_pad) ⟨0, 0, []⟩) := by
    intro bs
    induction bs using List.reverseRecOn with
    | nil => exact ⟨0, rfl, Nat.lt_of_lt_of_le (show 0 < 8 by decide) h8, rfl, rfl⟩
    | append_singleton bs b ih =>
      obtain ⟨m, hm⟩ := ih
      rw [foldl_append]
      exact hm.step h8 h25 b
  obtain ⟨m, hm⟩ := hrun bytes
  have hdiv : 8 * bytes.length / bit_len = m := by
    rw [hm.bits, Nat.mul_add_div (by omega), Nat.div_eq_of_lt hm.bits_lt, Nat.add_zero]
  have hmod : 8 * bytes.length % bit_len =
      (bytes.foldl (expandStep bit_len byte_pad) ⟨0, 0, []⟩).acc_bits := by
    rw [hm.bits, Nat.mul_add_mod, Nat.mod_eq_of_lt hm.bits_lt]
  rw [hdiv, hmod, expandArray, hm.out]

theorem expandArray_eq (h8 : 8 ≤ bit_len) (h25 : bit_len ≤ 25) (byte_pad : Nat) {n : Nat}
    (hlen : 8 * bytes.length = bit_len * n) :
    expandArray bit_len byte_pad bytes = (Digits.digits bit_len n (ofBytes bytes)).flatMap fun v =>
      List.replicate byte_pad 0 ++ element bit_len v := by
  rw [expandArray_digits h8 h25, hlen, Nat.mul_div_cancel_left _ (by omega), Nat.mul_mod_right,
    Nat.shiftRight_zero]

/-! ## `CompressArray` writes the digits of its elements -/

theorem foldl_or_bytes (v width n : Nat) (hn : n ≤ width) (hv : v < 2 ^ (8 * width)) :
    (List.range n).foldl (fun acc x => acc |||
      (((v >>> (8 * (width - x - 1))) % 2 ^ 8) <<< (8 * (width - x - 1)))) 0 =
      (v >>> (8 * (width - n))) <<< (8 * (width - n)) := by
  induction n with
  | zero =>
    rw [Nat.sub_zero, Nat.shiftRight_eq_div_pow, Nat.div_eq_of_lt hv, Nat.zero_shiftLeft]
    rfl
  | succ n ih =>
    have hs : 8 * (width - n) = 8 + 8 * (width - n - 1) := by omega
    have hsub : width - (n + 1) = width - n - 1 := by omega
    rw [List.range_succ, foldl_append, ih (by omega), foldl_cons, foldl_nil, hsub]
    generalize 8 * (width - n - 1) = k at hs ⊢
    -- the byte joins the ones above it
    have hjoin : (((v >>> k) >>> 8) <<< 8) ||| (v >>> k) % 2 ^ 8 = v >>> k := by
      rw [← shiftLeft_add_eq_or_of_lt (Nat.mod_lt _ (by decide)), Nat.shiftLeft_eq,
        Nat.shiftRight_eq_div_pow (v >>> k)]
      exact div_add_mod' _ _
    rw [hs, Nat.add_comm 8 k, Nat.shiftRight_add, Nat.add_comm k 8, Nat.shiftLeft_add,
      ← shiftLeft_or_distrib, hjoin]

theorem length_ehIndexToArray (i : Nat) : (ehIndexToArray i).length = sizeofIndex := by
  rw [ehIndexToArray, length_map, Digits.length_digits]

theorem readElement_eq (hpad : byte_pad + (bit_len + 7) / 8 = sizeofIndex) (i : Nat)
    (rest : List UInt8) :
    readElement bit_len byte_pad (ehIndexToArray i ++ rest) = i % 2 ^ bit_len := by
  have hlt : i % 2 ^ bit_len < 2 ^ (8 * ((bit_len + 7) / 8)) :=
    Nat.lt_of_lt_of_le (Nat.mod_lt _ (Nat.two_pow_pos _))
      (Nat.pow_le_pow_right (by decide) (by omega))
  have hfold := foldl_or_bytes (i % 2 ^ bit_len) ((bit_len + 7) / 8) _ le_rfl hlt
  rw [Nat.sub_self, Nat.mul_zero, Nat.shiftRight_zero, Nat.shiftLeft_zero] at hfold
  refine Eq.trans ?_ hfold
  apply foldl_ext
  intro acc x hx
  rw [mem_range] at hx
  -- byte `byte_pad + x` of the index, under the mask
  have hmem : byte_pad + x < sizeofIndex := by omega
  have hbyte : (ehIndexToArray i ++ rest).getD (byte_pad + x) 0 =
      ofNat ((i >>> (8 * ((bit_len + 7) / 8 - x - 1))) % 2 ^ 8) := by
    have hidx : sizeofIndex - (byte_pad + x) - 1 = (bit_len + 7) / 8 - x - 1 := by omega
    rw [getD_eq_getElem?_getD,
      getElem?_append_left (by rw [length_ehIndexToArray]; exact hmem), ehIndexToArray,
      digits_eq_map, List.map_map, getElem?_map, getElem?_range hmem, Option.map_some,
      Option.getD_some, Function.comp_apply, hidx]
  have htoNat : ∀ y : Nat, (ofNat (y % 2 ^ 8)).toNat = y % 2 ^ 8 := by
    intro y
    exact toNat_ofNat_of_lt' (Nat.mod_lt _ (by decide))
  have hmask : (0xFF : Nat) = 2 ^ 8 - 1 := rfl
  rw [hbyte, htoNat]
  rw [hmask, and_two_pow_sub_one_eq_mod, ← and_mod_two_pow, ← shiftRight_and_distrib,
    one_shiftLeft, and_two_pow_sub_one_eq_mod]

theorem shift_or_element {d : Nat} (hd : d < 2 ^ bit_len) (h25 : bit_len ≤ 25) (x : Nat) :
    ((((x % 2 ^ 32) <<< bit_len) % 2 ^ 32) ||| d) = (x * 2 ^ bit_len + d) % 2 ^ 32 := by
  have hd32 : d < 2 ^ 32 := Nat.lt_of_lt_of_le hd (Nat.pow_le_pow_right (by decide) (by omega))
  have hshift : ((x % 2 ^ 32) <<< bit_len) % 2 ^ 32 = (x <<< bit_len) % 2 ^ 32 := by
    rw [Nat.shiftLeft_eq, Nat.shiftLeft_eq, Nat.mod_mul_mod]
  rw [hshift, ← Nat.shiftLeft_eq, shiftLeft_add_eq_or_of_lt hd, or_mod_two_pow,
    Nat.mod_eq_of_lt hd32]

/-- What the loop of `CompressArray` has done after some output bytes: `j`
    elements are read, and `acc_bits` of their bits are not written yet. -/
structure Compressed (bit_len : Nat) (es : List Nat) (n : Nat) (j : Nat) (s : CompressState) :
    Prop where
  read : j ≤ es.length
  bits : bit_len * j = 8 * n + s.acc_bits
  bits_lt : s.acc_bits < bit_len
  value : s.acc_value = Digits.ofDigits bit_len (es.take j) % 2 ^ 32
  input : s.input = (es.drop j).flatMap ehIndexToArray
  out : s.out = (Digits.digits 8 n (Digits.ofDigits bit_len (es.take j) >>> s.acc_bits)).map ofNat

theorem Compressed.step (h8 : 8 ≤ bit_len) (h25 : bit_len ≤ 25)
    (hpad : byte_pad + (bit_len + 7) / 8 = sizeofIndex) {es : List Nat}
    (hes : ∀ e ∈ es, e < 2 ^ bit_len) {n j : Nat} (hn : 8 * (n + 1) ≤ bit_len * es.length)
    {s : CompressState} (h : Compressed bit_len es n j s) (i : Nat) :
    ∃ j', Compressed bit_len es (n + 1) j' (compressStep bit_len byte_pad s i) := by
  -- after the read, if there is one, at least one byte is pending
  obtain ⟨s', hs', j', hread, hbits, hge, hlt, hvalue, hinput, hout⟩ : ∃ s',
      (if s.acc_bits < 8 then
        { s with
          acc_value := ((s.acc_value <<< bit_len) % 2 ^ 32) ||| readElement bit_len byte_pad s.input
          input := s.input.drop ((bit_len + 7) / 8 + byte_pad)
          acc_bits := s.acc_bits + bit_len }
      else s) = s' ∧ ∃ j', j' ≤ es.length ∧ bit_len * j' = 8 * n + s'.acc_bits ∧
        8 ≤ s'.acc_bits ∧ s'.acc_bits < bit_len + 8 ∧
        s'.acc_value = Digits.ofDigits bit_len (es.take j') % 2 ^ 32 ∧
        s'.input = (es.drop j').flatMap ehIndexToArray ∧
        s'.out = (Digits.digits 8 n (Digits.ofDigits bit_len (es.take j') >>> s'.acc_bits)).map ofNat := by
    by_cases hfew : s.acc_bits < 8
    · rw [if_pos hfew]
      have hjlt : j < es.length := by
        by_contra hj
        have hbits := h.bits
        have hjeq : j = es.length := Nat.le_antisymm h.read (Nat.le_of_not_lt hj)
        rw [hjeq] at hbits
        omega
      have hdrop : es.drop j = es[j] :: es.drop (j + 1) := drop_eq_getElem_cons hjlt
      have helem : es[j] < 2 ^ bit_len := hes _ (getElem_mem hjlt)
      have htake : Digits.ofDigits bit_len (es.take (j + 1)) =
          Digits.ofDigits bit_len (es.take j) * 2 ^ bit_len + es[j] := by
        rw [take_add_one, getElem?_eq_getElem hjlt, Option.toList_some, ofDigits_concat]
      have hreadElem : readElement bit_len byte_pad s.input = es[j] := by
        rw [h.input, hdrop, flatMap_cons, readElement_eq hpad, Nat.mod_eq_of_lt helem]
      refine ⟨_, rfl, j + 1, hjlt, ?_, by dsimp only; omega, by dsimp only; omega, ?_, ?_, ?_⟩
      · rw [Nat.mul_succ, h.bits]
        dsimp only
        omega
      · dsimp only
        rw [hreadElem, h.value, shift_or_element helem h25, htake]
      · dsimp only
        have hwidth : (bit_len + 7) / 8 + byte_pad = (ehIndexToArray es[j]).length := by
          rw [length_ehIndexToArray, ← hpad, Nat.add_comm]
        rw [h.input, hdrop, flatMap_cons, hwidth, drop_left]
      · dsimp only
        have hshift : Digits.ofDigits bit_len (es.take (j + 1)) >>> (s.acc_bits + bit_len) =
            Digits.ofDigits bit_len (es.take j) >>> s.acc_bits := by
          have hdiv : (Digits.ofDigits bit_len (es.take j) * 2 ^ bit_len + es[j]) >>> bit_len =
              Digits.ofDigits bit_len (es.take j) := by
            rw [Nat.shiftRight_eq_div_pow, Nat.mul_comm, Nat.mul_add_div (Nat.two_pow_pos _),
              Nat.div_eq_of_lt helem, Nat.add_zero]
          rw [htake, Nat.add_comm s.acc_bits, Nat.shiftRight_add, hdiv]
        rw [hshift]
        exact h.out
    · rw [if_neg hfew]
      have hlt := h.bits_lt
      exact ⟨s, rfl, j, h.read, h.bits, by omega, by omega, h.value, h.input, h.out⟩
  unfold compressStep
  simp only [hs']
  refine ⟨j', hread, ?_, ?_, hvalue, hinput, ?_⟩
  · show bit_len * j' = 8 * (n + 1) + (s'.acc_bits - 8)
    omega
  · show s'.acc_bits - 8 < bit_len
    omega
  · show s'.out ++ [ofNat ((s'.acc_value >>> (s'.acc_bits - 8)) &&& 0xFF)] = _
    have hmask : (0xFF : Nat) = 2 ^ 8 - 1 := rfl
    have hshift : (Digits.ofDigits bit_len (es.take j') >>> (s'.acc_bits - 8)) >>> 8 =
        Digits.ofDigits bit_len (es.take j') >>> s'.acc_bits := by
      rw [← Nat.shiftRight_add]
      congr 1
      omega
    rw [digits_concat, hshift, List.map_append, map_singleton, ← hout, hmask,
      and_two_pow_sub_one_eq_mod, hvalue, bits_of_mod (by omega)]

variable {out_len : Nat}

theorem compressArray_eq (h8 : 8 ≤ bit_len) (h25 : bit_len ≤ 25)
    (hpad : byte_pad + (bit_len + 7) / 8 = sizeofIndex) {es : List Nat}
    (hes : ∀ e ∈ es, e < 2 ^ bit_len) (hlen : 8 * out_len = bit_len * es.length) :
    compressArray bit_len byte_pad out_len (es.flatMap ehIndexToArray) =
      (Digits.digits 8 out_len (Digits.ofDigits bit_len es)).map ofNat := by
  have hrun : ∀ n ≤ out_len, ∃ j, Compressed bit_len es n j
      ((List.range n).foldl (compressStep bit_len byte_pad)
        ⟨0, 0, es.flatMap ehIndexToArray, []⟩) := by
    intro n
    induction n with
    | zero =>
      intro _
      exact ⟨0, Nat.zero_le _, rfl, Nat.lt_of_lt_of_le (show 0 < 8 by decide) h8, rfl, rfl, rfl⟩
    | succ n ih =>
      intro hn
      obtain ⟨j, hj⟩ := ih (by omega)
      rw [List.range_succ, foldl_append]
      exact hj.step h8 h25 hpad hes (by omega) n
  obtain ⟨j, hj⟩ := hrun out_len le_rfl
  -- every element is read, and every bit is written
  have hbits := hj.bits
  have hread := hj.read
  have hjeq : j = es.length := by
    have hle : bit_len * es.length ≤ bit_len * j := by omega
    exact Nat.le_antisymm hread (Nat.le_of_mul_le_mul_left hle (by omega))
  subst hjeq
  unfold compressArray
  rw [hj.out, take_length]
  have hzero : ((List.range out_len).foldl (compressStep bit_len byte_pad)
      ⟨0, 0, es.flatMap ehIndexToArray, []⟩).acc_bits = 0 := by omega
  rw [hzero, Nat.shiftRight_zero]

/-! ## Minimal solutions and their indices -/

theorem toNat_map_ofNat {ds : List Nat} (h : ∀ d ∈ ds, d < 2 ^ 8) :
    (ds.map ofNat).map toNat = ds := by
  rw [List.map_map]
  refine (map_congr_left fun d hd => ?_).trans (List.map_id ds)
  exact toNat_ofNat_of_lt' (h d hd)

theorem ofNat_map_toNat (bytes : List UInt8) : (bytes.map toNat).map ofNat = bytes := by
  rw [List.map_map]
  refine (map_congr_left fun b _ => ?_).trans (List.map_id bytes)
  exact UInt8.ofNat_toNat

theorem arrayToEhIndex_ehIndexToArray {i : Nat} (hi : i < 2 ^ 32) (rest : List UInt8) :
    arrayToEhIndex (ehIndexToArray i ++ rest) = i := by
  have htake : (ehIndexToArray i ++ rest).take sizeofIndex = ehIndexToArray i := by
    rw [← length_ehIndexToArray i, take_left]
  rw [arrayToEhIndex, htake, ehIndexToArray, toNat_map_ofNat fun d => lt_of_mem_digits]
  exact ofDigits_digits_of_lt (w := 8) (n := sizeofIndex) hi

variable {is : List Nat}

theorem arrayIndices_flatMap (h : ∀ i ∈ is, i < 2 ^ 32) :
    arrayIndices (is.flatMap ehIndexToArray) = is := by
  have hdrop : ∀ (xs : List Nat) (k : Nat),
      (xs.flatMap ehIndexToArray).drop (sizeofIndex * k) = (xs.drop k).flatMap ehIndexToArray := by
    intro xs k
    induction k generalizing xs with
    | zero => rfl
    | succ k ih =>
      cases xs with
      | nil => rw [flatMap_nil, drop_nil, drop_nil, flatMap_nil]
      | cons x xs =>
        have hsplit : sizeofIndex * (k + 1) = (ehIndexToArray x).length + sizeofIndex * k := by
          rw [length_ehIndexToArray, Nat.mul_succ, Nat.add_comm]
        rw [flatMap_cons, hsplit, ← drop_drop, drop_left, ih, drop_succ_cons]
  have hlen : (is.flatMap ehIndexToArray).length / sizeofIndex = is.length := by
    have hall : (is.map fun i => (ehIndexToArray i).length) = is.map fun _ => sizeofIndex :=
      map_congr_left fun i _ => length_ehIndexToArray i
    rw [length_flatMap, hall, map_const', sum_replicate_nat,
      Nat.mul_div_cancel _ (by decide)]
  unfold arrayIndices
  rw [hlen]
  apply ext_getElem
  · rw [length_map, length_range]
  · intro k h1 h2
    rw [getElem_map, getElem_range, hdrop, drop_eq_getElem_cons h2,
      flatMap_cons, arrayToEhIndex_ehIndexToArray (h _ (getElem_mem h2))]

theorem pad_element {v : Nat} (h25 : bit_len ≤ 25) (hv : v < 2 ^ bit_len) :
    List.replicate (sizeofIndex - (bit_len + 7) / 8) 0 ++ element bit_len v = ehIndexToArray v := by
  have hwidth : (sizeofIndex - (bit_len + 7) / 8) + (bit_len + 7) / 8 = sizeofIndex := by
    unfold sizeofIndex
    omega
  have hlt : v < 2 ^ (8 * ((bit_len + 7) / 8)) :=
    Nat.lt_of_lt_of_le hv (Nat.pow_le_pow_right (by decide) (by omega))
  have hzero : ofNat 0 = 0 := rfl
  rw [ehIndexToArray, ← hwidth, digits_add_of_lt _ hlt, List.map_append, List.map_replicate,
    hwidth, hzero, element]

section

variable {cBitLen n : Nat} (h8 : 8 ≤ cBitLen + 1) (h25 : cBitLen + 1 ≤ 25)

include h8 h25

theorem getIndicesFromMinimal_eq {minimal : List UInt8}
    (hlen : 8 * minimal.length = (cBitLen + 1) * n) :
    getIndicesFromMinimal minimal cBitLen = Digits.digits (cBitLen + 1) n (ofBytes minimal) := by
  have hmem : ∀ v ∈ Digits.digits (cBitLen + 1) n (ofBytes minimal), v < 2 ^ (cBitLen + 1) :=
    fun v => lt_of_mem_digits
  have hbytes : ((Digits.digits (cBitLen + 1) n (ofBytes minimal)).flatMap fun v =>
      List.replicate (sizeofIndex - ((cBitLen + 1) + 7) / 8) 0 ++ element (cBitLen + 1) v) =
      (Digits.digits (cBitLen + 1) n (ofBytes minimal)).flatMap ehIndexToArray := by
    apply flatMap_congr
    intro v hv
    exact pad_element h25 (hmem v hv)
  show arrayIndices (expandArray (cBitLen + 1) (sizeofIndex - ((cBitLen + 1) + 7) / 8) minimal) = _
  rw [expandArray_eq h8 h25 _ hlen, hbytes, arrayIndices_flatMap]
  intro v hv
  exact Nat.lt_of_lt_of_le (hmem v hv) (Nat.pow_le_pow_right (by decide) (by omega))

theorem getMinimalFromIndices_eq (his : ∀ i ∈ is, i < 2 ^ (cBitLen + 1))
    (hlen : 8 * out_len = (cBitLen + 1) * is.length) : getMinimalFromIndices is cBitLen =
      (Digits.digits 8 out_len (Digits.ofDigits (cBitLen + 1) is)).map ofNat := by
  have hmin : (cBitLen + 1) * (is.length * sizeofIndex) / (8 * sizeofIndex) = out_len := by
    rw [← Nat.mul_assoc, ← hlen, Nat.mul_right_comm, Nat.mul_comm, Nat.mul_div_cancel _ (by decide)]
  have hpad : (sizeofIndex - ((cBitLen + 1) + 7) / 8) + ((cBitLen + 1) + 7) / 8 = sizeofIndex := by
    unfold sizeofIndex
    omega
  show compressArray (cBitLen + 1) (sizeofIndex - ((cBitLen + 1) + 7) / 8)
    ((cBitLen + 1) * (is.length * sizeofIndex) / (8 * sizeofIndex)) (is.flatMap ehIndexToArray) = _
  rw [hmin, compressArray_eq h8 h25 hpad his hlen]

theorem getMinimalFromIndices_getIndicesFromMinimal {minimal : List UInt8}
    (hlen : 8 * minimal.length = (cBitLen + 1) * n) :
    getMinimalFromIndices (getIndicesFromMinimal minimal cBitLen) cBitLen = minimal := by
  have hbytes : ∀ d ∈ minimal.map toNat, d < 2 ^ 8 := by
    intro d hd
    obtain ⟨b, -, rfl⟩ := List.mem_map.mp hd
    exact b.toNat_lt
  have hlt : ofBytes minimal < 2 ^ ((cBitLen + 1) * n) := hlen ▸ ofBytes_lt minimal
  have hdigits := digits_ofDigits hbytes
  rw [length_map] at hdigits
  rw [getIndicesFromMinimal_eq h8 h25 hlen,
    getMinimalFromIndices_eq h8 h25 (fun i => lt_of_mem_digits)
      (by rw [Digits.length_digits]; exact hlen),
    ofDigits_digits_of_lt hlt, ofBytes, hdigits, ofNat_map_toNat]

theorem getIndicesFromMinimal_getMinimalFromIndices (his : ∀ i ∈ is, i < 2 ^ (cBitLen + 1))
    (hlen : 8 * out_len = (cBitLen + 1) * is.length) :
    (getMinimalFromIndices is cBitLen).length = out_len ∧
      getIndicesFromMinimal (getMinimalFromIndices is cBitLen) cBitLen = is := by
  have hmin := getMinimalFromIndices_eq h8 h25 his hlen
  have hminLen : (getMinimalFromIndices is cBitLen).length = out_len := by
    rw [hmin, length_map, Digits.length_digits]
  refine ⟨hminLen, ?_⟩
  have hlt : Digits.ofDigits (cBitLen + 1) is < 2 ^ (8 * out_len) := hlen ▸ ofDigits_lt his
  rw [getIndicesFromMinimal_eq h8 h25 (n := is.length) (by rw [hminLen, hlen]), hmin, ofBytes,
    toNat_map_ofNat fun d => lt_of_mem_digits, ofDigits_digits_of_lt hlt, digits_ofDigits his]

end

end Rcoin
