/-
  `ExpandArray`, `CompressArray` and the index conversions on buffers of given lengths.
  Their asserts compare lengths after an integer division, so that they also hold where
  the bits do not come out even; the functions undo each other exactly where these do.

  Source: src/crypto/equihash.cpp.  `none` is a failed `assert` or a read behind a buffer.
-/
import Rcoin.Equihash.Arrays

namespace Rcoin

open Digits List Nat UInt8

/-! ## On buffers -/

/-- `out_width` of `ExpandArray`, `in_width` of `CompressArray`. -/
def elementWidth (bit_len byte_pad : Nat) : Nat := (bit_len + 7) / 8 + byte_pad

/-- `ExpandArray` into the buffer `out`: what lies behind the last element stays as it is. -/
def expandArrayInto (input out : List UInt8) (bit_len byte_pad : Nat) : Option (List UInt8) := do
  guard (bit_len ≥ 8)
  guard (32 ≥ 7 + bit_len)
  guard (out.length = 8 * elementWidth bit_len byte_pad * input.length / bit_len)
  let written := expandArray bit_len byte_pad input
  return written ++ out.drop written.length

/-- A round of `CompressArray`; the next element may lie behind the input. -/
def checkedCompressStep (bit_len byte_pad : Nat) (s : CompressState) (i : Nat) :
    Option CompressState :=
  if s.acc_bits < 8 ∧ s.input.length < elementWidth bit_len byte_pad then none
  else some (compressStep bit_len byte_pad s i)

/-- `CompressArray` into the buffer `out`, every byte of which is written. -/
def compressArrayInto (input out : List UInt8) (bit_len byte_pad : Nat) : Option (List UInt8) := do
  guard (bit_len ≥ 8)
  guard (32 ≥ 7 + bit_len)
  guard (out.length = bit_len * input.length / (8 * elementWidth bit_len byte_pad))
  let s ← (List.range out.length).foldlM (checkedCompressStep bit_len byte_pad) ⟨0, 0, input, []⟩
  return s.out

/-- `GetIndicesFromMinimal`. -/
def checkedIndicesFromMinimal (minimal : List UInt8) (cBitLen : Nat) : Option (List Nat) := do
  guard (((cBitLen + 1) + 7) / 8 ≤ sizeofIndex)
  let lenIndices := 8 * sizeofIndex * minimal.length / (cBitLen + 1)
  let bytePad := sizeofIndex - ((cBitLen + 1) + 7) / 8
  let array ← expandArrayInto minimal (replicate lenIndices 0) (cBitLen + 1) bytePad
  -- the last round of the loop reads a whole index
  guard (sizeofIndex ∣ lenIndices)
  return arrayIndices array

/-- `GetMinimalFromIndices`. -/
def checkedMinimalFromIndices (indices : List Nat) (cBitLen : Nat) : Option (List UInt8) := do
  guard (((cBitLen + 1) + 7) / 8 ≤ sizeofIndex)
  let lenIndices := indices.length * sizeofIndex
  let minLen := (cBitLen + 1) * lenIndices / (8 * sizeofIndex)
  let bytePad := sizeofIndex - ((cBitLen + 1) + 7) / 8
  compressArrayInto (indices.flatMap ehIndexToArray) (replicate minLen 0) (cBitLen + 1) bytePad

/-! ## Groups -/

/-- An element of `bit_len` bits with its padding. -/
def group (bit_len byte_pad v : Nat) : List UInt8 := replicate byte_pad 0 ++ element bit_len v

variable {bit_len byte_pad : Nat}

@[simp] theorem length_group (v : Nat) :
    (group bit_len byte_pad v).length = elementWidth bit_len byte_pad := by
  rw [group, length_append, length_replicate, element, length_map, Digits.length_digits, elementWidth,
    Nat.add_comm]

theorem length_groups (es : List Nat) :
    (es.flatMap (group bit_len byte_pad)).length = es.length * elementWidth bit_len byte_pad := by
  simp

theorem elementWidth_pos (h8 : 8 ≤ bit_len) : 0 < elementWidth bit_len byte_pad := by
  unfold elementWidth
  omega

theorem readElement_replicate (l : List UInt8) :
    readElement bit_len byte_pad (replicate byte_pad 0 ++ l) = readElement bit_len 0 l := by
  unfold readElement
  apply foldl_ext
  intro acc x _
  have hbyte : (replicate byte_pad 0 ++ l).getD (byte_pad + x) 0 = l.getD (0 + x) 0 := by
    rw [getD_eq_getElem?_getD, getD_eq_getElem?_getD, getElem?_append_right, length_replicate,
      Nat.add_sub_cancel_left, Nat.zero_add]
    rw [length_replicate]
    exact Nat.le_add_right byte_pad x
  rw [hbyte]

section

variable (h8 : 8 ≤ bit_len) (h25 : bit_len ≤ 25)

include h25

theorem readElement_group {v : Nat} (hv : v < 2 ^ bit_len) (rest : List UInt8) :
    readElement bit_len byte_pad (group bit_len byte_pad v ++ rest) = v := by
  have hpad : (sizeofIndex - (bit_len + 7) / 8) + (bit_len + 7) / 8 = sizeofIndex := by
    unfold sizeofIndex
    omega
  have hindex := readElement_eq hpad v rest
  rw [← pad_element h25 hv, append_assoc, readElement_replicate, Nat.mod_eq_of_lt hv] at hindex
  rw [group, append_assoc, readElement_replicate, hindex]

theorem groups_injective {es es' : List Nat} (hes : ∀ e ∈ es, e < 2 ^ bit_len)
    (hes' : ∀ e ∈ es', e < 2 ^ bit_len) (hlen : es.length = es'.length)
    (heq : es.flatMap (group bit_len byte_pad) = es'.flatMap (group bit_len byte_pad)) :
    es = es' := by
  induction es generalizing es' with
  | nil => exact (length_eq_zero_iff.mp hlen.symm).symm
  | cons e es ih =>
    cases es' with
    | nil => exact nomatch hlen
    | cons e' es' =>
      have hread := congrArg (readElement bit_len byte_pad) heq
      rw [flatMap_cons, flatMap_cons, readElement_group h25 (hes e mem_cons_self),
        readElement_group h25 (hes' e' mem_cons_self)] at hread
      subst hread
      rw [flatMap_cons, flatMap_cons, append_cancel_left_eq] at heq
      rw [ih (fun x hx => hes x (mem_cons_of_mem e hx)) (fun x hx => hes' x (mem_cons_of_mem e hx))
        (Nat.succ.inj hlen) heq]

omit h25 in
theorem last_lt {n d : Nat} (hd : d < 2 ^ bit_len) : ∀ e ∈ replicate n 0 ++ [d], e < 2 ^ bit_len := by
  intro e he
  rcases mem_append.mp he with he | he
  · rw [eq_of_mem_replicate he]
    exact Nat.two_pow_pos bit_len
  · rwa [mem_singleton.mp he]

include h8

/-! ## What the functions write -/

theorem expandArrayInto_eq (input : List UInt8) {out : List UInt8}
    (hout : out.length = 8 * elementWidth bit_len byte_pad * input.length / bit_len) :
    expandArrayInto input out bit_len byte_pad =
      some ((Digits.digits bit_len (8 * input.length / bit_len)
          (ofBytes input >>> (8 * input.length % bit_len))).flatMap (group bit_len byte_pad) ++
        out.drop (8 * input.length / bit_len * elementWidth bit_len byte_pad)) := by
  have hwritten : expandArray bit_len byte_pad input =
      (Digits.digits bit_len (8 * input.length / bit_len)
        (ofBytes input >>> (8 * input.length % bit_len))).flatMap (group bit_len byte_pad) :=
    expandArray_digits h8 h25 byte_pad input
  have hassert : 32 ≥ 7 + bit_len := by omega
  simp [expandArrayInto, h8, hassert, hout, hwritten]

theorem checkedCompressStep_groups {es : List Nat} (hes : ∀ e ∈ es, e < 2 ^ bit_len) {j i : Nat}
    {s : CompressState} (hinput : s.input = (es.drop j).flatMap (group bit_len byte_pad))
    (hmore : s.acc_bits < 8 → j < es.length) :
    checkedCompressStep bit_len byte_pad s i =
      some { compressStep bit_len (sizeofIndex - (bit_len + 7) / 8)
          { s with input := (es.drop j).flatMap ehIndexToArray } i with
        input := (es.drop (if s.acc_bits < 8 then j + 1 else j)).flatMap
          (group bit_len byte_pad) } := by
  by_cases hfew : s.acc_bits < 8
  · have hj := hmore hfew
    have hdrop : es.drop j = es[j] :: es.drop (j + 1) := drop_eq_getElem_cons hj
    have helem : es[j] < 2 ^ bit_len := hes _ (getElem_mem hj)
    have hpad : (sizeofIndex - (bit_len + 7) / 8) + (bit_len + 7) / 8 = sizeofIndex := by
      unfold sizeofIndex
      omega
    have hlen : ¬ s.input.length < elementWidth bit_len byte_pad := by
      rw [hinput, hdrop, flatMap_cons, length_append, length_group]
      omega
    have hread : readElement bit_len byte_pad s.input = es[j] := by
      rw [hinput, hdrop, flatMap_cons, readElement_group h25 helem]
    have hread' : readElement bit_len (sizeofIndex - (bit_len + 7) / 8)
        ((es.drop j).flatMap ehIndexToArray) = es[j] := by
      rw [hdrop, flatMap_cons, readElement_eq hpad, Nat.mod_eq_of_lt helem]
    have hrest : s.input.drop ((bit_len + 7) / 8 + byte_pad) =
        (es.drop (j + 1)).flatMap (group bit_len byte_pad) := by
      have hwidth : (bit_len + 7) / 8 + byte_pad = (group bit_len byte_pad es[j]).length :=
        (length_group es[j]).symm
      rw [hinput, hdrop, flatMap_cons, hwidth, drop_left]
    rw [checkedCompressStep, if_neg fun h => hlen h.2, if_pos hfew]
    simp only [compressStep, if_pos hfew, hread, hread', hrest]
  · rw [checkedCompressStep, if_neg fun h => hfew h.1, if_neg hfew]
    simp only [compressStep, if_neg hfew, hinput]

theorem compressRun_groups (byte_pad : Nat) {es : List Nat} (hes : ∀ e ∈ es, e < 2 ^ bit_len)
    (n : Nat) (hn : 8 * n ≤ bit_len * es.length) :
    ∃ j s, (List.range n).foldlM (checkedCompressStep bit_len byte_pad)
        ⟨0, 0, es.flatMap (group bit_len byte_pad), []⟩ = some s ∧
      s.input = (es.drop j).flatMap (group bit_len byte_pad) ∧
      Compressed bit_len es n j { s with input := (es.drop j).flatMap ehIndexToArray } := by
  have hpad : (sizeofIndex - (bit_len + 7) / 8) + (bit_len + 7) / 8 = sizeofIndex := by
    unfold sizeofIndex
    omega
  induction n with
  | zero =>
    exact ⟨0, _, rfl, rfl, Nat.zero_le _, rfl,
      Nat.lt_of_lt_of_le (show 0 < 8 by decide) h8, rfl, rfl, rfl⟩
  | succ n ih =>
    obtain ⟨j, s, hrun, hinput, hs⟩ := ih (by omega)
    have hbits : bit_len * j = 8 * n + s.acc_bits := hs.bits
    have hmore : s.acc_bits < 8 → j < es.length := by
      intro hfew
      by_contra hj
      have hjeq : j = es.length := Nat.le_antisymm hs.read (Nat.le_of_not_lt hj)
      rw [hjeq] at hbits
      omega
    obtain ⟨j', hs'⟩ := hs.step h8 h25 hpad hes hn n
    -- the number of elements read follows from that of the bits
    have hj' : j' = if s.acc_bits < 8 then j + 1 else j := by
      have hbits' := hs'.bits
      refine Nat.eq_of_mul_eq_mul_left (show 0 < bit_len by omega) (hbits'.trans ?_)
      by_cases hfew : s.acc_bits < 8
      · simp only [compressStep, if_pos hfew]
        rw [Nat.mul_succ bit_len j]
        omega
      · simp only [compressStep, if_neg hfew]
        omega
    let t := compressStep bit_len (sizeofIndex - (bit_len + 7) / 8)
      { s with input := (es.drop j).flatMap ehIndexToArray } n
    refine ⟨j', { t with input := (es.drop j').flatMap (group bit_len byte_pad) }, ?_, rfl,
      ⟨hs'.read, hs'.bits, hs'.bits_lt, hs'.value, rfl, hs'.out⟩⟩
    rw [List.range_succ, foldlM_append, hrun, Option.bind_eq_bind, Option.bind_some, foldlM_cons,
      checkedCompressStep_groups h8 h25 hes hinput hmore, ← hj']
    rfl

theorem compressArrayInto_groups {es : List Nat} (hes : ∀ e ∈ es, e < 2 ^ bit_len)
    {out : List UInt8} (hout : out.length = bit_len * es.length / 8) :
    compressArrayInto (es.flatMap (group bit_len byte_pad)) out bit_len byte_pad =
      some ((Digits.digits 8 (bit_len * es.length / 8)
        (Digits.ofDigits bit_len es >>> (bit_len * es.length % 8))).map ofNat) := by
  have hassert : 32 ≥ 7 + bit_len := by omega
  have hlen : out.length = bit_len * (es.length * elementWidth bit_len byte_pad) /
      (8 * elementWidth bit_len byte_pad) := by
    rw [hout, ← Nat.mul_assoc, Nat.mul_div_mul_right _ _ (elementWidth_pos h8)]
  obtain ⟨j, s, hrun, -, hs⟩ := compressRun_groups h8 h25 byte_pad hes
    (bit_len * es.length / 8) (by omega)
  have hbits : bit_len * j = 8 * (bit_len * es.length / 8) + s.acc_bits := hs.bits
  have hshift : Digits.ofDigits bit_len (es.take j) >>> s.acc_bits =
      Digits.ofDigits bit_len es >>> (bit_len * es.length % 8) := by
    have hsum : bit_len * es.length % 8 = bit_len * (es.length - j) + s.acc_bits := by
      have hle : bit_len * j ≤ bit_len * es.length := Nat.mul_le_mul_left _ hs.read
      rw [Nat.mul_sub]
      omega
    rw [hsum, Nat.shiftRight_add, ofDigits_take hes]
  have hwritten : s.out = (Digits.digits 8 (bit_len * es.length / 8)
      (Digits.ofDigits bit_len es >>> (bit_len * es.length % 8))).map ofNat := by
    rw [← hshift]
    exact hs.out
  simp [compressArrayInto, h8, hassert, ← hlen, hout, hrun, hwritten]

/-! ## Round trips -/

/-- Whatever the buffers hold, `CompressArray` gives back the input of `ExpandArray`. -/
def CompressUndoesExpand (bit_len byte_pad : Nat) (input : List UInt8) : Prop :=
  ∀ out : List UInt8,
    out.length = 8 * elementWidth bit_len byte_pad * input.length / bit_len →
      ∃ array, expandArrayInto input out bit_len byte_pad = some array ∧ ∀ out' : List UInt8,
        out'.length = bit_len * array.length / (8 * elementWidth bit_len byte_pad) →
          compressArrayInto array out' bit_len byte_pad = some input

def ExpandUndoesCompress (bit_len byte_pad : Nat) (array : List UInt8) : Prop :=
  ∀ out : List UInt8,
    out.length = bit_len * array.length / (8 * elementWidth bit_len byte_pad) →
      ∃ bytes, compressArrayInto array out bit_len byte_pad = some bytes ∧ ∀ out' : List UInt8,
        out'.length = 8 * elementWidth bit_len byte_pad * bytes.length / bit_len →
          expandArrayInto bytes out' bit_len byte_pad = some array

omit h8 h25 in
theorem digits_ofBytes (bytes : List UInt8) :
    (Digits.digits 8 bytes.length (ofBytes bytes)).map ofNat = bytes := by
  have hbytes : ∀ d ∈ bytes.map toNat, d < 2 ^ 8 := by
    intro d hd
    obtain ⟨b, -, rfl⟩ := List.mem_map.mp hd
    exact b.toNat_lt
  have hdigits := digits_ofDigits hbytes
  rw [length_map] at hdigits
  rw [ofBytes, hdigits, ofNat_map_toNat]

theorem expandArrayInto_whole {input out : List UInt8} {n : Nat}
    (hlen : 8 * input.length = bit_len * n)
    (hout : out.length = 8 * elementWidth bit_len byte_pad * input.length / bit_len) :
    expandArrayInto input out bit_len byte_pad =
      some ((Digits.digits bit_len n (ofBytes input)).flatMap (group bit_len byte_pad)) := by
  have hn : 8 * input.length / bit_len = n := by
    rw [hlen, Nat.mul_div_cancel_left _ (by omega)]
  have hr : 8 * input.length % bit_len = 0 := by rw [hlen, Nat.mul_mod_right]
  have hfull : out.length = n * elementWidth bit_len byte_pad := by
    rw [hout, Nat.mul_right_comm, hlen, Nat.mul_assoc, Nat.mul_div_cancel_left _ (by omega)]
  rw [expandArrayInto_eq h8 h25 input hout, hn, hr, Nat.shiftRight_zero, drop_of_length_le hfull.le,
    append_nil]

theorem compressArrayInto_whole {es : List Nat} (hes : ∀ e ∈ es, e < 2 ^ bit_len) {n : Nat}
    (hlen : 8 * n = bit_len * es.length) {out : List UInt8}
    (hout : out.length = bit_len * es.length / 8) :
    compressArrayInto (es.flatMap (group bit_len byte_pad)) out bit_len byte_pad =
      some ((Digits.digits 8 n (Digits.ofDigits bit_len es)).map ofNat) := by
  have hn : bit_len * es.length / 8 = n := by omega
  have hr : bit_len * es.length % 8 = 0 := by omega
  rw [compressArrayInto_groups h8 h25 hes hout, hn, hr, Nat.shiftRight_zero]

omit h25 in
theorem groups_out_length (es : List Nat) :
    bit_len * (es.flatMap (group bit_len byte_pad)).length / (8 * elementWidth bit_len byte_pad) =
      bit_len * es.length / 8 := by
  rw [length_groups, ← Nat.mul_assoc, Nat.mul_div_mul_right _ _ (elementWidth_pos h8)]

omit h8 h25 in
theorem shiftRight_last {d r : Nat} (hd : d < 2) (hr : r ≠ 0) : d >>> r = 0 := by
  have hle : 2 ^ 1 ≤ 2 ^ r := Nat.pow_le_pow_right (by decide) (Nat.pos_of_ne_zero hr)
  rw [Nat.shiftRight_eq_div_pow, Nat.div_eq_of_lt (by omega)]

theorem expandArrayInto_last {n : Nat} (hn : ¬ bit_len ∣ 8 * (n + 1)) {b : UInt8}
    (hb : b.toNat < 2) {out : List UInt8}
    (hout : out.length = 8 * elementWidth bit_len byte_pad * (n + 1) / bit_len) :
    expandArrayInto (replicate n 0 ++ [b]) out bit_len byte_pad =
      some ((Digits.digits bit_len (8 * (n + 1) / bit_len) 0).flatMap (group bit_len byte_pad) ++
        out.drop (8 * (n + 1) / bit_len * elementWidth bit_len byte_pad)) := by
  have hlen : (replicate n 0 ++ [b]).length = n + 1 := by
    rw [length_append, length_replicate, length_singleton]
  have hvalue : ofBytes (replicate n 0 ++ [b]) = b.toNat := by
    rw [ofBytes, List.map_append, List.map_replicate, map_singleton]
    exact ofDigits_last 8 n b.toNat
  have hr : 8 * (n + 1) % bit_len ≠ 0 := fun h => hn (Nat.dvd_of_mod_eq_zero h)
  rw [expandArrayInto_eq h8 h25 _ (by rw [hlen, hout]), hlen, hvalue, shiftRight_last hb hr]

theorem compressArrayInto_last {n : Nat} (hn : ¬ 8 ∣ bit_len * (n + 1)) {d : Nat} (hd : d < 2)
    {out : List UInt8} (hout : out.length = bit_len * (n + 1) / 8) :
    compressArrayInto ((replicate n 0 ++ [d]).flatMap (group bit_len byte_pad)) out
        bit_len byte_pad =
      some ((Digits.digits 8 (bit_len * (n + 1) / 8) 0).map ofNat) := by
  have hlen : (replicate n 0 ++ [d]).length = n + 1 := by
    rw [length_append, length_replicate, length_singleton]
  have hr : bit_len * (n + 1) % 8 ≠ 0 := fun h => hn (Nat.dvd_of_mod_eq_zero h)
  have hpow : 2 ^ 1 ≤ 2 ^ bit_len := Nat.pow_le_pow_right (by decide) (by omega)
  rw [compressArrayInto_groups h8 h25 (last_lt (by omega)) (by rw [hlen, hout]), hlen,
    ofDigits_last, shiftRight_last hd hr]

theorem compressUndoesExpand_iff (L : Nat) :
    (∀ input : List UInt8, input.length = L → CompressUndoesExpand bit_len byte_pad input) ↔
      bit_len ∣ 8 * L := by
  constructor
  · intro h
    by_contra hL
    obtain ⟨n, rfl⟩ : ∃ n, L = n + 1 :=
      Nat.exists_eq_succ_of_ne_zero fun hzero => hL (hzero ▸ Nat.dvd_zero bit_len)
    have hlen : ∀ b : UInt8, (replicate n 0 ++ [b]).length = n + 1 := by
      intro b
      rw [length_append, length_replicate, length_singleton]
    -- with any buffer, the results for the two inputs are the same
    let out : List UInt8 :=
      replicate (8 * elementWidth bit_len byte_pad * (n + 1) / bit_len) 0
    have hout : out.length = 8 * elementWidth bit_len byte_pad * (n + 1) / bit_len :=
      length_replicate
    obtain ⟨array1, harray1, hback1⟩ := h (replicate n 0 ++ [1]) (hlen 1) out (by rw [hlen, hout])
    obtain ⟨array0, harray0, hback0⟩ := h (replicate n 0 ++ [0]) (hlen 0) out (by rw [hlen, hout])
    rw [expandArrayInto_last h8 h25 hL (by decide) hout] at harray1 harray0
    obtain rfl := Option.some.inj (harray1.symm.trans harray0)
    have hsame := (hback1 _ length_replicate).symm.trans (hback0 (replicate _ 0) length_replicate)
    exact absurd (append_cancel_left (Option.some.inj hsame)) (by decide)
  · rintro ⟨n, hn⟩ input rfl out hout
    refine ⟨_, expandArrayInto_whole h8 h25 hn hout, fun out' hout' => ?_⟩
    rw [groups_out_length h8, Digits.length_digits] at hout'
    rw [compressArrayInto_whole h8 h25 (fun e => lt_of_mem_digits)
      (by rw [Digits.length_digits]; exact hn) (by rw [Digits.length_digits]; exact hout'),
      ofDigits_digits_of_lt (hn ▸ ofBytes_lt input), digits_ofBytes]

theorem expandUndoesCompress_iff (k : Nat) :
    (∀ es : List Nat, es.length = k → (∀ e ∈ es, e < 2 ^ bit_len) →
        ExpandUndoesCompress bit_len byte_pad (es.flatMap (group bit_len byte_pad))) ↔
      8 ∣ bit_len * k := by
  constructor
  · intro h
    by_contra hk
    obtain ⟨n, rfl⟩ : ∃ n, k = n + 1 :=
      Nat.exists_eq_succ_of_ne_zero fun hzero => hk (hzero ▸ Nat.dvd_zero 8)
    have hlen : ∀ d : Nat, (replicate n 0 ++ [d]).length = n + 1 := by
      intro d
      rw [length_append, length_replicate, length_singleton]
    have hpow : 2 ^ 1 ≤ 2 ^ bit_len := Nat.pow_le_pow_right (by decide) (by omega)
    let out : List UInt8 := replicate (bit_len * (n + 1) / 8) 0
    have hout : out.length = bit_len * (n + 1) / 8 := length_replicate
    obtain ⟨bytes1, hbytes1, hback1⟩ := h (replicate n 0 ++ [1]) (hlen 1) (last_lt (by omega)) out
      (by rw [groups_out_length h8, hlen, hout])
    obtain ⟨bytes0, hbytes0, hback0⟩ := h (replicate n 0 ++ [0]) (hlen 0) (last_lt (by omega)) out
      (by rw [groups_out_length h8, hlen, hout])
    rw [compressArrayInto_last h8 h25 hk (by decide) hout] at hbytes1 hbytes0
    obtain rfl := Option.some.inj (hbytes1.symm.trans hbytes0)
    have hsame := (hback1 _ length_replicate).symm.trans (hback0 (replicate _ 0) length_replicate)
    have heq := groups_injective h25 (last_lt (by omega)) (last_lt (by omega))
      ((hlen 1).trans (hlen 0).symm) (Option.some.inj hsame)
    exact absurd (append_cancel_left heq) (by decide)
  · rintro ⟨n, hn⟩ es rfl hes out hout
    rw [groups_out_length h8] at hout
    refine ⟨_, compressArrayInto_whole h8 h25 hes hn.symm hout, fun out' hout' => ?_⟩
    have hlen : 8 * ((Digits.digits 8 n (Digits.ofDigits bit_len es)).map ofNat).length =
        bit_len * es.length := by
      rw [length_map, Digits.length_digits, hn]
    have hvalue : ofBytes ((Digits.digits 8 n (Digits.ofDigits bit_len es)).map ofNat) =
        Digits.ofDigits bit_len es := by
      rw [ofBytes, toNat_map_ofNat fun d => lt_of_mem_digits,
        ofDigits_digits_of_lt (hn ▸ ofDigits_lt hes)]
    rw [expandArrayInto_whole h8 h25 hlen hout', hvalue, digits_ofDigits hes]

end

/-! ## Minimal solutions and their indices -/

section

variable {cBitLen : Nat} (h8 : 8 ≤ cBitLen + 1) (h25 : cBitLen + 1 ≤ 25)

include h25

theorem elementWidth_index :
    elementWidth (cBitLen + 1) (sizeofIndex - ((cBitLen + 1) + 7) / 8) = sizeofIndex := by
  unfold elementWidth sizeofIndex
  omega

theorem indices_groups {is : List Nat} (his : ∀ i ∈ is, i < 2 ^ (cBitLen + 1)) :
    is.flatMap ehIndexToArray =
      is.flatMap (group (cBitLen + 1) (sizeofIndex - ((cBitLen + 1) + 7) / 8)) :=
  flatMap_congr fun i hi => (pad_element h25 (his i hi)).symm

include h8

theorem checkedIndicesFromMinimal_whole {minimal : List UInt8} {n : Nat}
    (hlen : 8 * minimal.length = (cBitLen + 1) * n) :
    checkedIndicesFromMinimal minimal cBitLen =
      some (Digits.digits (cBitLen + 1) n (ofBytes minimal)) := by
  have hwidth := elementWidth_index h25
  have hassert : ((cBitLen + 1) + 7) / 8 ≤ sizeofIndex := by
    unfold sizeofIndex
    omega
  have hmem : ∀ v ∈ Digits.digits (cBitLen + 1) n (ofBytes minimal), v < 2 ^ (cBitLen + 1) :=
    fun v => lt_of_mem_digits
  have hmem32 : ∀ v ∈ Digits.digits (cBitLen + 1) n (ofBytes minimal), v < 2 ^ 32 := fun v hv =>
    Nat.lt_of_lt_of_le (hmem v hv) (Nat.pow_le_pow_right (by decide) (by omega))
  have hindices : 8 * sizeofIndex * minimal.length / (cBitLen + 1) = sizeofIndex * n := by
    rw [Nat.mul_right_comm, hlen, Nat.mul_assoc, Nat.mul_div_cancel_left _ (by omega),
      Nat.mul_comm]
  have hout : (replicate (8 * sizeofIndex * minimal.length / (cBitLen + 1)) (0 : UInt8)).length =
      8 * elementWidth (cBitLen + 1) (sizeofIndex - ((cBitLen + 1) + 7) / 8) * minimal.length /
        (cBitLen + 1) := by
    rw [length_replicate, hwidth]
  have hexpand := expandArrayInto_whole h8 h25 hlen hout
  rw [checkedIndicesFromMinimal]
  dsimp only
  rw [hexpand, hindices, ← indices_groups h25 hmem]
  simp [hassert, arrayIndices_flatMap hmem32]

theorem checkedIndicesFromMinimal_last {n : Nat} (hn : ¬ cBitLen + 1 ∣ 8 * (n + 1)) :
    checkedIndicesFromMinimal (replicate n 0 ++ [1]) cBitLen =
      checkedIndicesFromMinimal (replicate n 0 ++ [0]) cBitLen := by
  have hlen : ∀ b : UInt8, (replicate n 0 ++ [b]).length = n + 1 := by
    intro b
    rw [length_append, length_replicate, length_singleton]
  have hwidth := elementWidth_index h25
  have hout : (replicate (8 * sizeofIndex * (n + 1) / (cBitLen + 1)) (0 : UInt8)).length =
      8 * elementWidth (cBitLen + 1) (sizeofIndex - ((cBitLen + 1) + 7) / 8) * (n + 1) /
        (cBitLen + 1) := by
    rw [length_replicate, hwidth]
  rw [checkedIndicesFromMinimal, checkedIndicesFromMinimal, hlen, hlen]
  dsimp only
  rw [expandArrayInto_last h8 h25 hn (by decide) hout, expandArrayInto_last h8 h25 hn (by decide) hout]

theorem checkedMinimalFromIndices_eq {is : List Nat} (his : ∀ i ∈ is, i < 2 ^ (cBitLen + 1)) :
    checkedMinimalFromIndices is cBitLen =
      some ((Digits.digits 8 ((cBitLen + 1) * is.length / 8)
        (Digits.ofDigits (cBitLen + 1) is >>> ((cBitLen + 1) * is.length % 8))).map ofNat) := by
  have hassert : ((cBitLen + 1) + 7) / 8 ≤ sizeofIndex := by
    unfold sizeofIndex
    omega
  have hmin : (cBitLen + 1) * (is.length * sizeofIndex) / (8 * sizeofIndex) =
      (cBitLen + 1) * is.length / 8 := by
    rw [← Nat.mul_assoc, Nat.mul_div_mul_right _ _ (by decide)]
  rw [checkedMinimalFromIndices, indices_groups h25 his]
  dsimp only
  rw [hmin, compressArrayInto_groups h8 h25 his length_replicate]
  simp [hassert]

theorem minimal_indices_iff (L : Nat) :
    (∀ minimal : List UInt8, minimal.length = L →
        (checkedIndicesFromMinimal minimal cBitLen).bind (checkedMinimalFromIndices · cBitLen) =
          some minimal) ↔ cBitLen + 1 ∣ 8 * L := by
  constructor
  · intro h
    by_contra hL
    obtain ⟨n, rfl⟩ : ∃ n, L = n + 1 :=
      Nat.exists_eq_succ_of_ne_zero fun hzero => hL (hzero ▸ Nat.dvd_zero _)
    have h1 := h (replicate n 0 ++ [1]) (by rw [length_append, length_replicate, length_singleton])
    have h0 := h (replicate n 0 ++ [0]) (by rw [length_append, length_replicate, length_singleton])
    rw [checkedIndicesFromMinimal_last h8 h25 hL] at h1
    exact absurd (append_cancel_left (Option.some.inj (h1.symm.trans h0))) (by decide)
  · rintro ⟨n, hn⟩ minimal rfl
    have hlen : (cBitLen + 1) * n / 8 = minimal.length := by omega
    have hr : (cBitLen + 1) * n % 8 = 0 := by omega
    rw [checkedIndicesFromMinimal_whole h8 h25 hn, Option.bind_some,
      checkedMinimalFromIndices_eq h8 h25 (fun i => lt_of_mem_digits), Digits.length_digits, hlen, hr,
      Nat.shiftRight_zero, ofDigits_digits_of_lt (hn ▸ ofBytes_lt minimal), digits_ofBytes]

theorem indices_minimal_iff (k : Nat) :
    (∀ is : List Nat, is.length = k → (∀ i ∈ is, i < 2 ^ (cBitLen + 1)) →
        (checkedMinimalFromIndices is cBitLen).bind (checkedIndicesFromMinimal · cBitLen) =
          some is) ↔ 8 ∣ (cBitLen + 1) * k := by
  constructor
  · intro h
    by_contra hk
    obtain ⟨n, rfl⟩ : ∃ n, k = n + 1 :=
      Nat.exists_eq_succ_of_ne_zero fun hzero => hk (hzero ▸ Nat.dvd_zero 8)
    have hr : (cBitLen + 1) * (n + 1) % 8 ≠ 0 := fun h => hk (Nat.dvd_of_mod_eq_zero h)
    have hpow : 2 ^ 1 ≤ 2 ^ (cBitLen + 1) := Nat.pow_le_pow_right (by decide) (by omega)
    have hlen : ∀ d : Nat, (replicate n 0 ++ [d]).length = n + 1 := by
      intro d
      rw [length_append, length_replicate, length_singleton]
    have h1 := h (replicate n 0 ++ [1]) (hlen 1) (last_lt (by omega))
    have h0 := h (replicate n 0 ++ [0]) (hlen 0) (last_lt (by omega))
    rw [checkedMinimalFromIndices_eq h8 h25 (last_lt (by omega)), hlen, ofDigits_last,
      shiftRight_last (by decide) hr] at h1 h0
    exact absurd (append_cancel_left (Option.some.inj (h1.symm.trans h0))) (by decide)
  · rintro ⟨n, hn⟩ is rfl his
    have hlen : (cBitLen + 1) * is.length / 8 = n := by omega
    have hr : (cBitLen + 1) * is.length % 8 = 0 := by omega
    have hbytes : 8 * ((Digits.digits 8 n (Digits.ofDigits (cBitLen + 1) is)).map ofNat).length =
        (cBitLen + 1) * is.length := by
      rw [length_map, Digits.length_digits, hn]
    have hvalue : ofBytes ((Digits.digits 8 n (Digits.ofDigits (cBitLen + 1) is)).map ofNat) =
        Digits.ofDigits (cBitLen + 1) is := by
      rw [ofBytes, toNat_map_ofNat fun d => lt_of_mem_digits,
        ofDigits_digits_of_lt (hn ▸ ofDigits_lt his)]
    rw [checkedMinimalFromIndices_eq h8 h25 his, hlen, hr, Nat.shiftRight_zero, Option.bind_some,
      checkedIndicesFromMinimal_whole h8 h25 hbytes, hvalue, digits_ofDigits his]

end

/-- The functions undo each other exactly where the bits come out even: whole elements in
    the byte string, whole bytes in the array. -/
theorem arrays_inverse_iff (h8 : 8 ≤ bit_len) (h25 : bit_len ≤ 25) (byte_pad : Nat) :
    (∀ L, (∀ input : List UInt8, input.length = L →
        CompressUndoesExpand bit_len byte_pad input) ↔ bit_len ∣ 8 * L) ∧
      (∀ k, (∀ es : List Nat, es.length = k → (∀ e ∈ es, e < 2 ^ bit_len) →
        ExpandUndoesCompress bit_len byte_pad (es.flatMap (group bit_len byte_pad))) ↔
          8 ∣ bit_len * k) ∧
      ∀ cBitLen, cBitLen + 1 = bit_len →
        (∀ L, (∀ minimal : List UInt8, minimal.length = L →
          (checkedIndicesFromMinimal minimal cBitLen).bind (checkedMinimalFromIndices · cBitLen) =
            some minimal) ↔ bit_len ∣ 8 * L) ∧
        ∀ k, (∀ is : List Nat, is.length = k → (∀ i ∈ is, i < 2 ^ bit_len) →
          (checkedMinimalFromIndices is cBitLen).bind (checkedIndicesFromMinimal · cBitLen) =
            some is) ↔ 8 ∣ bit_len * k := by
  refine ⟨compressUndoesExpand_iff h8 h25, expandUndoesCompress_iff h8 h25, ?_⟩
  rintro cBitLen rfl
  exact ⟨minimal_indices_iff h8 h25, indices_minimal_iff h8 h25⟩

/-- The indices of a solution for `N = 200`, `K = 9`: 21 bits each, 512 of them. -/
theorem arrays_inverse_solution :
    (∀ input : List UInt8, input.length = 1344 → CompressUndoesExpand 21 1 input) ∧
      ∀ is : List Nat, is.length = 512 → (∀ i ∈ is, i < 2 ^ 21) →
        (checkedMinimalFromIndices is 20).bind (checkedIndicesFromMinimal · 20) = some is := by
  have h8 : 8 ≤ 21 := by decide
  obtain ⟨hcompress, -, hindices⟩ := arrays_inverse_iff h8 (by decide) 1
  exact ⟨(hcompress 1344).mpr ⟨512, rfl⟩, ((hindices 20 rfl).2 512).mpr ⟨1344, rfl⟩⟩

/-- With 9 bits and one byte all asserts hold, and the byte does not come back: no element
    is written for it, and no byte for the array of one byte. -/
theorem arrays_not_inverse :
    (∃ array, expandArrayInto [1] [0] 9 0 = some array ∧ compressArrayInto array [] 9 0 = some []) ∧
      ¬ (∀ input : List UInt8, CompressUndoesExpand 9 0 input) ∧
      ¬ ∀ is : List Nat, (∀ i ∈ is, i < 2 ^ 9) →
        (checkedMinimalFromIndices is 8).bind (checkedIndicesFromMinimal · 8) = some is := by
  refine ⟨⟨[0], by decide, by decide⟩, fun h => ?_, fun h => ?_⟩
  · obtain ⟨array, harray, hback⟩ := h [1] [0] (by decide)
    have hzero : expandArrayInto [1] [0] 9 0 = some [0] := by decide
    obtain rfl := Option.some.inj (hzero.symm.trans harray)
    exact absurd (hback [] (by decide)) (by decide)
  · exact absurd (h [1] (by decide)) (by decide)

end Rcoin
