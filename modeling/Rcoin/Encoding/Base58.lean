/-
  Base 58: a byte vector is written as a number in base 58, with a '1' for each zero byte it
  begins with, and read back.

  Source: src/base58.cpp.  A `char` is its byte, and `isspace` is that of the "C" locale.
-/
import Rcoin.Lib.BaseConversion

namespace Rcoin

open List Nat

namespace Base58

open BaseConversion

/-- What ends a call without a result: a failed `assert`, the exception of
    `std::vector` for a size that is negative as an `int`, or an overflow of a signed integer. -/
inductive Fault where
  | assertion
  | length_error
  | overflow
  deriving DecidableEq

def pszBase58 : List UInt8 :=
  "123456789ABCDEFGHJKLMNPQRSTUVWXYZabcdefghijkmnopqrstuvwxyz".toList.map fun c => c.toNat.toUInt8

/-- `pszBase58[k]`. -/
def digitChar (k : Nat) : UInt8 := pszBase58.getD k 0

def isspace (c : UInt8) : Bool := decide (c = 32 ∨ 9 ≤ c ∧ c ≤ 13)

/-- The conversion of a size to `int`. -/
def toInt (n : Nat) : Int := (BitVec.ofNat 32 n).toInt

/-- `c_str()`: what is read of a string goes up to the first zero. -/
def c_str (str : List UInt8) : List UInt8 := str.takeWhile (· != 0)

/-! ## The functions -/

/-- The size of the array for `n` bytes. -/
def encodedSize (n : Nat) : Nat := n * 138 / 100 + 1

/-- The size of the array for `n` characters; the product is a `size_t`. -/
def decodedSize (n : Nat) : Nat := n * 733 % 2 ^ 64 / 1000 + 1

def encodeBase58 (vch : List UInt8) : Except Fault (List UInt8) :=
  -- Skip & count leading zeroes.
  let zeroes := (vch.takeWhile (· == 0)).length
  let bytes := vch.dropWhile (· == 0)
  if 2 ^ 31 ≤ zeroes ∨ 2 ^ 63 ≤ bytes.length * 138 then .error .overflow
  else
    let size := toInt (encodedSize bytes.length)
    if size < 0 then .error .length_error
    else
      match convert 58 256 (bytes.map (·.toNat)) 0 (replicate size.toNat 0) with
      | none => .error .assertion
      | some (length, b58) =>
        .ok (replicate zeroes (digitChar 0) ++
          ((b58.reverse.drop (b58.length - length)).dropWhile (· == 0)).map digitChar)

/-- The loop over the characters: what it leaves unread, and the array. -/
def decodeLoop : List UInt8 → Nat → List Nat →
    Except Fault (Option (List UInt8 × Nat × List Nat))
  | [], length, b256 => .ok (some ([], length, b256))
  | c :: psz, length, b256 =>
    if isspace c then .ok (some (c :: psz, length, b256))
    else
      match pszBase58.idxOf? c with
      | none => .ok none
      | some ch =>
        -- Apply "b256 = b256 * 58 + ch".
        let r := mulAdd 256 58 ch length b256
        if r.2.2 = 0 then decodeLoop psz r.2.1 r.1 else .error .assertion

/-- `DecodeBase58(const char*, ...)`; `none` when it returns false. -/
def decodeBase58 (psz : List UInt8) : Except Fault (Option (List UInt8)) :=
  -- Skip leading spaces.
  let psz := psz.dropWhile isspace
  -- Skip and count leading '1's.
  let zeroes := (psz.takeWhile (· == digitChar 0)).length
  let psz := psz.dropWhile (· == digitChar 0)
  if 2 ^ 31 ≤ zeroes then .error .overflow
  else
    let size := toInt (decodedSize psz.length)
    if size < 0 then .error .length_error
    else
      match decodeLoop psz 0 (replicate size.toNat 0) with
      | .error fault => .error fault
      | .ok none => .ok none
      | .ok (some (psz, length, b256)) =>
        -- Skip trailing spaces.
        if psz.dropWhile isspace ≠ [] then .ok none
        else
          .ok (some (replicate zeroes 0 ++
            ((b256.reverse.drop (b256.length - length)).dropWhile (· == 0)).map (·.toUInt8)))

/-- `DecodeBase58(const std::string&, ...)`. -/
def decodeBase58String (str : List UInt8) : Except Fault (Option (List UInt8)) :=
  decodeBase58 (c_str str)

/-! ## Characters and sizes -/

theorem digitChar_spec : ∀ k < 58, pszBase58.idxOf? (digitChar k) = some k ∧
    isspace (digitChar k) = false ∧ digitChar k ≠ 0 := by
  decide +kernel

theorem digitChar_of_idxOf? {c : UInt8} {k : Nat} (h : pszBase58.idxOf? c = some k) :
    k < 58 ∧ digitChar k = c := by
  obtain ⟨hk, hc, -⟩ := idxOf?_eq_some_iff.mp h
  exact ⟨hk, (getD_eq_getElem _ _ hk).trans hc⟩

theorem digitChar_inj {k k' : Nat} (hk : k < 58) (hk' : k' < 58)
    (h : digitChar k = digitChar k') : k = k' := by
  have h1 := (digitChar_spec k hk).1
  rw [h, (digitChar_spec k' hk').1] at h1
  exact (Option.some.inj h1).symm

variable {n : Nat}

theorem toInt_of_lt (h : n < 2 ^ 31) : toInt n = n := by
  rw [toInt, BitVec.toInt_eq_toNat_cond, BitVec.toNat_ofNat]
  omega

theorem toInt_of_ge (h : 2 ^ 31 ≤ n) : toInt n < 0 ∨ toInt n < 2 ^ 31 ∧ 2 ^ 32 ≤ n := by
  rw [toInt, BitVec.toInt_eq_toNat_cond, BitVec.toNat_ofNat]
  omega

theorem bytes_lt_room (n : Nat) : 256 ^ n < 58 ^ encodedSize n :=
  pow_lt_pow_estimate (by decide) (by decide) (by decide +kernel) n

theorem chars_lt_room (h : n * 733 < 2 ^ 64) : 58 ^ n < 256 ^ decodedSize n := by
  rw [decodedSize, mod_eq_of_lt h]
  exact pow_lt_pow_estimate (by decide) (by decide) (by decide +kernel) n

section Lists

variable {α : Type*} [BEq α] [LawfulBEq α]

theorem takeWhile_replicate_append (a : α) (n : Nat) {l : List α} (h : l.head? ≠ some a) :
    (replicate n a ++ l).takeWhile (· == a) = replicate n a ∧
      (replicate n a ++ l).dropWhile (· == a) = l := by
  have hl : l.takeWhile (· == a) = [] ∧ l.dropWhile (· == a) = l := by
    cases l with
    | nil => exact ⟨rfl, rfl⟩
    | cons b l =>
      have hb : (b == a) = false := by simpa using h
      simp [hb]
  have hall : ∀ b ∈ replicate n a, (b == a) = true := by
    intro b hb
    rw [eq_of_mem_replicate hb]
    exact beq_self_eq_true a
  rw [takeWhile_append_of_pos hall, dropWhile_append_of_pos hall, hl.1, hl.2,
    append_nil]
  exact ⟨rfl, rfl⟩

omit [BEq α] [LawfulBEq α] in
theorem exists_replicate_append (a : α) (l : List α) :
    ∃ n rest, l = replicate n a ++ rest ∧ rest.head? ≠ some a := by
  induction l with
  | nil => exact ⟨0, [], rfl, nofun⟩
  | cons b l ih =>
    by_cases hb : b = a
    · obtain ⟨n, rest, hl, hrest⟩ := ih
      exact ⟨n + 1, rest, by rw [hb, hl, replicate_succ, cons_append], hrest⟩
    · exact ⟨0, b :: l, rfl, fun h => hb (Option.some.inj h)⟩

end Lists

/-! ## Encoding -/

/-- The bytes of a number, without zeros in front. -/
def bytesOf (n : Nat) : List UInt8 := (digits 256 n).reverse.map (·.toUInt8)

/-- Its characters. -/
def charsOf (n : Nat) : List UInt8 := (digits 58 n).reverse.map digitChar

/-- The number that bytes stand for. -/
def numberOf (bytes : List UInt8) : Nat := append 256 0 (bytes.map (·.toNat))

theorem lt_of_mem_digits_reverse {base d : Nat} (hbase : 1 < base)
    (h : d ∈ (digits base n).reverse) : d < base :=
  digits_lt_base hbase (mem_reverse.mp h)

theorem map_toNat_bytesOf (n : Nat) : (bytesOf n).map (·.toNat) = (digits 256 n).reverse := by
  rw [bytesOf, map_map]
  refine (map_congr_left fun d hd => ?_).trans (map_id _)
  exact mod_eq_of_lt (lt_of_mem_digits_reverse (by decide) hd)

theorem numberOf_bytesOf (n : Nat) : numberOf (bytesOf n) = n := by
  rw [numberOf, map_toNat_bytesOf, append_zero, reverse_reverse, ofDigits_digits]

theorem head?_bytesOf (n : Nat) : (bytesOf n).head? ≠ some 0 := by
  intro h
  have hmap := congrArg (Option.map UInt8.toNat) h
  rw [← head?_map, map_toNat_bytesOf] at hmap
  exact head?_digits_reverse 256 n hmap

variable {bytes : List UInt8}

theorem toNat_lt_of_mem_map {c : Nat} (h : c ∈ bytes.map (·.toNat)) : c < 256 := by
  obtain ⟨b, -, rfl⟩ := mem_map.mp h
  exact b.toNat_lt

theorem bytesOf_numberOf (h : bytes.head? ≠ some 0) : bytesOf (numberOf bytes) = bytes := by
  have hhead : (bytes.map (·.toNat)).head? ≠ some 0 := by
    rw [head?_map]
    intro h0
    obtain ⟨b, hb, hb0⟩ := Option.map_eq_some_iff.mp h0
    exact h (hb.trans (congrArg some (UInt8.toNat_inj.mp hb0)))
  rw [bytesOf, numberOf, digits_append (by decide) (fun c => toNat_lt_of_mem_map) hhead,
    map_map]
  refine (map_congr_left fun b _ => ?_).trans (map_id _)
  exact UInt8.ofNat_toNat

variable {zeroes : Nat}

theorem encodeBase58_fits (hhead : bytes.head? ≠ some 0) (hzeroes : zeroes < 2 ^ 31)
    (hsize : encodedSize bytes.length < 2 ^ 31) : encodeBase58 (List.replicate zeroes 0 ++ bytes) =
      .ok (List.replicate zeroes (digitChar 0) ++ charsOf (numberOf bytes)) := by
  obtain ⟨htake, hdrop⟩ := takeWhile_replicate_append 0 zeroes hhead
  have hsmall : ¬(2 ^ 31 ≤ zeroes ∨ 2 ^ 63 ≤ bytes.length * 138) := by
    rw [encodedSize] at hsize
    omega
  have hinuse := InUse.replicate 58 (by decide) (encodedSize bytes.length)
  obtain ⟨hroom, hresult⟩ := convert_spec (by decide : 1 < 58) (by decide : 0 < 256)
    (bytes.map (·.toNat)) hinuse
  have hlt : append 256 0 (bytes.map (·.toNat)) < 58 ^ encodedSize bytes.length := by
    refine lt_trans (append_lt (by decide) fun c => toNat_lt_of_mem_map) ?_
    rw [List.length_map]
    exact bytes_lt_room _
  rw [length_replicate, ofDigits_replicate_zero] at hroom
  obtain ⟨⟨length, b58⟩, hconvert⟩ := Option.isSome_iff_exists.mp (hroom.mp hlt)
  obtain ⟨hlen, hused, hvalue⟩ := hresult length b58 hconvert
  rw [ofDigits_replicate_zero] at hvalue
  simp only [encodeBase58, htake, hdrop, length_replicate, if_neg hsmall, toInt_of_lt hsize,
    Int.toNat_natCast, if_neg (Int.not_lt.mpr (Int.natCast_nonneg _)), hconvert]
  rw [dropWhile_drop_reverse (by decide) hused, hvalue]
  rfl

theorem encodeBase58_large (hhead : bytes.head? ≠ some 0)
    (hlarge : 2 ^ 31 ≤ zeroes ∨ 2 ^ 31 ≤ encodedSize bytes.length) (str : List UInt8) :
    encodeBase58 (replicate zeroes 0 ++ bytes) ≠ .ok str := by
  obtain ⟨htake, hdrop⟩ := takeWhile_replicate_append 0 zeroes hhead
  simp only [encodeBase58, htake, hdrop, length_replicate]
  split
  · nofun
  next hsmall =>
    split
    · nofun
    next hneg =>
      obtain ⟨hsize, hwrap⟩ := (toInt_of_ge (hlarge.resolve_left (by omega))).resolve_left hneg
      have hinuse := InUse.replicate 58 (by decide) (toInt (encodedSize bytes.length)).toNat
      obtain ⟨hroom, -⟩ := convert_spec (by decide : 1 < 58) (by decide : 0 < 256)
        (bytes.map (·.toNat)) hinuse
      rw [length_replicate, ofDigits_replicate_zero] at hroom
      -- the number has more digits than there is room for
      have hbig : 58 ^ (toInt (encodedSize bytes.length)).toNat ≤
          append 256 0 (bytes.map (·.toNat)) := by
        cases bytes with
        | nil =>
          rw [encodedSize] at hwrap
          simp at hwrap
        | cons b bytes =>
          have hb : b.toNat ≠ 0 := fun h0 => hhead (congrArg some (UInt8.toNat_inj.mp h0))
          have hlen : (toInt (encodedSize (b :: bytes).length)).toNat ≤ bytes.length := by
            rw [encodedSize, length_cons] at hwrap
            omega
          refine le_trans ?_ (pow_le_append hb _)
          rw [length_map]
          exact le_trans (Nat.pow_le_pow_left (by decide) _)
            (Nat.pow_le_pow_right (by decide) hlen)
      have hnone : convert 58 256 (bytes.map (·.toNat)) 0
          (replicate (toInt (encodedSize bytes.length)).toNat 0) = none := by
        rw [← Option.not_isSome_iff_eq_none, ← hroom]
        exact not_lt.mpr hbig
      rw [hnone]
      nofun

/-! ## Decoding -/

variable {ks : List Nat} {rest : List UInt8}

theorem decodeLoop_digits (hrest : ∀ c ∈ rest.head?, isspace c = true) (hks : ∀ k ∈ ks, k < 58)
    (length : Nat) (b256 : List Nat) :
    decodeLoop (ks.map digitChar ++ rest) length b256 =
      match convert 256 58 ks length b256 with
      | some r => .ok (some (rest, r))
      | none => .error .assertion := by
  induction ks generalizing length b256 with
  | nil =>
    cases rest with
    | nil => rfl
    | cons c rest =>
      rw [map_nil, nil_append, decodeLoop, if_pos (hrest c rfl)]
      rfl
  | cons k ks ih =>
    obtain ⟨hidx, hspace, -⟩ := digitChar_spec k (hks k mem_cons_self)
    rw [map_cons, cons_append, decodeLoop, hspace, if_neg Bool.false_ne_true, convert]
    simp only [hidx]
    split
    · exact ih (fun k hk => hks k (mem_cons_of_mem _ hk)) _ _
    · rfl

variable {psz : List UInt8} {b256 : List Nat} {length : Nat}

theorem decodeLoop_ok {r : Nat × List Nat} (h : decodeLoop psz length b256 = .ok (some (rest, r))) :
    ∃ ks, (∀ k ∈ ks, k < 58) ∧ psz = ks.map digitChar ++ rest ∧
      (∀ c ∈ rest.head?, isspace c = true) ∧ convert 256 58 ks length b256 = some r := by
  induction psz generalizing length b256 with
  | nil =>
    rw [decodeLoop] at h
    cases h
    exact ⟨[], nofun, rfl, nofun, rfl⟩
  | cons c psz ih =>
    rw [decodeLoop] at h
    split at h
    next hspace =>
      cases h
      refine ⟨[], nofun, rfl, fun c' hc' => ?_, rfl⟩
      rw [← Option.some.inj hc']
      exact hspace
    next =>
      split at h
      next => cases h
      -- a digit, which the multiplication by 58 takes in
      next k hidx =>
        obtain ⟨hk, hc⟩ := digitChar_of_idxOf? hidx
        dsimp only at h
        split at h
        next h0 =>
          obtain ⟨ks, hks, hpsz, hrest, hconvert⟩ := ih h
          refine ⟨k :: ks, ?_, by rw [hpsz, ← hc]; rfl, hrest, ?_⟩
          · intro k' hk'
            rcases mem_cons.mp hk' with rfl | hk'
            · exact hk
            · exact hks k' hk'
          · rw [convert, if_pos h0]
            exact hconvert
        next => cases h

theorem decodeLoop_room (hused : InUse 256 length b256)
    (hroom : (ofDigits 256 b256 + 1) * 58 ^ psz.length ≤ 256 ^ b256.length) (fault : Fault) :
    decodeLoop psz length b256 ≠ .error fault := by
  induction psz generalizing length b256 with
  | nil => nofun
  | cons c psz ih =>
    rw [decodeLoop]
    split
    · nofun
    · split
      · nofun
      next k hidx =>
        obtain ⟨hk, -⟩ := digitChar_of_idxOf? hidx
        obtain ⟨hlen, hused', hvalue⟩ := mulAdd_spec (by decide : 0 < 256) 58 k length hused
        have hcarry := mulAdd_carry (by decide : 1 < 256) 58 k length hused
        -- the room that is left shrinks as the number grows
        have hnext : (58 * ofDigits 256 b256 + k + 1) * 58 ^ psz.length ≤
            256 ^ b256.length := by
          refine le_trans (mul_le_mul_right _ (?_ : _ ≤ (ofDigits 256 b256 + 1) * 58)) ?_
          · omega
          · rw [mul_assoc, ← pow_succ']
            exact hroom
        have hlt : 58 * ofDigits 256 b256 + k < 256 ^ b256.length :=
          lt_of_lt_of_le (lt_succ_self _)
            (le_trans (Nat.le_mul_of_pos_right _ (Nat.pow_pos (by decide))) hnext)
        have h0 := hcarry.mpr hlt
        rw [h0, mul_zero, add_zero] at hvalue
        dsimp only
        rw [if_pos h0]
        exact ih hused' (by rw [hvalue, hlen]; exact hnext)

/-- What a string that is decoded looks like. -/
structure Written (psz : List UInt8) (zeroes : Nat) (ks : List Nat) : Prop where
  digits : ∀ k ∈ ks, k < 58
  head : ks.head? ≠ some 0
  spaces : ∃ before after, (∀ c ∈ before, isspace c = true) ∧ (∀ c ∈ after, isspace c = true) ∧
    psz = before ++ (replicate zeroes (digitChar 0) ++ ks.map digitChar ++ after)

/-- The number that digits stand for. -/
def valueOf (ks : List Nat) : Nat := append 58 0 ks

theorem head?_map_digitChar {after : List UInt8} (hks : ∀ k ∈ ks, k < 58)
    (hhead : ks.head? ≠ some 0) (hafter : ∀ c ∈ after, isspace c = true) :
    (ks.map digitChar ++ after).head? ≠ some (digitChar 0) := by
  intro h
  cases ks with
  | nil =>
    have hspace := hafter _ (mem_of_head? h)
    rw [(digitChar_spec 0 (by decide)).2.1] at hspace
    nomatch hspace
  | cons k ks =>
    have hk := digitChar_inj (hks k mem_cons_self) (by decide) (Option.some.inj h)
    exact hhead (congrArg some hk)

theorem dropWhile_isspace_eq_nil {l : List UInt8} :
    l.dropWhile isspace = [] ↔ ∀ c ∈ l, isspace c = true := dropWhile_eq_nil_iff

theorem Written.dropWhile_isspace (h : Written psz zeroes ks) :
    ∃ after, (∀ c ∈ after, isspace c = true) ∧ psz.dropWhile isspace =
      replicate zeroes (digitChar 0) ++ (ks.map digitChar ++ after) := by
  obtain ⟨before, after, hbefore, hafter, rfl⟩ := h.spaces
  rw [dropWhile_append_of_pos hbefore]
  by_cases hbody : zeroes = 0 ∧ ks = []
  · obtain ⟨rfl, rfl⟩ := hbody
    exact ⟨[], nofun, dropWhile_isspace_eq_nil.mpr hafter⟩
  · refine ⟨after, hafter, ?_⟩
    rw [append_assoc]
    cases zeroes with
    | succ n =>
      rw [replicate_succ, cons_append, dropWhile_cons,
        (digitChar_spec 0 (by decide)).2.1, if_neg Bool.false_ne_true]
    | zero =>
      cases ks with
      | nil => exact absurd ⟨rfl, rfl⟩ hbody
      | cons k ks =>
        rw [replicate_zero, nil_append, map_cons, cons_append,
          dropWhile_cons, (digitChar_spec k (h.digits k mem_cons_self)).2.1,
          if_neg Bool.false_ne_true]

theorem decodedSize_lt {m : Nat} (hn : n ≤ m) (hm : m * 733 / 1000 + 1 < 2 ^ 31) :
    n * 733 < 2 ^ 64 ∧ decodedSize n < 2 ^ 31 := by
  have hlt : n * 733 < 2 ^ 64 := by omega
  have hle : n * 733 / 1000 ≤ m * 733 / 1000 :=
    Nat.div_le_div_right (Nat.mul_le_mul_right 733 hn)
  rw [decodedSize, mod_eq_of_lt hlt]
  exact ⟨hlt, lt_of_le_of_lt (succ_le_succ hle) hm⟩

theorem decodeBase58_written (h : Written psz zeroes ks) (hzeroes : zeroes < 2 ^ 31)
    (hsize : (psz.length - zeroes) * 733 / 1000 + 1 < 2 ^ 31) :
    decodeBase58 psz = .ok (some (List.replicate zeroes 0 ++ bytesOf (valueOf ks))) := by
  obtain ⟨after, hafter, hskip⟩ := h.dropWhile_isspace
  obtain ⟨htake, hdrop⟩ := takeWhile_replicate_append (digitChar 0) zeroes
    (head?_map_digitChar h.digits h.head hafter)
  -- what is left after the zeros has room in the array that is allocated for it
  have hlen : (ks.map digitChar ++ after).length ≤ psz.length - zeroes := by
    have hle : (psz.dropWhile isspace).length ≤ psz.length :=
      (dropWhile_suffix isspace).length_le
    rw [hskip, List.length_append, length_replicate] at hle
    omega
  obtain ⟨hmul, hfits⟩ := decodedSize_lt hlen hsize
  have hroom := chars_lt_room hmul
  have hused := InUse.replicate 256 (by decide)
    (decodedSize (ks.map digitChar ++ after).length)
  obtain ⟨hconvert, hresult⟩ := convert_spec (by decide : 1 < 256) (by decide : 0 < 58) ks hused
  rw [length_replicate, ofDigits_replicate_zero] at hconvert
  -- so the conversion leaves no carry
  have hlt : append 58 0 ks < 256 ^ decodedSize (ks.map digitChar ++ after).length := by
    refine lt_trans (lt_of_lt_of_le (append_lt (by decide) h.digits) ?_) hroom
    refine Nat.pow_le_pow_right (by decide) ?_
    rw [List.length_append, List.length_map]
    exact Nat.le_add_right _ _
  obtain ⟨⟨length, b256⟩, hres⟩ := Option.isSome_iff_exists.mp (hconvert.mp hlt)
  obtain ⟨-, hused', hvalue⟩ := hresult length b256 hres
  rw [ofDigits_replicate_zero] at hvalue
  have hloop := decodeLoop_digits
    (fun c hc => hafter c (mem_of_mem_head? hc)) h.digits 0
    (List.replicate (decodedSize (ks.map digitChar ++ after).length) 0)
  rw [hres] at hloop
  simp only [decodeBase58, hskip, htake, hdrop, length_replicate,
    if_neg (not_le.mpr hzeroes), toInt_of_lt hfits, Int.toNat_natCast,
    if_neg (Int.not_lt.mpr (Int.natCast_nonneg _)), hloop, dropWhile_isspace_eq_nil.mpr hafter]
  rw [if_neg (not_not.mpr rfl), dropWhile_drop_reverse (by decide) hused', hvalue]
  rfl

variable {out : List UInt8}

theorem decodeBase58_ok (h : decodeBase58 psz = .ok (some out)) :
    ∃ zeroes ks, Written psz zeroes ks ∧ zeroes < 2 ^ 31 ∧
      out = replicate zeroes 0 ++ bytesOf (valueOf ks) := by
  obtain ⟨zeroes, psz2, hpsz, hhead⟩ :=
    exists_replicate_append (digitChar 0) (psz.dropWhile isspace)
  obtain ⟨htake, hdrop⟩ := takeWhile_replicate_append (digitChar 0) zeroes hhead
  simp only [decodeBase58, hpsz, htake, hdrop, length_replicate] at h
  split at h
  · cases h
  next hzeroes =>
    split at h
    · cases h
    · split at h
      · cases h
      · cases h
      next rest length b256 hloop =>
        split at h
        · cases h
        next hspaces =>
          -- each check has passed; the digits and their value are those of the loop
          obtain ⟨ks, hks, hpsz2, -, hconvert⟩ := decodeLoop_ok hloop
          have hused := InUse.replicate 256 (by decide)
            (toInt (decodedSize psz2.length)).toNat
          obtain ⟨-, hused', hvalue⟩ := (convert_spec (by decide : 1 < 256)
            (by decide : 0 < 58) ks hused).2 length b256 hconvert
          rw [ofDigits_replicate_zero] at hvalue
          rw [dropWhile_drop_reverse (by decide) hused', hvalue] at h
          refine ⟨zeroes, ks, ⟨hks, fun h0 => hhead ?_, ?_⟩, by omega, ?_⟩
          · -- a digit of zero would have been counted with the others
            cases ks with
            | nil => nomatch h0
            | cons k ks =>
              rw [hpsz2, Option.some.inj h0]
              rfl
          · refine ⟨psz.takeWhile isspace, rest, fun c hc => mem_takeWhile_imp hc,
              dropWhile_isspace_eq_nil.mp (not_not.mp hspaces), ?_⟩
            rw [append_assoc, ← hpsz2, ← hpsz, takeWhile_append_dropWhile]
          · cases h
            rfl

/-! ## Round trips -/

/-- A string without the whitespace at both ends. -/
def trim (str : List UInt8) : List UInt8 := (str.dropWhile isspace).rdropWhile isspace

theorem Written.trim_eq (h : Written psz zeroes ks) :
    trim psz = replicate zeroes (digitChar 0) ++ ks.map digitChar := by
  obtain ⟨after, hafter, hskip⟩ := h.dropWhile_isspace
  have hbody : ∀ c ∈ replicate zeroes (digitChar 0) ++ ks.map digitChar,
      isspace c = false := by
    intro c hc
    rcases mem_append.mp hc with hc | hc
    · rw [eq_of_mem_replicate hc]
      exact (digitChar_spec 0 (by decide)).2.1
    · obtain ⟨k, hk, rfl⟩ := mem_map.mp hc
      exact (digitChar_spec k (h.digits k hk)).2.1
  rw [trim, hskip, ← append_assoc, rdropWhile, reverse_append,
    dropWhile_append_of_pos fun c hc => hafter c (mem_reverse.mp hc)]
  generalize replicate zeroes (digitChar 0) ++ ks.map digitChar = body at hbody
  rw [← rdropWhile, rdropWhile_eq_self_iff]
  intro hne
  rw [hbody _ (getLast_mem hne)]
  exact Bool.false_ne_true

theorem zero_not_mem_written (hks : ∀ k ∈ ks, k < 58) :
    0 ∉ replicate zeroes (digitChar 0) ++ ks.map digitChar := by
  intro h
  rcases mem_append.mp h with h | h
  · exact absurd (eq_of_mem_replicate h) (digitChar_spec 0 (by decide)).2.2.symm
  · obtain ⟨k, hk, h0⟩ := mem_map.mp h
    exact (digitChar_spec k (hks k hk)).2.2 h0

variable {str : List UInt8}

theorem c_str_of_not_mem (h : 0 ∉ str) : c_str str = str := by
  rw [c_str, takeWhile_eq_self_iff]
  intro c hc
  rw [bne_iff_ne]
  rintro rfl
  exact h hc

/-- The bytes are decoded from what they are encoded to. -/
def RoundTrips (vch : List UInt8) : Prop :=
  ∃ str, encodeBase58 vch = .ok str ∧ decodeBase58String str = .ok (some vch)

/-- Both numbers that `EncodeBase58` keeps as `int` fit. -/
def FitsInt (vch : List UInt8) : Prop :=
  (vch.takeWhile (· == 0)).length < 2 ^ 31 ∧
    encodedSize (vch.dropWhile (· == 0)).length < 2 ^ 31

theorem fitsInt_append (hhead : bytes.head? ≠ some 0) : FitsInt (replicate zeroes 0 ++ bytes) ↔
      zeroes < 2 ^ 31 ∧ encodedSize bytes.length < 2 ^ 31 := by
  obtain ⟨htake, hdrop⟩ := takeWhile_replicate_append 0 zeroes hhead
  rw [FitsInt, htake, hdrop, length_replicate]

theorem digits_lt_encodedSize (bytes : List UInt8) :
    (digits 58 (numberOf bytes)).length ≤ encodedSize bytes.length := by
  rw [digits_length_le_iff (by decide)]
  refine lt_trans (append_lt (by decide) fun c => toNat_lt_of_mem_map) ?_
  rw [length_map]
  exact bytes_lt_room _

theorem charsOf_valueOf (hks : ∀ k ∈ ks, k < 58) (hhead : ks.head? ≠ some 0) :
    charsOf (valueOf ks) = ks.map digitChar := by
  rw [charsOf, valueOf, digits_append (by decide) hks hhead]

theorem valueOf_digits (n : Nat) : valueOf (digits 58 n).reverse = n := by
  rw [valueOf, append_zero, reverse_reverse, ofDigits_digits]

theorem roundTrips_iff (vch : List UInt8) : RoundTrips vch ↔ FitsInt vch := by
  obtain ⟨zeroes, bytes, rfl, hhead⟩ := exists_replicate_append 0 vch
  rw [fitsInt_append hhead]
  constructor
  · rintro ⟨str, hstr, -⟩
    by_contra hlarge
    exact encodeBase58_large hhead (by omega) str hstr
  · rintro ⟨hzeroes, hsize⟩
    refine ⟨_, encodeBase58_fits hhead hzeroes hsize, ?_⟩
    have hks : ∀ k ∈ (digits 58 (numberOf bytes)).reverse, k < 58 := fun k hk =>
      lt_of_mem_digits_reverse (by decide) hk
    have hlen := digits_lt_encodedSize bytes
    rw [← length_reverse] at hlen
    have hvalue := valueOf_digits (numberOf bytes)
    have hhead' := head?_digits_reverse 58 (numberOf bytes)
    rw [charsOf]
    generalize (digits 58 (numberOf bytes)).reverse = ks at hks hlen hvalue hhead' ⊢
    have hwritten : Written (replicate zeroes (digitChar 0) ++ ks.map digitChar) zeroes ks :=
      ⟨hks, hhead', [], [], nofun, nofun, by rw [nil_append, append_nil]⟩
    rw [decodeBase58String, c_str_of_not_mem (zero_not_mem_written hks),
      decodeBase58_written hwritten hzeroes, hvalue, bytesOf_numberOf hhead]
    rw [length_append, length_replicate, length_map]
    omega

theorem not_mem_of_not_mem_trim (h : 0 ∉ trim str) : 0 ∉ str := by
  -- a zero is not whitespace
  have hstep : ∀ l : List UInt8, 0 ∉ l.dropWhile isspace → 0 ∉ l := by
    intro l hl hmem
    rw [← takeWhile_append_dropWhile (p := isspace) (l := l)] at hmem
    rcases mem_append.mp hmem with hmem | hmem
    · exact absurd (mem_takeWhile_imp hmem) (by decide)
    · exact hl hmem
  refine hstep str fun hmem => ?_
  refine hstep (str.dropWhile isspace).reverse ?_ (mem_reverse.mpr hmem)
  intro hmem'
  exact h (mem_reverse.mpr hmem')

theorem encode_decoded_iff (h : decodeBase58String str = .ok (some out)) :
    encodeBase58 out = .ok (trim str) ↔ 0 ∉ str ∧ FitsInt out := by
  obtain ⟨zeroes, ks, hwritten, -, rfl⟩ := decodeBase58_ok h
  have hhead := head?_bytesOf (valueOf ks)
  have htrim := hwritten.trim_eq
  have hencode : FitsInt (replicate zeroes 0 ++ bytesOf (valueOf ks)) →
      encodeBase58 (replicate zeroes 0 ++ bytesOf (valueOf ks)) = .ok (trim (c_str str)) := by
    intro hfits
    obtain ⟨hzeroes, hsize⟩ := (fitsInt_append hhead).mp hfits
    rw [encodeBase58_fits hhead hzeroes hsize, numberOf_bytesOf,
      charsOf_valueOf hwritten.digits hwritten.head, htrim]
  constructor
  · intro hok
    have hfits : FitsInt (replicate zeroes 0 ++ bytesOf (valueOf ks)) := by
      rw [fitsInt_append hhead]
      by_contra hlarge
      exact encodeBase58_large hhead (by omega) _ hok
    refine ⟨not_mem_of_not_mem_trim ?_, hfits⟩
    rw [hencode hfits, htrim] at hok
    rw [← Except.ok.inj hok]
    exact zero_not_mem_written hwritten.digits
  · rintro ⟨hzero, hfits⟩
    rw [hencode hfits, c_str_of_not_mem hzero]

theorem decodeBase58_fault (hsize : str.length * 733 / 1000 + 1 < 2 ^ 31) {fault : Fault}
    (h : decodeBase58String str = .error fault) : fault = .overflow ∧ 2 ^ 31 ≤ str.length := by
  rw [decodeBase58String, decodeBase58] at h
  have hskip : ((c_str str).dropWhile isspace).length ≤ str.length :=
    (dropWhile_suffix _).length_le.trans (takeWhile_sublist _).length_le
  have hones := (@List.takeWhile_sublist _ ((c_str str).dropWhile isspace)
    (· == digitChar 0)).length_le
  set psz := ((c_str str).dropWhile isspace).dropWhile (· == digitChar 0)
  have hlen : psz.length ≤ str.length := (dropWhile_suffix _).length_le.trans hskip
  obtain ⟨hmul, hfits⟩ := decodedSize_lt hlen hsize
  have hroom : decodeLoop psz 0 _ ≠ .error fault := decodeLoop_room
    (InUse.replicate 256 (by decide) (decodedSize psz.length))
    (by
      rw [ofDigits_replicate_zero, zero_add, one_mul, length_replicate]
      exact (chars_lt_room hmul).le) _
  simp only [toInt_of_lt hfits, Int.toNat_natCast] at h
  split at h
  · next hzeroes =>
    cases h
    exact ⟨rfl, hzeroes.trans (hones.trans hskip)⟩
  · split at h
    · next hnegative => exact absurd hnegative (Int.not_lt.mpr (Int.natCast_nonneg _))
    · split at h
      next hloop =>
        cases h
        exact absurd hloop hroom
      · cases h
      · split at h <;> cases h

theorem decodeBase58_no_assertion (hsize : str.length * 733 / 1000 + 1 < 2 ^ 31) :
    decodeBase58String str ≠ .error .assertion :=
  fun h => nomatch (decodeBase58_fault hsize h).1

/-- Base 58 in both directions: bytes come back if and only if their counts fit an `int`, and a
    decoded string is encoded again if and only if it holds no zero and so do the counts. -/
theorem base58_exact (vch str : List UInt8) :
    (RoundTrips vch ↔ FitsInt vch) ∧
    (∀ out, decodeBase58String str = .ok (some out) →
      (encodeBase58 out = .ok (trim str) ↔ 0 ∉ str ∧ FitsInt out)) ∧
    (FitsInt vch → encodeBase58 vch ≠ .error .assertion) ∧
    (str.length * 733 / 1000 + 1 < 2 ^ 31 → decodeBase58String str ≠ .error .assertion) := by
  refine ⟨roundTrips_iff vch, fun out h => encode_decoded_iff h, fun hfits herror => ?_,
    decodeBase58_no_assertion⟩
  obtain ⟨s, hs, -⟩ := (roundTrips_iff vch).mpr hfits
  rw [hs] at herror
  nomatch herror

/-- "2" and a zero behind it. -/
theorem decoded_up_to_zero : ¬∀ str out : List UInt8, decodeBase58String str = .ok (some out) →
    encodeBase58 out = .ok (trim str) := by
  intro h
  exact absurd (h [0x32, 0] [1] (by decide +kernel)) (by decide +kernel)

end Base58

end Rcoin
