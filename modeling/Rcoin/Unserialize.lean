/-
  Reading byte forms back from a stream (`serialize.h`, `streams.h`): fixed-width
  numbers and compact sizes.  A read returns the value and the bytes behind it.
-/
import Rcoin.Lib.Fallible
import Rcoin.Serialize

namespace Rcoin

open Fallible List

/-- `std::ios_base::failure`, with its text. -/
structure IosFailure where
  what : String
  deriving DecidableEq, Repr

/-- `CDataStream::read`. -/
def readData (nSize : Nat) (bytes : List UInt8) : Except IosFailure (List UInt8 × List UInt8) :=
  if bytes.length < nSize then .error ⟨"CDataStream::read(): end of data"⟩
  else .ok (bytes.take nSize, bytes.drop nSize)

/-- `ser_readdata8` to `ser_readdata64`, and the bytes of a `uint256`. -/
def readLe (n : Nat) (bytes : List UInt8) : Except IosFailure (Nat × List UInt8) :=
  (readData n bytes).map fun (data, rest) => (ofLeBytes data, rest)

/-- A number of `n` bytes that has no shorter form. -/
def readCanonical (n least : Nat) (bytes : List UInt8) : Except IosFailure (Nat × List UInt8) := do
  let (nSizeRet, rest) ← readLe n bytes
  failIf (nSizeRet < least) ⟨"non-canonical ReadCompactSize()"⟩
  return (nSizeRet, rest)

/-- The number behind the first byte. -/
def readBehindFirst (chSize : Nat) (rest : List UInt8) : Except IosFailure (Nat × List UInt8) :=
  if chSize < 253 then pure (chSize, rest)
  else if chSize = 253 then readCanonical 2 253 rest
  else if chSize = 254 then readCanonical 4 0x10000 rest
  else readCanonical 8 0x100000000 rest

def readCompactSize (bytes : List UInt8) : Except IosFailure (Nat × List UInt8) := do
  let (chSize, rest) ← readLe 1 bytes
  let (nSizeRet, rest) ← readBehindFirst chSize rest
  failIf (nSizeRet > MAX_SIZE) ⟨"ReadCompactSize(): size too large"⟩
  return (nSizeRet, rest)

/-! ## Fixed-width numbers -/

theorem ofLeBytes_lt_two_pow (bytes : List UInt8) : ofLeBytes bytes < 2 ^ (8 * bytes.length) := by
  have h : ∀ d ∈ bytes.reverse.map UInt8.toNat, d < 2 ^ 8 := by
    intro d hd
    obtain ⟨b, -, rfl⟩ := mem_map.mp hd
    exact b.toNat_lt
  simpa [ofLeBytes] using Digits.ofDigits_lt h

theorem leBytes_ofLeBytes (bytes : List UInt8) :
    leBytes bytes.length (ofLeBytes bytes) = bytes := by
  have h : ∀ d ∈ bytes.reverse.map UInt8.toNat, d < 2 ^ 8 := by
    intro d hd
    obtain ⟨b, -, rfl⟩ := mem_map.mp hd
    exact b.toNat_lt
  have hdigits := Digits.digits_ofDigits h
  rw [length_map, length_reverse] at hdigits
  rw [leBytes, ofLeBytes, hdigits, map_map]
  have hid : UInt8.ofNat ∘ UInt8.toNat = id := funext fun b => UInt8.ofNat_toNat
  rw [hid, map_id, reverse_reverse]

variable {x : Nat} {bytes rest : List UInt8}

theorem readLe_eq_ok {n : Nat} :
    readLe n bytes = .ok (x, rest) ↔ x < 2 ^ (8 * n) ∧ bytes = leBytes n x ++ rest := by
  constructor
  · intro h
    unfold readLe readData at h
    split at h
    · cases h
    · next hlen =>
      have htake : (bytes.take n).length = n := length_take_of_le (by omega)
      cases h
      refine ⟨?_, ?_⟩
      · have hlt := ofLeBytes_lt_two_pow (bytes.take n)
        rwa [htake] at hlt
      · have hbytes := leBytes_ofLeBytes (bytes.take n)
        rw [htake] at hbytes
        rw [hbytes, take_append_drop]
  · rintro ⟨hlt, rfl⟩
    have hlen : (leBytes n x).length = n := length_leBytes n x
    have hge : ¬(leBytes n x ++ rest).length < n := by
      rw [length_append]
      omega
    rw [readLe, readData, if_neg hge, take_left' hlen, drop_left' hlen]
    show Except.ok (ofLeBytes (leBytes n x), rest) = _
    rw [ofLeBytes_leBytes hlt]

/-! ## Compact sizes -/

theorem readCanonical_eq_ok {n least : Nat} : readCanonical n least bytes = .ok (x, rest) ↔
      (least ≤ x ∧ x < 2 ^ (8 * n)) ∧ bytes = leBytes n x ++ rest := by
  rw [readCanonical, bind_eq_ok]
  constructor
  · rintro ⟨⟨y, rest'⟩, hread, hrest⟩
    obtain ⟨hle, heq⟩ := failIf_bind_eq_ok.mp hrest
    cases heq
    obtain ⟨hlt, hbytes⟩ := readLe_eq_ok.mp hread
    exact ⟨⟨by simpa using hle, hlt⟩, hbytes⟩
  · rintro ⟨⟨hle, hlt⟩, hbytes⟩
    refine ⟨(x, rest), readLe_eq_ok.mpr ⟨hlt, hbytes⟩, ?_⟩
    exact failIf_bind_eq_ok.mpr ⟨by simpa using hle, rfl⟩

theorem leBytes_one : leBytes 1 x = [UInt8.ofNat x] := by
  simp only [leBytes, Digits.digits_succ, Digits.digits_zero, map_cons, map_nil,
    reverse_singleton, List.cons.injEq, and_true]
  apply UInt8.toNat_inj.mp
  simp

theorem readBehindFirst_eq_ok {chSize : Nat} (hch : chSize < 256)
    (h : readBehindFirst chSize bytes = .ok (x, rest)) :
    UInt8.ofNat chSize :: bytes = writeCompactSize x ++ rest := by
  unfold readBehindFirst at h
  unfold writeCompactSize
  split at h
  · next hlt =>
    cases h
    rw [if_pos hlt, leBytes_one]
    rfl
  split at h
  · next h253 =>
    obtain ⟨⟨hle, hlt⟩, rfl⟩ := readCanonical_eq_ok.mp h
    rw [if_neg (by omega), if_pos (by omega), h253]
    rfl
  split at h
  · next h254 =>
    obtain ⟨⟨hle, hlt⟩, rfl⟩ := readCanonical_eq_ok.mp h
    rw [if_neg (by omega), if_neg (by omega), if_pos (by omega), h254]
    rfl
  · next h253 h254 =>
    obtain ⟨⟨hle, -⟩, rfl⟩ := readCanonical_eq_ok.mp h
    have h255 : chSize = 255 := by omega
    rw [if_neg (by omega), if_neg (by omega), if_neg (by omega), h255]
    rfl

theorem exists_readBehindFirst (hx : x < 2 ^ 64) (rest : List UInt8) :
    ∃ chSize bytes, chSize < 256 ∧ writeCompactSize x ++ rest = UInt8.ofNat chSize :: bytes ∧
      readBehindFirst chSize bytes = .ok (x, rest) := by
  unfold writeCompactSize
  split
  · next hlt =>
    refine ⟨x, rest, by omega, by rw [leBytes_one]; rfl, ?_⟩
    rw [readBehindFirst, if_pos hlt]
    rfl
  split
  · next hge hle =>
    exact ⟨253, _, by decide, rfl, readCanonical_eq_ok.mpr ⟨⟨by omega, by omega⟩, rfl⟩⟩
  split
  · next hge hle =>
    exact ⟨254, _, by decide, rfl, readCanonical_eq_ok.mpr ⟨⟨by omega, by omega⟩, rfl⟩⟩
  · next hge =>
    exact ⟨255, _, by decide, rfl, readCanonical_eq_ok.mpr ⟨⟨by omega, by omega⟩, rfl⟩⟩

theorem readCompactSize_eq_ok : readCompactSize bytes = .ok (x, rest) ↔
      x ≤ MAX_SIZE ∧ bytes = writeCompactSize x ++ rest := by
  rw [readCompactSize, bind_eq_ok]
  constructor
  · rintro ⟨⟨chSize, bytes'⟩, hbyte, h⟩
    obtain ⟨⟨nSizeRet, rest'⟩, hsize, h⟩ := bind_eq_ok.mp h
    obtain ⟨hmax, h⟩ := failIf_bind_eq_ok.mp h
    cases h
    obtain ⟨hch, rfl⟩ := readLe_eq_ok.mp hbyte
    refine ⟨by simpa using hmax, ?_⟩
    rw [leBytes_one]
    exact readBehindFirst_eq_ok hch hsize
  · rintro ⟨hmax, rfl⟩
    have hx : x < 2 ^ 64 := Nat.lt_of_le_of_lt hmax (by decide)
    obtain ⟨chSize, bytes', hch, hbytes, hsize⟩ := exists_readBehindFirst hx rest
    refine ⟨(chSize, bytes'), readLe_eq_ok.mpr ⟨hch, ?_⟩, ?_⟩
    · rw [hbytes, leBytes_one]
      rfl
    · refine bind_eq_ok.mpr ⟨(x, rest), hsize, ?_⟩
      exact failIf_bind_eq_ok.mpr ⟨by simpa using hmax, rfl⟩

end Rcoin
