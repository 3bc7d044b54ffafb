/-
  Variable-length integers (`serialize.h`): `WriteVarInt` with its temporary buffer,
  `GetSizeOfVarInt` and `ReadVarInt`, at an integer type of any size.

  `varIntPrefix` is what both directions have in common: the bytes that are written
  before the last one are those after which the reader's number is `n`.
-/
import Rcoin.Script.Numbers
import Rcoin.Unserialize

namespace Rcoin

open List Nat

/-! ## The source's loops -/

/-- `unsigned char tmp[(sizeof(n)*8+6)/7]`. -/
def varIntBufferSize (size : Nat) : Nat := (size * 8 + 6) / 7

/-- `(n & 0x7F) | (len ? 0x80 : 0x00)`. -/
def varIntByte (len : Nat) (n : Int) : UInt8 :=
  UInt8.ofNat (n % 128).toNat ||| (if len ≠ 0 then 0x80 else 0x00)

/-- The loop of `WriteVarInt`, with `room` bytes of `tmp` left from `tmp[len]` on, and the
    bytes in the order of the second loop; `none` is a write outside `tmp`. -/
def writeVarIntLoop : Nat → Nat → Int → Option (List UInt8)
  | 0, _, _ => none
  | room + 1, len, n =>
    if n ≤ 0x7F then some [varIntByte len n]
    else (writeVarIntLoop room (len + 1) (n / 128 - 1)).map (· ++ [varIntByte len n])

/-- `WriteVarInt` of a number of `size` bytes. -/
def writeVarInt (size : Nat) (n : Int) : Option (List UInt8) :=
  writeVarIntLoop (varIntBufferSize size) 0 n

def getSizeOfVarInt (n : Int) : Nat :=
  if n ≤ 0x7F then 1 else getSizeOfVarInt (n / 128 - 1) + 1
termination_by n.toNat
decreasing_by omega

/-- "ReadVarInt(): size too large". -/
def varIntTooLarge : IosFailure := ⟨"ReadVarInt(): size too large"⟩

/-- The loop of `ReadVarInt`, with the number read so far. -/
def readVarIntLoop (max : Nat) : Nat → List UInt8 → Except IosFailure (Nat × List UInt8)
  | _, [] => .error ⟨"CDataStream::read(): end of data"⟩
  | n, chData :: bytes =>
    if n > max >>> 7 then .error varIntTooLarge
    else
      let n := (n <<< 7) % (max + 1) ||| (chData &&& 0x7F).toNat
      if chData &&& 0x80 != 0 then
        if n = max then .error varIntTooLarge else readVarIntLoop max (n + 1) bytes
      else .ok (n, bytes)

/-- `ReadVarInt` for a type whose greatest value is `max`. -/
def readVarInt (max : Nat) (bytes : List UInt8) : Except IosFailure (Nat × List UInt8) :=
  readVarIntLoop max 0 bytes

/-- The greatest value of an unsigned type. -/
def unsignedMax (size : Nat) : Nat := 2 ^ (8 * size) - 1

/-! ## The bytes before the last one -/

/-- The bytes after which the reader's number is `n`. -/
def varIntPrefix : Nat → List UInt8
  | 0 => []
  | n + 1 => varIntPrefix (n / 128) ++ [varIntByte 1 n]
termination_by n => n
decreasing_by omega

/-- All bytes of `n`. -/
def varIntBytes (n : Nat) : List UInt8 := varIntPrefix (n / 128) ++ [varIntByte 0 n]

@[simp] theorem varIntPrefix_zero : varIntPrefix 0 = [] := by rw [varIntPrefix]

theorem varIntPrefix_succ (n : Nat) :
    varIntPrefix (n + 1) = varIntPrefix (n / 128) ++ [varIntByte 1 n] := by rw [varIntPrefix]

theorem varIntByte_succ (len : Nat) (n : Int) : varIntByte (len + 1) n = varIntByte 1 n := rfl

theorem varIntByte_spec (n : Nat) :
    (varIntByte 0 n &&& 0x7F).toNat = n % 128 ∧ (varIntByte 0 n &&& 0x80 != 0) = false ∧
      (varIntByte 1 n &&& 0x7F).toNat = n % 128 ∧ (varIntByte 1 n &&& 0x80 != 0) = true := by
  have hall : ∀ k : Fin 128,
      ((UInt8.ofNat k.val ||| 0x00) &&& 0x7F).toNat = k.val ∧
      ((UInt8.ofNat k.val ||| 0x00) &&& 0x80 != 0) = false ∧
      ((UInt8.ofNat k.val ||| 0x80) &&& 0x7F).toNat = k.val ∧
      ((UInt8.ofNat k.val ||| 0x80) &&& 0x80 != 0) = true := by decide
  have hdigit : ((n : Int) % 128).toNat = n % 128 := by omega
  exact hall ⟨n % 128, mod_lt _ (by decide)⟩

theorem eq_varIntByte (b : UInt8) (n : Nat) (hdigit : (b &&& 0x7F).toNat = n % 128) :
    b = if b &&& 0x80 != 0 then varIntByte 1 n else varIntByte 0 n := by
  have hall : ∀ c : UInt8, c =
      if c &&& 0x80 != 0 then UInt8.ofNat (c &&& 0x7F).toNat ||| 0x80
      else UInt8.ofNat (c &&& 0x7F).toNat ||| 0x00 := Digits.forall_uint8 (by decide +kernel)
  have hb := hall b
  have hn : ((n : Int) % 128).toNat = n % 128 := by omega
  rw [hdigit] at hb
  exact hb

/-! ## Writing -/

variable {n : Nat}

theorem writeVarIntLoop_succ {room len : Nat} (h : n < 2 ^ (7 * (room + 1))) :
    writeVarIntLoop (room + 1) (len + 1) n = some (varIntPrefix (n + 1)) := by
  induction room generalizing len n with
  | zero =>
    rw [writeVarIntLoop, if_pos (by omega), varIntByte_succ, varIntPrefix_succ,
      div_eq_of_lt (by omega), varIntPrefix_zero, nil_append]
  | succ room ih =>
    rw [writeVarIntLoop]
    by_cases hle : n ≤ 0x7F
    · rw [if_pos (by omega), varIntByte_succ, varIntPrefix_succ, div_eq_of_lt (by omega),
        varIntPrefix_zero, nil_append]
    · have hpow : 2 ^ (7 * (room + 1 + 1)) = 2 ^ (7 * (room + 1)) * 128 := by
        rw [mul_succ, Nat.pow_add]
      have hpred : (n : Int) / 128 - 1 = ((n / 128 - 1 : Nat) : Int) := by omega
      have hback : n / 128 - 1 + 1 = n / 128 := by omega
      rw [if_neg (by omega), hpred, ih (by omega), hback, varIntByte_succ, varIntPrefix_succ]
      rfl

theorem writeVarInt_eq {size : Nat} (hsize : 0 < size) (h : n ≤ unsignedMax size) :
    writeVarInt size n = some (varIntBytes n) := by
  obtain ⟨room, hroom⟩ : ∃ room, varIntBufferSize size = room + 2 :=
    ⟨varIntBufferSize size - 2, by unfold varIntBufferSize; omega⟩
  rw [writeVarInt, hroom, writeVarIntLoop, varIntBytes]
  by_cases hle : n ≤ 0x7F
  · rw [if_pos (by omega), div_eq_of_lt (by omega), varIntPrefix_zero, nil_append]
  · -- the buffer has a byte for each seven bits of the type
    have hbits : 8 * size ≤ 7 * (room + 1) + 7 := by
      unfold varIntBufferSize at hroom
      omega
    have hmono : 2 ^ (8 * size) ≤ 2 ^ (7 * (room + 1)) * 128 := by
      have hpow := Nat.pow_le_pow_right (by decide : 0 < 2) hbits
      rwa [Nat.pow_add] at hpow
    have hlt : n / 128 - 1 < 2 ^ (7 * (room + 1)) := by
      unfold unsignedMax at h
      omega
    have hpred : (n : Int) / 128 - 1 = ((n / 128 - 1 : Nat) : Int) := by omega
    have hback : n / 128 - 1 + 1 = n / 128 := by omega
    rw [if_neg (by omega), hpred, writeVarIntLoop_succ hlt, hback]
    rfl

theorem length_varIntPrefix (n : Nat) :
    (varIntPrefix (n + 1)).length = getSizeOfVarInt n := by
  induction n using Nat.strong_induction_on with
  | _ n ih =>
    rw [varIntPrefix_succ, List.length_append, List.length_singleton, getSizeOfVarInt]
    by_cases hle : n ≤ 0x7F
    · rw [if_pos (by omega), div_eq_of_lt (by omega), varIntPrefix_zero]
      rfl
    · have hpred : (n : Int) / 128 - 1 = ((n / 128 - 1 : Nat) : Int) := by omega
      have hback : n / 128 - 1 + 1 = n / 128 := by omega
      rw [if_neg (by omega), hpred, ← ih (n / 128 - 1) (by omega), hback]

theorem length_varIntBytes (n : Nat) : (varIntBytes n).length = getSizeOfVarInt n := by
  rw [← length_varIntPrefix, varIntPrefix_succ, varIntBytes, List.length_append,
    List.length_append]
  rfl

/-! ## Reading -/

section

variable {max : Nat}

theorem readVarIntLoop_cons (hn : n ≤ max / 128) (b : UInt8) (bytes : List UInt8) :
    readVarIntLoop max n (b :: bytes) =
      if b &&& 0x80 != 0 then
        if n * 128 + (b &&& 0x7F).toNat = max then .error varIntTooLarge
        else readVarIntLoop max (n * 128 + (b &&& 0x7F).toNat + 1) bytes
      else .ok (n * 128 + (b &&& 0x7F).toNat, bytes) := by
  have hlow : (b &&& 0x7F).toNat < 2 ^ 7 := by
    exact and_lt_two_pow _ (by decide)
  have hshift : (n <<< 7) % (max + 1) ||| (b &&& 0x7F).toNat = n * 128 + (b &&& 0x7F).toNat := by
    have hmul : n <<< 7 = 2 ^ 7 * n := by rw [shiftLeft_eq, Nat.mul_comm]
    rw [hmul, mod_eq_of_lt (by omega), ← two_pow_add_eq_or_of_lt hlow, Nat.mul_comm]
  have hguard : ¬n > max >>> 7 := by
    omega
  rw [readVarIntLoop, if_neg hguard]
  simp only [hshift]

theorem readVarIntLoop_prefix (hn : n ≤ max) (bytes : List UInt8) :
    readVarIntLoop max 0 (varIntPrefix n ++ bytes) = readVarIntLoop max n bytes := by
  induction n using Nat.strong_induction_on generalizing bytes with
  | _ n ih =>
    cases n with
    | zero => rw [varIntPrefix_zero, nil_append]
    | succ n =>
      obtain ⟨-, -, hdigit, hflag⟩ := varIntByte_spec n
      have hsum : n / 128 * 128 + n % 128 = n := by omega
      rw [varIntPrefix_succ, append_assoc, ih (n / 128) (by omega) (by omega),
        singleton_append, readVarIntLoop_cons (by omega), hdigit, hflag, if_pos rfl, hsum,
        if_neg (by omega)]

theorem readVarInt_varIntBytes (hn : n ≤ max) (rest : List UInt8) :
    readVarInt max (varIntBytes n ++ rest) = .ok (n, rest) := by
  obtain ⟨hdigit, hflag, -, -⟩ := varIntByte_spec n
  have hsum : n / 128 * 128 + n % 128 = n := by omega
  rw [readVarInt, varIntBytes, append_assoc, readVarIntLoop_prefix (by omega),
    singleton_append, readVarIntLoop_cons (by omega), hdigit, hflag,
    if_neg Bool.false_ne_true, hsum]

variable {bytes rest : List UInt8} {x : Nat}

theorem eq_of_readVarIntLoop (hmax : max % 128 = 127) (hn : n ≤ max)
    (h : readVarIntLoop max n bytes = .ok (x, rest)) :
    x ≤ max ∧ varIntPrefix n ++ bytes = varIntBytes x ++ rest := by
  induction bytes generalizing n with
  | nil => cases h
  | cons b bytes ih =>
    by_cases hguard : n ≤ max / 128
    · rw [readVarIntLoop_cons hguard] at h
      have hlow : (b &&& 0x7F).toNat < 128 := by
        exact and_lt_two_pow (n := 7) _ (by decide)
      have hdigit : (b &&& 0x7F).toNat = (n * 128 + (b &&& 0x7F).toNat) % 128 := by omega
      have hdiv : (n * 128 + (b &&& 0x7F).toNat) / 128 = n := by omega
      have hbyte := eq_varIntByte b _ hdigit
      split at h
      · next hflag =>
        split at h
        · cases h
        next hne =>
        rw [if_pos hflag] at hbyte
        obtain ⟨hle, heq⟩ := ih (by omega) h
        refine ⟨hle, ?_⟩
        rw [← heq, varIntPrefix_succ, hdiv, append_assoc, singleton_append, ← hbyte]
      · next hflag =>
        cases h
        rw [if_neg hflag] at hbyte
        refine ⟨by omega, ?_⟩
        rw [varIntBytes, hdiv, append_assoc, singleton_append, ← hbyte]
    · rw [readVarIntLoop, if_pos (by rw [shiftRight_eq_div_pow]; omega)] at h
      cases h

theorem readVarInt_eq_ok (hmax : max % 128 = 127) :
    readVarInt max bytes = .ok (x, rest) ↔ x ≤ max ∧ bytes = varIntBytes x ++ rest := by
  constructor
  · intro h
    have heq := eq_of_readVarIntLoop hmax (Nat.zero_le _) h
    rwa [varIntPrefix_zero, nil_append] at heq
  · rintro ⟨hle, rfl⟩
    exact readVarInt_varIntBytes hle rest

theorem readVarIntLoop_error {e : IosFailure} (h : readVarIntLoop max n bytes = .error e) :
    e = ⟨"CDataStream::read(): end of data"⟩ ∨ e = varIntTooLarge := by
  induction bytes generalizing n with
  | nil =>
    cases h
    exact .inl rfl
  | cons b bytes ih =>
    rw [readVarIntLoop] at h
    split at h
    · cases h
      exact .inr rfl
    simp only at h
    split at h
    · split at h
      · cases h
        exact .inr rfl
      · exact ih h
    · cases h

end

/-! ## Both ways -/

theorem unsignedMax_mod {size : Nat} (hsize : 0 < size) : unsignedMax size % 128 = 127 := by
  have hpow : 2 ^ (8 * size) = 2 ^ (8 * size - 7) * 128 := by
    rw [← Nat.pow_add 2 _ 7]
    congr 1
    omega
  have hpos : 0 < 2 ^ (8 * size - 7) := Nat.two_pow_pos _
  unfold unsignedMax
  omega

/-- For an unsigned type of any size, every value is read back from what is written for
    it, and nothing else is read; so with compact sizes up to `MAX_SIZE`. -/
theorem varInt_exact {size : Nat} (hsize : 0 < size) :
    (∀ n ≤ unsignedMax size, ∃ written, writeVarInt size n = some written ∧
      written.length = getSizeOfVarInt n ∧
      ∀ rest, readVarInt (unsignedMax size) (written ++ rest) = .ok (n, rest)) ∧
    (∀ bytes, match readVarInt (unsignedMax size) bytes with
      | .ok (n, rest) => n ≤ unsignedMax size ∧ ∃ written, writeVarInt size n = some written ∧
          bytes = written ++ rest
      | .error e => e = ⟨"CDataStream::read(): end of data"⟩ ∨ e = varIntTooLarge) ∧
    (∀ n ≤ MAX_SIZE, (writeCompactSize n).length = getSizeOfCompactSize n ∧
      ∀ rest, readCompactSize (writeCompactSize n ++ rest) = .ok (n, rest)) ∧
    ∀ bytes n rest, readCompactSize bytes = .ok (n, rest) →
      n ≤ MAX_SIZE ∧ bytes = writeCompactSize n ++ rest := by
  refine ⟨fun n hn => ?_, fun bytes => ?_, fun n hn => ?_, fun bytes n rest h => ?_⟩
  · exact ⟨_, writeVarInt_eq hsize hn, length_varIntBytes n,
      fun rest => (readVarInt_eq_ok (unsignedMax_mod hsize)).mpr ⟨hn, rfl⟩⟩
  · cases h : readVarInt (unsignedMax size) bytes with
    | ok r =>
      obtain ⟨n, rest⟩ := r
      obtain ⟨hn, hbytes⟩ := (readVarInt_eq_ok (unsignedMax_mod hsize)).mp h
      exact ⟨hn, _, writeVarInt_eq hsize hn, hbytes⟩
    | error e => exact readVarIntLoop_error h
  · exact ⟨length_writeCompactSize n, fun rest => readCompactSize_eq_ok.mpr ⟨hn, rfl⟩⟩
  · exact readCompactSize_eq_ok.mp h

/-- At one byte. -/
theorem varInt_exact_byte : writeVarInt 1 (255 : Nat) = some [0x80, 0x7F] ∧
    ∀ rest, readVarInt 255 ([0x80, 0x7F] ++ rest) = .ok (255, rest) := by
  obtain ⟨written, hwritten, -, hread⟩ := (varInt_exact (by decide : 0 < 1)).1 255 (by decide)
  have heq : writeVarInt 1 (255 : Nat) = some [0x80, 0x7F] := by decide
  obtain rfl := Option.some.inj (heq.symm.trans hwritten)
  exact ⟨heq, hread⟩

end Rcoin
