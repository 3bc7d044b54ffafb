/-
  `EncodeBase64`, `EncodeBase32` and what reads them (src/utilstrencodings.cpp). The two
  pairs differ in their characters, in the bits of a character and in how many make a group.
-/
import Rcoin.Encoding.Bech32
import Rcoin.Encoding.ConvertBits

namespace Rcoin

open List

namespace Base64

open ConvertBits

/-! ## The functions -/

/-- `while (str.size() % per) str += '='`; it goes round less than `per` times. -/
def padLoop (per : Nat) : Nat → List UInt8 → List UInt8
  | 0, str => str
  | fuel + 1, str => if str.length % per ≠ 0 then padLoop per fuel (str ++ [61]) else str

def encode (bits per : Nat) (chars pch : List UInt8) : List UInt8 :=
  padLoop per per ((convertBits 8 bits true pch).2.map fun v => chars.getD v.toNat 0)

/-- An entry, none where it is -1. -/
def lookup (table : List Int) (c : UInt8) : Option UInt8 :=
  let x := table.getD c.toNat (-1)
  if x = -1 then none else some (UInt8.ofNat x.toNat)

/-- Whether the string is valid, and what is returned. -/
def decode (bits per : Nat) (table : List Int) (p : List UInt8) : Bool × List UInt8 :=
  let e := p.takeWhile (· ≠ 0)
  let val := (e.takeWhile fun c => (lookup table c).isSome).filterMap (lookup table)
  let (valid, ret) := convertBits bits 8 false val
  let q := e.dropWhile fun c => (lookup table c).isSome
  (valid && q.all (· == 61) && e.length % per == 0 && decide (q.length < per), ret)

/-- `n` entries from `x` on. -/
def run (x n : Nat) : List Int := (List.range' x n).map Int.ofNat

def gap (n : Nat) : List Int := List.replicate n (-1)

def asciiRun (c n : Nat) : List UInt8 := (List.range' c n).map UInt8.ofNat

def pbase64 : List UInt8 := asciiRun 65 26 ++ asciiRun 97 26 ++ asciiRun 48 10 ++ [43, 47]

def decode64_table : List Int :=
  gap 43 ++ [62, -1, -1, -1, 63] ++ run 52 10 ++ gap 7 ++ run 0 26 ++ gap 6 ++ run 26 26 ++ gap 133

def pbase32 : List UInt8 := asciiRun 97 26 ++ asciiRun 50 6

def decode32_table : List Int :=
  gap 50 ++ run 26 6 ++ gap 9 ++ run 0 26 ++ gap 6 ++ run 0 26 ++ gap 133

def encodeBase64 : List UInt8 → List UInt8 := encode 6 4 pbase64

def decodeBase64 : List UInt8 → Bool × List UInt8 := decode 6 4 decode64_table

def encodeBase32 : List UInt8 → List UInt8 := encode 5 8 pbase32

def decodeBase32 : List UInt8 → Bool × List UInt8 := decode 5 8 decode32_table

/-! ## The characters -/

/-- The table inverts the characters, up to `norm`. -/
structure Inverts (bits : Nat) (chars : List UInt8) (table : List Int) (norm : UInt8 → UInt8) :
    Prop where
  lookup_char : ∀ v : UInt8, v.toNat < 2 ^ bits → lookup table (chars.getD v.toNat 0) = some v
  char_lookup : ∀ c : UInt8, (lookup table c).all
    (fun v => decide (v.toNat < 2 ^ bits ∧ chars.getD v.toNat 0 = norm c)) = true
  zero : lookup table 0 = none
  padding : lookup table 61 = none ∧ norm 61 = 61

theorem inverts64 : Inverts 6 pbase64 decode64_table id where
  lookup_char := Digits.forall_uint8 (by decide +kernel)
  char_lookup := Digits.forall_uint8 (by decide +kernel)
  zero := by decide
  padding := by decide

theorem inverts32 : Inverts 5 pbase32 decode32_table Bech32.lowerCase where
  lookup_char := Digits.forall_uint8 (by decide +kernel)
  char_lookup := Digits.forall_uint8 (by decide +kernel)
  zero := by decide
  padding := by decide

section

variable {bits per : Nat} {chars : List UInt8} {table : List Int} {norm : UInt8 → UInt8}

theorem filterMap_map (h : Inverts bits chars table norm) {val : List UInt8}
    (hval : ∀ v ∈ val, v.toNat < 2 ^ bits) :
    (val.map fun v => chars.getD v.toNat 0).filterMap (lookup table) = val := by
  induction val with
  | nil => rfl
  | cons v val ih =>
    obtain ⟨hv, hval⟩ := forall_mem_cons.mp hval
    rw [map_cons, filterMap_cons_some (h.lookup_char v hv), ih hval]

variable {str : List UInt8}

theorem map_filterMap (h : Inverts bits chars table norm)
    (hstr : ∀ c ∈ str, (lookup table c).isSome) :
    (∀ v ∈ str.filterMap (lookup table), v.toNat < 2 ^ bits) ∧
      ((str.filterMap (lookup table)).map fun v => chars.getD v.toNat 0) = str.map norm := by
  induction str with
  | nil => exact ⟨forall_mem_nil _, rfl⟩
  | cons c str ih =>
    obtain ⟨hc, hstr⟩ := forall_mem_cons.mp hstr
    obtain ⟨v, hv⟩ := Option.isSome_iff_exists.mp hc
    have hchar := h.char_lookup c
    rw [hv] at hchar
    obtain ⟨hlt, hnorm⟩ := of_decide_eq_true hchar
    rw [filterMap_cons_some hv, map_cons, map_cons, hnorm, (ih hstr).2]
    exact ⟨forall_mem_cons.mpr ⟨hlt, (ih hstr).1⟩, rfl⟩

/-! ## The padding -/

theorem padLoop_eq {n fuel : Nat} (hn : n < per) (hfuel : n ≤ fuel)
    (h : (str.length + n) % per = 0) :
    padLoop per fuel str = str ++ List.replicate n 61 := by
  induction n generalizing fuel str with
  | zero =>
    rw [replicate_zero, append_nil]
    cases fuel with
    | zero => rfl
    | succ fuel => exact if_neg (not_not_intro h)
  | succ n ih =>
    obtain ⟨fuel, rfl⟩ : ∃ k, fuel = k + 1 := ⟨fuel - 1, by omega⟩
    have hmore : str.length % per ≠ 0 := by
      intro hzero
      rw [Nat.add_mod, hzero, Nat.zero_add, Nat.mod_mod, Nat.mod_eq_of_lt hn] at h
      cases h
    rw [padLoop, if_pos hmore, ih (by omega) (by omega), append_assoc]
    · rfl
    · rw [length_append, length_singleton, Nat.add_assoc, Nat.add_comm 1]
      exact h

theorem padLoop_spec (hper : 0 < per) (str : List UInt8) : ∃ n < per,
    (str.length + n) % per = 0 ∧ padLoop per per str = str ++ List.replicate n 61 := by
  have hn := Nat.mod_lt (str.length * (per - 1)) hper
  have hsum : (str.length + str.length * (per - 1) % per) % per = 0 := by
    obtain ⟨k, rfl⟩ : ∃ k, per = k + 1 := ⟨per - 1, by omega⟩
    rw [Nat.add_mod_mod, Nat.add_sub_cancel, Nat.add_comm, ← Nat.mul_succ, Nat.mul_mod_left]
  exact ⟨_, hn, hsum, padLoop_eq hn hn.le hsum⟩

/-! ## Round trips -/

theorem decode_encode (h : Inverts bits chars table norm) (hbits : 0 < bits) (hle : bits ≤ 8)
    (hper : 0 < per) (v : List UInt8) :
    decode bits per table (encode bits per chars v) = (true, v) := by
  have hbytes : ∀ b ∈ v, b.toNat < 2 ^ 8 := fun b _ => b.toNat_lt
  have hval : ∀ b ∈ (convertBits 8 bits true v).2, b.toNat < 2 ^ bits :=
    fun b => lt_of_mem_convertBits (by decide) hbits hle hbytes
  have hback := convertBits_convertBits hbits hle (Nat.le_refl 8) hbytes
  rw [encode]
  generalize (convertBits 8 bits true v).2 = val at hval hback ⊢
  have hmap := filterMap_map h hval
  have hsome : ∀ c ∈ val.map fun v => chars.getD v.toNat 0, (lookup table c).isSome := by
    rw [List.forall_mem_map]
    intro b hb
    rw [h.lookup_char b (hval b hb)]
    rfl
  generalize (val.map fun v => chars.getD v.toNat 0) = str at hmap hsome ⊢
  obtain ⟨n, hn, hlen, hpad⟩ := padLoop_spec hper str
  have hnul : ∀ c ∈ str ++ List.replicate n 61, decide (c ≠ 0) = true := by
    refine fun c hc => decide_eq_true ?_
    rintro rfl
    rcases mem_append.mp hc with hc | hc
    · have hzero := hsome 0 hc
      rw [h.zero] at hzero
      cases hzero
    · cases eq_of_mem_replicate hc
  have htail : ((List.replicate n 61).takeWhile fun c => (lookup table c).isSome) = [] ∧
      ((List.replicate n 61).dropWhile fun c => (lookup table c).isSome) =
        List.replicate n 61 := by
    cases n <;> simp [replicate_succ, h.padding.1]
  rw [hpad, decode, takeWhile_eq_self_iff.mpr hnul, takeWhile_append_of_pos hsome,
    dropWhile_append_of_pos hsome, htail.1, htail.2, append_nil, hmap, hback]
  simp [hlen, hn]

theorem encode_decode (h : Inverts bits chars table norm) (hbits : 0 < bits) (hle : bits ≤ 8)
    {s v : List UInt8} (hs : ∀ c ∈ s, c ≠ 0) (hdecode : decode bits per table s = (true, v)) :
    encode bits per chars v = s.map norm := by
  have hnul : s.takeWhile (· ≠ 0) = s := takeWhile_eq_self_iff.mpr (by simpa using hs)
  have hsome : ∀ c ∈ s.takeWhile fun c => (lookup table c).isSome, (lookup table c).isSome :=
    fun c => mem_takeWhile_imp
  obtain ⟨hval, hmap⟩ := map_filterMap h hsome
  have hsplit :=
    (takeWhile_append_dropWhile (p := fun c => (lookup table c).isSome) (l := s)).symm
  rw [decode, hnul] at hdecode
  generalize s.takeWhile (fun c => (lookup table c).isSome) = str at hval hmap hsplit hdecode
  generalize s.dropWhile (fun c => (lookup table c).isSome) = q at hsplit hdecode
  simp only [Prod.mk.injEq, Bool.and_eq_true, decide_eq_true_eq, beq_iff_eq, List.all_eq_true]
    at hdecode
  obtain ⟨⟨⟨⟨hvalid, hall⟩, hlen⟩, hq⟩, rfl⟩ := hdecode
  have hpad : q.map norm = List.replicate q.length 61 := by
    refine eq_replicate_iff.mpr ⟨length_map _, ?_⟩
    rw [List.forall_mem_map]
    intro c hc
    rw [hall c hc, h.padding.2]
  have hcut := convertBits_of_valid hbits hle (Nat.le_refl 8) hval (Prod.ext hvalid rfl)
  have hlength := congrArg List.length hmap
  rw [hsplit, length_append] at hlen
  rw [encode, hcut, hmap, padLoop_eq (n := q.length) hq hq.le (by rwa [length_map]), hsplit,
    map_append, hpad]

end

/-- What is encoded is read as it was, and what is valid is an encoding, up to case if there
    are 32 characters. -/
theorem decodeBase_spec :
    (∀ v, decodeBase64 (encodeBase64 v) = (true, v)) ∧
    (∀ v, decodeBase32 (encodeBase32 v) = (true, v)) ∧
    ∀ s : List UInt8, (∀ c ∈ s, c ≠ 0) →
      (∀ v, decodeBase64 s = (true, v) → encodeBase64 v = s) ∧
      ∀ v, decodeBase32 s = (true, v) → encodeBase32 v = s.map Bech32.lowerCase := by
  refine ⟨decode_encode inverts64 (by decide) (by decide) (by decide),
    decode_encode inverts32 (by decide) (by decide) (by decide), fun s hs => ⟨fun v hv => ?_,
      fun v hv => encode_decode inverts32 (by decide) (by decide) hs hv⟩⟩
  rw [encodeBase64, encode_decode inverts64 (by decide) (by decide) hs hv, List.map_id]

/-- `mZXW6===` is `foo`, of which the encoding is in lower case. -/
theorem decodeBase_spec_sample : encodeBase32 [102, 111, 111] =
    [109, 90, 88, 87, 54, 61, 61, 61].map Bech32.lowerCase :=
  (decodeBase_spec.2.2 [109, 90, 88, 87, 54, 61, 61, 61] (by decide +kernel)).2 _
    (by decide +kernel)

end Base64

end Rcoin
