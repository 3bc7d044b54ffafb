/-
  The check of a signature: the equation of points it comes down to for a scalar
  below 2^253, and the other scalars that pass wherever one does.

  Source: src/ed25519/verify.c, `CPubKey::Verify` of src/pubkey.cpp.
-/
import Rcoin.Ed25519.DoubleScalarmult
import Rcoin.Script.Interpreter

namespace Rcoin

open List

namespace EdwardsCurve

variable (C : EdwardsCurve)

/-- The hash of `R`, the key and the message, as a scalar. -/
def hram (R public_key message : List UInt8) : List UInt8 :=
  C.sc_reduce (C.sha512 (R ++ public_key ++ message))

/-- `ed25519_verify`, of 64 bytes at `signature` and 32 at `public_key`. -/
def ed25519_verify (signature message public_key : List UInt8) : Bool :=
  if signature.getD 63 0 &&& 224 ≠ 0 then false
  else match C.ge_frombytes_negate_vartime public_key with
    | none => false
    | some A =>
      let h := C.hram (signature.take 32) public_key message
      let R := C.ge_double_scalarmult_vartime h A (signature.drop 32)
      C.ge_tobytes R == signature.take 32

/-- `CPubKey::IsValid`: `size()` is a constant. -/
def isValidPubKey (_pubkey : CPubKey) : Bool := decide (PUBLIC_KEY_SIZE > 0)

/-- `CPubKey::Verify`. -/
def verifyPubKey (pubkey : CPubKey) (hash : Uint256) (vchSig : List UInt8) : Bool :=
  if !isValidPubKey pubkey then false
  else C.ed25519_verify vchSig (leBytes 32 hash) pubkey

theorem verifyPubKey_eq (pubkey : CPubKey) (hash : Uint256) (vchSig : List UInt8) :
    C.verifyPubKey pubkey hash vchSig = C.ed25519_verify vchSig (leBytes 32 hash) pubkey := rfl

/-! ## Scalars and points -/

theorem ge_tobytes_injective : Function.Injective C.ge_tobytes := by
  intro P Q h
  have hP := C.ge_frombytes_negate_tobytes P
  rw [h, C.ge_frombytes_negate_tobytes Q] at hP
  exact (neg_injective (Option.some.inj hP)).symm

theorem smul_B_eq_iff {x y : Nat} : x • C.B = y • C.B ↔ x ≡ y [MOD groupOrder] := by
  rw [← C.addOrderOf_B]
  exact nsmul_eq_nsmul_iff_modEq

theorem zsmul_B_eq_zero_iff {x : Int} : x • C.B = 0 ↔ (groupOrder : Int) ∣ x := by
  rw [← C.addOrderOf_B]
  exact addOrderOf_dvd_iff_zsmul_eq_zero.symm

theorem length_hram (R public_key message : List UInt8) :
    (C.hram R public_key message).length = 32 := by
  rw [hram, C.sc_reduce_eq _ (C.sha512_length _), length_leBytes]

theorem ofLeBytes_hram (R public_key message : List UInt8) :
    ofLeBytes (C.hram R public_key message) =
      ofLeBytes (C.sha512 (R ++ public_key ++ message)) % groupOrder := by
  have hlt : ofLeBytes (C.sha512 (R ++ public_key ++ message)) % groupOrder < groupOrder :=
    Nat.mod_lt _ (by decide)
  rw [hram, C.sc_reduce_eq _ (C.sha512_length _),
    ofLeBytes_leBytes (Nat.lt_trans hlt (by decide))]

end EdwardsCurve

/-! ## The range of the second half -/

theorem ofLeBytes_concat (bytes : List UInt8) (b : UInt8) :
    ofLeBytes (bytes ++ [b]) = ofLeBytes bytes + 256 ^ bytes.length * b.toNat := by
  induction bytes with
  | nil =>
    rw [nil_append, ofLeBytes_cons, length_nil, pow_zero, one_mul]
    exact Nat.add_comm ..
  | cons c bytes ih =>
    rw [cons_append, ofLeBytes_cons, ih, ofLeBytes_cons, length_cons, pow_succ]
    ring

theorem ofLeBytes_lt (bytes : List UInt8) : ofLeBytes bytes < 256 ^ bytes.length := by
  induction bytes with
  | nil => decide
  | cons b bytes ih =>
    have hb := b.toNat_lt
    rw [ofLeBytes_cons, length_cons, pow_succ]
    omega

theorem and_224_eq_zero_iff {s : List UInt8} (h : s.length = 32) :
    s.getD 31 0 &&& 224 = 0 ↔ ofLeBytes s < 2 ^ 253 := by
  obtain ⟨low, b, rfl⟩ : ∃ low b, s = low ++ [b] := by
    refine ⟨s.dropLast, s.getLast (ne_nil_of_length_eq_add_one h), ?_⟩
    exact (dropLast_append_getLast _).symm
  have hlow : low.length = 31 := by
    rw [length_append, length_singleton] at h
    exact Nat.succ.inj h
  have hbound := ofLeBytes_lt low
  have hand : ∀ n < 256, (n &&& 224 = 0 ↔ n < 32) := by decide +kernel
  have hbyte : b &&& 224 = 0 ↔ b.toNat < 32 := by
    rw [← hand _ b.toNat_lt, ← UInt8.toNat_inj]
    exact Iff.rfl
  rw [ofLeBytes_concat, getD_append_right _ _ _ _ hlow.le, hlow, Nat.sub_self,
    getD_cons_zero, hbyte]
  rw [hlow] at hbound
  omega

namespace EdwardsCurve

variable (C : EdwardsCurve)

variable {S : List UInt8}

variable {R message public_key : List UInt8}

theorem ed25519_verify_iff (hR : R.length = 32) (hS : S.length = 32)
    : C.ed25519_verify (R ++ S) message public_key = true ↔
      ofLeBytes S < 2 ^ 253 ∧ ∃ A, C.ge_frombytes_negate_vartime public_key = some A ∧
        C.ge_tobytes (ofLeBytes (C.hram R public_key message) • A + ofLeBytes S • C.B) = R := by
  have htop : (R ++ S).getD 63 0 = S.getD 31 0 := by
    rw [getD_append_right _ _ _ _ (by omega), hR]
  unfold ed25519_verify
  rw [htop, take_left' hR, drop_left' hR]
  by_cases hrange : S.getD 31 0 &&& 224 = 0
  · have hlt := (and_224_eq_zero_iff hS).mp hrange
    rw [if_neg (fun h => h hrange)]
    cases hkey : C.ge_frombytes_negate_vartime public_key with
    | none => exact ⟨fun h => (nomatch h), fun ⟨_, A, hA, _⟩ => (nomatch hA)⟩
    | some A =>
      have hh : ofLeBytes (C.hram R public_key message) < 2 ^ 255 := by
        rw [C.ofLeBytes_hram]
        exact Nat.lt_trans (Nat.mod_lt _ (by decide)) (by decide)
      dsimp only
      rw [C.ge_double_scalarmult_vartime_eq A (C.length_hram ..) hS hh
        (Nat.lt_trans hlt (by decide)), beq_iff_eq]
      exact ⟨fun h => ⟨hlt, A, rfl, h⟩, fun ⟨_, A', hA', h⟩ => by cases hA'; exact h⟩
  · rw [if_pos hrange]
    exact ⟨fun h => (nomatch h), fun ⟨hlt, _⟩ => absurd ((and_224_eq_zero_iff hS).mpr hlt) hrange⟩

/-! ## Other signatures of the same message -/

variable {S' : List UInt8}

theorem ed25519_verify_congr (hR : R.length = 32) (hS : S.length = 32) (hS' : S'.length = 32)
    (hmod : ofLeBytes S ≡ ofLeBytes S' [MOD groupOrder]) (hlt' : ofLeBytes S' < 2 ^ 253)
    (h : C.ed25519_verify (R ++ S) message public_key = true) :
    C.ed25519_verify (R ++ S') message public_key = true := by
  obtain ⟨-, A, hA, heq⟩ := (C.ed25519_verify_iff hR hS).mp h
  refine (C.ed25519_verify_iff hR hS').mpr ⟨hlt', A, hA, ?_⟩
  rw [← C.smul_B_eq_iff.mpr hmod, heq]

theorem modEq_of_ed25519_verify (hR : R.length = 32) (hS : S.length = 32) (hS' : S'.length = 32)
    (h : C.ed25519_verify (R ++ S) message public_key = true)
    (h' : C.ed25519_verify (R ++ S') message public_key = true) :
    ofLeBytes S ≡ ofLeBytes S' [MOD groupOrder] := by
  obtain ⟨-, A, hA, heq⟩ := (C.ed25519_verify_iff hR hS).mp h
  obtain ⟨-, A', hA', heq'⟩ := (C.ed25519_verify_iff hR hS').mp h'
  cases hA.symm.trans hA'
  exact C.smul_B_eq_iff.mp (add_left_cancel (C.ge_tobytes_injective (heq.trans heq'.symm)))

theorem ed25519_verify_neutral (hS : S.length = 32) (hlt : ofLeBytes S < 2 ^ 253)
    (message : List UInt8) :
    C.ed25519_verify (C.ge_tobytes (ofLeBytes S • C.B) ++ S) message (C.ge_tobytes 0) = true := by
  refine (C.ed25519_verify_iff (C.ge_tobytes_length _) hS).mpr
    ⟨hlt, 0, ?_, ?_⟩
  · rw [C.ge_frombytes_negate_tobytes, neg_zero]
  · rw [smul_zero, zero_add]

/-- No two second halves pass for one message, key and first half. -/
def NotMalleable (S S' : List UInt8) : Prop :=
  ∀ (pubkey : CPubKey) (hash : Uint256) (R : List UInt8), pubkey.length = PUBLIC_KEY_SIZE →
    R.length = 32 → C.verifyPubKey pubkey hash (R ++ S) = true →
      C.verifyPubKey pubkey hash (R ++ S') = true → S = S'

/-- Two second halves are told apart exactly when they differ modulo the group order,
    or one of them is outside the range. -/
theorem notMalleable_iff {S S' : List UInt8} (hS : S.length = 32) (hS' : S'.length = 32) :
    C.NotMalleable S S' ↔ S = S' ∨ ¬ofLeBytes S ≡ ofLeBytes S' [MOD groupOrder] ∨
      2 ^ 253 ≤ ofLeBytes S ∨ 2 ^ 253 ≤ ofLeBytes S' := by
  constructor
  · intro h
    by_contra hcond
    push Not at hcond
    obtain ⟨hne, hmod, hlt, hlt'⟩ := hcond
    have hpass := C.ed25519_verify_neutral hS hlt (leBytes 32 0)
    have hlen := C.ge_tobytes_length (ofLeBytes S • C.B)
    exact hne (h (C.ge_tobytes 0) 0 _ (C.ge_tobytes_length 0) hlen hpass
      (C.ed25519_verify_congr hlen hS hS' hmod hlt' hpass))
  · intro hcond pubkey hash R _ hR hpass hpass'
    rw [C.verifyPubKey_eq] at hpass hpass'
    rcases hcond with heq | hmod | hge | hge
    · exact heq
    · exact absurd (C.modEq_of_ed25519_verify hR hS hS' hpass hpass') hmod
    · exact absurd ((C.ed25519_verify_iff hR hS).mp hpass).1 (not_lt.mpr hge)
    · exact absurd ((C.ed25519_verify_iff hR hS').mp hpass').1 (not_lt.mpr hge)

end EdwardsCurve

/-! ## A curve

The group of the curve's multiples of the base point, with the bytes of a few of its
points as they are on the curve, and the hashes of the messages the samples sign. -/

namespace SampleCurve

instance : NeZero groupOrder := ⟨by decide⟩

def neutral : List UInt8 := 1 :: List.replicate 31 0

def basePoint : List UInt8 := 0x58 :: List.replicate 31 0x66

/-- A key with a scalar beyond the range of `ge_scalarmult_base`. -/
def highKey : List UInt8 := List.replicate 31 0 ++ [255] ++ List.replicate 32 0

/-- What `ge_scalarmult_base` makes of it. -/
def highPubkey : List UInt8 :=
  [30, 212, 147, 87, 226, 23, 231, 157, 171, 60, 85, 3, 130, 47, 43, 219, 86, 30, 48, 46,
   36, 71, 110, 230, 255, 51, 36, 44, 117, 81, 212, 103]

/-- SHA-512 of 64 zeros: the second half of the key, and the message. -/
def nonceHash : List UInt8 :=
  [123, 233, 253, 164, 143, 65, 121, 230, 17, 198, 152, 167, 60, 255, 9, 250, 247, 40, 105,
   67, 30, 254, 230, 234, 173, 20, 222, 12, 180, 75, 191, 102, 80, 63, 117, 43, 122, 142,
   177, 112, 131, 53, 95, 60, 230, 235, 125, 40, 6, 242, 54, 178, 90, 249, 106, 36, 226, 43,
   136, 116, 5, 194, 0, 129]

/-- The multiple of the base point for it. -/
def nonceR : List UInt8 :=
  [98, 151, 183, 201, 83, 103, 69, 221, 83, 52, 61, 148, 111, 234, 7, 189, 39, 175, 198,
   245, 67, 129, 111, 242, 58, 160, 40, 120, 6, 147, 139, 212]

/-- SHA-512 of `nonceR`, `highPubkey` and the message. -/
def highHram : List UInt8 :=
  [75, 153, 218, 20, 217, 178, 206, 161, 213, 26, 57, 23, 37, 206, 46, 124, 59, 53, 175, 99,
   11, 66, 43, 55, 236, 207, 213, 4, 117, 30, 88, 177, 101, 204, 176, 137, 168, 152, 55, 74,
   66, 70, 23, 107, 84, 179, 131, 61, 177, 42, 113, 235, 46, 241, 68, 101, 41, 195, 147,
   139, 86, 86, 251, 246]

/-- The point that the check of the signature computes. -/
def highCheck : List UInt8 :=
  [137, 174, 159, 197, 95, 71, 219, 35, 29, 112, 217, 172, 151, 166, 164, 64, 131, 123, 103,
   56, 126, 143, 83, 184, 68, 97, 161, 63, 180, 23, 50, 73]

/-- SHA-512 of `nonceR`, `basePoint` and the message. -/
def oneHram : List UInt8 :=
  [47, 13, 142, 221, 195, 245, 69, 70, 151, 169, 8, 242, 246, 37, 15, 5, 191, 245, 129, 213,
   38, 252, 120, 233, 107, 13, 75, 25, 147, 128, 76, 249, 237, 213, 69, 169, 142, 100, 79,
   52, 223, 15, 120, 209, 181, 215, 100, 25, 2, 196, 112, 232, 199, 103, 15, 214, 204, 17,
   71, 144, 221, 221, 5, 183]

/-- SHA-512 of `neutral` twice, and the message. -/
def neutralHram : List UInt8 :=
  [166, 49, 84, 199, 218, 40, 225, 152, 18, 215, 28, 119, 50, 14, 137, 43, 29, 203, 56, 149,
   60, 95, 186, 115, 213, 94, 124, 106, 196, 211, 72, 217, 148, 48, 145, 197, 110, 106, 51,
   227, 116, 187, 11, 226, 228, 255, 64, 142, 176, 203, 152, 172, 179, 97, 162, 220, 29, 30,
   165, 116, 98, 145, 163, 29]

/-- SHA-512 of `neutral` twice, and the number 1, which stands for the hash of a
    transaction that has no output for `SIGHASH_SINGLE`. -/
def singleHram : List UInt8 :=
  [214, 27, 37, 68, 220, 177, 139, 46, 192, 231, 219, 63, 181, 205, 217, 149, 144, 94, 235,
   62, 230, 210, 192, 245, 164, 135, 194, 159, 92, 210, 118, 114, 128, 148, 97, 91, 159, 30,
   208, 93, 24, 236, 156, 43, 19, 161, 48, 96, 68, 32, 84, 190, 179, 96, 217, 5, 44, 193,
   137, 236, 167, 112, 51, 15]

/-- Multiples of the base point with their bytes. -/
def encodings : List (Nat × List UInt8) :=
  [(0, neutral), (1, basePoint),
    (6784692728748995825599862402852807100805280481779749152722819750754543588333, highPubkey),
    (7151486130094591056984089191252997872008252309884190194501630517600956020310, nonceR),
    (577423949429246292415399005721037237044426687033497685835752782046664568135, highCheck)]

/-- The bytes of the other points start here. -/
def offset : Nat := 2 ^ 255

def tobytes (P : ZMod groupOrder) : List UInt8 :=
  match encodings.find? fun e => (e.1 : ZMod groupOrder) = P with
  | some e => e.2
  | none => leBytes 32 (offset + P.val)

def frombytes (s : List UInt8) : Option (ZMod groupOrder) :=
  match encodings.find? fun e => e.2 = s with
  | some e => some e.1
  | none =>
    if offset ≤ ofLeBytes s ∧ ofLeBytes s < offset + groupOrder then
      some ((ofLeBytes s - offset : Nat) : ZMod groupOrder)
    else none

theorem frombytes_tobytes (P : ZMod groupOrder) : frombytes (tobytes P) = some P := by
  unfold tobytes
  cases hfind : encodings.find? fun e => (e.1 : ZMod groupOrder) = P with
  | some e =>
    have hP : (e.1 : ZMod groupOrder) = P := by simpa using find?_some hfind
    have hback : ∀ e ∈ encodings, encodings.find? (fun e' => e'.2 = e.2) = some e := by
      decide
    rw [frombytes, hback e (mem_of_find?_eq_some hfind)]
    exact congrArg some hP
  | none =>
    have hval := ZMod.val_lt P
    have hlt : offset + P.val < 2 ^ (8 * 32) :=
      (Nat.add_lt_add_left hval _).trans (by decide)
    have hother : encodings.find? (fun e => e.2 = leBytes 32 (offset + P.val)) = none := by
      have hbytes : ∀ e ∈ encodings,
          ¬(offset ≤ ofLeBytes e.2 ∧ ofLeBytes e.2 < offset + groupOrder) := by
        decide
      refine find?_eq_none.mpr fun e he heq => hbytes e he ?_
      rw [of_decide_eq_true heq, ofLeBytes_leBytes hlt]
      exact ⟨Nat.le_add_right .., Nat.add_lt_add_left hval _⟩
    rw [frombytes, hother, ofLeBytes_leBytes hlt]
    rw [if_pos ⟨Nat.le_add_right .., Nat.add_lt_add_left hval _⟩, Nat.add_sub_cancel_left,
      ZMod.natCast_zmod_val]

theorem length_tobytes (P : ZMod groupOrder) : (tobytes P).length = 32 := by
  unfold tobytes
  cases hfind : encodings.find? fun e => (e.1 : ZMod groupOrder) = P with
  | some e =>
    have hlen : ∀ e ∈ encodings, e.2.length = 32 := by decide
    exact hlen e (mem_of_find?_eq_some hfind)
  | none => exact length_leBytes ..

/-- SHA-512 on the messages of the samples. -/
def sha512 (data : List UInt8) : List UInt8 :=
  if data = List.replicate 64 0 then nonceHash
  else if data = nonceR ++ highPubkey ++ List.replicate 32 0 then highHram
  else if data = nonceR ++ basePoint ++ List.replicate 32 0 then oneHram
  else if data = neutral ++ neutral ++ leBytes 32 1 then singleHram
  else neutralHram

theorem length_sha512 (data : List UInt8) : (sha512 data).length = 64 := by
  unfold sha512
  split
  · rfl
  split
  · rfl
  split
  · rfl
  split
  · rfl
  · rfl

def curve : EdwardsCurve where
  Point := ZMod groupOrder
  B := 1
  addOrderOf_B := ZMod.addOrderOf_one groupOrder
  base i j := ((j + 1) * 256 ^ i : Nat)
  base_eq _ _ _ _ := (nsmul_one _).symm
  Bi j := (2 * j + 1 : Nat)
  Bi_eq _ _ := (nsmul_one _).symm
  ge_tobytes := tobytes
  ge_tobytes_length := length_tobytes
  ge_frombytes_negate_vartime s := (frombytes s).map Neg.neg
  ge_frombytes_negate_tobytes P := congrArg (Option.map Neg.neg) (frombytes_tobytes P)
  sc_reduce s := leBytes 32 (ofLeBytes s % groupOrder)
  sc_reduce_eq _ _ := rfl
  sc_muladd a b c := leBytes 32 ((ofLeBytes a * ofLeBytes b + ofLeBytes c) % groupOrder)
  sc_muladd_eq := Bip32Sample.curve.sc_muladd_eq
  sha512 := sha512
  sha512_length := length_sha512

theorem tobytes_zero : tobytes 0 = neutral := by decide

/-- 0 and 1 are told apart. -/
theorem notMalleable_iff_one : curve.NotMalleable (leBytes 32 0) (leBytes 32 1) :=
  (curve.notMalleable_iff (length_leBytes ..) (length_leBytes ..)).mpr
    (.inr (.inl (by decide)))

/-- 0 and the group order both sign the message of 32 zeros. -/
theorem verify_groupOrder : curve.verifyPubKey neutral 0 (neutral ++ leBytes 32 0) = true ∧
    curve.verifyPubKey neutral 0 (neutral ++ leBytes 32 groupOrder) = true ∧
    leBytes 32 0 ≠ leBytes 32 groupOrder := by
  have hzero : ofLeBytes (leBytes 32 0) = 0 := ofLeBytes_leBytes (by decide)
  have horder : ofLeBytes (leBytes 32 groupOrder) = groupOrder := ofLeBytes_leBytes (by decide)
  have hlen : neutral.length = 32 := rfl
  have hmod : ofLeBytes (leBytes 32 0) ≡ ofLeBytes (leBytes 32 groupOrder) [MOD groupOrder] := by
    rw [hzero, horder, Nat.ModEq, Nat.zero_mod, Nat.mod_self]
  have hlt : ofLeBytes (leBytes 32 groupOrder) < 2 ^ 253 := by
    rw [horder]
    decide
  have hpass := curve.ed25519_verify_neutral (length_leBytes 32 0)
    (by rw [hzero]; exact Nat.two_pow_pos _) (leBytes 32 0)
  rw [hzero, zero_smul, show curve.ge_tobytes 0 = neutral from tobytes_zero] at hpass
  rw [curve.verifyPubKey_eq, curve.verifyPubKey_eq]
  refine ⟨hpass, ?_, fun heq => ?_⟩
  · exact curve.ed25519_verify_congr hlen (length_leBytes 32 0) (length_leBytes 32 groupOrder)
      hmod hlt hpass
  · have hval := congrArg ofLeBytes heq
    rw [hzero, horder] at hval
    exact absurd hval (by decide)

end SampleCurve

end Rcoin
