/-
  Keys and signatures: `ed25519_privkey_to_pubkey` (src/ed25519/keypair.c),
  `ed25519_sign` (src/ed25519/sign.c), and `CKey` (src/key.h, src/key.cpp).  A run
  records the scalars it hands to `ge_scalarmult_base`.
-/
import Rcoin.Ed25519.Verify

namespace Rcoin

/-- A run that may end in an assertion, with the scalars that were multiplied with the
    base point. -/
abbrev KeyM := ExceptT KeyStoreError (StateM (List (List UInt8)))

theorem KeyM.run_bind {α β : Type} {x : KeyM α} {f : α → KeyM β} {calls calls' : List (List UInt8)}
    {a : α} (h : x.run.run calls = (.ok a, calls')) :
    (x >>= f).run.run calls = (f a).run.run calls' := by
  rw [ExceptT.run_bind, StateT.run_bind, h]
  rfl

def CKey.setPrivKey (key : CKey) (bytes : List UInt8) : CKey :=
  if h : bytes.length = PRIVATE_KEY_SIZE then ⟨true, bytes, h⟩ else { key with fValid := false }

namespace EdwardsCurve

variable (C : EdwardsCurve)

/-- `ge_scalarmult_base` of the 32 bytes at `a`. -/
def scalarmultBase (a : List UInt8) : KeyM C.Point := do
  modify fun calls => calls ++ [a.take 32]
  pure (C.ge_scalarmult_base (a.take 32))

def ed25519_privkey_to_pubkey (private_key : List UInt8) : KeyM (List UInt8) := do
  let A ← C.scalarmultBase private_key
  pure (C.ge_tobytes A)

def ed25519_sign (message public_key private_key : List UInt8) : KeyM (List UInt8) := do
  let r := C.sc_reduce (C.sha512 (private_key.drop 32 ++ message))
  let R ← C.scalarmultBase r
  let signature := C.ge_tobytes R
  let hram := C.hram signature public_key message
  pure (signature ++ C.sc_muladd hram (private_key.take 32) r)

def getPubKey (key : CKey) : KeyM CPubKey := do
  if !key.fValid then throw (.assertFailed "fValid")
  C.ed25519_privkey_to_pubkey key.privkey

/-- `CKey::Sign`: the signature, where it returns true. -/
def sign (key : CKey) (hash : Uint256) : KeyM (Option (List UInt8)) := do
  if !key.fValid then return none
  let pubkey ← C.getPubKey key
  let vchSig ← C.ed25519_sign (leBytes 32 hash) pubkey key.privkey
  return some vchSig

/-- A signature of the key, checked with its own public key. -/
def signAndVerify (key : CKey) (hash : Uint256) : KeyM Bool := do
  let vchSig ← C.sign key hash
  let pubkey ← C.getPubKey key
  return vchSig.any fun vchSig => C.verifyPubKey pubkey hash vchSig

/-- The bytes of the nonce. -/
def nonce (key : CKey) (hash : Uint256) : List UInt8 :=
  C.sc_reduce (C.sha512 (key.privkey.drop 32 ++ leBytes 32 hash))

/-- The public key's bytes. -/
def pubKeyBytes (key : CKey) : CPubKey := C.ge_tobytes (C.ge_scalarmult_base (key.privkey.take 32))

/-- The signature's two halves. -/
def sigR (key : CKey) (hash : Uint256) : List UInt8 :=
  C.ge_tobytes (C.ge_scalarmult_base (C.nonce key hash))

def sigS (key : CKey) (hash : Uint256) : List UInt8 :=
  C.sc_muladd (C.hram (C.sigR key hash) (C.pubKeyBytes key) (leBytes 32 hash))
    (key.privkey.take 32) (C.nonce key hash)

variable (key : CKey)

theorem length_nonce (hash : Uint256) : (C.nonce key hash).length = 32 := by
  rw [nonce, C.sc_reduce_eq _ (C.sha512_length _), length_leBytes]

theorem getPubKey_eq {key : CKey} (h : key.fValid = true) (calls : List (List UInt8)) :
    (C.getPubKey key).run.run calls = (.ok (C.pubKeyBytes key), calls ++ [key.privkey.take 32]) := by
  unfold getPubKey
  rw [h]
  rfl

theorem sign_eq {key : CKey} (h : key.fValid = true) (hash : Uint256) :
    (C.sign key hash).run.run [] = (.ok (some (C.sigR key hash ++ C.sigS key hash)),
      [key.privkey.take 32, C.nonce key hash]) := by
  have hnonce : (C.nonce key hash).take 32 = C.nonce key hash :=
    List.take_of_length_le (C.length_nonce key hash).le
  have hsign : ∀ calls, (C.ed25519_sign (leBytes 32 hash) (C.pubKeyBytes key)
      key.privkey).run.run calls =
        (.ok (C.sigR key hash ++ C.sigS key hash), calls ++ [C.nonce key hash]) := by
    intro calls
    have hrun : (C.ed25519_sign (leBytes 32 hash) (C.pubKeyBytes key) key.privkey).run.run calls =
        (.ok (C.ge_tobytes (C.ge_scalarmult_base ((C.nonce key hash).take 32)) ++
          C.sc_muladd (C.hram (C.ge_tobytes (C.ge_scalarmult_base ((C.nonce key hash).take 32)))
            (C.pubKeyBytes key) (leBytes 32 hash)) (key.privkey.take 32) (C.nonce key hash)),
          calls ++ [(C.nonce key hash).take 32]) := rfl
    rw [hrun, hnonce]
    rfl
  unfold sign
  rw [h]
  exact (KeyM.run_bind (C.getPubKey_eq h [])).trans (KeyM.run_bind (hsign _))

theorem signAndVerify_eq {key : CKey} (h : key.fValid = true) (hash : Uint256) :
    (C.signAndVerify key hash).run.run [] =
      (.ok (C.verifyPubKey (C.pubKeyBytes key) hash (C.sigR key hash ++ C.sigS key hash)),
        [key.privkey.take 32, C.nonce key hash, key.privkey.take 32]) :=
  (KeyM.run_bind (C.sign_eq h hash)).trans (KeyM.run_bind (C.getPubKey_eq h _))

/-! ## When signatures verify -/

theorem ofLeBytes_reduced {x : Nat} :
    ofLeBytes (leBytes 32 (x % groupOrder)) = x % groupOrder :=
  ofLeBytes_leBytes ((Nat.mod_lt _ (by decide)).trans (by decide))

theorem nonce_top (hash : Uint256) : ((C.nonce key hash).getD 31 0).toNat ≤ 127 := by
  rw [nonce, C.sc_reduce_eq _ (C.sha512_length _)]
  exact Ed25519.top_leBytes (Nat.mod_lt _ (by decide))

/-- The hash that the signature's scalar takes in. -/
def challenge (key : CKey) (hash : Uint256) : Nat :=
  ofLeBytes (C.sha512 (C.sigR key hash ++ C.pubKeyBytes key ++ leBytes 32 hash))

theorem sigS_eq (hash : Uint256) :
    C.sigS key hash = leBytes 32 ((C.challenge key hash % groupOrder * key.scalar +
      ofLeBytes (C.nonce key hash)) % groupOrder) := by
  rw [sigS, C.sc_muladd_eq _ _ _ (C.length_hram ..) (Ed25519.length_take_privkey key.size)
    (C.length_nonce key hash), C.ofLeBytes_hram]
  rfl

theorem coprime_top {d : Nat} (hpos : 8 < d) (hle : d ≤ 16) :
    Nat.Coprime groupOrder (16 ^ 63 * d) := by
  have hall : ∀ d ≤ 16, 8 < d → Nat.gcd groupOrder (16 ^ 63 * d) = 1 := by decide
  exact hall d hle hpos

theorem verifyPubKey_sign_iff (hash : Uint256) :
    C.verifyPubKey (C.pubKeyBytes key) hash (C.sigR key hash ++ C.sigS key hash) = true ↔
      topDigit (key.privkey.take 32) ≤ 8 ∨ C.challenge key hash % groupOrder = 0 := by
  have hlen := Ed25519.length_take_privkey key.size
  have htop := topDigit_bounds hlen
  have hbyte := ((key.privkey.take 32).getD 31 0).toNat_lt
  set a := key.scalar
  set r := ofLeBytes (C.nonce key hash)
  set h := C.challenge key hash % groupOrder
  set d := topDigit (key.privkey.take 32)
  have hR : C.ge_scalarmult_base (C.nonce key hash) = r • C.B :=
    C.ge_scalarmult_base_of_le (C.length_nonce key hash) (C.nonce_top key hash)
  have hA : C.ge_scalarmult_base (key.privkey.take 32) =
      ((a : Int) - if d ≤ 8 then 0 else 16 ^ 63 * d) • C.B := C.ge_scalarmult_base_eq hlen
  have hS : ofLeBytes (C.sigS key hash) = (h * a + r) % groupOrder := by
    rw [C.sigS_eq, ofLeBytes_reduced]
  have hSlt : ofLeBytes (C.sigS key hash) < 2 ^ 253 := by
    rw [hS]
    exact (Nat.mod_lt _ (by decide)).trans (by decide)
  have hSlen : (C.sigS key hash).length = 32 := by rw [C.sigS_eq, length_leBytes]
  have hRlen : (C.sigR key hash).length = 32 := C.ge_tobytes_length _
  have hSB : ofLeBytes (C.sigS key hash) • C.B = (h * a + r) • C.B := by
    rw [hS, C.smul_B_eq_iff]
    exact Nat.mod_modEq _ _
  have hhram : ofLeBytes (C.hram (C.sigR key hash) (C.pubKeyBytes key) (leBytes 32 hash)) = h :=
    C.ofLeBytes_hram ..
  -- the point that is computed, against the first half of the signature
  have hpoint : h • -C.ge_scalarmult_base (key.privkey.take 32) +
      ofLeBytes (C.sigS key hash) • C.B = r • C.B +
        ((h : Int) * if d ≤ 8 then 0 else 16 ^ 63 * d) • C.B := by
    rw [hSB, hA, ← natCast_zsmul, ← natCast_zsmul, ← natCast_zsmul, ← neg_smul, smul_smul,
      ← add_smul, ← add_smul]
    push_cast
    ring_nf
  have hiff : C.verifyPubKey (C.pubKeyBytes key) hash (C.sigR key hash ++ C.sigS key hash) = true ↔
      (groupOrder : Int) ∣ h * if d ≤ 8 then 0 else 16 ^ 63 * d := by
    rw [C.verifyPubKey_eq, C.ed25519_verify_iff hRlen hSlen, hhram,
      ← C.zsmul_B_eq_zero_iff]
    constructor
    · rintro ⟨-, A, hkey, heq⟩
      rw [pubKeyBytes, C.ge_frombytes_negate_tobytes] at hkey
      cases hkey
      have hsum := C.ge_tobytes_injective heq
      rw [hpoint, hR] at hsum
      exact left_eq_add.mp hsum.symm
    · intro hzero
      refine ⟨hSlt, _, C.ge_frombytes_negate_tobytes _, ?_⟩
      rw [hpoint, hzero, add_zero, sigR, hR]
  rw [hiff]
  by_cases hd : d ≤ 8
  · rw [if_pos hd, mul_zero]
    exact ⟨fun _ => .inl hd, fun _ => dvd_zero _⟩
  · rw [if_neg hd]
    obtain ⟨n, hn⟩ : ∃ n : Nat, d = n := ⟨d.toNat, (Int.toNat_of_nonneg (by omega)).symm⟩
    have hcop := coprime_top (d := n) (by omega) (by omega)
    have hhlt : h < groupOrder := Nat.mod_lt _ (by decide)
    have hcast : (h : Int) * (16 ^ 63 * d) = ((h * (16 ^ 63 * n) : Nat) : Int) := by
      rw [hn]
      rfl
    rw [hcast, Int.natCast_dvd_natCast]
    constructor
    · intro hdvd
      exact .inr (Nat.eq_zero_of_dvd_of_lt (hcop.dvd_of_dvd_mul_right hdvd) hhlt)
    · rintro (hle | hzero)
      · exact absurd hle hd
      · rw [hzero, Nat.zero_mul]
        exact dvd_zero _

/-- Every signature verifies, and `ge_scalarmult_base` is called within its range. -/
def SignsInRange (key : CKey) (hash : Uint256) : Prop :=
  ∃ calls, (C.signAndVerify key hash).run.run [] = (.ok true, calls) ∧
    ∀ a ∈ calls, (a.getD 31 0).toNat ≤ 127

variable {C} in
theorem SignsInRange.of_usable {key : CKey} (h : key.Usable) (hash : Uint256) :
    C.SignsInRange key hash := by
  have htop : topDigit (key.privkey.take 32) ≤ 8 :=
    topDigit_le (Ed25519.length_take_privkey key.size) h.top
  unfold SignsInRange
  rw [C.signAndVerify_eq h.valid, (C.verifyPubKey_sign_iff _ hash).mpr (Or.inl htop)]
  refine ⟨_, rfl, fun a ha => ?_⟩
  rcases List.mem_cons.mp ha with rfl | ha
  · exact h.top
  rcases List.mem_cons.mp ha with rfl | ha
  · exact C.nonce_top _ hash
  · rw [List.mem_singleton.mp ha]
    exact h.top

/-- A key that `SetPrivKey` accepts signs in range exactly if its scalar is in range. -/
theorem signsInRange_iff (key : CKey) {bytes : List UInt8}
    (h : (key.setPrivKey bytes).fValid = true) (hash : Uint256) :
    C.SignsInRange (key.setPrivKey bytes) hash ↔ (bytes.getD 31 0).toNat ≤ 127 := by
  have hlen : bytes.length = PRIVATE_KEY_SIZE := by
    by_contra hne
    rw [CKey.setPrivKey, dif_neg hne] at h
    exact nomatch h
  have hget : ((key.setPrivKey bytes).privkey.take 32).getD 31 0 = bytes.getD 31 0 := by
    rw [CKey.setPrivKey, dif_pos hlen, List.getD_eq_getElem?_getD,
      List.getElem?_take_of_lt (by decide), ← List.getD_eq_getElem?_getD]
  constructor
  · rintro ⟨calls, hrun, hrange⟩
    rw [C.signAndVerify_eq h] at hrun
    rw [← hget]
    -- `GetPubKey` multiplies by the key's own scalar
    refine hrange _ ?_
    rw [← (Prod.mk.inj hrun).2]
    exact List.mem_cons_self
  · intro hle
    exact SignsInRange.of_usable ⟨h, by rwa [hget]⟩ hash

/-! ## Derived keys -/

/-- What the derivation of keys assumes of the curve, with the hashes it uses. -/
def ed25519 (hmacSha512 : List UInt8 → List UInt8 → List UInt8)
    (hmacSha512_length : ∀ key data, (hmacSha512 key data).length = 64)
    (hash160 : List UInt8 → List UInt8) : Ed25519 where
  Point := C.Point
  B := C.B
  groupOrder_smul_B := by
    rw [← C.addOrderOf_B]
    exact addOrderOf_nsmul_eq_zero C.B
  ge_scalarmult_base := C.ge_scalarmult_base
  ge_scalarmult_base_eq _ := C.ge_scalarmult_base_of_le
  ge_p3_tobytes := C.ge_tobytes
  ge_p3_tobytes_length := C.ge_tobytes_length
  ge_frombytes_negate_vartime s := (C.ge_frombytes_negate_vartime s).getD 0
  ge_frombytes_negate_tobytes P := by rw [C.ge_frombytes_negate_tobytes, Option.getD_some]
  sc_muladd := C.sc_muladd
  sc_muladd_eq := C.sc_muladd_eq
  sha512 := C.sha512
  sha512_length := C.sha512_length
  hmacSha512 := hmacSha512
  hmacSha512_length := hmacSha512_length
  hash160 := hash160

/-- A signature of a derived key verifies under the public key that is derived from the parent's
    public key alone. -/
theorem derived_verifies (C : EdwardsCurve) (hmacSha512 : List UInt8 → List UInt8 → List.Vector UInt8 64)
    (hash160 : List UInt8 → List UInt8) (seed : List UInt8) (path : List UInt32)
    (next : List {nChild : UInt32 // nChild >>> 31 = 0}) (hash : Uint256) :
    let E := C.ed25519 (fun key data => (hmacSha512 key data).toList)
      (fun key data => (hmacSha512 key data).toList_length) hash160
    ∃ ext child pub pubChild sig calls,
      (CExtKey.setMaster E seed).deriveAll E path = .ok ext ∧
      ext.neuter E = .ok pub ∧ pub.deriveAll E (next.map Subtype.val) = .ok pubChild ∧
      ext.deriveAll E (next.map Subtype.val) = .ok child ∧
      (C.sign child.key hash).run.run [] = (.ok (some sig), calls) ∧
      C.verifyPubKey pubChild.pubkey hash sig = true := by
  intro E
  obtain ⟨ext, hext, husable⟩ := CExtKey.deriveAll_ok (CKey.usable_master (E := E) seed) path
  obtain ⟨child, pub, pubChild, hchild, hpub, hneuter, hpublic⟩ :=
    CExtKey.deriveAll_neuter (E := E) husable fun nChild (hn : nChild ∈ next.map Subtype.val) => by
      obtain ⟨x, -, rfl⟩ := List.mem_map.mp hn
      exact x.2
  obtain ⟨child', hchild', hkey⟩ := CExtKey.deriveAll_ok (E := E) husable (next.map Subtype.val)
  cases hchild.symm.trans hchild'
  have hpubkey : pubChild.pubkey = C.pubKeyBytes child.key := by
    unfold CExtKey.neuter CKey.pubKey at hneuter
    rw [hkey.valid] at hneuter
    cases hneuter
    rfl
  have htop := topDigit_le (Ed25519.length_take_privkey child.key.size) hkey.top
  refine ⟨ext, child, pub, pubChild, _, _, hext, hpub, hpublic, hchild, C.sign_eq hkey.valid hash, ?_⟩
  rw [hpubkey]
  exact (C.verifyPubKey_sign_iff _ hash).mpr (.inl htop)

end EdwardsCurve

/-! ## Two keys -/

namespace SampleCurve

/-- `CKey()`. -/
def newKey : CKey := ⟨false, List.replicate PRIVATE_KEY_SIZE 0, List.length_replicate⟩

/-- The key with scalar 1. -/
theorem signsInRange_one : curve.SignsInRange (newKey.setPrivKey (1 :: List.replicate 63 0)) 0 :=
  (curve.signsInRange_iff newKey rfl 0).mpr (by decide)

theorem sha512_ne_zero (data : List UInt8) :
    ofLeBytes (curve.sha512 data) % groupOrder ≠ 0 := by
  show ofLeBytes (sha512 data) % groupOrder ≠ 0
  unfold sha512
  split
  · decide
  split
  · decide
  split
  · decide
  split
  · decide
  · decide

/-- The key whose scalar ends in the byte 255 is accepted, and its signature is not. -/
theorem verify_highKey : (newKey.setPrivKey highKey).fValid = true ∧
    ((curve.signAndVerify (newKey.setPrivKey highKey) 0).run.run []).1 = .ok false := by
  have hvalid : (newKey.setPrivKey highKey).fValid = true := rfl
  have htop : topDigit ((newKey.setPrivKey highKey).privkey.take 32) = 16 := by decide +kernel
  have hfail : curve.verifyPubKey (curve.pubKeyBytes (newKey.setPrivKey highKey)) 0
      (curve.sigR (newKey.setPrivKey highKey) 0 ++ curve.sigS (newKey.setPrivKey highKey) 0) =
        false := by
    refine Bool.eq_false_iff.mpr fun hverify => ?_
    rcases (curve.verifyPubKey_sign_iff _ 0).mp hverify with hle | hzero
    · rw [htop] at hle
      exact absurd hle (by decide)
    · rw [EdwardsCurve.challenge] at hzero
      exact sha512_ne_zero _ hzero
  refine ⟨hvalid, ?_⟩
  rw [curve.signAndVerify_eq hvalid, hfail]

end SampleCurve

end Rcoin
