/-
  BIP32 keys over ed25519: `ed25519_add_scalar` (src/ed25519/add_scalar.c),
  `CKey::Derive` and `CExtKey` (src/key.cpp), `CPubKey::Derive` and `CExtPubKey`
  (src/pubkey.cpp).  The arithmetic of the curve and of its scalars and the hashes
  are what an `Ed25519` says of them.
-/
import Rcoin.Serialize
import Rcoin.Wallet.Keys

namespace Rcoin

open List

/-- The order of the base point, `2^252 + 27742317777372353535851937790883648493`. -/
def groupOrder : Nat := 7237005577332262213973186563042994240857116359379907606001950938285454250989

/-- The routines of `ge.c`, `sc.c` and `sha512.c`, and the hashes of BIP32. -/
structure Ed25519 where
  Point : Type
  [group : AddCommGroup Point]
  /-- The base point. -/
  B : Point
  groupOrder_smul_B : groupOrder • B = 0
  /-- `h = a * B`, for `a[31] <= 127`. -/
  ge_scalarmult_base : List UInt8 → Point
  ge_scalarmult_base_eq : ∀ a, a.length = 32 → (a.getD 31 0).toNat ≤ 127 →
    ge_scalarmult_base a = ofLeBytes a • B
  ge_p3_tobytes : Point → List UInt8
  ge_p3_tobytes_length : ∀ P, (ge_p3_tobytes P).length = 32
  ge_frombytes_negate_vartime : List UInt8 → Point
  ge_frombytes_negate_tobytes : ∀ P, ge_frombytes_negate_vartime (ge_p3_tobytes P) = -P
  /-- `s = (ab + c) mod l`. -/
  sc_muladd : List UInt8 → List UInt8 → List UInt8 → List UInt8
  sc_muladd_eq : ∀ a b c, a.length = 32 → b.length = 32 → c.length = 32 →
    sc_muladd a b c = leBytes 32 ((ofLeBytes a * ofLeBytes b + ofLeBytes c) % groupOrder)
  sha512 : List UInt8 → List UInt8
  sha512_length : ∀ data, (sha512 data).length = 64
  /-- `CHMAC_SHA512` of a key and a message. -/
  hmacSha512 : List UInt8 → List UInt8 → List UInt8
  hmacSha512_length : ∀ key data, (hmacSha512 key data).length = 64
  /-- `CPubKey::GetID`. -/
  hash160 : List UInt8 → List UInt8

attribute [instance] Ed25519.group

namespace Ed25519

variable (E : Ed25519)

/-- `sha512(seed, 32, private_key)` and the clamping. -/
def createPrivkey (seed : List UInt8) : List UInt8 :=
  ((E.sha512 (seed.take 32)).modify 0 (· &&& 248)).modify 31 fun b => (b &&& 63) ||| 64

def privkeyToPubkey (private_key : List UInt8) : List UInt8 :=
  E.ge_p3_tobytes (E.ge_scalarmult_base (private_key.take 32))

/-- The scalar with value 1. -/
def SC_1 : List UInt8 := 1 :: replicate 31 0

/-- The keys after `ed25519_add_scalar`; a null pointer is `none`. -/
def addScalar (public_key private_key : Option (List UInt8)) (scalar : List UInt8) :
    Option (List UInt8) × Option (List UInt8) :=
  -- the scalar with its highest bit cleared
  let n := (scalar.take 32).modify 31 (· &&& 127)
  let private_key := private_key.map fun key =>
    E.sc_muladd SC_1 n (key.take 32) ++
      (E.sha512 ((key.drop 32).take 32 ++ scalar.take 32)).take 32
  let public_key := public_key.map fun key =>
    match private_key with
    | some t => E.ge_p3_tobytes (E.ge_scalarmult_base (t.take 32))
    | none =>
      let T := -E.ge_frombytes_negate_vartime key
      E.ge_p3_tobytes (E.ge_scalarmult_base n + T)
  (public_key, private_key)

def bip32Hash (chainCode : List UInt8) (nChild : UInt32) (data : List UInt8) : List UInt8 :=
  E.hmacSha512 chainCode (data ++ (leBytes 4 nChild.toNat).reverse)

/-! ### Sizes -/

theorem length_createPrivkey (seed : List UInt8) :
    (E.createPrivkey seed).length = PRIVATE_KEY_SIZE := by
  rw [createPrivkey, length_modify, length_modify]
  exact E.sha512_length _

theorem length_bip32Hash (chainCode : List UInt8) (nChild : UInt32) (data : List UInt8) :
    (E.bip32Hash chainCode nChild data).length = 64 := E.hmacSha512_length ..

variable {scalar : List UInt8}

theorem length_scalar (h : scalar.length = 64) :
    ((scalar.take 32).modify 31 (· &&& 127)).length = 32 := by
  rw [length_modify, length_take, h]
  rfl

variable {key : List UInt8}

theorem length_take_privkey (h : key.length = PRIVATE_KEY_SIZE) : (key.take 32).length = 32 := by
  rw [length_take, h]
  rfl

theorem addScalar_private (hkey : key.length = PRIVATE_KEY_SIZE) (hscalar : scalar.length = 64) :
    (E.addScalar none (some key) scalar).2 =
      some (leBytes 32 ((ofLeBytes SC_1 * ofLeBytes ((scalar.take 32).modify 31 (· &&& 127)) +
          ofLeBytes (key.take 32)) % groupOrder) ++
        (E.sha512 ((key.drop 32).take 32 ++ scalar.take 32)).take 32) := by
  rw [addScalar, Option.map_some]
  rw [E.sc_muladd_eq _ _ _ rfl (length_scalar hscalar) (length_take_privkey hkey)]

theorem length_addScalar_private (hkey : key.length = PRIVATE_KEY_SIZE)
    (hscalar : scalar.length = 64) :
    ((E.addScalar none (some key) scalar).2.getD key).length = PRIVATE_KEY_SIZE := by
  rw [E.addScalar_private hkey hscalar, Option.getD_some, length_append, length_leBytes,
    length_take, E.sha512_length]
  rfl

end Ed25519

open Ed25519

/-! ## Keys -/

structure CExtPubKey where
  nDepth : UInt8
  vchFingerprint : List UInt8
  nChild : UInt32
  chaincode : List UInt8
  pubkey : CPubKey
  deriving DecidableEq, Repr

structure CExtKey where
  nDepth : UInt8
  vchFingerprint : List UInt8
  nChild : UInt32
  chaincode : List UInt8
  key : CKey
  deriving DecidableEq

open Fallible

variable (E : Ed25519)

/-- `CKey::GetPubKey`. -/
def CKey.pubKey (key : CKey) : Except KeyStoreError CPubKey := do
  failIf (!key.fValid) (.assertFailed "fValid")
  pure (E.privkeyToPubkey key.privkey)

/-- What `Derive` hashes to: of the public key, or of the private key for a hardened
    child. -/
def CKey.childHash (key : CKey) (pubkey : CPubKey) (nChild : UInt32) (cc : List UInt8) :
    List UInt8 :=
  if nChild >>> 31 = 0 then E.bip32Hash cc nChild pubkey else E.bip32Hash cc nChild key.privkey

theorem CKey.length_childHash (key : CKey) (pubkey : CPubKey) (nChild : UInt32)
    (cc : List UInt8) : (key.childHash E pubkey nChild cc).length = 64 := by
  unfold childHash
  split
  · exact E.length_bip32Hash ..
  · exact E.length_bip32Hash ..

/-- The child key and its chain code. -/
def CKey.derive (key : CKey) (nChild : UInt32) (cc : List UInt8) :
    Except KeyStoreError (CKey × List UInt8) := do
  failIf (!key.fValid) (.assertFailed "IsValid()")
  let pubkey ← key.pubKey E
  let vout := key.childHash E pubkey nChild cc
  pure ({
    fValid := true
    privkey := (E.addScalar none (some key.privkey) vout).2.getD key.privkey
    size := E.length_addScalar_private key.size (key.length_childHash E pubkey nChild cc)
    }, vout.drop 32)

def CPubKey.derive (pubkey : CPubKey) (nChild : UInt32) (cc : List UInt8) :
    Except KeyStoreError (CPubKey × List UInt8) := do
  failIf (!decide (nChild >>> 31 = 0)) (.assertFailed "(nChild >> 31) == 0")
  let out := E.bip32Hash cc nChild pubkey
  pure ((E.addScalar (some pubkey) none out).1.getD pubkey, out.drop 32)

namespace CExtKey

def setMaster (seed : List UInt8) : CExtKey :=
  let hashkey : List UInt8 :=
    [0x42, 0x69, 0x74, 0x63, 0x6f, 0x69, 0x6e, 0x20, 0x73, 0x65, 0x65, 0x64]
  let vout := E.hmacSha512 hashkey seed
  { nDepth := 0
    vchFingerprint := replicate 4 0
    nChild := 0
    chaincode := vout.drop 32
    key := ⟨true, E.createPrivkey vout, E.length_createPrivkey vout⟩ }

def derive (ext : CExtKey) (nChild : UInt32) : Except KeyStoreError CExtKey := do
  let pubkey ← ext.key.pubKey E
  let (key, chaincode) ← ext.key.derive E nChild ext.chaincode
  pure {
    nDepth := ext.nDepth + 1
    vchFingerprint := (E.hash160 pubkey).take 4
    nChild := nChild
    chaincode := chaincode
    key := key }

def neuter (ext : CExtKey) : Except KeyStoreError CExtPubKey := do
  let pubkey ← ext.key.pubKey E
  pure {
    nDepth := ext.nDepth
    vchFingerprint := ext.vchFingerprint
    nChild := ext.nChild
    chaincode := ext.chaincode
    pubkey := pubkey }

/-- Derivations one after the other. -/
def deriveAll (ext : CExtKey) : List UInt32 → Except KeyStoreError CExtKey
  | [] => .ok ext
  | nChild :: path => do
    let child ← ext.derive E nChild
    child.deriveAll path

end CExtKey

open CExtKey

namespace CExtPubKey

def derive (ext : CExtPubKey) (nChild : UInt32) : Except KeyStoreError CExtPubKey := do
  let (pubkey, chaincode) ← CPubKey.derive E ext.pubkey nChild ext.chaincode
  pure {
    nDepth := ext.nDepth + 1
    vchFingerprint := (E.hash160 ext.pubkey).take 4
    nChild := nChild
    chaincode := chaincode
    pubkey := pubkey }

def deriveAll (ext : CExtPubKey) : List UInt32 → Except KeyStoreError CExtPubKey
  | [] => .ok ext
  | nChild :: path => do
    let child ← ext.derive E nChild
    child.deriveAll path

end CExtPubKey

/-! ## Private and public derivation -/

namespace Ed25519

theorem leBytes_succ (n x : Nat) :
    leBytes (n + 1) x = leBytes n x ++ [UInt8.ofNat ((x >>> (8 * n)) % 2 ^ 8)] := by
  rw [leBytes, Digits.digits_succ, map_cons, reverse_cons]
  rfl

theorem top_leBytes {x : Nat} (h : x < groupOrder) : ((leBytes 32 x).getD 31 0).toNat ≤ 127 := by
  have htop : x >>> (8 * 31) ≤ 127 := by
    unfold groupOrder at h
    omega
  rw [leBytes_succ, getD_append_right _ _ _ _ (by rw [length_leBytes])]
  show (UInt8.ofNat ((x >>> (8 * 31)) % 2 ^ 8)).toNat ≤ 127
  rw [UInt8.toNat_ofNat', Nat.mod_eq_of_lt (by omega), Nat.mod_eq_of_lt (by omega)]
  exact htop

theorem getD_modify {l : List UInt8} {n : Nat} (h : n < l.length) (f : UInt8 → UInt8) :
    (l.modify n f).getD n 0 = f (l.getD n 0) := by
  rw [getD_eq_getElem?_getD, getD_eq_getElem?_getD, getElem?_modify_eq,
    getElem?_eq_getElem h]
  rfl

theorem and_127_le (b : UInt8) : (b &&& 127).toNat ≤ 127 := by
  exact Nat.and_le_right

theorem clamp_le (b : UInt8) : ((b &&& 63) ||| 64).toNat ≤ 127 := by
  have hand : (b &&& 63).toNat ≤ 63 := by
    exact Nat.and_le_right
  have hlt : (b &&& 63).toNat ||| 64 < 2 ^ 7 := Nat.or_lt_two_pow (by omega) (by decide)
  exact Nat.le_of_lt_succ hlt

theorem mod_smul_B (E : Ed25519) (x : Nat) : (x % groupOrder) • E.B = x • E.B := by
  have hsplit : x • E.B = (groupOrder * (x / groupOrder) + x % groupOrder) • E.B := by
    rw [Nat.div_add_mod]
  rw [hsplit, add_nsmul, mul_comm, mul_nsmul', E.groupOrder_smul_B, nsmul_zero, zero_add]

end Ed25519

variable {E}

/-- A valid key whose scalar meets the precondition of `ge_scalarmult_base`. -/
structure CKey.Usable (key : CKey) : Prop where
  valid : key.fValid = true
  top : ((key.privkey.take 32).getD 31 0).toNat ≤ 127

/-- The number of a key's scalar. -/
def CKey.scalar (key : CKey) : Nat := ofLeBytes (key.privkey.take 32)

/-- The number that `ed25519_add_scalar` adds. -/
def addedScalar (vout : List UInt8) : Nat := ofLeBytes ((vout.take 32).modify 31 (· &&& 127))

namespace CKey

variable {key : CKey}

theorem Usable.pubKey (h : key.Usable) :
    key.pubKey E = .ok (E.ge_p3_tobytes (key.scalar • E.B)) := by
  have hpub : E.privkeyToPubkey key.privkey = E.ge_p3_tobytes (key.scalar • E.B) := by
    rw [privkeyToPubkey,
      E.ge_scalarmult_base_eq _ (length_take_privkey key.size) h.top]
    rfl
  unfold CKey.pubKey
  rw [h.valid, hpub]
  rfl

theorem usable_master (seed : List UInt8) : (setMaster E seed).key.Usable where
  valid := rfl
  top := by
    have hlen : ∀ l : List UInt8, l.length = 64 → ((l.modify 31 fun b =>
        (b &&& 63) ||| 64).take 32).getD 31 0 = ((l.getD 31 0) &&& 63) ||| 64 := by
      intro l hl
      rw [getD_eq_getElem?_getD, getElem?_take_of_lt (by decide),
        ← getD_eq_getElem?_getD, getD_modify (by omega)]
    show (((E.createPrivkey _).take 32).getD 31 0).toNat ≤ 127
    rw [createPrivkey, hlen _ (by rw [length_modify]; exact E.sha512_length _)]
    exact clamp_le _

theorem Usable.derive (h : key.Usable) (nChild : UInt32) (cc : List UInt8) :
    ∃ child pubkey, key.pubKey E = .ok pubkey ∧
      key.derive E nChild cc = .ok (child, (key.childHash E pubkey nChild cc).drop 32) ∧
      child.Usable ∧
      child.scalar • E.B =
        (addedScalar (key.childHash E pubkey nChild cc) + key.scalar) • E.B := by
  obtain ⟨pubkey, hpub⟩ : ∃ pubkey, key.pubKey E = .ok pubkey := ⟨_, h.pubKey⟩
  have hlen := key.length_childHash E pubkey nChild cc
  have hone : ofLeBytes SC_1 = 1 := rfl
  have hpriv := E.addScalar_private key.size hlen
  rw [hone, one_mul] at hpriv
  have hlt : (addedScalar (key.childHash E pubkey nChild cc) + key.scalar) % groupOrder <
      groupOrder := Nat.mod_lt _ (by decide)
  let child : CKey := {
    fValid := true
    privkey := (E.addScalar none (some key.privkey)
      (key.childHash E pubkey nChild cc)).2.getD key.privkey
    size := E.length_addScalar_private key.size hlen }
  have htake : child.privkey.take 32 =
      leBytes 32 ((addedScalar (key.childHash E pubkey nChild cc) + key.scalar) % groupOrder) := by
    show ((E.addScalar none (some key.privkey)
      (key.childHash E pubkey nChild cc)).2.getD key.privkey).take 32 = _
    rw [hpriv, Option.getD_some]
    exact take_left' (length_leBytes ..)
  refine ⟨child, pubkey, hpub, ?_, ⟨rfl, ?_⟩, ?_⟩
  · unfold CKey.derive
    rw [h.valid, hpub]
    rfl
  · rw [htake]
    exact top_leBytes hlt
  · rw [CKey.scalar, htake, ofLeBytes_leBytes (lt_trans hlt (by decide))]
    exact E.mod_smul_B _

theorem Usable.derive_public (h : key.Usable) {nChild : UInt32} (hn : nChild >>> 31 = 0)
    (cc : List UInt8) :
    ∃ child cc' pubkey pubkeyChild, key.derive E nChild cc = .ok (child, cc') ∧ child.Usable ∧
      key.pubKey E = .ok pubkey ∧ child.pubKey E = .ok pubkeyChild ∧
      CPubKey.derive E pubkey nChild cc = .ok (pubkeyChild, cc') := by
  obtain ⟨child, pubkey, hpub, hderive, husable, hsum⟩ := h.derive (E := E) nChild cc
  refine ⟨child, _, pubkey, _, hderive, husable, hpub, husable.pubKey, ?_⟩
  have hhash : key.childHash E pubkey nChild cc = E.bip32Hash cc nChild pubkey := if_pos hn
  have hlen := E.length_bip32Hash cc nChild pubkey
  -- both points the routine adds are multiples of the base point
  have hT : -E.ge_frombytes_negate_vartime pubkey = key.scalar • E.B := by
    have heq : pubkey = E.ge_p3_tobytes (key.scalar • E.B) :=
      Except.ok.inj (hpub.symm.trans h.pubKey)
    rw [heq, E.ge_frombytes_negate_tobytes, neg_neg]
  have hnB : E.ge_scalarmult_base (((E.bip32Hash cc nChild pubkey).take 32).modify 31
      (· &&& 127)) = addedScalar (E.bip32Hash cc nChild pubkey) • E.B := by
    refine E.ge_scalarmult_base_eq _ (length_scalar hlen) ?_
    rw [getD_modify (by rw [length_take, hlen]; decide)]
    exact and_127_le _
  have hadd : (E.addScalar (some pubkey) none (E.bip32Hash cc nChild pubkey)).1 =
      some (E.ge_p3_tobytes (child.scalar • E.B)) := by
    rw [hsum, hhash, add_nsmul, ← hT, ← hnB]
    rfl
  have hrun : CPubKey.derive E pubkey nChild cc =
      .ok ((E.addScalar (some pubkey) none (E.bip32Hash cc nChild pubkey)).1.getD pubkey,
        (E.bip32Hash cc nChild pubkey).drop 32) := by
    unfold CPubKey.derive
    rw [hn]
    rfl
  rw [hrun, hadd, hhash, Option.getD_some]

end CKey

/-! ## Extended keys -/

namespace CExtKey

variable {ext : CExtKey}

theorem derive_ok (h : ext.key.Usable) (nChild : UInt32) :
    ∃ child, ext.derive E nChild = .ok child ∧ child.key.Usable := by
  obtain ⟨key, pubkey, hpub, hderive, husable, -⟩ := h.derive (E := E) nChild ext.chaincode
  refine ⟨{
    nDepth := ext.nDepth + 1
    vchFingerprint := (E.hash160 pubkey).take 4
    nChild := nChild
    chaincode := (ext.key.childHash E pubkey nChild ext.chaincode).drop 32
    key := key }, ?_, husable⟩
  unfold derive
  rw [hpub, hderive]
  rfl

theorem derive_neuter (h : ext.key.Usable) {nChild : UInt32} (hn : nChild >>> 31 = 0) :
    ∃ child pub pubChild, ext.derive E nChild = .ok child ∧ child.key.Usable ∧
      ext.neuter E = .ok pub ∧ child.neuter E = .ok pubChild ∧
      pub.derive E nChild = .ok pubChild := by
  obtain ⟨key, cc', pubkey, pubkeyChild, hderive, husable, hpub, hpubChild, hpublic⟩ :=
    h.derive_public (E := E) hn ext.chaincode
  refine ⟨{
    nDepth := ext.nDepth + 1
    vchFingerprint := (E.hash160 pubkey).take 4
    nChild := nChild
    chaincode := cc'
    key := key }, {
    nDepth := ext.nDepth
    vchFingerprint := ext.vchFingerprint
    nChild := ext.nChild
    chaincode := ext.chaincode
    pubkey := pubkey }, {
    nDepth := ext.nDepth + 1
    vchFingerprint := (E.hash160 pubkey).take 4
    nChild := nChild
    chaincode := cc'
    pubkey := pubkeyChild }, ?_, husable, ?_, ?_, ?_⟩
  · unfold derive
    rw [hpub, hderive]
    rfl
  · unfold neuter
    rw [hpub]
    rfl
  · unfold neuter
    rw [hpubChild]
    rfl
  · unfold CExtPubKey.derive
    rw [hpublic]
    rfl

theorem deriveAll_ok (h : ext.key.Usable) (path : List UInt32) :
    ∃ child, ext.deriveAll E path = .ok child ∧ child.key.Usable := by
  induction path generalizing ext with
  | nil => exact ⟨ext, rfl, h⟩
  | cons nChild path ih =>
    obtain ⟨child, hderive, husable⟩ := derive_ok (E := E) h nChild
    rw [deriveAll, hderive]
    exact ih husable

theorem deriveAll_neuter (h : ext.key.Usable) {path : List UInt32}
    (hpath : ∀ nChild ∈ path, nChild >>> 31 = 0) :
    ∃ child pub pubChild, ext.deriveAll E path = .ok child ∧ ext.neuter E = .ok pub ∧
      child.neuter E = .ok pubChild ∧ pub.deriveAll E path = .ok pubChild := by
  induction path generalizing ext with
  | nil =>
    obtain ⟨pub, hpub⟩ : ∃ pub, ext.neuter E = .ok pub := by
      unfold neuter
      rw [h.pubKey]
      exact ⟨_, rfl⟩
    exact ⟨ext, pub, pub, rfl, hpub, hpub, rfl⟩
  | cons nChild path ih =>
    obtain ⟨child, pub, pubChild, hderive, husable, hpub, hneuter, hpublic⟩ :=
      derive_neuter (E := E) h (hpath nChild (mem_cons_self ..))
    obtain ⟨last, pub', pubLast, hlast, hpub', hneuter', hpublic'⟩ :=
      ih husable fun n hn => hpath n (mem_cons_of_mem _ hn)
    cases hneuter.symm.trans hpub'
    refine ⟨last, pub, pubLast, ?_, hpub, hneuter', ?_⟩
    · rw [deriveAll, hderive]
      exact hlast
    · rw [CExtPubKey.deriveAll, hpublic]
      exact hpublic'

/-- For a key made from any seed: the public keys of any chain of children that are
    not hardened are the ones derived from the public key, whole; and this goes for
    the next step from any descendant, behind hardened ones too. -/
theorem public_derivation (E : Ed25519) (seed : List UInt8) (path : List UInt32)
    (next : List UInt32) (hnext : ∀ nChild ∈ next, nChild >>> 31 = 0) :
    ∃ ext child pub pubChild, (setMaster E seed).deriveAll E path = .ok ext ∧
      ext.deriveAll E next = .ok child ∧ child.neuter E = .ok pubChild ∧
      ext.neuter E = .ok pub ∧ pub.deriveAll E next = .ok pubChild := by
  obtain ⟨ext, hext, husable⟩ := deriveAll_ok (CKey.usable_master (E := E) seed) path
  obtain ⟨child, pub, pubChild, hderive, hpub, hneuter, hpublic⟩ :=
    deriveAll_neuter (E := E) husable hnext
  exact ⟨ext, child, pub, pubChild, hext, hderive, hneuter, hpub, hpublic⟩

end CExtKey

/-! ## One key

The curve's group is cyclic of order `groupOrder`: here its points are their
multiples of the base point, and the two points of the sample have the bytes they
have on the curve.  The hashes are those of the sample's messages. -/

namespace Bip32Sample

/-- The first test seed of BIP32. -/
def seed : List UInt8 := [0, 1, 2, 3, 4, 5, 6, 7, 8, 9, 10, 11, 12, 13, 14, 15]

/-- HMAC of the seed. -/
def masterHash : List UInt8 :=
  [232, 243, 46, 114, 61, 236, 244, 5, 26, 239, 172, 142, 44, 147, 201, 197,
    178, 20, 49, 56, 23, 205, 176, 26, 20, 148, 185, 23, 200, 67, 107, 53,
    135, 61, 255, 129, 192, 47, 82, 86, 35, 253, 31, 229, 22, 126, 172, 58,
    85, 160, 73, 222, 61, 49, 75, 180, 46, 226, 39, 255, 237, 55, 213, 8]

/-- SHA-512 of its first half. -/
def masterKeyHash : List UInt8 :=
  [169, 115, 215, 111, 205, 93, 196, 177, 72, 112, 198, 170, 213, 253, 9, 128,
    10, 50, 59, 0, 166, 10, 39, 158, 240, 196, 157, 221, 219, 32, 133, 171,
    127, 23, 138, 137, 160, 31, 212, 120, 81, 73, 192, 32, 142, 202, 73, 80,
    53, 206, 97, 206, 95, 192, 212, 90, 193, 77, 244, 42, 194, 20, 120, 67]

/-- The multiple of the base point that the master's public key is, and its bytes. -/
def masterScalar : Nat :=
  5210658777481791774837432295491230934006025460006985644076964256384338394138

def masterPubkey : List UInt8 :=
  [228, 194, 212, 61, 57, 84, 27, 115, 157, 67, 27, 144, 83, 47, 113, 166,
    34, 27, 237, 177, 153, 28, 208, 172, 79, 159, 31, 230, 117, 155, 215, 43]

def masterID : List UInt8 :=
  [45, 250, 86, 57, 125, 131, 8, 118, 173, 245, 165, 96, 107, 53, 143, 147,
    7, 41, 179, 5]

/-- HMAC of the public key and the index 1. -/
def childHash : List UInt8 :=
  [109, 206, 227, 187, 124, 54, 191, 113, 90, 156, 61, 188, 229, 151, 74, 108,
    143, 51, 245, 155, 128, 101, 168, 47, 65, 17, 56, 255, 182, 229, 214, 243,
    135, 126, 237, 245, 48, 32, 129, 39, 218, 22, 59, 244, 78, 57, 228, 1,
    131, 115, 79, 89, 61, 140, 255, 167, 33, 206, 230, 251, 159, 89, 130, 218]

/-- SHA-512 of the second half of the master's key and the scalar added. -/
def childKeyHash : List UInt8 :=
  [210, 146, 2, 23, 222, 53, 199, 72, 45, 166, 234, 58, 173, 55, 154, 64,
    70, 218, 96, 153, 24, 9, 52, 188, 43, 246, 128, 40, 213, 79, 113, 194,
    94, 83, 70, 7, 84, 177, 28, 129, 100, 35, 199, 129, 1, 147, 169, 104,
    112, 53, 141, 233, 139, 201, 144, 176, 27, 128, 34, 15, 206, 105, 94, 9]

def childScalar : Nat :=
  6947288028595572813423506151697331087591364050361772841359707824999299514124

def childPubkey : List UInt8 :=
  [195, 143, 101, 193, 168, 249, 222, 6, 203, 146, 101, 49, 235, 25, 42, 26,
    184, 45, 149, 32, 61, 130, 163, 152, 228, 165, 33, 126, 132, 121, 67, 171]

instance : NeZero groupOrder := ⟨by decide⟩

def tobytes (P : ZMod groupOrder) : List UInt8 :=
  if P = (masterScalar : ZMod groupOrder) then masterPubkey
  else if P = (childScalar : ZMod groupOrder) then childPubkey
  else leBytes 32 P.val

def frombytes (s : List UInt8) : ZMod groupOrder :=
  if s = masterPubkey then (masterScalar : ZMod groupOrder)
  else if s = childPubkey then (childScalar : ZMod groupOrder)
  else (ofLeBytes s : ZMod groupOrder)

theorem val_lt (P : ZMod groupOrder) : P.val < 2 ^ (8 * 32) :=
  lt_trans (ZMod.val_lt P) (by decide)

theorem frombytes_tobytes (P : ZMod groupOrder) : frombytes (tobytes P) = P := by
  have hother : ∀ bytes : List UInt8, groupOrder ≤ ofLeBytes bytes → leBytes 32 P.val ≠ bytes := by
    intro bytes hle heq
    have hval := ZMod.val_lt P
    rw [← heq, ofLeBytes_leBytes (val_lt P)] at hle
    omega
  unfold tobytes
  split
  next h => rw [frombytes, if_pos rfl, h]
  split
  next h => rw [frombytes, if_neg (by decide), if_pos rfl, h]
  next =>
    rw [frombytes, if_neg (hother _ (by decide)), if_neg (hother _ (by decide)),
      ofLeBytes_leBytes (val_lt P)]
    exact ZMod.natCast_zmod_val P

theorem length_tobytes (P : ZMod groupOrder) : (tobytes P).length = 32 := by
  unfold tobytes
  split
  · rfl
  split
  · rfl
  · exact length_leBytes ..

/-- A function of a 64-byte result that is known at some arguments. -/
def lookup (l : List (List UInt8 × List UInt8)) (data : List UInt8) : List UInt8 :=
  match l.find? fun x => x.1 = data with
  | some x => x.2.take 64 ++ replicate (64 - x.2.length) 0
  | none => replicate 64 0

theorem length_lookup (l : List (List UInt8 × List UInt8)) (data : List UInt8) :
    (lookup l data).length = 64 := by
  unfold lookup
  split
  · rw [length_append, length_take, length_replicate]
    omega
  · exact length_replicate

def curve : Ed25519 where
  Point := ZMod groupOrder
  B := 1
  groupOrder_smul_B := by rw [nsmul_one, ZMod.natCast_self]
  ge_scalarmult_base a := (ofLeBytes a : ZMod groupOrder)
  ge_scalarmult_base_eq a _ _ := (nsmul_one _).symm
  ge_p3_tobytes := tobytes
  ge_p3_tobytes_length := length_tobytes
  ge_frombytes_negate_vartime s := -frombytes s
  ge_frombytes_negate_tobytes P := congrArg Neg.neg (frombytes_tobytes P)
  sc_muladd a b c := leBytes 32 ((ofLeBytes a * ofLeBytes b + ofLeBytes c) % groupOrder)
  sc_muladd_eq _ _ _ _ _ _ := rfl
  sha512 := lookup [(masterHash.take 32, masterKeyHash),
    (masterKeyHash.drop 32 ++ childHash.take 32, childKeyHash)]
  sha512_length := length_lookup _
  hmacSha512 key data := lookup [(seed, masterHash),
    (masterPubkey ++ [0, 0, 0, 1], childHash)] data
  hmacSha512_length _ := length_lookup _
  hash160 _ := masterID

/-- The child 1 of the sample's master key. -/
theorem public_derivation_sample : ∃ ext child pub pubChild,
    (setMaster curve seed).deriveAll curve [] = .ok ext ∧
      ext.deriveAll curve [1] = .ok child ∧ child.neuter curve = .ok pubChild ∧
      ext.neuter curve = .ok pub ∧ pub.deriveAll curve [1] = .ok pubChild :=
  public_derivation curve seed [] [1] fun nChild hmem => by
    rw [mem_singleton.mp hmem]
    rfl

end Bip32Sample

end Rcoin
