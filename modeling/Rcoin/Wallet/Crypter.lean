/-
  Private keys and their encryption: `VerifyPubKey` and `GetPubKey` of `CKey`
  (src/key.cpp), `CCrypter`, `EncryptSecret`, `DecryptSecret` and `DecryptKey`
  (src/wallet/crypter.cpp).

  AES-256-CBC with padding and the hashes of a public key are parameters, and the
  curve is what the routines of src/ed25519 make of it.  `VerifyPubKey` signs the
  hash of random bytes and verifies the signature: the hash is an argument.
-/
import Rcoin.Ed25519.Sign

namespace Rcoin

open Fallible

/-! ## Keys -/

/-- `Hash160` of a public key; `std::map` compares these. -/
abbrev CKeyID := Nat

/-- `CKeyingMaterial`, bytes that are wiped when they are freed. -/
abbrev CKeyingMaterial := List UInt8

def WALLET_CRYPTO_KEY_SIZE : Nat := 32

def WALLET_CRYPTO_IV_SIZE : Nat := 16

/-- The cryptography a key store uses. -/
structure CryptoEnv where
  /-- `AES256CBCEncrypt(key, iv, true).Encrypt`: the bytes written. -/
  aesEncrypt : List UInt8 → List UInt8 → List UInt8 → List UInt8
  /-- `AES256CBCDecrypt(key, iv, true).Decrypt`: the bytes written, none when the
      padding is wrong. -/
  aesDecrypt : List UInt8 → List UInt8 → List UInt8 → List UInt8
  curve : EdwardsCurve
  getID : CPubKey → CKeyID
  /-- `CPubKey::GetHash`, a `uint256`. -/
  getHash : CPubKey → List UInt8
  getHash_size : ∀ pubkey, (getHash pubkey).length = 32

/-- The public key that `GetPubKey` computes. -/
def CryptoEnv.derivePubKey (env : CryptoEnv) (key : CKey) : CPubKey := env.curve.pubKeyBytes key

def CKey.getPubKey (env : CryptoEnv) (key : CKey) : Except KeyStoreError CPubKey :=
  ((env.curve.getPubKey key).run.run []).1

/-- `hash` is the one that is drawn. -/
def CKey.verifyPubKey (env : CryptoEnv) (hash : Uint256) (key : CKey) (pubkey : CPubKey) :
    Except KeyStoreError Bool := do
  let vchSig ← ((env.curve.sign key hash).run.run []).1
  pure (env.curve.verifyPubKey pubkey hash (vchSig.getD []))

/-- `SetPrivKey` on a default key: bytes of another size leave it invalid. -/
def CKey.ofBytes (bytes : List UInt8) : Option CKey :=
  if h : bytes.length = PRIVATE_KEY_SIZE then some ⟨true, bytes, h⟩ else none

/-! ## `CCrypter` -/

/-- A `CCrypter` whose key is set. -/
structure CCrypter where
  vchKey : List UInt8
  vchIV : List UInt8

def CCrypter.setKey (chNewKey : CKeyingMaterial) (chNewIV : List UInt8) : Option CCrypter :=
  if chNewKey.length != WALLET_CRYPTO_KEY_SIZE || chNewIV.length != WALLET_CRYPTO_IV_SIZE then none
  else some { vchKey := chNewKey, vchIV := chNewIV }

def CCrypter.encrypt (env : CryptoEnv) (c : CCrypter) (vchPlaintext : CKeyingMaterial) :
    Option (List UInt8) :=
  let vchCiphertext := env.aesEncrypt c.vchKey c.vchIV vchPlaintext
  if vchCiphertext.length < vchPlaintext.length then none else some vchCiphertext

def CCrypter.decrypt (env : CryptoEnv) (c : CCrypter) (vchCiphertext : List UInt8) :
    Option CKeyingMaterial :=
  let vchPlaintext := env.aesDecrypt c.vchKey c.vchIV vchCiphertext
  if vchPlaintext.length = 0 then none else some vchPlaintext

/-- The first bytes of a `uint256` as initialization vector. -/
def chIV (nIV : List UInt8) : List UInt8 := nIV.take WALLET_CRYPTO_IV_SIZE

def encryptSecret (env : CryptoEnv) (vMasterKey vchPlaintext : CKeyingMaterial)
    (nIV : List UInt8) : Option (List UInt8) := do
  let cKeyCrypter ← CCrypter.setKey vMasterKey (chIV nIV)
  cKeyCrypter.encrypt env vchPlaintext

def decryptSecret (env : CryptoEnv) (vMasterKey : CKeyingMaterial) (vchCiphertext : List UInt8)
    (nIV : List UInt8) : Option CKeyingMaterial := do
  let cKeyCrypter ← CCrypter.setKey vMasterKey (chIV nIV)
  cKeyCrypter.decrypt env vchCiphertext

/-- `DecryptKey`: the key, where it returns true. -/
def decryptKey (env : CryptoEnv) (hash : Uint256) (vMasterKey : CKeyingMaterial)
    (vchCryptedSecret : List UInt8) (vchPubKey : CPubKey) : Option CKey := do
  let vchSecret ← decryptSecret env vMasterKey vchCryptedSecret (env.getHash vchPubKey)
  let key ← CKey.ofBytes vchSecret
  if okAnd (key.verifyPubKey env hash vchPubKey) id then some key else none

/-! ## What is assumed of the cryptography -/

/-- AES-256-CBC with padding: the ciphertext is longer than the plaintext, and
    decrypts to it. -/
structure AesCorrect (env : CryptoEnv) : Prop where
  length : ∀ key iv m, key.length = WALLET_CRYPTO_KEY_SIZE → iv.length = WALLET_CRYPTO_IV_SIZE →
    m ≠ [] → m.length ≤ (env.aesEncrypt key iv m).length
  decrypt : ∀ key iv m, key.length = WALLET_CRYPTO_KEY_SIZE → iv.length = WALLET_CRYPTO_IV_SIZE →
    m ≠ [] → env.aesDecrypt key iv (env.aesEncrypt key iv m) = m

/-! ## Encrypting and decrypting a key -/

theorem setKey_eq_some {chNewKey chNewIV : List UInt8} {c : CCrypter}
    (h : CCrypter.setKey chNewKey chNewIV = some c) :
    chNewKey.length = WALLET_CRYPTO_KEY_SIZE ∧ chNewIV.length = WALLET_CRYPTO_IV_SIZE ∧
      c = ⟨chNewKey, chNewIV⟩ := by
  unfold CCrypter.setKey at h
  split at h
  · cases h
  · rename_i hsize
    obtain ⟨hkey, hiv⟩ := not_or.mp (Bool.or_eq_true _ _ ▸ hsize)
    exact ⟨by simpa using hkey, by simpa using hiv, (Option.some.inj h).symm⟩

theorem CKey.ofBytes_privkey {key : CKey} (h : key.fValid = true) :
    CKey.ofBytes key.privkey = some key := by
  obtain ⟨fValid, privkey, size⟩ := key
  cases h
  exact dif_pos size

variable {env : CryptoEnv}

theorem CKey.Usable.getPubKey {key : CKey} (h : key.Usable) :
    key.getPubKey env = .ok (env.derivePubKey key) :=
  congrArg Prod.fst (env.curve.getPubKey_eq h.valid [])

/-- A key against its own public key. -/
theorem CKey.verifyPubKey_own {key : CKey} (h : key.fValid = true) (hash : Uint256) :
    key.verifyPubKey env hash (env.derivePubKey key) =
      ((env.curve.signAndVerify key hash).run.run []).1 := by
  rw [CKey.verifyPubKey, congrArg Prod.fst (env.curve.sign_eq h hash), env.curve.signAndVerify_eq h]
  rfl

/-- Whatever is drawn, a usable key passes. -/
theorem CKey.Usable.verifyPubKey {key : CKey} (h : key.Usable) (hash : Uint256) :
    key.verifyPubKey env hash (env.derivePubKey key) = .ok true := by
  have htop := topDigit_le (Ed25519.length_take_privkey key.size) h.top
  rw [verifyPubKey_own h.valid, env.curve.signAndVerify_eq h.valid,
    (env.curve.verifyPubKey_sign_iff key hash).mpr (.inl htop)]

/-- What decrypts to a key is accepted if the key passes. -/
theorem decryptKey_of_secret {vMasterKey : CKeyingMaterial} {vchCryptedSecret : List UInt8}
    {vchPubKey : CPubKey} {key : CKey} (hvalid : key.fValid = true) {hash : Uint256} {ok : Bool}
    (hsecret : decryptSecret env vMasterKey vchCryptedSecret (env.getHash vchPubKey) =
      some key.privkey) (hverify : key.verifyPubKey env hash vchPubKey = .ok ok) :
    decryptKey env hash vMasterKey vchCryptedSecret vchPubKey = if ok then some key else none := by
  simp only [decryptKey, hsecret, CKey.ofBytes_privkey hvalid, hverify, Option.bind_eq_bind,
    Option.bind_some]
  rfl

theorem decryptKey_encryptSecret (haes : AesCorrect env) {vMasterKey : CKeyingMaterial} {key : CKey}
    (husable : key.Usable) {vchCryptedSecret : List UInt8}
    (h : encryptSecret env vMasterKey key.privkey (env.getHash (env.derivePubKey key)) =
      some vchCryptedSecret) (hash : Uint256) :
    decryptKey env hash vMasterKey vchCryptedSecret (env.derivePubKey key) = some key := by
  obtain ⟨c, hc, h⟩ := Option.bind_eq_some_iff.mp h
  obtain ⟨hkey, hiv, rfl⟩ := setKey_eq_some hc
  unfold CCrypter.encrypt at h
  simp only at h
  split at h
  · cases h
  have hct := Option.some.inj h
  have hdec : env.aesDecrypt vMasterKey (chIV (env.getHash (env.derivePubKey key)))
      vchCryptedSecret = key.privkey := by
    rw [← hct]
    exact haes.decrypt _ _ _ hkey hiv key.privkey_ne_nil
  have hsecret : decryptSecret env vMasterKey vchCryptedSecret
      (env.getHash (env.derivePubKey key)) = some key.privkey := by
    refine Option.bind_eq_some_iff.mpr ⟨_, hc, ?_⟩
    unfold CCrypter.decrypt
    simp only [hdec, key.size]
    rfl
  exact decryptKey_of_secret husable.valid hsecret (husable.verifyPubKey hash)

end Rcoin
