/-
  `CCryptoKeyStore` (src/wallet/crypter.cpp) over the keys of `CBasicKeyStore`
  (src/keystore.cpp): private keys are held in the open in `mapKeys`, or
  encrypted in `mapCryptedKeys`.  A run of its operations keeps, for every
  private key that was added, what `GetKey` needs to give it back.

  Watch-only keys and scripts are left out: no operation here reads them.
-/
import Rcoin.Lib.SortedMap
import Rcoin.Wallet.Crypter

namespace Rcoin

open Fallible Bool List

/-- A public key with the encrypted secret that is stored for it. -/
abbrev CryptedKey := CPubKey × List UInt8

/-- The keys, in the clear or encrypted under a master key. -/
structure CCryptoKeyStore where
  mapKeys : SortedMap CKeyID CKey := .empty
  vMasterKey : CKeyingMaterial := []
  fUseCrypto : Bool := false
  /-- Whether `Unlock` has run a thorough check before. -/
  fDecryptionThoroughlyChecked : Bool := false
  mapCryptedKeys : SortedMap CKeyID CryptedKey := .empty

namespace CCryptoKeyStore

/-! ## Operations -/

def isCrypted (s : CCryptoKeyStore) : Bool := s.fUseCrypto

def isLocked (s : CCryptoKeyStore) : Bool := s.isCrypted && s.vMasterKey.isEmpty

def setCrypted (s : CCryptoKeyStore) : Bool × CCryptoKeyStore :=
  if s.fUseCrypto then (true, s)
  else if !s.mapKeys.isEmpty then (false, s)
  else (true, { s with fUseCrypto := true })

def lock (s : CCryptoKeyStore) : Bool × CCryptoKeyStore :=
  let (fCrypted, s) := s.setCrypted
  if !fCrypted then (false, s) else (true, { s with vMasterKey := [] })

/-- The loop of `Unlock` over the stored keys: `keyPass` and `keyFail` at its
    end.  `hashes` has what is drawn for the check of each key. -/
def unlockLoop (env : CryptoEnv) (hashes : CKeyID → Uint256) (vMasterKeyIn : CKeyingMaterial)
    (fDecryptionThoroughlyChecked : Bool) : List (CKeyID × CryptedKey) → Bool → Bool × Bool
  | [], keyPass => (keyPass, false)
  | (id, vchPubKey, vchCryptedSecret) :: rest, keyPass =>
    if (decryptKey env (hashes id) vMasterKeyIn vchCryptedSecret vchPubKey).isNone then
      (keyPass, true)
    else if fDecryptionThoroughlyChecked then (true, false)
    else unlockLoop env hashes vMasterKeyIn fDecryptionThoroughlyChecked rest true

def unlock (env : CryptoEnv) (hashes : CKeyID → Uint256) (s : CCryptoKeyStore)
    (vMasterKeyIn : CKeyingMaterial) : Except KeyStoreError (Bool × CCryptoKeyStore) :=
  let (fCrypted, s) := s.setCrypted
  if !fCrypted then .ok (false, s)
  else do
    let (keyPass, keyFail) := unlockLoop env hashes vMasterKeyIn s.fDecryptionThoroughlyChecked
      s.mapCryptedKeys.entries false
    -- some keys decrypt but not all
    failIf (keyPass && keyFail) (.assertFailed "false")
    if keyFail || !keyPass then pure (false, s)
    else pure (true, { s with vMasterKey := vMasterKeyIn, fDecryptionThoroughlyChecked := true })

def addCryptedKey (env : CryptoEnv) (s : CCryptoKeyStore) (vchPubKey : CPubKey)
    (vchCryptedSecret : List UInt8) : Bool × CCryptoKeyStore :=
  let (fCrypted, s) := s.setCrypted
  if !fCrypted then (false, s)
  else
    (true, { s with
      mapCryptedKeys := s.mapCryptedKeys.insert (env.getID vchPubKey) (vchPubKey, vchCryptedSecret) })

def addKeyPubKey (env : CryptoEnv) (s : CCryptoKeyStore) (key : CKey) (pubkey : CPubKey) :
    Bool × CCryptoKeyStore :=
  if !s.isCrypted then (true, { s with mapKeys := s.mapKeys.insert (env.getID pubkey) key })
  else if s.isLocked then (false, s)
  else
    match encryptSecret env s.vMasterKey key.privkey (env.getHash pubkey) with
    | none => (false, s)
    | some vchCryptedSecret => s.addCryptedKey env pubkey vchCryptedSecret

/-- The loop of `EncryptKeys`, and whether it got to the end. -/
def encryptLoop (env : CryptoEnv) (vMasterKeyIn : CKeyingMaterial) :
    CCryptoKeyStore → List (CKeyID × CKey) → Except KeyStoreError (Bool × CCryptoKeyStore)
  | s, [] => .ok (true, s)
  | s, (_, key) :: rest => do
    let vchPubKey ← key.getPubKey env
    match encryptSecret env vMasterKeyIn key.privkey (env.getHash vchPubKey) with
    | none => .ok (false, s)
    | some vchCryptedSecret =>
      let (fAdded, s) := s.addCryptedKey env vchPubKey vchCryptedSecret
      if !fAdded then .ok (false, s) else encryptLoop env vMasterKeyIn s rest

def encryptKeys (env : CryptoEnv) (s : CCryptoKeyStore) (vMasterKeyIn : CKeyingMaterial) :
    Except KeyStoreError (Bool × CCryptoKeyStore) :=
  if !s.mapCryptedKeys.isEmpty || s.isCrypted then .ok (false, s)
  else do
    let (fEncrypted, s) ← encryptLoop env vMasterKeyIn { s with fUseCrypto := true } s.mapKeys.entries
    if fEncrypted then pure (true, { s with mapKeys := .empty }) else pure (false, s)

def getKey (env : CryptoEnv) (hash : Uint256) (s : CCryptoKeyStore) (address : CKeyID) :
    Option CKey :=
  if !s.isCrypted then s.mapKeys.lookup address
  else
    match s.mapCryptedKeys.lookup address with
    | none => none
    | some (vchPubKey, vchCryptedSecret) =>
      decryptKey env hash s.vMasterKey vchCryptedSecret vchPubKey

/-- A call of one of the operations that change a store. -/
inductive Op where
  | encryptKeys (vMasterKeyIn : CKeyingMaterial)
  | addKeyPubKey (key : CKey) (pubkey : CPubKey)
  | addCryptedKey (vchPubKey : CPubKey) (vchCryptedSecret : List UInt8)
  | lock
  | unlock (vMasterKeyIn : CKeyingMaterial) (hashes : CKeyID → Uint256)

def step (env : CryptoEnv) (s : CCryptoKeyStore) :
    Op → Except KeyStoreError (Bool × CCryptoKeyStore)
  | .encryptKeys vMasterKeyIn => s.encryptKeys env vMasterKeyIn
  | .addKeyPubKey key pubkey => .ok (s.addKeyPubKey env key pubkey)
  | .addCryptedKey vchPubKey vchCryptedSecret => .ok (s.addCryptedKey env vchPubKey vchCryptedSecret)
  | .lock => .ok s.lock
  | .unlock vMasterKeyIn hashes => s.unlock env hashes vMasterKeyIn

/-! ## The effect of each operation -/

variable {s : CCryptoKeyStore} {ok : Bool} {s' : CCryptoKeyStore}

theorem setCrypted_cases (h : s.setCrypted = (ok, s')) :
    (ok = true ∧ s' = { s with fUseCrypto := true } ∧
      (s.fUseCrypto = false → s.mapKeys.isEmpty = true)) ∨
    (ok = false ∧ s' = s ∧ s.fUseCrypto = false) := by
  obtain ⟨mapKeys, vMasterKey, fUseCrypto, checked, mapCryptedKeys⟩ := s
  unfold setCrypted at h
  cases fUseCrypto with
  | true =>
    cases h
    exact .inl ⟨rfl, rfl, (nomatch ·)⟩
  | false =>
    cases hempty : mapKeys.isEmpty with
    | false =>
      simp only [hempty, Bool.not_false, if_true, false_eq_true, if_false] at h
      cases h
      exact .inr ⟨rfl, rfl, rfl⟩
    | true =>
      simp only [hempty, Bool.not_true, false_eq_true, if_false] at h
      cases h
      exact .inl ⟨rfl, rfl, fun _ => rfl⟩

variable {env : CryptoEnv}

theorem addCryptedKey_cases {vchPubKey : CPubKey} {vchCryptedSecret : List UInt8}
    (h : s.addCryptedKey env vchPubKey vchCryptedSecret = (ok, s')) : (ok = true ∧ s' = { s with
        fUseCrypto := true
        mapCryptedKeys := s.mapCryptedKeys.insert (env.getID vchPubKey) (vchPubKey, vchCryptedSecret) } ∧
      (s.fUseCrypto = false → s.mapKeys.isEmpty = true)) ∨
    (ok = false ∧ s' = s) := by
  unfold addCryptedKey at h
  rcases hset : s.setCrypted with ⟨fCrypted, s1⟩
  rw [hset] at h
  rcases setCrypted_cases hset with ⟨rfl, rfl, hempty⟩ | ⟨rfl, rfl, -⟩
  · cases h
    exact .inl ⟨rfl, rfl, hempty⟩
  · cases h
    exact .inr ⟨rfl, rfl⟩

/-- The secrets `Unlock` tries to decrypt: all of them, or the first in key order
    once a thorough check was made. -/
def checkedSecrets (s : CCryptoKeyStore) : List (CKeyID × CryptedKey) :=
  if s.fDecryptionThoroughlyChecked then s.mapCryptedKeys.entries.take 1
  else s.mapCryptedKeys.entries

/-- The secret decrypts to a private key whose signature of the hash that is drawn for it
    verifies under its public key. -/
def Decrypts (env : CryptoEnv) (hashes : CKeyID → Uint256) (vMasterKey : CKeyingMaterial)
    (x : CKeyID × CryptedKey) : Prop :=
  (decryptKey env (hashes x.1) vMasterKey x.2.2 x.2.1).isSome = true

variable {hashes : CKeyID → Uint256} {vMasterKeyIn : CKeyingMaterial}

theorem unlockLoop_spec {thorough : Bool} {entries : List (CKeyID × CryptedKey)} (keyPass : Bool) :
    (unlockLoop env hashes vMasterKeyIn thorough entries keyPass).2 = false ↔
      ∀ x ∈ (if thorough then entries.take 1 else entries), Decrypts env hashes vMasterKeyIn x := by
  induction entries generalizing keyPass with
  | nil =>
    rw [unlockLoop, take_nil, ite_self]
    exact ⟨fun _ x hx => (nomatch hx), fun _ => rfl⟩
  | cons head rest ih =>
    obtain ⟨id, vchPubKey, vchCryptedSecret⟩ := head
    unfold unlockLoop
    by_cases hnone : (decryptKey env (hashes id) vMasterKeyIn vchCryptedSecret vchPubKey).isNone = true
    · rw [if_pos hnone]
      refine ⟨fun h => (nomatch h), fun hall => ?_⟩
      have hhead : Decrypts env hashes vMasterKeyIn (id, vchPubKey, vchCryptedSecret) := by
        apply hall
        cases thorough <;> exact mem_cons_self ..
      rw [Decrypts, Option.isNone_iff_eq_none.mp hnone] at hhead
      cases hhead
    · rw [if_neg hnone]
      have hhead : Decrypts env hashes vMasterKeyIn (id, vchPubKey, vchCryptedSecret) := by
        rw [Decrypts, ← Option.not_isNone, not_eq_true']
        exact eq_false_iff.mpr hnone
      cases thorough with
      | true =>
        refine ⟨fun _ x hx => ?_, fun _ => rfl⟩
        rw [mem_singleton.mp hx]
        exact hhead
      | false =>
        simp only [false_eq_true, if_false] at ih ⊢
        rw [ih]
        exact ⟨fun h x hx => (mem_cons.mp hx).elim (fun heq => heq ▸ hhead) (h x),
          fun h x hx => h x (mem_cons_of_mem _ hx)⟩

theorem unlock_cases (h : s.unlock env hashes vMasterKeyIn = .ok (ok, s')) : (ok = true ∧ s' = { s with
        fUseCrypto := true, vMasterKey := vMasterKeyIn, fDecryptionThoroughlyChecked := true } ∧
      (s.fUseCrypto = false → s.mapKeys.isEmpty = true) ∧
      ∀ x ∈ s.checkedSecrets, Decrypts env hashes vMasterKeyIn x) ∨
    (ok = false ∧ (s' = s ∨ s' = { s with fUseCrypto := true })) := by
  unfold unlock at h
  rcases hset : s.setCrypted with ⟨fCrypted, s1⟩
  rw [hset] at h
  rcases setCrypted_cases hset with ⟨rfl, rfl, hempty⟩ | ⟨rfl, rfl, -⟩
  · simp only [Bool.not_true, false_eq_true, if_false] at h
    obtain ⟨-, h⟩ := failIf_bind_eq_ok.mp h
    split at h
    · cases pure_eq_ok.mp h
      exact .inr ⟨rfl, .inr rfl⟩
    · rename_i hpass
      cases pure_eq_ok.mp h
      refine .inl ⟨rfl, rfl, hempty, (unlockLoop_spec false).mp ?_⟩
      cases hfail : (unlockLoop env hashes vMasterKeyIn s.fDecryptionThoroughlyChecked
        s.mapCryptedKeys.entries false).2 with
      | false => rfl
      | true =>
        rw [hfail] at hpass
        exact absurd rfl hpass
  · cases h
    exact .inr ⟨rfl, .inl rfl⟩

theorem getKey_of_lookup (hcrypt : s.isCrypted = true) {address : CKeyID} {vchPubKey : CPubKey}
    {vchCryptedSecret : List UInt8}
    (hlookup : s.mapCryptedKeys.lookup address = some (vchPubKey, vchCryptedSecret))
    (hash : Uint256) :
    s.getKey env hash address = decryptKey env hash s.vMasterKey vchCryptedSecret vchPubKey := by
  rw [getKey, hcrypt]
  simp only [Bool.not_true, false_eq_true, if_false, hlookup]

theorem unlock_of_loop (hcrypt : s.fUseCrypto = true)
    (hloop : unlockLoop env hashes vMasterKeyIn s.fDecryptionThoroughlyChecked
      s.mapCryptedKeys.entries false = (true, false)) :
    s.unlock env hashes vMasterKeyIn = .ok (true, { s with
      vMasterKey := vMasterKeyIn, fDecryptionThoroughlyChecked := true }) := by
  have hset : s.setCrypted = (true, s) := by rw [setCrypted, hcrypt, if_pos rfl]
  simp only [unlock, hset, hloop]
  rfl

theorem lock_cases (h : s.lock = (ok, s')) :
    (ok = true ∧ s' = { s with fUseCrypto := true, vMasterKey := [] } ∧
      (s.fUseCrypto = false → s.mapKeys.isEmpty = true)) ∨ (ok = false ∧ s' = s) := by
  unfold lock at h
  rcases hset : s.setCrypted with ⟨fCrypted, s1⟩
  rw [hset] at h
  rcases setCrypted_cases hset with ⟨rfl, rfl, hempty⟩ | ⟨rfl, rfl, -⟩
  · cases h
    exact .inl ⟨rfl, rfl, hempty⟩
  · cases h
    exact .inr ⟨rfl, rfl⟩

/-- The store holds a private key, encrypted under a master key. -/
def Stores (env : CryptoEnv) (s : CCryptoKeyStore) (vMasterKey : CKeyingMaterial) (id : CKeyID)
    (key : CKey) : Prop :=
  ∃ secret, s.mapCryptedKeys.lookup id = some (env.derivePubKey key, secret) ∧
    encryptSecret env vMasterKey key.privkey (env.getHash (env.derivePubKey key)) =
      some secret

/-- A usable key is kept under the id of its own public key. -/
def OwnId (env : CryptoEnv) (x : CKeyID × CKey) : Prop :=
  x.2.Usable ∧ x.1 = env.getID (env.derivePubKey x.2)

/-- The loop of `EncryptKeys` changes nothing but the encrypted keys, and holds
    every key at its end.  By induction on the keys; those behind have other ids. -/
theorem encryptLoop_spec {entries : List (CKeyID × CKey)} (hown : ∀ x ∈ entries, OwnId env x)
    (hsorted : entries.Pairwise (·.1 < ·.1)) (hcrypt : s.fUseCrypto = true)
    (h : encryptLoop env vMasterKeyIn s entries = .ok (ok, s')) :
    s'.mapKeys = s.mapKeys ∧ s'.fUseCrypto = true ∧
      (∀ id, (∀ x ∈ entries, x.1 ≠ id) →
        s'.mapCryptedKeys.lookup id = s.mapCryptedKeys.lookup id) ∧
      (ok = true → ∀ x ∈ entries, s'.Stores env vMasterKeyIn x.1 x.2) := by
  induction entries generalizing s with
  | nil =>
    cases h
    exact ⟨rfl, hcrypt, fun _ _ => rfl, fun _ x hx => (nomatch hx)⟩
  | cons head rest ih =>
    obtain ⟨id, key⟩ := head
    obtain ⟨hlt, hsorted⟩ := pairwise_cons.mp hsorted
    obtain ⟨husable, hid⟩ := hown (id, key) (mem_cons_self ..)
    obtain ⟨vchPubKey, hpub, h⟩ := bind_eq_ok.mp h
    obtain rfl := Except.ok.inj (husable.getPubKey.symm.trans hpub)
    cases henc : encryptSecret env vMasterKeyIn key.privkey
      (env.getHash (env.derivePubKey key)) with
    | none =>
      rw [henc] at h
      cases h
      exact ⟨rfl, hcrypt, fun _ _ => rfl, (nomatch ·)⟩
    | some secret =>
      rw [henc] at h
      simp only at h
      rcases hadd : s.addCryptedKey env (env.derivePubKey key) secret with ⟨fAdded, s1⟩
      rw [hadd] at h
      rcases addCryptedKey_cases hadd with ⟨hfAdded, hs1, -⟩ | ⟨hfAdded, hs1⟩
      · simp only [hfAdded, Bool.not_true, false_eq_true, if_false] at h
        have hcrypt1 : s1.fUseCrypto = true := by rw [hs1]
        have hlookup : ∀ id', s1.mapCryptedKeys.lookup id' =
            if id' = id then some (env.derivePubKey key, secret)
            else s.mapCryptedKeys.lookup id' := by
          intro id'
          rw [hs1]
          rw [SortedMap.lookup_insert, ← hid]
        obtain ⟨hkeys, hcrypt', hframe, hstores⟩ :=
          ih (fun x hx => hown x (mem_cons_of_mem _ hx)) hsorted hcrypt1 h
        refine ⟨hkeys.trans (by rw [hs1]), hcrypt', fun id' hne => ?_, fun hok x hx => ?_⟩
        · rw [hframe id' fun x hx => hne x (mem_cons_of_mem _ hx), hlookup,
            if_neg (Ne.symm (hne (id, key) (mem_cons_self ..)))]
        · rcases mem_cons.mp hx with rfl | hmem
          -- the keys behind have greater ids, and leave this one as it is
          · refine ⟨secret, ?_, henc⟩
            rw [hframe id fun x hx => ne_of_gt (hlt x hx), hlookup, if_pos rfl]
          · exact hstores hok x hmem
      · simp only [hfAdded, hs1, Bool.not_false, if_true] at h
        cases h
        exact ⟨rfl, hcrypt, fun _ _ => rfl, (nomatch ·)⟩

end CCryptoKeyStore

end Rcoin
