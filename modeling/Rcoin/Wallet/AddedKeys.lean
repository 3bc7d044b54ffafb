/-
  Runs of the operations of a key store: for every private key that was added
  the store keeps what `GetKey` needs to give it back, in the open or under the
  master key it was encrypted with.
-/
import Rcoin.Wallet.KeyStore

namespace Rcoin

open Fallible Bool Function SortedMap

namespace CCryptoKeyStore

/-! ## Runs -/

/-- A private key is added with its own public key, as every caller of
    `AddKeyPubKey` asserts, and its scalar is one that `ge_scalarmult_base` takes. -/
def Op.Legal (env : CryptoEnv) : Op → Prop
  | .addKeyPubKey key pubkey => key.Usable ∧ pubkey = env.derivePubKey key
  | _ => True

/-- The private keys that were added under an id, each with the master key it
    was encrypted under. -/
abbrev AddedKeys := CKeyID → Option (CKey × Option CKeyingMaterial)

/-- The bookkeeping of one operation, which was made on `s` and returned `ok`.
    A key is forgotten when `AddCryptedKey` puts something else in its place. -/
def track (env : CryptoEnv) (s : CCryptoKeyStore) (added : AddedKeys) (ok : Bool) : Op → AddedKeys
  | .encryptKeys vMasterKeyIn =>
    if ok then fun id => (added id).map fun x => (x.1, some vMasterKeyIn) else added
  | .addKeyPubKey key pubkey =>
    if ok then
      Function.update added (env.getID pubkey)
        (some (key, if s.isCrypted then some s.vMasterKey else none))
    else added
  | .addCryptedKey vchPubKey vchCryptedSecret =>
    if ok && s.mapCryptedKeys.lookup (env.getID vchPubKey) != some (vchPubKey, vchCryptedSecret) then
      Function.update added (env.getID vchPubKey) none
    else added
  | .lock => added
  | .unlock _ _ => added

/-- The stores that are reached from an empty one, and the keys that were added
    on the way. -/
inductive Run (env : CryptoEnv) : CCryptoKeyStore → AddedKeys → Prop where
  | start : Run env {} fun _ => none
  | step {s s' : CCryptoKeyStore} {added : AddedKeys} {op : Op} {ok : Bool}
      (reached : Run env s added) (legal : op.Legal env) (stepped : s.step env op = .ok (ok, s')) :
      Run env s' (track env s added ok op)

/-! ## The invariant -/

/-- What a run keeps: added keys are in the open, or encrypted under the master
    key that is remembered for them. -/
structure Tracked (env : CryptoEnv) (s : CCryptoKeyStore) (added : AddedKeys) : Prop where
  nothingEncrypted : s.fUseCrypto = false → s.mapCryptedKeys.isEmpty = true
  inTheOpen : s.fUseCrypto = false → ∀ id key k, added id = some (key, k) →
    k = none ∧ s.mapKeys.lookup id = some key
  own : ∀ x ∈ s.mapKeys.entries, OwnId env x
  usable : ∀ id key k, added id = some (key, k) → key.Usable
  encrypted : ∀ id key vMasterKey, added id = some (key, some vMasterKey) →
    s.Stores env vMasterKey id key

theorem Tracked.start (env : CryptoEnv) : Tracked env {} fun _ => none :=
  ⟨fun _ => rfl, fun _ _ _ _ h => (nomatch h), fun _ h => (nomatch h), fun _ _ _ h => (nomatch h),
    fun _ _ _ h => (nomatch h)⟩

variable {env : CryptoEnv} {s s' : CCryptoKeyStore} {added : AddedKeys}

theorem Tracked.sameKeys (h : Tracked env s added) (hkeys : s'.mapKeys = s.mapKeys)
    (hcrypted : s'.mapCryptedKeys = s.mapCryptedKeys)
    (huse : s'.fUseCrypto = false → s.fUseCrypto = false) : Tracked env s' added := by
  refine ⟨fun hf => ?_, fun hf id key k hadd => ?_, ?_, h.usable, fun id key K hadd => ?_⟩
  · rw [hcrypted]
    exact h.nothingEncrypted (huse hf)
  · rw [hkeys]
    exact h.inTheOpen (huse hf) id key k hadd
  · rw [hkeys]
    exact h.own
  · rw [Stores, hcrypted]
    exact h.encrypted id key K hadd

theorem Tracked.addOpen (h : Tracked env s added) (hplain : s.fUseCrypto = false) {key : CKey}
    (husable : key.Usable) : Tracked env
      { s with mapKeys := s.mapKeys.insert (env.getID (env.derivePubKey key)) key }
      (Function.update added (env.getID (env.derivePubKey key)) (some (key, none))) := by
  refine ⟨h.nothingEncrypted, fun _ id key' k hadd => ?_, fun x hx => ?_, fun id key' k hadd => ?_,
    fun id key' K hadd => ?_⟩
  · rw [lookup_insert]
    rw [update_apply] at hadd
    split at hadd
    · rename_i hid
      cases hadd
      exact ⟨rfl, if_pos hid⟩
    · rename_i hid
      rw [if_neg hid]
      exact h.inTheOpen hplain id key' k hadd
  · obtain ⟨id, key'⟩ := x
    have hlookup := mem_entries.mp hx
    rw [lookup_insert] at hlookup
    split at hlookup
    · rename_i hid
      cases hlookup
      exact ⟨husable, hid⟩
    · exact h.own (id, key') (mem_entries.mpr hlookup)
  · rw [update_apply] at hadd
    split at hadd
    · cases hadd
      exact husable
    · exact h.usable id key' k hadd
  · rw [update_apply] at hadd
    split at hadd
    · cases hadd
    · exact h.encrypted id key' K hadd

theorem Tracked.setCryptedKey {added' : AddedKeys} (h : Tracked env s added) {id : CKeyID}
    {entry : CryptedKey} (hother : ∀ id', id' ≠ id → added' id' = added id')
    (husable : ∀ key k, added' id = some (key, k) → key.Usable)
    (hentry : ∀ key K, added' id = some (key, some K) →
      Stores env { s with mapCryptedKeys := s.mapCryptedKeys.insert id entry } K id key) :
    Tracked env
      { s with fUseCrypto := true, mapCryptedKeys := s.mapCryptedKeys.insert id entry } added' := by
  refine ⟨(nomatch ·), (nomatch ·), h.own, fun id' key k hadd => ?_, fun id' key K hadd => ?_⟩
  · by_cases hid : id' = id
    · rw [hid] at hadd
      exact husable key k hadd
    · rw [hother id' hid] at hadd
      exact h.usable id' key k hadd
  · by_cases hid : id' = id
    · rw [hid] at hadd ⊢
      exact hentry key K hadd
    · rw [hother id' hid] at hadd
      obtain ⟨secret, hlookup, henc⟩ := h.encrypted id' key K hadd
      refine ⟨secret, ?_, henc⟩
      rw [lookup_insert, if_neg hid]
      exact hlookup

variable {ok : Bool}

variable (h : Tracked env s added)

include h

theorem Tracked.addCryptedKey {vchPubKey : CPubKey} {vchCryptedSecret : List UInt8}
    (hadd : s.addCryptedKey env vchPubKey vchCryptedSecret = (ok, s')) :
    Tracked env s' (track env s added ok (.addCryptedKey vchPubKey vchCryptedSecret)) := by
  rcases addCryptedKey_cases hadd with ⟨rfl, rfl, -⟩ | ⟨rfl, rfl⟩
  · unfold track
    by_cases hsame : s.mapCryptedKeys.lookup (env.getID vchPubKey) =
        some (vchPubKey, vchCryptedSecret)
    · simp only [hsame, bne_self_eq_false, Bool.and_false, false_eq_true, if_false]
      refine h.setCryptedKey (fun _ _ => rfl) (fun key k => h.usable _ key k) fun key K hk => ?_
      obtain ⟨secret, hlookup, henc⟩ := h.encrypted _ key K hk
      refine ⟨secret, ?_, henc⟩
      rw [lookup_insert, if_pos rfl, ← hsame]
      exact hlookup
    · simp only [bne_iff_ne.mpr hsame, Bool.and_self, if_true]
      refine h.setCryptedKey (fun id' hne => update_of_ne hne _ _) (fun key k hk => ?_)
        fun key K hk => ?_
      · rw [update_self] at hk
        cases hk
      · rw [update_self] at hk
        cases hk
  · exact h

theorem Tracked.addKeyPubKey {key : CKey} (husable : key.Usable)
    (hadd : s.addKeyPubKey env key (env.derivePubKey key) = (ok, s')) : Tracked env s'
      (track env s added ok (.addKeyPubKey key (env.derivePubKey key))) := by
  unfold CCryptoKeyStore.addKeyPubKey at hadd
  unfold track
  cases hcrypt : s.isCrypted with
  | false =>
    simp only [hcrypt, Bool.not_false, if_true] at hadd
    cases hadd
    exact h.addOpen hcrypt husable
  | true =>
    simp only [hcrypt, Bool.not_true, false_eq_true, if_false] at hadd
    cases hlocked : s.isLocked with
    | true =>
      simp only [hlocked, if_true] at hadd
      cases hadd
      exact h
    | false =>
      simp only [hlocked, false_eq_true, if_false] at hadd
      cases henc : encryptSecret env s.vMasterKey key.privkey
        (env.getHash (env.derivePubKey key)) with
      | none =>
        rw [henc] at hadd
        cases hadd
        exact h
      | some secret =>
        rw [henc] at hadd
        rcases addCryptedKey_cases hadd with ⟨rfl, rfl, -⟩ | ⟨rfl, rfl⟩
        · -- encrypted under the master key of the moment
          refine h.setCryptedKey (fun id' hne => update_of_ne hne _ _) (fun key' k hk => ?_)
            fun key' K hk => ?_
          · simp only [if_true, update_self] at hk
            cases hk
            exact husable
          · simp only [if_true, update_self] at hk
            cases hk
            refine ⟨secret, ?_, henc⟩
            rw [lookup_insert, if_pos rfl]
        · exact h

theorem Tracked.encryptKeys {vMasterKeyIn : CKeyingMaterial}
    (henc : s.encryptKeys env vMasterKeyIn = .ok (ok, s')) :
    Tracked env s' (track env s added ok (.encryptKeys vMasterKeyIn)) := by
  unfold CCryptoKeyStore.encryptKeys at henc
  split at henc
  · cases henc
    exact h
  rename_i hguard
  have hplain : s.fUseCrypto = false := by
    cases huse : s.fUseCrypto with
    | false => rfl
    | true =>
      rw [isCrypted, huse, Bool.or_true] at hguard
      exact absurd rfl hguard
  obtain ⟨⟨fEncrypted, s1⟩, hloop, henc⟩ := bind_eq_ok.mp henc
  have hcrypt : ({ s with fUseCrypto := true } : CCryptoKeyStore).fUseCrypto = true := rfl
  obtain ⟨hkeys, huse, -, hstores⟩ := encryptLoop_spec h.own s.mapKeys.sorted hcrypt hloop
  -- no key was encrypted before
  have hnone : ∀ id key K, added id ≠ some (key, some K) := by
    intro id key K hadd
    cases (h.inTheOpen hplain id key _ hadd).1
  cases fEncrypted with
  | false =>
    cases pure_eq_ok.mp henc
    refine ⟨fun hf => ?_, fun hf => ?_, ?_, h.usable, fun id key K hadd => absurd hadd (hnone id key K)⟩
    · rw [huse] at hf
      cases hf
    · rw [huse] at hf
      cases hf
    · rw [hkeys]
      exact h.own
  | true =>
    cases pure_eq_ok.mp henc
    have hmap : ∀ id key k, track env s added true (.encryptKeys vMasterKeyIn) id = some (key, k) →
        k = some vMasterKeyIn ∧ ∃ k0, added id = some (key, k0) := by
      intro id key k hadd
      obtain ⟨⟨key0, k0⟩, hadd0, heq⟩ := Option.map_eq_some_iff.mp hadd
      cases heq
      exact ⟨rfl, k0, hadd0⟩
    refine ⟨fun hf => ?_, fun hf => ?_, fun x hx => (nomatch hx), fun id key k hadd => ?_,
      fun id key K hadd => ?_⟩
    · rw [show s1.fUseCrypto = false from hf] at huse
      cases huse
    · rw [show s1.fUseCrypto = false from hf] at huse
      cases huse
    · obtain ⟨-, k0, hadd0⟩ := hmap id key k hadd
      exact h.usable id key k0 hadd0
    · obtain ⟨hK, k0, hadd0⟩ := hmap id key _ hadd
      cases hK
      have hmem := mem_entries.mpr (h.inTheOpen hplain id key k0 hadd0).2
      exact hstores rfl (id, key) hmem

theorem Tracked.step {op : Op} (hlegal : op.Legal env) (hstep : s.step env op = .ok (ok, s')) :
    Tracked env s' (track env s added ok op) := by
  cases op with
  | encryptKeys vMasterKeyIn => exact h.encryptKeys hstep
  | addKeyPubKey key pubkey =>
    obtain ⟨husable, rfl⟩ := hlegal
    exact h.addKeyPubKey husable (Except.ok.inj hstep)
  | addCryptedKey vchPubKey vchCryptedSecret => exact h.addCryptedKey (Except.ok.inj hstep)
  | lock =>
    rcases lock_cases (Except.ok.inj hstep) with ⟨-, rfl, -⟩ | ⟨-, rfl⟩
    · exact h.sameKeys rfl rfl (nomatch ·)
    · exact h
  | unlock vMasterKeyIn =>
    rcases unlock_cases hstep with ⟨-, rfl, -⟩ | ⟨-, rfl | rfl⟩
    · exact h.sameKeys rfl rfl (nomatch ·)
    · exact h
    · exact h.sameKeys rfl rfl (nomatch ·)

omit h

theorem Run.tracked (h : Run env s added) : Tracked env s added := by
  induction h with
  | start => exact Tracked.start env
  | step _ hlegal hstep ih => exact ih.step hlegal hstep

/-! ## `GetKey` and `Unlock` -/

/-- In every run in which usable keys are added with their own public keys: `GetKey`
    gives back every key that is in the open, and, when the master key is the
    one it was encrypted under, every key that is encrypted, whatever is drawn for
    its check.  `Unlock` with a master key under which one of the secrets it checks
    does not pass changes nothing; it checks all of them until it has succeeded
    once, and the first from then on. -/
theorem getKey_of_added (env : CryptoEnv) (haes : AesCorrect env)
    (s : CCryptoKeyStore) (added : AddedKeys) (hrun : Run env s added) :
    (∀ hash id key k, s.isCrypted = false → added id = some (key, k) →
      s.getKey env hash id = some key) ∧
    (∀ hash id key, added id = some (key, some s.vMasterKey) → s.getKey env hash id = some key) ∧
    ∀ hashes vMasterKeyIn, (∃ x ∈ s.checkedSecrets, ¬ Decrypts env hashes vMasterKeyIn x) →
      ∀ ok s', s.unlock env hashes vMasterKeyIn = .ok (ok, s') → ok = false ∧ s' = s := by
  have h := hrun.tracked
  refine ⟨fun _ id key k hplain hadd => ?_, fun hash id key hadd => ?_,
    fun hashes K hbad ok s' hun => ?_⟩
  · rw [getKey, hplain]
    exact (h.inTheOpen hplain id key k hadd).2
  · obtain ⟨secret, hlookup, henc⟩ := h.encrypted id key _ hadd
    have hcrypt : s.isCrypted = true := by
      cases huse : s.fUseCrypto with
      | true => exact huse
      | false => cases (h.inTheOpen huse id key _ hadd).1
    rw [getKey_of_lookup hcrypt hlookup]
    exact decryptKey_encryptSecret haes (h.usable id key _ hadd) henc hash
  · obtain ⟨x, hx, hbad⟩ := hbad
    rcases unlock_cases hun with ⟨-, -, -, hall⟩ | ⟨hok, rfl | hs'⟩
    · exact absurd (hall x hx) hbad
    · exact ⟨hok, rfl⟩
    · refine ⟨hok, ?_⟩
      cases huse : s.fUseCrypto with
      | true => rw [hs', ← huse]
      | false =>
        -- without encryption there are no secrets
        have hempty := SortedMap.isEmpty_iff.mp (h.nothingEncrypted huse)
        rw [checkedSecrets, hempty, List.take_nil, ite_self] at hx
        cases hx

end CCryptoKeyStore

/-! ## Stores with one or two keys -/

namespace KeyStoreSample

open CCryptoKeyStore

/-- A cipher that writes key and IV in front of the plaintext, over the sample curve. -/
def env : CryptoEnv where
  aesEncrypt := fun key iv m => (key ++ iv) ++ m
  aesDecrypt := fun key iv c => if c.take 48 = key ++ iv then c.drop 48 else []
  curve := SampleCurve.curve
  getID := fun pubkey => (pubkey.headD 0).toNat
  getHash := fun pubkey => List.replicate 32 (pubkey.headD 0)
  getHash_size := fun _ => List.length_replicate

theorem env_aesCorrect : AesCorrect env := by
  have hlen : ∀ key iv : List UInt8, key.length = WALLET_CRYPTO_KEY_SIZE →
      iv.length = WALLET_CRYPTO_IV_SIZE → (key ++ iv).length = 48 := by
    intro key iv hkey hiv
    rw [List.length_append, hkey, hiv]
    rfl
  refine ⟨fun key iv m _ _ _ => ?_, fun key iv m hkey hiv _ => ?_⟩
  · show m.length ≤ ((key ++ iv) ++ m).length
    rw [List.length_append]
    omega
  · show (if ((key ++ iv) ++ m).take 48 = key ++ iv then ((key ++ iv) ++ m).drop 48 else []) = m
    rw [List.take_left' (hlen key iv hkey hiv), List.drop_left' (hlen key iv hkey hiv), if_pos rfl]

/-- The key with a scalar of one byte. -/
def key (b : UInt8) : CKey := ⟨true, b :: List.replicate 63 0, rfl⟩

/-- Its public key, for a scalar above 1. -/
def pubkey (b : UInt8) : CPubKey := b :: List.replicate 30 0 ++ [128]

def masterKey (b : UInt8) : CKeyingMaterial := List.replicate 32 b

/-- The secret of a key under a master key. -/
def secret (m b : UInt8) : List UInt8 :=
  env.aesEncrypt (masterKey m) (List.replicate 16 b) (key b).privkey

/-- A key with a scalar that `ge_scalarmult_base` does not take. -/
def highKey : CKey := SampleCurve.newKey.setPrivKey SampleCurve.highKey

/-- What is drawn. -/
def zeros : CKeyID → Uint256 := fun _ => 0

theorem derivePubKey_key : ∀ b ∈ [3, 7], env.derivePubKey (key b) = pubkey b := by decide +kernel

theorem derivePubKey_highKey : env.derivePubKey highKey = SampleCurve.highPubkey := by
  decide +kernel

theorem usable_key (b : UInt8) : (key b).Usable := ⟨rfl, Nat.zero_le _⟩

theorem decryptKey_secret : ∀ m ∈ [1, 2], ∀ b ∈ [3, 7],
    decryptKey env 0 (masterKey m) (secret m b) (pubkey b) = some (key b) := by
  intro m hm b hb
  have henc : encryptSecret env (masterKey m) (key b).privkey (env.getHash (pubkey b)) =
      some (secret m b) := by
    revert m b
    decide +kernel
  rw [← derivePubKey_key b hb] at henc ⊢
  exact decryptKey_encryptSecret env_aesCorrect (usable_key b) henc 0

/-- A store with one secret that was unlocked. -/
def opened (b : UInt8) : CCryptoKeyStore where
  vMasterKey := masterKey 1
  fUseCrypto := true
  fDecryptionThoroughlyChecked := true
  mapCryptedKeys := SortedMap.empty.insert b.toNat (pubkey b, secret 1 b)

theorem unlock_one : ∀ b ∈ [3, 7],
    (({} : CCryptoKeyStore).addCryptedKey env (pubkey b) (secret 1 b)).2.unlock env zeros
      (masterKey 1) = .ok (true, opened b) := by
  intro b hb
  have hloop : unlockLoop env zeros (masterKey 1) false [(b.toNat, pubkey b, secret 1 b)] false =
      (true, false) := by
    rw [unlockLoop, zeros, decryptKey_secret 1 (by decide) b hb]
    rfl
  exact unlock_of_loop rfl hloop

/-- A second key was added when the store was unlocked. -/
def withTwo : CCryptoKeyStore := ((opened 3).addKeyPubKey env (key 7) (pubkey 7)).2

theorem twoKeys_run : ∃ added, Run env withTwo added ∧
    added 7 = some (key 7, some withTwo.vMasterKey) := by
  have hlegal : Op.Legal env (.addKeyPubKey (key 7) (pubkey 7)) :=
    ⟨usable_key 7, (derivePubKey_key 7 (by decide)).symm⟩
  have hadd : ({} : CCryptoKeyStore).step env (.addCryptedKey (pubkey 3) (secret 1 3)) =
      .ok (true, (({} : CCryptoKeyStore).addCryptedKey env (pubkey 3) (secret 1 3)).2) := rfl
  have hkey : (opened 3).step env (.addKeyPubKey (key 7) (pubkey 7)) = .ok (true, withTwo) := rfl
  have hload : Op.Legal env (.addCryptedKey (pubkey 3) (secret 1 3)) := trivial
  have hopen : Op.Legal env (.unlock (masterKey 1) zeros) := trivial
  have hstart := Run.step Run.start hload hadd
  have hunlocked := hstart.step hopen (unlock_one 3 (by decide))
  exact ⟨_, hunlocked.step hlegal hkey, rfl⟩

theorem not_decrypts : ∃ x ∈ withTwo.checkedSecrets, ¬ Decrypts env zeros (masterKey 2) x := by
  refine ⟨(3, pubkey 3, secret 1 3), by decide, ?_⟩
  have hnone : decryptKey env 0 (masterKey 2) (secret 1 3) (pubkey 3) = none := by rfl
  exact fun hdec => (nomatch (congrArg Option.isSome hnone).symm.trans hdec)

/-- `GetKey` gives the key back, whatever is drawn, and another master key is refused. -/
theorem twoKeys_getKey : ∃ added, Run env withTwo added ∧
    (∀ hash, withTwo.getKey env hash 7 = some (key 7)) ∧
    ∀ ok s', withTwo.unlock env zeros (masterKey 2) = .ok (ok, s') → ok = false ∧ s' = withTwo := by
  obtain ⟨added, hrun, hadded⟩ := twoKeys_run
  obtain ⟨-, hget, hrefused⟩ := getKey_of_added env env_aesCorrect withTwo added hrun
  exact ⟨added, hrun, fun hash => hget hash 7 (key 7) hadded,
    hrefused zeros (masterKey 2) not_decrypts⟩

/-- After a thorough check the first secret is enough. -/
theorem unlockLoop_first {rest : List (CKeyID × CryptedKey)} :
    unlockLoop env zeros (masterKey 2) true ((3, pubkey 3, secret 2 3) :: rest) false =
      (true, false) := by
  rw [unlockLoop, zeros, decryptKey_secret 2 (by decide) 3 (by decide)]
  rfl

/-- Some operations one after the other. -/
def runAll (s : CCryptoKeyStore) : List Op → Except KeyStoreError CCryptoKeyStore
  | [] => .ok s
  | op :: ops => do
    let (_, s) ← s.step env op
    runAll s ops

theorem runAll_opened : ∀ b ∈ [3, 7], ∀ ops : List Op,
    runAll {} (.addCryptedKey (pubkey b) (secret 1 b) :: .unlock (masterKey 1) zeros :: ops) =
      runAll (opened b) ops := by
  intro b hb ops
  have hload : runAll {} (.addCryptedKey (pubkey b) (secret 1 b) ::
      .unlock (masterKey 1) zeros :: ops) =
        runAll (({} : CCryptoKeyStore).addCryptedKey env (pubkey b) (secret 1 b)).2
          (.unlock (masterKey 1) zeros :: ops) := rfl
  rw [hload, runAll, step, unlock_one b hb]
  rfl

/-- The store after the key was added that no signature of which verifies. -/
def withHigh : CCryptoKeyStore := ((opened 3).addKeyPubKey env highKey SampleCurve.highPubkey).2

theorem getKey_highKey : withHigh.getKey env 0 (env.getID SampleCurve.highPubkey) = none := by
  have hverify : highKey.verifyPubKey env 0 (env.derivePubKey highKey) = .ok false := by
    rw [CKey.verifyPubKey_own rfl, show env.curve = SampleCurve.curve from rfl, highKey]
    exact SampleCurve.verify_highKey.2
  rw [derivePubKey_highKey] at hverify
  have hlookup : withHigh.mapCryptedKeys.lookup (env.getID SampleCurve.highPubkey) =
      some (SampleCurve.highPubkey, env.aesEncrypt (masterKey 1) (List.replicate 16 30)
        highKey.privkey) := by
    decide +kernel
  have hsecret : decryptSecret env withHigh.vMasterKey
      (env.aesEncrypt (masterKey 1) (List.replicate 16 30) highKey.privkey)
      (env.getHash SampleCurve.highPubkey) = some highKey.privkey := by
    decide +kernel
  exact (getKey_of_lookup rfl hlookup 0).trans (decryptKey_of_secret rfl hsecret hverify)

/-- An unlocked store whose key was replaced by `AddCryptedKey` does not give it back, and neither
    is a key given back whose scalar is out of range.  A failed `Unlock` leaves an unlocked store
    unlocked.  After one success, `Unlock` accepts a master key that decrypts the first secret
    only. -/
theorem getKey_not_always :
    (∃ s, runAll {} [.addCryptedKey (pubkey 3) (secret 1 3), .unlock (masterKey 1) zeros,
        .addKeyPubKey (key 7) (pubkey 7), .addCryptedKey (pubkey 7) (secret 1 8)] = .ok s ∧
      s.isLocked = false ∧ s.vMasterKey = masterKey 1 ∧ s.getKey env 0 7 = none) ∧
    (∃ s, runAll {} [.addCryptedKey (pubkey 3) (secret 1 3), .unlock (masterKey 1) zeros,
        .addKeyPubKey highKey SampleCurve.highPubkey] = .ok s ∧ s.isLocked = false ∧
      highKey.getPubKey env = .ok SampleCurve.highPubkey ∧
      s.getKey env 0 (env.getID SampleCurve.highPubkey) = none) ∧
    (∃ s, runAll {} [.addCryptedKey (pubkey 3) (secret 1 3), .unlock (masterKey 1) zeros,
        .unlock (masterKey 2) zeros] = .ok s ∧ s.isLocked = false) ∧
    ∃ s s', runAll {} [.addCryptedKey (pubkey 7) (secret 1 7), .unlock (masterKey 1) zeros, .lock,
        .addCryptedKey (pubkey 3) (secret 2 3)] = .ok s ∧
      (∃ x ∈ s.mapCryptedKeys.entries, ¬ Decrypts env zeros (masterKey 2) x) ∧
      s.unlock env zeros (masterKey 2) = .ok (true, s') ∧ s'.isLocked = false := by
  rw [runAll_opened 3 (by decide), runAll_opened 3 (by decide), runAll_opened 3 (by decide),
    runAll_opened 7 (by decide)]
  refine ⟨?_, ?_, ?_, ?_⟩
  · refine ⟨_, rfl, ?_, ?_, ?_⟩ <;> decide +kernel
  · refine ⟨withHigh, rfl, ?_, ?_, getKey_highKey⟩
    · decide +kernel
    · rw [← derivePubKey_highKey]
      exact congrArg Prod.fst (env.curve.getPubKey_eq rfl [])
  · refine ⟨_, rfl, ?_⟩
    decide +kernel
  · refine ⟨_, _, rfl, ⟨(7, pubkey 7, secret 1 7), ?_, ?_⟩, unlock_of_loop rfl ?_, ?_⟩
    · decide +kernel
    · have hnone : decryptKey env 0 (masterKey 2) (secret 1 7) (pubkey 7) = none := by rfl
      exact fun hdec => (nomatch (congrArg Option.isSome hnone).symm.trans hdec)
    · exact unlockLoop_first
    · decide +kernel

end KeyStoreSample

end Rcoin
