/-
  `TransactionSignatureChecker::CheckSig` (src/script/interpreter.cpp) with the
  memory it reads: the object `pubkey` keeps the bytes it was made over when the key
  has another size, and 64 bytes are read at the signature whatever its size.

  `SignatureHash` is a parameter.
-/
import Rcoin.Ed25519.Verify

namespace Rcoin

open List

/-- `GetBlockScriptFlags`, for whether segwit is active. -/
def getBlockScriptFlags (witnessEnabled : Bool) : UInt32 :=
  let flags := SCRIPT_VERIFY_P2SH
  let flags := flags ||| SCRIPT_VERIFY_CHECKLOCKTIMEVERIFY
  let flags := flags ||| SCRIPT_VERIFY_CHECKSEQUENCEVERIFY
  if witnessEnabled then flags ||| SCRIPT_VERIFY_WITNESS ||| SCRIPT_VERIFY_NULLDUMMY else flags

/-- What a call of `CheckSig` finds in memory. -/
structure CallMemory where
  /-- The bytes where the object `pubkey` is made. -/
  vch : List UInt8
  vch_length : vch.length = PUBLIC_KEY_SIZE
  /-- The bytes behind those of the signature. -/
  past : List UInt8
  past_length : past.length = 64

/-- `CPubKey::Set`, in the constructor. -/
def CallMemory.pubKey (mem : CallMemory) (vchPubKey : Valtype) : CPubKey :=
  if vchPubKey.length = PUBLIC_KEY_SIZE then vchPubKey else mem.vch

/-- The 64 bytes at `vchSig.data()`; `pop_back` leaves the hash type where it is. -/
def CallMemory.signature (mem : CallMemory) (vchSigIn : Valtype) : List UInt8 :=
  (vchSigIn ++ mem.past).take 64

variable (mem : CallMemory)

namespace CallMemory

theorem length_pubKey (vchPubKey : Valtype) : (mem.pubKey vchPubKey).length = PUBLIC_KEY_SIZE := by
  unfold pubKey
  split
  next h => exact h
  next => exact mem.vch_length

theorem length_signature (vchSigIn : Valtype) : (mem.signature vchSigIn).length = 64 := by
  rw [signature, length_take, length_append, mem.past_length]
  omega

theorem take_prefix_signature (vchSigIn : Valtype) :
    vchSigIn.take 64 <+: mem.signature vchSigIn := by
  rw [signature, take_append]
  exact prefix_append ..

theorem signature_of_length {sig : Valtype} (h : sig.length = 64) (nHashType : UInt8)
    : mem.signature (sig ++ [nHashType]) = sig := by
  rw [signature, append_assoc, take_left' h]

theorem exists_reads {vchSigIn vchPubKey : Valtype} {key signature : List UInt8}
    (hkey : key.length = PUBLIC_KEY_SIZE)
    (hsame : vchPubKey.length = PUBLIC_KEY_SIZE → key = vchPubKey) (hlen : signature.length = 64)
    (hpre : vchSigIn.take 64 <+: signature) :
    ∃ mem : CallMemory, mem.pubKey vchPubKey = key ∧ mem.signature vchSigIn = signature := by
  obtain ⟨rest, rfl⟩ := hpre
  rw [length_append, length_take] at hlen
  have hpast : (rest ++ List.replicate (64 - rest.length) (0 : UInt8)).length = 64 := by
    rw [length_append, length_replicate]
    omega
  refine ⟨⟨key, hkey, _, hpast⟩, ?_, ?_⟩
  · unfold pubKey
    split
    next h => exact (hsame h).symm
    next => rfl
  · unfold CallMemory.signature
    rcases Nat.le_total vchSigIn.length 64 with hle | hge
    · rw [take_of_length_le hle, ← append_assoc, take_left']
      rw [length_append]
      omega
    · have hrest : rest = [] := length_eq_zero_iff.mp (by omega)
      rw [take_append_of_le_length hge, hrest, append_nil]

end CallMemory

/-- The checker of one input, with the memory around its operands. -/
structure TransactionSignatureChecker where
  txTo : CTransaction
  nIn : Nat
  amount : Int
  /-- `SignatureHash`. -/
  signatureHash : CScript → CTransaction → Nat → UInt8 → Int → SigVersion → Uint256

namespace TransactionSignatureChecker

variable (C : EdwardsCurve) (checker : TransactionSignatureChecker)

def sighash (scriptCode : CScript) (nHashType : UInt8) (sigversion : SigVersion) : Uint256 :=
  checker.signatureHash scriptCode checker.txTo checker.nIn nHashType checker.amount sigversion

def checkSig (mem : CallMemory) (vchSigIn vchPubKey : Valtype) (scriptCode : CScript)
    (sigversion : SigVersion) : Bool :=
  let pubkey := mem.pubKey vchPubKey
  if !EdwardsCurve.isValidPubKey pubkey then false
  else match vchSigIn.getLast? with
    | none => false
    | some nHashType =>
      let sighash := checker.sighash scriptCode nHashType sigversion
      C.verifyPubKey pubkey sighash (mem.signature vchSigIn)

/-- The checks of `OP_CHECKSIG`: of the encodings under the flags, and of the
    signature. -/
def checkEncodedSig (flags : UInt32) (mem : CallMemory) (vchSig vchPubKey : Valtype)
    (scriptCode : CScript) (sigversion : SigVersion) : Except ScriptError Bool := do
  checkSignatureEncoding vchSig flags
  checkPubKeyEncoding vchPubKey flags sigversion
  return checker.checkSig C mem vchSig vchPubKey scriptCode sigversion

theorem checkEncodedSig_block (witnessEnabled : Bool) (mem : CallMemory)
    (vchSig vchPubKey : Valtype) (scriptCode : CScript) (sigversion : SigVersion) :
    checker.checkEncodedSig C (getBlockScriptFlags witnessEnabled) mem vchSig vchPubKey scriptCode
        sigversion = .ok (checker.checkSig C mem vchSig vchPubKey scriptCode sigversion) := by
  have hstrict : hasFlag (getBlockScriptFlags witnessEnabled) SCRIPT_VERIFY_STRICTENC = false := by
    cases witnessEnabled <;> decide
  have htype : hasFlag (getBlockScriptFlags witnessEnabled) SCRIPT_VERIFY_WITNESS_PUBKEYTYPE =
      false := by
    cases witnessEnabled <;> decide
  have hsig : checkSignatureEncoding vchSig (getBlockScriptFlags witnessEnabled) = .ok ⟨⟩ := by
    unfold checkSignatureEncoding
    rw [hstrict, Bool.false_and, Fallible.failIf, if_neg Bool.false_ne_true, ite_self]
  have hkey : checkPubKeyEncoding vchPubKey (getBlockScriptFlags witnessEnabled) sigversion =
      .ok ⟨⟩ := by
    unfold checkPubKeyEncoding
    rw [hstrict, htype]
    rfl
  unfold checkEncodedSig
  rw [hsig, hkey]
  rfl

theorem checkSig_concat (sig : Valtype) (nHashType : UInt8) (vchPubKey : Valtype)
    (scriptCode : CScript) (sigversion : SigVersion) :
    checker.checkSig C mem (sig ++ [nHashType]) vchPubKey scriptCode sigversion =
      C.ed25519_verify (mem.signature (sig ++ [nHashType]))
        (leBytes 32 (checker.sighash scriptCode nHashType sigversion)) (mem.pubKey vchPubKey) := by
  unfold checkSig
  rw [getLast?_concat]
  rfl

/-- The answer in a block is a function of the bytes, and true only of the sizes of a
    key and a signature with its hash type. -/
def Determined (vchSig vchPubKey : Valtype) (scriptCode : CScript) (sigversion : SigVersion)
    (witnessEnabled : Bool) : Prop :=
  (∀ mem, checker.checkEncodedSig C (getBlockScriptFlags witnessEnabled) mem vchSig vchPubKey
      scriptCode sigversion = .ok true →
    vchPubKey.length = PUBLIC_KEY_SIZE ∧ vchSig.length = 64 + 1) ∧
  ∀ mem mem', checker.checkEncodedSig C (getBlockScriptFlags witnessEnabled) mem vchSig vchPubKey
      scriptCode sigversion =
    checker.checkEncodedSig C (getBlockScriptFlags witnessEnabled) mem' vchSig vchPubKey
      scriptCode sigversion

/-- No 64 bytes that begin with the signature verify under a key that the call can
    read. -/
def NoneVerifies (vchSig vchPubKey : Valtype) (scriptCode : CScript) (sigversion : SigVersion) :
    Prop :=
  ∀ (nHashType : UInt8) (key signature : List UInt8), vchSig.getLast? = some nHashType →
    key.length = PUBLIC_KEY_SIZE → (vchPubKey.length = PUBLIC_KEY_SIZE → key = vchPubKey) →
    signature.length = 64 → vchSig.take 64 <+: signature →
      C.ed25519_verify signature
        (leBytes 32 (checker.sighash scriptCode nHashType sigversion)) key = false

/-- The answer is determined for an empty signature, for the right sizes, and where no
    completion of the bytes verifies. -/
theorem determined_iff (vchSig vchPubKey : Valtype) (scriptCode : CScript)
    (sigversion : SigVersion) (witnessEnabled : Bool) :
    checker.Determined C vchSig vchPubKey scriptCode sigversion witnessEnabled ↔
      vchSig = [] ∨ (vchPubKey.length = PUBLIC_KEY_SIZE ∧ vchSig.length = 64 + 1) ∨
        checker.NoneVerifies C vchSig vchPubKey scriptCode sigversion := by
  unfold Determined
  simp only [checkEncodedSig_block, Except.ok.injEq]
  rcases eq_nil_or_concat' vchSig with rfl | ⟨sig, nHashType, rfl⟩
  · refine ⟨fun _ => .inl rfl, fun _ => ⟨fun mem h => (nomatch h), fun _ _ => rfl⟩⟩
  simp only [checkSig_concat, length_append, length_singleton, Nat.add_right_cancel_iff]
  constructor
  · rintro ⟨hsizes, -⟩
    by_contra hcond
    push Not at hcond
    obtain ⟨-, hwrong, hsome⟩ := hcond
    unfold NoneVerifies at hsome
    push Not at hsome
    obtain ⟨n, key, signature, hlast, hkey, hsame, hlen, hpre, hverify⟩ := hsome
    obtain rfl : nHashType = n := by
      rw [getLast?_concat] at hlast
      exact Option.some.inj hlast
    obtain ⟨mem, hmemKey, hmemSig⟩ := CallMemory.exists_reads hkey hsame hlen hpre
    have hpass : C.ed25519_verify (mem.signature (sig ++ [nHashType]))
        (leBytes 32 (checker.sighash scriptCode nHashType sigversion)) (mem.pubKey vchPubKey) =
          true := by
      rw [hmemKey, hmemSig]
      simpa using hverify
    exact hwrong (hsizes mem hpass).1 (hsizes mem hpass).2
  · rintro (hnil | ⟨hkey, hsig⟩ | hnone)
    · exact absurd hnil (append_ne_nil_of_right_ne_nil _ (cons_ne_nil _ _))
    · refine ⟨fun _ _ => ⟨hkey, hsig⟩, fun mem mem' => ?_⟩
      have hset : ∀ mem : CallMemory, mem.pubKey vchPubKey = vchPubKey := fun mem => if_pos hkey
      rw [mem.signature_of_length hsig, mem'.signature_of_length hsig, hset, hset]
    · have hfalse : ∀ mem : CallMemory, C.ed25519_verify (mem.signature (sig ++ [nHashType]))
          (leBytes 32 (checker.sighash scriptCode nHashType sigversion)) (mem.pubKey vchPubKey) =
            false := by
        intro mem
        exact hnone nHashType _ _ getLast?_concat (mem.length_pubKey vchPubKey)
          (fun h => if_pos h) (mem.length_signature _) (mem.take_prefix_signature _)
      refine ⟨fun mem h => ?_, fun mem mem' => by rw [hfalse mem, hfalse mem']⟩
      rw [hfalse mem] at h
      exact nomatch h

end TransactionSignatureChecker

/-! ## An unset key -/

namespace SampleCurve

/-- The second of two inputs, and one output: `SIGHASH_SINGLE` hashes to 1. -/
def checker : TransactionSignatureChecker where
  txTo := { hash := 5, vin := [⟨⟨1, 0⟩, [], 0, []⟩, ⟨⟨2, 0⟩, [], 0, []⟩], vout := [⟨1, []⟩] }
  nIn := 1
  amount := 1
  signatureHash _ _ _ _ _ _ := 1

/-- A buffer with the bytes of the neutral element, and one whose bytes are no point. -/
def neutralMemory : CallMemory := ⟨neutral, rfl, List.replicate 64 0, rfl⟩

def otherMemory : CallMemory := ⟨2 :: List.replicate 31 0, rfl, List.replicate 64 0, rfl⟩

/-- `SIGHASH_SINGLE` behind a signature by the neutral element. -/
def neutralSig : Valtype := neutral ++ leBytes 32 0 ++ [3]

/-- An empty public key: the answer is what the buffer held before. -/
theorem checkSig_unset :
    checker.checkEncodedSig curve (getBlockScriptFlags false) neutralMemory neutralSig [] [] .base =
        .ok true ∧
      checker.checkEncodedSig curve (getBlockScriptFlags false) otherMemory neutralSig [] [] .base =
        .ok false := by
  have hlen : (neutral ++ leBytes 32 0).length = 64 := rfl
  have hneutral : neutral.length = 32 := rfl
  have hzero : ofLeBytes (leBytes 32 0) = 0 := ofLeBytes_leBytes (by decide)
  have hpass := curve.ed25519_verify_neutral (length_leBytes 32 0)
    (by rw [hzero]; exact Nat.two_pow_pos _) (leBytes 32 1)
  rw [hzero, zero_smul, show curve.ge_tobytes 0 = neutral from tobytes_zero] at hpass
  rw [TransactionSignatureChecker.checkEncodedSig_block,
    TransactionSignatureChecker.checkEncodedSig_block, neutralSig,
    TransactionSignatureChecker.checkSig_concat, TransactionSignatureChecker.checkSig_concat,
    neutralMemory.signature_of_length hlen, otherMemory.signature_of_length hlen]
  refine ⟨congrArg Except.ok hpass, congrArg Except.ok ?_⟩
  have hkey : curve.ge_frombytes_negate_vartime (otherMemory.pubKey []) = none := by decide
  refine Bool.eq_false_iff.mpr fun hverify => ?_
  obtain ⟨-, A, hA, -⟩ :=
    (curve.ed25519_verify_iff hneutral (length_leBytes 32 0)).mp hverify
  rw [hkey] at hA
  exact nomatch hA

end SampleCurve

end Rcoin
