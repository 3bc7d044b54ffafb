/-
  `SignatureHash` (src/script/interpreter.cpp), which writes the transaction on the fly,
  against `SignatureHashOld` (src/test/sighash_tests.cpp), which changes a copy of it.

  The hash of the written bytes is a parameter.  An `int` is given by its bits.
-/
import Rcoin.Script.Interpreter
import Rcoin.Script.Separators

namespace Rcoin

open List

/-! ## Hash types -/

def SIGHASH_ALL : UInt32 := 1
def SIGHASH_NONE : UInt32 := 2
def SIGHASH_SINGLE : UInt32 := 3
def SIGHASH_ANYONECANPAY : UInt32 := 0x80

/-! ## `CTransactionSignatureSerializer` -/

/-- `CTxIn()`. -/
def CTxIn.empty : CTxIn := { prevout := ⟨0, COutPoint.nullIndex⟩ }

structure CTransactionSignatureSerializer where
  txTo : CTransaction
  scriptCode : CScript
  nIn : UInt32
  fAnyoneCanPay : Bool
  fHashSingle : Bool
  fHashNone : Bool

namespace CTransactionSignatureSerializer

def new (txTo : CTransaction) (scriptCode : CScript) (nIn nHashType : UInt32) :
    CTransactionSignatureSerializer where
  txTo := txTo
  scriptCode := scriptCode
  nIn := nIn
  fAnyoneCanPay := nHashType &&& SIGHASH_ANYONECANPAY != 0
  fHashSingle := nHashType &&& 0x1f == SIGHASH_SINGLE
  fHashNone := nHashType &&& 0x1f == SIGHASH_NONE

variable (t : CTransactionSignatureSerializer)

/-- An input of `txTo`; the index is inside the vector wherever this is called. -/
def serializeInput (nInput : Nat) : List UInt8 :=
  let nInput := if t.fAnyoneCanPay then t.nIn.toNat else nInput
  let txin := t.txTo.vin.getD nInput CTxIn.empty
  let script :=
    if nInput ≠ t.nIn.toNat then serializeBytes [] else Rcoin.serializeScriptCode t.scriptCode
  let nSequence :=
    if nInput ≠ t.nIn.toNat ∧ (t.fHashSingle || t.fHashNone) then leBytes 4 0
    else leBytes 4 txin.nSequence.toNat
  txin.prevout.serialize ++ script ++ nSequence

def serializeOutput (nOutput : Nat) : List UInt8 :=
  if t.fHashSingle ∧ nOutput ≠ t.nIn.toNat then CTxOut.null.serialize
  else (t.txTo.vout.getD nOutput CTxOut.null).serialize

/-- The sizes become an `unsigned int`. -/
def nInputs : UInt32 := if t.fAnyoneCanPay then 1 else UInt32.ofNat t.txTo.vin.length

def nOutputs : UInt32 :=
  if t.fHashNone then 0
  else if t.fHashSingle then t.nIn + 1 else UInt32.ofNat t.txTo.vout.length

def serialize : List UInt8 :=
  leBytesInt 4 t.txTo.nVersion ++
    (writeCompactSize t.nInputs.toNat ++ (range t.nInputs.toNat).flatMap t.serializeInput) ++
    (writeCompactSize t.nOutputs.toNat ++
      (range t.nOutputs.toNat).flatMap t.serializeOutput) ++
    leBytes 4 t.txTo.nLockTime.toNat

end CTransactionSignatureSerializer

/-! ## `SignatureHash` -/

structure PrecomputedTransactionData where
  hashPrevouts : Uint256
  hashSequence : Uint256
  hashOutputs : Uint256
  ready : Bool

section

variable (hash : List UInt8 → Uint256)

def getPrevoutHash (txTo : CTransaction) : Uint256 :=
  hash (txTo.vin.flatMap fun txin => txin.prevout.serialize)

def getSequenceHash (txTo : CTransaction) : Uint256 :=
  hash (txTo.vin.flatMap fun txin => leBytes 4 txin.nSequence.toNat)

def getOutputsHash (txTo : CTransaction) : Uint256 := hash (txTo.vout.flatMap CTxOut.serialize)

/-- The hash of a witness program's signatures. -/
def signatureHashWitness (scriptCode : CScript) (txTo : CTransaction) (nIn nHashType : UInt32)
    (amount : Int) (cache : Option PrecomputedTransactionData) : Uint256 :=
  let cache := cache.filter PrecomputedTransactionData.ready
  let fAnyoneCanPay := nHashType &&& SIGHASH_ANYONECANPAY != 0
  let fHashSingle := nHashType &&& 0x1f == SIGHASH_SINGLE
  let fHashNone := nHashType &&& 0x1f == SIGHASH_NONE
  let hashPrevouts :=
    if !fAnyoneCanPay then (cache.map (·.hashPrevouts)).getD (getPrevoutHash hash txTo) else 0
  let hashSequence :=
    if !fAnyoneCanPay && !fHashSingle && !fHashNone then
      (cache.map (·.hashSequence)).getD (getSequenceHash hash txTo)
    else 0
  let hashOutputs :=
    if !fHashSingle && !fHashNone then (cache.map (·.hashOutputs)).getD (getOutputsHash hash txTo)
    else if fHashSingle && nIn.toNat < txTo.vout.length then
      hash (txTo.vout.getD nIn.toNat CTxOut.null).serialize
    else 0
  let txin := txTo.vin.getD nIn.toNat CTxIn.empty
  hash (leBytesInt 4 txTo.nVersion ++ leBytes 32 hashPrevouts ++ leBytes 32 hashSequence ++
    txin.prevout.serialize ++ serializeBytes scriptCode ++ leBytesInt 8 amount ++
    leBytes 4 txin.nSequence.toNat ++ leBytes 32 hashOutputs ++ leBytes 4 txTo.nLockTime.toNat ++
    leBytes 4 nHashType.toNat)

/-- `SignatureHash`; `none` where its assertion fails. -/
def signatureHash (scriptCode : CScript) (txTo : CTransaction) (nIn nHashType : UInt32)
    (amount : Int) (sigversion : SigVersion) (cache : Option PrecomputedTransactionData) :
    Option Uint256 :=
  if nIn.toNat < txTo.vin.length then
    some <|
      match sigversion with
      | .witnessV0 => signatureHashWitness hash scriptCode txTo nIn nHashType amount cache
      | .base =>
        if nHashType &&& 0x1f == SIGHASH_SINGLE ∧ nIn.toNat ≥ txTo.vout.length then 1
        else
          hash ((CTransactionSignatureSerializer.new txTo scriptCode nIn nHashType).serialize ++
            leBytes 4 nHashType.toNat)
  else none

end

/-! ## `SignatureHashOld` -/

/-- "Blank out other inputs' signatures". -/
def blankInputs (scriptCode : CScript) (nIn : Nat) (vin : List CTxIn) : List CTxIn :=
  (vin.map fun txin => { txin with scriptSig := [] }).modify nIn fun txin =>
    { txin with scriptSig := scriptCode }

/-- "Let the others update at will". -/
def freeSequences (nIn : Nat) (vin : List CTxIn) : List CTxIn :=
  vin.mapIdx fun i txin => if i ≠ nIn then { txin with nSequence := 0 } else txin

/-- "Only lock-in the txout payee at same index as txin". -/
def keepOutput (nOut : UInt32) (vout : List CTxOut) : List CTxOut :=
  (vout.take (nOut + 1).toNat).mapIdx fun i txout =>
    if i < nOut.toNat then CTxOut.null else txout

/-- The inputs and outputs of the copy, before `SIGHASH_ANYONECANPAY`; nothing where
    there is no output for the input. -/
def blankTx (scriptCode : CScript) (txTo : CTransaction) (nIn nHashType : UInt32) :
    Option CTransaction :=
  let vin := blankInputs scriptCode nIn.toNat txTo.vin
  if nHashType &&& 0x1f == SIGHASH_NONE then
    some { txTo with vin := freeSequences nIn.toNat vin, vout := [] }
  else if nHashType &&& 0x1f == SIGHASH_SINGLE then
    if nIn.toNat ≥ txTo.vout.length then none
    else
      some { txTo with vin := freeSequences nIn.toNat vin, vout := keepOutput nIn txTo.vout }
  else some { txTo with vin := vin }

/-- "Blank out other inputs completely". -/
def onlyInput (nIn : Nat) (vin : List CTxIn) : List CTxIn :=
  (vin.set 0 (vin.getD nIn CTxIn.empty)).take 1

/-- `SignatureHashOld`.  Its loops over the inputs end where an `unsigned int` reaches
    their number.  The copy of the transaction is written without witnesses. -/
def signatureHashOld (hash : List UInt8 → Uint256) (scriptCode : CScript) (txTo : CTransaction)
    (nIn nHashType : UInt32) : Uint256 :=
  if nIn.toNat ≥ txTo.vin.length then 1
  else
    match blankTx (findAndDelete scriptCode [OP_CODESEPARATOR]) txTo nIn nHashType with
    | none => 1
    | some txTmp =>
      let txTmp :=
        if nHashType &&& SIGHASH_ANYONECANPAY != 0 then
          { txTmp with vin := onlyInput nIn.toNat txTmp.vin }
        else txTmp
      hash (txTmp.serialize false ++ leBytes 4 nHashType.toNat)

/-! ## The inputs and the outputs -/

theorem range_flatMap_eq {α β : Type} {l : List α} {f : α → List β} {g : Nat → List β}
    (h : ∀ (i : Nat) (hi : i < l.length), g i = f l[i]) :
    (range l.length).flatMap g = l.flatMap f := by
  have hmap : (range l.length).map g = l.map f := by
    refine ext_getElem (by simp) fun i hi _ => ?_
    rw [length_map, length_range] at hi
    rw [getElem_map, getElem_map, getElem_range]
    exact h i hi
  rw [flatMap_def, flatMap_def, hmap]

theorem serialize_noWitness (tx : CTransaction) : tx.serialize false =
    leBytesInt 4 tx.nVersion ++ serializeVector CTxIn.serialize tx.vin ++
      serializeVector CTxOut.serialize tx.vout ++ leBytes 4 tx.nLockTime.toNat := by
  simp [CTransaction.serialize]

theorem blankInputs_eq (scriptCode : CScript) (nIn : Nat) (vin : List CTxIn) :
    blankInputs scriptCode nIn vin =
      vin.mapIdx fun i txin => { txin with scriptSig := if i = nIn then scriptCode else [] } := by
  refine ext_getElem (by simp [blankInputs]) fun i _ _ => ?_
  simp only [blankInputs, getElem_modify, getElem_map, getElem_mapIdx]
  by_cases hi : i = nIn
  · rw [if_pos hi.symm, if_pos hi]
  · rw [if_neg fun h => hi h.symm, if_neg hi]

namespace CTransactionSignatureSerializer

variable (t : CTransactionSignatureSerializer)

/-- An input as it is written; `scriptSig` is the script without separators. -/
def signedInput (i : Nat) (txin : CTxIn) : CTxIn :=
  { txin with
    scriptSig := if i = t.nIn.toNat then findAndDelete t.scriptCode [OP_CODESEPARATOR] else []
    nSequence := if i ≠ t.nIn.toNat ∧ (t.fHashSingle || t.fHashNone) then 0 else txin.nSequence }

def signedOutputs : List CTxOut :=
  if t.fHashNone then []
  else if t.fHashSingle then keepOutput t.nIn t.txTo.vout else t.txTo.vout

/-- The inputs of the changed copy. -/
def signedInputs : List CTxIn :=
  let vin := t.txTo.vin.mapIdx t.signedInput
  if t.fAnyoneCanPay then onlyInput t.nIn.toNat vin else vin

variable {t}

theorem serializeInput_eq (hparses : Parses t.scriptCode) {i j : Nat}
    (hj : (if t.fAnyoneCanPay then t.nIn.toNat else i) = j) (hlt : j < t.txTo.vin.length) :
    t.serializeInput i = (t.signedInput j t.txTo.vin[j]).serialize := by
  unfold serializeInput
  simp only [hj]
  rw [getD_eq_getElem _ _ hlt]
  unfold CTxIn.serialize signedInput
  by_cases hin : j = t.nIn.toNat
  · simp [hin, serializeScriptCode_eq hparses]
  · cases hfree : t.fHashSingle || t.fHashNone <;> simp [hin]

theorem length_signedInputs (hnIn : t.nIn.toNat < t.txTo.vin.length)
    (hvin : t.txTo.vin.length < 2 ^ 32) : t.signedInputs.length = t.nInputs.toNat := by
  unfold signedInputs nInputs
  split
  · simp only [onlyInput, length_take, length_set, length_mapIdx]
    exact Nat.min_eq_left (Nat.zero_lt_of_lt hnIn)
  · rw [length_mapIdx, UInt32.toNat_ofNat_of_lt' hvin]

theorem serializeInputs_eq (hparses : Parses t.scriptCode)
    (hnIn : t.nIn.toNat < t.txTo.vin.length) (hvin : t.txTo.vin.length < 2 ^ 32) :
    writeCompactSize t.nInputs.toNat ++ (range t.nInputs.toNat).flatMap t.serializeInput =
      serializeVector CTxIn.serialize t.signedInputs := by
  rw [serializeVector, ← length_signedInputs hnIn hvin]
  refine congrArg _ (range_flatMap_eq fun i hi => ?_)
  unfold signedInputs at hi ⊢
  by_cases hacp : t.fAnyoneCanPay
  · -- only the input that is signed is left, at the first place
    simp only [hacp, if_true, onlyInput, length_take, length_set,
      length_mapIdx] at hi ⊢
    obtain rfl : i = 0 := by omega
    rw [getElem_take, getElem_set_self, getD_eq_getElem _ _ (by simpa using hnIn),
      getElem_mapIdx]
    exact serializeInput_eq hparses (by rw [if_pos hacp]) hnIn
  · simp only [hacp, if_false, Bool.false_eq_true, length_mapIdx, getElem_mapIdx] at hi ⊢
    exact serializeInput_eq hparses (by rw [if_neg hacp]) hi

theorem serializeOutputs_eq (hsingle : t.fHashSingle → t.nIn.toNat < t.txTo.vout.length)
    (hvout : t.txTo.vout.length < 2 ^ 32) :
    writeCompactSize t.nOutputs.toNat ++ (range t.nOutputs.toNat).flatMap t.serializeOutput =
      serializeVector CTxOut.serialize t.signedOutputs := by
  unfold signedOutputs nOutputs
  by_cases hnone : t.fHashNone
  · rw [if_pos hnone, if_pos hnone]
    rfl
  rw [if_neg hnone, if_neg hnone]
  by_cases hfSingle : t.fHashSingle
  · have hnIn := hsingle hfSingle
    have hnext : (t.nIn + 1).toNat = t.nIn.toNat + 1 := by
      rw [UInt32.toNat_add]
      exact Nat.mod_eq_of_lt (by
        have hone : UInt32.toNat 1 = 1 := rfl
        omega)
    have hlength : (keepOutput t.nIn t.txTo.vout).length = (t.nIn + 1).toNat := by
      rw [keepOutput, length_mapIdx, length_take]
      omega
    rw [if_pos hfSingle, if_pos hfSingle, serializeVector, ← hlength]
    refine congrArg _ (range_flatMap_eq fun i hi => ?_)
    simp only [keepOutput, getElem_mapIdx, getElem_take]
    unfold serializeOutput
    by_cases hi' : i < t.nIn.toNat
    · rw [if_pos ⟨hfSingle, by omega⟩, if_pos hi']
    · rw [if_neg fun h => h.2 (by omega), if_neg hi', getD_eq_getElem _ _ (by omega)]
  · rw [if_neg hfSingle, if_neg hfSingle, serializeVector, UInt32.toNat_ofNat_of_lt' hvout]
    refine congrArg _ (range_flatMap_eq fun i hi => ?_)
    unfold serializeOutput
    rw [if_neg fun h => hfSingle h.1, getD_eq_getElem _ _ hi]

theorem serialize_eq (hparses : Parses t.scriptCode) (hnIn : t.nIn.toNat < t.txTo.vin.length)
    (hsingle : t.fHashSingle → t.nIn.toNat < t.txTo.vout.length)
    (hvin : t.txTo.vin.length < 2 ^ 32) (hvout : t.txTo.vout.length < 2 ^ 32) :
    t.serialize = CTransaction.serialize false
      { t.txTo with vin := t.signedInputs, vout := t.signedOutputs } := by
  rw [serialize_noWitness, serialize, serializeInputs_eq hparses hnIn hvin,
    serializeOutputs_eq hsingle hvout]

theorem mapIdx_signedInput (t : CTransactionSignatureSerializer) :
    t.txTo.vin.mapIdx t.signedInput =
      let vin := blankInputs (findAndDelete t.scriptCode [OP_CODESEPARATOR]) t.nIn.toNat t.txTo.vin
      if t.fHashSingle || t.fHashNone then freeSequences t.nIn.toNat vin else vin := by
  simp only [blankInputs_eq]
  cases hfree : t.fHashSingle || t.fHashNone with
  | true =>
    rw [if_pos rfl, freeSequences, mapIdx_mapIdx]
    refine congrFun (congrArg _ (funext fun i => funext fun txin => ?_)) _
    by_cases hi : i = t.nIn.toNat
    · simp [signedInput, hi]
    · simp [signedInput, hi, hfree]
  | false =>
    refine congrFun (congrArg _ (funext fun i => funext fun txin => ?_)) _
    simp [signedInput, hfree]

end CTransactionSignatureSerializer

/-! ## The two procedures -/

open CTransactionSignatureSerializer

theorem blankTx_eq (txTo : CTransaction) (scriptCode : CScript) (nIn nHashType : UInt32) :
    let t := new txTo scriptCode nIn nHashType
    blankTx (findAndDelete scriptCode [OP_CODESEPARATOR]) txTo nIn nHashType =
      if nHashType &&& 0x1f == SIGHASH_SINGLE ∧ nIn.toNat ≥ txTo.vout.length then none
      else some { txTo with vin := txTo.vin.mapIdx t.signedInput, vout := t.signedOutputs } := by
  intro t
  rw [show txTo.vin.mapIdx t.signedInput = _ from mapIdx_signedInput t]
  have hfNone : t.fHashNone = (nHashType &&& 0x1f == SIGHASH_NONE) := rfl
  have hfSingle : t.fHashSingle = (nHashType &&& 0x1f == SIGHASH_SINGLE) := rfl
  simp only [signedOutputs, blankTx, hfNone, hfSingle]
  cases hnone : nHashType &&& 0x1f == SIGHASH_NONE with
  | true =>
    -- the two hash types exclude each other
    have hsingle : (nHashType &&& 0x1f == SIGHASH_SINGLE) = false := by
      rw [eq_of_beq hnone]
      decide
    simp only [hsingle, Bool.false_eq_true, false_and, if_false, if_true, Bool.or_true]
    rfl
  | false =>
    cases hsingle : nHashType &&& 0x1f == SIGHASH_SINGLE with
    | true =>
      simp only [Bool.false_eq_true, true_and, if_false, if_true, Bool.or_false]
      rfl
    | false =>
      rfl

/-- The two procedures agree on a script of whole instructions, where an `unsigned int`
    holds the numbers of inputs and of outputs. -/
theorem signatureHash_eq_signatureHashOld (hash : List UInt8 → Uint256) {scriptCode : CScript}
    (hparses : Parses scriptCode) {txTo : CTransaction} {nIn : UInt32}
    (hnIn : nIn.toNat < txTo.vin.length) (hvin : txTo.vin.length < 2 ^ 32)
    (hvout : txTo.vout.length < 2 ^ 32) (nHashType : UInt32) (amount : Int)
    (cache : Option PrecomputedTransactionData) :
    signatureHash hash scriptCode txTo nIn nHashType amount .base cache =
      some (signatureHashOld hash scriptCode txTo nIn nHashType) := by
  rw [signatureHash, if_pos hnIn, signatureHashOld, if_neg (not_le.mpr hnIn), blankTx_eq]
  refine congrArg some ?_
  simp only
  by_cases hsingle : nHashType &&& 0x1f == SIGHASH_SINGLE ∧ nIn.toNat ≥ txTo.vout.length
  · rw [if_pos hsingle, if_pos hsingle]
  · have hout : (new txTo scriptCode nIn nHashType).fHashSingle →
        nIn.toNat < txTo.vout.length := by
      intro hfSingle
      exact not_le.mp fun hle => hsingle ⟨hfSingle, hle⟩
    rw [if_neg hsingle, if_neg hsingle,
      serialize_eq (t := new txTo scriptCode nIn nHashType) hparses hnIn hout hvin hvout]
    have hfAnyoneCanPay : (new txTo scriptCode nIn nHashType).fAnyoneCanPay =
        (nHashType &&& SIGHASH_ANYONECANPAY != 0) := rfl
    cases hacp : nHashType &&& SIGHASH_ANYONECANPAY != 0 with
    | true =>
      rw [signedInputs, hfAnyoneCanPay, hacp]
      rfl
    | false =>
      rw [signedInputs, hfAnyoneCanPay, hacp]
      rfl

/-- `SIGHASH_NONE` and `SIGHASH_ANYONECANPAY` on the second input, with a separator in
    the script. -/
theorem signatureHash_eq_signatureHashOld_sample :
    signatureHash length [OP_DUP, OP_CODESEPARATOR, OP_CHECKSIG]
        { hash := 0, vin := [CTxIn.empty, CTxIn.empty], vout := [CTxOut.null] } 1 0x82 0 .base
        none =
      some (signatureHashOld length [OP_DUP, OP_CODESEPARATOR, OP_CHECKSIG]
        { hash := 0, vin := [CTxIn.empty, CTxIn.empty], vout := [CTxOut.null] } 1 0x82) :=
  signatureHash_eq_signatureHashOld length
    (.cons rfl (.cons rfl (.cons rfl .nil)))
    (by decide) (by decide) (by decide) 0x82 0 none

/-- One input and `n` outputs. -/
def crowdedTx (n : Nat) : CTransaction :=
  { hash := 0, vin := [CTxIn.empty], vout := replicate n CTxOut.null }

variable {n : Nat}

theorem nOutputs_crowdedTx (hwrap : UInt32.ofNat n = 0) :
    (new (crowdedTx n) [] 0 SIGHASH_ALL).nOutputs = 0 := by
  have hsize : (new (crowdedTx n) [] 0 SIGHASH_ALL).nOutputs =
      UInt32.ofNat (List.replicate n CTxOut.null).length := rfl
  rw [hsize, length_replicate, hwrap]

theorem serialize_crowdedTx_ne (hwrap : UInt32.ofNat n = 0) (hlarge : 253 ≤ n) :
    (new (crowdedTx n) [] 0 SIGHASH_ALL).serialize ≠
      CTransaction.serialize false { crowdedTx n with
        vin := (new (crowdedTx n) [] 0 SIGHASH_ALL).signedInputs } := by
  intro heq
  have hin := serializeInputs_eq (t := new (crowdedTx n) [] 0 SIGHASH_ALL) .nil zero_lt_one
    (Nat.one_lt_two_pow (by decide))
  have hlength := congrArg length heq
  rw [serialize_noWitness, serialize, hin, nOutputs_crowdedTx hwrap] at hlength
  have hfew : (writeCompactSize (UInt32.toNat 0)).length = 1 := rfl
  have hmany : 1 < (writeCompactSize n).length := by
    rw [length_writeCompactSize, getSizeOfCompactSize, if_neg (not_lt.mpr hlarge)]
    split
    · decide
    · split <;> decide
  have hnone : (List.range (UInt32.toNat 0)).flatMap
      (new (crowdedTx n) [] 0 SIGHASH_ALL).serializeOutput = [] := rfl
  have hvout : (crowdedTx n).vout.length = n := length_replicate
  simp only [length_append, hfew, hnone, length_nil, serializeVector, hvout] at hlength
  have htxTo : (new (crowdedTx n) [] 0 SIGHASH_ALL).txTo = crowdedTx n := rfl
  rw [htxTo] at hlength
  omega

theorem signatureHash_crowdedTx_ne {hash : List UInt8 → Uint256} (hinj : Function.Injective hash)
    (hwrap : UInt32.ofNat n = 0) (hlarge : 253 ≤ n) :
    signatureHash hash [] (crowdedTx n) 0 SIGHASH_ALL 0 .base none ≠
      some (signatureHashOld hash [] (crowdedTx n) 0 SIGHASH_ALL) := by
  intro heq
  have hnIn : UInt32.toNat 0 < (crowdedTx n).vin.length := Nat.zero_lt_one
  have hall : ¬(SIGHASH_ALL &&& 0x1f == SIGHASH_SINGLE ∧
      UInt32.toNat 0 ≥ (crowdedTx n).vout.length) := fun h => absurd h.1 (by decide)
  rw [signatureHash, if_pos hnIn, signatureHashOld, if_neg (not_le.mpr hnIn), blankTx_eq,
    Option.some_inj] at heq
  exact serialize_crowdedTx_ne hwrap hlarge (append_cancel_right (hinj heq))

/-- With 2^32 outputs a hash without collisions differs. -/
theorem not_signatureHash_eq_signatureHashOld :
    ¬∃ hash : List UInt8 → Uint256, Function.Injective hash ∧
      signatureHash hash [] (crowdedTx (2 ^ 32)) 0 SIGHASH_ALL 0 .base none =
        some (signatureHashOld hash [] (crowdedTx (2 ^ 32)) 0 SIGHASH_ALL) :=
  fun ⟨_, hinj, heq⟩ => signatureHash_crowdedTx_ne hinj (by decide) (by decide) heq

end Rcoin
