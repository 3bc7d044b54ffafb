/-
  `CreateNewBlock`: the block around the chosen transactions, with its coinbase and the witness
  commitment.  The assembler counts a fixed reserve for what is not chosen; here is what that
  weighs in the block a miner completes with an Equihash solution.

  Source: src/miner.cpp, GenerateCoinbaseCommitment and what it calls in src/validation.cpp,
  GetTransactionWeight and GetBlockWeight in src/consensus/validation.h, src/chainparams.cpp.
  Times, difficulty, version, hashes and `TestBlockValidity` are given.
-/
import Rcoin.Chain.CoinbaseHeight
import Rcoin.Chain.Subsidy
import Rcoin.Equihash.Rows
import Rcoin.Miner.Filling
import Rcoin.Serialize

namespace Rcoin

open List

/-! ## Weights -/

def getTransactionWeight (tx : CTransaction) : Nat :=
  (tx.serialize false).length * (WITNESS_SCALE_FACTOR - 1) + (tx.serialize true).length

theorem length_serializeBytes (v : List UInt8) :
    (serializeBytes v).length = getSizeOfCompactSize v.length + v.length := by
  rw [serializeBytes, length_append, length_writeCompactSize]

theorem length_serializeVector {α : Type*} (serialize : α → List UInt8) (v : List α) :
    (serializeVector serialize v).length =
      getSizeOfCompactSize v.length + (v.map fun a => (serialize a).length).sum := by
  rw [serializeVector, length_append, length_writeCompactSize, length_flatMap]

theorem length_serializeTxIn (txin : CTxIn) :
    txin.serialize.length = 40 + (getSizeOfCompactSize txin.scriptSig.length + txin.scriptSig.length) := by
  simp only [CTxIn.serialize, COutPoint.serialize, length_append, length_leBytes,
    length_serializeBytes]
  omega

theorem length_serializeTxOut (txout : CTxOut) :
    txout.serialize.length =
      8 + (getSizeOfCompactSize txout.scriptPubKey.length + txout.scriptPubKey.length) := by
  rw [CTxOut.serialize, length_append, length_leBytesInt, length_serializeBytes]

theorem getTransactionWeight_of_noWitness {tx : CTransaction} (h : tx.hasWitness = false) :
    getTransactionWeight tx = 4 * (tx.serialize false).length := by
  have hsame : tx.serialize true = tx.serialize false := by
    simp [CTransaction.serialize, h]
  rw [getTransactionWeight, hsame, WITNESS_SCALE_FACTOR]
  omega

theorem length_serialize_noWitness (tx : CTransaction) :
    (tx.serialize false).length = 8 + (serializeVector CTxIn.serialize tx.vin).length +
      (serializeVector CTxOut.serialize tx.vout).length := by
  simp [CTransaction.serialize]
  omega

theorem length_serialize_witness {tx : CTransaction} (h : tx.hasWitness = true) :
    (tx.serialize true).length = (tx.serialize false).length + 2 +
      (tx.vin.map fun txin => (serializeVector serializeBytes txin.scriptWitness).length).sum := by
  have hcount : (writeCompactSize 0).length = 1 := rfl
  simp [CTransaction.serialize, h, serializeVector, length_flatMap, hcount]
  omega

theorem length_serializeHeader (block : CFullBlock) :
    block.serializeHeader.length =
      108 + getSizeOfCompactSize block.nSolution.length + block.nSolution.length := by
  simp only [CFullBlock.serializeHeader, length_append, length_leBytesInt, length_leBytes,
    length_serializeBytes]
  omega

theorem length_serializeBlock (fAllowWitness : Bool) (block : CFullBlock) :
    (block.serialize fAllowWitness).length = block.serializeHeader.length +
      getSizeOfCompactSize block.vtx.length +
      (block.vtx.map fun tx => (tx.serialize fAllowWitness).length).sum := by
  rw [CFullBlock.serialize, serializeVector, length_append, length_append, length_writeCompactSize,
    length_flatMap, Nat.add_assoc]

theorem getBlockWeight_eq (block : CFullBlock) :
    getBlockWeight block = 4 * (block.serializeHeader.length +
      getSizeOfCompactSize block.vtx.length) + (block.vtx.map getTransactionWeight).sum := by
  have hsum : (block.vtx.map getTransactionWeight).sum =
      (block.vtx.map fun tx => (tx.serialize false).length).sum * 3 +
        (block.vtx.map fun tx => (tx.serialize true).length).sum := by
    induction block.vtx with
    | nil => rfl
    | cons tx vtx ih =>
      simp only [map_cons, sum_cons, ih, getTransactionWeight, WITNESS_SCALE_FACTOR]
      omega
  rw [getBlockWeight, CFullBlock.getSerializeSize, CFullBlock.getSerializeSize,
    length_serializeBlock, length_serializeBlock, hsum]
  unfold WITNESS_SCALE_FACTOR
  omega

theorem getSizeOfCompactSize_bounds (nSize : Nat) :
    1 ≤ getSizeOfCompactSize nSize ∧ getSizeOfCompactSize nSize ≤ 9 := by
  unfold getSizeOfCompactSize
  split
  · omega
  split
  · omega
  split <;> omega

/-! ## The networks -/

/-- `EquihashN` and `EquihashK`. -/
def CChainParams.equihash : CChainParams → Equihash
  | main => Eh200_9
  | test => Eh200_9
  | regTest => Eh48_5

/-- The constructor of `BlockAssembler` limits the weight to between 4K and `MAX_BLOCK_WEIGHT`-4K
    for sanity. -/
def configuredMaxWeight (nBlockMaxWeight : Nat) : Nat :=
  max 4000 (min (MAX_BLOCK_WEIGHT - 4000) nBlockMaxWeight)

/-! ## The template -/

structure CBlockTemplate where
  block : CFullBlock
  vTxFees : List Int
  vTxSigOpsCost : List Int
  vchCoinbaseCommitment : List UInt8

/-- What `CreateNewBlock` takes from the chain and its parameters. -/
structure TemplateEnv extends AssemblerEnv where
  chainparams : CChainParams
  nVersion : Int
  hashPrevBlock : Uint256
  nTime : UInt32
  nBits : UInt32
  isWitnessEnabled : Bool
  /-- `CTransaction::ComputeHash`. -/
  computeHash : List CTxIn → List CTxOut → Int → UInt32 → Uint256
  blockWitnessMerkleRoot : List CTransaction → Uint256
  /-- `CHash256` over the witness root and 32 zero bytes. -/
  hashCommitment : Uint256 → Uint256
  getLegacySigOpCount : CTransaction → Int
  testBlockValidity : CFullBlock → Bool

def isWitnessCommitment (scriptPubKey : CScript) : Bool :=
  decide (scriptPubKey.length ≥ 38) && scriptPubKey.take 6 == [opReturnByte, 0x24, 0xaa, 0x21, 0xa9, 0xed]

/-- The last output of the first transaction that is a commitment, or -1. -/
def getWitnessCommitmentIndex (vtx : List CTransaction) : Int :=
  match vtx with
  | [] => -1
  | tx :: _ => tx.vout.zipIdx.foldl (fun commitpos (out, o) =>
      if isWitnessCommitment out.scriptPubKey then (o : Int) else commitpos) (-1)

namespace TemplateEnv

variable (env : TemplateEnv)

def makeTransactionRef (vin : List CTxIn) (vout : List CTxOut) (nVersion : Int) (nLockTime : UInt32) :
    CTransaction where
  hash := env.computeHash vin vout nVersion nLockTime
  vin := vin
  vout := vout
  nVersion := nVersion
  nLockTime := nLockTime

/-- The first input's witness becomes the nonce. -/
def withWitnessNonce : List CTxIn → List CTxIn
  | [] => []
  | txin :: vin => { txin with scriptWitness := [replicate 32 0] } :: vin

def updateUncommittedBlockStructures : List CTransaction → List CTransaction
  | [] => []
  | tx :: vtx =>
    if getWitnessCommitmentIndex (tx :: vtx) ≠ -1 ∧ env.isWitnessEnabled ∧ ¬ tx.hasWitness then
      env.makeTransactionRef (withWitnessNonce tx.vin) tx.vout tx.nVersion tx.nLockTime :: vtx
    else tx :: vtx

/-- `GenerateCoinbaseCommitment`: the commitment, and the block's transactions. -/
def generateCoinbaseCommitment (vtx : List CTransaction) : List UInt8 × List CTransaction :=
  match vtx with
  | [] => ([], [])
  | tx :: rest =>
    if getWitnessCommitmentIndex vtx = -1 then
      let witnessroot := env.hashCommitment (env.blockWitnessMerkleRoot vtx)
      let out : CTxOut :=
        { nValue := 0
          scriptPubKey := [opReturnByte, 0x24, 0xaa, 0x21, 0xa9, 0xed] ++ leBytes 32 witnessroot }
      let tx := env.makeTransactionRef tx.vin (tx.vout ++ [out]) tx.nVersion tx.nLockTime
      (out.scriptPubKey, env.updateUncommittedBlockStructures (tx :: rest))
    else ([], env.updateUncommittedBlockStructures vtx)

/-- What the packages are chosen with. -/
def assembler (fMineWitnessTx : Bool) : AssemblerEnv :=
  { env.toAssemblerEnv with fIncludeWitness := env.isWitnessEnabled && fMineWitnessTx }

def coinbaseTx (nFees nSubsidy : Int) (scriptPubKeyIn : CScript) : CTransaction :=
  env.makeTransactionRef
    [{ prevout := ⟨0, COutPoint.nullIndex⟩, scriptSig := pushInt64 env.nHeight ++ [OP_0] }]
    [⟨nFees + nSubsidy, scriptPubKeyIn⟩] 2 0

/-- `CreateNewBlock`, with so many iterations for the package selection; `none` stands for the
    exception when the block is not valid. -/
def createNewBlock (pool : CTxMemPool) (fuel : Nat) (scriptPubKeyIn : CScript)
    (fMineWitnessTx : Bool) : Option CBlockTemplate := do
  let s ← (env.assembler fMineWitnessTx).addPackageTxs pool fuel
  let nSubsidy ← getBlockSubsidyInt env.chainparams.nSubsidyHalvingInterval env.nHeight
  let coinbaseTx := env.coinbaseTx s.block.nFees nSubsidy scriptPubKeyIn
  let (commitment, vtx) := env.generateCoinbaseCommitment (coinbaseTx :: s.block.vtx)
  let block : CFullBlock :=
    { nVersion := env.nVersion
      hashPrevBlock := env.hashPrevBlock
      hashMerkleRoot := 0
      nTime := env.nTime
      nBits := env.nBits
      nNonce := 0
      nSolution := []
      vtx := vtx }
  guard (env.testBlockValidity block)
  return {
    block := block
    vTxFees := -s.block.nFees :: s.block.vTxFees
    vTxSigOpsCost :=
      (vtx.head?.elim 0 fun tx => WITNESS_SCALE_FACTOR * env.getLegacySigOpCount tx) ::
        s.block.vTxSigOpsCost
    vchCoinbaseCommitment := commitment }

end TemplateEnv

/-! ## The coinbase -/

theorem length_pushInt64 (n : Int) : 1 ≤ (pushInt64 n).length ∧ (pushInt64 n).length ≤ 10 := by
  have hlen := getvch_length_le n
  have hdirect : (CScriptNum.getvch n).length < OP_PUSHDATA1.toNat := by
    show _ < 76
    omega
  unfold pushInt64
  split
  · simp
  · split
    · simp
    · rw [pushVector, if_pos hdirect, length_cons]
      omega

section

variable (env : TemplateEnv) {scriptPubKeyIn : CScript} (nFees nSubsidy : Int)

/-- The coinbase with the commitment to the witness root. -/
def TemplateEnv.committedCoinbase (scriptPubKeyIn : CScript) (witnessroot : Uint256) : CTransaction :=
  env.makeTransactionRef
    [{ prevout := ⟨0, COutPoint.nullIndex⟩
       scriptSig := pushInt64 env.nHeight ++ [OP_0]
       scriptWitness := if env.isWitnessEnabled then [replicate 32 0] else [] }]
    [⟨nFees + nSubsidy, scriptPubKeyIn⟩,
      ⟨0, [opReturnByte, 0x24, 0xaa, 0x21, 0xa9, 0xed] ++ leBytes 32 witnessroot⟩] 2 0

theorem generateCoinbaseCommitment_snd (hshort : scriptPubKeyIn.length < 38)
    (vtx : List CTransaction) :
    ∃ witnessroot, (env.generateCoinbaseCommitment
        (env.coinbaseTx nFees nSubsidy scriptPubKeyIn :: vtx)).2 =
      env.committedCoinbase nFees nSubsidy scriptPubKeyIn witnessroot :: vtx := by
  have hnone : getWitnessCommitmentIndex (env.coinbaseTx nFees nSubsidy scriptPubKeyIn :: vtx) = -1 := by
    simp [getWitnessCommitmentIndex, TemplateEnv.coinbaseTx, TemplateEnv.makeTransactionRef,
      isWitnessCommitment, not_le.mpr hshort]
  refine ⟨env.hashCommitment (env.blockWitnessMerkleRoot
    (env.coinbaseTx nFees nSubsidy scriptPubKeyIn :: vtx)), ?_⟩
  simp only [TemplateEnv.generateCoinbaseCommitment, if_pos hnone]
  have hcommitment : ∀ root : Uint256, isWitnessCommitment
      ([opReturnByte, 0x24, 0xaa, 0x21, 0xa9, 0xed] ++ leBytes 32 root) = true := by
    intro root
    simp [isWitnessCommitment]
  -- the new output is found, so the input gets the nonce where witnesses are enabled
  have hindex : ∀ tx : CTransaction, ∀ out root, tx.vout =
      [out, ⟨0, [opReturnByte, 0x24, 0xaa, 0x21, 0xa9, 0xed] ++ leBytes 32 root⟩] →
      getWitnessCommitmentIndex (tx :: vtx) = 1 := by
    intro tx out root htx
    simp only [getWitnessCommitmentIndex, htx, zipIdx_cons, zipIdx_nil, foldl_cons, foldl_nil,
      hcommitment, if_true]
    rfl
  rw [TemplateEnv.updateUncommittedBlockStructures, hindex _ _ _ rfl]
  cases henabled : env.isWitnessEnabled with
  | false =>
    simp [TemplateEnv.committedCoinbase, TemplateEnv.coinbaseTx, TemplateEnv.makeTransactionRef,
      henabled]
  | true =>
    simp [TemplateEnv.committedCoinbase, TemplateEnv.coinbaseTx, TemplateEnv.makeTransactionRef,
      TemplateEnv.withWitnessNonce, CTransaction.hasWitness, henabled]

theorem weight_committedCoinbase (hlen : scriptPubKeyIn.length = 25) (witnessroot : Uint256) :
    536 ≤ getTransactionWeight (env.committedCoinbase nFees nSubsidy scriptPubKeyIn witnessroot) ∧
      getTransactionWeight (env.committedCoinbase nFees nSubsidy scriptPubKeyIn witnessroot) ≤ 608 := by
  obtain ⟨hmin, hmax⟩ := length_pushInt64 env.nHeight
  have hplain : ((env.committedCoinbase nFees nSubsidy scriptPubKeyIn witnessroot).serialize
      false).length = 133 + (pushInt64 env.nHeight).length := by
    rw [length_serialize_noWitness, length_serializeVector, length_serializeVector]
    have hshort : ∀ n < 253, getSizeOfCompactSize n = 1 := fun n hn => if_pos hn
    have hsig := hshort ((pushInt64 env.nHeight).length + 1) (by omega)
    simp [TemplateEnv.committedCoinbase, TemplateEnv.makeTransactionRef, length_serializeTxIn,
      length_serializeTxOut, hlen, hsig, hshort]
    omega
  cases henabled : env.isWitnessEnabled with
  | false =>
    rw [getTransactionWeight_of_noWitness, hplain]
    · omega
    · simp [CTransaction.hasWitness, TemplateEnv.committedCoinbase, TemplateEnv.makeTransactionRef,
        henabled]
  | true =>
    rw [getTransactionWeight, length_serialize_witness, hplain, WITNESS_SCALE_FACTOR]
    · simp [TemplateEnv.committedCoinbase, TemplateEnv.makeTransactionRef, henabled,
        length_serializeVector, length_serializeBytes, getSizeOfCompactSize]
      omega
    · simp [CTransaction.hasWitness, TemplateEnv.committedCoinbase, TemplateEnv.makeTransactionRef,
        henabled]

end

/-- The block of a template as a miner completes it, with a solution of the length that the
    parameters of the network require. -/
structure CompletedBlock (params : CChainParams) (template : CBlockTemplate) (block : CFullBlock) :
    Prop where
  vtx : block.vtx = template.block.vtx
  nSolution : block.nSolution.length = params.equihash.solutionWidth

end Rcoin
