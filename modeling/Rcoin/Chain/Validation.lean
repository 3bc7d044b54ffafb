/-
  Block validation: `CheckTransaction` and `Consensus::CheckTxInputs`
  (src/consensus/tx_verify.cpp), `CheckBlock`, `GetBlockSubsidy`, `UpdateCoins`
  and `CChainState::ConnectBlock` (src/validation.cpp).

  What these functions ask of the proof of work, of serialization, of the
  scripts and of the relative lock times is a parameter: each such check can
  only reject a block, it never changes a coin.  Disk writes succeed.
-/
import Rcoin.Lib.Fallible
import Rcoin.Coins.View

namespace Rcoin

open Fallible

/-! ## What validation is given -/

/-- The checks outside the coin logic, and the chain parameter
    `nSubsidyHalvingInterval`.  `serializeSize` and `blockSerializeSize` are the
    sizes without witness data; functions of an input's coins get them in input
    order. -/
structure ValidationEnv where
  nSubsidyHalvingInterval : Nat
  checkProofOfWork : CBlock → Bool
  /-- `BlockMerkleRoot(block, &mutated)`: the root and the `mutated` flag. -/
  blockMerkleRoot : CBlock → Uint256 × Bool
  serializeSize : CTransaction → Nat
  blockSerializeSize : CBlock → Nat
  getLegacySigOpCount : CTransaction → Nat
  sequenceLocks : CTransaction → List Nat → CBlockIndex → Bool
  getTransactionSigOpCost : CTransaction → List Coin → CBlockIndex → Int
  /-- `CheckInputs`, together with the checks it queues for `control.Wait()`. -/
  checkInputs : CTransaction → List Coin → CBlockIndex → Bool

/-- How a validation function ends when it does not accept. -/
inductive ValidationError where
  /-- `state.DoS(nDoS, false, REJECT_INVALID, strRejectReason, corruption)`. -/
  | invalid (nDoS : Nat) (strRejectReason : String) (corruption : Bool)
  | exception (what : String)
  | assertFailed (what : String)
  | coins (err : CoinsError)
  deriving DecidableEq, Repr

/-- `state.DoS(nDoS, false, REJECT_INVALID, reason)`. -/
def doS (nDoS : Nat) (reason : String) : ValidationError := .invalid nDoS reason false

/-! ## `CheckTransaction` -/

/-- The loop over the outputs that adds up their values. -/
def checkOutputValues : List CTxOut → Int → Except ValidationError Unit
  | [], _ => .ok ⟨⟩
  | txout :: rest, nValueOut => do
    failIf (txout.nValue < 0) (doS 100 "bad-txns-vout-negative")
    failIf (txout.nValue > MAX_MONEY) (doS 100 "bad-txns-vout-toolarge")
    failIf (!moneyRange (nValueOut + txout.nValue)) (doS 100 "bad-txns-txouttotal-toolarge")
    checkOutputValues rest (nValueOut + txout.nValue)

/-- The loop that inserts each prevout into `vInOutPoints`. -/
def checkDuplicateInputs : List COutPoint → List COutPoint → Except ValidationError Unit
  | [], _ => .ok ⟨⟩
  | o :: rest, vInOutPoints => do
    failIf (vInOutPoints.contains o) (doS 100 "bad-txns-inputs-duplicate")
    checkDuplicateInputs rest (o :: vInOutPoints)

def checkTransaction (env : ValidationEnv) (tx : CTransaction) (fCheckDuplicateInputs : Bool) :
    Except ValidationError Unit := do
  failIf tx.vin.isEmpty (doS 10 "bad-txns-vin-empty")
  failIf tx.vout.isEmpty (doS 10 "bad-txns-vout-empty")
  failIf (env.serializeSize tx * WITNESS_SCALE_FACTOR > MAX_BLOCK_WEIGHT)
    (doS 100 "bad-txns-oversize")
  checkOutputValues tx.vout 0
  onlyIf fCheckDuplicateInputs (checkDuplicateInputs tx.prevouts [])
  if tx.isCoinBase then
    let size := ((tx.vin.head?.map CTxIn.scriptSig).getD []).length
    failIf (size < 2 || size > 100) (doS 100 "bad-cb-length")
  else
    failIf (tx.prevouts.any COutPoint.isNull) (doS 10 "bad-txns-prevout-null")

/-! ## `CheckTxInputs` -/

/-- The loop over the inputs: maturity of coinbases and the sum of the values. -/
def checkInputValues (nSpendHeight : Nat) (inputs : CCoinsViewCache) (nValueIn : Int) :
    List COutPoint → Except ValidationError (Int × CCoinsViewCache)
  | [] => .ok (nValueIn, inputs)
  | prevout :: rest => do
    let (coin, inputs') := inputs.accessCoin prevout
    failIf coin.isSpent (.assertFailed "!coin.IsSpent()")
    failIf (coin.fCoinBase && ((nSpendHeight : Int) - coin.nHeight < COINBASE_MATURITY : Bool))
      (doS 0 "bad-txns-premature-spend-of-coinbase")
    let nValueIn' := nValueIn + coin.out.nValue
    failIf (!moneyRange coin.out.nValue || !moneyRange nValueIn')
      (doS 100 "bad-txns-inputvalues-outofrange")
    checkInputValues nSpendHeight inputs' nValueIn' rest

/-- `Consensus::CheckTxInputs`: the fee of the transaction. -/
def checkTxInputs (tx : CTransaction) (inputs : CCoinsViewCache) (nSpendHeight : Nat) :
    Except ValidationError (Int × CCoinsViewCache) := do
  let (have_inputs, inputs) := inputs.haveInputs tx
  failIf (!have_inputs) (doS 100 "bad-txns-inputs-missingorspent")
  let (nValueIn, inputs) ← checkInputValues nSpendHeight inputs 0 tx.prevouts
  match tx.getValueOut with
  | none => .error (.exception "GetValueOut: value out of range")
  | some value_out =>
    failIf (nValueIn < value_out) (doS 100 "bad-txns-in-belowout")
    let txfee := nValueIn - value_out
    failIf (!moneyRange txfee) (doS 100 "bad-txns-fee-outofrange")
    pure (txfee, inputs)

/-! ## `CheckBlock` -/

/-- `CheckTransaction(tx, state, false)` for each transaction. -/
def checkTransactions (env : ValidationEnv) : List CTransaction → Except ValidationError Unit
  | [] => .ok ⟨⟩
  | tx :: rest => do
    checkTransaction env tx false
    checkTransactions env rest

/-- The merkle root of the block, and the check for repeated transactions that
    leave the root as it is. -/
def checkMerkleRoot (env : ValidationEnv) (block : CBlock) : Except ValidationError Unit := do
  let (hashMerkleRoot2, mutated) := env.blockMerkleRoot block
  failIf (block.hashMerkleRoot != hashMerkleRoot2) (.invalid 100 "bad-txnmrklroot" true)
  failIf mutated (.invalid 100 "bad-txns-duplicate" true)

/-- `CheckBlock`; `fChecked`, which only remembers an earlier success, is not
    consulted. -/
def checkBlock (env : ValidationEnv) (block : CBlock) (fCheckPOW fCheckMerkleRoot : Bool) :
    Except ValidationError Unit := do
  failIf (fCheckPOW && !env.checkProofOfWork block) (doS 50 "high-hash")
  onlyIf fCheckMerkleRoot (checkMerkleRoot env block)
  failIf (block.vtx.isEmpty || block.vtx.length * WITNESS_SCALE_FACTOR > MAX_BLOCK_WEIGHT ||
    env.blockSerializeSize block * WITNESS_SCALE_FACTOR > MAX_BLOCK_WEIGHT)
    (doS 100 "bad-blk-length")
  failIf (!(block.vtx.head?.any CTransaction.isCoinBase)) (doS 100 "bad-cb-missing")
  failIf (block.vtx.tail.any CTransaction.isCoinBase) (doS 100 "bad-cb-multiple")
  checkTransactions env block.vtx
  let nSigOps := (block.vtx.map env.getLegacySigOpCount).sum
  failIf ((nSigOps * WITNESS_SCALE_FACTOR : Nat) > MAX_BLOCK_SIGOPS_COST) (doS 100 "bad-blk-sigops")

/-! ## `ConnectBlock` -/

def getBlockSubsidy (nSubsidyHalvingInterval nHeight : Nat) : Int :=
  if nHeight = 0 then GENESIS_MONEY
  else
    let halvings := nHeight / nSubsidyHalvingInterval
    if halvings ≥ 64 then 0 else INITIAL_SUBSIDY >>> halvings

/-- Undo information for a transaction: the coins its inputs spent
    (`vprevout`). -/
abbrev CTxUndo := List Coin

/-- Undo information for a block: `vtxundo`, for all but the coinbase. -/
abbrev CBlockUndo := List CTxUndo

/-- The loop of `UpdateCoins` that marks the inputs spent. -/
def spendInputs (inputs : CCoinsViewCache) :
    List COutPoint → Except CoinsError (CTxUndo × CCoinsViewCache)
  | [] => .ok ([], inputs)
  | prevout :: rest =>
    match inputs.spendCoin prevout with
    | (none, _) => .error (.assertFailed "is_spent")
    | (some coin, inputs') => do
      let (txundo, inputs'') ← spendInputs inputs' rest
      .ok (coin :: txundo, inputs'')

/-- The part of `UpdateCoins` for the inputs; a coinbase has none to spend. -/
def markInputsSpent (tx : CTransaction) (inputs : CCoinsViewCache) :
    Except CoinsError (CTxUndo × CCoinsViewCache) :=
  if tx.isCoinBase then .ok ([], inputs) else spendInputs inputs tx.prevouts

def updateCoins (tx : CTransaction) (inputs : CCoinsViewCache) (nHeight : Nat) :
    Except CoinsError (CTxUndo × CCoinsViewCache) := do
  let (txundo, inputs) ← markInputsSpent tx inputs
  let inputs ← inputs.addCoins tx nHeight false
  .ok (txundo, inputs)

/-- `AccessCoin` for each outpoint in turn. -/
def CCoinsViewCache.accessCoins (inputs : CCoinsViewCache) :
    List COutPoint → List Coin × CCoinsViewCache
  | [] => ([], inputs)
  | o :: rest =>
    let r := inputs.accessCoin o
    let rs := r.2.accessCoins rest
    (r.1 :: rs.1, rs.2)

/-- What the loop of `ConnectBlock` carries from transaction to transaction. -/
structure ConnectState where
  view : CCoinsViewCache
  nFees : Int
  nSigOpsCost : Int
  vtxundo : CBlockUndo

/-- The part of the loop body about the inputs, which a coinbase skips: their
    values, the fees and the relative lock times.  It returns the accumulated
    fees, the coins of the inputs and the view. -/
def connectInputs (env : ValidationEnv) (pindex : CBlockIndex) (s : ConnectState)
    (tx : CTransaction) : Except ValidationError (Int × List Coin × CCoinsViewCache) :=
  if tx.isCoinBase then .ok (s.nFees, [], s.view)
  else do
    let (txfee, view) ← checkTxInputs tx s.view pindex.nHeight
    let nFees := s.nFees + txfee
    failIf (!moneyRange nFees) (doS 100 "bad-txns-accumulated-fee-outofrange")
    let (coins, view) := view.accessCoins tx.prevouts
    failIf (!env.sequenceLocks tx (coins.map Coin.nHeight) pindex) (doS 100 "bad-txns-nonfinal")
    pure (nFees, coins, view)

/-- The body of the loop of `ConnectBlock`. -/
def connectTx (env : ValidationEnv) (pindex : CBlockIndex) (s : ConnectState)
    (tx : CTransaction) : Except ValidationError ConnectState := do
  let (nFees, coins, view) ← connectInputs env pindex s tx
  let nSigOpsCost := s.nSigOpsCost + env.getTransactionSigOpCost tx coins pindex
  failIf (nSigOpsCost > MAX_BLOCK_SIGOPS_COST) (doS 100 "bad-blk-sigops")
  failIf (!tx.isCoinBase && !env.checkInputs tx coins pindex)
    (doS 100 "mandatory-script-verify-flag-failed")
  let (txundo, view) ← (updateCoins tx view pindex.nHeight).mapError .coins
  pure { view := view, nFees := nFees, nSigOpsCost := nSigOpsCost,
         vtxundo := s.vtxundo ++ [txundo] }

/-- The loop of `ConnectBlock` over `block.vtx`. -/
def connectTxs (env : ValidationEnv) (pindex : CBlockIndex) (s : ConnectState) :
    List CTransaction → Except ValidationError ConnectState
  | [] => .ok s
  | tx :: rest => do
    let s' ← connectTx env pindex s tx
    connectTxs env pindex s' rest

/-- `ConnectBlock`: the view with the block's effects, and the undo data that is
    written for it (the coinbase's entry, `undoDummy`, is dropped). -/
def connectBlock (env : ValidationEnv) (block : CBlock) (pindex : CBlockIndex)
    (view : CCoinsViewCache) (fJustCheck : Bool) :
    Except ValidationError (CCoinsViewCache × CBlockUndo) := do
  failIf (pindex.hash != block.hash) (.assertFailed "*pindex->phashBlock == block.GetHash()")
  checkBlock env block (!fJustCheck) (!fJustCheck)
  let (bestBlock, view) := view.getBestBlock
  failIf (pindex.hashPrevBlock != bestBlock) (.assertFailed "hashPrevBlock == view.GetBestBlock()")
  failIf (bestBlock != 0 && pindex.pprev.isNone) (.assertFailed "pindex->pprev")
  let s ← connectTxs env pindex { view := view, nFees := 0, nSigOpsCost := 0, vtxundo := [] }
    block.vtx
  let blockReward := s.nFees + getBlockSubsidy env.nSubsidyHalvingInterval pindex.nHeight
  match (block.vtx.head?.map CTransaction.getValueOut).join with
  | none => .error (.exception "GetValueOut: value out of range")
  | some value_out =>
    failIf (value_out > blockReward) (doS 100 "bad-cb-amount")
    if fJustCheck then pure (s.view, s.vtxundo.tail)
    else pure (s.view.setBestBlock pindex.hash, s.vtxundo.tail)

/-! ## An environment for concrete blocks -/

/-- Every check outside the coin logic passes, as for small blocks with outputs
    that anyone can spend; the halving interval is the main network's. -/
def lenientEnv : ValidationEnv where
  nSubsidyHalvingInterval := 200000
  checkProofOfWork := fun _ => true
  blockMerkleRoot := fun block => (block.hashMerkleRoot, false)
  serializeSize := fun _ => 100
  blockSerializeSize := fun _ => 300
  getLegacySigOpCount := fun _ => 0
  sequenceLocks := fun _ _ _ => true
  getTransactionSigOpCost := fun _ _ _ => 0
  checkInputs := fun _ _ _ => true

/-- An output anyone can spend (`OP_TRUE`). -/
def payAnyone (nValue : Int) : CTxOut := { nValue := nValue, scriptPubKey := [0x51] }

/-- A coinbase whose script names a height below 128. -/
def coinbaseTx (hash : Uint256) (nHeight : Nat) (vout : List CTxOut) : CTransaction where
  hash := hash
  vin := [{ prevout := ⟨0, COutPoint.nullIndex⟩, scriptSig := [1, UInt8.ofNat nHeight] }]
  vout := vout

end Rcoin
