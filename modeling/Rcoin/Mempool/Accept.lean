/-
  `AcceptToMemoryPoolWorker` (src/validation.cpp): the checks that a loose transaction has to
  pass, which transactions of the pool it replaces, and how it takes their place.

  What it asks of scripts, of the chain and of the settings is in `AcceptEnv`; debug messages,
  `coins_to_uncache`, the fee estimator and notifications are left out.  A fee is an integer, and
  every sum or product of fees is checked for the range of a 64-bit `CAmount`: outside of it the
  standard leaves the result open, and the deltas of `prioritisetransaction` may lead there.
  CFeeRate is of src/policy/feerate.cpp.
-/
import Rcoin.Chain.LockPoints
import Rcoin.Mempool.Limits

namespace Rcoin

open Fallible

/-! ## Fee rates -/

structure CFeeRate where
  nSatoshisPerK : Int
  deriving DecidableEq, Repr

namespace CFeeRate

def ofFee (nFeePaid nSize : Int) : CFeeRate :=
  ⟨if nSize > 0 then (nFeePaid * 1000).tdiv nSize else 0⟩

def getFee (rate : CFeeRate) (nSize : Int) : Int :=
  let nFee := (rate.nSatoshisPerK * nSize).tdiv 1000
  if nFee = 0 ∧ nSize ≠ 0 then
    if rate.nSatoshisPerK < 0 then -1 else if rate.nSatoshisPerK > 0 then 1 else nFee
  else nFee

end CFeeRate

/-! ## How a transaction is refused -/

def REJECT_INVALID : Nat := 0x10
def REJECT_NONSTANDARD : Nat := 0x40

inductive ModeState where
  | valid
  | invalid
  | error
  deriving DecidableEq

structure CValidationState where
  mode : ModeState := .valid
  nDoS : Int := 0
  strRejectReason : String := ""
  chRejectCode : Nat := 0
  corruptionPossible : Bool := false
  strDebugMessage : String := ""
  deriving DecidableEq

/-- `CValidationState::DoS`, without the value it passes on. -/
def CValidationState.dos (state : CValidationState) (level : Int) (chRejectCode : Nat)
    (strRejectReason : String) : CValidationState :=
  let state := { state with
    chRejectCode, strRejectReason, corruptionPossible := false, strDebugMessage := "" }
  if state.mode = .error then state
  else { state with nDoS := state.nDoS + level, mode := .invalid }

def REJECT_DUPLICATE : Nat := 0x12
def REJECT_INSUFFICIENTFEE : Nat := 0x42
def REJECT_HIGHFEE : Nat := 0x100

/-- How `AcceptToMemoryPoolWorker` ends without a new entry. -/
inductive AcceptError where
  | rejected (state : CValidationState)
  /-- The state that `CheckTransaction` or `CheckTxInputs` has filled in. -/
  | validation (err : ValidationError)
  /-- `*pfMissingInputs` is set, and the state is not. -/
  | missingInputs
  | assertFailed
  /-- The result of a signed operation is not a `CAmount`. -/
  | overflow

/-- `state.DoS(level, false, chRejectCode, strRejectReason)`. -/
def rejection (level : Int) (chRejectCode : Nat) (strRejectReason : String) : AcceptError :=
  .rejected (({} : CValidationState).dos level chRejectCode strRejectReason)

/-- The same with `corruption`. -/
def corruptRejection (level : Int) (chRejectCode : Nat) (strRejectReason : String) : AcceptError :=
  .rejected { ({} : CValidationState).dos level chRejectCode strRejectReason with
    corruptionPossible := true }

def orAssert {α : Type} (x : Option α) : Except AcceptError α := x.elim (.error .assertFailed) .ok

/-! ## 64-bit amounts -/

/-- A value of `CAmount`. -/
def IsAmount (x : Int) : Prop := -2 ^ 63 ≤ x ∧ x < 2 ^ 63

instance : DecidablePred IsAmount := fun x => inferInstanceAs (Decidable (-2 ^ 63 ≤ x ∧ x < 2 ^ 63))

def fits (x : Int) : Except AcceptError Unit := failIf (decide (¬ IsAmount x)) .overflow

/-- `CFeeRate(nFeePaid, nBytes_)`. -/
def CFeeRate.checkedOfFee (nFeePaid nSize : Int) : Except AcceptError CFeeRate := do
  onlyIf (decide (0 < nSize)) (fits (nFeePaid * 1000))
  pure (.ofFee nFeePaid nSize)

/-- `CFeeRate::GetFee`. -/
def CFeeRate.checkedGetFee (rate : CFeeRate) (nSize : Int) : Except AcceptError Int := do
  fits (rate.nSatoshisPerK * nSize)
  pure (rate.getFee nSize)

/-! ## What the function is given -/

def MAX_BIP125_RBF_SEQUENCE : UInt32 := 0xfffffffd

def MAX_STANDARD_TX_SIGOPS_COST : Int := MAX_BLOCK_SIGOPS_COST / 5

def MAX_DESCENDANTS_TO_VISIT : Int := 100

/-- What `AcceptToMemoryPoolWorker` finds outside the pool, at the time of a call. -/
structure AcceptEnv extends MempoolEnv where
  validation : ValidationEnv
  /-- A witness before segregated witness is active. -/
  noWitnessYet : CTransaction → Bool
  /-- `IsStandardTx`, where standard transactions are required: the reason for which a
      transaction is not. -/
  isStandardTx : CTransaction → Option String
  checkFinalTx : CTransaction → Bool
  /-- `pcoinsTip`, and which coins its cache has. -/
  coinsTip : COutPoint → Option Coin
  haveCoinInCache : COutPoint → Bool
  nSpendHeight : Nat
  checkSequenceLocks : CTxMemPool → CTransaction → Bool
  /-- `AreInputsStandard` and, for a transaction with a witness, `IsWitnessStandard`, where
      standard transactions are required. -/
  areInputsStandard : CTransaction → List Coin → Bool
  isWitnessStandard : CTransaction → List Coin → Bool
  getTransactionSigOpCost : CTransaction → List Coin → Nat
  /-- `pool.GetMinFee`. -/
  getMinFee : CTxMemPool → CFeeRate
  /-- `CheckInputs` and `CheckInputsFromMempoolAndCache`: the state with which they fail. -/
  checkInputs : CTransaction → List Coin → Except CValidationState Unit
  fEnableReplacement : Bool
  minRelayTxFee : CFeeRate
  incrementalRelayFee : CFeeRate
  limits : AncestorLimits
  /-- `-maxmempool` in bytes, and the time before which an entry has expired. -/
  sizelimit : Int
  expiryTime : Int

structure AcceptCall where
  tx : CTransaction
  nAcceptTime : Int
  bypass_limits : Bool
  nAbsurdFee : Int

/-- What the checks have computed of a transaction. -/
structure Workspace where
  setConflicts : SetEntries
  entry : CTxMemPoolEntry
  nModifiedFees : Int
  setAncestors : SetEntries
  allConflicting : SetEntries

namespace AcceptEnv

variable (env : AcceptEnv)

/-! ## Conflicts -/

/-- "Allow opt-out of transaction replacement by setting nSequence > MAX_BIP125_RBF_SEQUENCE
    (SEQUENCE_FINAL-2) on all inputs." -/
def replacementOptOut (ptxConflicting : CTransaction) : Bool :=
  !(env.fEnableReplacement &&
    ptxConflicting.vin.any fun txin => decide (txin.nSequence ≤ MAX_BIP125_RBF_SEQUENCE))

/-- The loop over the inputs that looks for conflicts with transactions of the pool. -/
def findConflicts (pool : CTxMemPool) : List COutPoint → SetEntries → Except AcceptError SetEntries
  | [], setConflicts => .ok setConflicts
  | prevout :: rest, setConflicts =>
    match pool.mapNextTx.lookup prevout with
    | none => findConflicts pool rest setConflicts
    | some ptxConflicting =>
      if ptxConflicting.hash ∈ setConflicts then findConflicts pool rest setConflicts
      else if env.replacementOptOut ptxConflicting then
        .error (rejection 0 REJECT_DUPLICATE "txn-mempool-conflict")
      else findConflicts pool rest (setConflicts.insert ptxConflicting.hash)

/-! ## Inputs -/

/-- "do all inputs exist?" -/
def checkInputsExist (pool : CTxMemPool) (tx : CTransaction) :
    List COutPoint → Except AcceptError Unit
  | [] => .ok ⟨⟩
  | prevout :: rest =>
    if (pool.getCoin env.coinsTip prevout).any fun coin => !coin.isSpent then
      checkInputsExist pool tx rest
    -- "Are inputs missing because we already have the tx?"
    else if (List.range tx.vout.length).any fun out => env.haveCoinInCache ⟨tx.hash, out⟩ then
      .error (rejection 0 REJECT_DUPLICATE "txn-already-known")
    else .error .missingInputs

/-- `view` with the backend switched back to `dummy`: the coins of the inputs. -/
def inputView (pool : CTxMemPool) (tx : CTransaction) : CCoinsViewCache :=
  .new (.db { CCoinsViewDB.empty with
    coins := tx.prevouts.foldl
      (fun coins o => (pool.getCoin env.coinsTip o).elim coins (coins.insert o)) ∅ })

def inputCoins (pool : CTxMemPool) (tx : CTransaction) : List Coin :=
  tx.prevouts.filterMap (pool.getCoin env.coinsTip)

/-- The checks up to the search for conflicts. -/
def checkLoose (pool : CTxMemPool) (tx : CTransaction) : Except AcceptError Unit := do
  (checkTransaction env.validation tx true).mapError .validation
  -- "Coinbase is only valid in a block, not as a loose transaction"
  failIf tx.isCoinBase (rejection 100 REJECT_INVALID "coinbase")
  failIf (env.noWitnessYet tx) (corruptRejection 0 REJECT_NONSTANDARD "no-witness-yet")
  failIf (env.isStandardTx tx).isSome
    (rejection 0 REJECT_NONSTANDARD ((env.isStandardTx tx).getD ""))
  failIf (!env.checkFinalTx tx) (rejection 0 REJECT_NONSTANDARD "non-final")
  failIf (decide (tx.hash ∈ pool.mapTx)) (rejection 0 REJECT_DUPLICATE "txn-already-in-mempool")

/-- The checks of the inputs: the fee and the cost of the signature operations. -/
def checkSpends (pool : CTxMemPool) (tx : CTransaction) : Except AcceptError (Int × Int) := do
  env.checkInputsExist pool tx tx.prevouts
  failIf (!env.checkSequenceLocks pool tx) (rejection 0 REJECT_NONSTANDARD "non-BIP68-final")
  let (nFees, _) ←
    (checkTxInputs tx (env.inputView pool tx) env.nSpendHeight).mapError .validation
  let coins := env.inputCoins pool tx
  failIf (!env.areInputsStandard tx coins)
    (rejection 0 REJECT_NONSTANDARD "bad-txns-nonstandard-inputs")
  failIf (!env.isWitnessStandard tx coins)
    (corruptRejection 0 REJECT_NONSTANDARD "bad-witness-nonstandard")
  pure (nFees, env.getTransactionSigOpCost tx coins)

/-- The limits on the transaction alone. -/
def checkFees (pool : CTxMemPool) (call : AcceptCall)
    (nFees nModifiedFees nSize nSigOpsCost : Int) : Except AcceptError Unit := do
  failIf (nSigOpsCost > MAX_STANDARD_TX_SIGOPS_COST)
    (rejection 0 REJECT_NONSTANDARD "bad-txns-too-many-sigops")
  let mempoolRejectFee ← (env.getMinFee pool).checkedGetFee nSize
  failIf (!call.bypass_limits && decide (mempoolRejectFee > 0) &&
      decide (nModifiedFees < mempoolRejectFee))
    (rejection 0 REJECT_INSUFFICIENTFEE "mempool min fee not met")
  onlyIf (!call.bypass_limits) (fits (env.minRelayTxFee.nSatoshisPerK * nSize))
  failIf (!call.bypass_limits && decide (nModifiedFees < env.minRelayTxFee.getFee nSize))
    (rejection 0 REJECT_INSUFFICIENTFEE "min relay fee not met")
  failIf (decide (call.nAbsurdFee ≠ 0) && decide (nFees > call.nAbsurdFee))
    (rejection 0 REJECT_HIGHFEE "absurdly-high-fee")

/-! ## Replacement -/

/-- What the loop over the conflicts collects. -/
structure ConflictState where
  setIterConflicting : SetEntries := ∅
  setConflictsParents : SetEntries := ∅
  nConflictingCount : Int := 0

/-- "Don't allow the replacement to reduce the feerate of the mempool." -/
def visitConflict (pool : CTxMemPool) (newFeeRate : CFeeRate) (st : ConflictState)
    (hashConflicting : Uint256) : Except AcceptError ConflictState :=
  match pool.mapTx.lookup hashConflicting with
  | none => .ok st
  | some mi => do
    fits mi.getModifiedFee
    let oldFeeRate ← CFeeRate.checkedOfFee mi.getModifiedFee (env.getTxSize mi)
    if newFeeRate.nSatoshisPerK ≤ oldFeeRate.nSatoshisPerK then
      .error (rejection 0 REJECT_INSUFFICIENTFEE "insufficient fee")
    else
      .ok {
        setIterConflicting := st.setIterConflicting.insert hashConflicting
        setConflictsParents := st.setConflictsParents.insertAll (mi.tx.prevouts.map COutPoint.hash)
        nConflictingCount := st.nConflictingCount + mi.nCountWithDescendants }

/-- The loop that adds up `nConflictingFees`. -/
def sumConflictingFees (pool : CTxMemPool) : List Uint256 → Int → Except AcceptError Int
  | [], nConflictingFees => .ok nConflictingFees
  | it :: rest, nConflictingFees => do
    let e ← orAssert (pool.mapTx.lookup it)
    fits e.getModifiedFee
    fits (nConflictingFees + e.getModifiedFee)
    sumConflictingFees pool rest (nConflictingFees + e.getModifiedFee)

/-- The checks of a transaction that replaces others, which are returned. -/
def checkReplacement (pool : CTxMemPool) (tx : CTransaction) (setConflicts : SetEntries)
    (nModifiedFees nSize : Int) : Except AcceptError SetEntries := do
  let newFeeRate ← CFeeRate.checkedOfFee nModifiedFees nSize
  let st ← setConflicts.elems.foldlM (env.visitConflict pool newFeeRate) {}
  -- "This potentially overestimates the number of actual descendants but we just want to be
  -- conservative to avoid doing too much work."
  failIf (decide (st.nConflictingCount > MAX_DESCENDANTS_TO_VISIT))
    (rejection 0 REJECT_NONSTANDARD "too many potential replacements")
  let allConflicting ← orAssert (pool.calculateAllDescendants st.setIterConflicting)
  let nConflictingFees ← sumConflictingFees pool allConflicting.elems 0
  -- "We don't want to accept replacements that require low feerate junk to be mined first."
  failIf (tx.prevouts.any fun prevout =>
      decide (prevout.hash ∉ st.setConflictsParents) && decide (prevout.hash ∈ pool.mapTx))
    (rejection 0 REJECT_NONSTANDARD "replacement-adds-unconfirmed")
  -- "The replacement must pay greater fees than the transactions it replaces"
  failIf (decide (nModifiedFees < nConflictingFees))
    (rejection 0 REJECT_INSUFFICIENTFEE "insufficient fee")
  -- "the new transaction must pay for its own bandwidth"
  fits (nModifiedFees - nConflictingFees)
  let incrementalFee ← env.incrementalRelayFee.checkedGetFee nSize
  failIf (decide (nModifiedFees - nConflictingFees < incrementalFee))
    (rejection 0 REJECT_INSUFFICIENTFEE "insufficient fee")
  pure allConflicting

/-! ## The whole function -/

/-- `CalculateMemPoolAncestors` with the limits of the settings. -/
def findAncestors (pool : CTxMemPool) (entry : CTxMemPoolEntry) :
    Except AcceptError SetEntries := do
  let r ← orAssert (env.calculateMemPoolAncestors pool entry env.limits true)
  r.mapError fun _ => rejection 0 REJECT_NONSTANDARD "too-long-mempool-chain"

/-- Everything that is checked before the pool changes. -/
def preChecks (pool : CTxMemPool) (call : AcceptCall) : Except AcceptError Workspace := do
  let tx := call.tx
  env.checkLoose pool tx
  let setConflicts ← env.findConflicts pool tx.prevouts ∅
  let (nFees, nSigOpsCost) ← env.checkSpends pool tx
  -- "nModifiedFees includes any fee deltas from PrioritiseTransaction"
  let nModifiedFees := nFees + (pool.mapDeltas.lookup tx.hash).getD 0
  fits nModifiedFees
  let entry := CTxMemPoolEntry.new env.toMempoolEnv tx nFees call.nAcceptTime nSigOpsCost
  let nSize := env.getTxSize entry
  env.checkFees pool call nFees nModifiedFees nSize nSigOpsCost
  let setAncestors ← env.findAncestors pool entry
  -- "A transaction that spends outputs that would be replaced by it is invalid."
  failIf (setAncestors.elems.any fun ancestorIt => decide (ancestorIt ∈ setConflicts))
    (rejection 10 REJECT_INVALID "bad-txns-spends-conflicting-tx")
  let allConflicting ← (if setConflicts.size ≠ 0 then
      env.checkReplacement pool tx setConflicts nModifiedFees nSize
    else .ok ∅)
  (env.checkInputs tx (env.inputCoins pool tx)).mapError .rejected
  pure { setConflicts, entry, nModifiedFees, setAncestors, allConflicting }

def limitMempoolSize (pool : CTxMemPool) : Option CTxMemPool := do
  let pool ← env.expire env.expiryTime pool
  env.trimToSize env.sizelimit pool

/-- The pool after the transaction has taken the place of those it replaces. -/
def finalize (pool : CTxMemPool) (call : AcceptCall) (ws : Workspace) : Option CTxMemPool := do
  let pool ← env.removeStaged ws.allConflicting false pool
  let pool ← env.addUnchecked call.tx.hash ws.entry ws.setAncestors pool
  if call.bypass_limits then some pool else env.limitMempoolSize pool

/-- `AcceptToMemoryPoolWorker`: the pool after the call, and what was found out about the
    transaction if it was accepted; `allConflicting` is what goes to `plTxnReplaced`. -/
def acceptToMemoryPoolWorker (pool : CTxMemPool) (call : AcceptCall) :
    CTxMemPool × Except AcceptError Workspace :=
  match env.preChecks pool call with
  | .error err => (pool, .error err)
  | .ok ws =>
    match env.finalize pool call ws with
    | none => (pool, .error .assertFailed)
    | some pool' =>
      if !call.bypass_limits && decide (call.tx.hash ∉ pool'.mapTx) then
        (pool', .error (rejection 0 REJECT_INSUFFICIENTFEE "mempool full"))
      else (pool', .ok ws)

end AcceptEnv

end Rcoin
