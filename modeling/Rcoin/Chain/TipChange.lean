/-
  `CChainState::ConnectTip` and `CChainState::DisconnectTip` on the coins:
  which view layer each write goes to, on every way out.

  `ConnectBlock` is written once more here, with the view as a state that is
  still there when a check fails: the cache over `pcoinsTip` is dropped then, but
  what its reads have put into `pcoinsTip` stays.  Mempool, notifications and the
  flags of the block index are left out; they touch neither coins nor
  `chainActive`.
-/
import Rcoin.Chain.Undo

namespace Rcoin

open Fallible

/-! ## Computations on a view -/

/-- A computation on a view, which is there also after a failure. -/
def ViewM (α : Type) : Type := CCoinsViewCache → Except ValidationError α × CCoinsViewCache

namespace ViewM

variable {α β : Type}

instance : Monad ViewM where
  pure a := fun c => (.ok a, c)
  bind m f := fun c =>
    match m c with
    | (.ok a, c') => f a c'
    | (.error e, c') => (.error e, c')

/-- A method that returns. -/
def call (f : CCoinsViewCache → α × CCoinsViewCache) : ViewM α := fun c => (.ok (f c).1, (f c).2)

/-- A check that does not touch the view. -/
def check (x : Except ValidationError α) : ViewM α := fun c => (x, c)

/-- Methods that may throw or fail an assertion; then nobody looks at the view
    again. -/
def throwing (f : CCoinsViewCache → Except CoinsError (α × CCoinsViewCache)) : ViewM α := fun c =>
  match f c with
  | .ok (a, c') => (.ok a, c')
  | .error e => (.error (.coins e), c)

end ViewM

/-! ## `ConnectBlock`, with the view on every exit -/

namespace OnView

/-- The loop of `CheckTxInputs` over the inputs. -/
def checkInputValues (nSpendHeight : Nat) (nValueIn : Int) : List COutPoint → ViewM Int
  | [] => pure nValueIn
  | prevout :: rest => do
    let coin ← ViewM.call (·.accessCoin prevout)
    ViewM.check (failIf coin.isSpent (.assertFailed "!coin.IsSpent()"))
    ViewM.check (failIf
      (coin.fCoinBase && ((nSpendHeight : Int) - coin.nHeight < COINBASE_MATURITY : Bool))
      (doS 0 "bad-txns-premature-spend-of-coinbase"))
    let nValueIn' := nValueIn + coin.out.nValue
    ViewM.check (failIf (!moneyRange coin.out.nValue || !moneyRange nValueIn')
      (doS 100 "bad-txns-inputvalues-outofrange"))
    checkInputValues nSpendHeight nValueIn' rest

def checkTxInputs (tx : CTransaction) (nSpendHeight : Nat) : ViewM Int := do
  let have_inputs ← ViewM.call (·.haveInputs tx)
  ViewM.check (failIf (!have_inputs) (doS 100 "bad-txns-inputs-missingorspent"))
  let nValueIn ← checkInputValues nSpendHeight 0 tx.prevouts
  match tx.getValueOut with
  | none => ViewM.check (.error (.exception "GetValueOut: value out of range"))
  | some value_out =>
    ViewM.check (failIf (nValueIn < value_out) (doS 100 "bad-txns-in-belowout"))
    let txfee := nValueIn - value_out
    ViewM.check (failIf (!moneyRange txfee) (doS 100 "bad-txns-fee-outofrange"))
    pure txfee

/-- What the loop of `ConnectBlock` carries besides the view. -/
structure Totals where
  nFees : Int
  nSigOpsCost : Int
  vtxundo : CBlockUndo

/-- The part of the loop body about the inputs. -/
def connectInputs (env : ValidationEnv) (pindex : CBlockIndex) (s : Totals) (tx : CTransaction) :
    ViewM (Int × List Coin) :=
  if tx.isCoinBase then pure (s.nFees, [])
  else do
    let txfee ← checkTxInputs tx pindex.nHeight
    let nFees := s.nFees + txfee
    ViewM.check (failIf (!moneyRange nFees) (doS 100 "bad-txns-accumulated-fee-outofrange"))
    let coins ← ViewM.call (·.accessCoins tx.prevouts)
    ViewM.check (failIf (!env.sequenceLocks tx (coins.map Coin.nHeight) pindex)
      (doS 100 "bad-txns-nonfinal"))
    pure (nFees, coins)

/-- The body of the loop. -/
def connectTx (env : ValidationEnv) (pindex : CBlockIndex) (s : Totals) (tx : CTransaction) :
    ViewM Totals := do
  let (nFees, coins) ← connectInputs env pindex s tx
  let nSigOpsCost := s.nSigOpsCost + env.getTransactionSigOpCost tx coins pindex
  ViewM.check (failIf (nSigOpsCost > MAX_BLOCK_SIGOPS_COST) (doS 100 "bad-blk-sigops"))
  ViewM.check (failIf (!tx.isCoinBase && !env.checkInputs tx coins pindex)
    (doS 100 "mandatory-script-verify-flag-failed"))
  let txundo ← ViewM.throwing (updateCoins tx · pindex.nHeight)
  pure { nFees := nFees, nSigOpsCost := nSigOpsCost, vtxundo := s.vtxundo ++ [txundo] }

/-- The loop over `block.vtx`. -/
def connectTxs (env : ValidationEnv) (pindex : CBlockIndex) (s : Totals) :
    List CTransaction → ViewM Totals
  | [] => pure s
  | tx :: rest => do
    let s' ← connectTx env pindex s tx
    connectTxs env pindex s' rest

/-- `ConnectBlock`, connecting for real: the undo data. -/
def connectBlock (env : ValidationEnv) (block : CBlock) (pindex : CBlockIndex) :
    ViewM CBlockUndo := do
  ViewM.check (failIf (pindex.hash != block.hash)
    (.assertFailed "*pindex->phashBlock == block.GetHash()"))
  ViewM.check (checkBlock env block true true)
  let bestBlock ← ViewM.call (·.getBestBlock)
  ViewM.check (failIf (pindex.hashPrevBlock != bestBlock)
    (.assertFailed "hashPrevBlock == view.GetBestBlock()"))
  ViewM.check (failIf (bestBlock != 0 && pindex.pprev.isNone) (.assertFailed "pindex->pprev"))
  let s ← connectTxs env pindex { nFees := 0, nSigOpsCost := 0, vtxundo := [] } block.vtx
  let blockReward := s.nFees + getBlockSubsidy env.nSubsidyHalvingInterval pindex.nHeight
  match (block.vtx.head?.map CTransaction.getValueOut).join with
  | none => ViewM.check (.error (.exception "GetValueOut: value out of range"))
  | some value_out =>
    ViewM.check (failIf (value_out > blockReward) (doS 100 "bad-cb-amount"))
    ViewM.call fun view => (s.vtxundo.tail, view.setBestBlock pindex.hash)

end OnView

/-! ## `ConnectTip` and `DisconnectTip` -/

/-- `pcoinsTip`, and the blocks of `chainActive` with the tip first. -/
structure TipState where
  pcoinsTip : CCoinsView
  chainActive : List CBlockIndex

/-- The hash of `chainActive.Tip()`. -/
def TipState.tipHash? (s : TipState) : Option Uint256 := s.chainActive.head?.map CBlockIndex.hash

/-- What `FlushStateToDisk` does when it is asked to write "if needed". -/
inductive FlushOutcome where
  | notNeeded
  | written
  | systemError

/-- What a call meets on disk. -/
structure TipIO where
  /-- The block that was given or read, if it could be read. -/
  block : Option CBlock
  /-- The undo data read for the tip, if it could be read. -/
  undo : Option CBlockUndo
  /-- Undo data and transaction index of the new block could be written. -/
  blockWritten : Bool
  flush : FlushOutcome

/-- How `ConnectTip` and `DisconnectTip` end. -/
inductive TipResult where
  | ok
  /-- False, with the error that `state` has, or that the undo data does not
      apply. -/
  | invalid (err : Option ValidationError)
  /-- False, after `AbortNode`. -/
  | systemError
  /-- An exception or a failed assertion: the call does not return. -/
  | crash
  deriving DecidableEq

/-- `pcoinsTip->Flush()`. -/
def CCoinsView.flushed : CCoinsView → Except CoinsError CCoinsView
  | .db d => .ok (.db d)
  | .cache h m base =>
    match CCoinsViewCache.flush ⟨h, m, base⟩ with
    | .error err => .error err
    | .ok c => .ok c.toView

/-- The coins part of `FlushStateToDisk`; `none` when it returns false. -/
def flushStateToDisk (pcoinsTip : CCoinsView) : FlushOutcome → Except CoinsError (Option CCoinsView)
  | .notNeeded => .ok (some pcoinsTip)
  | .written =>
    match pcoinsTip.flushed with
    | .error err => .error err
    | .ok pcoinsTip => .ok (some pcoinsTip)
  | .systemError => .ok none

namespace TipState

/-- The end of both calls, once the view has been flushed to `pcoinsTip`:
    `FlushStateToDisk`, then `chainActive.SetTip` and `UpdateTip`, which reads the
    new tip. -/
def finish (s : TipState) (flush : FlushOutcome) (pcoinsTip : CCoinsView)
    (chainActive : List CBlockIndex) : TipResult × TipState :=
  match flushStateToDisk pcoinsTip flush with
  | .error _ => (.crash, { s with pcoinsTip })
  | .ok none => (.systemError, { s with pcoinsTip })
  | .ok (some pcoinsTip) =>
    if chainActive.isEmpty then (.crash, ⟨pcoinsTip, chainActive⟩)
    else (.ok, ⟨pcoinsTip, chainActive⟩)

/-- `view.Flush()`, and what follows it. -/
def flushView (s : TipState) (flush : FlushOutcome) (view : CCoinsViewCache)
    (chainActive : List CBlockIndex) : TipResult × TipState :=
  match view.flush with
  | .error _ => (.crash, { s with pcoinsTip := view.base })
  | .ok view => s.finish flush view.base chainActive

def connectTip (env : ValidationEnv) (s : TipState) (pindexNew : CBlockIndex) (io : TipIO) :
    TipResult × TipState :=
  -- assert(pindexNew->pprev == chainActive.Tip())
  if pindexNew.pprev ≠ s.tipHash? then (.crash, s)
  else
    match io.block with
    | none => (.systemError, s)
    | some block =>
      match OnView.connectBlock env block pindexNew (CCoinsViewCache.new s.pcoinsTip) with
      | (.error (.invalid nDoS reason corruption), view) =>
        (.invalid (some (.invalid nDoS reason corruption)), { s with pcoinsTip := view.base })
      | (.error _, view) => (.crash, { s with pcoinsTip := view.base })
      | (.ok _, view) =>
        if !io.blockWritten then (.systemError, { s with pcoinsTip := view.base })
        else s.flushView io.flush view (pindexNew :: s.chainActive)

def disconnectTip (s : TipState) (io : TipIO) : TipResult × TipState :=
  match s.chainActive with
  | [] => (.crash, s)
  | pindexDelete :: rest =>
    match io.block with
    | none => (.systemError, s)
    | some block =>
      let (bestBlock, view) := (CCoinsViewCache.new s.pcoinsTip).getBestBlock
      -- assert(view.GetBestBlock() == pindexDelete->GetBlockHash())
      if bestBlock ≠ pindexDelete.hash then (.crash, { s with pcoinsTip := view.base })
      else
        match disconnectBlock block pindexDelete view io.undo with
        | .error _ => (.crash, { s with pcoinsTip := view.base })
        | .ok (.ok, view) => s.flushView io.flush view rest
        | .ok (_, view) => (.invalid none, { s with pcoinsTip := view.base })

end TipState

/-- A call that changes the tip. -/
inductive TipCall where
  | connectTip (pindexNew : CBlockIndex) (io : TipIO)
  | disconnectTip (io : TipIO)

def TipState.step (env : ValidationEnv) (s : TipState) : TipCall → TipResult × TipState
  | .connectTip pindexNew io => s.connectTip env pindexNew io
  | .disconnectTip io => s.disconnectTip io

end Rcoin
