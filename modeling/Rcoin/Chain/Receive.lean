/-
  The data of a block arrives: the block and the blocks that waited for it are
  linked to the chains of blocks whose data is complete.

  Source: CChainState::ReceivedBlockTransactions and PruneBlockIndexCandidates in
  src/validation.cpp.  Transaction counts are `unsigned int`, so that they wrap.
-/
import Rcoin.Chain.Headers

namespace Rcoin

namespace BlockMap

/-- A field of the entry a pointer refers to. -/
def read (m : BlockMap) (f : CBlockIndexEntry → Nat) (k : Uint256) : Nat := (m.lookup k).elim 0 f

/-- `pindex->pprev ? pindex->pprev->f : 0`. -/
def readPrev (m : BlockMap) (f : CBlockIndexEntry → Nat) (e : CBlockIndexEntry) : Nat :=
  e.pprev.elim 0 (m.read f)

end BlockMap

namespace ChainState

/-- Whether an entry sorts before the tip; there may be no tip. -/
def isWorseThanTip (s : ChainState) (e : CBlockIndexEntry) : Bool :=
  (s.tip.bind s.mapBlockIndex.lookup).any fun tipEntry => e.workComparator tipEntry

/-- The entry of a block that is linked now. -/
def linkedEntry (s : ChainState) (e : CBlockIndexEntry) : CBlockIndexEntry :=
  { e with
    nChainTx := (s.mapBlockIndex.readPrev (·.nChainTx) e + e.nTx) % 2 ^ 32
    nSequenceId := s.nBlockSequenceId }

/-- What a round of the loop over the queue does to its block. -/
def linkBlock (s : ChainState) (pindex : Uint256) : Option ChainState := do
  let e ← s.mapBlockIndex.lookup pindex
  let e := s.linkedEntry e
  let s : ChainState :=
    { s with
      mapBlockIndex := s.mapBlockIndex.insert pindex e
      nBlockSequenceId := s.nBlockSequenceId + 1 }
  if s.isWorseThanTip e then some s
  else some { s with setBlockIndexCandidates := s.setBlockIndexCandidates.insert pindex }

/-- The blocks that wait for a block, in the order in which they came. -/
def waitingFor (s : ChainState) (pindex : Uint256) : List Uint256 :=
  (s.mapBlocksUnlinked.filter (·.1 = pindex)).map Prod.snd

/-- The loop over the queue; a block enters it once, coming out of
    `mapBlocksUnlinked`. -/
def linkLoop : Nat → List Uint256 → ChainState → Option ChainState
  | _, [], s => some s
  | 0, _ :: _, _ => none
  | fuel + 1, pindex :: queue, s => do
    let s ← s.linkBlock pindex
    linkLoop fuel (queue ++ s.waitingFor pindex)
      { s with mapBlocksUnlinked := s.mapBlocksUnlinked.filter (·.1 ≠ pindex) }

/-- The entry of a block with `nTx` transactions whose data has come. -/
def receivedEntry (nTx : Nat) (e : CBlockIndexEntry) : CBlockIndexEntry :=
  CBlockIndexEntry.raiseValidity BLOCK_VALID_TRANSACTIONS
    { e with
      nTx := nTx % 2 ^ 32
      nChainTx := 0
      nStatus := { e.nStatus with haveData := true } }

/-- `ReceivedBlockTransactions` for a block with `nTx` transactions. -/
def receivedBlockTransactions (s : ChainState) (nTx : Nat) (pindexNew : Uint256) :
    Option ChainState := do
  let e ← s.mapBlockIndex.lookup pindexNew
  let s : ChainState :=
    { s with mapBlockIndex := s.mapBlockIndex.insert pindexNew (receivedEntry nTx e) }
  let link := linkLoop (s.mapBlocksUnlinked.length + 1) [pindexNew] s
  match e.pprev with
  | none => link
  | some pprev => do
    let prev ← s.mapBlockIndex.lookup pprev
    if prev.nChainTx ≠ 0 then link
    else if prev.isValid BLOCK_VALID_TREE then
      some { s with mapBlocksUnlinked := s.mapBlocksUnlinked ++ [(pprev, pindexNew)] }
    else some s

/-- `PruneBlockIndexCandidates`.  The candidates are ordered by the comparator, so that
    the ones at the beginning are those worse than the tip. -/
def pruneBlockIndexCandidates (s : ChainState) : Option ChainState := do
  let tip ← s.tip
  let tipEntry ← s.mapBlockIndex.lookup tip
  let candidates := s.setBlockIndexCandidates.filter fun k =>
    (s.mapBlockIndex.lookup k).any fun e => !e.workComparator tipEntry
  -- the `assert`
  if candidates.elems.isEmpty then none
  else some { s with setBlockIndexCandidates := candidates }

end ChainState

end Rcoin
