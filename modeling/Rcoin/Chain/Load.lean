/-
  The block index is read back from its records at start-up, and the fields that
  are kept in memory only are computed again.

  Source: CDiskBlockIndex in src/chain.h, CBlockTreeDB::LoadBlockIndexGuts in
  src/txdb.cpp, InsertBlockIndex and CChainState::LoadBlockIndex in
  src/validation.cpp.  As a result `none` stands for an error that is returned and
  for the use of a null pointer.
-/
import Rcoin.Chain.Receive

namespace Rcoin

/-- The record of a block.  `hash` is its GetBlockHash(), computed from the header
    with `hashPrev`. -/
structure CDiskBlockIndex where
  hash : Uint256
  hashPrev : Uint256
  nHeight : Nat
  nStatus : BlockStatus
  nTx : Nat
  nVersion : Int
  nTime : Nat
  nBits : Nat
  deriving DecidableEq, Repr

def CDiskBlockIndex.ofEntry (e : CBlockIndexEntry) : CDiskBlockIndex where
  hash := e.hash
  hashPrev := e.hashPrevBlock
  nHeight := e.nHeight
  nStatus := e.nStatus
  nTx := e.nTx
  nVersion := e.nVersion
  nTime := e.nTime
  nBits := e.nBits

namespace BlockMap

/-- The records of all blocks, in the order of the map. -/
def diskRecords (m : BlockMap) : List CDiskBlockIndex :=
  m.entries.map fun x => CDiskBlockIndex.ofEntry x.2

/-- `new CBlockIndex()`. -/
def newIndex (hash : Uint256) : CBlockIndexEntry :=
  { hash := hash, nHeight := 0, pprev := none, nVersion := 0, nTime := 0, nBits := 0 }

def insertBlockIndex (m : BlockMap) (hash : Uint256) : Option Uint256 × BlockMap :=
  if hash = 0 then (none, m)
  else if hash ∈ m then (some hash, m)
  else (some hash, m.insert hash (newIndex hash))

/-- What `LoadBlockIndexGuts` copies from a record. -/
def loadEntry (diskindex : CDiskBlockIndex) (pprev : Option Uint256) (e : CBlockIndexEntry) :
    CBlockIndexEntry :=
  { e with
    pprev := pprev
    nHeight := diskindex.nHeight
    nVersion := diskindex.nVersion
    nTime := diskindex.nTime
    nBits := diskindex.nBits
    nStatus := diskindex.nStatus
    nTx := diskindex.nTx }

/-- The loop of `LoadBlockIndexGuts` over the records. -/
def loadBlockIndexGuts (checkProofOfWork : Uint256 → Nat → Bool) :
    List CDiskBlockIndex → BlockMap → Option BlockMap
  | [], m => some m
  | diskindex :: rest, m => do
    let (pindexNew, m) := m.insertBlockIndex diskindex.hash
    let (pprev, m) := m.insertBlockIndex diskindex.hashPrev
    let pindexNew ← pindexNew
    let m := m.update pindexNew (loadEntry diskindex pprev)
    if checkProofOfWork diskindex.hash diskindex.nBits then
      loadBlockIndexGuts checkProofOfWork rest m
    else none

/-- `vSortedByHeight`: by height, then by address. -/
def sortedByHeight (m : BlockMap) : List Uint256 :=
  m.keys.insertionSort fun a b => toLex (m.nHeight a, a) ≤ toLex (m.nHeight b, b)

/-- Whether the block has data and its parent is not linked. -/
def waitsForParent (m : BlockMap) (e : CBlockIndexEntry) : Bool :=
  decide (0 < e.nTx) && e.pprev.isSome && decide (m.readPrev (·.nChainTx) e = 0)

/-- The fields that `LoadBlockIndex` computes from those of the parent, but for the
    skip pointer. -/
def computedEntry (m : BlockMap) (e : CBlockIndexEntry) : CBlockIndexEntry :=
  let prevFailed := e.pprev.any fun pprev =>
    (m.lookup pprev).any fun prev => prev.nStatus.failed
  { e with
    nChainWork := (m.readPrev (·.nChainWork) e + getBlockProof e.nBits) % 2 ^ 256
    nTimeMax := max (m.readPrev (·.nTimeMax) e) e.nTime
    -- We can link the chain of blocks for which we've received transactions at some point.
    nChainTx :=
      if 0 < e.nTx then
        if m.waitsForParent e then 0 else (m.readPrev (·.nChainTx) e + e.nTx) % 2 ^ 32
      else e.nChainTx
    nStatus := if !e.nStatus.failed && prevFailed then e.nStatus.setFailedChild else e.nStatus }

def buildSkip (m : BlockMap) (e : CBlockIndexEntry) : Option CBlockIndexEntry :=
  match e.pprev with
  | none => some e
  | some pprev => do
    let pskip ← m.getAncestor pprev (getSkipHeight e.nHeight)
    some { e with pskip := pskip }

end BlockMap

namespace ChainState

/-- A round of the loop of `LoadBlockIndex`. -/
def loadBlock (s : ChainState) (pindex : Uint256) : Option ChainState := do
  let e ← s.mapBlockIndex.lookup pindex
  let waits := s.mapBlockIndex.waitsForParent e
  let e ← s.mapBlockIndex.buildSkip (s.mapBlockIndex.computedEntry e)
  some { s with
    mapBlockIndex := s.mapBlockIndex.insert pindex e
    mapBlocksUnlinked := if waits then
        s.mapBlocksUnlinked ++ e.pprev.toList.map fun pprev => (pprev, pindex)
      else s.mapBlocksUnlinked
    setBlockIndexCandidates :=
      if e.isValid BLOCK_VALID_TRANSACTIONS && (decide (e.nChainTx ≠ 0) || e.pprev.isNone) then
        s.setBlockIndexCandidates.insert pindex
      else s.setBlockIndexCandidates }

/-- `LoadBlockIndex`, from the records in the order in which they are read. -/
def loadBlockIndex (checkProofOfWork : Uint256 → Nat → Bool) (records : List CDiskBlockIndex) :
    Option ChainState := do
  let m ← BlockMap.loadBlockIndexGuts checkProofOfWork records ∅
  m.sortedByHeight.foldlM loadBlock { mapBlockIndex := m }

end ChainState

end Rcoin
