/-
  `BlockAssembler`: how the transactions of a new block are chosen from the pool.  Packages of
  a transaction with its ancestors are taken by fee rate; entries some of whose ancestors are in
  the block already are kept, with what is left of their totals, in a set of their own.

  Source: src/miner.{h,cpp}, IsFinalTx in src/consensus/tx_verify.cpp.  An iterator into `mapTx`
  is the hash of its transaction.  Sums are exact: 64 bits hold what a pool can add up to.  `none`
  stands for a failed `assert` or the use of an iterator that does not exist.
-/
import Rcoin.Mempool.Accept
import Rcoin.Mempool.Comparators
import Rcoin.Serialize

namespace Rcoin

open SortedSet List

def LOCKTIME_THRESHOLD : Int := 500000000

def isFinalTx (tx : CTransaction) (nBlockHeight nBlockTime : Int) : Bool :=
  let nLockTime : Int := tx.nLockTime.toNat
  if nLockTime = 0 then true
  else if nLockTime < if nLockTime < LOCKTIME_THRESHOLD then nBlockHeight else nBlockTime then true
  else tx.vin.all fun txin => txin.nSequence == 0xffffffff

/-- What the assembler was given: the settings, and the chain context of the block. -/
structure AssemblerEnv extends MempoolEnv where
  nBlockMaxWeight : Int
  blockMinFeeRate : CFeeRate
  fIncludeWitness : Bool
  nHeight : Int
  nLockTimeCutoff : Int

/-- Information on the current status of the block, and the lists of the template without their
    first element, which is the coinbase's. -/
structure BlockAssembler where
  vtx : List CTransaction
  vTxFees : List Int
  vTxSigOpsCost : List Int
  nBlockWeight : Int
  nBlockTx : Nat
  nBlockSigOpsCost : Int
  nFees : Int
  inBlock : SetEntries
  deriving DecidableEq

/-- Container for tracking updates to ancestor feerate as we include (parent) transactions in
    a block; its `iter` is the key under which it is kept. -/
structure CTxMemPoolModifiedEntry where
  nSizeWithAncestors : Int
  nModFeesWithAncestors : Int
  nSigOpCostWithAncestors : Int
  deriving DecidableEq, Repr

/-- `indexed_modified_transaction_set`. -/
abbrev ModifiedSet := AList fun _ : Uint256 => CTxMemPoolModifiedEntry

/-- What the loop of `addPackageTxs` works on; `mi` is what is left of the pool's index. -/
structure PackageState where
  block : BlockAssembler
  mi : List Uint256
  mapModifiedTx : ModifiedSet
  failedTx : SetEntries
  nConsecutiveFailed : Nat
  nPackagesSelected : Nat
  nDescendantsUpdated : Nat
  deriving DecidableEq

/-- The transaction (package) to consider, and the totals by which it is judged. -/
structure PackageChoice where
  iter : Uint256
  fUsingModified : Bool
  packageSize : Int
  packageFees : Int
  packageSigOpsCost : Int
  deriving DecidableEq, Repr

/-! ## The block -/

namespace BlockAssembler

def resetBlock : BlockAssembler where
  vtx := []
  vTxFees := []
  vTxSigOpsCost := []
  -- Reserve space for coinbase tx
  nBlockWeight := 4000
  nBlockTx := 0
  nBlockSigOpsCost := 400
  nFees := 0
  inBlock := ∅

def addToBlock (pool : CTxMemPool) (block : BlockAssembler) (iter : Uint256) :
    Option BlockAssembler :=
  (pool.mapTx.lookup iter).map fun e =>
    { vtx := block.vtx ++ [e.tx]
      vTxFees := block.vTxFees ++ [e.nFee]
      vTxSigOpsCost := block.vTxSigOpsCost ++ [e.sigOpCost]
      nBlockWeight := block.nBlockWeight + e.nTxWeight
      nBlockTx := block.nBlockTx + 1
      nBlockSigOpsCost := block.nBlockSigOpsCost + e.sigOpCost
      nFees := block.nFees + e.nFee
      inBlock := block.inBlock.insert iter }

def onlyUnconfirmed (block : BlockAssembler) (testSet : SetEntries) : SetEntries :=
  testSet.filter (· ∉ block.inBlock)

def testPackage (env : AssemblerEnv) (block : BlockAssembler)
    (packageSize packageSigOpsCost : Int) : Bool :=
  if block.nBlockWeight + WITNESS_SCALE_FACTOR * packageSize ≥ env.nBlockMaxWeight then false
  else if block.nBlockSigOpsCost + packageSigOpsCost ≥ MAX_BLOCK_SIGOPS_COST then false
  else true

end BlockAssembler

/-- `TestPackageTransactions`: finality, and premature witness. -/
def testPackageTransactions (env : AssemblerEnv) (pool : CTxMemPool) (package : SetEntries) : Bool :=
  package.elems.all fun it => (pool.mapTx.lookup it).all fun e =>
    isFinalTx e.tx env.nHeight env.nLockTimeCutoff && (env.fIncludeWitness || !e.tx.hasWitness)

/-- `CompareTxIterByAncestorCount`, as it sorts a package. -/
def ancestorCountLe (pool : CTxMemPool) (a b : Uint256) : Prop :=
  let count (it : Uint256) : Int := (pool.mapTx.lookup it).elim 0 (·.nCountWithAncestors)
  if count a ≠ count b then count a < count b else a ≤ b

instance (pool : CTxMemPool) : DecidableRel (ancestorCountLe pool) := fun _ _ =>
  inferInstanceAs (Decidable (ite _ _ _))

def sortForBlock (pool : CTxMemPool) (package : SetEntries) : List Uint256 :=
  package.elems.insertionSort (ancestorCountLe pool)

/-! ## Modified entries -/

namespace CTxMemPoolModifiedEntry

/-- The constructor takes the totals that the pool keeps. -/
def ofEntry (entry : CTxMemPoolEntry) : CTxMemPoolModifiedEntry where
  nSizeWithAncestors := entry.nSizeWithAncestors
  nModFeesWithAncestors := entry.nModFeesWithAncestors
  nSigOpCostWithAncestors := entry.nSigOpCostWithAncestors

def updateForParentInclusion (env : MempoolEnv) (iter : CTxMemPoolEntry)
    (e : CTxMemPoolModifiedEntry) : CTxMemPoolModifiedEntry where
  nModFeesWithAncestors := e.nModFeesWithAncestors - iter.nFee
  nSizeWithAncestors := e.nSizeWithAncestors - env.getTxSize iter
  nSigOpCostWithAncestors := e.nSigOpCostWithAncestors - iter.sigOpCost

/-- The new entry for a descendant of `it`. -/
def create (env : MempoolEnv) (it desc : CTxMemPoolEntry) : CTxMemPoolModifiedEntry :=
  let modEntry := ofEntry desc
  { nSizeWithAncestors := modEntry.nSizeWithAncestors - env.getTxSize it
    nModFeesWithAncestors := modEntry.nModFeesWithAncestors - it.getModifiedFee
    nSigOpCostWithAncestors := modEntry.nSigOpCostWithAncestors - it.sigOpCost }

/-- What the comparator reads of a modified entry: the transaction's own entry, with other
    totals. -/
def asEntry (m : CTxMemPoolModifiedEntry) (iter : CTxMemPoolEntry) : CTxMemPoolEntry :=
  { iter with
    nSizeWithAncestors := m.nSizeWithAncestors
    nModFeesWithAncestors := m.nModFeesWithAncestors }

end CTxMemPoolModifiedEntry

open CTxMemPoolModifiedEntry

namespace AssemblerEnv

variable (env : AssemblerEnv) (pool : CTxMemPool)

/-- Whether the entry at `a` is before the one at `b`, each with the totals the pool keeps. -/
def entryBefore (a b : Uint256) : Bool :=
  ((pool.mapTx.lookup a).bind fun ea => (pool.mapTx.lookup b).map fun eb =>
    CompareTxMemPoolEntryByAncestorFee.call env.toMempoolEnv ea eb) == some true

/-- `mempool.mapTx.get<ancestor_score>()`, from its beginning. -/
def ancestorScoreIndex : List Uint256 :=
  pool.mapTx.keys.insertionSort fun a b => env.entryBefore pool b a = false

/-- Whether the entry at `a` with totals `m` is before the one at `b` with totals `n`. -/
def before (a : Uint256) (m : CTxMemPoolModifiedEntry) (b : Uint256) (n : CTxMemPoolModifiedEntry) :
    Bool :=
  ((pool.mapTx.lookup a).bind fun ea => (pool.mapTx.lookup b).map fun eb =>
    CompareTxMemPoolEntryByAncestorFee.call env.toMempoolEnv (m.asEntry ea) (n.asEntry eb)) == some true

/-- The better one of two modified entries. -/
def better (best m : Sigma fun _ : Uint256 => CTxMemPoolModifiedEntry) :
    Sigma fun _ : Uint256 => CTxMemPoolModifiedEntry :=
  if env.before pool m.1 m.2 best.1 best.2 then m else best

/-- `mapModifiedTx.get<ancestor_score>().begin()`. -/
def modifiedBegin (mapModifiedTx : ModifiedSet) :
    Option (Sigma fun _ : Uint256 => CTxMemPoolModifiedEntry) :=
  match mapModifiedTx.entries with
  | [] => none
  | m :: rest => some (rest.foldl (env.better pool) m)

/-- The body of `UpdatePackagesForAdded` for one descendant of `it`. -/
def updateDescendant (it : CTxMemPoolEntry) (mapModifiedTx : ModifiedSet) (desc : Uint256) :
    Option ModifiedSet :=
  match mapModifiedTx.lookup desc with
  | none => (pool.mapTx.lookup desc).map fun e =>
      mapModifiedTx.insert desc (create env.toMempoolEnv it e)
  | some mit => some (mapModifiedTx.insert desc (updateForParentInclusion env.toMempoolEnv it mit))

/-- `UpdatePackagesForAdded`; also the number of updates. -/
def updatePackagesForAdded (alreadyAdded : SetEntries) (mapModifiedTx : ModifiedSet) :
    Option (Nat × ModifiedSet) :=
  alreadyAdded.elems.foldlM (fun (nDescendantsUpdated, mapModifiedTx) it => do
    let entry ← pool.mapTx.lookup it
    let descendants ← pool.calculateDescendants it ∅
    -- all descendants (not yet in block)
    let descendants := descendants.elems.filter (· ∉ alreadyAdded)
    let mapModifiedTx ← descendants.foldlM (env.updateDescendant pool entry) mapModifiedTx
    return (nDescendantsUpdated + descendants.length, mapModifiedTx)) (0, mapModifiedTx)

end AssemblerEnv

/-! ## The loop -/

/-- What becomes of the chosen package. -/
inductive PackageVerdict where
  /-- Everything else we might consider has a lower fee rate. -/
  | lowFee
  /-- It does not fit into the block. -/
  | full
  | notFinal
  /-- It can be added: the transaction with its ancestors not in the block. -/
  | add (ancestors : SetEntries)
  deriving DecidableEq

/-- What an iteration has to do: nothing is left, or an entry of the index is passed over, or a
    package is evaluated; each but the first with what is left of the index. -/
inductive PackageTurn where
  | exhausted
  | skip (mi : List Uint256)
  | evaluate (c : PackageChoice) (mi : List Uint256)
  deriving DecidableEq

/-- How an iteration ends. -/
inductive Iteration where
  | stop (s : PackageState)
  | next (s : PackageState)
  deriving DecidableEq

def MAX_CONSECUTIVE_FAILURES : Nat := 1000

namespace PackageState

variable (env : AssemblerEnv) (pool : CTxMemPool)

def skipMapTxEntry (s : PackageState) (it : Uint256) : Bool :=
  decide (it ∈ s.mapModifiedTx) || decide (it ∈ s.block.inBlock) || decide (it ∈ s.failedTx)

/-- The next entry of the pool's index. -/
def fromMapTx (it : Uint256) (e : CTxMemPoolEntry) : PackageChoice where
  iter := it
  fUsingModified := false
  packageSize := e.nSizeWithAncestors
  packageFees := e.nModFeesWithAncestors
  packageSigOpsCost := e.nSigOpCostWithAncestors

/-- The best modified entry. -/
def fromModified (modit : Sigma fun _ : Uint256 => CTxMemPoolModifiedEntry) : PackageChoice where
  iter := modit.1
  fUsingModified := true
  packageSize := modit.2.nSizeWithAncestors
  packageFees := modit.2.nModFeesWithAncestors
  packageSigOpsCost := modit.2.nSigOpCostWithAncestors

/-- What an iteration has to do. -/
def turn (s : PackageState) : Option PackageTurn :=
  match s.mi with
  | [] =>
    match env.modifiedBegin pool s.mapModifiedTx with
    | none => some .exhausted
    -- We're out of entries in mapTx; use the entry from mapModifiedTx
    | some modit => some (.evaluate (fromModified modit) [])
  | it :: rest => (pool.mapTx.lookup it).map fun e =>
    if s.skipMapTxEntry it then .skip rest
    else
      match env.modifiedBegin pool s.mapModifiedTx with
      | none => .evaluate (fromMapTx it e) rest
      | some modit =>
        -- Try to compare the mapTx entry to the mapModifiedTx entry
        if env.before pool modit.1 modit.2 it (ofEntry e) then .evaluate (fromModified modit) s.mi
        else .evaluate (fromMapTx it e) rest

def verdict (s : PackageState) (c : PackageChoice) : Option PackageVerdict :=
  if c.packageFees < env.blockMinFeeRate.getFee c.packageSize then some .lowFee
  else if !s.block.testPackage env c.packageSize c.packageSigOpsCost then some .full
  else do
    let entry ← pool.mapTx.lookup c.iter
    let ancestors ← pool.calculateMemPoolAncestors entry false
    let ancestors := (s.block.onlyUnconfirmed ancestors).insert c.iter
    if !testPackageTransactions env pool ancestors then some .notFinal else some (.add ancestors)

/-- A modified entry that failed goes, so that the next best one can be considered. -/
def fail (s : PackageState) (c : PackageChoice) : PackageState :=
  if c.fUsingModified then
    { s with
      mapModifiedTx := s.mapModifiedTx.erase c.iter
      failedTx := s.failedTx.insert c.iter }
  else s

/-- The package makes it in. -/
def addPackage (s : PackageState) (ancestors : SetEntries) : Option PackageState := do
  let sortedEntries := sortForBlock pool ancestors
  let block ← sortedEntries.foldlM (BlockAssembler.addToBlock pool) s.block
  let mapModifiedTx := sortedEntries.foldl (fun m it => m.erase it) s.mapModifiedTx
  let (nDescendantsUpdated, mapModifiedTx) ← env.updatePackagesForAdded pool ancestors mapModifiedTx
  return { s with
    block := block
    mapModifiedTx := mapModifiedTx
    nConsecutiveFailed := 0
    nPackagesSelected := s.nPackagesSelected + 1
    nDescendantsUpdated := s.nDescendantsUpdated + nDescendantsUpdated }

/-- Whether to give up: close to full, and no success in a while. -/
def givesUp (s : PackageState) : Bool :=
  decide (s.nConsecutiveFailed > MAX_CONSECUTIVE_FAILURES ∧
    s.block.nBlockWeight > env.nBlockMaxWeight - 4000)

/-- The rest of an iteration, once the package is chosen. -/
def judge (s : PackageState) (c : PackageChoice) : Option Iteration := do
  -- We skip mapTx entries that are inBlock, and mapModifiedTx shouldn't contain anything
  -- that is inBlock.
  guard (c.iter ∉ s.block.inBlock)
  match ← s.verdict env pool c with
  | .lowFee => return .stop s
  | .full =>
    let s := s.fail c
    let s := { s with nConsecutiveFailed := s.nConsecutiveFailed + 1 }
    return if s.givesUp env then .stop s else .next s
  | .notFinal => return .next (s.fail c)
  | .add ancestors => (s.addPackage env pool ancestors).map .next

/-- An iteration of the loop of `addPackageTxs`, or its end. -/
def step (s : PackageState) : Option Iteration :=
  match s.turn env pool with
  | none => none
  | some .exhausted => some (.stop s)
  | some (.skip mi) => some (.next { s with mi := mi })
  | some (.evaluate c mi) => { s with mi := mi }.judge env pool c

/-- The state before the loop; the block has no transactions yet. -/
def start : PackageState where
  block := .resetBlock
  mi := env.ancestorScoreIndex pool
  mapModifiedTx := ∅
  failedTx := ∅
  nConsecutiveFailed := 0
  nPackagesSelected := 0
  nDescendantsUpdated := 0

end PackageState

namespace AssemblerEnv

variable (env : AssemblerEnv) (pool : CTxMemPool)

/-- The loop, for so many iterations. -/
def packageLoop : Nat → PackageState → Option PackageState
  | 0, _ => none
  | fuel + 1, s =>
    match s.step env pool with
    | none => none
    | some (.stop s) => some s
    | some (.next s) => packageLoop fuel s

def addPackageTxs (fuel : Nat) : Option PackageState := do
  let s := PackageState.start env pool
  let (_, mapModifiedTx) ← env.updatePackagesForAdded pool s.block.inBlock s.mapModifiedTx
  env.packageLoop pool fuel { s with mapModifiedTx := mapModifiedTx }

end AssemblerEnv

end Rcoin
