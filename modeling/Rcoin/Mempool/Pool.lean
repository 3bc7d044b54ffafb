/-
  The memory pool: its entries with the cached totals of their in-pool ancestors
  and descendants, the links between them, and the operations that keep both up
  to date.

  Source: src/txmempool.{h,cpp}.  An iterator into `mapTx` is the hash of its
  transaction, and a `setEntries` is the ordered set of such hashes.  `none`
  stands for a failed `assert` or the use of an iterator that does not exist.
  Calls of `CalculateMemPoolAncestors` without limits are modelled (`nNoLimit` is
  the largest value of the type, so no limit check can fail).
-/
import Rcoin.Primitives
import Rcoin.Lib.Maps
import Rcoin.Lib.Worklist

namespace Rcoin

open SortedSet

/-! ## Entries -/

/-- An entry with its totals over ancestors and descendants. -/
structure CTxMemPoolEntry where
  tx : CTransaction
  nFee : Int
  nTxWeight : Int
  nTime : Int
  sigOpCost : Int
  feeDelta : Int
  nCountWithDescendants : Int
  nSizeWithDescendants : Int
  nModFeesWithDescendants : Int
  nCountWithAncestors : Int
  nSizeWithAncestors : Int
  nModFeesWithAncestors : Int
  nSigOpCostWithAncestors : Int
  deriving DecidableEq, Repr

/-- A set of iterators into `mapTx`. -/
abbrev SetEntries := SortedSet Uint256

structure TxLinks where
  parents : SetEntries := ∅
  children : SetEntries := ∅
  deriving DecidableEq

/-- The members of the pool that its calls read and write. -/
structure CTxMemPool where
  mapTx : AList fun _ : Uint256 => CTxMemPoolEntry
  mapLinks : AList fun _ : Uint256 => TxLinks
  mapNextTx : AList fun _ : COutPoint => CTransaction
  mapDeltas : AList fun _ : Uint256 => Int
  totalTxSize : Int

/-- A pool without transactions; deltas may have been set already. -/
def CTxMemPool.empty (mapDeltas : AList fun _ : Uint256 => Int) : CTxMemPool :=
  { mapTx := ∅, mapLinks := ∅, mapNextTx := ∅, mapDeltas, totalTxSize := 0 }

/-- What the pool takes from elsewhere: the setting `nBytesPerSigOp`, the weight
    of a transaction (`GetTransactionWeight`), and for `TrimToSize` the memory the
    pool uses and the first entry of the index by descendant score. -/
structure MempoolEnv where
  nBytesPerSigOp : Int
  getTransactionWeight : CTransaction → Int
  dynamicMemoryUsage : CTxMemPool → Int
  descendantScoreBegin : CTxMemPool → Option Uint256

/-- The conversion of an `int64_t` to `int`. -/
def toInt (x : Int) : Int := x.bmod (2 ^ 32)

namespace MempoolEnv

variable (env : MempoolEnv)

def getVirtualTransactionSize (nWeight nSigOpCost : Int) : Int :=
  (max nWeight (nSigOpCost * env.nBytesPerSigOp) + WITNESS_SCALE_FACTOR - 1).tdiv
    WITNESS_SCALE_FACTOR

def getTxSize (e : CTxMemPoolEntry) : Int := env.getVirtualTransactionSize e.nTxWeight e.sigOpCost

end MempoolEnv

namespace CTxMemPoolEntry

def getModifiedFee (e : CTxMemPoolEntry) : Int := e.nFee + e.feeDelta

/-- The constructor: the totals are those of the transaction alone. -/
def new (env : MempoolEnv) (tx : CTransaction) (nFee nTime sigOpCost : Int) : CTxMemPoolEntry :=
  let nTxWeight := env.getTransactionWeight tx
  let nSize := env.getVirtualTransactionSize nTxWeight sigOpCost
  { tx, nFee, nTxWeight, nTime, sigOpCost
    feeDelta := 0
    nCountWithDescendants := 1
    nSizeWithDescendants := nSize
    nModFeesWithDescendants := nFee
    nCountWithAncestors := 1
    nSizeWithAncestors := nSize
    nModFeesWithAncestors := nFee
    nSigOpCostWithAncestors := sigOpCost }

def updateFeeDelta (e : CTxMemPoolEntry) (newFeeDelta : Int) : CTxMemPoolEntry :=
  { e with
    nModFeesWithDescendants := e.nModFeesWithDescendants + (newFeeDelta - e.feeDelta)
    nModFeesWithAncestors := e.nModFeesWithAncestors + (newFeeDelta - e.feeDelta)
    feeDelta := newFeeDelta }

def updateDescendantState (modifySize modifyFee modifyCount : Int) (e : CTxMemPoolEntry) :
    Option CTxMemPoolEntry :=
  let nSize := e.nSizeWithDescendants + modifySize
  let nCount := e.nCountWithDescendants + modifyCount
  if 0 < nSize ∧ 0 < nCount then
    some { e with
      nSizeWithDescendants := nSize
      nModFeesWithDescendants := e.nModFeesWithDescendants + modifyFee
      nCountWithDescendants := nCount }
  else none

def updateAncestorState (modifySize modifyFee modifyCount modifySigOps : Int)
    (e : CTxMemPoolEntry) : Option CTxMemPoolEntry :=
  let nSize := e.nSizeWithAncestors + modifySize
  let nCount := e.nCountWithAncestors + modifyCount
  let nSigOpCost := e.nSigOpCostWithAncestors + modifySigOps
  if 0 < nSize ∧ 0 < nCount ∧ 0 ≤ toInt nSigOpCost then
    some { e with
      nSizeWithAncestors := nSize
      nModFeesWithAncestors := e.nModFeesWithAncestors + modifyFee
      nCountWithAncestors := nCount
      nSigOpCostWithAncestors := nSigOpCost }
  else none

end CTxMemPoolEntry

namespace CTxMemPool

/-! ## Tables -/

/-- `mapTx.modify(it, f)`. -/
def modifyEntry (f : CTxMemPoolEntry → Option CTxMemPoolEntry) (pool : CTxMemPool)
    (it : Uint256) : Option CTxMemPool :=
  match pool.mapTx.lookup it with
  | none => none
  | some e => (f e).map fun e' => { pool with mapTx := pool.mapTx.insert it e' }

/-- `mapLinks[it]`. -/
def links (pool : CTxMemPool) (it : Uint256) : TxLinks := (pool.mapLinks.lookup it).getD {}

def updateChild (entry child : Uint256) (add : Bool) (pool : CTxMemPool) : CTxMemPool :=
  let l := pool.links entry
  let children := if add then l.children.insert child else l.children.erase child
  { pool with mapLinks := pool.mapLinks.insert entry { l with children } }

def updateParent (entry parent : Uint256) (add : Bool) (pool : CTxMemPool) : CTxMemPool :=
  let l := pool.links entry
  let parents := if add then l.parents.insert parent else l.parents.erase parent
  { pool with mapLinks := pool.mapLinks.insert entry { l with parents } }

def getMemPoolParents (pool : CTxMemPool) (entry : Uint256) : Option SetEntries :=
  (pool.mapLinks.lookup entry).map TxLinks.parents

def getMemPoolChildren (pool : CTxMemPool) (entry : Uint256) : Option SetEntries :=
  (pool.mapLinks.lookup entry).map TxLinks.children

/-! ## Walks -/

/-- The parents of a transaction that are in the pool. -/
def searchForParents (pool : CTxMemPool) (tx : CTransaction) : SetEntries :=
  ofList ((tx.prevouts.map COutPoint.hash).filter (· ∈ pool.mapTx))

def calculateMemPoolAncestors (pool : CTxMemPool) (entry : CTxMemPoolEntry)
    (fSearchForParents : Bool) : Option SetEntries := do
  let parentHashes ← (if fSearchForParents then some (pool.searchForParents entry.tx)
    else pool.getMemPoolParents entry.tx.hash)
  Worklist.collect pool.getMemPoolParents pool.mapTx.keys.length parentHashes ∅

def calculateDescendants (pool : CTxMemPool) (entryit : Uint256) (setDescendants : SetEntries) :
    Option SetEntries :=
  let stage := if entryit ∈ setDescendants then ∅ else ofList [entryit]
  Worklist.collect pool.getMemPoolChildren pool.mapTx.keys.length stage setDescendants

/-- The descendants of several entries, collected one after the other. -/
def calculateAllDescendants (pool : CTxMemPool) (entries : SetEntries) : Option SetEntries :=
  entries.elems.foldlM (fun setDescendants it => pool.calculateDescendants it setDescendants) ∅

/-! ## Steps that read no setting -/

open CTxMemPoolEntry

/-- The sum of `f` over the entries at some iterators. -/
def sumOver (pool : CTxMemPool) (entries : SetEntries) (f : CTxMemPoolEntry → Int) :
    Option Int :=
  entries.elems.foldlM (fun acc it => (pool.mapTx.lookup it).map fun e => acc + f e) 0

def updateChildrenForRemoval (pool : CTxMemPool) (it : Uint256) : Option CTxMemPool := do
  let setMemPoolChildren ← pool.getMemPoolChildren it
  some (setMemPoolChildren.elems.foldl (fun pool updateIt => pool.updateParent updateIt it false)
    pool)

/-- The in-pool transactions that spend an output of `origTx`. -/
def spendersOf (pool : CTxMemPool) (origTx : CTransaction) : Option SetEntries :=
  (List.range origTx.vout.length).foldlM (fun txToRemove i =>
    match pool.mapNextTx.lookup ⟨origTx.hash, i⟩ with
    | none => some txToRemove
    | some tx => if tx.hash ∈ pool.mapTx then some (txToRemove.insert tx.hash) else none) ∅

def clearPrioritisation (hash : Uint256) (pool : CTxMemPool) : CTxMemPool :=
  { pool with mapDeltas := pool.mapDeltas.erase hash }

def prioritiseTransaction (hash : Uint256) (nFeeDelta : Int) (pool : CTxMemPool) :
    Option CTxMemPool := do
  let delta := (pool.mapDeltas.lookup hash).getD 0 + nFeeDelta
  let pool := { pool with mapDeltas := pool.mapDeltas.insert hash delta }
  if hash ∈ pool.mapTx then
    let pool ← pool.modifyEntry (fun e => some (e.updateFeeDelta delta)) hash
    let entry ← pool.mapTx.lookup hash
    let setAncestors ← pool.calculateMemPoolAncestors entry false
    let pool ← setAncestors.elems.foldlM (modifyEntry (updateDescendantState 0 nFeeDelta 0)) pool
    let setDescendants ← pool.calculateDescendants hash ∅
    (setDescendants.erase hash).elems.foldlM (modifyEntry (updateAncestorState 0 nFeeDelta 0 0))
      pool
  else some pool

end CTxMemPool

namespace MempoolEnv

open CTxMemPool CTxMemPoolEntry

variable (env : MempoolEnv)

/-! ## Adding -/

def updateAncestorsOf (add : Bool) (it : Uint256) (setAncestors : SetEntries)
    (pool : CTxMemPool) : Option CTxMemPool := do
  let parentIters ← pool.getMemPoolParents it
  let pool := parentIters.elems.foldl (fun pool piter => pool.updateChild piter it add) pool
  let e ← pool.mapTx.lookup it
  let updateCount : Int := if add then 1 else -1
  setAncestors.elems.foldlM (modifyEntry (updateDescendantState (updateCount * env.getTxSize e)
    (updateCount * e.getModifiedFee) updateCount)) pool

def updateEntryForAncestors (it : Uint256) (setAncestors : SetEntries) (pool : CTxMemPool) :
    Option CTxMemPool := do
  let updateCount : Int := setAncestors.elems.length
  let updateSize ← sumOver pool setAncestors env.getTxSize
  let updateFee ← sumOver pool setAncestors getModifiedFee
  let updateSigOpsCost ← sumOver pool setAncestors sigOpCost
  pool.modifyEntry (updateAncestorState updateSize updateFee updateCount updateSigOpsCost) it

def addUnchecked (hash : Uint256) (entry : CTxMemPoolEntry) (setAncestors : SetEntries)
    (pool : CTxMemPool) : Option CTxMemPool := do
  let newit := entry.tx.hash
  let pool := { pool with
    mapTx := Maps.insertNew pool.mapTx newit entry
    mapLinks := Maps.insertNew pool.mapLinks newit {} }
  let delta := (pool.mapDeltas.lookup hash).getD 0
  let pool ← (if delta ≠ 0 then pool.modifyEntry (fun e => some (e.updateFeeDelta delta)) newit
    else some pool)
  let tx := (← pool.mapTx.lookup newit).tx
  let pool := { pool with
    mapNextTx := tx.prevouts.foldl (fun m o => Maps.insertNew m o tx) pool.mapNextTx }
  let setParentTransactions := ofList (tx.prevouts.map COutPoint.hash)
  let pool := setParentTransactions.elems.foldl (fun pool phash =>
    if phash ∈ pool.mapTx then pool.updateParent newit phash true else pool) pool
  let pool ← env.updateAncestorsOf true newit setAncestors pool
  let pool ← env.updateEntryForAncestors newit setAncestors pool
  some { pool with totalTxSize := pool.totalTxSize + env.getTxSize entry }

/-! ## Removing -/

def removeUnchecked (pool : CTxMemPool) (it : Uint256) : Option CTxMemPool := do
  let e ← pool.mapTx.lookup it
  some { pool with
    mapNextTx := e.tx.prevouts.foldl (fun m o => m.erase o) pool.mapNextTx
    totalTxSize := pool.totalTxSize - env.getTxSize e
    mapLinks := pool.mapLinks.erase it
    mapTx := pool.mapTx.erase it }

/-- The descendants of an entry that is removed while they stay. -/
def updateDescendantsForRemove (pool : CTxMemPool) (removeIt : Uint256) : Option CTxMemPool := do
  let setDescendants ← pool.calculateDescendants removeIt ∅
  let e ← pool.mapTx.lookup removeIt
  (setDescendants.erase removeIt).elems.foldlM (modifyEntry (updateAncestorState
    (-env.getTxSize e) (-e.getModifiedFee) (-1) (toInt (-e.sigOpCost)))) pool

def updateAncestorsForRemove (pool : CTxMemPool) (removeIt : Uint256) : Option CTxMemPool := do
  let entry ← pool.mapTx.lookup removeIt
  let setAncestors ← pool.calculateMemPoolAncestors entry false
  env.updateAncestorsOf false removeIt setAncestors pool

def updateForRemoveFromMempool (entriesToRemove : SetEntries) (updateDescendants : Bool)
    (pool : CTxMemPool) : Option CTxMemPool := do
  let pool ← (if updateDescendants then
      entriesToRemove.elems.foldlM env.updateDescendantsForRemove pool
    else some pool)
  let pool ← entriesToRemove.elems.foldlM env.updateAncestorsForRemove pool
  entriesToRemove.elems.foldlM updateChildrenForRemoval pool

def removeStaged (stage : SetEntries) (updateDescendants : Bool) (pool : CTxMemPool) :
    Option CTxMemPool := do
  let pool ← env.updateForRemoveFromMempool stage updateDescendants pool
  stage.elems.foldlM env.removeUnchecked pool

def removeRecursive (origTx : CTransaction) (pool : CTxMemPool) : Option CTxMemPool := do
  let txToRemove ← (if origTx.hash ∈ pool.mapTx then some (ofList [origTx.hash])
    else spendersOf pool origTx)
  let setAllRemoves ← pool.calculateAllDescendants txToRemove
  env.removeStaged setAllRemoves false pool

/-- The transaction of the pool that spends the outpoint goes, unless it is `tx`. -/
def removeConflict (tx : CTransaction) (pool : CTxMemPool) (prevout : COutPoint) :
    Option CTxMemPool :=
  match pool.mapNextTx.lookup prevout with
  | none => some pool
  | some txConflict =>
    if txConflict.hash ≠ tx.hash then
      env.removeRecursive txConflict (clearPrioritisation txConflict.hash pool)
    else some pool

def removeConflicts (tx : CTransaction) (pool : CTxMemPool) : Option CTxMemPool :=
  tx.prevouts.foldlM (env.removeConflict tx) pool

/-- What `removeForBlock` does for one transaction of the block. -/
def removeForBlockTx (pool : CTxMemPool) (tx : CTransaction) : Option CTxMemPool := do
  let pool ← (if tx.hash ∈ pool.mapTx then
      env.removeStaged (ofList [tx.hash]) true pool
    else some pool)
  let pool ← env.removeConflicts tx pool
  some (clearPrioritisation tx.hash pool)

def removeForBlock (vtx : List CTransaction) (pool : CTxMemPool) : Option CTxMemPool :=
  vtx.foldlM env.removeForBlockTx pool

/-! ## Expiry and size limit -/

def expire (time : Int) (pool : CTxMemPool) : Option CTxMemPool := do
  let toremove := ofList (pool.mapTx.keys.filter fun it =>
    (pool.mapTx.lookup it).any fun e => decide (e.nTime < time))
  let stage ← pool.calculateAllDescendants toremove
  env.removeStaged stage false pool

/-- The loop of `TrimToSize`; each round removes an entry, so as many rounds as
    there are entries are enough. -/
def trimLoop (sizelimit : Int) : Nat → CTxMemPool → Option CTxMemPool
  | 0, pool => some pool
  | fuel + 1, pool =>
    if pool.mapTx.keys ≠ [] ∧ sizelimit < env.dynamicMemoryUsage pool then do
      let it ← env.descendantScoreBegin pool
      let stage ← pool.calculateDescendants it ∅
      let pool ← env.removeStaged stage false pool
      trimLoop sizelimit fuel pool
    else some pool

def trimToSize (sizelimit : Int) (pool : CTxMemPool) : Option CTxMemPool :=
  env.trimLoop sizelimit pool.mapTx.keys.length pool

end MempoolEnv

end Rcoin
