/-
  The coin views of src/coins.h, src/coins.cpp and src/txdb.cpp: the database
  view at the bottom, and caches stacked over it.  `CCoinsView` follows the
  `base` pointers of the source: a view is the database or a cache over another
  view.  Reads fill the caches they pass through, as `FetchCoin` does.

  `cachedCoinsUsage` (memory accounting) is left out: nothing here reads it.
-/
import Rcoin.Primitives

namespace Rcoin

/-! ## Coins and cache entries -/

/-- A UTXO entry: the output, and the height and coinbase flag of the
    transaction that created it. -/
structure Coin where
  out : CTxOut
  nHeight : Nat
  fCoinBase : Bool
  deriving DecidableEq, Repr

/-- `coinEmpty`, which is also what `Coin::Clear` leaves behind. -/
def Coin.empty : Coin := { out := CTxOut.null, nHeight := 0, fCoinBase := false }

def Coin.isSpent (c : Coin) : Bool := c.out.isNull

/-- The coin as a reader sees it: a spent one is not there. -/
def Coin.unspent? (c : Coin) : Option Coin := if c.isSpent then none else some c

/-- Cached coin with the `DIRTY` and `FRESH` flags. -/
structure CCoinsCacheEntry where
  coin : Coin
  /-- Potentially different from the version in the parent view. -/
  dirty : Bool
  /-- The parent view does not have this entry (or it is pruned). -/
  fresh : Bool
  deriving DecidableEq, Repr

/-- `std::unordered_map<COutPoint, CCoinsCacheEntry>`; the order of the list is
    one iteration order among those the source leaves open. -/
abbrev CCoinsMap := AList fun _ : COutPoint => CCoinsCacheEntry

/-- What ends a call instead of a return. -/
inductive CoinsError where
  | logicError (what : String)
  | assertFailed (what : String)
  deriving DecidableEq, Repr

/-! ## The coin database -/

/-- The chainstate database: the records under `DB_COIN`, the block hash under
    `DB_BEST_BLOCK` (null when the key is absent) and the vector under
    `DB_HEAD_BLOCKS` (empty when the key is absent). -/
structure CCoinsViewDB where
  coins : AList fun _ : COutPoint => Coin
  bestBlock : Uint256
  headBlocks : List Uint256

/-- A database that was just created. -/
def CCoinsViewDB.empty : CCoinsViewDB := { coins := ∅, bestBlock := 0, headBlocks := [] }

/-- One operation of a `CDBBatch`. -/
inductive BatchOp where
  | writeCoin (o : COutPoint) (coin : Coin)
  | eraseCoin (o : COutPoint)
  | writeBestBlock (hash : Uint256)
  | eraseBestBlock
  | writeHeadBlocks (hashes : List Uint256)
  | eraseHeadBlocks
  deriving DecidableEq, Repr

namespace CCoinsViewDB

def getCoin (d : CCoinsViewDB) (o : COutPoint) : Option Coin := d.coins.lookup o

def applyOp (d : CCoinsViewDB) : BatchOp → CCoinsViewDB
  | .writeCoin o coin => { d with coins := d.coins.insert o coin }
  | .eraseCoin o => { d with coins := d.coins.erase o }
  | .writeBestBlock hash => { d with bestBlock := hash }
  | .eraseBestBlock => { d with bestBlock := 0 }
  | .writeHeadBlocks hashes => { d with headBlocks := hashes }
  | .eraseHeadBlocks => { d with headBlocks := [] }

/-- `db.WriteBatch(batch)`: the operations of a batch, in order. -/
def writeBatch (d : CCoinsViewDB) (batch : List BatchOp) : CCoinsViewDB :=
  batch.foldl applyOp d

/-- What one entry of `mapCoins` adds to the batch. -/
def entryOps (o : COutPoint) (e : CCoinsCacheEntry) : List BatchOp :=
  if e.dirty then
    if e.coin.isSpent then [.eraseCoin o] else [.writeCoin o e.coin]
  else []

/-- The old tip that `BatchWrite` records: the best block, or, in the middle of
    a replay, the second of the recorded heads. -/
def oldTip (d : CCoinsViewDB) (hashBlock : Uint256) : Except CoinsError Uint256 :=
  if d.bestBlock = 0 then
    match d.headBlocks with
    | [head, tail] =>
      if head = hashBlock then .ok tail
      else .error (.assertFailed "old_heads[0] == hashBlock")
    | _ => .ok d.bestBlock
  else .ok d.bestBlock

/-- The loop of `BatchWrite` over the entries: `full` is the test
    `batch.SizeEstimate() > batch_size`, made after each entry.  The result is
    the sequence of batches handed to `db.WriteBatch`, the last one included. -/
def batches (full : List BatchOp → Bool) (hashBlock : Uint256) :
    List (Sigma fun _ : COutPoint => CCoinsCacheEntry) → List BatchOp → List (List BatchOp)
  | [], batch => [batch ++ [.eraseHeadBlocks, .writeBestBlock hashBlock]]
  | ⟨o, e⟩ :: rest, batch =>
    let batch' := batch ++ entryOps o e
    if full batch' then batch' :: batches full hashBlock rest []
    else batches full hashBlock rest batch'

/-- The operations that open the first batch: the database is marked as being
    in transition from the old tip to `hashBlock`. -/
def headerOps (hashBlock old_tip : Uint256) : List BatchOp :=
  [.eraseBestBlock, .writeHeadBlocks [hashBlock, old_tip]]

/-- `CCoinsViewDB::BatchWrite` over the entries in a given order. -/
def batchWriteEntries (full : List BatchOp → Bool) (d : CCoinsViewDB)
    (entries : List (Sigma fun _ : COutPoint => CCoinsCacheEntry)) (hashBlock : Uint256) :
    Except CoinsError CCoinsViewDB :=
  if hashBlock = 0 then .error (.assertFailed "!hashBlock.IsNull()")
  else
    match oldTip d hashBlock with
    | .error e => .error e
    | .ok old_tip =>
      .ok ((batches full hashBlock entries (headerOps hashBlock old_tip)).foldl writeBatch d)

/-- `CCoinsViewDB::BatchWrite` with every entry in one batch. -/
def batchWrite (d : CCoinsViewDB) (mapCoins : CCoinsMap) (hashBlock : Uint256) :
    Except CoinsError CCoinsViewDB :=
  batchWriteEntries (fun _ => false) d mapCoins.entries hashBlock

end CCoinsViewDB

/-! ## Views -/

/-- `CCoinsView`: the database, or a cache (its `hashBlock` and `cacheCoins`)
    backed by another view. -/
inductive CCoinsView where
  | db (d : CCoinsViewDB)
  | cache (hashBlock : Uint256) (cacheCoins : CCoinsMap) (base : CCoinsView)

/-- A view that is known to be a cache. -/
structure CCoinsViewCache where
  hashBlock : Uint256
  cacheCoins : CCoinsMap
  base : CCoinsView

def CCoinsViewCache.toView (c : CCoinsViewCache) : CCoinsView :=
  .cache c.hashBlock c.cacheCoins c.base

/-- `CCoinsViewCache(CCoinsView *baseIn)`: null best block, empty map. -/
def CCoinsViewCache.new (base : CCoinsView) : CCoinsViewCache :=
  { hashBlock := 0, cacheCoins := ∅, base := base }

/-- The second half of `FetchCoin`: what the cache does with its parent's
    answer for an outpoint it does not hold. -/
def CCoinsViewCache.emplaceFetched (c : CCoinsViewCache) (o : COutPoint) :
    Option Coin × CCoinsView → Option CCoinsCacheEntry × CCoinsViewCache
  | (none, base') => (none, { c with base := base' })
  | (some tmp, base') =>
    let e : CCoinsCacheEntry := { coin := tmp, dirty := false, fresh := tmp.isSpent }
    (some e, { c with cacheCoins := c.cacheCoins.insert o e, base := base' })

/-- `GetCoin`, returning the coin found (if unspent) and the view with the
    entries its caches have fetched. -/
def CCoinsView.getCoin : CCoinsView → COutPoint → Option Coin × CCoinsView
  | .db d, o => (d.getCoin o, .db d)
  | .cache h m base, o =>
    match m.lookup o with
    | some e => (e.coin.unspent?, .cache h m base)
    | none =>
      let r := CCoinsViewCache.emplaceFetched ⟨h, m, base⟩ o (base.getCoin o)
      (r.1.bind fun e => e.coin.unspent?, r.2.toView)

/-- `GetBestBlock`; a cache without one asks its parent and keeps the answer. -/
def CCoinsView.getBestBlock : CCoinsView → Uint256 × CCoinsView
  | .db d => (d.bestBlock, .db d)
  | .cache h m base =>
    if h = 0 then
      let r := base.getBestBlock
      (r.1, .cache r.1 m r.2)
    else (h, .cache h m base)

/-- One step of the loop of `CCoinsViewCache::BatchWrite`: entry `e` of the
    child at outpoint `o`, applied to the parent's map. -/
def CCoinsViewCache.batchWriteEntry (cacheCoins : CCoinsMap) (o : COutPoint)
    (e : CCoinsCacheEntry) : Except CoinsError CCoinsMap :=
  if e.dirty then
    match cacheCoins.lookup o with
    | none =>
      if e.fresh && e.coin.isSpent then .ok cacheCoins
      else .ok (cacheCoins.insert o { coin := e.coin, dirty := true, fresh := e.fresh })
    | some itUs =>
      if e.fresh && !itUs.coin.isSpent then
        .error (.logicError "FRESH flag misapplied to cache entry for base transaction with spendable outputs")
      else if itUs.fresh && e.coin.isSpent then .ok (cacheCoins.erase o)
      else .ok (cacheCoins.insert o { coin := e.coin, dirty := true, fresh := itUs.fresh })
  else .ok cacheCoins

/-- The loop of `CCoinsViewCache::BatchWrite`. -/
def CCoinsViewCache.batchWriteLoop (cacheCoins : CCoinsMap) :
    List (Sigma fun _ : COutPoint => CCoinsCacheEntry) → Except CoinsError CCoinsMap
  | [] => .ok cacheCoins
  | ⟨o, e⟩ :: rest =>
    match batchWriteEntry cacheCoins o e with
    | .error err => .error err
    | .ok cacheCoins' => batchWriteLoop cacheCoins' rest

/-- `BatchWrite`, dispatched on the kind of view. -/
def CCoinsView.batchWrite (v : CCoinsView) (mapCoins : CCoinsMap) (hashBlockIn : Uint256) :
    Except CoinsError CCoinsView :=
  match v with
  | .db d =>
    match d.batchWrite mapCoins hashBlockIn with
    | .error err => .error err
    | .ok d' => .ok (.db d')
  | .cache _ m base =>
    match CCoinsViewCache.batchWriteLoop m mapCoins.entries with
    | .error err => .error err
    | .ok m' => .ok (.cache hashBlockIn m' base)

namespace CCoinsViewCache

/-! ## Operations of a cache -/

def fetchCoin (c : CCoinsViewCache) (o : COutPoint) :
    Option CCoinsCacheEntry × CCoinsViewCache :=
  match c.cacheCoins.lookup o with
  | some e => (some e, c)
  | none => c.emplaceFetched o (c.base.getCoin o)

def getCoin (c : CCoinsViewCache) (o : COutPoint) : Option Coin × CCoinsViewCache :=
  let r := c.fetchCoin o
  (r.1.bind fun e => e.coin.unspent?, r.2)

def haveCoin (c : CCoinsViewCache) (o : COutPoint) : Bool × CCoinsViewCache :=
  let r := c.fetchCoin o
  (r.1.any fun e => !e.coin.isSpent, r.2)

def accessCoin (c : CCoinsViewCache) (o : COutPoint) : Coin × CCoinsViewCache :=
  let r := c.fetchCoin o
  ((r.1.map CCoinsCacheEntry.coin).getD Coin.empty, r.2)

def addCoin (c : CCoinsViewCache) (o : COutPoint) (coin : Coin) (possible_overwrite : Bool) :
    Except CoinsError CCoinsViewCache :=
  if coin.isSpent then .error (.assertFailed "!coin.IsSpent()")
  else if coin.out.scriptPubKey.isUnspendable then .ok c
  else
    -- a missing entry is emplaced as a spent one without flags
    let it := (c.cacheCoins.lookup o).getD { coin := Coin.empty, dirty := false, fresh := false }
    if !possible_overwrite && !it.coin.isSpent then
      .error (.logicError "Adding new coin that replaces non-pruned entry")
    else
      let fresh := !possible_overwrite && !it.dirty
      .ok { c with
        cacheCoins := c.cacheCoins.insert o
          { coin := coin, dirty := true, fresh := it.fresh || fresh } }

/-- `SpendCoin`: `none` when it returns false, else the coin moved out. -/
def spendCoin (c : CCoinsViewCache) (o : COutPoint) : Option Coin × CCoinsViewCache :=
  match c.fetchCoin o with
  | (none, c') => (none, c')
  | (some e, c') =>
    if e.fresh then (some e.coin, { c' with cacheCoins := c'.cacheCoins.erase o })
    else
      (some e.coin, { c' with
        cacheCoins := c'.cacheCoins.insert o { e with coin := Coin.empty, dirty := true } })

def uncache (c : CCoinsViewCache) (o : COutPoint) : CCoinsViewCache :=
  match c.cacheCoins.lookup o with
  | some e => if !e.dirty && !e.fresh then { c with cacheCoins := c.cacheCoins.erase o } else c
  | none => c

def setBestBlock (c : CCoinsViewCache) (hashBlockIn : Uint256) : CCoinsViewCache :=
  { c with hashBlock := hashBlockIn }

def getBestBlock (c : CCoinsViewCache) : Uint256 × CCoinsViewCache :=
  if c.hashBlock = 0 then
    let r := c.base.getBestBlock
    (r.1, { c with hashBlock := r.1, base := r.2 })
  else (c.hashBlock, c)

def flush (c : CCoinsViewCache) : Except CoinsError CCoinsViewCache :=
  match c.base.batchWrite c.cacheCoins c.hashBlock with
  | .error err => .error err
  | .ok base' => .ok { c with cacheCoins := ∅, base := base' }

/-- `AddCoins`: all outputs of a transaction, at their indices. -/
def addCoins (c : CCoinsViewCache) (tx : CTransaction) (nHeight : Nat) (check : Bool) :
    Except CoinsError CCoinsViewCache :=
  go c 0 tx.vout
where
  go (c : CCoinsViewCache) (i : Nat) : List CTxOut → Except CoinsError CCoinsViewCache
    | [] => .ok c
    | txout :: rest =>
      let o : COutPoint := ⟨tx.hash, i⟩
      let r := if check then c.haveCoin o else (tx.isCoinBase, c)
      match r.2.addCoin o ⟨txout, nHeight, tx.isCoinBase⟩ r.1 with
      | .error err => .error err
      | .ok c' => go c' (i + 1) rest

/-- `HaveInputs`: all prevouts of a transaction are unspent in the view. -/
def haveInputs (c : CCoinsViewCache) (tx : CTransaction) : Bool × CCoinsViewCache :=
  if tx.isCoinBase then (true, c) else go c tx.prevouts
where
  go (c : CCoinsViewCache) : List COutPoint → Bool × CCoinsViewCache
    | [] => (true, c)
    | o :: rest =>
      let r := c.haveCoin o
      if r.1 then go r.2 rest else (false, r.2)

end CCoinsViewCache

end Rcoin
