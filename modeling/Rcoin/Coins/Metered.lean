/-
  The coin caches once more, with what the memory accounting of src/coins.cpp
  needs: the memory each cached script has allocated, the running sum
  `cachedCoinsUsage`, and what a call leaves behind that ends by throwing.
-/
import Rcoin.Coins.Layers

namespace Rcoin

open Maps

/-! ## Coins and the memory they hold -/

abbrev SizeT := BitVec 64

/-- `memusage::MallocUsage` with pointers of eight bytes. -/
def mallocUsage (alloc : SizeT) : SizeT := if alloc = 0 then 0 else ((alloc + 31) >>> 4) <<< 4

/-- A `Coin` object: its value, and `allocated_memory()` of the `prevector` that
    holds its script.  A move takes the memory along; the value does not fix it. -/
structure HeldCoin where
  coin : Coin
  allocated : SizeT
  deriving DecidableEq

namespace HeldCoin

def dynamicMemoryUsage (c : HeldCoin) : SizeT := mallocUsage c.allocated

def isSpent (c : HeldCoin) : Bool := c.coin.isSpent

/-- What `Coin::Clear` leaves, and the empty constructor: `CScript::clear`
    releases the memory. -/
def empty : HeldCoin := ⟨Coin.empty, 0⟩

/-- A coin read into a new object, from another cache or from the database: 28
    bytes of script fit into the object itself. -/
def copyOf (coin : Coin) : HeldCoin :=
  ⟨coin, if coin.out.scriptPubKey.length ≤ 28 then 0
    else BitVec.ofNat 64 coin.out.scriptPubKey.length⟩

end HeldCoin

/-- `CCoinsCacheEntry` with the object it holds. -/
structure MeteredEntry where
  coin : HeldCoin
  dirty : Bool
  fresh : Bool
  deriving DecidableEq

abbrev MeteredMap := AList fun _ : COutPoint => MeteredEntry

abbrev MeteredItem := Sigma fun _ : COutPoint => MeteredEntry

def MeteredEntry.usage (e : MeteredEntry) : SizeT := e.coin.dynamicMemoryUsage

/-- The two members that the accounting is about. -/
structure CoinStore where
  cacheCoins : MeteredMap
  cachedCoinsUsage : SizeT

def CoinStore.empty : CoinStore := ⟨∅, 0⟩

/-- `CCoinsView` with metered caches. -/
inductive MeteredView where
  | db (d : CCoinsViewDB)
  | cache (hashBlock : Uint256) (store : CoinStore) (base : MeteredView)

/-- A cache that counts `cachedCoinsUsage`. -/
structure MeteredCache where
  hashBlock : Uint256
  store : CoinStore
  base : MeteredView

def MeteredCache.toView (c : MeteredCache) : MeteredView := .cache c.hashBlock c.store c.base

/-! ## Fetching -/

def MeteredCache.emplaceFetched (c : MeteredCache) (o : COutPoint) :
    Option Coin × MeteredView → Option MeteredEntry × MeteredCache
  | (none, base') => (none, { c with base := base' })
  | (some tmp, base') =>
    let e : MeteredEntry := { coin := .copyOf tmp, dirty := false, fresh := tmp.isSpent }
    (some e, { c with
      store := { cacheCoins := c.store.cacheCoins.insert o e,
                 cachedCoinsUsage := c.store.cachedCoinsUsage + e.coin.dynamicMemoryUsage },
      base := base' })

def MeteredView.getCoin : MeteredView → COutPoint → Option Coin × MeteredView
  | .db d, o => (d.getCoin o, .db d)
  | .cache h s base, o =>
    match s.cacheCoins.lookup o with
    | some e => (e.coin.coin.unspent?, .cache h s base)
    | none =>
      let r := MeteredCache.emplaceFetched ⟨h, s, base⟩ o (base.getCoin o)
      (r.1.bind fun e => e.coin.coin.unspent?, r.2.toView)

def MeteredView.getBestBlock : MeteredView → Uint256 × MeteredView
  | .db d => (d.bestBlock, .db d)
  | .cache h s base =>
    if h = 0 then
      let r := base.getBestBlock
      (r.1, .cache r.1 s r.2)
    else (h, .cache h s base)

/-! ## Batch writes -/

/-- One step of the loop of `BatchWrite`. -/
def CoinStore.batchWriteEntry (s : CoinStore) (o : COutPoint) (e : MeteredEntry) :
    Except CoinsError CoinStore :=
  if e.dirty then
    match s.cacheCoins.lookup o with
    | none =>
      if e.fresh && e.coin.isSpent then .ok s
      else .ok {
        cacheCoins := s.cacheCoins.insert o { coin := e.coin, dirty := true, fresh := e.fresh },
        cachedCoinsUsage := s.cachedCoinsUsage + e.coin.dynamicMemoryUsage }
    | some itUs =>
      if e.fresh && !itUs.coin.isSpent then
        .error (.logicError "FRESH flag misapplied to cache entry for base transaction with spendable outputs")
      else if itUs.fresh && e.coin.isSpent then .ok {
        cacheCoins := s.cacheCoins.erase o,
        cachedCoinsUsage := s.cachedCoinsUsage - itUs.coin.dynamicMemoryUsage }
      else .ok {
        cacheCoins := s.cacheCoins.insert o { coin := e.coin, dirty := true, fresh := itUs.fresh },
        cachedCoinsUsage := s.cachedCoinsUsage - itUs.coin.dynamicMemoryUsage +
          e.coin.dynamicMemoryUsage }
  else .ok s

/-- How a `BatchWrite` ended: what it threw, how many entries it had taken out
    of the map it was given, and what it has written to. -/
structure BatchWritten (α : Type) where
  thrown : Option CoinsError
  consumed : Nat
  target : α

/-- The loop of `BatchWrite`; an entry leaves the map after its step. -/
def CoinStore.batchWriteLoop (s : CoinStore) : List MeteredItem → BatchWritten CoinStore
  | [] => ⟨none, 0, s⟩
  | ⟨o, e⟩ :: rest =>
    match s.batchWriteEntry o e with
    | .error err => ⟨some err, 0, s⟩
    | .ok s' =>
      let r := s'.batchWriteLoop rest
      ⟨r.thrown, r.consumed + 1, r.target⟩

def MeteredEntry.forget (e : MeteredEntry) : CCoinsCacheEntry :=
  { coin := e.coin.coin, dirty := e.dirty, fresh := e.fresh }

/-- The map without the accounts of memory. -/
def forgetMap (m : MeteredMap) : CCoinsMap := mapValues MeteredEntry.forget m

/-- `BatchWrite`, dispatched on the kind of view. -/
def MeteredView.batchWrite (v : MeteredView) (mapCoins : MeteredMap) (hashBlockIn : Uint256) :
    BatchWritten MeteredView :=
  match v with
  | .db d =>
    match d.batchWrite (forgetMap mapCoins) hashBlockIn with
    | .error err => ⟨some err, 0, .db d⟩
    | .ok d' => ⟨none, mapCoins.entries.length, .db d'⟩
  | .cache h s base =>
    let r := s.batchWriteLoop mapCoins.entries
    match r.thrown with
    | some err => ⟨some err, r.consumed, .cache h r.target base⟩
    | none => ⟨none, r.consumed, .cache hashBlockIn r.target base⟩

/-- What is left of a map when its first `n` entries are gone. -/
def dropEntries (m : MeteredMap) (n : Nat) : MeteredMap :=
  ⟨m.entries.drop n, m.nodupKeys.sublist (List.drop_sublist n m.entries)⟩

namespace MeteredCache

/-! ## Operations of a cache

Those that can throw return what they threw beside the state they leave. -/

def fetchCoin (c : MeteredCache) (o : COutPoint) : Option MeteredEntry × MeteredCache :=
  match c.store.cacheCoins.lookup o with
  | some e => (some e, c)
  | none => c.emplaceFetched o (c.base.getCoin o)

def addCoin (c : MeteredCache) (o : COutPoint) (coin : HeldCoin) (possible_overwrite : Bool) :
    Option CoinsError × MeteredCache :=
  if coin.isSpent then (some (.assertFailed "!coin.IsSpent()"), c)
  else if coin.coin.out.scriptPubKey.isUnspendable then (none, c)
  else
    let found := c.store.cacheCoins.lookup o
    let it := found.getD { coin := .empty, dirty := false, fresh := false }
    -- what an entry that was there holds is taken off before anything is checked
    let usage := if found.isSome then c.store.cachedCoinsUsage - it.coin.dynamicMemoryUsage
      else c.store.cachedCoinsUsage
    if !possible_overwrite && !it.coin.isSpent then
      (some (.logicError "Adding new coin that replaces non-pruned entry"),
        { c with store := { c.store with cachedCoinsUsage := usage } })
    else
      let fresh := !possible_overwrite && !it.dirty
      (none, { c with store := {
        cacheCoins := c.store.cacheCoins.insert o
          { coin := coin, dirty := true, fresh := it.fresh || fresh },
        cachedCoinsUsage := usage + coin.dynamicMemoryUsage } })

def spendCoin (c : MeteredCache) (o : COutPoint) : MeteredCache :=
  match c.fetchCoin o with
  | (none, c') => c'
  | (some e, c') =>
    let usage := c'.store.cachedCoinsUsage - e.coin.dynamicMemoryUsage
    if e.fresh then
      { c' with store := ⟨c'.store.cacheCoins.erase o, usage⟩ }
    else
      { c' with store :=
          ⟨c'.store.cacheCoins.insert o { e with coin := .empty, dirty := true }, usage⟩ }

def uncache (c : MeteredCache) (o : COutPoint) : MeteredCache :=
  match c.store.cacheCoins.lookup o with
  | some e =>
    if !e.dirty && !e.fresh then
      { c with store := ⟨c.store.cacheCoins.erase o,
          c.store.cachedCoinsUsage - e.coin.dynamicMemoryUsage⟩ }
    else c
  | none => c

def setBestBlock (c : MeteredCache) (hashBlockIn : Uint256) : MeteredCache :=
  { c with hashBlock := hashBlockIn }

def getBestBlock (c : MeteredCache) : MeteredCache :=
  if c.hashBlock = 0 then
    let r := c.base.getBestBlock
    { c with hashBlock := r.1, base := r.2 }
  else c

/-- `Flush`.  Where the parent throws, neither the map is cleared nor the sum
    set, but the entries the parent has taken are gone. -/
def flush (c : MeteredCache) : Option CoinsError × MeteredCache :=
  let r := c.base.batchWrite c.store.cacheCoins c.hashBlock
  match r.thrown with
  | some err => (some err, { c with
      store := { c.store with cacheCoins := dropEntries c.store.cacheCoins r.consumed },
      base := r.target })
  | none => (none, { c with store := .empty, base := r.target })

def batchWrite (c : MeteredCache) (mapCoins : MeteredMap) (hashBlockIn : Uint256) :
    Option CoinsError × MeteredCache :=
  let r := c.store.batchWriteLoop mapCoins.entries
  match r.thrown with
  | some err => (some err, { c with store := r.target })
  | none => (none, { c with hashBlock := hashBlockIn, store := r.target })

end MeteredCache

/-! ## Calls on a stack of caches -/

/-- A call of a method of one layer.  `GetCoin`, `HaveCoin` and `AccessCoin` all
    are `fetchCoin`. -/
inductive MeteredCall where
  | fetchCoin (o : COutPoint)
  | addCoin (o : COutPoint) (coin : HeldCoin) (possible_overwrite : Bool)
  | spendCoin (o : COutPoint)
  | uncache (o : COutPoint)
  | setBestBlock (hash : Uint256)
  | getBestBlock
  | batchWrite (mapCoins : MeteredMap) (hashBlock : Uint256)
  | flush

def MeteredCache.call (c : MeteredCache) : MeteredCall → Option CoinsError × MeteredCache
  | .fetchCoin o => (none, (c.fetchCoin o).2)
  | .addCoin o coin possible_overwrite => c.addCoin o coin possible_overwrite
  | .spendCoin o => (none, c.spendCoin o)
  | .uncache o => (none, c.uncache o)
  | .setBestBlock hash => (none, c.setBestBlock hash)
  | .getBestBlock => (none, c.getBestBlock)
  | .batchWrite mapCoins hashBlock => c.batchWrite mapCoins hashBlock
  | .flush => c.flush

/-- The stack after a call on the layer `depth` layers below the top, whether it
    returned or threw. -/
def MeteredView.callAt : MeteredView → Nat → MeteredCall → MeteredView
  | .db d, _, _ => .db d
  | .cache h s base, 0, call => (MeteredCache.call ⟨h, s, base⟩ call).2.toView
  | .cache h s base, depth + 1, call => .cache h s (base.callAt depth call)

/-- A cache is constructed over the top one, the top one is destroyed, or some
    layer is called. -/
inductive MeteredEvent where
  | push
  | pop
  | call (depth : Nat) (call : MeteredCall)

def MeteredView.step (v : MeteredView) : MeteredEvent → MeteredView
  | .push => .cache 0 .empty v
  | .pop =>
    match v with
    | .db d => .db d
    | .cache _ _ base => base
  | .call depth call => v.callAt depth call

end Rcoin
