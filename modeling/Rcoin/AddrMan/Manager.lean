/-
  The address manager: `CAddrInfo` and `CAddrMan` (src/addrman.h, src/addrman.cpp).

  An operation is `none` where an assertion fails.  Random numbers and clock readings
  are arguments; the hash and what is asked of a network address are parameters.
-/
import Rcoin.Lib.Grid
import Rcoin.Lib.Maps
import Rcoin.Lib.SortedMap
import Rcoin.Lib.SortedSet
import Rcoin.Serialize

namespace Rcoin

/-! ## Addresses -/

/-- The 16 bytes of an address, the first the lowest. -/
structure CNetAddr where
  ip : BitVec 128
  deriving DecidableEq

structure CService extends CNetAddr where
  port : UInt16
  deriving DecidableEq

structure CAddress extends CService where
  nServices : UInt64
  nTime : UInt32
  deriving DecidableEq

structure CAddrInfo extends CAddress where
  /-- Last try whatsoever by us. -/
  nLastTry : Int64 := 0
  /-- Last counted attempt. -/
  nLastCountAttempt : Int64 := 0
  /-- Where knowledge about this address first came from. -/
  source : CNetAddr
  /-- Last successful connection by us. -/
  nLastSuccess : Int64 := 0
  /-- Connection attempts since the last successful one. -/
  nAttempts : Int32 := 0
  /-- Reference count in the new table. -/
  nRefCount : Int := 0
  fInTried : Bool := false
  /-- The position in `vRandom`. -/
  nRandomPos : Int := -1
  deriving DecidableEq

/-- `CAddrInfo()`. -/
def CAddrInfo.default : CAddrInfo :=
  { ip := 0, port := 0, nServices := 0, nTime := 100000000, source := ⟨0⟩ }

def CService.getKey (s : CService) : List UInt8 :=
  leBytes 16 s.ip.toNat ++ [(s.port / 0x100).toUInt8, (s.port &&& 0x0FF).toUInt8]

def ADDRMAN_TRIED_BUCKET_COUNT : Nat := 256

def ADDRMAN_NEW_BUCKET_COUNT : Nat := 1024

def ADDRMAN_BUCKET_SIZE : Nat := 64

def ADDRMAN_TRIED_BUCKETS_PER_GROUP : Nat := 8

def ADDRMAN_NEW_BUCKETS_PER_SOURCE_GROUP : Nat := 64

def ADDRMAN_NEW_BUCKETS_PER_ADDRESS : Int := 8

def ADDRMAN_HORIZON_DAYS : Int := 30

def ADDRMAN_RETRIES : Int := 3

def ADDRMAN_MAX_FAILURES : Int := 10

def ADDRMAN_MIN_FAIL_DAYS : Int := 7

def ADDRMAN_REPLACEMENT_HOURS : Int := 4

def ADDRMAN_GETADDR_MAX_PCT : Nat := 23

def ADDRMAN_GETADDR_MAX : Nat := 2500

def ADDRMAN_SET_TRIED_COLLISION_SIZE : Nat := 10

instance : NeZero ADDRMAN_TRIED_BUCKET_COUNT := ⟨by decide⟩

instance : NeZero ADDRMAN_NEW_BUCKET_COUNT := ⟨by decide⟩

instance : NeZero ADDRMAN_BUCKET_SIZE := ⟨by decide⟩

/-- What the address manager asks elsewhere. -/
structure AddrManEnv where
  /-- `GetHash().GetCheapHash()` of what was written to a `CHashWriter`. -/
  cheapHash : List UInt8 → UInt64
  getGroup : CNetAddr → List UInt8
  isRoutable : CNetAddr → Bool
  isValid : CNetAddr → Bool

namespace AddrManEnv

variable (env : AddrManEnv)

def getTriedBucket (nKey : Uint256) (s : CService) : Fin ADDRMAN_TRIED_BUCKET_COUNT :=
  let hash1 := env.cheapHash (leBytes 32 nKey ++ serializeBytes s.getKey)
  let hash2 := env.cheapHash (leBytes 32 nKey ++ serializeBytes (env.getGroup s.toCNetAddr) ++
    leBytes 8 (hash1.toNat % ADDRMAN_TRIED_BUCKETS_PER_GROUP))
  Fin.ofNat _ hash2.toNat

def getNewBucket (nKey : Uint256) (s : CService) (src : CNetAddr) :
    Fin ADDRMAN_NEW_BUCKET_COUNT :=
  let vchSourceGroupKey := env.getGroup src
  let hash1 := env.cheapHash (leBytes 32 nKey ++ serializeBytes (env.getGroup s.toCNetAddr) ++
    serializeBytes vchSourceGroupKey)
  let hash2 := env.cheapHash (leBytes 32 nKey ++ serializeBytes vchSourceGroupKey ++
    leBytes 8 (hash1.toNat % ADDRMAN_NEW_BUCKETS_PER_SOURCE_GROUP))
  Fin.ofNat _ hash2.toNat

/-- `GetBucketPosition`; `N` for the new table, `K` for the tried one. -/
def getBucketPosition (nKey : Uint256) (fNew : Bool) (nBucket : Nat) (s : CService) :
    Fin ADDRMAN_BUCKET_SIZE :=
  let hash1 := env.cheapHash (leBytes 32 nKey ++ [if fNew then 0x4e else 0x4b] ++
    leBytes 4 nBucket ++ serializeBytes s.getKey)
  Fin.ofNat _ hash1.toNat

/-- The positions in the buckets of the new table. -/
def newPos (nKey : Uint256) (s : CService) (nBucket : Fin ADDRMAN_NEW_BUCKET_COUNT) :
    Fin ADDRMAN_BUCKET_SIZE := env.getBucketPosition nKey true nBucket s

/-- The position in the bucket of the tried table. -/
def triedPos (nKey : Uint256) (s : CService) : Fin ADDRMAN_BUCKET_SIZE :=
  env.getBucketPosition nKey false (env.getTriedBucket nKey s) s

end AddrManEnv

def CAddrInfo.isTerrible (info : CAddrInfo) (nNow : Int64) : Bool :=
  let nTime : Int := info.nTime.toNat
  -- never remove things tried in the last minute
  if info.nLastTry ≠ 0 ∧ info.nLastTry.toInt ≥ nNow.toInt - 60 then false
  -- came in a flying DeLorean
  else if nTime > nNow.toInt + 10 * 60 then true
  -- not seen in recent history
  else if nTime = 0 ∨ nNow.toInt - nTime > ADDRMAN_HORIZON_DAYS * 24 * 60 * 60 then true
  else if info.nLastSuccess = 0 ∧ info.nAttempts.toInt ≥ ADDRMAN_RETRIES then true
  else if nNow.toInt - info.nLastSuccess.toInt > ADDRMAN_MIN_FAIL_DAYS * 24 * 60 * 60 ∧
      info.nAttempts.toInt ≥ ADDRMAN_MAX_FAILURES then true
  else false

/-! ## The manager -/

/-- The tables, as the members of the class. -/
structure CAddrMan where
  nIdCount : Int
  mapInfo : SortedMap Int CAddrInfo
  mapAddr : AList fun _ : CNetAddr => Int
  /-- Randomly-ordered vector of all nIds. -/
  vRandom : List Int
  nTried : Int
  vvTried : Fin ADDRMAN_TRIED_BUCKET_COUNT → Fin ADDRMAN_BUCKET_SIZE → Int
  nNew : Int
  vvNew : Fin ADDRMAN_NEW_BUCKET_COUNT → Fin ADDRMAN_BUCKET_SIZE → Int
  nLastGood : Int64
  m_tried_collisions : SortedSet Int
  nKey : Uint256

namespace CAddrMan

/-- `Clear`; `GetRandHash()` gives the key. -/
def clear (m : CAddrMan) (randHash : Uint256) : CAddrMan :=
  { m with
    vRandom := []
    nKey := randHash
    vvNew := fun _ _ => -1
    vvTried := fun _ _ => -1
    nIdCount := 0
    nTried := 0
    nNew := 0
    nLastGood := 1
    mapInfo := SortedMap.empty
    mapAddr := ∅ }

/-- `CAddrMan()`. -/
def new (randHash : Uint256) : CAddrMan where
  nIdCount := 0
  mapInfo := SortedMap.empty
  mapAddr := ∅
  vRandom := []
  nTried := 0
  vvTried _ _ := -1
  nNew := 0
  vvNew _ _ := -1
  nLastGood := 1
  m_tried_collisions := ∅
  nKey := randHash

/-- A change of the entry that a reference is to. -/
def modifyInfo (m : CAddrMan) (nId : Int) (f : CAddrInfo → CAddrInfo) : CAddrMan :=
  match m.mapInfo.lookup nId with
  | some info => { m with mapInfo := m.mapInfo.insert nId (f info) }
  | none => m

/-- `mapInfo[nId]`: an entry that is not there is made. -/
def infoAt (m : CAddrMan) (nId : Int) : CAddrInfo × CAddrMan :=
  match m.mapInfo.lookup nId with
  | some info => (info, m)
  | none => (.default, { m with mapInfo := m.mapInfo.insert nId .default })

def find (m : CAddrMan) (addr : CNetAddr) : Option (Int × CAddrInfo) := do
  let nId ← m.mapAddr.lookup addr
  let info ← m.mapInfo.lookup nId
  return (nId, info)

def create (m : CAddrMan) (addr : CAddress) (addrSource : CNetAddr) : Int × CAddrMan :=
  let nId := m.nIdCount
  (nId, { m with
    nIdCount := (m.nIdCount + 1).bmod (2 ^ 32)
    mapInfo := m.mapInfo.insert nId
      { addr with source := addrSource, nRandomPos := m.vRandom.length }
    mapAddr := m.mapAddr.insert addr.toCNetAddr nId
    vRandom := m.vRandom ++ [nId] })

def swapRandom (m : CAddrMan) (nRndPos1 nRndPos2 : Nat) : Option CAddrMan :=
  if nRndPos1 = nRndPos2 then some m
  else
    match m.vRandom[nRndPos1]?, m.vRandom[nRndPos2]? with
    | some nId1, some nId2 =>
      if (m.mapInfo.lookup nId1).isSome ∧ (m.mapInfo.lookup nId2).isSome then
        let m := m.modifyInfo nId1 fun info => { info with nRandomPos := nRndPos2 }
        let m := m.modifyInfo nId2 fun info => { info with nRandomPos := nRndPos1 }
        some { m with vRandom := (m.vRandom.set nRndPos1 nId2).set nRndPos2 nId1 }
      else none
    | _, _ => none

def delete (m : CAddrMan) (nId : Int) : Option CAddrMan := do
  let info ← m.mapInfo.lookup nId
  if info.fInTried ∨ info.nRefCount ≠ 0 then none
  else
    let m ← m.swapRandom info.nRandomPos.toNat (m.vRandom.length - 1)
    some { m with
      vRandom := m.vRandom.dropLast
      mapAddr := m.mapAddr.erase info.toCNetAddr
      mapInfo := m.mapInfo.erase nId
      nNew := m.nNew - 1 }

def clearNew (m : CAddrMan) (nUBucket : Fin ADDRMAN_NEW_BUCKET_COUNT)
    (nUBucketPos : Fin ADDRMAN_BUCKET_SIZE) : Option CAddrMan :=
  if m.vvNew nUBucket nUBucketPos ≠ -1 then
    let nIdDelete := m.vvNew nUBucket nUBucketPos
    let (infoDelete, m) := m.infoAt nIdDelete
    if ¬infoDelete.nRefCount > 0 then none
    else
      let m := m.modifyInfo nIdDelete fun info => { info with nRefCount := info.nRefCount - 1 }
      let m := { m with vvNew := Grid.set m.vvNew nUBucket nUBucketPos (-1) }
      if infoDelete.nRefCount - 1 = 0 then m.delete nIdDelete else some m
  else some m

variable (env : AddrManEnv)

/-- The position of an entry in a bucket of the new table. -/
def newPos (m : CAddrMan) (info : CAddrInfo) : Fin ADDRMAN_NEW_BUCKET_COUNT →
    Fin ADDRMAN_BUCKET_SIZE := env.newPos m.nKey info.toCService

/-- The bucket of an entry in the tried table, and its position there. -/
def triedBucket (m : CAddrMan) (info : CAddrInfo) : Fin ADDRMAN_TRIED_BUCKET_COUNT :=
  env.getTriedBucket m.nKey info.toCService

def triedPos (m : CAddrMan) (info : CAddrInfo) : Fin ADDRMAN_BUCKET_SIZE :=
  env.triedPos m.nKey info.toCService

/-- The body of the loop of `MakeTried`: the entry leaves a bucket of the new table. -/
def leaveBucket (info : CAddrInfo) (nId : Int) (m : CAddrMan)
    (bucket : Fin ADDRMAN_NEW_BUCKET_COUNT) : CAddrMan :=
  let pos := m.newPos env info bucket
  if m.vvNew bucket pos = nId then
    { m with vvNew := Grid.set m.vvNew bucket pos (-1) }.modifyInfo nId fun info =>
      { info with nRefCount := info.nRefCount - 1 }
  else m

/-- The entry leaves all buckets of the new table. -/
def leaveBuckets (m : CAddrMan) (info : CAddrInfo) (nId : Int) : CAddrMan :=
  (List.finRange ADDRMAN_NEW_BUCKET_COUNT).foldl (leaveBucket env info nId) m

/-- The tried entry in a position goes back to the new table. -/
def evict (m : CAddrMan) (nKBucket : Fin ADDRMAN_TRIED_BUCKET_COUNT)
    (nKBucketPos : Fin ADDRMAN_BUCKET_SIZE) : Option CAddrMan :=
  if m.vvTried nKBucket nKBucketPos ≠ -1 then do
    let nIdEvict := m.vvTried nKBucket nKBucketPos
    let infoOld ← m.mapInfo.lookup nIdEvict
    -- remove the to-be-evicted item from the tried set
    let m := m.modifyInfo nIdEvict fun info => { info with fInTried := false }
    let m := { m with
      vvTried := Grid.set m.vvTried nKBucket nKBucketPos (-1)
      nTried := m.nTried - 1 }
    -- find which new bucket it belongs to
    let nUBucket := env.getNewBucket m.nKey infoOld.toCService infoOld.source
    let nUBucketPos := m.newPos env infoOld nUBucket
    let m ← m.clearNew nUBucket nUBucketPos
    if m.vvNew nUBucket nUBucketPos ≠ -1 then none
    else
      -- enter it into the new set again
      let m := m.modifyInfo nIdEvict fun info => { info with nRefCount := 1 }
      some { m with
        vvNew := Grid.set m.vvNew nUBucket nUBucketPos nIdEvict
        nNew := m.nNew + 1 }
  else some m

def makeTried (m : CAddrMan) (nId : Int) : Option CAddrMan := do
  let info ← m.mapInfo.lookup nId
  -- remove the entry from all new buckets
  let m := m.leaveBuckets env info nId
  let m := { m with nNew := m.nNew - 1 }
  let left ← m.mapInfo.lookup nId
  if left.nRefCount ≠ 0 then none
  else
    let nKBucket := m.triedBucket env info
    let nKBucketPos := m.triedPos env info
    let m ← m.evict env nKBucket nKBucketPos
    if m.vvTried nKBucket nKBucketPos ≠ -1 then none
    else
      let m := { m with
        vvTried := Grid.set m.vvTried nKBucket nKBucketPos nId
        nTried := m.nTried + 1 }
      some (m.modifyInfo nId fun info => { info with fInTried := true })

/-- `Good_`; `nRnd` is the bucket where its search begins. -/
def good_ (m : CAddrMan) (addr : CService) (test_before_evict : Bool) (nTime : Int64)
    (nRnd : Nat) : Option CAddrMan :=
  let m := { m with nLastGood := nTime }
  match m.find addr.toCNetAddr with
  | none => some m
  | some (nId, info) =>
    -- check whether we are talking about the exact same CService (including same port)
    if info.toCService ≠ addr then some m
    else
      let m := m.modifyInfo nId fun info =>
        { info with nLastSuccess := nTime, nLastTry := nTime, nAttempts := 0 }
      if info.fInTried then some m
      else
        -- find a bucket it is in now
        let nUBucket := (List.range ADDRMAN_NEW_BUCKET_COUNT).find? fun n =>
          let nB := Fin.ofNat ADDRMAN_NEW_BUCKET_COUNT (n + nRnd)
          m.vvNew nB (m.newPos env info nB) = nId
        if nUBucket.isNone then some m
        -- will moving this address into tried evict another entry?
        else if test_before_evict ∧
            m.vvTried (m.triedBucket env info) (m.triedPos env info) ≠ -1 then
          if m.m_tried_collisions.size < ADDRMAN_SET_TRIED_COLLISION_SIZE then
            some { m with m_tried_collisions := m.m_tried_collisions.insert nId }
          else some m
        else m.makeTried env nId

/-- The end of `Add_`: the entry goes to the bucket of the source. -/
def place (m : CAddrMan) (nId : Int) (source : CNetAddr) (nNow : Int64) : Option CAddrMan := do
  let pinfo ← m.mapInfo.lookup nId
  let nUBucket := env.getNewBucket m.nKey pinfo.toCService source
  let nUBucketPos := m.newPos env pinfo nUBucket
  if m.vvNew nUBucket nUBucketPos ≠ nId then
    let (fInsert, m) :=
      if m.vvNew nUBucket nUBucketPos = -1 then (true, m)
      else
        let (infoExisting, m) := m.infoAt (m.vvNew nUBucket nUBucketPos)
        (infoExisting.isTerrible nNow || decide (infoExisting.nRefCount > 1 ∧ pinfo.nRefCount = 0),
          m)
    if fInsert then
      let m ← m.clearNew nUBucket nUBucketPos
      let m := m.modifyInfo nId fun info => { info with nRefCount := info.nRefCount + 1 }
      some { m with vvNew := Grid.set m.vvNew nUBucket nUBucketPos nId }
    else if pinfo.nRefCount = 0 then m.delete nId
    else some m
  else some m

/-- The update of `nTime` and `nServices` in `Add_`. -/
def refresh (addr : CAddress) (nTimePenalty : Int) (nNow : Int64) (info : CAddrInfo) : CAddrInfo :=
  let nTime : Int := addr.nTime.toNat
  let fCurrentlyOnline : Bool := nNow.toInt - nTime < 24 * 60 * 60
  let nUpdateInterval : Int := if fCurrentlyOnline then 60 * 60 else 24 * 60 * 60
  { info with
    nTime := if addr.nTime ≠ 0 ∧ (info.nTime = 0 ∨
        (info.nTime.toNat : Int) < nTime - nUpdateInterval - nTimePenalty) then
      UInt32.ofNat (max 0 (nTime - nTimePenalty)).toNat else info.nTime
    nServices := info.nServices ||| addr.nServices }

/-- `Add_`, with what it returns; `now` and `now'` are its readings of the clock, and `rand`
    its random number. -/
def add_ (m : CAddrMan) (addr : CAddress) (source : CNetAddr) (nTimePenalty : Int64)
    (now now' : Int64) (rand : Nat) : Option (Bool × CAddrMan) :=
  if !env.isRoutable addr.toCNetAddr then some (false, m)
  else
    -- do not set a penalty for a source's self-announcement
    let nTimePenalty := if addr.toCNetAddr = source then 0 else nTimePenalty.toInt
    match m.find addr.toCNetAddr with
    | some (nId, info) =>
      let pinfo := refresh addr nTimePenalty now info
      let m := m.modifyInfo nId (refresh addr nTimePenalty now)
      -- do not update if no new information is present
      if addr.nTime = 0 ∨ (pinfo.nTime ≠ 0 ∧ addr.nTime ≤ pinfo.nTime) then some (false, m)
      else if pinfo.fInTried then some (false, m)
      else if pinfo.nRefCount = ADDRMAN_NEW_BUCKETS_PER_ADDRESS then some (false, m)
      -- stochastic test: previous nRefCount == N: 2^N times harder to increase it
      else
        let nFactor := 2 ^ pinfo.nRefCount.toNat
        if nFactor > 1 ∧ rand % nFactor ≠ 0 then some (false, m)
        else (m.place env nId source now').map (false, ·)
    | none =>
      let (nId, m) := m.create addr source
      let m := m.modifyInfo nId fun info => { info with
        nTime := UInt32.ofNat (max 0 (info.nTime.toNat - nTimePenalty)).toNat }
      let m := { m with nNew := m.nNew + 1 }
      (m.place env nId source now').map (true, ·)

/-- The entry of an exact `CService`. -/
def findService (m : CAddrMan) (addr : CService) : Option (Int × CAddrInfo) :=
  (m.find addr.toCNetAddr).filter fun e => e.2.toCService = addr

def attempt_ (m : CAddrMan) (addr : CService) (fCountFailure : Bool) (nTime : Int64) : CAddrMan :=
  match m.findService addr with
  | none => m
  | some (nId, _) => m.modifyInfo nId fun info =>
    let info := { info with nLastTry := nTime }
    if fCountFailure ∧ info.nLastCountAttempt < m.nLastGood then
      { info with nLastCountAttempt := nTime, nAttempts := info.nAttempts + 1 }
    else info

def connected_ (m : CAddrMan) (addr : CService) (nTime : Int64) : CAddrMan :=
  match m.findService addr with
  | none => m
  | some (nId, _) => m.modifyInfo nId fun info =>
    let nUpdateInterval := 20 * 60
    if nTime.toInt - info.nTime.toNat > nUpdateInterval then
      { info with nTime := UInt32.ofNat (nTime.toInt % 2 ^ 32).toNat }
    else info

def setServices_ (m : CAddrMan) (addr : CService) (nServices : UInt64) : CAddrMan :=
  match m.findService addr with
  | none => m
  | some (nId, _) => m.modifyInfo nId fun info => { info with nServices := nServices }

/-! ## Selection -/

/-- The walk over a table to a slot that is taken, by random numbers; `none` when they
    run out before. -/
def probe {n : Nat} [NeZero n] (vv : Fin n → Fin ADDRMAN_BUCKET_SIZE → Int) :
    Fin n → Fin ADDRMAN_BUCKET_SIZE → List (Nat × Nat) → Option Int
  | nBucket, nPos, steps =>
    if vv nBucket nPos ≠ -1 then some (vv nBucket nPos)
    else
      match steps with
      | [] => none
      | step :: steps =>
        probe vv (Fin.ofNat n (nBucket + step.1)) (Fin.ofNat ADDRMAN_BUCKET_SIZE (nPos + step.2))
          steps

/-- The random numbers of one round of `Select_`; `chance` is its last comparison, of
    floating-point numbers. -/
structure SelectRound where
  nBucket : Nat
  nPos : Nat
  steps : List (Nat × Nat)
  chance : CAddrInfo → Bool

/-- The rounds of `Select_` over a table: what it returns, or `none` when they run out. -/
def selectFrom {n : Nat} [NeZero n] (m : CAddrMan)
    (vv : Fin n → Fin ADDRMAN_BUCKET_SIZE → Int) : List SelectRound → Option (Option CAddrInfo)
  | [] => some none
  | round :: rounds =>
    match probe vv (Fin.ofNat n round.nBucket) (Fin.ofNat ADDRMAN_BUCKET_SIZE round.nPos)
        round.steps with
    | none => some none
    | some nId =>
      match m.mapInfo.lookup nId with
      | none => none
      | some info => if round.chance info then some (some info) else selectFrom m vv rounds

def select_ (m : CAddrMan) (newOnly : Bool) (coin : Bool) (rounds : List SelectRound) :
    Option (Option CAddrInfo) :=
  if m.vRandom.length = 0 then some (some .default)
  else if newOnly ∧ m.nNew = 0 then some (some .default)
  -- use a 50% chance for choosing between tried and new table entries
  else if !newOnly ∧ m.nTried > 0 ∧ (m.nNew = 0 ∨ coin) then m.selectFrom m.vvTried rounds
  else m.selectFrom m.vvNew rounds

/-- The loop of `GetAddr_` from index `n` on, with the rounds that are left. -/
def getAddrFrom (rand : Nat → Nat) (now : Nat → Int64) (nNodes : Nat) :
    Nat → Nat → List CAddress → CAddrMan → Option (List CAddress × CAddrMan)
  | 0, _, vAddr, m => some (vAddr, m)
  | rounds + 1, n, vAddr, m =>
    if vAddr.length ≥ nNodes then some (vAddr, m)
    else do
      let nRndPos := rand n % (m.vRandom.length - n) + n
      let m ← m.swapRandom n nRndPos
      let nId ← m.vRandom[n]?
      let ai ← m.mapInfo.lookup nId
      let vAddr := if ai.isTerrible (now n) then vAddr else vAddr ++ [ai.toCAddress]
      getAddrFrom rand now nNodes rounds (n + 1) vAddr m

def getAddr_ (m : CAddrMan) (rand : Nat → Nat) (now : Nat → Int64) :
    Option (List CAddress × CAddrMan) :=
  let nNodes := min (ADDRMAN_GETADDR_MAX_PCT * m.vRandom.length / 100) ADDRMAN_GETADDR_MAX
  getAddrFrom rand now nNodes m.vRandom.length 0 [] m

/-! ## Collisions -/

/-- An access of `mapInfo` by an id, with whether the id had an entry. -/
abbrev Access := Int × Bool

def access (m : CAddrMan) (nId : Int) : Access := (nId, (m.mapInfo.lookup nId).isSome)

/-- One round of `ResolveCollisions_`: the manager, and the accesses to `mapInfo`.
    `now` are the readings of the clock, and `nRnd` the random number of `Good_`. -/
def resolveCollision (now : Nat → Int64) (nRnd : Nat) (m : CAddrMan) (id_new : Int) :
    Option (CAddrMan × List Access) :=
  let erase (m : CAddrMan) : CAddrMan :=
    { m with m_tried_collisions := m.m_tried_collisions.erase id_new }
  -- if id_new not found in mapInfo remove it from m_tried_collisions
  match m.mapInfo.lookup id_new with
  | none => some (erase m, [])
  | some info_new =>
    let accesses := [m.access id_new]
    let id_old := m.vvTried (m.triedBucket env info_new) (m.triedPos env info_new)
    -- id_new may no longer map to a valid address
    if !env.isValid info_new.toCNetAddr then some (erase m, accesses)
    else if id_old ≠ -1 then
      let accesses := accesses ++ [m.access id_old]
      let (info_old, m) := m.infoAt id_old
      -- has successfully connected in last X hours
      if (now 0).toInt - info_old.nLastSuccess.toInt < ADDRMAN_REPLACEMENT_HOURS * (60 * 60) then
        some (erase m, accesses)
      -- attempted to connect and failed in last X hours
      else if (now 1).toInt - info_old.nLastTry.toInt < ADDRMAN_REPLACEMENT_HOURS * (60 * 60) then
        -- give address at least 60 seconds to successfully connect
        if (now 2).toInt - info_old.nLastTry.toInt > 60 then
          (m.good_ env info_new.toCService false (now 3) nRnd).map fun m => (erase m, accesses)
        else some (m, accesses)
      else some (m, accesses)
    -- collision is not actually a collision anymore
    else (m.good_ env info_new.toCService false (now 0) nRnd).map fun m => (erase m, accesses)

/-- The rounds over the ids that are left. -/
def resolveFrom (now : Int → Nat → Int64) (nRnd : Int → Nat) :
    List Int → CAddrMan → Option (CAddrMan × List Access)
  | [], m => some (m, [])
  | id_new :: ids, m => do
    let (m, accesses) ← m.resolveCollision env (now id_new) (nRnd id_new) id_new
    let (m, accesses') ← resolveFrom now nRnd ids m
    return (m, accesses ++ accesses')

def resolveCollisions_ (m : CAddrMan) (now : Int → Nat → Int64) (nRnd : Int → Nat) :
    Option (CAddrMan × List Access) :=
  m.resolveFrom env now nRnd m.m_tried_collisions.elems

/-- The id that `SelectTriedCollision_` picks. -/
def pickCollision (m : CAddrMan) (rand : Nat) : Option Int :=
  m.m_tried_collisions.elems[rand % m.m_tried_collisions.size]?

/-- `SelectTriedCollision_`: what it returns, the manager, and the accesses. -/
def selectTriedCollision_ (m : CAddrMan) (rand : Nat) : CAddrInfo × CAddrMan × List Access :=
  match m.pickCollision rand with
  | none => (.default, m, [])
  | some id_new =>
    -- if id_new not found in mapInfo remove it from m_tried_collisions
    match m.mapInfo.lookup id_new with
    | none =>
      (.default, { m with m_tried_collisions := m.m_tried_collisions.erase id_new }, [])
    | some newInfo =>
      let id_old := m.vvTried (m.triedBucket env newInfo) (m.triedPos env newInfo)
      let (info, m') := m.infoAt id_old
      (info, m', [m.access id_new, m.access id_old])

end CAddrMan

end Rcoin
