/-
  Compact blocks (src/blockencodings.h, src/blockencodings.cpp): the list of
  short transaction ids that is made from a block, the block that is put
  together from the mempool, `InitData`, and the one that is completed with the
  missing transactions, `FillBlock`.

  Positions in a block are 16-bit numbers here as in the source, counts are
  64-bit.  The hashes behind short ids and the buckets of `std::unordered_map`
  are parameters.
-/
import Rcoin.Chain.BlockIndex
import Rcoin.Chain.Validation

namespace Rcoin

/-- `WITNESS_SCALE_FACTOR * 10`: the lower bound for the size of a serialized
    transaction. -/
def MIN_SERIALIZABLE_TRANSACTION_WEIGHT : Nat := WITNESS_SCALE_FACTOR * 10

/-- `SetNull`. -/
def CBlockHeader.null : CBlockHeader :=
  { hash := 0, hashPrevBlock := 0, nVersion := 0, nTime := 0, nBits := 0 }

def CBlockHeader.isNull (header : CBlockHeader) : Bool := header.nBits == 0

/-- The block with a header and its transactions. -/
def CBlockHeader.toBlock (header : CBlockHeader) (vtx : List CTransaction) : CBlock where
  hash := header.hash
  hashPrevBlock := header.hashPrevBlock
  hashMerkleRoot := header.hashMerkleRoot
  vtx := vtx

def CTransaction.isNull (tx : CTransaction) : Bool := tx.vin.isEmpty && tx.vout.isEmpty

/-- What compact blocks are built on. -/
structure CompactEnv where
  /-- `shorttxidk0` and `shorttxidk1`, hashed from the header and the nonce. -/
  shortTxIDSelector : CBlockHeader → UInt64 → UInt64 × UInt64
  sipHashUint256 : UInt64 → UInt64 → Uint256 → UInt64
  getWitnessHash : CTransaction → Uint256
  /-- `shorttxids.bucket_size(shorttxids.bucket(id))` after the given ids were
      inserted. -/
  bucketSize : List UInt64 → UInt64 → Nat
  /-- What `CheckBlock` is given. -/
  validation : ValidationEnv

/-! ## `CBlockHeaderAndShortTxIDs` -/

/-- `index` is an offset since the last prefilled transaction. -/
structure PrefilledTransaction where
  index : UInt16
  tx : CTransaction

structure CBlockHeaderAndShortTxIDs where
  header : CBlockHeader
  nonce : UInt64
  shorttxids : List UInt64
  prefilledtxn : List PrefilledTransaction

/-- `GetShortID` under the keys of a header and a nonce: six bytes. -/
def shortID (env : CompactEnv) (header : CBlockHeader) (nonce : UInt64) (txhash : Uint256) : UInt64 :=
  let (shorttxidk0, shorttxidk1) := env.shortTxIDSelector header nonce
  env.sipHashUint256 shorttxidk0 shorttxidk1 txhash &&& 0xffffffffffff

def CBlockHeaderAndShortTxIDs.getShortID (env : CompactEnv) (c : CBlockHeaderAndShortTxIDs)
    (txhash : Uint256) : UInt64 := shortID env c.header c.nonce txhash

/-- The hash under which a transaction of the block is listed. -/
def listedHash (env : CompactEnv) (fUseWTXID : Bool) (tx : CTransaction) : Uint256 :=
  if fUseWTXID then env.getWitnessHash tx else tx.hash

/-- The constructor from a block; `nonce` is drawn at random. -/
def CBlockHeaderAndShortTxIDs.ofBlock (env : CompactEnv) (nonce : UInt64) (header : CBlockHeader)
    (vtx : List CTransaction) (fUseWTXID : Bool) : CBlockHeaderAndShortTxIDs where
  header := header
  nonce := nonce
  shorttxids := vtx.tail.map fun tx => shortID env header nonce (listedHash env fUseWTXID tx)
  prefilledtxn := vtx.head?.toList.map fun tx => { index := 0, tx := tx }

/-! ## `PartiallyDownloadedBlock` -/

inductive ReadStatus where
  | ok
  | invalid
  | failed
  | checkblockFailed
  deriving DecidableEq, Repr

/-- What ends a call instead of a return. -/
inductive CompactError where
  | assertFailed (what : String)
  | nullDereference
  deriving DecidableEq, Repr

/-- A block while its transactions arrive. -/
structure PartiallyDownloadedBlock where
  header : CBlockHeader := .null
  txn_available : List (Option CTransaction) := []
  prefilled_count : UInt64 := 0
  mempool_count : UInt64 := 0
  extra_count : UInt64 := 0

/-- Whether there is a transaction at a position. -/
def isAvailable (txn_available : List (Option CTransaction)) (i : Nat) : Bool :=
  txn_available[i]?.join.isSome

/-- The loop over the prefilled transactions, `i` of them done; `none` is
    `READ_STATUS_INVALID`. -/
def prefillLoop (nShort : Nat) : Nat → Int → List PrefilledTransaction →
    List (Option CTransaction) → Option (List (Option CTransaction))
  | _, _, [], txn_available => some txn_available
  | i, lastprefilledindex, p :: rest, txn_available =>
    if p.tx.isNull then none
    else
      let lastprefilledindex := lastprefilledindex + (p.index.toNat + 1)
      if lastprefilledindex > 65535 then none
      else if lastprefilledindex.toNat > nShort + i then none
      else
        prefillLoop nShort (i + 1) lastprefilledindex rest
          (txn_available.set lastprefilledindex.toNat (some p.tx))

/-- `while (txn_available[i + index_offset]) index_offset++;`, for a number of
    steps after which a 16-bit offset has seen all its values. -/
def skipAvailable (txn_available : List (Option CTransaction)) (i : Nat) : Nat → UInt16 → UInt16
  | 0, index_offset => index_offset
  | steps + 1, index_offset =>
    if isAvailable txn_available (i + index_offset.toNat) then
      skipAvailable txn_available i steps (index_offset + 1)
    else index_offset

/-- The map from short ids to positions. -/
abbrev ShortIDMap := AList fun _ : UInt64 => UInt16

/-- The loop over the short ids from index `i` on, which were preceded by those
    in `inserted`; `none` is `READ_STATUS_FAILED`. -/
def indexLoop (env : CompactEnv) (txn_available : List (Option CTransaction)) :
    Nat → UInt16 → List UInt64 → List UInt64 → ShortIDMap → Option ShortIDMap
  | _, _, [], _, shorttxids => some shorttxids
  | i, index_offset, id :: rest, inserted, shorttxids =>
    let index_offset := skipAvailable txn_available i 65536 index_offset
    let inserted := inserted ++ [id]
    if env.bucketSize inserted id > 12 then none
    else
      indexLoop env txn_available (i + 1) index_offset rest inserted
        (shorttxids.insert id (UInt16.ofNat (i + index_offset.toNat)))

/-- What the scan of the mempool and of the extra transactions updates. -/
structure ScanState where
  txn_available : List (Option CTransaction)
  have_txn : List Bool
  mempool_count : UInt64
  extra_count : UInt64

/-- The body of the loop over the mempool. -/
def scanPoolTx (slot : Option UInt16) (tx : CTransaction) (s : ScanState) : ScanState :=
  match slot with
  | none => s
  | some p =>
    if !s.have_txn.getD p.toNat false then
      { s with
        txn_available := s.txn_available.set p.toNat (some tx)
        have_txn := s.have_txn.set p.toNat true
        mempool_count := s.mempool_count + 1 }
    else if isAvailable s.txn_available p.toNat then
      -- two transactions of the mempool match the short id: it is requested
      { s with
        txn_available := s.txn_available.set p.toNat none
        mempool_count := s.mempool_count - 1 }
    else s

/-- The loop over `vTxHashes`. -/
def scanPool (env : CompactEnv) (c : CBlockHeaderAndShortTxIDs) (shorttxids : ShortIDMap) :
    List (Uint256 × CTransaction) → ScanState → ScanState
  | [], s => s
  | (hash, tx) :: rest, s =>
    let s := scanPoolTx (shorttxids.lookup (c.getShortID env hash)) tx s
    if s.mempool_count == UInt64.ofNat shorttxids.keys.length then s
    else scanPool env c shorttxids rest s

/-- The body of the loop over the extra transactions. -/
def scanExtraTx (env : CompactEnv) (slot : Option UInt16) (tx : Option CTransaction)
    (s : ScanState) : Except CompactError ScanState :=
  match slot with
  | none => .ok s
  | some p =>
    if !s.have_txn.getD p.toNat false then
      .ok { txn_available := s.txn_available.set p.toNat tx
            have_txn := s.have_txn.set p.toNat true
            mempool_count := s.mempool_count + 1
            extra_count := s.extra_count + 1 }
    else
      match s.txn_available[p.toNat]?.join, tx with
      | none, _ => .ok s
      | some _, none => .error .nullDereference
      | some available, some tx =>
        -- the same transaction twice is no collision
        if env.getWitnessHash available != env.getWitnessHash tx then
          .ok { s with
            txn_available := s.txn_available.set p.toNat none
            mempool_count := s.mempool_count - 1
            extra_count := s.extra_count - 1 }
        else .ok s

/-- The loop over `extra_txn`. -/
def scanExtra (env : CompactEnv) (c : CBlockHeaderAndShortTxIDs) (shorttxids : ShortIDMap) :
    List (Uint256 × Option CTransaction) → ScanState → Except CompactError ScanState
  | [], s => .ok s
  | (hash, tx) :: rest, s => do
    let s ← scanExtraTx env (shorttxids.lookup (c.getShortID env hash)) tx s
    if s.mempool_count == UInt64.ofNat shorttxids.keys.length then .ok s
    else scanExtra env c shorttxids rest s

/-- `InitData`, with the `vTxHashes` of the mempool. -/
def PartiallyDownloadedBlock.initData (env : CompactEnv) (b : PartiallyDownloadedBlock)
    (cmpctblock : CBlockHeaderAndShortTxIDs) (vTxHashes : List (Uint256 × CTransaction))
    (extra_txn : List (Uint256 × Option CTransaction)) :
    Except CompactError (ReadStatus × PartiallyDownloadedBlock) :=
  if cmpctblock.header.isNull ||
      (cmpctblock.shorttxids.isEmpty && cmpctblock.prefilledtxn.isEmpty) then .ok (.invalid, b)
  else if cmpctblock.shorttxids.length + cmpctblock.prefilledtxn.length >
      MAX_BLOCK_WEIGHT / MIN_SERIALIZABLE_TRANSACTION_WEIGHT then .ok (.invalid, b)
  else if !(b.header.isNull && b.txn_available.isEmpty) then
    .error (.assertFailed "header.IsNull() && txn_available.empty()")
  else
    let size := cmpctblock.shorttxids.length + cmpctblock.prefilledtxn.length
    let b := { b with header := cmpctblock.header, txn_available := List.replicate size none }
    match prefillLoop cmpctblock.shorttxids.length 0 (-1) cmpctblock.prefilledtxn
      b.txn_available with
    | none => .ok (.invalid, b)
    | some txn_available =>
      let b := { b with
        txn_available := txn_available
        prefilled_count := UInt64.ofNat cmpctblock.prefilledtxn.length }
      match indexLoop env txn_available 0 0 cmpctblock.shorttxids [] ∅ with
      | none => .ok (.failed, b)
      | some shorttxids =>
        if shorttxids.keys.length ≠ cmpctblock.shorttxids.length then .ok (.failed, b)
        else do
          let s := scanPool env cmpctblock shorttxids vTxHashes
            { txn_available := txn_available, have_txn := List.replicate size false,
              mempool_count := b.mempool_count, extra_count := b.extra_count }
          let s ← scanExtra env cmpctblock shorttxids extra_txn s
          .ok (.ok, { b with
            txn_available := s.txn_available
            mempool_count := s.mempool_count
            extra_count := s.extra_count })

/-- The loop of `FillBlock`: the transactions of the block and the missing ones
    that were not used; `none` when they run out. -/
def fillLoop : List (Option CTransaction) → List CTransaction →
    Option (List CTransaction × List CTransaction)
  | [], vtx_missing => some ([], vtx_missing)
  | some tx :: rest, vtx_missing => do
    let (vtx, left) ← fillLoop rest vtx_missing
    some (tx :: vtx, left)
  | none :: _, [] => none
  | none :: rest, tx :: vtx_missing => do
    let (vtx, left) ← fillLoop rest vtx_missing
    some (tx :: vtx, left)

/-- How `FillBlock` reports what `CheckBlock` says. -/
def checkBlockStatus (env : CompactEnv) (block : CBlock) : ReadStatus :=
  match checkBlock env.validation block true true with
  | .ok _ => .ok
  | .error (.invalid _ _ true) => .failed
  | .error _ => .checkblockFailed

/-- `FillBlock`, with the block it has put together when all its positions were
    filled. -/
def PartiallyDownloadedBlock.fillBlock (env : CompactEnv) (b : PartiallyDownloadedBlock)
    (vtx_missing : List CTransaction) :
    Except CompactError (ReadStatus × Option CBlock × PartiallyDownloadedBlock) :=
  if b.header.isNull then .error (.assertFailed "!header.IsNull()")
  else
    match fillLoop b.txn_available vtx_missing with
    | none => .ok (.invalid, none, b)
    | some (vtx, left) =>
      let block := b.header.toBlock vtx
      let b := { b with header := .null, txn_available := [] }
      if !left.isEmpty then .ok (.invalid, some block, b)
      else .ok (checkBlockStatus env block, some block, b)

end Rcoin
