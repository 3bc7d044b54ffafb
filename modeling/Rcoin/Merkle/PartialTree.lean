/-
  Partial merkle trees: a proof that some transactions are in a block.

  Source: CPartialMerkleTree in src/merkleblock.{h,cpp}.  As a result `none` stands
  for a read outside an array.
-/
import Rcoin.Merkle.Root
import Rcoin.Primitives

namespace Rcoin

def MIN_TRANSACTION_WEIGHT : Nat := WITNESS_SCALE_FACTOR * 60

structure CPartialMerkleTree (H : Type) where
  nTransactions : Nat
  vBits : List Bool
  vHash : List H
  fBad : Bool
  deriving DecidableEq

namespace CPartialMerkleTree

variable {H : Type}

/-! ## Building -/

def calcTreeWidth (nTransactions height : Nat) : Nat :=
  (nTransactions + (1 <<< height) - 1) >>> height

/-- The loop `while (CalcTreeWidth(nHeight) > 1) nHeight++`; the width is 1 at the latest
    when the height is the number of transactions. -/
def calcHeight (nTransactions : Nat) : Nat → Nat → Nat
  | 0, nHeight => nHeight
  | fuel + 1, nHeight =>
    if calcTreeWidth nTransactions nHeight > 1 then calcHeight nTransactions fuel (nHeight + 1)
    else nHeight

def calcHash (Hash : H → H → H) (vTxid : List H) : Nat → Nat → Option H
  | 0, pos => vTxid[pos]?
  | height + 1, pos => do
    let left ← calcHash Hash vTxid height (pos * 2)
    -- calculate right hash if not beyond the end of the array - copy left hash otherwise
    let right ← (if pos * 2 + 1 < calcTreeWidth vTxid.length height then
      calcHash Hash vTxid height (pos * 2 + 1) else some left)
    some (Hash left right)

/-- The positions of the transactions below a node. -/
def positions (nTransactions height pos : Nat) : List Nat :=
  List.range' (pos <<< height) (min ((pos + 1) <<< height) nTransactions - pos <<< height)

/-- `TraverseAndBuild`, with what is in `vBits` and `vHash` before and after. -/
def traverseAndBuild (Hash : H → H → H) (vTxid : List H) (vMatch : List Bool) :
    Nat → Nat → List Bool × List H → Option (List Bool × List H)
  | 0, pos, (vBits, vHash) => do
    let fParentOfMatch := (positions vTxid.length 0 pos).any fun p => vMatch[p]? == some true
    let hash ← calcHash Hash vTxid 0 pos
    some (vBits ++ [fParentOfMatch], vHash ++ [hash])
  | height + 1, pos, (vBits, vHash) =>
    let fParentOfMatch := (positions vTxid.length (height + 1) pos).any fun p =>
      vMatch[p]? == some true
    if !fParentOfMatch then do
      let hash ← calcHash Hash vTxid (height + 1) pos
      some (vBits ++ [fParentOfMatch], vHash ++ [hash])
    else do
      let left ← traverseAndBuild Hash vTxid vMatch height (pos * 2) (vBits ++ [fParentOfMatch], vHash)
      if pos * 2 + 1 < calcTreeWidth vTxid.length height then
        traverseAndBuild Hash vTxid vMatch height (pos * 2 + 1) left
      else some left

/-- The constructor. -/
def ofTxids (Hash : H → H → H) (vTxid : List H) (vMatch : List Bool) :
    Option (CPartialMerkleTree H) := do
  let nHeight := calcHeight vTxid.length vTxid.length 0
  let (vBits, vHash) ← traverseAndBuild Hash vTxid vMatch nHeight 0 ([], [])
  some { nTransactions := vTxid.length, vBits := vBits, vHash := vHash, fBad := false }

/-! ## Serialisation -/

/-- What `SerializationOp` writes. -/
structure Serialized (H : Type) where
  nTransactions : Nat
  vHash : List H
  vBytes : List Nat

def packBits (vBits : List Bool) : List Nat :=
  (List.range vBits.length).foldl
    (fun vBytes p => vBytes.modify (p / 8) (· ||| ((vBits.getD p false).toNat <<< (p % 8))))
    (List.replicate ((vBits.length + 7) / 8) 0)

def unpackBits (vBytes : List Nat) : List Bool :=
  (List.range (vBytes.length * 8)).map fun p =>
    decide (vBytes.getD (p / 8) 0 &&& (1 <<< (p % 8)) ≠ 0)

def serialize (t : CPartialMerkleTree H) : Serialized H :=
  { nTransactions := t.nTransactions, vHash := t.vHash, vBytes := packBits t.vBits }

def deserialize (s : Serialized H) : CPartialMerkleTree H :=
  { nTransactions := s.nTransactions, vBits := unpackBits s.vBytes, vHash := s.vHash, fBad := false }

/-! ## Extraction -/

/-- What `TraverseAndExtract` reads and writes besides the tree. -/
structure Extraction (H : Type) where
  nBitsUsed : Nat := 0
  nHashUsed : Nat := 0
  vMatch : List H := []
  vnIndex : List Nat
  fBad : Bool

section

variable [DecidableEq H] (Hash : H → H → H) (null : H)

def traverseAndExtract (t : CPartialMerkleTree H) :
    Nat → Nat → Extraction H → H × Extraction H
  | height, pos, s =>
    match t.vBits[s.nBitsUsed]? with
    -- overflowed the bits array - failure
    | none => (null, { s with fBad := true })
    | some fParentOfMatch =>
      let s := { s with nBitsUsed := s.nBitsUsed + 1 }
      match height, fParentOfMatch with
      | 0, _ => takeHash s 0 pos fParentOfMatch
      | height + 1, false => takeHash s (height + 1) pos false
      | height + 1, true =>
        -- otherwise, descend into the subtrees to extract matched txids and hashes
        let (left, s) := traverseAndExtract t height (pos * 2) s
        if pos * 2 + 1 < calcTreeWidth t.nTransactions height then
          let (right, s) := traverseAndExtract t height (pos * 2 + 1) s
          (Hash left right, if right = left then { s with fBad := true } else s)
        else (Hash left left, s)
where
  /-- Use a stored hash and do not descend. -/
  takeHash (s : Extraction H) (height pos : Nat) (fParentOfMatch : Bool) : H × Extraction H :=
    match t.vHash[s.nHashUsed]? with
    -- overflowed the hash array - failure
    | none => (null, { s with fBad := true })
    | some hash =>
      let s := { s with nHashUsed := s.nHashUsed + 1 }
      if height = 0 ∧ fParentOfMatch then
        -- in case of height 0, we have a matched txid
        (hash, { s with vMatch := s.vMatch ++ [hash], vnIndex := s.vnIndex ++ [pos] })
      else (hash, s)

/-- `ExtractMatches`: the root or `uint256()`, `vMatch`, and `vnIndex`, to which it only
    adds. -/
def extractMatches (t : CPartialMerkleTree H) (vnIndex : List Nat) : H × List H × List Nat :=
  -- An empty set will not work
  if t.nTransactions = 0 then (null, [], vnIndex)
  -- check for excessively high numbers of transactions
  else if t.nTransactions > MAX_BLOCK_WEIGHT / MIN_TRANSACTION_WEIGHT then (null, [], vnIndex)
  -- there can never be more hashes provided than one for every txid
  else if t.vHash.length > t.nTransactions then (null, [], vnIndex)
  -- there must be at least one bit per node in the partial tree, and at least one node per hash
  else if t.vBits.length < t.vHash.length then (null, [], vnIndex)
  else
    let nHeight := calcHeight t.nTransactions t.nTransactions 0
    let (hashMerkleRoot, s) :=
      t.traverseAndExtract Hash null nHeight 0 { vnIndex := vnIndex, fBad := t.fBad }
    -- verify that no problems occurred during the tree traversal
    if s.fBad then (null, s.vMatch, s.vnIndex)
    -- verify that all bits were consumed (except for the padding)
    else if (s.nBitsUsed + 7) / 8 ≠ (t.vBits.length + 7) / 8 then (null, s.vMatch, s.vnIndex)
    -- verify that all hashes were consumed
    else if s.nHashUsed ≠ t.vHash.length then (null, s.vMatch, s.vnIndex)
    else (hashMerkleRoot, s.vMatch, s.vnIndex)

end

end CPartialMerkleTree

end Rcoin
