/-
  The byte form of numbers, vectors, transactions and blocks (`serialize.h`,
  `primitives/transaction.h`, `primitives/block.h`), as far as messages and the
  size limits of blocks need it.
-/
import Rcoin.Primitives
import Rcoin.Lib.Digits

namespace Rcoin

/-- The largest size `ReadCompactSize` and the message header accept. -/
def MAX_SIZE : Nat := 0x02000000

/-! ## Numbers -/

/-- The `n` bytes of a number, the least significant first. -/
def leBytes (n x : Nat) : List UInt8 := ((Digits.digits 8 n x).map UInt8.ofNat).reverse

/-- The number such bytes stand for. -/
def ofLeBytes (bytes : List UInt8) : Nat := Digits.ofDigits 8 (bytes.reverse.map UInt8.toNat)

@[simp] theorem length_leBytes (n x : Nat) : (leBytes n x).length = n := by
  rw [leBytes, List.length_reverse, List.length_map, Digits.length_digits]

theorem ofLeBytes_leBytes {n x : Nat} (h : x < 2 ^ (8 * n)) : ofLeBytes (leBytes n x) = x := by
  have hmap : ((Digits.digits 8 n x).map UInt8.ofNat).map UInt8.toNat = Digits.digits 8 n x := by
    rw [List.map_map]
    refine (List.map_congr_left fun d hd => ?_).trans (List.map_id _)
    have hlt : d < 256 := Digits.lt_of_mem_digits hd
    show (UInt8.ofNat d).toNat = d
    exact Nat.mod_eq_of_lt hlt
  rw [ofLeBytes, leBytes, List.reverse_reverse, hmap, Digits.ofDigits_digits_of_lt h]

/-- A signed number of `n` bytes, in two's complement. -/
def leBytesInt (n : Nat) (x : Int) : List UInt8 := leBytes n (x % 2 ^ (8 * n)).toNat

@[simp] theorem length_leBytesInt (n : Nat) (x : Int) : (leBytesInt n x).length = n :=
  length_leBytes ..

def writeCompactSize (nSize : Nat) : List UInt8 :=
  if nSize < 253 then leBytes 1 nSize
  else if nSize ≤ 0xffff then 253 :: leBytes 2 nSize
  else if nSize ≤ 0xffffffff then 254 :: leBytes 4 nSize
  else 255 :: leBytes 8 nSize

def getSizeOfCompactSize (nSize : Nat) : Nat :=
  if nSize < 253 then 1 else if nSize ≤ 0xffff then 3 else if nSize ≤ 0xffffffff then 5 else 9

theorem length_writeCompactSize (nSize : Nat) :
    (writeCompactSize nSize).length = getSizeOfCompactSize nSize := by
  unfold writeCompactSize getSizeOfCompactSize
  split
  · exact length_leBytes ..
  split
  · rw [List.length_cons, length_leBytes]
  split
  · rw [List.length_cons, length_leBytes]
  · rw [List.length_cons, length_leBytes]

/-! ## Vectors -/

/-- A vector of bytes. -/
def serializeBytes (v : List UInt8) : List UInt8 := writeCompactSize v.length ++ v

def serializeVector {α : Type*} (serialize : α → List UInt8) (v : List α) : List UInt8 :=
  writeCompactSize v.length ++ v.flatMap serialize

/-! ## Transactions -/

def COutPoint.serialize (o : COutPoint) : List UInt8 := leBytes 32 o.hash ++ leBytes 4 o.n

def CTxIn.serialize (txin : CTxIn) : List UInt8 :=
  txin.prevout.serialize ++ serializeBytes txin.scriptSig ++ leBytes 4 txin.nSequence.toNat

def CTxOut.serialize (txout : CTxOut) : List UInt8 :=
  leBytesInt 8 txout.nValue ++ serializeBytes txout.scriptPubKey

def CTransaction.hasWitness (tx : CTransaction) : Bool :=
  tx.vin.any fun txin => !txin.scriptWitness.isEmpty

/-- `SerializeTransaction`; `fAllowWitness` is off with
    `SERIALIZE_TRANSACTION_NO_WITNESS`. -/
def CTransaction.serialize (fAllowWitness : Bool) (tx : CTransaction) : List UInt8 :=
  let flags : UInt8 := if fAllowWitness && tx.hasWitness then 1 else 0
  let dummy := if flags = 0 then [] else serializeVector CTxIn.serialize [] ++ [flags]
  let witness :=
    if flags = 0 then []
    else tx.vin.flatMap fun txin => serializeVector serializeBytes txin.scriptWitness
  leBytesInt 4 tx.nVersion ++ dummy ++ serializeVector CTxIn.serialize tx.vin ++
    serializeVector CTxOut.serialize tx.vout ++ witness ++ leBytes 4 tx.nLockTime.toNat

/-! ## Blocks -/

/-- A block with all the fields of its byte form. -/
structure CFullBlock where
  nVersion : Int
  hashPrevBlock : Uint256
  hashMerkleRoot : Uint256
  nTime : UInt32
  nBits : UInt32
  nNonce : Uint256
  nSolution : List UInt8
  vtx : List CTransaction
  deriving DecidableEq, Repr

def CFullBlock.serializeHeader (block : CFullBlock) : List UInt8 :=
  leBytesInt 4 block.nVersion ++ leBytes 32 block.hashPrevBlock ++
    leBytes 32 block.hashMerkleRoot ++ leBytes 4 block.nTime.toNat ++
    leBytes 4 block.nBits.toNat ++ leBytes 32 block.nNonce ++ serializeBytes block.nSolution

def CFullBlock.serialize (fAllowWitness : Bool) (block : CFullBlock) : List UInt8 :=
  block.serializeHeader ++ serializeVector (CTransaction.serialize fAllowWitness) block.vtx

def CFullBlock.getSerializeSize (fAllowWitness : Bool) (block : CFullBlock) : Nat :=
  (block.serialize fAllowWitness).length

def getBlockWeight (block : CFullBlock) : Nat :=
  block.getSerializeSize false * (WITNESS_SCALE_FACTOR - 1) + block.getSerializeSize true

/-- The size limits of `CheckBlock`, and the weight limit of `ContextualCheckBlock`. -/
def checkBlockSizes (block : CFullBlock) : Bool :=
  !(block.vtx.isEmpty || block.vtx.length * WITNESS_SCALE_FACTOR > MAX_BLOCK_WEIGHT ||
      block.getSerializeSize false * WITNESS_SCALE_FACTOR > MAX_BLOCK_WEIGHT) &&
    !(getBlockWeight block > MAX_BLOCK_WEIGHT : Bool)

theorem serialize_le_of_checkBlockSizes {block : CFullBlock}
    (h : checkBlockSizes block = true) (fAllowWitness : Bool) :
    (block.serialize fAllowWitness).length ≤ MAX_BLOCK_WEIGHT := by
  unfold checkBlockSizes at h
  simp only [Bool.and_eq_true, Bool.not_eq_true', Bool.or_eq_false_iff, decide_eq_false_iff_not,
    Nat.not_lt, gt_iff_lt] at h
  unfold getBlockWeight CFullBlock.getSerializeSize WITNESS_SCALE_FACTOR at *
  cases fAllowWitness with
  | false => omega
  | true => omega

end Rcoin
