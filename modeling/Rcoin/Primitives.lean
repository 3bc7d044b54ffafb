/-
  The data every other module reads: amounts, scripts as byte strings,
  outpoints, transactions, blocks and block-index entries.

  Source: src/amount.h, src/consensus/consensus.h, src/primitives/*.h and the
  fields of `CBlockIndex` (src/chain.h) the modelled functions use.  A
  transaction carries its hash as the source does (`const uint256 hash`,
  computed once by the constructor); results that need hashing to be
  injective say so in their hypotheses.
-/
import Mathlib

namespace Rcoin

/-! ## Amounts -/

/-! An amount in satoshis (`CAmount`, it can be negative) is an `Int`. -/

def COIN : Int := 100000000

/-- No amount larger than this (in satoshi) is valid. -/
def MAX_MONEY : Int := 10000000 * COIN

def GENESIS_MONEY : Int := 8000000 * COIN

/-- Subsidy of the blocks of the first halving period. -/
def INITIAL_SUBSIDY : Int := 5 * COIN

def moneyRange (nValue : Int) : Bool := 0 ≤ nValue && nValue ≤ MAX_MONEY

theorem moneyRange_iff {v : Int} : moneyRange v = true ↔ 0 ≤ v ∧ v ≤ MAX_MONEY := by
  simp [moneyRange]

/-! ## Consensus constants -/

def MAX_BLOCK_WEIGHT : Nat := 32000000

def MAX_BLOCK_SIGOPS_COST : Int := 80000

def COINBASE_MATURITY : Int := 100

def WITNESS_SCALE_FACTOR : Nat := 4

/-! ## Hashes and scripts -/

/-- A 256-bit hash; the null hash is `0`. -/
abbrev Uint256 := Nat

abbrev Valtype := List UInt8

/-- A serialized script. -/
abbrev CScript := List UInt8

def MAX_SCRIPT_SIZE : Nat := 10000

/-- `OP_RETURN` as a script byte. -/
def opReturnByte : UInt8 := 0x6a

/-- Whether the script is guaranteed to fail at execution, so that its output
    never enters the UTXO set. -/
def CScript.isUnspendable (s : CScript) : Bool :=
  s.head? == some opReturnByte || decide (MAX_SCRIPT_SIZE < s.length)

/-! ## Transactions -/

/-- A transaction hash and an index into its outputs. -/
structure COutPoint where
  hash : Uint256
  n : Nat
  deriving DecidableEq, Repr, Inhabited

/-- The index `(uint32_t) -1` of a null outpoint. -/
def COutPoint.nullIndex : Nat := 4294967295

def COutPoint.isNull (o : COutPoint) : Bool := o.hash == 0 && o.n == COutPoint.nullIndex

structure CTxIn where
  prevout : COutPoint
  scriptSig : CScript := []
  nSequence : UInt32 := 0xffffffff
  scriptWitness : List Valtype := []
  deriving DecidableEq, Repr

structure CTxOut where
  nValue : Int
  scriptPubKey : CScript
  deriving DecidableEq, Repr

/-- `CTxOut::SetNull`: value `-1`, empty script. -/
def CTxOut.null : CTxOut := { nValue := -1, scriptPubKey := [] }

def CTxOut.isNull (o : CTxOut) : Bool := o.nValue == -1

structure CTransaction where
  hash : Uint256
  vin : List CTxIn
  vout : List CTxOut
  nVersion : Int := 2
  nLockTime : UInt32 := 0
  deriving DecidableEq, Repr

/-- A coinbase has one input, and it spends the null outpoint. -/
def CTransaction.isCoinBase (tx : CTransaction) : Bool :=
  match tx.vin with
  | [txin] => txin.prevout.isNull
  | _ => false

/-- The outpoints a transaction spends, in input order. -/
def CTransaction.prevouts (tx : CTransaction) : List COutPoint := tx.vin.map CTxIn.prevout

/-- Sum of the outputs' values; `none` stands for the `std::runtime_error`
    "GetValueOut: value out of range". -/
def CTransaction.getValueOut (tx : CTransaction) : Option Int :=
  go tx.vout 0
where
  go : List CTxOut → Int → Option Int
    | [], nValueOut => some nValueOut
    | o :: rest, nValueOut =>
      if moneyRange o.nValue && moneyRange (nValueOut + o.nValue) then
        go rest (nValueOut + o.nValue)
      else none

/-! ## Blocks -/

/-- A block; `hash` is the hash of its header. -/
structure CBlock where
  hash : Uint256
  hashPrevBlock : Uint256
  hashMerkleRoot : Uint256 := 0
  vtx : List CTransaction
  deriving DecidableEq, Repr

/-- The fields of a block-index entry that validation reads: its own hash, its
    height, and the hash of `pprev` (`none` for the genesis block). -/
structure CBlockIndex where
  hash : Uint256
  nHeight : Nat
  pprev : Option Uint256
  deriving DecidableEq, Repr

/-- `pindex->pprev == nullptr ? uint256() : pindex->pprev->GetBlockHash()`. -/
def CBlockIndex.hashPrevBlock (pindex : CBlockIndex) : Uint256 := pindex.pprev.getD 0

end Rcoin
