/-
  The hasher `CSHA3_256` (src/crypto/sha3_256.cpp): the permutation on 25 words, the
  buffer `m` in front of it, and `CHash256` (src/hash.h), which hashes twice.
-/
import Rcoin.Serialize

namespace Rcoin

namespace Sha3

/-! ## The permutation -/

/-- `RC`. -/
def roundConstants : List UInt64 := [
  0x0000000000000001, 0x0000000000008082, 0x800000000000808A, 0x8000000080008000,
  0x000000000000808B, 0x0000000080000001, 0x8000000080008081, 0x8000000000008009,
  0x000000000000008A, 0x0000000000000088, 0x0000000080008009, 0x000000008000000A,
  0x000000008000808B, 0x800000000000008B, 0x8000000000008089, 0x8000000000008003,
  0x8000000000008002, 0x8000000000000080, 0x000000000000800A, 0x800000008000000A,
  0x8000000080008081, 0x8000000000008080, 0x0000000080000001, 0x8000000080008008]

def rotateLeft (x : UInt64) (n : Nat) : UInt64 :=
  (x <<< UInt64.ofNat n) ||| (x >>> UInt64.ofNat (64 - n))

/-- The column parities `C`. -/
def columns (A : Vector UInt64 25) : Vector UInt64 5 := #v[
  A[0 * 5 + 0] ^^^ A[1 * 5 + 0] ^^^ A[2 * 5 + 0] ^^^ A[3 * 5 + 0] ^^^ A[4 * 5 + 0],
  A[0 * 5 + 1] ^^^ A[1 * 5 + 1] ^^^ A[2 * 5 + 1] ^^^ A[3 * 5 + 1] ^^^ A[4 * 5 + 1],
  A[0 * 5 + 2] ^^^ A[1 * 5 + 2] ^^^ A[2 * 5 + 2] ^^^ A[3 * 5 + 2] ^^^ A[4 * 5 + 2],
  A[0 * 5 + 3] ^^^ A[1 * 5 + 3] ^^^ A[2 * 5 + 3] ^^^ A[3 * 5 + 3] ^^^ A[4 * 5 + 3],
  A[0 * 5 + 4] ^^^ A[1 * 5 + 4] ^^^ A[2 * 5 + 4] ^^^ A[3 * 5 + 4] ^^^ A[4 * 5 + 4]]

/-- `D`. -/
def mixed (C : Vector UInt64 5) : Vector UInt64 5 := #v[
  C[4] ^^^ rotateLeft C[1] 1,
  C[0] ^^^ rotateLeft C[2] 1,
  C[1] ^^^ rotateLeft C[3] 1,
  C[2] ^^^ rotateLeft C[4] 1,
  C[3] ^^^ rotateLeft C[0] 1]

/-- The words `B0` to `B24`. -/
def rotated (A : Vector UInt64 25) (D : Vector UInt64 5) : Vector UInt64 25 := #v[
  -- B0 to B4
  A[0 * 5 + 0] ^^^ D[0],
  rotateLeft (A[1 * 5 + 1] ^^^ D[1]) 44,
  rotateLeft (A[2 * 5 + 2] ^^^ D[2]) 43,
  rotateLeft (A[3 * 5 + 3] ^^^ D[3]) 21,
  rotateLeft (A[4 * 5 + 4] ^^^ D[4]) 14,
  -- B5 to B9
  rotateLeft (A[0 * 5 + 3] ^^^ D[3]) 28,
  rotateLeft (A[1 * 5 + 4] ^^^ D[4]) 20,
  rotateLeft (A[2 * 5 + 0] ^^^ D[0]) 3,
  rotateLeft (A[3 * 5 + 1] ^^^ D[1]) 45,
  rotateLeft (A[4 * 5 + 2] ^^^ D[2]) 61,
  -- B10 to B14
  rotateLeft (A[0 * 5 + 1] ^^^ D[1]) 1,
  rotateLeft (A[1 * 5 + 2] ^^^ D[2]) 6,
  rotateLeft (A[2 * 5 + 3] ^^^ D[3]) 25,
  rotateLeft (A[3 * 5 + 4] ^^^ D[4]) 8,
  rotateLeft (A[4 * 5 + 0] ^^^ D[0]) 18,
  -- B15 to B19
  rotateLeft (A[0 * 5 + 4] ^^^ D[4]) 27,
  rotateLeft (A[1 * 5 + 0] ^^^ D[0]) 36,
  rotateLeft (A[2 * 5 + 1] ^^^ D[1]) 10,
  rotateLeft (A[3 * 5 + 2] ^^^ D[2]) 15,
  rotateLeft (A[4 * 5 + 3] ^^^ D[3]) 56,
  -- B20 to B24
  rotateLeft (A[0 * 5 + 2] ^^^ D[2]) 62,
  rotateLeft (A[1 * 5 + 3] ^^^ D[3]) 55,
  rotateLeft (A[2 * 5 + 4] ^^^ D[4]) 39,
  rotateLeft (A[3 * 5 + 0] ^^^ D[0]) 41,
  rotateLeft (A[4 * 5 + 1] ^^^ D[1]) 2]

/-- The new words of the state, before the round constant. -/
def combined (B : Vector UInt64 25) : Vector UInt64 25 := #v[
  B[0] ^^^ (~~~B[1] &&& B[2]),
  B[1] ^^^ (~~~B[2] &&& B[3]),
  B[2] ^^^ (~~~B[3] &&& B[4]),
  B[3] ^^^ (~~~B[4] &&& B[0]),
  B[4] ^^^ (~~~B[0] &&& B[1]),
  B[5] ^^^ (~~~B[6] &&& B[7]),
  B[6] ^^^ (~~~B[7] &&& B[8]),
  B[7] ^^^ (~~~B[8] &&& B[9]),
  B[8] ^^^ (~~~B[9] &&& B[5]),
  B[9] ^^^ (~~~B[5] &&& B[6]),
  B[10] ^^^ (~~~B[11] &&& B[12]),
  B[11] ^^^ (~~~B[12] &&& B[13]),
  B[12] ^^^ (~~~B[13] &&& B[14]),
  B[13] ^^^ (~~~B[14] &&& B[10]),
  B[14] ^^^ (~~~B[10] &&& B[11]),
  B[15] ^^^ (~~~B[16] &&& B[17]),
  B[16] ^^^ (~~~B[17] &&& B[18]),
  B[17] ^^^ (~~~B[18] &&& B[19]),
  B[18] ^^^ (~~~B[19] &&& B[15]),
  B[19] ^^^ (~~~B[15] &&& B[16]),
  B[20] ^^^ (~~~B[21] &&& B[22]),
  B[21] ^^^ (~~~B[22] &&& B[23]),
  B[22] ^^^ (~~~B[23] &&& B[24]),
  B[23] ^^^ (~~~B[24] &&& B[20]),
  B[24] ^^^ (~~~B[20] &&& B[21])]

/-- A round of `transform`. -/
def transformRound (A : Vector UInt64 25) (RC : UInt64) : Vector UInt64 25 :=
  let B := rotated A (mixed (columns A))
  let A := combined B
  A.set 0 (A[0] ^^^ RC)

/-- `transform` of one state. -/
def transform (A : Vector UInt64 25) : Vector UInt64 25 := roundConstants.foldl transformRound A

/-! ## Blocks -/

/-- `A[i] ^=` the word of the data at the same place; nothing outside the arrays. -/
def xorWord (data : List UInt8) (A : Vector UInt64 25) (i : Nat) : Option (Vector UInt64 25) :=
  if h : i < 25 then
    if 8 * i + 8 ≤ data.length then
      let word := UInt64.ofNat (ofLeBytes ((data.drop (8 * i)).take 8))
      some (A.set i (A[i] ^^^ word))
    else none
  else none

/-- `transform` of `num_blks` blocks; the rate is in bits. -/
def transformBlocks (data : List UInt8) (num_blks : Nat) (A : Vector UInt64 25) (rate : Nat) :
    Option (Vector UInt64 25) :=
  let r := rate / 8
  let r64 := rate / 64
  (List.range num_blks).foldlM (fun A blk =>
    ((List.range r64).foldlM (xorWord (data.drop (blk * r))) A).map transform) A

/-! ## The hasher -/

/-- The state and the buffer behind `Write`. -/
structure CSHA3_256 where
  A : Vector UInt64 25
  m : List.Vector UInt8 144
  pos : Nat
  total : UInt64

def OUTPUT_SIZE : Nat := 32

def RATE : Nat := 1600 - 2 * 256

/-- The constructor; it leaves `m` and `total` as they are in memory. -/
def CSHA3_256.new (m : List.Vector UInt8 144) (total : UInt64) : CSHA3_256 :=
  { A := Vector.replicate 25 0, m := m, pos := 0, total := total }

/-- `memcpy(m + pos, data, n)`; nothing outside the arrays. -/
def memcpy (m : List.Vector UInt8 144) (pos : Nat) (data : List UInt8) (n : Nat) :
    Option (List.Vector UInt8 144) :=
  if h : pos + n ≤ 144 ∧ n ≤ data.length then
    some ⟨m.toList.take pos ++ data.take n ++ m.toList.drop (pos + n), by
      simp only [List.length_append, List.length_take, List.length_drop, m.toList_length]
      omega⟩
  else none

/-- `absorb_bytes`: a block that the data completes. -/
def absorbFirst (data : List UInt8) (bs bschk rate : Nat) (s : CSHA3_256) :
    Option (List UInt8 × CSHA3_256) :=
  if s.pos ≠ 0 ∧ s.pos + data.length ≥ bschk then do
    let m ← memcpy s.m s.pos data (bs - s.pos)
    let A ← transformBlocks m.toList 1 s.A rate
    some (data.drop (bs - s.pos),
      { A := A, m := m, pos := 0, total := s.total + UInt64.ofNat (bs * 8) })
  else some (data, s)

/-- `absorb_bytes`: the whole blocks of the data. -/
def absorbWhole (data : List UInt8) (bs bschk rate : Nat) (s : CSHA3_256) :
    Option (List UInt8 × CSHA3_256) :=
  if data.length ≥ bschk then do
    let blocks := (data.length + bs - bschk) / bs
    let bytes := blocks * bs
    let A ← transformBlocks data blocks s.A rate
    some (data.drop bytes, { s with A := A, total := s.total + UInt64.ofNat (bytes * 8) })
  else some (data, s)

def absorbBytes (data : List UInt8) (bs bschk rate : Nat) (s : CSHA3_256) : Option CSHA3_256 := do
  let (data, s) ← absorbFirst data bs bschk rate s
  let (data, s) ← absorbWhole data bs bschk rate s
  let m ← memcpy s.m s.pos data data.length
  some { s with m := m, pos := s.pos + data.length }

def CSHA3_256.write (s : CSHA3_256) (data : List UInt8) : Option CSHA3_256 :=
  absorbBytes data (RATE / 8) (RATE / 8) RATE s

/-- `m[i] = x`; nothing outside the array. -/
def setByte (m : List.Vector UInt8 144) (i : Nat) (x : UInt8) : Option (List.Vector UInt8 144) :=
  memcpy m i [x] 1

/-- `memcpy(hash, A.data(), n)`. -/
def output (A : Vector UInt64 25) (n : Nat) : List UInt8 :=
  (A.toList.flatMap fun word => leBytes 8 word.toNat).take n

/-- `Finalize`: the hasher it leaves behind and the hash. -/
def CSHA3_256.finalize (s : CSHA3_256) : Option (CSHA3_256 × List UInt8) := do
  let r := RATE / 8
  let m ← setByte s.m s.pos 0x06
  let pos := s.pos + 1
  let m ← if r ≠ pos then memcpy m pos (List.replicate (r - pos) 0) (r - pos) else some m
  let m ← setByte m (r - 1) (m.toList.getD (r - 1) 0 ||| 0x80)
  let A ← transformBlocks m.toList 1 s.A RATE
  some ({ A := A, m := m, pos := pos, total := s.total }, output A OUTPUT_SIZE)

def CSHA3_256.reset (s : CSHA3_256) : CSHA3_256 :=
  { A := Vector.replicate 25 0, m := List.Vector.replicate 144 0, pos := 0, total := s.total }

/-! ## `CHash256` -/

structure CHash256 where
  sha : CSHA3_256

def CHash256.write (h : CHash256) (data : List UInt8) : Option CHash256 :=
  (h.sha.write data).map CHash256.mk

def CHash256.finalize (h : CHash256) : Option (CHash256 × List UInt8) := do
  let (sha, buf) ← h.sha.finalize
  let sha ← sha.reset.write buf
  let (sha, hash) ← sha.finalize
  some ({ sha := sha }, hash)

def CHash256.reset (h : CHash256) : CHash256 := { sha := h.sha.reset }

end Sha3

end Rcoin
