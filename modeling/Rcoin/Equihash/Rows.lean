/-
  The parameters of `Equihash<N,K>`, its step rows, and the three procedures of
  src/crypto/equihash.cpp: `IsValidSolution`, `BasicSolve` and `OptimisedSolve`.

  A row of the source is one byte array with the hash part in front of the
  index part, and every function gets the two lengths; here the parts are two
  lists, so the lengths are theirs.  Indices are stored big-endian, so that
  `memcmp` orders them as lists of numbers.  The BLAKE2b state is a parameter:
  all that is used of it are the bytes `GenerateHash` returns.
-/
import Rcoin.Equihash.Arrays

namespace Rcoin

/-! ## Parameters -/

/-- Parameters `N`, `K`.  The bounds are asserted, by the template or by its functions; the
    others, which nothing asserts, hold of the four pairs it is instantiated with: `K + 1`
    groups fill a hash, whole bytes a solution, and `K` is positive. -/
structure Equihash where
  N : Nat
  K : Nat
  k_pos : 0 < K
  n_dvd : 8 ∣ N
  n_le : N ≤ 512
  dvd : (K + 1) ∣ N
  bits_ge : 8 ≤ N / (K + 1)
  bits_le : N / (K + 1) + 1 ≤ 25
  solution_dvd : 8 ∣ 2 ^ K * (N / (K + 1) + 1)

def Eh200_9 : Equihash where
  N := 200
  K := 9
  k_pos := by decide
  n_dvd := by decide
  n_le := by decide
  dvd := by decide
  bits_ge := by decide
  bits_le := by decide
  solution_dvd := by decide

theorem five_pos : 0 < 5 := by decide

def Eh48_5 : Equihash where
  N := 48
  K := 5
  k_pos := five_pos
  n_dvd := by decide
  n_le := by decide
  dvd := by decide
  bits_ge := by decide
  bits_le := by decide
  solution_dvd := by decide

namespace Equihash

variable (E : Equihash)

def indicesPerHashOutput : Nat := 512 / E.N

def hashOutput : Nat := E.indicesPerHashOutput * E.N / 8

def collisionBitLength : Nat := E.N / (E.K + 1)

def collisionByteLength : Nat := (E.collisionBitLength + 7) / 8

def hashLength : Nat := (E.K + 1) * E.collisionByteLength

def solutionWidth : Nat := 2 ^ E.K * (E.collisionBitLength + 1) / 8

end Equihash

/-- `eh_HashState` as `GenerateHash` uses it: `hashOutput` bytes for each `g`. -/
structure HashState (E : Equihash) where
  generateHash : Nat → List UInt8
  length_eq : ∀ g, (generateHash g).length = E.hashOutput

/-! ## Rows -/

/-- `StepRow`, with the indices of type `ι` that the two kinds of rows carry. -/
structure StepRow (ι : Type) where
  hash : List UInt8
  indices : List ι
  deriving DecidableEq

/-- Rows with full indices (`eh_index`). -/
abbrev FullStepRow := StepRow Nat

/-- Rows with truncated indices (`eh_trunc`). -/
abbrev TruncatedStepRow := StepRow UInt8

namespace StepRow

variable {ι : Type}

/-- `IsZero`, of the whole hash part. -/
def isZero (a : StepRow ι) : Bool := a.hash.all (· == 0)

def hasCollision (l : Nat) (a b : StepRow ι) : Bool := a.hash.take l == b.hash.take l

/-- `IndicesBefore`: `memcmp` of the index parts. -/
def indicesBefore [LT ι] [DecidableEq ι] [DecidableLT ι] (a b : StepRow ι) : Bool :=
  decide (a.indices < b.indices)

/-- The constructor from two rows: the XOR of the hashes without the first `trim`
    bytes, and the indices of the row that comes before in front. -/
def merge [LT ι] [DecidableEq ι] [DecidableLT ι] (a b : StepRow ι) (trim : Nat) : StepRow ι where
  hash := (a.hash.zipWith (· ^^^ ·) b.hash).drop trim
  indices := if a.indicesBefore b then a.indices ++ b.indices else b.indices ++ a.indices

/-- Checks if the intersection of the rows' indices is empty. -/
def distinctIndices (a b : FullStepRow) : Bool :=
  a.indices.all fun i => b.indices.all fun j => i != j

end StepRow

namespace Equihash

variable (E : Equihash) (st : HashState E)

/-- The `N / 8` bytes of a hash output for its `i`-th index. -/
def hashPart (tmpHash : List UInt8) (i : Nat) : List UInt8 :=
  (tmpHash.drop (i * E.N / 8)).take (E.N / 8)

/-- The row of one index. -/
def fullStepRow (hashIn : List UInt8) (i : Nat) : FullStepRow where
  hash := expandArray E.collisionBitLength 0 hashIn
  indices := [i]

def truncatedStepRow (hashIn : List UInt8) (i : Nat) : TruncatedStepRow where
  hash := expandArray E.collisionBitLength 0 hashIn
  indices := [truncateIndex i (E.collisionBitLength + 1)]

/-- `GetIndices` of a row. -/
def getIndices (row : FullStepRow) : List UInt8 :=
  getMinimalFromIndices row.indices E.collisionBitLength

/-! ## `IsValidSolution` -/

/-- One pass of the loop over neighbouring rows; `none` for `return false`.  The
    number of rows is a power of two, so none is left over. -/
def verifyPairs : List FullStepRow → Option (List FullStepRow)
  | a :: b :: rest =>
    if !a.hasCollision E.collisionByteLength b then none
    else if b.indicesBefore a then none
    else if !a.distinctIndices b then none
    else (verifyPairs rest).map (a.merge b E.collisionByteLength :: ·)
  | _ => some []

/-- `while (X.size() > 1)`, with a bound on its passes. -/
def verifyLoop : Nat → List FullStepRow → Option (List FullStepRow)
  | 0, X => if X.length > 1 then none else some X
  | passes + 1, X =>
    if X.length > 1 then (E.verifyPairs X).bind (verifyLoop passes) else some X

def isValidSolution (soln : List UInt8) : Bool :=
  if soln.length != E.solutionWidth then false
  else
    let X := (getIndicesFromMinimal soln E.collisionBitLength).map fun i =>
      E.fullStepRow (E.hashPart (st.generateHash (i / E.indicesPerHashOutput))
        (i % E.indicesPerHashOutput)) i
    match E.verifyLoop X.length X with
    | some (row :: _) => row.isZero
    | _ => false

end Equihash

/-! ## Collision rounds

`BasicSolve`, `OptimisedSolve` and `CollideBranches` repeat one procedure on
their tables; they differ in the pairs they keep (`combine`). -/

/-- All pairs of a list, each in list order: the loops over `l` and `m > l`. -/
def pairs {α : Type} : List α → List (α × α)
  | [] => []
  | a :: rest => rest.map (fun b => (a, b)) ++ pairs rest

/-- A table that is compacted in place: positions below `posFree` hold new
    tuples.  `Xc` are the tuples to be stored, the back of the vector first. -/
structure Table (α : Type) where
  X : List α
  posFree : Nat
  Xc : List α

namespace Table

variable {α : Type}

/-- `while (posFree < limit && Xc.size() > 0)`: store the back of `Xc`. -/
def store (limit : Nat) (X : List α) (posFree : Nat) : List α → Table α
  | [] => ⟨X, posFree, []⟩
  | x :: Xc =>
    if posFree < limit then store limit (X.set posFree x) (posFree + 1) Xc
    else ⟨X, posFree, x :: Xc⟩

/-- The number `j` of rows from position `i` on that collide with the first. -/
def groupSize (coll : α → α → Bool) (X : List α) (i : Nat) : Nat :=
  match X.drop i with
  | [] => 1
  | a :: rest => 1 + (rest.takeWhile (coll a)).length

/-- `while (i < X.size() - 1)`: the tuples of each group, stored below the rows
    that are still to be read. -/
def collideLoop (coll : α → α → Bool) (combine : α → α → Option α) :
    Nat → Nat → Table α → Table α
  | 0, _, t => t
  | steps + 1, i, t =>
    if i + 1 < t.X.length then
      let j := groupSize coll t.X i
      let tuples := (pairs ((t.X.drop i).take j)).filterMap fun p => combine p.1 p.2
      collideLoop coll combine steps (i + j)
        (store (i + j) t.X t.posFree (tuples.reverse ++ t.Xc))
    else t

/-- The table after a round: what is left of `Xc` goes to free positions, then
    to the end; free space that remains is removed. -/
def finish (t : Table α) : List α :=
  let t := store t.X.length t.X t.posFree t.Xc
  if t.Xc.isEmpty then t.X.take t.posFree else t.X ++ t.Xc.reverse

/-- One round over a table that is sorted already. -/
def collide (coll : α → α → Bool) (combine : α → α → Option α) (X : List α) : List α :=
  finish (collideLoop coll combine X.length 0 ⟨X, 0, []⟩)

/-- The last round, which hands the tuples on instead of storing them. -/
def collideFinal {β : Type} (coll : α → α → Bool) (combine : α → α → Option β) (X : List α) :
    Nat → Nat → List β
  | 0, _ => []
  | steps + 1, i =>
    if i + 1 < X.length then
      let j := groupSize coll X i
      ((pairs ((X.drop i).take j)).filterMap fun p => combine p.1 p.2) ++
        collideFinal coll combine X steps (i + j)
    else []

end Table

/-- `std::sort(X.begin(), X.end(), CompareSR(len))`: some permutation of the rows
    in which the first `len` bytes never decrease. -/
structure RowSort (ι : Type) where
  sort : Nat → List (StepRow ι) → List (StepRow ι)
  perm : ∀ len X, (sort len X).Perm X
  sorted : ∀ len X, (sort len X).Pairwise fun a b => ¬ b.hash.take len < a.hash.take len

namespace Equihash

variable (E : Equihash) (st : HashState E)

def initSize : Nat := 2 ^ (E.collisionBitLength + 1)

/-- The first list: rows for the indices of one hash output after another, until
    there are `init_size` of them. -/
def firstList {α : Type} (row : List UInt8 → Nat → α) : List α :=
  ((List.range E.initSize).flatMap fun g =>
    (List.range E.indicesPerHashOutput).map fun i =>
      row (E.hashPart (st.generateHash g) i) (g * E.indicesPerHashOutput + i)).take E.initSize

/-- The rounds `r = 1 .. K - 1`, as long as the table is not empty. -/
def rounds {ι : Type} (sort : RowSort ι) (combine : StepRow ι → StepRow ι → Option (StepRow ι)) :
    Nat → List (StepRow ι) → List (StepRow ι)
  | 0, X => X
  | r + 1, X =>
    if X.length > 0 then
      rounds sort combine r
        (Table.collide (StepRow.hasCollision E.collisionByteLength) combine
          (sort.sort E.collisionByteLength X))
    else X

/-- The last round: a collision on all bytes that are left. -/
def finalRound {ι β : Type} (sort : RowSort ι) (combine : StepRow ι → StepRow ι → Option β)
    (X : List (StepRow ι)) : List β :=
  let hashLen := E.hashLength - (E.K - 1) * E.collisionByteLength
  if X.length > 1 then
    let X := sort.sort hashLen X
    Table.collideFinal (StepRow.hasCollision hashLen) combine X X.length 0
  else []

/-! ## `BasicSolve`

The result lists the solutions in the order in which they are passed to
`validBlock`, which always returns false; `cancelled` never returns true. -/

def basicCombine (a b : FullStepRow) : Option FullStepRow :=
  if a.distinctIndices b then some (a.merge b E.collisionByteLength) else none

def basicFinal (a b : FullStepRow) : Option (List UInt8) :=
  let res := a.merge b 0
  if a.distinctIndices b then some (E.getIndices res) else none

def basicSolve (sort : RowSort Nat) : List (List UInt8) :=
  E.finalRound sort E.basicFinal
    (E.rounds sort E.basicCombine (E.K - 1) (E.firstList st E.fullStepRow))

end Equihash

/-! ## `OptimisedSolve` -/

/-- The loop body of `IsProbablyDuplicate`: an index that is not paired yet is
    paired with the first equal one behind it. -/
def duplicateStep (indices : List UInt8) (s : List Bool × Nat) (z : Nat) : List Bool × Nat :=
  if s.1.getD z false then s
  else
    match (List.range' (z + 1) (indices.length - (z + 1))).find? fun y =>
        !s.1.getD y false && indices.getD z 0 == indices.getD y 0 with
    | some y => (s.1.set y true, s.2 + 2)
    | none => s

def isProbablyDuplicate (indices : List UInt8) : Bool :=
  ((List.range indices.length).foldl (duplicateStep indices)
    (List.replicate indices.length false, 0)).2 == indices.length

namespace Equihash

variable (E : Equihash) (st : HashState E)

/-- "We truncated, so don't check for distinct indices here". -/
def truncatedCombine (a b : TruncatedStepRow) : Option TruncatedStepRow :=
  let Xi := a.merge b E.collisionByteLength
  if !(Xi.isZero && isProbablyDuplicate Xi.indices) then some Xi else none

def truncatedFinal (a b : TruncatedStepRow) : Option (List UInt8) :=
  let soln := (a.merge b 0).indices
  if !isProbablyDuplicate soln then some soln else none

/-- The algorithm with truncated indices: `partialSolns`. -/
def partialSolutions (sort : RowSort UInt8) : List (List UInt8) :=
  E.finalRound sort truncatedFinal
    (E.rounds sort E.truncatedCombine (E.K - 1) (E.firstList st E.truncatedStepRow))

def isValidBranch (a : FullStepRow) (t : UInt8) : Bool :=
  truncateIndex (a.indices.headD 0) (E.collisionBitLength + 1) == t

def branchCombine (lt rt : UInt8) (a b : FullStepRow) : Option FullStepRow :=
  if a.distinctIndices b then
    if E.isValidBranch a lt && E.isValidBranch b rt then some (a.merge b E.collisionByteLength)
    else if E.isValidBranch b lt && E.isValidBranch a rt then
      some (b.merge a E.collisionByteLength)
    else none
  else none

def collideBranches (X : List FullStepRow) (lt rt : UInt8) : List FullStepRow :=
  Table.collide (StepRow.hasCollision E.collisionByteLength) (E.branchCombine lt rt) X

def recreateSize : Nat := untruncateIndex 1 0 (E.collisionBitLength + 1)

/-- The first list of possibilities for one truncated index.  The hash output is
    generated anew for the first index of each output only. -/
def recreateList (t : UInt8) : List FullStepRow :=
  ((List.range E.recreateSize).foldl (fun s j =>
    let newIndex := untruncateIndex t j (E.collisionBitLength + 1)
    let tmpHash :=
      if j == 0 || newIndex % E.indicesPerHashOutput == 0 then
        st.generateHash (newIndex / E.indicesPerHashOutput)
      else s.1
    (tmpHash, s.2 ++ [E.fullStepRow (E.hashPart tmpHash (newIndex % E.indicesPerHashOutput))
      newIndex])) (([] : List UInt8), ([] : List FullStepRow))).2

/-- The loop over the subtrees `X` from `X[r]` on: the list `ic`, of a subtree
    that starts at index `rti`, is merged with full subtrees to its left until a
    free place is found.  `none` stands for `goto invalidsolution`. -/
def insertSubtree (sort : RowSort Nat) (partialSoln : List UInt8) :
    Nat → Nat → List (Option (List FullStepRow)) → List FullStepRow →
      Option (List (Option (List FullStepRow)))
  | _, _, [], ic => some [some ic]
  | _, _, none :: X, ic => some (some ic :: X)
  | r, rti, some left :: X, ic =>
    let lti := rti - 2 ^ r
    let hashLen := E.hashLength - r * E.collisionByteLength
    let ic := E.collideBranches (sort.sort hashLen (ic ++ left))
      (partialSoln.getD lti 0) (partialSoln.getD rti 0)
    if ic.isEmpty then none
    else (insertSubtree sort partialSoln (r + 1) lti X ic).map (none :: ·)

/-- The loop over the partial indices `i`, up to the `n`-th. -/
def recreateLoop (sort : RowSort Nat) (partialSoln : List UInt8) :
    Nat → Option (List (Option (List FullStepRow)))
  | 0 => some []
  | n + 1 => (recreateLoop sort partialSoln n).bind fun X =>
      E.insertSubtree sort partialSoln 0 n X (E.recreateList st (partialSoln.getD n 0))

/-- The solutions recreated from a partial one: a `std::set`, so each is there
    once, in order. -/
def recreate (sort : RowSort Nat) (partialSoln : List UInt8) : List (List UInt8) :=
  match E.recreateLoop st sort partialSoln (2 ^ E.K) with
  | none => []
  | some X =>
    ((((X.getD E.K none).getD []).map E.getIndices).mergeSort fun a b => a ≤ b).dedup

def optimisedSolve (sortTruncated : RowSort UInt8) (sort : RowSort Nat) : List (List UInt8) :=
  (E.partialSolutions st sortTruncated).flatMap (E.recreate st sort)

end Equihash

end Rcoin
