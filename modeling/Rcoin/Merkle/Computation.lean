/-
  `MerkleComputation` (src/consensus/merkle.cpp) with all that it computes: the root,
  the `mutated` flag and the branch of a leaf.  What is stored at a level of `inner`
  that has not been written yet is `uint256()` here.
-/
import Rcoin.Lib.MerkleBranch
import Rcoin.Merkle.Root

namespace Rcoin

open Option

namespace Merkle

variable {H : Type} [DecidableEq H]

/-- The variables of a climb through the levels. -/
structure ClimbState (H : Type) where
  level : Nat
  h : H
  /-- `h` depends on the leaf of the branch. -/
  matchh : Bool
  pbranch : List H
  /-- A node was equal to its left sibling. -/
  equal : Bool

/-- The loops over `level` that combine `h` with `inner[level]` while bit `level` of
    `count` is 0.  The first one puts `equal` into `mutated`, the one of the final
    sweep does not compare. -/
def climbAll (Hash : H → H → H) (inner : Nat → H) (matchlevel : Option Nat) (count : Nat) :
    Nat → ClimbState H → Option (ClimbState H)
  | 0, _ => none
  | left + 1, s =>
    if count.testBit s.level then some s
    else
      let pbranch :=
        if s.matchh then s.pbranch ++ [inner s.level]
        else if matchlevel = some s.level then s.pbranch ++ [s.h]
        else s.pbranch
      climbAll Hash inner matchlevel count left {
        level := s.level + 1
        h := Hash (inner s.level) s.h
        matchh := s.matchh || matchlevel == some s.level
        pbranch := pbranch
        equal := s.equal || inner s.level == s.h }

/-- The variables of the loop over the leaves. -/
structure LeafState (H : Type) where
  count : Nat
  inner : Nat → H
  /-- Which entry of `inner` depends on the leaf of the branch. -/
  matchlevel : Option Nat
  mutated : Bool
  pbranch : List H

/-- A round of the loop over the leaves. -/
def addLeafAll (Hash : H → H → H) (branchpos : Nat) (s : LeafState H) (leaf : H) :
    Option (LeafState H) := do
  let matchh := s.count == branchpos
  let count := s.count + 1
  let c ← climbAll Hash s.inner s.matchlevel count 32
    { level := 0, h := leaf, matchh := matchh, pbranch := s.pbranch, equal := false }
  some {
    count := count
    inner := Function.update s.inner c.level c.h
    matchlevel := if c.matchh then some c.level else s.matchlevel
    mutated := s.mutated || c.equal
    pbranch := c.pbranch }

/-- The final sweep over the rightmost branch. -/
def sweepAll (Hash : H → H → H) (inner : Nat → H) (matchlevel : Option Nat) :
    Nat → Nat → ClimbState H → Option (ClimbState H)
  | 0, _, _ => none
  | left + 1, count, c =>
    if count = 2 ^ c.level then some c
    else do
      let pbranch := if c.matchh then c.pbranch ++ [c.h] else c.pbranch
      let count := count + 2 ^ c.level
      let c ← climbAll Hash inner matchlevel count (32 - (c.level + 1))
        { c with level := c.level + 1, h := Hash c.h c.h, pbranch := pbranch }
      sweepAll Hash inner matchlevel left count c

/-- What `MerkleComputation` puts into `proot`, `pmutated` and `pbranch`; nothing where
    it leaves the 32 entries of `inner`. -/
structure Computed (H : Type) where
  root : H
  mutated : Bool
  branch : List H
  deriving DecidableEq

def merkleComputation (Hash : H → H → H) (null : H) (leaves : List H) (branchpos : Nat) :
    Option (Computed H) :=
  if leaves.length = 0 then some { root := null, mutated := false, branch := [] }
  else do
    let s ← leaves.foldlM (addLeafAll Hash branchpos)
      { count := 0, inner := fun _ => null, matchlevel := none, mutated := false, pbranch := [] }
    let level ← lowestBit s.count 32 0
    let c ← sweepAll Hash s.inner s.matchlevel 32 s.count {
      level := level
      h := s.inner level
      matchh := s.matchlevel == some level
      pbranch := s.pbranch
      equal := false }
    some { root := c.h, mutated := s.mutated, branch := c.pbranch }

/-- `ComputeMerkleRoot`, with the `mutated` flag; the branch position is -1. -/
def computeMerkleRootMutated (Hash : H → H → H) (null : H) (leaves : List H) : Option (H × Bool) :=
  (merkleComputation Hash null leaves 0xffffffff).map fun r => (r.root, r.mutated)

def computeMerkleBranch (Hash : H → H → H) (null : H) (leaves : List H) (position : UInt32) :
    Option (List H) :=
  (merkleComputation Hash null leaves position.toNat).map fun r => r.branch

def computeMerkleRootFromBranch (Hash : H → H → H) : H → List H → UInt32 → H
  | hash, [], _ => hash
  | hash, x :: vMerkleBranch, nIndex =>
    let hash := if nIndex &&& 1 ≠ 0 then Hash x hash else Hash hash x
    computeMerkleRootFromBranch Hash hash vMerkleBranch (nIndex >>> 1)

/-! ## The root

Without the flag and the branch this is `computeMerkleRoot`. -/

section

variable (Hash : H → H → H) (inner : Nat → H)

theorem climbAll_root (matchlevel : Option Nat) (count left : Nat) (s : ClimbState H) :
    (climbAll Hash inner matchlevel count left s).map (fun c => (c.level, c.h)) =
      climb Hash inner count left s.level s.h := by
  induction left generalizing s with
  | zero => rfl
  | succ left ih =>
    rw [climbAll, climb]
    split
    · rfl
    · exact ih _

theorem addLeafAll_root (branchpos : Nat) (s : LeafState H) (leaf : H) :
    (addLeafAll Hash branchpos s leaf).map (fun s => (s.count, s.inner)) =
      addLeaf Hash (s.count, s.inner) leaf := by
  have hclimb := climbAll_root Hash s.inner s.matchlevel (s.count + 1) 32
    { level := 0, h := leaf, matchh := s.count == branchpos, pbranch := s.pbranch, equal := false }
  rw [addLeafAll, addLeaf]
  simp only [← hclimb]
  cases climbAll Hash s.inner s.matchlevel (s.count + 1) 32
    { level := 0, h := leaf, matchh := s.count == branchpos, pbranch := s.pbranch, equal := false }
  <;> rfl

theorem addLeavesAll_root (branchpos : Nat) (leaves : List H) (s : LeafState H) :
    (leaves.foldlM (addLeafAll Hash branchpos) s).map (fun s => (s.count, s.inner)) =
      leaves.foldlM (addLeaf Hash) (s.count, s.inner) := by
  induction leaves generalizing s with
  | nil => rfl
  | cons leaf leaves ih =>
    rw [List.foldlM_cons, List.foldlM_cons, ← addLeafAll_root Hash branchpos]
    cases addLeafAll Hash branchpos s leaf with
    | none => rfl
    | some s' => exact ih s'

theorem sweepAll_root (matchlevel : Option Nat) (left count : Nat) (c : ClimbState H) :
    (sweepAll Hash inner matchlevel left count c).map ClimbState.h =
      sweep Hash inner left count c.level c.h := by
  induction left generalizing count c with
  | zero => rfl
  | succ left ih =>
    rw [sweepAll, sweep]
    split
    · rfl
    · have hclimb := climbAll_root Hash inner matchlevel
        (count + 2 ^ c.level) (32 - (c.level + 1)) { c with
          level := c.level + 1, h := Hash c.h c.h
          pbranch := if c.matchh then c.pbranch ++ [c.h] else c.pbranch }
      simp only [← hclimb]
      cases climbAll Hash inner matchlevel (count + 2 ^ c.level) (32 - (c.level + 1)) { c with
          level := c.level + 1, h := Hash c.h c.h
          pbranch := if c.matchh then c.pbranch ++ [c.h] else c.pbranch } with
      | none => rfl
      | some c' => exact ih _ c'

theorem merkleComputation_root (null : H) (leaves : List H) (branchpos : Nat) :
    (merkleComputation Hash null leaves branchpos).map Computed.root =
      computeMerkleRoot Hash null leaves := by
  rw [merkleComputation, computeMerkleRoot]
  split
  · rfl
  · have hfold := addLeavesAll_root Hash branchpos leaves
      { count := 0, inner := fun _ => null, matchlevel := none, mutated := false, pbranch := [] }
    rw [← hfold]
    cases leaves.foldlM (addLeafAll Hash branchpos)
      { count := 0, inner := fun _ => null, matchlevel := none, mutated := false, pbranch := [] }
      with
    | none => rfl
    | some s =>
      simp only [map_some, bind_eq_bind, bind_some]
      cases lowestBit s.count 32 0 with
      | none => rfl
      | some level =>
        have hsweep := sweepAll_root Hash s.inner s.matchlevel 32 s.count {
          level := level, h := s.inner level, matchh := s.matchlevel == some level
          pbranch := s.pbranch, equal := false }
        simp only [bind_some, ← hsweep]
        cases sweepAll Hash s.inner s.matchlevel 32 s.count {
          level := level, h := s.inner level, matchh := s.matchlevel == some level
          pbranch := s.pbranch, equal := false } <;> rfl

end

/-! ## How many leaves -/

section

variable {Hash : H → H → H} {inner : Nat → H} {null : H}

omit [DecidableEq H] in
theorem climb_level {count left level : Nat} {h : H} {r : Nat × H}
    (hclimb : climb Hash inner count left level h = some r) :
    r.1 < level + left ∧ count.testBit r.1 = true := by
  induction left generalizing level h with
  | zero => cases hclimb
  | succ left ih =>
    rw [climb] at hclimb
    split at hclimb
    · next hbit =>
      cases hclimb
      exact ⟨by omega, hbit⟩
    · obtain ⟨hlt, hbit⟩ := ih hclimb
      exact ⟨by omega, hbit⟩

omit [DecidableEq H] in
theorem addLeaf_count {s s' : Nat × (Nat → H)} {leaf : H} (h : addLeaf Hash s leaf = some s') :
    s'.1 = s.1 + 1 ∧ s'.1 ≠ 2 ^ 32 := by
  obtain ⟨⟨level, x⟩, hclimb, h⟩ := bind_eq_some_iff.mp h
  cases h
  refine ⟨rfl, fun heq => ?_⟩
  have heq' : s.1 + 1 = 2 ^ 32 := heq
  obtain ⟨hlt, hbit⟩ := climb_level hclimb
  rw [heq', Nat.testBit_two_pow] at hbit
  have := of_decide_eq_true hbit
  omega

omit [DecidableEq H] in
theorem addLeaves_count {leaves : List H} {s s' : Nat × (Nat → H)}
    (h : leaves.foldlM (addLeaf Hash) s = some s') (hlt : s.1 < 2 ^ 32) :
    s'.1 = s.1 + leaves.length ∧ s'.1 < 2 ^ 32 := by
  induction leaves generalizing s with
  | nil =>
    cases h
    exact ⟨rfl, hlt⟩
  | cons leaf leaves ih =>
    obtain ⟨s1, hadd, h⟩ := bind_eq_some_iff.mp h
    obtain ⟨hcount, hne⟩ := addLeaf_count hadd
    obtain ⟨hs', hlt'⟩ := ih h (by omega)
    rw [List.length_cons]
    exact ⟨by omega, hlt'⟩

omit [DecidableEq H] in
theorem sweep_count {left count level : Nat} {h r : H} (hlevel : level < 32)
    (hsweep : sweep Hash inner left count level h = some r) : count ≤ 2 ^ 31 := by
  induction left generalizing count level h with
  | zero => cases hsweep
  | succ left ih =>
    rw [sweep] at hsweep
    split at hsweep
    · next heq =>
      rw [heq]
      exact Nat.pow_le_pow_right (by decide) (by omega)
    · obtain ⟨⟨level', x⟩, hclimb, hsweep⟩ := bind_eq_some_iff.mp hsweep
      obtain ⟨hlt, -⟩ := climb_level hclimb
      exact (Nat.le_add_right _ _).trans (ih (by omega) hsweep)

omit [DecidableEq H] in
theorem lowestBit_lt {count left level r : Nat} (h : lowestBit count left level = some r) :
    r < level + left := by
  induction left generalizing level with
  | zero => cases h
  | succ left ih =>
    rw [lowestBit] at h
    split at h
    · cases h
      omega
    · have := ih h
      omega

omit [DecidableEq H] in
theorem length_le_of_computeMerkleRoot {leaves : List H} {r : H}
    (h : computeMerkleRoot Hash null leaves = some r) : leaves.length ≤ 2 ^ 31 := by
  rw [computeMerkleRoot] at h
  split at h
  · omega
  · obtain ⟨⟨count, inner⟩, hfold, h⟩ := bind_eq_some_iff.mp h
    obtain ⟨level, hlow, hsweep⟩ := bind_eq_some_iff.mp h
    obtain ⟨hcount, -⟩ := addLeaves_count hfold (Nat.two_pow_pos 32)
    have hlevel := lowestBit_lt hlow
    have hle := sweep_count (by omega) hsweep
    omega

end

end Merkle

end Rcoin
