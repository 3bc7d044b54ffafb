/-
  The `mutated` flag of `ComputeMerkleRoot`: of two lists of leaves with the same root,
  one is reported as mutated (src/consensus/merkle.cpp).
-/
import Rcoin.Merkle.Branch

namespace Rcoin

open List

namespace Merkle

open MerkleTree (EqualSiblings)

variable {H : Type} [DecidableEq H] {Hash : H → H → H} {inner : Nat → H} {leaf : Nat → H}
  {null : H} {n t m count : Nat} {matchlevel : Option Nat}

/-! ## The flag -/

theorem climbAll_equal {left : Nat} {s s' : ClimbState H}
    (hin : InnerAt Hash leaf n t m count inner matchlevel)
    (h : ClimbOk Hash leaf n t count matchlevel s) (hdvd : 2 ^ s.level ∣ count)
    (hlow : count ≤ m + 2 ^ s.level) (hn : count < n + 2 ^ s.level)
    (hclimb : climbAll Hash inner matchlevel count left s = some s') :
    s'.equal = true ↔ s.equal = true ∨ ∃ l, s.level ≤ l ∧ 2 ^ (l + 1) ∣ count ∧
      MerkleTree.hash Hash leaf n l (count / 2 ^ l - 2) =
        MerkleTree.hash Hash leaf n l (count / 2 ^ l - 1) := by
  induction left generalizing s with
  | zero => cases hclimb
  | succ left ih =>
    rw [climbAll] at hclimb
    split at hclimb
    · next hbit =>
      cases hclimb
      refine ⟨.inl, ?_⟩
      rintro (hequal | ⟨l, hle, hdvdl, -⟩)
      · exact hequal
      · rw [testBit_of_dvd hdvdl (Nat.lt_succ_of_le hle)] at hbit
        cases hbit
    · next hbit =>
      have hdvd' := two_pow_succ_dvd hdvd (Bool.eq_false_iff.mpr hbit)
      have hlow' : count ≤ m + 2 ^ (s.level + 1) := by omega
      have hn' : count < n + 2 ^ (s.level + 1) := by omega
      have hrest := ih (h.step hin hdvd' hlow hn) hdvd' hlow' hn' hclimb
      rw [hrest]
      simp only [Bool.or_eq_true, beq_iff_eq, hin.inner_eq s.level hlow hdvd', h.h_eq]
      constructor
      · rintro ((hequal | heq) | ⟨l, hle, hl⟩)
        · exact .inl hequal
        · exact .inr ⟨s.level, Nat.le_refl _, hdvd', heq⟩
        · exact .inr ⟨l, Nat.le_of_succ_le hle, hl⟩
      · rintro (hequal | ⟨l, hle, hl⟩)
        · exact .inl (.inl hequal)
        · rcases Nat.lt_or_eq_of_le hle with hlt | rfl
          · exact .inr ⟨l, hlt, hl⟩
          · exact .inl (.inr hl.2)

theorem addLeafAll_mutated {s s' : LeafState H} (h : LeafOk Hash leaf n t s) (hn : s.count < n)
    (hmutated : s.mutated = true ↔ EqualSiblings Hash leaf n s.count)
    (hadd : addLeafAll Hash t s (leaf s.count) = some s') :
    s'.mutated = true ↔ EqualSiblings Hash leaf n s'.count := by
  obtain ⟨c, hclimb, hs'⟩ := Option.bind_eq_some_iff.mp hadd
  have hlow : s.count + 1 ≤ s.count + 2 ^ 0 := Nat.le_refl _
  have hlt : s.count + 1 < n + 2 ^ 0 := Nat.succ_lt_succ hn
  have hequal := climbAll_equal h.innerAt h.climbOk (Nat.one_dvd _) hlow hlt hclimb
  simp only [Bool.false_eq_true, false_or, Nat.zero_le, true_and] at hequal
  rw [← Option.some.inj hs']
  rw [Bool.or_eq_true, hmutated, hequal, MerkleTree.equalSiblings_succ]

theorem addLeavesAll_mutated {rest : List H} {s s' : LeafState H} (h : LeafOk Hash leaf n t s)
    (hmutated : s.mutated = true ↔ EqualSiblings Hash leaf n s.count)
    (hrest : ∀ i x, rest[i]? = some x → leaf (s.count + i) = x)
    (hn : s.count + rest.length = n) (hlt : n < 2 ^ 32)
    (hfold : rest.foldlM (addLeafAll Hash t) s = some s') :
    s'.mutated = true ↔ EqualSiblings Hash leaf n n := by
  induction rest generalizing s with
  | nil =>
    cases hfold
    have hn' : s'.count = n := hn
    rwa [hn'] at hmutated
  | cons x rest ih =>
    rw [length_cons] at hn
    have hx : leaf s.count = x := hrest 0 x rfl
    obtain ⟨s1, hadd, hcount, h1⟩ := addLeafAll_spec h (by omega) (by omega)
    have hmutated1 := addLeafAll_mutated h (by omega) hmutated hadd
    rw [foldlM_cons, ← hx, hadd] at hfold
    refine ih h1 hmutated1 (fun i y hy => ?_) (by omega) hfold
    rw [hcount, Nat.add_right_comm, Nat.add_assoc]
    exact hrest (i + 1) y hy

theorem computeMerkleRootMutated_spec {leaves : List H} {root : H} {mutated : Bool}
    (hne : leaves ≠ [])
    (h : computeMerkleRootMutated Hash null leaves = some (root, mutated)) :
    (∃ height, MerkleTree.IsHeight leaves.length height ∧
      root = MerkleTree.hash Hash (fun i => leaves.getD i null) leaves.length height 0) ∧
    (mutated = true ↔
      EqualSiblings Hash (fun i => leaves.getD i null) leaves.length leaves.length) := by
  have hroot := computeMerkleRootMutated_map Hash null leaves
  rw [h] at hroot
  have hroot' : computeMerkleRoot Hash null leaves = some root := hroot.symm
  have hlen := length_le_of_computeMerkleRoot hroot'
  have hpos := length_pos_iff.mpr hne
  obtain ⟨height, hheight, hspec⟩ := computeMerkleRoot_spec Hash null hne hlen
  refine ⟨⟨height, hheight, Option.some.inj (hroot'.symm.trans hspec)⟩, ?_⟩
  obtain ⟨r, hr, hpair⟩ := Option.map_eq_some_iff.mp h
  rw [merkleComputation, if_neg (by omega)] at hr
  obtain ⟨s, hfold, hlevels⟩ := Option.bind_eq_some_iff.mp hr
  obtain ⟨level, hlow, hsweeps⟩ := Option.bind_eq_some_iff.mp hlevels
  obtain ⟨c, hsweep, hresult⟩ := Option.bind_eq_some_iff.mp hsweeps
  have hmutated : mutated = s.mutated := by
    rw [← (Prod.mk.inj hpair).2, ← Option.some.inj hresult]
  have hrest : ∀ i x, leaves[i]? = some x → leaves.getD (0 + i) null = x := by
    intro i x hx
    rw [Nat.zero_add, getD_eq_getElem?_getD, hx, Option.getD_some]
  have hstart : LeafOk Hash (fun i => leaves.getD i null) leaves.length 0xffffffff
      { count := 0, inner := fun _ => null, matchlevel := none, mutated := false, pbranch := [] } :=
    leafOk_start
  have hlt : leaves.length < 2 ^ 32 := by omega
  rw [hmutated]
  refine addLeavesAll_mutated hstart ?_ hrest (Nat.zero_add _) hlt hfold
  exact iff_of_false Bool.false_ne_true MerkleTree.not_equalSiblings_zero

/-! ## Two lists with one root -/

section

variable (hHash : ∀ a b c d, Hash a b = Hash c d → a = c ∧ b = d)
include hHash

omit [DecidableEq H] in
theorem eq_of_same_root {xs ys : List H} {height : Nat} (hlen : xs.length = ys.length)
    (hheight : MerkleTree.IsHeight xs.length height)
    (hroot : MerkleTree.hash Hash (fun i => xs.getD i null) xs.length height 0 =
      MerkleTree.hash Hash (fun i => ys.getD i null) ys.length height 0) : xs = ys := by
  have hnodes := (MerkleTree.nodes_eq hHash hlen.le hheight hroot (Nat.zero_le _)).1
  apply List.ext_getElem hlen
  intro i hi hi'
  have hleaf := hnodes i (by rwa [MerkleTree.width_zero])
  simp only [MerkleTree.hash, getD_eq_getElem?_getD, getElem?_eq_getElem hi,
    getElem?_eq_getElem hi', Option.getD_some] at hleaf
  exact hleaf

omit [DecidableEq H] in
theorem equalSiblings_of_same_root {xs ys : List H} {height height' : Nat} (hpos : xs ≠ [])
    (hleaf : ∀ a b, Hash a b ∉ xs) (hleaf' : ∀ a b, Hash a b ∉ ys)
    (hlt : xs.length < ys.length) (hheight : MerkleTree.IsHeight xs.length height)
    (hheight' : MerkleTree.IsHeight ys.length height')
    (hroot : MerkleTree.hash Hash (fun i => xs.getD i null) xs.length height 0 =
      MerkleTree.hash Hash (fun i => ys.getD i null) ys.length height' 0) :
    EqualSiblings Hash (fun i => ys.getD i null) ys.length ys.length := by
  have hfirst : ∀ zs : List H, 0 < zs.length → zs.getD 0 null ∈ zs := by
    intro zs hzs
    rw [getD_eq_getElem?_getD, getElem?_eq_getElem hzs]
    exact getElem_mem hzs
  have hxs := length_pos_iff.mpr hpos
  obtain rfl := MerkleTree.height_eq hHash
    (fun a b heq => hleaf a b (heq ▸ hfirst xs hxs))
    (fun a b heq => hleaf' a b (heq ▸ hfirst ys (hxs.trans hlt))) hroot
  exact MerkleTree.equalSiblings_of_lt hHash hxs hlt hheight hheight' hroot

/-- Of two different lists of leaves with the same root, one is reported as mutated. -/
theorem mutated_of_same_root {xs ys : List H} {root : H} {mutated mutated' : Bool}
    (hleaf : ∀ a b, Hash a b ∉ xs) (hleaf' : ∀ a b, Hash a b ∉ ys) (hxs : xs ≠ [])
    (hys : ys ≠ []) (hne : xs ≠ ys)
    (hroot : computeMerkleRootMutated Hash null xs = some (root, mutated))
    (hroot' : computeMerkleRootMutated Hash null ys = some (root, mutated')) :
    mutated = true ∨ mutated' = true := by
  obtain ⟨⟨height, hheight, htop⟩, hflag⟩ := computeMerkleRootMutated_spec hxs hroot
  obtain ⟨⟨height', hheight', htop'⟩, hflag'⟩ := computeMerkleRootMutated_spec hys hroot'
  have heq := htop.symm.trans htop'
  rcases Nat.lt_trichotomy xs.length ys.length with hlt | hlen | hlt
  · right
    rw [hflag']
    exact equalSiblings_of_same_root hHash hxs hleaf hleaf' hlt hheight hheight' heq
  · have hheights : height = height' := hheight.unique (hlen ▸ hheight')
    rw [← hheights] at heq
    exact absurd (eq_of_same_root hHash hlen hheight heq) hne
  · left
    rw [hflag]
    exact equalSiblings_of_same_root hHash hys hleaf' hleaf hlt hheight' hheight heq.symm

end

/-- Hashes written out: a single leaf, or the pair that was hashed. -/
inductive HashTerm where
  | single (x : Nat)
  | pair (left right : HashTerm)
  deriving DecidableEq

namespace HashTerm

def threeLeaves : List HashTerm := [single 1, single 2, single 3]

/-- The last of the three leaves once more. -/
def fourLeaves : List HashTerm := [single 1, single 2, single 3, single 3]

def sameRoot : HashTerm := pair (pair (single 1) (single 2)) (pair (single 3) (single 3))

end HashTerm

open HashTerm in
theorem mutated_of_same_root_sample :
    computeMerkleRootMutated pair (single 0) threeLeaves = some (sameRoot, false) ∧
      computeMerkleRootMutated pair (single 0) fourLeaves = some (sameRoot, true) ∧
      (false = true ∨ true = true) := by
  have hthree : computeMerkleRootMutated pair (single 0) threeLeaves = some (sameRoot, false) := by
    decide
  have hfour : computeMerkleRootMutated pair (single 0) fourLeaves = some (sameRoot, true) := by
    decide
  refine ⟨hthree, hfour, mutated_of_same_root (fun a b c d heq => pair.inj heq) ?_ ?_ ?_ ?_ ?_
    hthree hfour⟩
  all_goals simp [threeLeaves, fourLeaves]

end Merkle

end Rcoin
