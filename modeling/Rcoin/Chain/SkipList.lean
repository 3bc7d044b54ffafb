/-
  Trees of blocks whose skip pointers are set by `BuildSkip`, in any order: the walk
  of `GetAncestor` ends where the walk along `pprev` does.

  Source: src/chain.cpp.
-/
import Rcoin.Chain.Load

namespace Rcoin

namespace BlockMap

variable {m : BlockMap} {k : Uint256} {e e' : CBlockIndexEntry}

/-- The block `n` steps along `pprev`. -/
def back (m : BlockMap) : Nat → Uint256 → Option Uint256
  | 0, k => some k
  | n + 1, k => (m.pprev k).bind (m.back n)

/-- The trees of blocks that come about when blocks are put under blocks of the tree,
    without a skip pointer, and `BuildSkip` is called for blocks of the tree. -/
inductive SkipsBuilt : BlockMap → Prop
  | empty : SkipsBuilt ∅
  | add {m : BlockMap} {e : CBlockIndexEntry} (hm : SkipsBuilt m) (hnew : e.hash ∉ m)
      (hparent : ∀ p, e.pprev = some p → ∃ e', m.lookup p = some e' ∧ e.nHeight = e'.nHeight + 1)
      (hroot : e.pprev = none → e.nHeight = 0) (hskip : e.pskip = none) :
      SkipsBuilt (AList.insert e.hash e m)
  | build {m : BlockMap} {k : Uint256} {e e' : CBlockIndexEntry} (hm : SkipsBuilt m)
      (he : m.lookup k = some e) (hbuild : m.buildSkip e = some e') :
      SkipsBuilt (AList.insert k e' m)

theorem TreeOk.up_forest (h : TreeOk m) (n : Nat) (k : Uint256) : h.forest.up n k = m.back n k := by
  induction n generalizing k with
  | zero => rfl
  | succ n ih =>
    exact congrArg _ (funext ih)

theorem buildSkip_spec (h : TreeOk m) (hskip : SkipOk m h) (he : m.lookup k = some e) :
    ∃ pskip, m.buildSkip e = some { e with pskip := pskip } ∧
      ∀ skip, pskip = some skip → e.pprev.bind (fun p =>
        h.forest.ancestorAt (getSkipHeight e.nHeight) p) = some skip ∨ e.pskip = some skip := by
  cases hp : e.pprev with
  | none =>
    refine ⟨e.pskip, ?_, fun skip hs => .inr hs⟩
    simp only [buildSkip, hp]
  | some p =>
    obtain ⟨e', he', hheight⟩ := h.parent k e p he hp
    have hmem : p ∈ m := AList.lookup_isSome.mp (by rw [he']; rfl)
    refine ⟨h.forest.ancestorAt (getSkipHeight e.nHeight) p, ?_, fun skip hs => .inl ?_⟩
    · have hanc := getAncestor_eq h hskip hmem (getSkipHeight e.nHeight : Nat)
      rw [if_neg (by omega), Int.toNat_natCast] at hanc
      simp only [buildSkip, hp, hanc, Option.bind_eq_bind, Option.bind_some]
    · rw [Option.bind_some, hs]

theorem SkipsBuilt.skipOk (hm : SkipsBuilt m) : ∃ h : TreeOk m, SkipOk m h := by
  induction hm with
  | empty => exact ⟨TreeOk.empty, fun _ _ _ hl => nomatch hl⟩
  | @add m e hm hnew hparent hroot hskip ih =>
    obtain ⟨h, hok⟩ := ih
    have h' := h.insert hnew rfl hparent hroot
    -- no skip pointer is new
    refine ⟨h', SkipOk.insert hok h' hnew (fun p hp => ?_) fun skip hs => ?_⟩
    · obtain ⟨e', he', -⟩ := hparent p hp
      exact AList.lookup_isSome.mp (by rw [he']; rfl)
    · rw [hskip] at hs
      exact nomatch hs
  | @build m k e e' hm he hbuild ih =>
    obtain ⟨h, hok⟩ := ih
    obtain ⟨pskip, hsome, hpskip⟩ := buildSkip_spec h hok he
    obtain rfl := Option.some.inj (hbuild.symm.trans hsome)
    have hsame : SameBlocks m (AList.insert k { e with pskip := pskip } m) := by
      intro k'
      rw [Maps.lookup_insert]
      split
      next heq => rw [heq, he, Option.map_some, Option.map_some]
      next => rfl
    have h' := hsame.treeOk h
    refine ⟨h', fun k' e' skip he' hs => ?_⟩
    rw [hsame.forest_eq h h']
    rw [Maps.lookup_insert] at he'
    split at he'
    next =>
      cases he'
      rcases hpskip skip hs with hto | hold
      · exact hto
      · exact hok k e skip he hold
    next => exact hok k' e' skip he' hs

/-- `GetAncestor` returns the block that as many steps along `pprev` lead to. -/
theorem SkipsBuilt.getAncestor_eq_back (hm : SkipsBuilt m) (he : m.lookup k = some e)
    {height : Nat} (hheight : height ≤ e.nHeight) :
    ∃ a, m.back (e.nHeight - height) k = some a ∧ m.getAncestor k height = some (some a) := by
  obtain ⟨h, hok⟩ := hm.skipOk
  have hk : k ∈ m := AList.lookup_isSome.mp (by rw [he]; rfl)
  have heh : h.forest.height k = e.nHeight := nHeight_of_lookup he
  obtain ⟨a, ha, -⟩ := h.forest.exists_ancestorAt (k := k) (h := height) (by omega)
  refine ⟨a, ?_, ?_⟩
  · rw [← h.up_forest, ← heh]
    exact h.forest.up_of_ancestorAt ha
  · rw [getAncestor_eq h hok hk, if_neg (by omega), Int.toNat_natCast, ha]

/-- A block at height 1 below the first one, with its skip pointer built. -/
theorem getAncestor_eq_back_sample :
    let root : CBlockIndexEntry :=
      { hash := 1, pprev := none, nHeight := 0, nVersion := 1, nTime := 0, nBits := 0 }
    let block : CBlockIndexEntry :=
      { hash := 2, pprev := some 1, nHeight := 1, nVersion := 1, nTime := 0, nBits := 0 }
    let m : BlockMap := AList.insert 2 { block with pskip := some 1 }
      (AList.insert 2 block (AList.insert 1 root ∅))
    ∃ a, m.back 1 2 = some a ∧ m.getAncestor 2 0 = some (some a) := by
  intro root block m
  have h1 : SkipsBuilt (AList.insert 1 root ∅) :=
    .add (e := root) .empty (AList.notMem_empty _) (fun _ hp => by simp [root] at hp)
      (fun _ => rfl) rfl
  have h2 : SkipsBuilt (AList.insert 2 block (AList.insert 1 root ∅)) :=
    .add (e := block) h1 (by decide) (fun p hp => ⟨root, by rw [← Option.some.inj hp]; rfl, rfl⟩)
      (fun hp => by simp [block] at hp) rfl
  have h3 : SkipsBuilt m := .build h2 (e := block) rfl rfl
  have hlookup : m.lookup 2 = some { block with pskip := some 1 } := rfl
  have hheight : 0 ≤ ({ block with pskip := some 1 } : CBlockIndexEntry).nHeight := Nat.zero_le _
  exact h3.getAncestor_eq_back hlookup hheight

end BlockMap

end Rcoin
