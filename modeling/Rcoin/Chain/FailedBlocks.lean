/-
  `g_failed_blocks` and the flag of its blocks.  `AcceptBlockHeader` asserts that each
  failed block it finds below a header carries BLOCK_FAILED_VALID.  Every operation
  keeps this but `ResetBlockFailureFlags`, which clears the flags of the ancestors of its
  block and leaves them in the set.

  Source: src/validation.cpp.
-/
import Rcoin.Chain.Verdicts

namespace Rcoin

open BlockMap Option

namespace ChainState

variable {s s' : ChainState} {k x pindex : Uint256} {fails : Uint256 → Bool}

/-- Each block of `g_failed_blocks` carries BLOCK_FAILED_VALID. -/
def FailedOk (s : ChainState) : Prop :=
  ∀ k ∈ s.g_failed_blocks, ∃ e, s.mapBlockIndex.lookup k = some e ∧ e.nStatus.failedValid = true

/-! ## One operation -/

theorem invalidBlockFound_failedOk (hf : s.FailedOk) (hp : pindex ∈ s.mapBlockIndex)
    (corruptionPossible : Bool) : (s.invalidBlockFound pindex corruptionPossible).FailedOk := by
  rw [invalidBlockFound]
  split
  next => exact hf
  next =>
    intro k hk
    rw [lookup_update]
    split
    next =>
      obtain ⟨e, he⟩ := WellFormed.lookup_of_mem hp
      exact ⟨e.setFailedValid, by rw [he]; rfl, rfl⟩
    next hne => exact hf k ((SortedSet.mem_insert.mp hk).resolve_left hne)

theorem invalidated_failedOk (hf : s.FailedOk) (hp : pindex ∈ s.mapBlockIndex)
    (chain path : List Uint256) (c : SortedSet Uint256) :
    (s.invalidated pindex chain path c).FailedOk := by
  have hidem : ∀ e : CBlockIndexEntry, e.setFailedChild.setFailedChild = e.setFailedChild :=
    fun _ => rfl
  intro k hk
  show ∃ e, ((s.mapBlockIndex.updateAll path _).update pindex _).lookup k = some e ∧ _
  rw [lookup_update, lookup_updateAll hidem, lookup_updateAll hidem]
  by_cases hkp : k = pindex
  · obtain ⟨e, he⟩ := WellFormed.lookup_of_mem hp
    rw [if_pos hkp, he]
    split
    · exact ⟨_, rfl, rfl⟩
    · exact ⟨_, rfl, rfl⟩
  · obtain ⟨e, he, hflag⟩ := hf k ((SortedSet.mem_insert.mp hk).resolve_left hkp)
    rw [if_neg hkp, he]
    split
    · exact ⟨_, rfl, hflag⟩
    · exact ⟨_, rfl, hflag⟩

theorem resetBlockFailureFlags_failedOk_iff (hs : s.WellFormed) (hf : s.FailedOk)
    (hp : pindex ∈ s.mapBlockIndex) :
    ∃ s', s.resetBlockFailureFlags pindex = some s' ∧ s'.WellFormed ∧
      (s'.FailedOk ↔ ∀ a ∈ s.g_failed_blocks, hs.tree.forest.IsAncestor a pindex → a = pindex) := by
  obtain ⟨m, c, g, hres, hstatus, hclear, hkeep, hg, -⟩ := resetBlockFailureFlags_spec hs hp
  have htree := hstatus.sameTree
  refine ⟨_, hres, ?_, ?_⟩
  · refine hs.of_sameTree htree (List.prefix_refl _) hs.nonempty fun x hx => ?_
    exact htree.mem_iff.mp (hs.failed x ((hg x).mp hx).1)
  · constructor
    · intro hf' a ha hanc
      by_contra hne
      obtain ⟨e, he, -⟩ := hf a ha
      -- a proper ancestor is not a descendant, so that the set keeps it
      have hno : ¬ s.isReset pindex a = true := fun h => by
        have hdesc := ((isReset_iff hs he).mp h).2
        exact hne (hanc.eq_of_height hdesc.height_le)
      obtain ⟨e', he', hflag⟩ := hf' a ((hg a).mpr ⟨ha, hno⟩)
      have hcleared := hclear a (.inr hanc)
      rw [he] at hcleared
      have heq : e' = e.clearFailed := some.inj (he'.symm.trans hcleared)
      rw [heq] at hflag
      cases hflag
    · intro hall k hk
      obtain ⟨hkf, hno⟩ := (hg k).mp hk
      obtain ⟨e, he, hflag⟩ := hf k hkf
      refine ⟨e, (hkeep k hno fun hanc => hno ?_).trans he, hflag⟩
      rw [hall k hkf hanc]
      rw [hall k hkf hanc] at he
      refine (isReset_iff hs he).mpr ⟨?_, Forest.IsAncestor.refl _⟩
      refine CBlockIndexEntry.isValid_eq_false_of_failed ?_ _
      rw [BlockStatus.failed, hflag, Bool.true_or]

theorem findFailedAncestor_spec (hs : s.WellFormed) (hx : x ∈ s.mapBlockIndex)
    {l : List Uint256}
    (hl : ∀ k ∈ l, ∃ e, s.mapBlockIndex.lookup k = some e ∧ e.nStatus.failedValid = true) :
    ∃ r, findFailedAncestor s.mapBlockIndex x l = some r ∧
      ∀ a, r = some a → hs.tree.forest.IsAncestor a x := by
  induction l with
  | nil => exact ⟨none, rfl, fun a ha => by cases ha⟩
  | cons k l ih =>
    obtain ⟨e, he, hflag⟩ := hl k List.mem_cons_self
    have hheight : hs.tree.forest.height k = e.nHeight := nHeight_of_lookup he
    have hneg : ¬ ((e.nHeight : Nat) : Int) < 0 := by omega
    simp only [findFailedAncestor, he, bind_eq_bind, bind_some,
      BlockMap.getAncestor_eq hs.tree hs.skip hx, if_neg hneg, Int.toNat_natCast]
    by_cases hat : hs.tree.forest.ancestorAt e.nHeight x = some k
    · rw [if_pos hat, if_pos hflag]
      refine ⟨some k, rfl, fun a ha => ?_⟩
      rw [← some.inj ha, Forest.isAncestor_iff, hheight, hat]
    · rw [if_neg hat]
      exact ih fun k hk => hl k (List.mem_cons_of_mem _ hk)

theorem failedOk_of_lookup (hf : s.FailedOk) (hg : s'.g_failed_blocks = s.g_failed_blocks)
    (hkeep : ∀ k e, s.mapBlockIndex.lookup k = some e → s'.mapBlockIndex.lookup k = some e) :
    s'.FailedOk := by
  intro k hk
  rw [hg] at hk
  obtain ⟨e, he, hflag⟩ := hf k hk
  exact ⟨e, hkeep k e he, hflag⟩

theorem markFailedChildren (hs : s.WellFormed) (hf : s.FailedOk) (path : List Uint256) :
    WellFormed { s with
      mapBlockIndex := s.mapBlockIndex.updateAll path (·.setFailedChild) } ∧
    FailedOk { s with
      mapBlockIndex := s.mapBlockIndex.updateAll path (·.setFailedChild) } := by
  have htree : s.mapBlockIndex.SameTree
      (s.mapBlockIndex.updateAll path (·.setFailedChild)) :=
    (statusOnly_updateAll CBlockIndexEntry.setFailedChild_status).sameTree
  refine ⟨hs.of_sameTree htree (List.prefix_refl _) hs.nonempty
    fun x hx => htree.mem_iff.mp (hs.failed x hx), fun k hk => ?_⟩
  obtain ⟨e, he, hflag⟩ := hf k hk
  have hidem : ∀ e : CBlockIndexEntry, e.setFailedChild.setFailedChild = e.setFailedChild :=
    fun _ => rfl
  rw [lookup_updateAll hidem, he]
  -- the flag of a descendant does not touch the block's own
  split
  · exact ⟨_, rfl, hflag⟩
  · exact ⟨_, rfl, hflag⟩

theorem acceptBlockHeader_spec (hs : s.WellFormed) (hf : s.FailedOk) (env : HeaderEnv)
    (block : CBlockHeader) :
    ∃ r s', acceptBlockHeader env s block = some (r, s') ∧ s'.WellFormed ∧ s'.FailedOk := by
  have hstay : ∀ r : Except String Uint256, ∃ r' s', some (r, s) = some (r', s') ∧
      s'.WellFormed ∧ s'.FailedOk := fun r => ⟨r, s, rfl, hs, hf⟩
  obtain ⟨s1, hadd, hs1, hg1, hkeep⟩ := addToBlockIndex_spec hs block
  have hf1 : s1.FailedOk := failedOk_of_lookup hf hg1 hkeep
  simp only [acceptBlockHeader, hadd, bind_eq_bind, bind_some]
  by_cases hgenesis : block.hash = env.hashGenesisBlock
  · rw [if_pos hgenesis]
    exact ⟨_, s1, rfl, hs1, hf1⟩
  · rw [if_neg hgenesis]
    cases hself : s.mapBlockIndex.lookup block.hash with
    | some e =>
      simp only
      split
      · exact hstay _
      · exact hstay _
    | none =>
      simp only
      split
      · exact hstay _
      · cases hprev : s.mapBlockIndex.lookup block.hashPrevBlock with
        | none => exact hstay _
        | some prev =>
          simp only
          split
          · exact hstay _
          · split
            · exact hstay _
            · split
              · exact ⟨_, s1, rfl, hs1, hf1⟩
              · have hmem : block.hashPrevBlock ∈ s.mapBlockIndex :=
                  AList.lookup_isSome.mp (by rw [hprev]; rfl)
                have hheight : hs.tree.forest.height block.hashPrevBlock = prev.nHeight :=
                  nHeight_of_lookup hprev
                obtain ⟨r, hr, hanc⟩ := findFailedAncestor_spec hs hmem (l := s.g_failed_blocks.elems)
                  fun k hk => hf k hk
                rw [hr, bind_some]
                cases r with
                | none => exact ⟨_, s1, rfl, hs1, hf1⟩
                | some a =>
                  -- the walk from the parent ends at the failed ancestor
                  have hfuel : hs.tree.forest.height block.hashPrevBlock ≤
                      hs.tree.forest.height a + (prev.nHeight + 1) := by omega
                  obtain ⟨path, hpath, -⟩ :=
                    pathUntil_spec hs.tree hmem (hanc a rfl) hfuel
                  simp only [hpath, bind_some]
                  exact ⟨_, _, rfl, markFailedChildren hs hf path⟩

end ChainState

open ChainState

/-! ## Runs -/

/-- The operations that touch the failed blocks, with what they are given. -/
inductive TreeOp where
  | invalidBlockFound (pindex : Uint256) (corruptionPossible : Bool)
  | invalidateBlock (pindex : Uint256) (fails : Uint256 → Bool)
  | resetBlockFailureFlags (pindex : Uint256)
  | acceptBlockHeader (env : HeaderEnv) (block : CBlockHeader)

namespace TreeOp

def apply (s : ChainState) : TreeOp → Option ChainState
  | .invalidBlockFound pindex corruptionPossible => s.invalidBlockFound pindex corruptionPossible
  | .invalidateBlock pindex fails => (s.invalidateBlock pindex fails).map Prod.snd
  | .resetBlockFailureFlags pindex => s.resetBlockFailureFlags pindex
  | .acceptBlockHeader env block => (ChainState.acceptBlockHeader env s block).map Prod.snd

def run (s : ChainState) (ops : List TreeOp) : Option ChainState := ops.foldlM apply s

/-- A pointer that is passed goes to a block of the index. -/
def Legal (s : ChainState) : TreeOp → Prop
  | .invalidBlockFound pindex _ => pindex ∈ s.mapBlockIndex
  | .invalidateBlock pindex _ => pindex ∈ s.mapBlockIndex
  | .resetBlockFailureFlags pindex => pindex ∈ s.mapBlockIndex
  | .acceptBlockHeader _ _ => True

/-- The flags are reset of no block with a proper ancestor in `g_failed_blocks`. -/
def SparesAncestors (s : ChainState) : TreeOp → Prop
  | .resetBlockFailureFlags pindex => ∀ a ∈ s.g_failed_blocks,
      s.mapBlockIndex.getAncestor pindex (s.mapBlockIndex.nHeight a) = some (some a) → a = pindex
  | _ => True

/-- `P` holds of each operation of the run, in the state it meets. -/
def Always (P : ChainState → TreeOp → Prop) : ChainState → List TreeOp → Prop
  | _, [] => True
  | s, op :: ops => P s op ∧ ∀ s', op.apply s = some s' → Always P s' ops

variable {s : ChainState} {op : TreeOp}

theorem step (hs : s.WellFormed) (hf : s.FailedOk) (hlegal : Legal s op) :
    ∃ s', op.apply s = some s' ∧ s'.WellFormed ∧ (s'.FailedOk ↔ SparesAncestors s op) := by
  cases op with
  | invalidBlockFound pindex corruptionPossible =>
    refine ⟨_, rfl, invalidBlockFound_wellFormed hs hlegal _, ?_⟩
    exact iff_of_true (invalidBlockFound_failedOk hf hlegal _) trivial
  | invalidateBlock pindex fails =>
    obtain ⟨ok, chain, path, c, hres, hpre, hne, -⟩ :=
      invalidateBlock_spec fails hs hlegal
    refine ⟨_, by rw [apply, hres]; rfl, ?_⟩
    cases ok with
    | false =>
      exact ⟨hs.of_sameTree (BlockMap.SameTree.refl _) hpre hne hs.failed,
        iff_of_true (failedOk_of_lookup hf rfl fun _ _ he => he) trivial⟩
    | true =>
      exact ⟨invalidated_wellFormed path c hs hlegal hpre hne,
        iff_of_true (invalidated_failedOk hf hlegal chain path c) trivial⟩
  | resetBlockFailureFlags pindex =>
    obtain ⟨s', hres, hs', hiff⟩ := resetBlockFailureFlags_failedOk_iff hs hf hlegal
    refine ⟨s', hres, hs', hiff.trans (forall₂_congr fun a _ => ?_)⟩
    have hneg : ¬ ((s.mapBlockIndex.nHeight a : Nat) : Int) < 0 := by omega
    rw [BlockMap.getAncestor_eq hs.tree hs.skip hlegal, if_neg hneg, Int.toNat_natCast,
      some.injEq, Forest.isAncestor_iff]
    rfl
  | acceptBlockHeader env block =>
    obtain ⟨r, s', hres, hs', hf'⟩ := acceptBlockHeader_spec hs hf env block
    exact ⟨s', by rw [apply, hres]; rfl, hs', iff_of_true hf' trivial⟩

variable {ops : List TreeOp}

theorem run_spec (hs : s.WellFormed) (hf : s.FailedOk) (hlegal : Always Legal s ops)
    (hspares : Always SparesAncestors s ops) :
    ∃ s', run s ops = some s' ∧ s'.WellFormed ∧ s'.FailedOk := by
  induction ops generalizing s with
  | nil => exact ⟨s, rfl, hs, hf⟩
  | cons op ops ih =>
    obtain ⟨s1, hstep, hs1, hiff⟩ := step hs hf hlegal.1
    obtain ⟨s', hrun, hs', hf'⟩ :=
      ih hs1 (hiff.mpr hspares.1) (hlegal.2 s1 hstep) (hspares.2 s1 hstep)
    refine ⟨s', ?_, hs', hf'⟩
    rw [run, List.foldlM_cons, hstep]
    exact hrun

/-- Over a run of legal operations the failed blocks carry the flag after each exactly
    when none resets a block with a failed proper ancestor; in such a run no assertion fails,
    nor does one for the next header. -/
theorem failedBlocks_flagged {s : ChainState} (hs : s.WellFormed) (hf : s.FailedOk)
    (ops : List TreeOp) (hlegal : Always Legal s ops) :
    (Always (fun s op => ∃ s', op.apply s = some s' ∧ s'.FailedOk) s ops ↔
        Always SparesAncestors s ops) ∧
      (Always SparesAncestors s ops → ∃ s', run s ops = some s' ∧ s'.FailedOk ∧
        ∀ env block, (ChainState.acceptBlockHeader env s' block).isSome = true) := by
  constructor
  · induction ops generalizing s with
    | nil => exact Iff.rfl
    | cons op ops ih =>
      obtain ⟨s1, hstep, hs1, hiff⟩ := step hs hf hlegal.1
      have hrest : s1.FailedOk → ∀ s', op.apply s = some s' →
          (Always (fun s op => ∃ s', op.apply s = some s' ∧ s'.FailedOk) s' ops ↔
            Always SparesAncestors s' ops) := by
        intro hf1 s' hs'
        obtain rfl := some.inj (hstep.symm.trans hs')
        exact ih hs1 hf1 (hlegal.2 s1 hstep)
      constructor
      · rintro ⟨⟨s2, hs2, hf2⟩, hall⟩
        obtain rfl := some.inj (hstep.symm.trans hs2)
        exact ⟨hiff.mp hf2, fun s' hs' => (hrest hf2 s' hs').mp (hall s' hs')⟩
      · rintro ⟨hspares, hall⟩
        have hf1 := hiff.mpr hspares
        exact ⟨⟨s1, hstep, hf1⟩, fun s' hs' => (hrest hf1 s' hs').mpr (hall s' hs')⟩
  · intro hspares
    obtain ⟨s', hrun, hs', hf'⟩ := run_spec hs hf hlegal hspares
    refine ⟨s', hrun, hf', fun env block => ?_⟩
    obtain ⟨r, s'', hres, -⟩ := ChainState.acceptBlockHeader_spec hs' hf' env block
    rw [hres]
    rfl

section Samples

def sampleHeaderEnv : HeaderEnv :=
  { hashGenesisBlock := 1, checkBlockHeader := fun _ => true,
    contextualCheckBlockHeader := fun _ _ => true }

def sampleHeader (hash hashPrevBlock : Uint256) : CBlockHeader :=
  { hash := hash, hashPrevBlock := hashPrevBlock, nTime := 0, nBits := 0 }

def sampleGenesis : CBlockIndexEntry :=
  { hash := 1, nHeight := 0, pprev := none, nVersion := 1, nTime := 0, nBits := 0,
    nStatus := { valid := BLOCK_VALID_SCRIPTS } }

/-- A node that knows the genesis block. -/
def sampleChainState : ChainState :=
  { mapBlockIndex := AList.insert 1 sampleGenesis ∅, chainActive := [1] }

/-- The headers of two blocks arrive, the first one is invalidated, and the second one
    reconsidered. -/
def sampleReconsider : List TreeOp :=
  [.acceptBlockHeader sampleHeaderEnv (sampleHeader 2 1),
    .acceptBlockHeader sampleHeaderEnv (sampleHeader 3 2),
    .invalidateBlock 2 fun _ => false, .resetBlockFailureFlags 3]

/-- Then the first block is in `g_failed_blocks` without the flag, and the header of a
    third block fails the assertion. -/
theorem failedBlocks_not_flagged : (run sampleChainState sampleReconsider).any (fun s =>
    decide (2 ∈ s.g_failed_blocks) &&
      (s.mapBlockIndex.lookup 2).any (fun e => !e.nStatus.failedValid) &&
      (ChainState.acceptBlockHeader sampleHeaderEnv s (sampleHeader 4 3)).isNone) = true := by
  decide

theorem sampleChainState_wellFormed : sampleChainState.WellFormed := by
  have htree : sampleChainState.mapBlockIndex.TreeOk :=
    TreeOk.empty.insert (by decide) rfl (fun p hp => by cases hp) fun _ => rfl
  refine ⟨htree, ?_, List.cons_ne_nil _ _, ?_, fun k hk => by cases hk⟩
  · intro k e skip he hs
    have hentry : e.pskip = none := by
      rw [sampleChainState, Maps.lookup_insert] at he
      split at he
      · rw [← some.inj he]
        rfl
      · cases he
    rw [hentry] at hs
    cases hs
  · intro i k hk
    cases i with
    | zero =>
      obtain rfl : 1 = k := some.inj hk
      exact ⟨by decide, rfl, fun h => absurd h (Nat.lt_irrefl 0)⟩
    | succ i => cases hk

theorem Always.cons {P : ChainState → TreeOp → Prop} {s' : ChainState} (hP : P s op)
    (happly : op.apply s = some s') (hrest : Always P s' ops) : Always P s (op :: ops) := by
  refine ⟨hP, fun s'' hs'' => ?_⟩
  rwa [← some.inj (happly.symm.trans hs'')]

/-- The two headers, the first block invalidated, and a header on the second one. -/
def sampleFailed : List TreeOp :=
  sampleReconsider.take 3 ++ [.acceptBlockHeader sampleHeaderEnv (sampleHeader 4 3)]

theorem failedBlocks_flagged_sample : ∃ s', run sampleChainState sampleFailed = some s' ∧
    s'.g_failed_blocks.elems = [2] ∧ s'.FailedOk ∧
      ∀ env block, (ChainState.acceptBlockHeader env s' block).isSome = true := by
  obtain ⟨s', hrun, hf, hnext⟩ := (failedBlocks_flagged sampleChainState_wellFormed
    (fun k hk => by cases hk) sampleFailed
    (Always.cons trivial rfl (Always.cons trivial rfl
      (Always.cons ((AList.mem_insert _).mpr (.inr ((AList.mem_insert _).mpr (.inl rfl)))) rfl
        (Always.cons trivial rfl trivial))))).2
    (Always.cons trivial rfl (Always.cons trivial rfl (Always.cons trivial rfl
      (Always.cons trivial rfl trivial))))
  refine ⟨s', hrun, ?_, hf, hnext⟩
  cases hrun
  rfl

end Samples

end TreeOp

end Rcoin
