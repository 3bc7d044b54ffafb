/-
  What the verdicts on blocks (`InvalidBlockFound`, `InvalidateBlock` and
  `ResetBlockFailureFlags`) do to the flags and to the sets of blocks.

  Source: src/validation.cpp.
-/
import Rcoin.Chain.Headers

namespace Rcoin

open BlockMap List Option SortedSet

namespace CBlockIndexEntry

theorem setFailedValid_status (e : CBlockIndexEntry) :
    ∃ st, e.setFailedValid = { e with nStatus := st } := ⟨_, rfl⟩

theorem setFailedChild_status (e : CBlockIndexEntry) :
    ∃ st, e.setFailedChild = { e with nStatus := st } := ⟨_, rfl⟩

theorem clearFailed_status (e : CBlockIndexEntry) :
    ∃ st, e.clearFailed = { e with nStatus := st } := ⟨_, rfl⟩

theorem isValid_eq_false_of_failed {e : CBlockIndexEntry} (h : e.nStatus.failed = true) (n : Nat) :
    e.isValid n = false := by
  rw [isValid, h]
  rfl

end CBlockIndexEntry

open CBlockIndexEntry

namespace ChainState

variable {s s' : ChainState} {k x pindex : Uint256} {fails : Uint256 → Bool}

theorem WellFormed.lookup_of_mem (hk : k ∈ s.mapBlockIndex) :
    ∃ e, s.mapBlockIndex.lookup k = some e :=
  isSome_iff_exists.mp (AList.lookup_isSome.mpr hk)

/-! ## InvalidBlockFound -/

theorem invalidBlockFound_wellFormed (hs : s.WellFormed) (hp : pindex ∈ s.mapBlockIndex)
    (corruptionPossible : Bool) : (s.invalidBlockFound pindex corruptionPossible).WellFormed := by
  rw [invalidBlockFound]
  split
  next => exact hs
  next =>
    have htree : s.mapBlockIndex.SameTree (s.mapBlockIndex.update pindex (·.setFailedValid)) :=
      (statusOnly_update setFailedValid_status).sameTree
    refine hs.of_sameTree htree (prefix_refl _) hs.nonempty ?_
    intro x hx
    rcases mem_insert.mp hx with rfl | hx
    · exact htree.mem_iff.mp hp
    · exact htree.mem_iff.mp (hs.failed x hx)

/-! ## InvalidateBlock -/

theorem disconnectTip_spec (hs : s.WellFormed) (fails : Uint256 → Bool) :
    s.disconnectTip fails = some (false, s) ∨
      (s.disconnectTip fails = some (true, { s with chainActive := s.chainActive.dropLast }) ∧
        s.chainActive.dropLast ≠ []) := by
  obtain ⟨t, e, ht, he, hat⟩ := hs.exists_tip
  simp only [disconnectTip, ht, he, bind_eq_bind, bind_some]
  by_cases hfail : (fails t || e.pprev.isNone) = true
  · exact .inl (if_pos hfail)
  · refine .inr ⟨if_neg hfail, ?_⟩
    intro hnil
    -- a chain of one block is the genesis block alone
    have hlen := congrArg length hnil
    rw [length_dropLast, length_nil] at hlen
    have hparent : hs.tree.forest.parent t = e.pprev := pprev_of_lookup he
    cases hp : e.pprev with
    | none =>
      rw [hp] at hfail
      simp at hfail
    | some p =>
      have hh := hs.tree.forest.height_parent (hparent.trans hp)
      have hheight := (hs.chain _ t hat).2.1
      omega

theorem disconnectWhile_spec (pindex : Uint256) (fails : Uint256 → Bool) (hs : s.WellFormed)
    {fuel : Nat} (hfuel : s.chainActive.length ≤ fuel) :
    ∃ ok l, disconnectWhile pindex fails fuel s = some (ok, { s with chainActive := l }) ∧
      l <+: s.chainActive ∧ l ≠ [] ∧ (ok = true → pindex ∉ l) := by
  induction fuel generalizing s with
  | zero => exact absurd (eq_nil_of_length_eq_zero (Nat.le_zero.mp hfuel)) hs.nonempty
  | succ fuel ih =>
    rw [disconnectWhile]
    by_cases hmem : s.contains pindex = true
    · rw [if_pos hmem]
      rcases disconnectTip_spec hs fails with hfail | ⟨hok, hne⟩
      · rw [hfail]
        exact ⟨false, s.chainActive, rfl, prefix_refl _, hs.nonempty, fun h => by cases h⟩
      · have hs' : WellFormed { s with chainActive := s.chainActive.dropLast } :=
          hs.of_sameTree (SameTree.refl _) ( dropLast_prefix _) hne hs.failed
        have hlen : s.chainActive.dropLast.length ≤ fuel := by
          rw [length_dropLast]
          omega
        obtain ⟨ok, l, hres, hpre, hl, hnot⟩ := ih hs' hlen
        rw [hok]
        exact ⟨ok, l, hres, hpre.trans ( dropLast_prefix _), hl, hnot⟩
    · rw [if_neg hmem]
      exact ⟨true, s.chainActive, rfl, prefix_refl _, hs.nonempty, fun _ hin =>
        hmem (hs.contains_iff.mpr hin)⟩

/-- Whether the loop of `InvalidateBlock` over all blocks puts `k` into the candidates. -/
def isCandidate (s : ChainState) (k : Uint256) : Bool :=
  (s.mapBlockIndex.lookup k).any fun e =>
    e.isValid BLOCK_VALID_TRANSACTIONS && decide (e.nChainTx ≠ 0) &&
      (s.tip.bind s.mapBlockIndex.lookup).any fun tipEntry => !e.workComparator tipEntry

theorem addCandidate_spec (hs : s.WellFormed) (hk : k ∈ s.mapBlockIndex) :
    s.addCandidate k = some (if s.isCandidate k then
      { s with setBlockIndexCandidates := s.setBlockIndexCandidates.insert k } else s) := by
  obtain ⟨e, he⟩ := WellFormed.lookup_of_mem hk
  obtain ⟨t, te, ht, hte, -⟩ := hs.exists_tip
  simp only [addCandidate, isCandidate, he, ht, hte, bind_eq_bind, bind_some,
    any_some]
  cases e.isValid BLOCK_VALID_TRANSACTIONS && decide (e.nChainTx ≠ 0) with
  | false => rfl
  | true => cases e.workComparator te <;> rfl

variable {l : List Uint256}

theorem addCandidates_spec (hs : s.WellFormed) (hl : ∀ k ∈ l, k ∈ s.mapBlockIndex) :
    ∃ c, l.foldlM addCandidate s = some { s with setBlockIndexCandidates := c } ∧
      ∀ x, x ∈ c ↔ x ∈ s.setBlockIndexCandidates ∨ (x ∈ l ∧ s.isCandidate x = true) := by
  induction l generalizing s with
  | nil => exact ⟨_, rfl, fun x => by simp⟩
  | cons k l ih =>
    have hadd := addCandidate_spec hs (hl k mem_cons_self)
    by_cases hcand : s.isCandidate k = true
    · rw [if_pos hcand] at hadd
      let s1 : ChainState :=
        { s with setBlockIndexCandidates := s.setBlockIndexCandidates.insert k }
      have hs1 : s1.WellFormed := ⟨hs.tree, hs.skip, hs.nonempty, hs.chain, hs.failed⟩
      obtain ⟨c, hc, hmem⟩ := ih hs1 fun x hx => hl x (mem_cons_of_mem _ hx)
      refine ⟨c, ?_, fun x => ?_⟩
      · rw [foldlM_cons, hadd]
        exact hc
      · rw [hmem, mem_insert, mem_cons]
        constructor
        · rintro ((rfl | hx) | ⟨hx, hxc⟩)
          · exact .inr ⟨.inl rfl, hcand⟩
          · exact .inl hx
          · exact .inr ⟨.inr hx, hxc⟩
        · rintro (hx | ⟨rfl | hx, hxc⟩)
          · exact .inl (.inr hx)
          · exact .inl (.inl rfl)
          · exact .inr ⟨hx, hxc⟩
    · rw [if_neg hcand] at hadd
      obtain ⟨c, hc, hmem⟩ := ih hs fun x hx => hl x (mem_cons_of_mem _ hx)
      refine ⟨c, ?_, fun x => ?_⟩
      · rw [foldlM_cons, hadd]
        exact hc
      · rw [hmem, mem_cons]
        refine or_congr_right ⟨fun hx => ⟨.inr hx.1, hx.2⟩, ?_⟩
        rintro ⟨rfl | hx, hxc⟩
        · exact absurd hxc hcand
        · exact ⟨hx, hxc⟩

theorem mem_foldl_erase {c : SortedSet Uint256} :
    x ∈ l.foldl erase c ↔ x ∈ c ∧ x ∉ l := by
  induction l generalizing c with
  | nil => simp
  | cons a l ih =>
    rw [foldl_cons, ih, mem_erase, mem_cons, not_or]
    tauto

/-- The state after `InvalidateBlock`, when the blocks of `path` were disconnected above
    the block. -/
def invalidated (s : ChainState) (pindex : Uint256) (chain path : List Uint256)
    (candidates : SortedSet Uint256) : ChainState :=
  { s with
    chainActive := chain
    mapBlockIndex :=
      (s.mapBlockIndex.updateAll path (·.setFailedChild)).update pindex (·.setFailedValid)
    setBlockIndexCandidates := candidates
    g_failed_blocks := s.g_failed_blocks.insert pindex }

theorem invalidated_statusOnly (s : ChainState) (pindex : Uint256) (chain path : List Uint256)
    (c : SortedSet Uint256) :
    s.mapBlockIndex.StatusOnly (s.invalidated pindex chain path c).mapBlockIndex :=
  (statusOnly_updateAll setFailedChild_status).trans
    (statusOnly_update setFailedValid_status)

theorem invalidated_wellFormed {chain : List Uint256} (path : List Uint256)
    (c : SortedSet Uint256) (hs : s.WellFormed) (hp : pindex ∈ s.mapBlockIndex)
    (hchain : chain <+: s.chainActive) (hne : chain ≠ []) :
    (s.invalidated pindex chain path c).WellFormed := by
  have htree := (invalidated_statusOnly s pindex chain path c).sameTree
  refine hs.of_sameTree htree hchain hne fun x hx => htree.mem_iff.mp ?_
  rcases mem_insert.mp hx with rfl | hx
  · exact hp
  · exact hs.failed x hx

theorem invalidateBlock_spec (fails : Uint256 → Bool) (hs : s.WellFormed)
    (hp : pindex ∈ s.mapBlockIndex) :
    ∃ ok chain path c, s.invalidateBlock pindex fails = some (ok,
        if ok then s.invalidated pindex chain path c else { s with chainActive := chain }) ∧
      chain <+: s.chainActive ∧ chain ≠ [] ∧ (ok = true → pindex ∉ chain ∧
        (∀ x, x ∈ path ↔ pindex ∈ s.chainActive ∧ x ∈ s.chainActive ∧
          s.mapBlockIndex.nHeight pindex < s.mapBlockIndex.nHeight x) ∧
        ∀ x, x ∈ c ↔ (x ∈ s.setBlockIndexCandidates ∧ x ∉ path ∧ x ≠ pindex) ∨
          (x ∈ s.mapBlockIndex ∧ (s.invalidated pindex chain path c).isCandidate x = true)) := by
  obtain ⟨t, te, ht, hte, -⟩ := hs.exists_tip
  have htm : t ∈ s.mapBlockIndex := AList.lookup_isSome.mp (by rw [hte]; rfl)
  obtain ⟨ok, chain, hdis, hpre, hne, hnot⟩ :=
    disconnectWhile_spec pindex fails hs (Nat.le_refl _)
  simp only [invalidateBlock, hdis, ht, bind_eq_bind, bind_some, elim_some]
  cases ok with
  | false => exact ⟨false, chain, [], ∅, rfl, hpre, hne, fun h => by cases h⟩
  | true =>
    -- the blocks disconnected above the block
    obtain ⟨path, hpath, hmem⟩ : ∃ path, (if s.contains pindex = true then
        s.mapBlockIndex.pathUntil (some pindex) (s.mapBlockIndex.nHeight t + 1) (some t)
        else some []) = some path ∧ ∀ x, x ∈ path ↔ pindex ∈ s.chainActive ∧ x ∈ s.chainActive ∧
          s.mapBlockIndex.nHeight pindex < s.mapBlockIndex.nHeight x := by
      by_cases hin : s.contains pindex = true
      · have hchain := hs.contains_iff.mp hin
        have hanc := (hs.mem_chain_iff ht).mp hchain
        have hfuel : hs.tree.forest.height t ≤ hs.tree.forest.height pindex +
            (s.mapBlockIndex.nHeight t + 1) := by
          show s.mapBlockIndex.nHeight t ≤ _
          omega
        obtain ⟨path, hpath, hmem⟩ := pathUntil_spec hs.tree htm hanc hfuel
        refine ⟨path, by rw [if_pos hin, hpath], fun x => ?_⟩
        rw [hmem, ← hs.mem_chain_iff ht]
        exact ⟨fun hx => ⟨hchain, hx⟩, fun hx => hx.2⟩
      · refine ⟨[], if_neg hin, fun x => ?_⟩
        simp only [not_mem_nil, false_iff, not_and]
        exact fun hc => absurd (hs.contains_iff.mpr hc) hin
    rw [hpath]
    let s1 := s.invalidated pindex chain path
      ((path.foldl erase s.setBlockIndexCandidates).erase pindex)
    have hs1 : s1.WellFormed := invalidated_wellFormed path _ hs hp hpre hne
    obtain ⟨c, hc, hcmem⟩ := addCandidates_spec hs1 (l := s1.mapBlockIndex.keys)
      fun k hk => AList.mem_keys.mp hk
    refine ⟨true, chain, path, c, ?_, hpre, hne, fun _ => ⟨hnot rfl, hmem, fun x => ?_⟩⟩
    · show (foldlM addCandidate s1 s1.mapBlockIndex.keys).bind _ = _
      rw [hc]
      rfl
    · rw [hcmem]
      show x ∈ erase _ pindex ∨ _ ↔ _
      rw [mem_erase, mem_foldl_erase, and_comm (a := x ≠ pindex), and_assoc]
      refine or_congr_right (and_congr_left fun _ => ?_)
      exact ((invalidated_statusOnly s pindex chain path _).sameTree.mem_iff (k := x)).symm

/-! ## ResetBlockFailureFlags -/

/-- Whether the loop over all blocks clears the flags of `k`. -/
def isReset (s : ChainState) (pindex k : Uint256) : Bool :=
  (s.mapBlockIndex.lookup k).any fun e => !e.isValid BLOCK_VALID_TRANSACTIONS &&
    s.mapBlockIndex.getAncestor k (s.mapBlockIndex.nHeight pindex) == some (some pindex)

/-- Whether a block is better than the tip when its flags are cleared. -/
def isBetterReset (s : ChainState) (k : Uint256) : Bool :=
  (s.mapBlockIndex.lookup k).any fun e =>
    e.clearFailed.isValid BLOCK_VALID_TRANSACTIONS && decide (e.nChainTx ≠ 0) &&
      (s.tip.bind s.mapBlockIndex.lookup).any fun tipEntry => tipEntry.workComparator e

theorem isReset_iff (hs : s.WellFormed) {e : CBlockIndexEntry}
    (he : s.mapBlockIndex.lookup k = some e) :
    s.isReset pindex k = true ↔ e.isValid BLOCK_VALID_TRANSACTIONS = false ∧
      hs.tree.forest.IsAncestor pindex k := by
  have hk : k ∈ s.mapBlockIndex := AList.lookup_isSome.mp (by rw [he]; rfl)
  have hneg : ¬ ((s.mapBlockIndex.nHeight pindex : Nat) : Int) < 0 := by omega
  rw [isReset, he, any_some, Bool.and_eq_true, Bool.not_eq_true', beq_iff_eq,
    getAncestor_eq hs.tree hs.skip hk, if_neg hneg, Int.toNat_natCast, some.injEq,
    Forest.isAncestor_iff]
  rfl

theorem resetBlock_spec (hs : s.WellFormed) (hk : k ∈ s.mapBlockIndex) :
    resetBlock pindex (s.mapBlockIndex.nHeight pindex) s k =
      some (if s.isReset pindex k then
        { s with
          mapBlockIndex := s.mapBlockIndex.update k (·.clearFailed)
          g_failed_blocks := s.g_failed_blocks.erase k
          setBlockIndexCandidates := if s.isBetterReset k then s.setBlockIndexCandidates.insert k
            else s.setBlockIndexCandidates }
        else s) := by
  obtain ⟨e, he⟩ := WellFormed.lookup_of_mem hk
  obtain ⟨t, te, ht, hte, -⟩ := hs.exists_tip
  have hreset : s.isReset pindex k = true ↔ _ := isReset_iff hs he
  have hneg : ¬ ((s.mapBlockIndex.nHeight pindex : Nat) : Int) < 0 := by omega
  simp only [resetBlock, he, bind_eq_bind, bind_some]
  by_cases hvalid : e.isValid BLOCK_VALID_TRANSACTIONS = true
  · have hno : ¬ s.isReset pindex k = true := fun h => by
      rw [hvalid] at hreset
      cases (hreset.mp h).1
    rw [if_pos hvalid, if_neg hno]
  · rw [if_neg hvalid, getAncestor_eq hs.tree hs.skip hk, if_neg hneg, Int.toNat_natCast,
      bind_some]
    by_cases hanc : hs.tree.forest.IsAncestor pindex k
    · have hyes : s.isReset pindex k = true :=
        hreset.mpr ⟨Bool.not_eq_true _ ▸ hvalid, hanc⟩
      have hat : hs.tree.forest.ancestorAt (s.mapBlockIndex.nHeight pindex) k = some pindex :=
        Forest.isAncestor_iff.mp hanc
      rw [hat, if_neg (by simp), if_pos hyes]
      have hupdate : s.mapBlockIndex.update k (·.clearFailed) =
          s.mapBlockIndex.insert k e.clearFailed := by
        rw [update, he]
      -- the comparison with the tip reads no failure flag, even if k is the tip
      have htip : ∃ te', (s.mapBlockIndex.insert k e.clearFailed).lookup t = some te' ∧
          te'.workComparator e.clearFailed = te.workComparator e := by
        rw [Maps.lookup_insert]
        split
        next heq =>
          subst heq
          obtain rfl := some.inj (he.symm.trans hte)
          exact ⟨_, rfl, rfl⟩
        next => exact ⟨te, hte, rfl⟩
      obtain ⟨te', hte', hcomp⟩ := htip
      have htip' : tip { s with
          mapBlockIndex := s.mapBlockIndex.insert k e.clearFailed
          g_failed_blocks := s.g_failed_blocks.erase k } = some t := ht
      rw [hupdate, isBetterReset, he, any_some, ht, bind_some, hte, any_some,
        htip']
      simp only [bind_some, hte', hcomp]
      have htx : e.clearFailed.nChainTx = e.nChainTx := rfl
      rw [htx]
      cases e.clearFailed.isValid BLOCK_VALID_TRANSACTIONS && decide (e.nChainTx ≠ 0) with
      | false => rfl
      | true => cases te.workComparator e <;> rfl
    · have hno : ¬ s.isReset pindex k = true := fun h => hanc (hreset.mp h).2
      have hat : hs.tree.forest.ancestorAt (s.mapBlockIndex.nHeight pindex) k ≠ some pindex :=
        fun h => hanc (Forest.isAncestor_iff.mpr h)
      rw [if_pos hat, if_neg hno]

theorem isReset_congr (hs : s.WellFormed) (hs' : s'.WellFormed)
    (htree : s.mapBlockIndex.SameTree s'.mapBlockIndex)
    (hx : s'.mapBlockIndex.lookup x = s.mapBlockIndex.lookup x) :
    s'.isReset pindex x = s.isReset pindex x := by
  cases he : s.mapBlockIndex.lookup x with
  | none => rw [isReset, isReset, hx, he, any_none, any_none]
  | some e =>
    rw [Bool.eq_iff_iff, isReset_iff hs he, isReset_iff hs' (hx.trans he),
      htree.forest_eq hs.tree hs'.tree]

theorem isBetterReset_congr (hstatus : s.mapBlockIndex.StatusOnly s'.mapBlockIndex)
    (hchain : s'.chainActive = s.chainActive)
    (hx : s'.mapBlockIndex.lookup x = s.mapBlockIndex.lookup x) :
    s'.isBetterReset x = s.isBetterReset x := by
  have hcomp : ∀ e : CBlockIndexEntry,
      (s'.tip.bind s'.mapBlockIndex.lookup).any (fun te => te.workComparator e) =
        (s.tip.bind s.mapBlockIndex.lookup).any fun te => te.workComparator e := by
    intro e
    rw [tip, tip, hchain]
    cases s.chainActive.getLast? with
    | none => rfl
    | some t =>
      have ht := congrArg (Option.any fun te : CBlockIndexEntry => te.workComparator e) (hstatus t)
      rw [Option.any_map, Option.any_map] at ht
      exact ht.symm
  simp only [isBetterReset, hx, hcomp]

theorem resetBlocks_spec (pindex : Uint256) (hs : s.WellFormed) (hl : ∀ k ∈ l, k ∈ s.mapBlockIndex)
    (hnodup : l.Nodup) : ∃ m c g, l.foldlM (resetBlock pindex (s.mapBlockIndex.nHeight pindex)) s =
        some { s with
          mapBlockIndex := m
          setBlockIndexCandidates := c
          g_failed_blocks := g } ∧
      s.mapBlockIndex.StatusOnly m ∧
      (∀ x, m.lookup x = if x ∈ l ∧ s.isReset pindex x = true then
        (s.mapBlockIndex.lookup x).map (·.clearFailed) else s.mapBlockIndex.lookup x) ∧
      (∀ x, x ∈ g ↔ x ∈ s.g_failed_blocks ∧ ¬ (x ∈ l ∧ s.isReset pindex x = true)) ∧
      ∀ x, x ∈ c ↔ x ∈ s.setBlockIndexCandidates ∨
        (x ∈ l ∧ s.isReset pindex x = true ∧ s.isBetterReset x = true) := by
  induction l generalizing s with
  | nil =>
    exact ⟨_, _, _, rfl, StatusOnly.refl _, fun x => by simp, fun x => by simp,
      fun x => by simp⟩
  | cons k l ih =>
    obtain ⟨hkl, hnodup⟩ := nodup_cons.mp hnodup
    rw [foldlM_cons, resetBlock_spec hs (hl k mem_cons_self)]
    by_cases hreset : s.isReset pindex k = true
    · rw [if_pos hreset, bind_eq_bind, bind_some]
      let s1 : ChainState :=
        { s with
          mapBlockIndex := s.mapBlockIndex.update k (·.clearFailed)
          g_failed_blocks := s.g_failed_blocks.erase k
          setBlockIndexCandidates := if s.isBetterReset k then s.setBlockIndexCandidates.insert k
            else s.setBlockIndexCandidates }
      have hstatus : s.mapBlockIndex.StatusOnly s1.mapBlockIndex :=
        statusOnly_update clearFailed_status
      have htree := hstatus.sameTree
      have hs1 : s1.WellFormed := by
        refine hs.of_sameTree htree (prefix_refl _) hs.nonempty fun x hx => ?_
        exact htree.mem_iff.mp (hs.failed x (mem_erase.mp hx).2)
      -- whether a block is reset is read off its own entry, and the keys differ:
      -- the rest of the list sees the verdicts of the state before
      have hlookup : ∀ x, x ≠ k → s1.mapBlockIndex.lookup x = s.mapBlockIndex.lookup x := by
        intro x hx
        rw [lookup_update, if_neg hx]
      have hisReset : ∀ x, x ≠ k → s1.isReset pindex x = s.isReset pindex x :=
        fun x hx => isReset_congr hs hs1 htree (hlookup x hx)
      have hisBetter : ∀ x, x ≠ k → s1.isBetterReset x = s.isBetterReset x :=
        fun x hx => isBetterReset_congr hstatus rfl (hlookup x hx)
      obtain ⟨m, c, g, hres, hstatus', hm, hg, hc⟩ := ih hs1
        (fun x hx => htree.mem_iff.mp (hl x (mem_cons_of_mem _ hx))) hnodup
      have hheight : s1.mapBlockIndex.nHeight pindex = s.mapBlockIndex.nHeight pindex :=
        (htree.nHeight_eq pindex).symm
      rw [hheight] at hres
      refine ⟨m, c, g, hres, hstatus.trans hstatus', fun x => ?_, fun x => ?_, fun x => ?_⟩
      · rw [hm]
        by_cases hxk : x = k
        · subst hxk
          rw [if_neg (fun h => hkl h.1), if_pos ⟨mem_cons_self, hreset⟩]
          rw [lookup_update, if_pos rfl]
        · simp only [hisReset x hxk, hlookup x hxk, mem_cons, hxk, false_or]
      · rw [hg]
        by_cases hxk : x = k
        · subst hxk
          simp [s1, hreset]
        · rw [hisReset x hxk]
          simp [s1, hxk]
      · rw [hc]
        by_cases hxk : x = k
        · subst hxk
          by_cases hbetter : s.isBetterReset x = true
          · simp [s1, hreset, hbetter]
          · simp [s1, hbetter, hkl]
        · rw [hisReset x hxk, hisBetter x hxk]
          have hmem : x ∈ s1.setBlockIndexCandidates ↔ x ∈ s.setBlockIndexCandidates := by
            show x ∈ (if s.isBetterReset k = true then _ else _) ↔ _
            split
            · rw [mem_insert]
              exact or_iff_right hxk
            · exact Iff.rfl
          rw [hmem, mem_cons, or_iff_right hxk]
    · rw [if_neg hreset, bind_eq_bind, bind_some]
      obtain ⟨m, c, g, hres, hstatus, hm, hg, hc⟩ :=
        ih hs (fun x hx => hl x (mem_cons_of_mem _ hx)) hnodup
      have hcons : ∀ x, (x ∈ k :: l ∧ s.isReset pindex x = true) ↔
          (x ∈ l ∧ s.isReset pindex x = true) := by
        intro x
        rw [mem_cons]
        refine ⟨?_, fun h => ⟨.inr h.1, h.2⟩⟩
        rintro ⟨rfl | hx, hr⟩
        · exact absurd hr hreset
        · exact ⟨hx, hr⟩
      refine ⟨m, c, g, hres, hstatus, fun x => ?_, fun x => ?_, fun x => ?_⟩
      · rw [hm]
        simp only [hcons]
      · rw [hg, hcons]
      · rw [hc, ← and_assoc, ← and_assoc, hcons]

theorem resetBlockFailureFlags_spec (hs : s.WellFormed) (hp : pindex ∈ s.mapBlockIndex) :
    ∃ m c g, s.resetBlockFailureFlags pindex = some { s with
          mapBlockIndex := m
          setBlockIndexCandidates := c
          g_failed_blocks := g } ∧
      s.mapBlockIndex.StatusOnly m ∧
      (∀ x, s.isReset pindex x = true ∨ hs.tree.forest.IsAncestor x pindex →
        m.lookup x = (s.mapBlockIndex.lookup x).map (·.clearFailed)) ∧
      (∀ x, ¬ s.isReset pindex x = true → ¬ hs.tree.forest.IsAncestor x pindex →
        m.lookup x = s.mapBlockIndex.lookup x) ∧
      (∀ x, x ∈ g ↔ x ∈ s.g_failed_blocks ∧ ¬ s.isReset pindex x = true) ∧
      ∀ x, x ∈ c ↔ x ∈ s.setBlockIndexCandidates ∨
        (s.isReset pindex x = true ∧ s.isBetterReset x = true) := by
  obtain ⟨e, he⟩ := WellFormed.lookup_of_mem hp
  have hheight : e.nHeight = s.mapBlockIndex.nHeight pindex :=
    (nHeight_of_lookup he).symm
  have hkeys : ∀ x, s.isReset pindex x = true → x ∈ s.mapBlockIndex.keys := by
    intro x hx
    refine AList.mem_keys.mpr (AList.lookup_isSome.mp ?_)
    rw [isReset] at hx
    cases hl : s.mapBlockIndex.lookup x with
    | none =>
      rw [hl] at hx
      cases hx
    | some e => rfl
  obtain ⟨m, c, g, hres, hstatus, hm, hg, hc⟩ := resetBlocks_spec pindex hs
    (l := s.mapBlockIndex.keys) (fun k hk => AList.mem_keys.mp hk) s.mapBlockIndex.nodupKeys
  have htree := hstatus.sameTree
  have hpm := htree.mem_iff.mp hp
  have hforest := htree.forest_eq hs.tree (htree.treeOk hs.tree)
  have hfuel : (htree.treeOk hs.tree).forest.height pindex < e.nHeight + 1 := by
    rw [hforest, hheight]
    exact Nat.lt_succ_self _
  -- after the loop over the whole index the walk down to the genesis block
  obtain ⟨path, hpath, hmem⟩ := pathUntil_none (htree.treeOk hs.tree) hpm hfuel
  rw [hforest] at hmem
  have hidem : ∀ e : CBlockIndexEntry, e.clearFailed.clearFailed = e.clearFailed := fun _ => rfl
  simp only [resetBlockFailureFlags, he, bind_eq_bind, bind_some, hheight] at hpath ⊢
  rw [hres]
  simp only [bind_some, hpath]
  refine ⟨_, c, g, rfl, hstatus.trans (statusOnly_updateAll
    clearFailed_status), fun x hx => ?_, fun x hx hx' => ?_, fun x => ?_,
    fun x => ?_⟩
  · rw [lookup_updateAll hidem]
    by_cases hreset : s.isReset pindex x = true
    · have hmx := (hm x).trans (if_pos ⟨hkeys x hreset, hreset⟩)
      rw [hmx, Option.map_map]
      exact ite_self _
    · have hmx := (hm x).trans (if_neg fun h => hreset h.2)
      rw [hmx, if_pos ((hmem x).mpr (hx.resolve_left hreset))]
  · have hmx := (hm x).trans (if_neg fun h => hx h.2)
    rw [lookup_updateAll hidem, if_neg (mt (hmem x).mp hx'), hmx]
  · rw [hg]
    exact and_congr_right fun _ => not_congr (and_iff_right_of_imp (hkeys x))
  · rw [hc]
    refine or_congr_right ⟨fun h => h.2, fun h => ⟨hkeys x h.1, h⟩⟩

end ChainState

end Rcoin
