/-
  The records of the index give back what headers, block data and the activation of
  better chains have built up in memory.

  Source: CChainState::LoadBlockIndex in src/validation.cpp.
-/
import Rcoin.Chain.Arrival
import Rcoin.Chain.Load

namespace Rcoin

open BlockMap AList ArrivalOp List Option SortedSet Nat

/-! ## The records -/

/-- An entry as `LoadBlockIndexGuts` leaves it. -/
def blankEntry (e : CBlockIndexEntry) : CBlockIndexEntry :=
  { e with nSequenceId := 0, nChainWork := 0, nTimeMax := 0, nChainTx := 0, pskip := none }

/-- An entry as `LoadBlockIndex` leaves it: the sequence id is not stored. -/
def reloadedEntry (e : CBlockIndexEntry) : CBlockIndexEntry := { e with nSequenceId := 0 }

variable {m : BlockMap}

theorem lookup_insertBlockIndex {hash : Uint256} (hne : hash ≠ 0) :
    (m.insertBlockIndex hash).1 = some hash ∧ ∀ k, (m.insertBlockIndex hash).2.lookup k =
      if k = hash ∧ hash ∉ m then some (newIndex hash) else m.lookup k := by
  unfold insertBlockIndex
  rw [if_neg hne]
  by_cases hmem : hash ∈ m
  · rw [if_pos hmem]
    exact ⟨rfl, fun k => by rw [if_neg fun h => h.2 hmem]⟩
  · rw [if_neg hmem]
    refine ⟨rfl, fun k => ?_⟩
    rw [Maps.lookup_insert]
    simp only [hmem, not_false_eq_true, and_true]

/-- The blocks in `done` have been read; of the others some are there as parents. -/
def PartlyRead (m : BlockMap) (done : List Uint256) (mc : BlockMap) : Prop :=
  ∀ k, (k ∈ done → mc.lookup k = (m.lookup k).map blankEntry) ∧
    (k ∉ done → mc.lookup k = none ∨ k ∈ m ∧ mc.lookup k = some (newIndex k))

variable {done : List Uint256} {mc : BlockMap} {k : Uint256}

theorem PartlyRead.insertBlockIndex (h : PartlyRead m done mc) (hk : k ∈ m) (hne : k ≠ 0) :
    (mc.insertBlockIndex k).1 = some k ∧ PartlyRead m done (mc.insertBlockIndex k).2 ∧
      k ∈ (mc.insertBlockIndex k).2 ∧ ∀ x ∈ mc, x ∈ (mc.insertBlockIndex k).2 := by
  obtain ⟨hres, hlookup⟩ := lookup_insertBlockIndex (m := mc) hne
  refine ⟨hres, fun x => ?_, ?_, fun x hx => ?_⟩
  · rw [hlookup]
    by_cases hnew : x = k ∧ k ∉ mc
    · obtain ⟨rfl, hxm⟩ := hnew
      rw [if_pos ⟨rfl, hxm⟩]
      refine ⟨fun hdone => ?_, fun _ => .inr ⟨hk, rfl⟩⟩
      have hread := (h x).1 hdone
      rw [lookup_eq_none.mpr hxm] at hread
      obtain ⟨e, he⟩ := isSome_iff_exists.mp (lookup_isSome.mpr hk)
      rw [he] at hread
      cases hread
    · rw [if_neg hnew]
      exact h x
  · rw [← lookup_isSome, hlookup]
    by_cases hmem : k ∈ mc
    · rw [if_neg fun h => h.2 hmem]
      exact lookup_isSome.mpr hmem
    · rw [if_pos ⟨rfl, hmem⟩]
      rfl
  · rw [← lookup_isSome, hlookup]
    split
    · rfl
    · exact lookup_isSome.mpr hx

variable {pow : Uint256 → Nat → Bool} {records : List CDiskBlockIndex}

theorem loadBlockIndexGuts_spec (htree : m.TreeOk) (hnull : ∀ k ∈ m, k ≠ 0)
    (hpow : ∀ k e, m.lookup k = some e → pow k e.nBits = true)
    (hrecords : ∀ d ∈ records, ∃ e, m.lookup d.hash = some e ∧ d = CDiskBlockIndex.ofEntry e)
    (hnodup : (records.map (·.hash)).Nodup) (hdone : ∀ d ∈ records, d.hash ∉ done)
    (hmc : PartlyRead m done mc) : ∃ mc', loadBlockIndexGuts pow records mc = some mc' ∧
      PartlyRead m (records.map (·.hash) ++ done) mc' := by
  induction records generalizing done mc with
  | nil => exact ⟨mc, rfl, hmc⟩
  | cons d records ih =>
    obtain ⟨e, he, hd⟩ := hrecords d mem_cons_self
    obtain ⟨hnot, hnodup⟩ := nodup_cons.mp hnodup
    have hmem : d.hash ∈ m := lookup_isSome.mp (by rw [he]; rfl)
    obtain ⟨hres1, hmc1, hin1, -⟩ := hmc.insertBlockIndex hmem (hnull _ hmem)
    -- the parent is in the index too
    have hprev : ∃ mc2, (mc.insertBlockIndex d.hash).2.insertBlockIndex d.hashPrev =
        (e.pprev, mc2) ∧ PartlyRead m done mc2 ∧ d.hash ∈ mc2 := by
      have hhash : d.hashPrev = e.pprev.getD 0 := by rw [hd]; rfl
      cases hp : e.pprev with
      | none =>
        rw [hp] at hhash
        exact ⟨_, by rw [hhash]; rfl, hmc1, hin1⟩
      | some p =>
        rw [hp, getD_some] at hhash
        obtain ⟨e', he', -⟩ := htree.parent _ e p he hp
        have hpm : p ∈ m := lookup_isSome.mp (by rw [he']; rfl)
        obtain ⟨hres2, hmc2, -, hkeep⟩ := hmc1.insertBlockIndex hpm (hnull p hpm)
        exact ⟨_, by rw [hhash]; exact Prod.ext hres2 rfl, hmc2, hkeep _ hin1⟩
    obtain ⟨mc2, hprev, hmc2, hin2⟩ := hprev
    have hmc3 : PartlyRead m (d.hash :: done) (mc2.update d.hash (loadEntry d e.pprev)) := by
      intro k
      rw [lookup_update]
      by_cases hk : k = d.hash
      · subst hk
        refine ⟨fun _ => ?_, fun hno => absurd mem_cons_self hno⟩
        rcases (hmc2 d.hash).2 (hdone d mem_cons_self) with hnone | ⟨-, hnew⟩
        · exact absurd hin2 (lookup_eq_none.mp hnone)
        · have hash : e.hash = d.hash := htree.hash _ e he
          rw [if_pos rfl, hnew, he, map_some, map_some, hd]
          refine congrArg some ?_
          rfl
      · rw [if_neg hk]
        refine ⟨fun hmem => (hmc2 k).1 ((mem_cons.mp hmem).resolve_left hk), fun hno => ?_⟩
        exact (hmc2 k).2 fun hmem => hno (mem_cons_of_mem _ hmem)
    have hdone' : ∀ d' ∈ records, d'.hash ∉ d.hash :: done := by
      intro d' hd' hmem'
      rcases mem_cons.mp hmem' with heq | hmem'
      · exact hnot (mem_map.mpr ⟨d', hd', heq⟩)
      · exact hdone d' (mem_cons_of_mem _ hd') hmem'
    obtain ⟨mc', hrest, hmc'⟩ :=
      ih (fun d' hd' => hrecords d' (mem_cons_of_mem _ hd')) hnodup hdone' hmc3
    refine ⟨mc', ?_, fun k => ?_⟩
    · have hbits : d.nBits = e.nBits := by rw [hd]; rfl
      have hsplit : mc.insertBlockIndex d.hash = (some d.hash, (mc.insertBlockIndex d.hash).2) :=
        Prod.ext hres1 rfl
      rw [loadBlockIndexGuts, hsplit]
      simp only [hprev, bind_eq_bind, bind_some, hbits, hpow d.hash e he, if_true]
      exact hrest
    · have hiff : k ∈ (d :: records).map (·.hash) ++ done ↔
          k ∈ records.map (·.hash) ++ d.hash :: done := by
        simp only [map_cons, cons_append, mem_cons, mem_append]
        tauto
      rw [hiff]
      exact hmc' k

/-! ## The loop by height -/

namespace ChainState

variable {s c : ChainState}

/-- The blocks in `done` are as they were in memory; the others have been read
    only. -/
structure PartlyLoaded (s : ChainState) (done : List Uint256) (c : ChainState) : Prop where
  lookup : ∀ k, c.mapBlockIndex.lookup k =
    (s.mapBlockIndex.lookup k).map (if k ∈ done then reloadedEntry else blankEntry)
  unlinked : ∀ p k, (p, k) ∈ c.mapBlocksUnlinked ↔ k ∈ done ∧ (p, k) ∈ s.mapBlocksUnlinked
  candidates : ∀ k, k ∈ c.setBlockIndexCandidates ↔ k ∈ done ∧ s.mapBlockIndex.nChainTx k ≠ 0

namespace PartlyLoaded

theorem sameBlocks (hc : PartlyLoaded s done c) :
    s.mapBlockIndex.SameBlocks c.mapBlockIndex := by
  intro k
  rw [hc.lookup, Option.map_map]
  split
  · rfl
  · rfl

theorem skipOk (hc : PartlyLoaded s done c) (hs : Arrived s) :
    ∃ htree : c.mapBlockIndex.TreeOk, SkipOk c.mapBlockIndex htree ∧
      htree.forest = hs.tree.forest := by
  have htree := hc.sameBlocks.treeOk hs.tree
  have hforest := hc.sameBlocks.forest_eq hs.tree htree
  refine ⟨htree, fun k e' skip he' hskip => ?_, hforest⟩
  rw [hc.lookup] at he'
  obtain ⟨e, he, rfl⟩ := map_eq_some_iff.mp he'
  rw [hforest]
  split at hskip
  next hmem =>
    rw [if_pos hmem]
    exact hs.skipOk k e skip he hskip
  next => cases hskip

variable {f : CBlockIndexEntry → Nat}

theorem read_eq (hc : PartlyLoaded s done c) (hk : k ∈ done) (hf : ∀ e, f (reloadedEntry e) = f e) :
    c.mapBlockIndex.read f k = s.mapBlockIndex.read f k := by
  rw [BlockMap.read, BlockMap.read, hc.lookup, if_pos hk, elim_map]
  congr 1
  exact funext hf

section Round

variable {e : CBlockIndexEntry} (hc : PartlyLoaded s done c) (hs : Arrived s)
  (he : s.mapBlockIndex.lookup k = some e) (hparent : ∀ p, e.pprev = some p → p ∈ done)

include hc hparent in
theorem readPrev_eq (hf : ∀ e, f (reloadedEntry e) = f e) :
    c.mapBlockIndex.readPrev f (blankEntry e) = s.mapBlockIndex.readPrev f e := by
  show e.pprev.elim 0 (c.mapBlockIndex.read f) = e.pprev.elim 0 (s.mapBlockIndex.read f)
  cases hp : e.pprev with
  | none => rfl
  | some p => exact hc.read_eq (hparent p hp) hf

include hc hparent in
theorem waitsForParent_iff : c.mapBlockIndex.waitsForParent (blankEntry e) = true ↔
    e.nTx ≠ 0 ∧ e.pprev.isSome ∧ s.mapBlockIndex.readPrev (·.nChainTx) e = 0 := by
  have htx := hc.readPrev_eq hparent (f := (·.nChainTx)) fun _ => rfl
  rw [waitsForParent, htx]
  simp only [Bool.and_eq_true, decide_eq_true_eq, and_assoc]
  exact and_congr_left fun _ => Nat.pos_iff_ne_zero

include hc hs he hparent in
theorem computedEntry_eq : computedEntry c.mapBlockIndex (blankEntry e) =
    { e with nSequenceId := 0, pskip := none } := by
  have hderived := hs.derived k e he
  have hwork := hc.readPrev_eq hparent (f := (·.nChainWork)) fun _ => rfl
  have htime := hc.readPrev_eq hparent (f := (·.nTimeMax)) fun _ => rfl
  have htx := hc.readPrev_eq hparent (f := (·.nChainTx)) fun _ => rfl
  have hcount : (if 0 < e.nTx then if c.mapBlockIndex.waitsForParent (blankEntry e) then 0
      else (s.mapBlockIndex.readPrev (·.nChainTx) e + e.nTx) % 2 ^ 32 else 0) = e.nChainTx := by
    by_cases hnz : e.nTx = 0
    · rw [if_neg (by omega), hs.nChainTx_of_no_data he hnz]
    · rw [if_pos (by omega), hs.nChainTx_eq he hnz]
      congr 1
      rw [hc.waitsForParent_iff hparent]
      simp only [hnz, not_false_eq_true, true_and, ne_eq]
  have hprev : (e.pprev.any fun pprev =>
      (c.mapBlockIndex.lookup pprev).any fun prev => prev.nStatus.failed) = false := by
    cases hp : e.pprev with
    | none => rfl
    | some p =>
      obtain ⟨e', he', -⟩ := hs.tree.parent k e p he hp
      rw [any_some, hc.lookup, he', map_some, any_some, if_pos (hparent p hp)]
      exact (hs.status p e' he').notFailed
  have hfailed : e.nStatus.failed = false := (hs.status k e he).notFailed
  unfold computedEntry
  rw [hwork, htime, htx]
  show ({ e with
    nSequenceId := 0
    pskip := none
    nChainWork := (s.mapBlockIndex.readPrev (·.nChainWork) e + getBlockProof e.nBits) % 2 ^ 256
    nTimeMax := max (s.mapBlockIndex.readPrev (·.nTimeMax) e) e.nTime
    nChainTx := if 0 < e.nTx then if c.mapBlockIndex.waitsForParent (blankEntry e) then 0
      else (s.mapBlockIndex.readPrev (·.nChainTx) e + e.nTx) % 2 ^ 32 else 0
    nStatus := if !e.nStatus.failed && (e.pprev.any fun pprev =>
        (c.mapBlockIndex.lookup pprev).any fun prev => prev.nStatus.failed) then
      e.nStatus.setFailedChild else e.nStatus } : CBlockIndexEntry) = _
  rw [hcount, hprev, ← hderived.work, ← hderived.timeMax, Bool.and_false,
    if_neg Bool.false_ne_true]

include hc hs he in
theorem buildSkip_eq : c.mapBlockIndex.buildSkip { e with nSequenceId := 0, pskip := none } =
    some (reloadedEntry e) := by
  obtain ⟨htree, hskip, hforest⟩ := hc.skipOk hs
  have hderived := (hs.derived k e he).skip
  unfold buildSkip reloadedEntry
  cases hp : e.pprev with
  | none =>
    rw [hp] at hderived
    rw [hderived]
    rfl
  | some p =>
    rw [hp] at hderived
    obtain ⟨e', he', -⟩ := hs.tree.parent k e p he hp
    have hpm : p ∈ c.mapBlockIndex :=
      hc.sameBlocks.mem_iff.mp (lookup_isSome.mp (by rw [he']; rfl))
    have hneg : ¬ ((getSkipHeight e.nHeight : Nat) : Int) < 0 := by omega
    simp only [getAncestor_eq htree hskip hpm, if_neg hneg, Int.toNat_natCast, hforest,
      bind_eq_bind, bind_some, hderived]

include hs he in
theorem isCandidate_iff : (CBlockIndexEntry.isValid { e with nSequenceId := 0, pskip := none }
      BLOCK_VALID_TRANSACTIONS && (decide (e.nChainTx ≠ 0) || e.pprev.isNone)) = true ↔
      s.mapBlockIndex.nChainTx k ≠ 0 := by
  have hstatus := hs.status k e he
  have hchain : s.mapBlockIndex.nChainTx k = e.nChainTx := read_of_lookup he _
  have hnTx : s.mapBlockIndex.nTx k = e.nTx := read_of_lookup he _
  have hfailed : BlockStatus.failed e.nStatus = false := hstatus.notFailed
  rw [CBlockIndexEntry.isValid]
  simp only [hfailed, Bool.not_false, Bool.true_and, Bool.and_eq_true, Bool.or_eq_true,
    decide_eq_true_eq, hstatus.transactions, hchain]
  constructor
  · rintro ⟨hnz, hne | hroot⟩
    · exact hne
    · have hp : e.pprev = none := isNone_iff_eq_none.mp hroot
      rw [hs.nChainTx_eq he hnz, if_neg (by rw [hp]; exact fun h => Bool.false_ne_true h.1)]
      have hfit : e.nTx < 2 ^ 32 := by
        have hk := hs.fit k
        rw [hs.tree.chainTxs_eq, hnTx] at hk
        omega
      rw [readPrev, hp, elim_none, zero_add, mod_eq_of_lt hfit]
      exact hnz
  · intro hne
    exact ⟨(hnTx.symm.trans_ne (hs.linking.linked k (hchain.trans_ne hne)).1), .inl hne⟩

include hc hs he hparent in
theorem loadBlock (hk : k ∉ done) :
    ∃ c', c.loadBlock k = some c' ∧ PartlyLoaded s (k :: done) c' := by
  have hlookup : c.mapBlockIndex.lookup k = some (blankEntry e) := by
    rw [hc.lookup, he, if_neg hk]
    rfl
  have hcomputed := hc.computedEntry_eq hs he hparent
  have hbuild := hc.buildSkip_eq hs he
  have hwaits := hc.waitsForParent_iff hparent
  have hcandidate := isCandidate_iff hs he
  refine ⟨_, by
    simp only [ChainState.loadBlock, hlookup, bind_eq_bind, bind_some, hcomputed,
      hbuild]
    rfl, fun x => ?_, fun p x => ?_, fun x => ?_⟩
  · show (insert k (reloadedEntry e) c.mapBlockIndex).lookup x = _
    rw [Maps.lookup_insert]
    by_cases hxk : x = k
    · rw [if_pos hxk, hxk, he, if_pos mem_cons_self, map_some]
    · rw [if_neg hxk, hc.lookup]
      simp only [mem_cons, hxk, false_or]
  -- the parent's count is known by now, so the block waits exactly if it did before
  · have hnew : (p, x) ∈ (if c.mapBlockIndex.waitsForParent (blankEntry e) = true then
        c.mapBlocksUnlinked ++ e.pprev.toList.map fun pprev => (pprev, k)
        else c.mapBlocksUnlinked) ↔
        (p, x) ∈ c.mapBlocksUnlinked ∨ x = k ∧ (p, k) ∈ s.mapBlocksUnlinked := by
      rw [hs.unlinked_iff he]
      split
      next hw =>
        obtain ⟨hnz, -, hzero⟩ := hwaits.mp hw
        rw [mem_append, List.mem_map]
        refine or_congr_right ⟨?_, ?_⟩
        · rintro ⟨q, hq, heq⟩
          obtain ⟨rfl, rfl⟩ := Prod.mk.inj heq
          have hqp : e.pprev = some q := mem_toList.mp hq
          rw [readPrev, hqp] at hzero
          exact ⟨rfl, hqp, hnz, hzero⟩
        · rintro ⟨rfl, hp, -, -⟩
          exact ⟨p, mem_toList.mpr hp, rfl⟩
      next hw =>
        refine ⟨.inl, fun hx => hx.elim id ?_⟩
        rintro ⟨-, hp, hnz, hzero⟩
        refine absurd (hwaits.mpr ⟨hnz, by rw [hp]; rfl, ?_⟩) hw
        rw [readPrev, hp]
        exact hzero
    refine hnew.trans ?_
    rw [hc.unlinked, mem_cons, or_and_right, or_comm]
    refine or_congr_left ?_
    constructor
    · rintro ⟨rfl, hx⟩
      exact ⟨rfl, hx⟩
    · rintro ⟨rfl, hx⟩
      exact ⟨rfl, hx⟩
  -- and it is a candidate exactly if it has a count of its own
  · have hnew : x ∈ (if (CBlockIndexEntry.isValid { e with nSequenceId := 0, pskip := none }
        BLOCK_VALID_TRANSACTIONS && (decide (e.nChainTx ≠ 0) || e.pprev.isNone)) = true then
        c.setBlockIndexCandidates.insert k else c.setBlockIndexCandidates) ↔
        x ∈ c.setBlockIndexCandidates ∨ x = k ∧ s.mapBlockIndex.nChainTx k ≠ 0 := by
      rw [if_congr hcandidate rfl rfl]
      split
      next hne => simp only [SortedSet.mem_insert, hne, ne_eq, not_false_eq_true, and_true, or_comm]
      next hne => simp only [hne, and_false, or_false]
    refine hnew.trans ?_
    rw [hc.candidates, mem_cons, or_and_right, or_comm]
    refine or_congr_left (and_congr_right fun hxk => ?_)
    rw [hxk]

end Round

theorem loadBlocks (hs : Arrived s) {l : List Uint256} (hl : ∀ k ∈ l, k ∈ s.mapBlockIndex)
    (hnodup : l.Nodup)
    (hsorted : l.Pairwise fun a b => s.mapBlockIndex.nHeight a ≤ s.mapBlockIndex.nHeight b)
    (hdone : ∀ k ∈ l, k ∉ done)
    (hclosed : ∀ k ∈ l, ∀ p, s.mapBlockIndex.pprev k = some p → p ∈ done ∨ p ∈ l)
    (hc : PartlyLoaded s done c) :
    ∃ c', l.foldlM ChainState.loadBlock c = some c' ∧
      ∃ done', (∀ k, k ∈ done' ↔ k ∈ l ∨ k ∈ done) ∧ PartlyLoaded s done' c' := by
  induction l generalizing done c with
  | nil => exact ⟨c, rfl, done, fun k => by simp, hc⟩
  | cons k l ih =>
    obtain ⟨hkl, hnodup⟩ := nodup_cons.mp hnodup
    obtain ⟨hfirst, hsorted⟩ := pairwise_cons.mp hsorted
    obtain ⟨e, he⟩ : ∃ e, s.mapBlockIndex.lookup k = some e :=
      isSome_iff_exists.mp (lookup_isSome.mpr (hl k mem_cons_self))
    -- the parent is lower, so that it does not come later
    have hparent : ∀ p, e.pprev = some p → p ∈ done := by
      intro p hp
      have hpk : s.mapBlockIndex.pprev k = some p := (pprev_of_lookup he).trans hp
      have hheight : s.mapBlockIndex.nHeight k = s.mapBlockIndex.nHeight p + 1 :=
        hs.tree.forest.height_parent (k := k) (p := p) hpk
      rcases hclosed k mem_cons_self p hpk with hd | hpl
      · exact hd
      · rcases mem_cons.mp hpl with heq | hpl
        · exact absurd heq (hs.tree.pprev_ne hpk)
        · have hle := hfirst p hpl
          omega
    obtain ⟨c1, hround, hc1⟩ := hc.loadBlock hs he hparent (hdone k mem_cons_self)
    have hdone1 : ∀ x ∈ l, x ∉ k :: done := by
      intro x hx hmem
      rcases mem_cons.mp hmem with rfl | hmem
      · exact hkl hx
      · exact hdone x (mem_cons_of_mem _ hx) hmem
    have hclosed1 : ∀ x ∈ l, ∀ p, s.mapBlockIndex.pprev x = some p → p ∈ k :: done ∨ p ∈ l := by
      intro x hx p hp
      rcases hclosed x (mem_cons_of_mem _ hx) p hp with hd | hpl
      · exact .inl (mem_cons_of_mem _ hd)
      · rcases mem_cons.mp hpl with rfl | hpl
        · exact .inl mem_cons_self
        · exact .inr hpl
    obtain ⟨c', hrest, done', hmem, hc'⟩ :=
      ih (fun x hx => hl x (mem_cons_of_mem _ hx)) hnodup hsorted hdone1 hclosed1 hc1
    refine ⟨c', ?_, done', fun x => ?_, hc'⟩
    · rw [foldlM_cons, hround]
      exact hrest
    · rw [hmem, mem_cons, mem_cons]
      tauto

end PartlyLoaded

end ChainState

open ChainState

theorem mem_sortedByHeight : k ∈ m.sortedByHeight ↔ k ∈ m :=
  (mem_insertionSort _).trans mem_keys

theorem nodup_sortedByHeight (m : BlockMap) : m.sortedByHeight.Nodup :=
  (perm_insertionSort _ m.keys).nodup_iff.mpr m.keys_nodup

theorem pairwise_sortedByHeight (m : BlockMap) :
    m.sortedByHeight.Pairwise fun a b => m.nHeight a ≤ m.nHeight b := by
  let r : Uint256 → Uint256 → Prop := fun a b => toLex (m.nHeight a, a) ≤ toLex (m.nHeight b, b)
  have hsorted : m.sortedByHeight.Pairwise r := pairwise_insertionSort r m.keys
  refine hsorted.imp fun hab => ?_
  rcases Prod.Lex.toLex_le_toLex.mp hab with hlt | ⟨heq, -⟩
  · exact le_of_lt hlt
  · exact le_of_eq heq

theorem BlockMap.TreeOk.loadBlockIndexGuts (htree : m.TreeOk) (hnull : ∀ k ∈ m, k ≠ 0)
    (hpow : ∀ k e, m.lookup k = some e → pow k e.nBits = true)
    (hrecords : records.Perm m.diskRecords) :
    ∃ m', loadBlockIndexGuts pow records ∅ = some m' ∧
      ∀ k, m'.lookup k = (m.lookup k).map blankEntry := by
  have hentry : ∀ x ∈ m.entries, m.lookup x.1 = some x.2 :=
    fun x hx => Maps.lookup_eq_some_iff_mem.mpr hx
  have hhash : m.diskRecords.map (·.hash) = m.keys := by
    rw [diskRecords, List.map_map]
    refine map_congr_left fun x hx => ?_
    exact htree.hash x.1 x.2 (hentry x hx)
  have hnodup : (records.map (·.hash)).Nodup := by
    rw [(hrecords.map _).nodup_iff, hhash]
    exact m.keys_nodup
  have hof : ∀ d ∈ records, ∃ e, m.lookup d.hash = some e ∧ d = CDiskBlockIndex.ofEntry e := by
    intro d hd
    obtain ⟨x, hx, rfl⟩ := mem_map.mp (hrecords.mem_iff.mp hd)
    have hxe := hentry x hx
    refine ⟨x.2, ?_, rfl⟩
    show m.lookup x.2.hash = _
    rw [htree.hash x.1 x.2 hxe, hxe]
  have hempty : PartlyRead m [] ∅ := by
    intro k
    exact ⟨fun h => absurd h not_mem_nil, fun _ => .inl (lookup_empty k)⟩
  obtain ⟨m', hguts, hm⟩ := loadBlockIndexGuts_spec htree hnull hpow hof hnodup
    (fun _ _ => not_mem_nil) hempty
  rw [append_nil] at hm
  have hkeys : ∀ k, k ∈ records.map (·.hash) ↔ k ∈ m := by
    intro k
    rw [(hrecords.map _).mem_iff, hhash, AList.mem_keys]
  refine ⟨m', hguts, fun k => ?_⟩
  by_cases hk : k ∈ m
  · exact (hm k).1 ((hkeys k).mpr hk)
  · have hno : k ∉ records.map (·.hash) := fun h => hk ((hkeys k).mp h)
    rw [lookup_eq_none.mpr hk, map_none]
    exact ((hm k).2 hno).resolve_right fun h => hk h.1

variable {s : ChainState}

theorem Arrived.loadBlockIndex (hs : Arrived s) (hnull : ∀ k ∈ s.mapBlockIndex, k ≠ 0)
    (hpow : ∀ k e, s.mapBlockIndex.lookup k = some e → pow k e.nBits = true)
    (hrecords : records.Perm s.mapBlockIndex.diskRecords) :
    ∃ s', loadBlockIndex pow records = some s' ∧
      (∀ k, s'.mapBlockIndex.lookup k = (s.mapBlockIndex.lookup k).map reloadedEntry) ∧
      (∀ p k, (p, k) ∈ s'.mapBlocksUnlinked ↔ (p, k) ∈ s.mapBlocksUnlinked) ∧
      ∀ k, k ∈ s'.setBlockIndexCandidates ↔ s.mapBlockIndex.nChainTx k ≠ 0 := by
  obtain ⟨m, hguts, hblank⟩ := hs.tree.loadBlockIndexGuts hnull hpow hrecords
  have hstart : PartlyLoaded s [] { mapBlockIndex := m } := by
    refine ⟨fun k => ?_, fun p k => ?_, fun k => ?_⟩
    · rw [if_neg not_mem_nil]
      exact hblank k
    · exact iff_of_false not_mem_nil fun h => absurd h.1 not_mem_nil
    · exact iff_of_false (not_mem_empty k) fun h => absurd h.1 not_mem_nil
  have hsame := hstart.sameBlocks
  have hheight : m.nHeight = s.mapBlockIndex.nHeight :=
    funext fun k => (hsame.nHeight_eq k).symm
  have hin : ∀ k, k ∈ m.sortedByHeight ↔ k ∈ s.mapBlockIndex := fun k =>
    mem_sortedByHeight.trans (hsame.mem_iff (k := k)).symm
  have hsorted := pairwise_sortedByHeight m
  rw [hheight] at hsorted
  obtain ⟨s', hload, done', hdone, hs'⟩ := hstart.loadBlocks hs (fun k hk => (hin k).mp hk)
    (nodup_sortedByHeight m) hsorted (fun _ _ => not_mem_nil) fun k hk p hp =>
      .inr ((hin p).mpr (hs.tree.mem_of_parent (k := k) (p := p) hp).2)
  have hall : ∀ k, k ∈ s.mapBlockIndex → k ∈ done' := fun k hk =>
    (hdone k).mpr (.inl ((hin k).mpr hk))
  refine ⟨s', ?_, fun k => ?_, fun p k => ?_, fun k => ?_⟩
  · rw [ChainState.loadBlockIndex, hguts]
    exact hload
  · rw [hs'.lookup]
    by_cases hk : k ∈ s.mapBlockIndex
    · rw [if_pos (hall k hk)]
    · rw [lookup_eq_none.mpr hk, map_none, map_none]
  · rw [hs'.unlinked]
    refine and_iff_right_of_imp fun h => hall k ?_
    exact (hs.tree.mem_of_parent (k := k) (p := p) (hs.linking.waiting p k h).1).1
  · rw [hs'.candidates]
    refine and_iff_right_of_imp fun h => hall k ?_
    obtain ⟨e, he, -⟩ := exists_lookup_of_read h
    exact lookup_isSome.mp (by rw [he]; rfl)

/-! ## Runs -/

/-- The fields that are kept in memory only. -/
def memoryFields (e : CBlockIndexEntry) : Nat × Nat × Nat × Option Uint256 :=
  (e.nChainWork, e.nTimeMax, e.nChainTx, e.pskip)

/-- The reloaded state has the same fields for each block, the same waiting blocks and,
    of the blocks that are not worse than the tip in memory, the same candidates. -/
def Reproduces (s s' : ChainState) : Prop :=
  (∀ k, (s'.mapBlockIndex.lookup k).map memoryFields =
    (s.mapBlockIndex.lookup k).map memoryFields) ∧
  (∀ p k, (p, k) ∈ s'.mapBlocksUnlinked ↔ (p, k) ∈ s.mapBlocksUnlinked) ∧
  ∀ k e, s.mapBlockIndex.lookup k = some e → s.isWorseThanTip e = false →
    (k ∈ s'.setBlockIndexCandidates ↔ k ∈ s.setBlockIndexCandidates)

theorem Arrived.reproduces (hs : Arrived s) (hnull : ∀ k ∈ s.mapBlockIndex, k ≠ 0)
    (hpow : ∀ k e, s.mapBlockIndex.lookup k = some e → pow k e.nBits = true)
    (hrecords : records.Perm s.mapBlockIndex.diskRecords) :
    ∃ s', ChainState.loadBlockIndex pow records = some s' ∧ Reproduces s s' := by
  obtain ⟨s', hload, hlookup, hunlinked, hcand⟩ := hs.loadBlockIndex hnull hpow hrecords
  refine ⟨s', hload, fun k => ?_, hunlinked, fun k e he hworse => ?_⟩
  · rw [hlookup, Option.map_map]
    rfl
  · rw [hcand]
    refine ⟨fun hne => ?_, hs.candidate k⟩
    exact hs.candidates k e he ((read_of_lookup he _).symm.trans_ne hne) hworse

/-- However headers and block data have arrived and tips have been set, reloading the
    records of the index reproduces what is kept in memory, as long as no chain has 2^32
    transactions. -/
theorem loadBlockIndex_reproduces (checkProofOfWork : Uint256 → Nat → Bool)
    (ops : List ArrivalOp) (hlegal : Always (Legal checkProofOfWork) {} ops)
    (hfits : Always Fits {} ops) :
    ∃ s, run {} ops = some s ∧ ∀ records : List CDiskBlockIndex,
      records.Perm s.mapBlockIndex.diskRecords →
      ∃ s', loadBlockIndex checkProofOfWork records = some s' ∧ Reproduces s s' := by
  obtain ⟨s, hrun, hs⟩ :=
    run_readable (readable_empty checkProofOfWork) hlegal hfits
  exact ⟨s, hrun, fun records hrecords => hs.arrived.reproduces hs.notNull hs.pow hrecords⟩

/-! ## A count that wraps -/

theorem loadBlockIndexGuts_pskip {m' : BlockMap} (hm : ∀ k e, m.lookup k = some e → e.pskip = none)
    (hload : loadBlockIndexGuts pow records m = some m') :
    ∀ k e, m'.lookup k = some e → e.pskip = none := by
  have hinsert : ∀ (m : BlockMap) (hash : Uint256),
      (∀ k e, m.lookup k = some e → e.pskip = none) →
      ∀ k e, (m.insertBlockIndex hash).2.lookup k = some e → e.pskip = none := by
    intro m hash hm k e he
    unfold insertBlockIndex at he
    split at he
    next => exact hm k e he
    next =>
      split at he
      next => exact hm k e he
      next =>
        rw [Maps.lookup_insert] at he
        split at he
        next =>
          rw [← some.inj he]
          rfl
        next => exact hm k e he
  induction records generalizing m with
  | nil => exact some.inj hload ▸ hm
  | cons d records ih =>
    simp only [loadBlockIndexGuts, bind_eq_bind] at hload
    obtain ⟨pindexNew, -, hrest⟩ := bind_eq_some_iff.mp hload
    split at hrest
    next =>
      refine ih (fun k e he => ?_) hrest
      rw [lookup_update] at he
      split at he
      next =>
        obtain ⟨e', he', rfl⟩ := map_eq_some_iff.mp he
        exact hinsert _ _ (hinsert _ _ hm) _ e' he'
      next => exact hinsert _ _ (hinsert _ _ hm) k e he
    next => cases hrest

theorem loadBlocks_candidates {l : List Uint256} (hnodup : l.Nodup) {c c' : ChainState}
    (hnew : ∀ k ∈ l, ∀ e, c.mapBlockIndex.lookup k = some e → e.pskip = none)
    (hdone : ∀ k ∈ l, k ∉ c.setBlockIndexCandidates)
    (hc : ∀ k ∈ c.setBlockIndexCandidates, ∃ e, c.mapBlockIndex.lookup k = some e ∧
      (e.nChainTx ≠ 0 ∨ e.pskip = none))
    (hload : l.foldlM loadBlock c = some c') :
    ∀ k ∈ c'.setBlockIndexCandidates, ∃ e, c'.mapBlockIndex.lookup k = some e ∧
      (e.nChainTx ≠ 0 ∨ e.pskip = none) := by
  induction l generalizing c with
  | nil => exact some.inj hload ▸ hc
  | cons k l ih =>
    obtain ⟨hkl, hnodup⟩ := nodup_cons.mp hnodup
    obtain ⟨c1, hround, hrest⟩ := bind_eq_some_iff.mp hload
    obtain ⟨e, he, hround⟩ := bind_eq_some_iff.mp hround
    obtain ⟨e', hbuild, hround⟩ := bind_eq_some_iff.mp hround
    have hc1 := some.inj hround
    have hmap : c1.mapBlockIndex = c.mapBlockIndex.insert k e' := by rw [← hc1]
    have hcand : ∀ x ∈ c1.setBlockIndexCandidates, x ∈ c.setBlockIndexCandidates ∨
        x = k ∧ (e'.nChainTx ≠ 0 ∨ e'.pprev = none) := by
      intro x hx
      rw [← hc1] at hx
      split at hx
      next hvalid =>
        rw [Bool.and_eq_true, Bool.or_eq_true, decide_eq_true_eq, isNone_iff_eq_none] at hvalid
        rcases mem_insert.mp hx with rfl | hx
        · exact .inr ⟨rfl, hvalid.2⟩
        · exact .inl hx
      next => exact .inl hx
    -- a block without a parent is given no skip pointer
    have hroot : e'.pprev = none → e'.pskip = none := by
      intro hnone
      unfold buildSkip at hbuild
      split at hbuild
      next =>
        rw [← some.inj hbuild]
        exact hnew k mem_cons_self e he
      next prev hprev =>
        obtain ⟨pskip, -, hsome⟩ := bind_eq_some_iff.mp hbuild
        rw [← some.inj hsome] at hnone
        rw [show (computedEntry c.mapBlockIndex e).pprev = none from hnone] at hprev
        cases hprev
    refine ih hnodup (fun x hx e1 he1 => ?_) (fun x hx hmem => ?_) (fun x hx => ?_) hrest
    · have hxk : x ≠ k := fun heq => hkl (heq ▸ hx)
      rw [hmap, Maps.lookup_insert, if_neg hxk] at he1
      exact hnew x (mem_cons_of_mem _ hx) e1 he1
    · rcases hcand x hmem with hmem | ⟨rfl, -⟩
      · exact hdone x (mem_cons_of_mem _ hx) hmem
      · exact hkl hx
    · rw [hmap, Maps.lookup_insert]
      rcases hcand x hx with hx | ⟨rfl, hx⟩
      · have hxk : x ≠ k := by
          rintro rfl
          exact hdone x mem_cons_self hx
        rw [if_neg hxk]
        exact hc x hx
      · rw [if_pos rfl]
        exact ⟨e', rfl, hx.imp id hroot⟩

theorem loadBlockIndex_candidates {s' : ChainState}
    (hload : loadBlockIndex pow records = some s') :
    ∀ k ∈ s'.setBlockIndexCandidates, ∃ e, s'.mapBlockIndex.lookup k = some e ∧
      (e.nChainTx ≠ 0 ∨ e.pskip = none) := by
  obtain ⟨m, hguts, hblocks⟩ := bind_eq_some_iff.mp hload
  have hempty : ∀ k e, (∅ : BlockMap).lookup k = some e → e.pskip = none := by
    intro k e he
    cases he
  have hblank := loadBlockIndexGuts_pskip hempty hguts
  exact loadBlocks_candidates (nodup_sortedByHeight m) (fun k _ => hblank k)
    (fun k _ => not_mem_empty k) (fun k hk => absurd hk (not_mem_empty k))
    hblocks

namespace WrapSample

/-- The transactions of each block, `2 ^ 17`; a minimal transaction weighs 240 units. -/
def blockTxs : Nat := 131072

def anyWork : Uint256 → Nat → Bool := fun _ _ => true

/-- The block at height `i` has hash `i + 1`; its parent's is `i`. -/
def header (i : Nat) : CBlockHeader :=
  { hash := i + 1, hashPrevBlock := i, nTime := i, nBits := 0x207fffff }

/-- The header and the data of the block at height `i`. -/
def arrival (i : Nat) : List ArrivalOp :=
  [.addToBlockIndex (header i), .receivedBlockTransactions blockTxs (i + 1)]

/-- The first `n` blocks of a chain, one after the other. -/
def arrivals (n : Nat) : List ArrivalOp := (range n).flatMap arrival

theorem arrivals_succ (n : Nat) : arrivals (n + 1) = arrivals n ++ arrival n := by
  rw [arrivals, range_succ, flatMap_append, flatMap_singleton]
  rfl

/-- A chain of `n` blocks with data, before any of them is the tip. -/
structure ChainOf (n : Nat) (s : ChainState) : Prop where
  readable : Readable anyWork s
  noTip : s.chainActive = []
  blocks : ∀ k : Nat, k ∈ s.mapBlockIndex ↔ 1 ≤ k ∧ k ≤ n
  count : s.mapBlockIndex.nChainTx n = n * blockTxs

variable {n : Nat}

/-- The header of the next block has come. -/
structure HeaderCame (n : Nat) (s : ChainState) (e : CBlockIndexEntry) : Prop where
  readable : Readable anyWork s
  noTip : s.chainActive = []
  blocks : ∀ k : Nat, k ∈ s.mapBlockIndex ↔ 1 ≤ k ∧ k ≤ n + 1
  count : s.mapBlockIndex.nChainTx n = n * blockTxs
  entry : s.mapBlockIndex.lookup (n + 1) = some e
  pprev : e.pprev = if n = 0 then none else some n
  noData : e.nTx = 0
  leaf : ∀ x, s.mapBlockIndex.pprev x ≠ some (n + 1)

theorem ChainOf.header (hs : ChainOf n s) : ∃ s1 e,
    (addToBlockIndex (header n)).apply s = some s1 ∧ HeaderCame n s1 e ∧
      Legal anyWork s (.addToBlockIndex (WrapSample.header n)) := by
  have hnew : (WrapSample.header n).hash ∉ s.mapBlockIndex := by
    intro hmem
    have hle : n + 1 ≤ n := ((hs.blocks (n + 1)).mp hmem).2
    omega
  have hlegal : Legal anyWork s (.addToBlockIndex (WrapSample.header n)) := by
    refine ⟨succ_ne_zero n, rfl, ?_⟩
    rcases Nat.eq_zero_or_pos n with hzero | hpos
    · exact .inl hzero
    · exact .inr ((hs.blocks n).mpr ⟨hpos, le_refl n⟩)
  obtain ⟨s1, happly, hs1⟩ := step hs.readable hlegal trivial
  obtain ⟨e, hadd, -, hnTx, hprev, -⟩ :=
    addToBlockIndex_arrived hs.readable.arrived hnew
  have hs1eq : { s with mapBlockIndex := s.mapBlockIndex.insert (n + 1) e } = s1 := by
    have happly' := happly
    rw [apply, hadd] at happly'
    exact some.inj happly'
  -- the first block has the null hash for a parent, which is no block of the map
  have hprev' : e.pprev = if n = 0 then none else some n := by
    rw [hprev]
    rcases Nat.eq_zero_or_pos n with hzero | hpos
    · have hno : n ∉ s.mapBlockIndex := fun hmem => by
        have hge : 1 ≤ n := ((hs.blocks n).mp hmem).1
        omega
      rw [if_pos hzero]
      show (s.mapBlockIndex.lookup n).map _ = _
      rw [lookup_eq_none.mpr hno, map_none]
    · have hmem : n ∈ s.mapBlockIndex := (hs.blocks n).mpr ⟨hpos, le_refl n⟩
      obtain ⟨e', he'⟩ := isSome_iff_exists.mp (lookup_isSome.mpr hmem)
      rw [if_neg (by omega)]
      show (s.mapBlockIndex.lookup n).map _ = _
      rw [he']
      rfl
  refine ⟨s1, e, happly, ⟨hs1, ?_, fun k => ?_, ?_, ?_, ?_, hnTx, fun x hx => ?_⟩, hlegal⟩
  · rw [← hs1eq]
    exact hs.noTip
  · rw [← hs1eq]
    refine (mem_insert _).trans ?_
    rw [hs.blocks]
    show @Eq Nat k (n + 1) ∨ 1 ≤ k ∧ k ≤ n ↔ 1 ≤ k ∧ k ≤ n + 1
    omega
  · rw [← hs1eq]
    show read _ _ _ = _
    have hne : n ≠ n + 1 := Nat.ne_of_lt (Nat.lt_succ_self n)
    rw [read_insert, if_neg hne]
    exact hs.count
  · rw [← hs1eq]
    exact lookup_insert _
  · exact hprev'
  · rw [← hs1eq] at hx
    by_cases hxn : x = n + 1
    · rw [hxn, pprev_of_lookup (lookup_insert _), hprev'] at hx
      split at hx
      next => cases hx
      next => exact absurd (Option.some.inj hx) (Nat.ne_of_lt (Nat.lt_succ_self n))
    · have hx' : s.mapBlockIndex.pprev x = some (n + 1) := by
        rw [pprev, Maps.lookup_insert, if_neg hxn] at hx
        exact hx
      exact hnew (hs.readable.arrived.tree.mem_of_parent (k := x) (p := n + 1) hx').2

variable {e : CBlockIndexEntry}

variable (hs : HeaderCame n s e)

include hs

theorem HeaderCame.chainTxs_eq {x : Uint256} (hx : x ≠ n + 1) :
    chainTxs (s.mapBlockIndex.insert (n + 1) (receivedEntry blockTxs e)) x =
      s.mapBlockIndex.chainTxs x := by
  have htree := hs.readable.arrived.tree
  have htree' := (receivedEntry_sameTree blockTxs hs.entry).treeOk htree
  induction hh : s.mapBlockIndex.nHeight x using Nat.strong_induction_on generalizing x with
  | _ h ih =>
    have hpprev : BlockMap.pprev
        (s.mapBlockIndex.insert (n + 1) (receivedEntry blockTxs e)) x =
        s.mapBlockIndex.pprev x :=
      ((receivedEntry_sameTree blockTxs hs.entry).pprev_eq x).symm
    have hread : nTx (s.mapBlockIndex.insert (n + 1) (receivedEntry blockTxs e)) x =
        s.mapBlockIndex.nTx x := by
      unfold nTx
      rw [read_insert, if_neg hx]
    rw [htree'.chainTxs_eq, htree.chainTxs_eq, hpprev, hread]
    cases hp : s.mapBlockIndex.pprev x with
    | none => rfl
    | some p =>
      have hlow : s.mapBlockIndex.nHeight x = s.mapBlockIndex.nHeight p + 1 :=
        htree.forest.height_parent (k := x) (p := p) hp
      have hpn : p ≠ n + 1 := fun heq => hs.leaf x (heq ▸ hp)
      rw [elim_some, elim_some, ih _ (by omega) hpn rfl]

theorem HeaderCame.chainTxs_next :
    chainTxs (s.mapBlockIndex.insert (n + 1) (receivedEntry blockTxs e)) (n + 1) =
      (n + 1) * blockTxs := by
  have htree := hs.readable.arrived.tree
  have htree' := (receivedEntry_sameTree blockTxs hs.entry).treeOk htree
  have hpprev : BlockMap.pprev
      (s.mapBlockIndex.insert (n + 1) (receivedEntry blockTxs e)) (n + 1) =
      if n = 0 then none else some n := by
    rw [← (receivedEntry_sameTree blockTxs hs.entry).pprev_eq,
      pprev_of_lookup hs.entry, hs.pprev]
  have hread : nTx (s.mapBlockIndex.insert (n + 1) (receivedEntry blockTxs e)) (n + 1) =
      blockTxs := by
    unfold nTx
    rw [read_insert, if_pos rfl, receivedEntry_nTx]
    rfl
  rw [htree'.chainTxs_eq, hpprev, hread, succ_mul]
  rcases Nat.eq_zero_or_pos n with hzero | hpos
  · rw [if_pos hzero, hzero, Nat.zero_mul, elim_none]
  · have hne : n ≠ n + 1 := Nat.ne_of_lt (Nat.lt_succ_self n)
    have hcount : s.mapBlockIndex.nChainTx n ≠ 0 := by
      rw [hs.count]
      exact Nat.mul_ne_zero (by omega) (by decide)
    rw [if_neg (by omega), Option.elim_some, hs.chainTxs_eq hne,
      ← hs.readable.arrived.linking.nChainTx_eq htree hcount, hs.count]

theorem HeaderCame.legal :
    Legal anyWork s (.receivedBlockTransactions blockTxs (n + 1)) := by
  refine ⟨by decide, by decide, e, hs.entry, ?_⟩
  rw [← Bool.not_eq_true, (hs.readable.arrived.status _ e hs.entry).haveData]
  exact fun hne => hne hs.noData

theorem HeaderCame.fits (hlt : (n + 1) * blockTxs < 2 ^ 32) :
    Fits s (.receivedBlockTransactions blockTxs (n + 1)) := by
  intro e' he' x
  rw [← some.inj (hs.entry.symm.trans he')]
  by_cases hx : x = n + 1
  · rw [hx, hs.chainTxs_next]
    exact hlt
  · rw [hs.chainTxs_eq hx]
    exact hs.readable.arrived.fit x

theorem HeaderCame.receive (hlt : (n + 1) * blockTxs < 2 ^ 32) :
    ∃ s', (receivedBlockTransactions blockTxs (n + 1)).apply s = some s' ∧
      ChainOf (n + 1) s' := by
  have hfits := hs.fits hlt
  have hfit := hfits e hs.entry
  obtain ⟨s', happly, hs'⟩ := step hs.readable hs.legal hfits
  have hstatus := fun p prev => hs.readable.arrived.status p prev
  obtain ⟨m', unlinked', candidates', n', hres, hext, hlink, -⟩ :=
    receivedBlockTransactions_spec hs.readable.arrived.tree hs.readable.arrived.tip
      hs.readable.arrived.linking hs.entry hs.noData (show blockTxs % 2 ^ 32 ≠ 0 by decide) hfit
      (fun p prev _ hprev _ => by
        rw [CBlockIndexEntry.isValid, (hstatus p prev hprev).notFailed,
          decide_eq_true (hstatus p prev hprev).tree]
        rfl)
  have hs'eq := some.inj (hres.symm.trans happly)
  have hmap : s'.mapBlockIndex = m' := by rw [← hs'eq]
  have hsame := (receivedEntry_sameTree blockTxs hs.entry).trans hext.sameTree
  refine ⟨s', happly, hs', ?_, fun k => ?_, ?_⟩
  · rw [← hs'eq]
    exact hs.noTip
  · rw [hmap, ← hsame.mem_iff, hs.blocks]
  · rw [hmap, ← hs.chainTxs_next, ← hext.chainTxs_eq]
    refine hlink.nChainTx_eq (hmap ▸ hs'.arrived.tree) fun hzero => ?_
    -- a block that is not linked waits for its parent, but that is linked
    have hnTx : m'.nTx (n + 1) ≠ 0 := by
      rw [hext.nTx_eq, nTx, read_insert, if_pos rfl, receivedEntry_nTx]
      decide
    obtain ⟨p, hp⟩ := (hlink.covered _ hnTx hzero).resolve_left not_mem_nil
    obtain ⟨hpprev, -, hp0⟩ := hlink.waiting p _ hp
    rw [← hsame.pprev_eq, pprev_of_lookup hs.entry, hs.pprev] at hpprev
    split at hpprev
    next => cases hpprev
    next hpos =>
      have hpn : n = p := some.inj hpprev
      have hcount : s.mapBlockIndex.nChainTx n ≠ 0 := by
        rw [hs.count]
        exact Nat.mul_ne_zero hpos (by decide)
      have hne : n ≠ n + 1 := Nat.ne_of_lt (Nat.lt_succ_self n)
      have hlookup : (s.mapBlockIndex.insert (n + 1)
          (receivedEntry blockTxs e)).lookup n = s.mapBlockIndex.lookup n := by
        rw [Maps.lookup_insert, if_neg hne]
      have hcount1 : nChainTx (s.mapBlockIndex.insert (n + 1)
          (receivedEntry blockTxs e)) n ≠ 0 := by
        rw [nChainTx, BlockMap.read, hlookup]
        exact hcount
      rw [← hpn, nChainTx, BlockMap.read, hext.lookup_of_linked hcount1] at hp0
      exact hcount1 hp0

omit hs

theorem chainOf_arrivals (hn : n * blockTxs < 2 ^ 32) :
    Always (Legal anyWork) {} (arrivals n) ∧
      Always Fits {} (arrivals n) ∧
      ∃ s, run {} (arrivals n) = some s ∧ ChainOf n s := by
  induction n with
  | zero =>
    refine ⟨trivial, trivial, {}, rfl, readable_empty anyWork, rfl, fun k => ?_, ?_⟩
    · exact iff_of_false (notMem_empty k) (by omega)
    · rfl
  | succ n ih =>
    obtain ⟨hlegal, hfits, s, hrun, hs⟩ :=
      ih (lt_of_le_of_lt (mul_le_mul_right _ (le_succ n)) hn)
    obtain ⟨s1, e, hheader, hs1, hlegal1⟩ := hs.header
    obtain ⟨s', hdata, hs'⟩ := hs1.receive hn
    have hnext : ∀ P : ChainState → ArrivalOp → Prop, Always P {} (arrivals n) →
        P s (.addToBlockIndex (WrapSample.header n)) →
        P s1 (.receivedBlockTransactions blockTxs (n + 1)) →
        Always P {} (arrivals (n + 1)) := by
      intro P hP hP1 hP2
      rw [arrivals_succ]
      refine hP.append fun s0 hs0 => ?_
      obtain rfl := some.inj (hrun.symm.trans hs0)
      refine ⟨hP1, fun s2 hs2 => ?_⟩
      obtain rfl := some.inj (hheader.symm.trans hs2)
      exact ⟨hP2, fun _ _ => trivial⟩
    refine ⟨hnext _ hlegal hlegal1 hs1.legal, hnext _ hfits trivial (hs1.fits hn), s', ?_, hs'⟩
    rw [arrivals_succ, run_append, hrun, bind_some, run, arrival,
      foldlM_cons, hheader]
    show (foldlM _ _ _) = _
    rw [foldlM_cons, hdata]
    rfl

/-- The data of the block comes with which the chain has `2 ^ 32` transactions: its count
    wraps to zero, and it becomes a candidate all the same. -/
theorem HeaderCame.wraps (hs : HeaderCame n s e) (hwrap : (n + 1) * blockTxs = 2 ^ 32) :
    ∃ s' e', (receivedBlockTransactions blockTxs (n + 1)).apply s = some s' ∧
      s'.mapBlockIndex.lookup (n + 1) = some e' ∧ e'.nChainTx = 0 ∧ e'.pskip ≠ none ∧
      n + 1 ∈ s'.setBlockIndexCandidates ∧ s'.tip = none := by
  have hpos : n ≠ 0 := by
    rintro rfl
    exact absurd hwrap (by decide)
  have hpprev : e.pprev = some n := hs.pprev.trans (if_neg hpos)
  have hcount : s.mapBlockIndex.nChainTx n ≠ 0 := by
    rw [hs.count]
    exact Nat.mul_ne_zero hpos (by decide)
  obtain ⟨prev, hprev, hprevTx⟩ := exists_lookup_of_read hcount
  let e1 := receivedEntry blockTxs e
  let s1 : ChainState := { s with mapBlockIndex := s.mapBlockIndex.insert (n + 1) e1 }
  have he1 : s1.mapBlockIndex.lookup (n + 1) = some e1 := lookup_insert _
  have hne : n ≠ n + 1 := Nat.ne_of_lt (Nat.lt_succ_self n)
  have hprev1 : s1.mapBlockIndex.lookup n = some prev := by
    rw [Maps.lookup_insert, if_neg hne, hprev]
  have hpprev1 : e1.pprev = some n :=
    (congrArg CBlockIndex.pprev (receivedEntry_toCBlockIndex _ _)).trans hpprev
  -- n blocks counted so far and this one make 2 ^ 32, and nChainTx has 32 bits
  have hzero : (s1.linkedEntry e1).nChainTx = 0 := by
    show (s1.mapBlockIndex.readPrev (·.nChainTx) e1 + e1.nTx) % 2 ^ 32 = 0
    have htx : e1.nTx = blockTxs := receivedEntry_nTx _ _
    have hsum : prev.nChainTx = n * blockTxs := (read_of_lookup hprev _).symm.trans hs.count
    rw [readPrev, hpprev1, Option.elim_some, read_of_lookup hprev1, htx, hsum, ← succ_mul,
      hwrap]
    rfl
  have htip : s1.tip = none := by
    show s.chainActive.getLast? = none
    rw [hs.noTip]
    rfl
  let s2 : ChainState :=
    { s1 with
      mapBlockIndex := s1.mapBlockIndex.insert (n + 1) (s1.linkedEntry e1)
      nBlockSequenceId := s1.nBlockSequenceId + 1
      setBlockIndexCandidates := s1.setBlockIndexCandidates.insert (n + 1) }
  -- there is no tip to be worse than, so the block becomes a candidate
  have hlink : s1.linkBlock (n + 1) = some s2 := by
    simp only [linkBlock, he1, bind_eq_bind, bind_some]
    have hworse : ∀ s' : ChainState, s'.chainActive = [] → ∀ e, ¬ s'.isWorseThanTip e = true := by
      intro s' hnone e
      rw [isWorseThanTip_of_no_tip (by rw [tip, hnone]; rfl)]
      exact Bool.false_ne_true
    split
    next h =>
      refine absurd h (hworse _ ?_ _)
      exact hs.noTip
    next => rfl
  -- no block has the new one as its parent, and the queue ends with it
  have hwaiting : s2.waitingFor (n + 1) = [] := by
    show (s.mapBlocksUnlinked.filter (·.1 = n + 1)).map Prod.snd = []
    rw [map_eq_nil_iff, filter_eq_nil_iff]
    rintro ⟨p, x⟩ hx heq
    obtain ⟨hp, -, -⟩ := hs.readable.arrived.linking.waiting p x hx
    have hpn : p = n + 1 := of_decide_eq_true heq
    exact hs.leaf x (hpn ▸ hp)
  let s3 : ChainState :=
    { s2 with mapBlocksUnlinked := s2.mapBlocksUnlinked.filter (·.1 ≠ n + 1) }
  have hloop : linkLoop (s.mapBlocksUnlinked.length + 1) [n + 1] s1 = some s3 := by
    rw [linkLoop, hlink]
    show linkLoop s.mapBlocksUnlinked.length ([] ++ s2.waitingFor (n + 1)) s3 = some s3
    rw [hwaiting]
    cases s.mapBlocksUnlinked.length <;> rfl
  refine ⟨s3, s1.linkedEntry e1, ?_, lookup_insert _, hzero, ?_,
    mem_insert.mpr (.inl rfl), htip⟩
  · have hprevLookup : (s.mapBlockIndex.insert (n + 1) e1).lookup n = some prev := hprev1
    show s.receivedBlockTransactions blockTxs (n + 1) = _
    simp only [ChainState.receivedBlockTransactions, hs.entry, bind_eq_bind,
      bind_some, hpprev]
    rw [hprevLookup, bind_some, if_pos hprevTx]
    exact hloop
  · -- the block has a parent, and so a skip pointer
    have hskip : e.pskip = e.pprev.bind fun p =>
        hs.readable.arrived.tree.forest.ancestorAt (getSkipHeight e.nHeight) p :=
      (hs.readable.arrived.derived _ e hs.entry).skip
    have hheight : s.mapBlockIndex.nHeight (n + 1) = s.mapBlockIndex.nHeight n + 1 :=
      hs.readable.arrived.tree.forest.height_parent (k := n + 1) (p := n)
        ((pprev_of_lookup hs.entry).trans hpprev)
    have hown : s.mapBlockIndex.nHeight (n + 1) = e.nHeight := nHeight_of_lookup hs.entry
    have hlow : getSkipHeight e.nHeight ≤ s.mapBlockIndex.nHeight n := by
      have hlt : getSkipHeight e.nHeight < e.nHeight := getSkipHeight_lt (by omega)
      omega
    obtain ⟨a, ha, -⟩ := hs.readable.arrived.tree.forest.exists_ancestorAt (k := n) hlow
    have hsome : (s1.linkedEntry e1).pskip = some a := by
      show e1.pskip = some a
      rw [show e1.pskip = e.pskip from receivedEntry_pskip _ _, hskip, hpprev,
        bind_some, ha]
    rw [hsome]
    exact some_ne_none a

/-- A chain of 32768 blocks with `2 ^ 32` transactions: its last block is a candidate, and
    no longer one after a restart. -/
theorem not_always_reproduces :
    ¬ ∀ (checkProofOfWork : Uint256 → Nat → Bool) (ops : List ArrivalOp),
      Always (Legal checkProofOfWork) {} ops →
      ∃ s, run {} ops = some s ∧ ∀ records : List CDiskBlockIndex,
        records.Perm s.mapBlockIndex.diskRecords →
        ∃ s', loadBlockIndex checkProofOfWork records = some s' ∧ Reproduces s s' := by
  intro hall
  have hlt : 32767 * blockTxs < 2 ^ 32 := by decide
  have hwrap : (32767 + 1) * blockTxs = 2 ^ 32 := by decide
  generalize 32767 = n at hlt hwrap
  obtain ⟨hlegal, -, s, hrun, hs⟩ := chainOf_arrivals hlt
  obtain ⟨s1, e, hheader, hs1, hlegal1⟩ := hs.header
  obtain ⟨s2, e2, hdata, he2, hzero, hskip, hcand, htip⟩ := hs1.wraps hwrap
  have hlegal2 : Always (Legal anyWork) {} (arrivals (n + 1)) := by
    rw [arrivals_succ]
    refine hlegal.append fun s0 hs0 => ?_
    obtain rfl := some.inj (hrun.symm.trans hs0)
    refine ⟨hlegal1, fun s3 hs3 => ?_⟩
    obtain rfl := some.inj (hheader.symm.trans hs3)
    exact ⟨hs1.legal, fun _ _ => trivial⟩
  have hrun2 : run {} (arrivals (n + 1)) = some s2 := by
    rw [arrivals_succ, run_append, hrun, bind_some, run, arrival,
      foldlM_cons, hheader]
    show (foldlM _ _ _) = _
    rw [foldlM_cons, hdata]
    rfl
  obtain ⟨s3, hs3, hreload⟩ := hall anyWork _ hlegal2
  obtain rfl := some.inj (hrun2.symm.trans hs3)
  obtain ⟨s', hload, hfields, -, hcands⟩ := hreload _ (.refl _)
  have hin := (hcands _ e2 he2 (isWorseThanTip_of_no_tip htip)).mpr hcand
  obtain ⟨e', he', hor⟩ := loadBlockIndex_candidates hload _ hin
  have hsame := hfields (n + 1)
  rw [he', he2, map_some, map_some, some.injEq] at hsame
  simp only [memoryFields, Prod.mk.injEq] at hsame
  obtain ⟨-, -, hcount, hpskip⟩ := hsame
  rcases hor with hne | hnone
  · exact hne (hcount.trans hzero)
  · exact hskip (hpskip.symm.trans hnone)

/-- A genesis block and a block on it. -/
theorem two_reproduced : ∃ s, run {} (arrivals 2) = some s ∧
    ∀ records : List CDiskBlockIndex, records.Perm s.mapBlockIndex.diskRecords →
      ∃ s', loadBlockIndex anyWork records = some s' ∧ Reproduces s s' := by
  have hlt : 2 * blockTxs < 2 ^ 32 := by decide
  obtain ⟨hlegal, hfits, -⟩ := chainOf_arrivals hlt
  exact loadBlockIndex_reproduces anyWork (arrivals 2) hlegal hfits

end WrapSample

end Rcoin
