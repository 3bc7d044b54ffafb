/-
  Headers and block data arrive in any order, and better chains are activated: what
  the block index, the waiting blocks and the candidates look like at any time.

  Source: CChainState::AddToBlockIndex and ReceivedBlockTransactions in
  src/validation.cpp.
-/
import Rcoin.Chain.Linking
import Rcoin.Chain.WorkOrder

namespace Rcoin

open BlockMap AList List Option

/-! ## What has arrived -/

/-- The fields of an entry that follow from those of the entry of its parent and
    from its header. -/
structure EntryDerived (m : BlockMap) (htree : m.TreeOk) (e : CBlockIndexEntry) : Prop where
  work : e.nChainWork = (m.readPrev (·.nChainWork) e + getBlockProof e.nBits) % 2 ^ 256
  timeMax : e.nTimeMax = max (m.readPrev (·.nTimeMax) e) e.nTime
  skip : e.pskip = e.pprev.bind fun p => htree.forest.ancestorAt (getSkipHeight e.nHeight) p

/-- The status of a block that is not known to be invalid: it tells whether its data
    has come. -/
structure EntryStatus (e : CBlockIndexEntry) : Prop where
  notFailed : e.nStatus.failed = false
  tree : BLOCK_VALID_TREE ≤ e.nStatus.valid
  transactions : BLOCK_VALID_TRANSACTIONS ≤ e.nStatus.valid ↔ e.nTx ≠ 0
  haveData : e.nStatus.haveData = true ↔ e.nTx ≠ 0

variable {e : CBlockIndexEntry}

theorem EntryStatus.new (hstatus : e.nStatus = {}) (hnTx : e.nTx = 0) :
    EntryStatus (e.raiseValidity BLOCK_VALID_TREE) := by
  have hraise : e.raiseValidity BLOCK_VALID_TREE =
      { e with nStatus := { e.nStatus with valid := BLOCK_VALID_TREE } } := by
    rw [CBlockIndexEntry.raiseValidity, hstatus]
    rfl
  rw [hraise, hstatus]
  have hlow : ¬ BLOCK_VALID_TRANSACTIONS ≤ BLOCK_VALID_TREE := by decide
  exact ⟨rfl, le_refl _, iff_of_false hlow fun h => h hnTx,
    iff_of_false Bool.false_ne_true fun h => h hnTx⟩

theorem EntryStatus.receivedEntry (h : EntryStatus e) {nTx : Nat} (hpos : nTx % 2 ^ 32 ≠ 0) :
    EntryStatus (ChainState.receivedEntry nTx e) := by
  have hnTx := ChainState.receivedEntry_nTx nTx e
  have hno : e.nStatus.failed = false := h.notFailed
  have hstatus : (ChainState.receivedEntry nTx e).nStatus =
      { e.nStatus with
        haveData := true
        valid := max BLOCK_VALID_TRANSACTIONS e.nStatus.valid } := by
    unfold ChainState.receivedEntry CBlockIndexEntry.raiseValidity
    rw [if_neg]
    · split
      next hlt => rw [max_eq_left (le_of_lt hlt)]
      next hge => rw [max_eq_right (not_lt.mp hge)]
    · show ¬ e.nStatus.failed = true
      rw [hno]
      exact Bool.false_ne_true
  refine ⟨?_, ?_, ?_, ?_⟩
  · rw [hstatus]
    exact hno
  · rw [hstatus]
    exact le_trans h.tree (le_max_right _ _)
  · rw [hstatus, hnTx]
    exact iff_of_true (le_max_left _ _) hpos
  · rw [hstatus, hnTx]
    exact iff_of_true rfl hpos

/-- The fields that stay as they are once a block is in the index. -/
def headerFields (e : CBlockIndexEntry) : CBlockIndex × Option Uint256 × Nat × Nat × Nat × Nat :=
  (e.toCBlockIndex, e.pskip, e.nChainWork, e.nTimeMax, e.nBits, e.nTime)

theorem EntryDerived.of_headerFields {m m' : BlockMap} {htree : m.TreeOk}
    (hsame : ∀ x, (m'.lookup x).map headerFields = (m.lookup x).map headerFields)
    (hderived : ∀ k e, m.lookup k = some e → EntryDerived m htree e) (htree' : m'.TreeOk)
    {k : Uint256} {e' : CBlockIndexEntry} (he' : m'.lookup k = some e') :
    EntryDerived m' htree' e' := by
  have hmap := hsame k
  rw [he', map_some] at hmap
  obtain ⟨e, he, hfields⟩ := map_eq_some_iff.mp hmap.symm
  simp only [headerFields, Prod.mk.injEq] at hfields
  obtain ⟨hblock, hskip, hwork, htime, hbits, hnTime⟩ := hfields
  have hderived := hderived k e he
  have hblocks : m.SameBlocks m' := by
    intro x
    have hx := congrArg (Option.map fun t => t.1) (hsame x)
    rw [Option.map_map, Option.map_map] at hx
    exact hx.symm
  have hforest := hblocks.forest_eq htree htree'
  have hread : ∀ f : CBlockIndexEntry → Nat, (∃ g : _ → Nat, ∀ e, f e = g (headerFields e)) →
      m'.readPrev f e' = m.readPrev f e := by
    rintro f ⟨g, hg⟩
    have hf : ∀ x, m'.read f x = m.read f x := by
      intro x
      have hx := congrArg (fun o : Option _ => o.elim 0 g) (hsame x)
      simp only [elim_map] at hx
      have hfun : f = g ∘ headerFields := funext hg
      rw [BlockMap.read, BlockMap.read, hfun]
      exact hx
    rw [readPrev, readPrev, ← congrArg CBlockIndex.pprev hblock]
    cases e.pprev with
    | none => rfl
    | some p => exact hf p
  refine ⟨?_, ?_, ?_⟩
  · rw [hread (·.nChainWork) ⟨fun t => t.2.2.1, fun _ => rfl⟩, ← hwork, ← hbits]
    exact hderived.work
  · rw [hread (·.nTimeMax) ⟨fun t => t.2.2.2.1, fun _ => rfl⟩, ← htime, ← hnTime]
    exact hderived.timeMax
  · rw [hforest, ← hskip, ← congrArg CBlockIndex.pprev hblock, ← congrArg CBlockIndex.nHeight hblock]
    exact hderived.skip

/-- The index and the candidates as headers and block data have left them. -/
structure Arrived (s : ChainState) : Prop where
  tree : s.mapBlockIndex.TreeOk
  derived : ∀ k e, s.mapBlockIndex.lookup k = some e → EntryDerived s.mapBlockIndex tree e
  status : ∀ k e, s.mapBlockIndex.lookup k = some e → EntryStatus e
  fit : s.mapBlockIndex.CountsFit
  linking : Linking s.mapBlockIndex s.mapBlocksUnlinked []
  tip : s.TipLinked
  candidate : ∀ x, x ∈ s.setBlockIndexCandidates → s.mapBlockIndex.nChainTx x ≠ 0
  candidates : ∀ x e, s.mapBlockIndex.lookup x = some e → e.nChainTx ≠ 0 →
    s.isWorseThanTip e = false → x ∈ s.setBlockIndexCandidates

namespace Arrived

variable {s : ChainState} {k p : Uint256}

theorem skipOk (hs : Arrived s) : SkipOk s.mapBlockIndex hs.tree := by
  intro k e skip he hskip
  rw [← (hs.derived k e he).skip, hskip]

theorem unlinked_iff (hs : Arrived s) (he : s.mapBlockIndex.lookup k = some e) :
    (p, k) ∈ s.mapBlocksUnlinked ↔
      e.pprev = some p ∧ e.nTx ≠ 0 ∧ s.mapBlockIndex.nChainTx p = 0 := by
  have hpprev : s.mapBlockIndex.pprev k = e.pprev := pprev_of_lookup he
  have hnTx : s.mapBlockIndex.nTx k = e.nTx := read_of_lookup he _
  constructor
  · intro h
    obtain ⟨hp, hnz, hzero⟩ := hs.linking.waiting p k h
    exact ⟨hpprev.symm.trans hp, hnTx.symm.trans_ne hnz, hzero⟩
  · rintro ⟨hp, hnz, hzero⟩
    have hk : s.mapBlockIndex.nChainTx k = 0 := by
      by_contra hne
      exact (hs.linking.linked k hne).2.1 p (hpprev.trans hp) hzero
    obtain ⟨q, hq⟩ :=
      (hs.linking.covered k (hnTx.trans_ne hnz) hk).resolve_left not_mem_nil
    have hqp := (hs.linking.waiting q k hq).1
    rw [hpprev, hp] at hqp
    rwa [some.inj hqp]

theorem nChainTx_eq (hs : Arrived s) (he : s.mapBlockIndex.lookup k = some e) (hnz : e.nTx ≠ 0) :
    e.nChainTx = if e.pprev.isSome ∧ s.mapBlockIndex.readPrev (·.nChainTx) e = 0 then 0
      else (s.mapBlockIndex.readPrev (·.nChainTx) e + e.nTx) % 2 ^ 32 := by
  have hpprev : s.mapBlockIndex.pprev k = e.pprev := pprev_of_lookup he
  have hnTx : s.mapBlockIndex.nTx k = e.nTx := read_of_lookup he _
  have hchain : s.mapBlockIndex.nChainTx k = e.nChainTx := read_of_lookup he _
  rw [readPrev_eq he]
  by_cases hzero : e.nChainTx = 0
  · obtain ⟨p, hp⟩ := (hs.linking.covered k (hnTx.trans_ne hnz) (hchain.trans hzero)).resolve_left
      not_mem_nil
    obtain ⟨hpk, -, hp0⟩ := hs.linking.waiting p k hp
    have hread : s.mapBlockIndex.read (·.nChainTx) p = 0 := hp0
    rw [if_pos, hzero]
    rw [← hpprev, hpk]
    exact ⟨rfl, hread⟩
  · obtain ⟨-, hbelow, hsum⟩ := hs.linking.linked k (hchain.trans_ne hzero)
    have hlt := hs.linking.count_lt hs.tree hs.fit hbelow
    rw [hnTx] at hsum hlt
    rw [if_neg]
    · rw [← hchain, hsum]
      exact (Nat.mod_eq_of_lt hlt).symm
    · rw [← hpprev]
      cases hpk : s.mapBlockIndex.pprev k with
      | none => exact fun h => Bool.false_ne_true h.1
      | some p => exact fun h => hbelow p hpk h.2

theorem nChainTx_of_no_data (hs : Arrived s) (he : s.mapBlockIndex.lookup k = some e)
    (hno : e.nTx = 0) : e.nChainTx = 0 := by
  have hnTx : s.mapBlockIndex.nTx k = e.nTx := read_of_lookup he _
  have hchain : s.mapBlockIndex.nChainTx k = e.nChainTx := read_of_lookup he _
  by_contra hne
  exact (hs.linking.linked k (hchain.trans_ne hne)).1 (hnTx.trans hno)

end Arrived

/-! ## Headers -/

namespace BlockMap

variable {m : BlockMap} {k x : Uint256}

theorem read_of_not_mem (hk : k ∉ m) (f : CBlockIndexEntry → Nat) : m.read f k = 0 := by
  rw [read, lookup_eq_none.mpr hk, elim_none]

theorem read_insert_new (hk : k ∉ m) {f : CBlockIndexEntry → Nat} (hf : f e = 0) :
    read (insert k e m) f = m.read f := by
  funext x
  rw [read_insert]
  split
  next heq => rw [heq, hf, read_of_not_mem hk]
  next => rfl

theorem TreeOk.chainTxs_insert (h : m.TreeOk) (h' : TreeOk (AList.insert k e m)) (hk : k ∉ m)
    (hnTx : e.nTx = 0) (hx : x ∈ m) : chainTxs (AList.insert k e m) x = m.chainTxs x := by
  have hread : nTx (AList.insert k e m) = m.nTx := read_insert_new hk hnTx
  have hup : ∀ n x, x ∈ m → txsUpTo (AList.insert k e m) n x = m.txsUpTo n x := by
    intro n
    induction n with
    | zero => exact fun x _ => congrFun hread x
    | succ n ih =>
      intro x hx
      have hxk : x ≠ k := fun heq => hk (heq ▸ hx)
      have hparent : pprev (AList.insert k e m) x = m.pprev x := h.parent_insert h' hxk
      rw [txsUpTo, txsUpTo, hparent, hread]
      cases hp : m.pprev x with
      | none => rfl
      | some p => rw [elim_some, elim_some, ih p (h.mem_of_parent (k := x) hp).2]
  have hxk : x ≠ k := fun heq => hk (heq ▸ hx)
  have hheight : nHeight (AList.insert k e m) x = m.nHeight x := h.height_insert h' hxk
  rw [chainTxs, chainTxs, hheight, hup _ x hx]

theorem TreeOk.countsFit_insert (h : m.TreeOk) (h' : TreeOk (AList.insert k e m)) (hk : k ∉ m)
    (hnTx : e.nTx = 0) (hparent : ∀ p, e.pprev = some p → p ∈ m) (hfit : m.CountsFit) :
    CountsFit (AList.insert k e m) := by
  have hread : nTx (AList.insert k e m) = m.nTx := read_insert_new hk hnTx
  intro x
  by_cases hx : x ∈ m
  · rw [h.chainTxs_insert h' hk hnTx hx]
    exact hfit x
  · have hzero : m.nTx x = 0 := read_of_not_mem hx _
    rw [h'.chainTxs_eq, hread, hzero, Nat.add_zero]
    cases hp : pprev (AList.insert k e m) x with
    | none => exact Nat.two_pow_pos 32
    | some p =>
      have hpm : p ∈ m := by
        rw [pprev, Maps.lookup_insert] at hp
        split at hp
        next => exact hparent p hp
        next =>
          rw [lookup_eq_none.mpr hx] at hp
          cases hp
      rw [elim_some, h.chainTxs_insert h' hk hnTx hpm]
      exact hfit p

theorem Linking.insert_new {unlinked : List (Uint256 × Uint256)} (hlink : Linking m unlinked [])
    (hk : k ∉ m) (hnTx : e.nTx = 0) (hchain : e.nChainTx = 0) :
    Linking (insert k e m) unlinked [] := by
  have hTx : nTx (insert k e m) = m.nTx := read_insert_new hk hnTx
  have hChain : nChainTx (insert k e m) = m.nChainTx := read_insert_new hk hchain
  have hpprev : ∀ x, m.nTx x ≠ 0 → pprev (insert k e m) x = m.pprev x := by
    intro x hx
    have hxk : x ≠ k := fun heq => hx (heq ▸ read_of_not_mem hk _)
    rw [pprev, pprev, Maps.lookup_insert, if_neg hxk]
  refine ⟨fun x hx => ?_, fun x hx => (by cases hx), fun p x hx => ?_, ?_, hlink.queueNodup,
    hlink.unlinkedNodup⟩
  · rw [hChain] at hx ⊢
    obtain ⟨hnz, hbelow, hsum⟩ := hlink.linked x hx
    rw [LinkedBelow, hTx, hChain, hpprev x hnz]
    exact ⟨hnz, hbelow, hsum⟩
  · obtain ⟨hp, hnz, hzero⟩ := hlink.waiting p x hx
    rw [hTx, hChain, hpprev x hnz]
    exact ⟨hp, hnz, hzero⟩
  · rw [hTx, hChain]
    exact hlink.covered

end BlockMap

namespace ChainState

variable {s : ChainState} {k x : Uint256}

theorem newEntry_derived {m : BlockMap} (htree : m.TreeOk) (hskip : SkipOk m htree)
    (block : CBlockHeader) : ∃ e, newEntry m block = some e ∧ e.hash = block.hash ∧
      e.nBits = block.nBits ∧
      (∀ p, e.pprev = some p → ∃ e', m.lookup p = some e' ∧ e.nHeight = e'.nHeight + 1) ∧
      (e.pprev = none → e.nHeight = 0) ∧ EntryDerived m htree e ∧ EntryStatus e ∧
      e.nTx = 0 ∧ e.nChainTx = 0 := by
  rw [newEntry]
  cases hp : m.lookup block.hashPrevBlock with
  | none =>
    refine ⟨_, rfl, rfl, rfl, fun p hpp => ?_, fun _ => rfl, ⟨?_, ?_, rfl⟩,
      EntryStatus.new rfl rfl, rfl, rfl⟩
    · cases hpp
    · show getBlockProof block.nBits = (0 + getBlockProof block.nBits) % 2 ^ 256
      rw [zero_add, getBlockProof]
      split
      · rfl
      · rw [Nat.mod_mod]
    · exact (Nat.max_eq_right (Nat.zero_le _)).symm
  | some prev =>
    have hmem : block.hashPrevBlock ∈ m := lookup_isSome.mp (by rw [hp]; rfl)
    have hneg : ¬ ((getSkipHeight (prev.nHeight + 1) : Nat) : Int) < 0 := by omega
    simp only [BlockMap.getAncestor_eq htree hskip hmem, bind_eq_bind, bind_some,
      if_neg hneg, Int.toNat_natCast]
    refine ⟨_, rfl, rfl, rfl, fun p hpp => ?_, fun hnone => (by cases hnone), ⟨?_, ?_, rfl⟩,
      EntryStatus.new rfl rfl, rfl, rfl⟩
    · have hpe : block.hashPrevBlock = p := some.inj hpp
      exact ⟨prev, hpe ▸ hp, rfl⟩
    · show (prev.nChainWork + getBlockProof block.nBits) % 2 ^ 256 =
        (m.read (·.nChainWork) block.hashPrevBlock + getBlockProof block.nBits) % 2 ^ 256
      rw [read_of_lookup hp]
    · show max prev.nTimeMax block.nTime = max (m.read (·.nTimeMax) block.hashPrevBlock) block.nTime
      rw [read_of_lookup hp]

theorem derived_insert {m : BlockMap} {htree : m.TreeOk}
    (hderived : ∀ k e, m.lookup k = some e → EntryDerived m htree e) (htree' : TreeOk (insert k e m))
    (hnew : k ∉ m) (hpm : ∀ p, e.pprev = some p → p ∈ m) (hself : EntryDerived m htree e)
    {e' : CBlockIndexEntry} (he' : (insert k e m).lookup x = some e') :
    EntryDerived (insert k e m) htree' e' := by
  have hkeep : (∀ p, e'.pprev = some p → p ∈ m) → EntryDerived m htree e' →
      EntryDerived (insert k e m) htree' e' := by
    intro hpm' h
    have hne : e'.pprev ≠ some k := fun heq => hnew (hpm' _ heq)
    refine ⟨by rw [readPrev_insert _ hne]; exact h.work,
      by rw [readPrev_insert _ hne]; exact h.timeMax, ?_⟩
    rw [h.skip]
    cases hp : e'.pprev with
    | none => rfl
    | some p => exact (htree.ancestorAt_insert htree' hnew (hpm' p hp) _).symm
  rw [Maps.lookup_insert] at he'
  split at he'
  next =>
    obtain rfl := some.inj he'
    exact hkeep hpm hself
  next =>
    refine hkeep (fun p hp => ?_) (hderived x e' he')
    obtain ⟨e'', he'', -⟩ := htree.parent x e' p he' hp
    exact lookup_isSome.mp (by rw [he'']; rfl)

theorem addToBlockIndex_arrived (hs : Arrived s) {block : CBlockHeader}
    (hnew : block.hash ∉ s.mapBlockIndex) :
    ∃ e, s.addToBlockIndex block = some (block.hash,
        { s with mapBlockIndex := s.mapBlockIndex.insert block.hash e }) ∧
      e.nBits = block.nBits ∧ e.nTx = 0 ∧
      e.pprev = (s.mapBlockIndex.lookup block.hashPrevBlock).map (fun _ => block.hashPrevBlock) ∧
      Arrived { s with mapBlockIndex := s.mapBlockIndex.insert block.hash e } := by
  obtain ⟨e, hentry, hhash, hbits, hparent, hroot, hderived, hstatus, hnTx, hchain⟩ :=
    newEntry_derived hs.tree hs.skipOk block
  have hprev := (newEntry_header hentry).2
  have hpm : ∀ p, e.pprev = some p → p ∈ s.mapBlockIndex := by
    intro p hp
    obtain ⟨e', he', -⟩ := hparent p hp
    exact lookup_isSome.mp (by rw [he']; rfl)
  have htree := hs.tree.insert hnew hhash hparent hroot
  have hold : ∀ k e', s.mapBlockIndex.lookup k = some e' → k ≠ block.hash := by
    intro k e' he' heq
    exact hnew (lookup_isSome.mp (by rw [← heq, he']; rfl))
  -- the new block is not linked yet: nothing else changes
  have hcases : ∀ k e', (s.mapBlockIndex.insert block.hash e).lookup k = some e' →
      e' = e ∨ s.mapBlockIndex.lookup k = some e' := by
    intro k e' he'
    rw [Maps.lookup_insert] at he'
    split at he'
    next => exact .inl (some.inj he').symm
    next => exact .inr he'
  have hlinked : ∀ x, s.mapBlockIndex.nChainTx x ≠ 0 →
      (s.mapBlockIndex.insert block.hash e).lookup x = s.mapBlockIndex.lookup x := by
    intro x hx
    obtain ⟨e', he', -⟩ := exists_lookup_of_read hx
    rw [Maps.lookup_insert, if_neg (hold x e' he')]
  have hchainEq : nChainTx (s.mapBlockIndex.insert block.hash e) = s.mapBlockIndex.nChainTx :=
    read_insert_new hnew hchain
  refine ⟨e, ?_, hbits, hnTx, hprev, htree, ?_, ?_,
    hs.tree.countsFit_insert htree hnew hnTx hpm hs.fit, hs.linking.insert_new hnew hnTx hchain,
    ?_, ?_, ?_⟩
  · rw [addToBlockIndex, if_neg hnew, hentry]
    rfl
  · exact fun k e' he' => derived_insert hs.derived htree hnew hpm hderived he'
  · intro k e' he'
    rcases hcases k e' he' with rfl | he'
    · exact hstatus
    · exact hs.status k e' he'
  · intro t ht
    rw [hchainEq]
    exact hs.tip t ht
  · intro x hx
    rw [hchainEq]
    exact hs.candidate x hx
  · intro x e' he' hne hworse
    rcases hcases x e' he' with rfl | he'
    · exact absurd hchain hne
    · refine hs.candidates x e' he' hne ?_
      rw [← hworse]
      let s1 : ChainState := { s with mapBlockIndex := s.mapBlockIndex.insert block.hash e }
      exact (isWorseThanTip_congr hs.tip s1 rfl hlinked e').symm

/-! ## Block data -/

theorem receivedBlockTransactions_arrived (hs : Arrived s)
    (he : s.mapBlockIndex.lookup k = some e) (hno : e.nStatus.haveData = false) {nTx : Nat}
    (hpos : nTx % 2 ^ 32 ≠ 0)
    (hfit : CountsFit (s.mapBlockIndex.insert k (receivedEntry nTx e))) :
    ∃ s', s.receivedBlockTransactions nTx k = some s' ∧ Arrived s' ∧
      s'.chainActive = s.chainActive ∧
      ∀ x, (s'.mapBlockIndex.lookup x).map headerFields =
        (s.mapBlockIndex.lookup x).map headerFields := by
  have hnTx : e.nTx = 0 := by
    by_contra hne
    rw [(hs.status k e he).haveData.mpr hne] at hno
    cases hno
  have hparent : ∀ p prev, e.pprev = some p → s.mapBlockIndex.lookup p = some prev →
      prev.nChainTx = 0 → prev.isValid BLOCK_VALID_TREE = true := by
    intro p prev _ hprev _
    have hst := hs.status p prev hprev
    rw [CBlockIndexEntry.isValid, hst.notFailed, decide_eq_true hst.tree]
    rfl
  obtain ⟨m', unlinked', candidates', n', hres, hext, hlink, hcand⟩ :=
    receivedBlockTransactions_spec hs.tree hs.tip hs.linking he hnTx hpos hfit hparent
  have hsame1 : s.mapBlockIndex.SameTree (s.mapBlockIndex.insert k (receivedEntry nTx e)) :=
    receivedEntry_sameTree _ he
  have htree' : m'.TreeOk := (hsame1.trans hext.sameTree).treeOk hs.tree
  have hfields : ∀ x, (m'.lookup x).map headerFields =
      (s.mapBlockIndex.lookup x).map headerFields := by
    intro x
    rw [hext.map_lookup_eq headerFields fun _ _ _ => rfl, Maps.lookup_insert]
    split
    next heq =>
      rw [heq, he, map_some, map_some]
      exact congrArg some (CBlockIndexEntry.raiseValidity_congr headerFields (fun _ _ => rfl) _ _)
    next => rfl
  have hkzero : s.mapBlockIndex.nChainTx k = 0 :=
    (read_of_lookup he _).trans (hs.nChainTx_of_no_data he hnTx)
  -- linked blocks stay as they are
  have hstays : ∀ x, s.mapBlockIndex.nChainTx x ≠ 0 →
      m'.lookup x = s.mapBlockIndex.lookup x := by
    intro x hx
    have hxk : x ≠ k := fun heq => hx (heq ▸ hkzero)
    have hlookup : (s.mapBlockIndex.insert k (receivedEntry nTx e)).lookup x =
        s.mapBlockIndex.lookup x := by
      rw [Maps.lookup_insert, if_neg hxk]
    rw [hext.lookup_of_linked, hlookup]
    rwa [nChainTx, BlockMap.read, hlookup]
  have hstays' : ∀ x, s.mapBlockIndex.nChainTx x ≠ 0 → m'.nChainTx x ≠ 0 := by
    intro x hx
    rwa [nChainTx, BlockMap.read, hstays x hx]
  refine ⟨_, hres, ⟨htree', ?_, ?_, hext.countsFit hfit, hlink, ?_, ?_, ?_⟩, rfl, hfields⟩
  · intro x e' he'
    exact EntryDerived.of_headerFields hfields hs.derived htree' he'
  · intro x e' he'
    have hstatus := hext.map_lookup_eq (fun e => (e.nStatus, e.nTx)) (fun _ _ _ => rfl) x
    rw [show m'.lookup x = some e' from he', map_some] at hstatus
    obtain ⟨e1, he1, heq⟩ := map_eq_some_iff.mp hstatus.symm
    obtain ⟨hst, htx⟩ := Prod.mk.inj heq
    have h1 : EntryStatus e1 := by
      rw [Maps.lookup_insert] at he1
      split at he1
      next =>
        rw [← some.inj he1]
        exact (hs.status k e he).receivedEntry hpos
      next => exact hs.status x e1 he1
    refine ⟨?_, ?_, ?_, ?_⟩
    · rw [← hst]; exact h1.notFailed
    · rw [← hst]; exact h1.tree
    · rw [← hst, ← htx]; exact h1.transactions
    · rw [← hst, ← htx]; exact h1.haveData
  · exact fun t ht => hstays' t (hs.tip t ht)
  · intro x hx
    rcases (hcand x).mp hx with hx | ⟨-, e', he', hne, -⟩
    · exact hstays' x (hs.candidate x hx)
    · exact (read_of_lookup he' _).trans_ne hne
  · intro x e' he' hne hworse
    have hworse' : s.isWorseThanTip e' = false := by
      rw [← hworse]
      let s' : ChainState :=
        { s with
          mapBlockIndex := m'
          mapBlocksUnlinked := unlinked'
          setBlockIndexCandidates := candidates'
          nBlockSequenceId := n' }
      exact (isWorseThanTip_congr hs.tip s' rfl hstays e').symm
    refine (hcand x).mpr ?_
    by_cases hx : s.mapBlockIndex.nChainTx x = 0
    · exact .inr ⟨hx, e', he', hne, hworse'⟩
    · have hold : s.mapBlockIndex.lookup x = some e' := (hstays x hx).symm.trans he'
      exact .inl (hs.candidates x e' hold hne hworse')

/-! ## A new tip -/

theorem setTip_arrived (hs : Arrived s) {chain : List Uint256} {t : Uint256}
    (ht : chain.getLast? = some t) (he : s.mapBlockIndex.lookup t = some e)
    (hlinked : e.nChainTx ≠ 0) (hbetter : s.isWorseThanTip e = false) :
    ∃ s', pruneBlockIndexCandidates { s with chainActive := chain } = some s' ∧ Arrived s' ∧
      s'.mapBlockIndex = s.mapBlockIndex := by
  have hkeep : ∀ x e', s.mapBlockIndex.lookup x = some e' → e'.nChainTx ≠ 0 →
      e'.workComparator e = false → x ∈ s.setBlockIndexCandidates := by
    intro x e' he' hne hworse
    refine hs.candidates x e' he' hne ?_
    cases htip : s.tip with
    | none => exact isWorseThanTip_of_no_tip htip
    | some t0 =>
      obtain ⟨te, hte, -⟩ := exists_lookup_of_read (hs.tip t0 htip)
      rw [isWorseThanTip_of_tip htip hte, CBlockIndexEntry.workComparator_eq_false_iff] at hbetter ⊢
      rw [CBlockIndexEntry.workComparator_eq_false_iff] at hworse
      exact hbetter.trans hworse
  have hself : e.workComparator e = false :=
    CBlockIndexEntry.workComparator_eq_false_iff.mpr (le_refl _)
  have hmem : ∀ x, x ∈ s.setBlockIndexCandidates.filter (fun k =>
      (s.mapBlockIndex.lookup k).any fun e' => !e'.workComparator e) ↔
      x ∈ s.setBlockIndexCandidates ∧ ∃ e', s.mapBlockIndex.lookup x = some e' ∧
        e'.workComparator e = false := by
    intro x
    rw [SortedSet.mem_filter, Option.any_eq_true]
    simp only [Bool.not_eq_true']
  -- the assertion: the new tip itself is left
  have hnonempty : ¬ (s.setBlockIndexCandidates.filter (fun k =>
      (s.mapBlockIndex.lookup k).any fun e' => !e'.workComparator e)).elems.isEmpty = true := by
    have htm := (hmem t).mpr ⟨hkeep t e he hlinked hself, e, he, hself⟩
    intro hempty
    rw [List.isEmpty_iff] at hempty
    rw [← SortedSet.mem_elems, hempty] at htm
    exact not_mem_nil htm
  have htip : tip { s with chainActive := chain } = some t := ht
  let s' : ChainState :=
    { s with
      chainActive := chain
      setBlockIndexCandidates := s.setBlockIndexCandidates.filter fun k =>
        (s.mapBlockIndex.lookup k).any fun e' => !e'.workComparator e }
  have htip' : s'.tip = some t := ht
  refine ⟨s', ?_, ⟨hs.tree, hs.derived, hs.status, hs.fit, hs.linking, ?_, ?_, ?_⟩, rfl⟩
  · simp only [pruneBlockIndexCandidates, htip, he, bind_eq_bind, bind_some]
    exact if_neg hnonempty
  · intro t' ht'
    obtain rfl : t = t' := some.inj (htip'.symm.trans ht')
    exact (read_of_lookup he _).trans_ne hlinked
  · exact fun x hx => hs.candidate x ((hmem x).mp hx).1
  · intro x e' he' hne hworse
    rw [isWorseThanTip_of_tip htip' he] at hworse
    exact (hmem x).mpr ⟨hkeep x e' he' hne hworse, e', he', hworse⟩

end ChainState

open ChainState

/-! ## Runs -/

/-- What happens to the index while blocks arrive; `setTip` is what the activation of a
    better chain comes down to here. -/
inductive ArrivalOp where
  | addToBlockIndex (block : CBlockHeader)
  | receivedBlockTransactions (nTx : Nat) (pindex : Uint256)
  | setTip (chain : List Uint256)

namespace ArrivalOp

def apply (s : ChainState) : ArrivalOp → Option ChainState
  | .addToBlockIndex block => (s.addToBlockIndex block).map Prod.snd
  | .receivedBlockTransactions nTx pindex => s.receivedBlockTransactions nTx pindex
  | .setTip chain => pruneBlockIndexCandidates { s with chainActive := chain }

def run (s : ChainState) (ops : List ArrivalOp) : Option ChainState := ops.foldlM apply s

/-- What the callers have checked: the proof of work of a header, and that its parent
    is known unless it is the genesis block; that a block has data for the first time,
    and not more transactions than `CheckBlock` admits; that a new tip is linked and not
    worse than the old one. -/
def Legal (checkProofOfWork : Uint256 → Nat → Bool) (s : ChainState) : ArrivalOp → Prop
  | .addToBlockIndex block => block.hash ≠ 0 ∧ checkProofOfWork block.hash block.nBits = true ∧
      (block.hashPrevBlock = 0 ∨ block.hashPrevBlock ∈ s.mapBlockIndex)
  | .receivedBlockTransactions nTx pindex => 0 < nTx ∧
      nTx * WITNESS_SCALE_FACTOR ≤ MAX_BLOCK_WEIGHT ∧
      ∃ e, s.mapBlockIndex.lookup pindex = some e ∧ e.nStatus.haveData = false
  | .setTip chain => ∃ t e, chain.getLast? = some t ∧ s.mapBlockIndex.lookup t = some e ∧
      e.nChainTx ≠ 0 ∧ s.isWorseThanTip e = false

/-- With the data that comes no chain has 2^32 transactions. -/
def Fits (s : ChainState) : ArrivalOp → Prop
  | .receivedBlockTransactions nTx pindex => ∀ e, s.mapBlockIndex.lookup pindex = some e →
      CountsFit (s.mapBlockIndex.insert pindex (receivedEntry nTx e))
  | _ => True

/-- `P` holds of each operation of the run, in the state it meets. -/
def Always (P : ChainState → ArrivalOp → Prop) : ChainState → List ArrivalOp → Prop
  | _, [] => True
  | s, op :: ops => P s op ∧ ∀ s', op.apply s = some s' → Always P s' ops

/-- The blocks that are in the index can be read back. -/
structure Readable (checkProofOfWork : Uint256 → Nat → Bool) (s : ChainState) : Prop where
  arrived : Arrived s
  notNull : ∀ k ∈ s.mapBlockIndex, k ≠ 0
  pow : ∀ k e, s.mapBlockIndex.lookup k = some e → checkProofOfWork k e.nBits = true

variable {checkProofOfWork : Uint256 → Nat → Bool} {s : ChainState}

theorem step (hs : Readable checkProofOfWork s) {op : ArrivalOp}
    (hlegal : Legal checkProofOfWork s op) (hfits : Fits s op) :
    ∃ s', op.apply s = some s' ∧ Readable checkProofOfWork s' := by
  cases op with
  | addToBlockIndex block =>
    by_cases hmem : block.hash ∈ s.mapBlockIndex
    · refine ⟨s, ?_, hs⟩
      rw [apply, ChainState.addToBlockIndex, if_pos hmem]
      rfl
    · obtain ⟨e, hadd, hbits, -, -, hs'⟩ := addToBlockIndex_arrived hs.arrived hmem
      obtain ⟨hne, hpow, -⟩ := hlegal
      refine ⟨_, by rw [apply, hadd]; rfl, hs', fun k hk => ?_, fun k e' he' => ?_⟩
      · rcases (mem_insert _).mp hk with rfl | hk
        · exact hne
        · exact hs.notNull k hk
      · rw [Maps.lookup_insert] at he'
        split at he'
        next heq =>
          rw [heq, ← some.inj he', hbits]
          exact hpow
        next => exact hs.pow k e' he'
  | receivedBlockTransactions nTx pindex =>
    obtain ⟨hpos, hweight, e, he, hno⟩ := hlegal
    have hmod : nTx % 2 ^ 32 ≠ 0 := by
      have hlt : nTx < 2 ^ 32 := by
        unfold WITNESS_SCALE_FACTOR MAX_BLOCK_WEIGHT at hweight
        omega
      omega
    obtain ⟨s', hres, hs', -, hfields⟩ :=
      receivedBlockTransactions_arrived hs.arrived he hno hmod (hfits e he)
    -- linking the block changes counts only: the header fields are as they came
    have hback : ∀ k e', s'.mapBlockIndex.lookup k = some e' →
        ∃ e, s.mapBlockIndex.lookup k = some e ∧ headerFields e = headerFields e' := by
      intro k e' he'
      have hk := hfields k
      rw [he', map_some] at hk
      exact map_eq_some_iff.mp hk.symm
    refine ⟨s', hres, hs', fun k hk => ?_, fun k e' he' => ?_⟩
    · obtain ⟨e', he'⟩ := isSome_iff_exists.mp (lookup_isSome.mpr hk)
      obtain ⟨e, he, -⟩ := hback k e' he'
      exact hs.notNull k (lookup_isSome.mp (by rw [he]; rfl))
    · obtain ⟨e, he, heq⟩ := hback k e' he'
      have hbits : e.nBits = e'.nBits := congrArg (fun t => t.2.2.2.2.1) heq
      rw [← hbits]
      exact hs.pow k e he
  | setTip chain =>
    obtain ⟨t, e, ht, he, hlinked, hbetter⟩ := hlegal
    obtain ⟨s', hres, hs', hmap⟩ :=
      setTip_arrived hs.arrived ht he hlinked hbetter
    refine ⟨s', hres, hs', ?_, ?_⟩
    · rw [hmap]
      exact hs.notNull
    · rw [hmap]
      exact hs.pow

theorem run_readable (hs : Readable checkProofOfWork s) {ops : List ArrivalOp}
    (hlegal : Always (Legal checkProofOfWork) s ops) (hfits : Always Fits s ops) :
    ∃ s', run s ops = some s' ∧ Readable checkProofOfWork s' := by
  induction ops generalizing s with
  | nil => exact ⟨s, rfl, hs⟩
  | cons op ops ih =>
    obtain ⟨s1, hstep, hs1⟩ := step hs hlegal.1 hfits.1
    obtain ⟨s', hrun, hs'⟩ := ih hs1 (hlegal.2 s1 hstep) (hfits.2 s1 hstep)
    refine ⟨s', ?_, hs'⟩
    rw [run, foldlM_cons, hstep]
    exact hrun

theorem run_append (s : ChainState) (ops ops' : List ArrivalOp) :
    run s (ops ++ ops') = (run s ops).bind fun s' => run s' ops' := foldlM_append

theorem Always.append {P : ChainState → ArrivalOp → Prop} {ops ops' : List ArrivalOp}
    (h : Always P s ops) (h' : ∀ s', run s ops = some s' → Always P s' ops') :
    Always P s (ops ++ ops') := by
  induction ops generalizing s with
  | nil => exact h' s rfl
  | cons op ops ih =>
    refine ⟨h.1, fun s1 hs1 => ih (h.2 s1 hs1) fun s' hs' => h' s' ?_⟩
    rw [run, foldlM_cons, hs1]
    exact hs'

theorem readable_empty (checkProofOfWork : Uint256 → Nat → Bool) :
    Readable checkProofOfWork {} where
  arrived := by
    refine ⟨TreeOk.empty, fun k e he => (nomatch he), fun k e he => (nomatch he), fun k => ?_,
      ?_, fun t ht => (nomatch ht), fun x hx => absurd hx (SortedSet.not_mem_empty x),
      fun x e he => (nomatch he)⟩
    · exact Nat.two_pow_pos 32
    · exact ⟨fun k hk => absurd rfl hk, fun k hk => (nomatch hk), fun p k hk => (nomatch hk),
        fun k hk => absurd rfl hk, nodup_nil, nodup_nil⟩
  notNull k hk := absurd hk (notMem_empty k)
  pow k e he := nomatch he

end ArrivalOp

end Rcoin
