/-
  The block tree of a node and the active chain in it: what an arriving header, the
  data of a block and a verdict on a block do to them.

  Source: CChainState in src/validation.cpp, CChain in src/chain.h.  Pointers
  compare as the hashes of their blocks.  As a result `none` stands for the use of
  a null pointer or a failed `assert`.
-/
import Rcoin.Chain.BlockIndex
import Rcoin.Lib.SortedSet

namespace Rcoin

open List Option

/-! ## Entries and their order -/

def BlockStatus.setFailedValid (s : BlockStatus) : BlockStatus := { s with failedValid := true }

def BlockStatus.setFailedChild (s : BlockStatus) : BlockStatus := { s with failedChild := true }

/-- `nStatus &= ~BLOCK_FAILED_MASK`. -/
def BlockStatus.clearFailed (s : BlockStatus) : BlockStatus :=
  { s with failedValid := false, failedChild := false }

namespace CBlockIndexEntry

def setFailedValid (e : CBlockIndexEntry) : CBlockIndexEntry :=
  { e with nStatus := e.nStatus.setFailedValid }

def setFailedChild (e : CBlockIndexEntry) : CBlockIndexEntry :=
  { e with nStatus := e.nStatus.setFailedChild }

def clearFailed (e : CBlockIndexEntry) : CBlockIndexEntry :=
  { e with nStatus := e.nStatus.clearFailed }

/-- `CBlockIndexWorkComparator`. -/
def workComparator (pa pb : CBlockIndexEntry) : Bool :=
  -- First sort by most total work, ...
  if pa.nChainWork > pb.nChainWork then false
  else if pa.nChainWork < pb.nChainWork then true
  -- ... then by earliest time received, ...
  else if pa.nSequenceId < pb.nSequenceId then false
  else if pa.nSequenceId > pb.nSequenceId then true
  -- ... and at last by address.
  else decide (pa.hash > pb.hash)

end CBlockIndexEntry

/-- `arith_uint256::SetCompact`: the value, whether it is negative, and whether it
    overflows. -/
def setCompact (nCompact : Nat) : Nat × Bool × Bool :=
  let nSize := nCompact >>> 24
  let nWord := nCompact &&& 0x007fffff
  let shifted := if nSize ≤ 3 then nWord >>> (8 * (3 - nSize)) else nWord
  let value := if nSize ≤ 3 then shifted else nWord <<< (8 * (nSize - 3)) % 2 ^ 256
  (value, decide (shifted ≠ 0) && decide (nCompact &&& 0x00800000 ≠ 0),
    decide (shifted ≠ 0) && (decide (nSize > 34) || (decide (shifted > 0xff) && decide (nSize > 33)) ||
      (decide (shifted > 0xffff) && decide (nSize > 32))))

def getBlockProof (nBits : Nat) : Nat :=
  let compact := setCompact nBits
  let bnTarget := compact.1
  if compact.2.1 ∨ compact.2.2 ∨ bnTarget = 0 then 0
  else ((2 ^ 256 - 1 - bnTarget) / (bnTarget + 1) + 1) % 2 ^ 256

namespace BlockMap

/-- Writing to the entry a pointer refers to. -/
def update (m : BlockMap) (k : Uint256) (f : CBlockIndexEntry → CBlockIndexEntry) : BlockMap :=
  match m.lookup k with
  | some e => m.insert k (f e)
  | none => m

def updateAll (m : BlockMap) (l : List Uint256) (f : CBlockIndexEntry → CBlockIndexEntry) :
    BlockMap := l.foldl (fun m k => m.update k f) m

/-- The blocks a walk from `walk` along `pprev` passes until it is at `stop`. -/
def pathUntil (m : BlockMap) (stop : Option Uint256) : Nat → Option Uint256 → Option (List Uint256)
  | 0, walk => if walk = stop then some [] else none
  | fuel + 1, walk =>
    if walk = stop then some []
    else do
      let pindex ← walk
      let e ← m.lookup pindex
      let rest ← pathUntil m stop fuel e.pprev
      some (pindex :: rest)

end BlockMap

/-! ## The state -/

/-- The members of `CChainState` and the globals beside it. -/
structure ChainState where
  mapBlockIndex : BlockMap := ∅
  /-- `chainActive.vChain`. -/
  chainActive : List Uint256 := []
  setBlockIndexCandidates : SortedSet Uint256 := ∅
  /-- A multimap, in the order of insertion. -/
  mapBlocksUnlinked : List (Uint256 × Uint256) := []
  g_failed_blocks : SortedSet Uint256 := ∅
  nBlockSequenceId : Int := 1
  nBlockReverseSequenceId : Int := -1
  nLastPreciousChainwork : Nat := 0

namespace ChainState

def tip (s : ChainState) : Option Uint256 := s.chainActive.getLast?

/-- `chainActive.Contains`. -/
def contains (s : ChainState) (pindex : Uint256) : Bool :=
  s.chainActive[s.mapBlockIndex.nHeight pindex]? == some pindex

/-! ## Verdicts on blocks -/

def invalidBlockFound (s : ChainState) (pindex : Uint256) (corruptionPossible : Bool) :
    ChainState :=
  if corruptionPossible then s
  else
    { s with
      mapBlockIndex := s.mapBlockIndex.update pindex (·.setFailedValid)
      g_failed_blocks := s.g_failed_blocks.insert pindex
      setBlockIndexCandidates := s.setBlockIndexCandidates.erase pindex }

/-- `DisconnectTip`, and whether it succeeded.  It fails at blocks that cannot be read
    or undone, which `fails` tells, and at the genesis block, which has no undo
    data. -/
def disconnectTip (s : ChainState) (fails : Uint256 → Bool) : Option (Bool × ChainState) := do
  let pindexDelete ← s.tip
  let e ← s.mapBlockIndex.lookup pindexDelete
  if fails pindexDelete || e.pprev.isNone then some (false, s)
  else some (true, { s with chainActive := s.chainActive.dropLast })

/-- The first loop of `InvalidateBlock`. -/
def disconnectWhile (pindex : Uint256) (fails : Uint256 → Bool) :
    Nat → ChainState → Option (Bool × ChainState)
  | 0, s => if s.contains pindex then none else some (true, s)
  | fuel + 1, s =>
    if s.contains pindex then do
      let (ok, s) ← s.disconnectTip fails
      if ok then disconnectWhile pindex fails fuel s else some (false, s)
    else some (true, s)

/-- A round of the loop that puts blocks back into the candidates. -/
def addCandidate (s : ChainState) (k : Uint256) : Option ChainState := do
  let e ← s.mapBlockIndex.lookup k
  if e.isValid BLOCK_VALID_TRANSACTIONS && decide (e.nChainTx ≠ 0) then
    let tip ← s.tip
    let tipEntry ← s.mapBlockIndex.lookup tip
    if e.workComparator tipEntry then some s
    else some { s with setBlockIndexCandidates := s.setBlockIndexCandidates.insert k }
  else some s

/-- `InvalidateBlock`, and whether it succeeded. -/
def invalidateBlock (s : ChainState) (pindex : Uint256) (fails : Uint256 → Bool) :
    Option (Bool × ChainState) := do
  let pindexWasInChain := s.contains pindex
  let invalidWalkTip := s.tip
  let (ok, s) ← disconnectWhile pindex fails s.chainActive.length s
  if !ok then some (false, s)
  else
    -- Mark the blocks we just disconnected as descendants invalid.
    let path ← (if pindexWasInChain then
      s.mapBlockIndex.pathUntil (some pindex) (invalidWalkTip.elim 0 s.mapBlockIndex.nHeight + 1)
        invalidWalkTip
      else some [])
    let s : ChainState :=
      { s with
        mapBlockIndex := s.mapBlockIndex.updateAll path (·.setFailedChild)
        setBlockIndexCandidates := path.foldl SortedSet.erase s.setBlockIndexCandidates }
    -- Mark the block itself as invalid.
    let s : ChainState :=
      { s with
        mapBlockIndex := s.mapBlockIndex.update pindex (·.setFailedValid)
        setBlockIndexCandidates := s.setBlockIndexCandidates.erase pindex
        g_failed_blocks := s.g_failed_blocks.insert pindex }
    let s ← s.mapBlockIndex.keys.foldlM addCandidate s
    some (true, s)

/-- A round of the first loop of `ResetBlockFailureFlags`. -/
def resetBlock (pindex : Uint256) (nHeight : Nat) (s : ChainState) (k : Uint256) :
    Option ChainState := do
  let e ← s.mapBlockIndex.lookup k
  if e.isValid BLOCK_VALID_TRANSACTIONS then some s
  else
    let ancestor ← s.mapBlockIndex.getAncestor k nHeight
    if ancestor ≠ some pindex then some s
    else
      let e := e.clearFailed
      let s : ChainState :=
        { s with
          mapBlockIndex := s.mapBlockIndex.insert k e
          g_failed_blocks := s.g_failed_blocks.erase k }
      if e.isValid BLOCK_VALID_TRANSACTIONS && decide (e.nChainTx ≠ 0) then
        let tip ← s.tip
        let tipEntry ← s.mapBlockIndex.lookup tip
        if tipEntry.workComparator e then
          some { s with setBlockIndexCandidates := s.setBlockIndexCandidates.insert k }
        else some s
      else some s

def resetBlockFailureFlags (s : ChainState) (pindex : Uint256) : Option ChainState := do
  let e ← s.mapBlockIndex.lookup pindex
  let s ← s.mapBlockIndex.keys.foldlM (resetBlock pindex e.nHeight) s
  -- Remove the invalidity flag from all ancestors too.
  let path ← s.mapBlockIndex.pathUntil none (e.nHeight + 1) (some pindex)
  some { s with mapBlockIndex := s.mapBlockIndex.updateAll path (·.clearFailed) }

/-! ## Headers -/

/-- The entry of a new block.  A header does not contain its own hash, so that its parent
    is looked for among the other blocks. -/
def newEntry (m : BlockMap) (block : CBlockHeader) : Option CBlockIndexEntry :=
  let e : CBlockIndexEntry :=
    { hash := block.hash, nHeight := 0, pprev := none, nVersion := block.nVersion,
      nTime := block.nTime, nBits := block.nBits, nTimeMax := block.nTime,
      nChainWork := getBlockProof block.nBits }
  match m.lookup block.hashPrevBlock with
  | none => some (e.raiseValidity BLOCK_VALID_TREE)
  | some prev => do
    let nHeight := prev.nHeight + 1
    let pskip ← m.getAncestor block.hashPrevBlock (getSkipHeight nHeight)
    let e : CBlockIndexEntry :=
      { e with
        pprev := some block.hashPrevBlock
        nHeight := nHeight
        pskip := pskip
        nTimeMax := max prev.nTimeMax block.nTime
        nChainWork := (prev.nChainWork + getBlockProof block.nBits) % 2 ^ 256 }
    some (e.raiseValidity BLOCK_VALID_TREE)

def addToBlockIndex (s : ChainState) (block : CBlockHeader) : Option (Uint256 × ChainState) :=
  if block.hash ∈ s.mapBlockIndex then some (block.hash, s)
  else do
    let e ← newEntry s.mapBlockIndex block
    some (block.hash, { s with mapBlockIndex := s.mapBlockIndex.insert block.hash e })

/-- What `AcceptBlockHeader` asks about a header: `CheckBlockHeader`, and
    `ContextualCheckBlockHeader` under its parent. -/
structure HeaderEnv where
  hashGenesisBlock : Uint256
  checkBlockHeader : CBlockHeader → Bool
  contextualCheckBlockHeader : CBlockHeader → Uint256 → Bool

/-- The loop over `g_failed_blocks`: the first one that `pindexPrev` descends from. -/
def findFailedAncestor (m : BlockMap) (pindexPrev : Uint256) :
    List Uint256 → Option (Option Uint256)
  | [] => some none
  | failedit :: rest => do
    let e ← m.lookup failedit
    let ancestor ← m.getAncestor pindexPrev e.nHeight
    if ancestor = some failedit then
      -- the `assert`
      if e.nStatus.failedValid then some (some failedit) else none
    else findFailedAncestor m pindexPrev rest

/-- `AcceptBlockHeader`: the block or the reject reason, and the state. -/
def acceptBlockHeader (env : HeaderEnv) (s : ChainState) (block : CBlockHeader) :
    Option (Except String Uint256 × ChainState) :=
  let accept : Option (Except String Uint256 × ChainState) := do
    let (pindex, s) ← s.addToBlockIndex block
    some (.ok pindex, s)
  if block.hash = env.hashGenesisBlock then accept
  else
    match s.mapBlockIndex.lookup block.hash with
    | some e => if e.nStatus.failed then some (.error "duplicate", s) else some (.ok block.hash, s)
    | none =>
      if !env.checkBlockHeader block then some (.error "", s)
      else
        match s.mapBlockIndex.lookup block.hashPrevBlock with
        | none => some (.error "prev-blk-not-found", s)
        | some prev =>
          if prev.nStatus.failed then some (.error "bad-prevblk", s)
          else if !env.contextualCheckBlockHeader block block.hashPrevBlock then some (.error "", s)
          else if prev.isValid BLOCK_VALID_SCRIPTS then accept
          else do
            let failed ← findFailedAncestor s.mapBlockIndex block.hashPrevBlock
              s.g_failed_blocks.elems
            match failed with
            | none => accept
            | some failedit =>
              let path ← s.mapBlockIndex.pathUntil (some failedit) (prev.nHeight + 1)
                (some block.hashPrevBlock)
              some (.error "bad-prevblk",
                { s with mapBlockIndex := s.mapBlockIndex.updateAll path (·.setFailedChild) })

end ChainState

/-! ## Writing to entries leaves the tree as it is -/

namespace BlockMap

variable {m m' m'' : BlockMap} {k a : Uint256} {l : List Uint256}
  {f : CBlockIndexEntry → CBlockIndexEntry}

theorem lookup_update (k' : Uint256) :
    (m.update k f).lookup k' = if k' = k then (m.lookup k).map f else m.lookup k' := by
  rw [update]
  cases hl : m.lookup k with
  | none =>
    by_cases heq : k' = k
    · rw [if_pos heq, heq]
      exact hl
    · rw [if_neg heq]
  | some e =>
    rw [Maps.lookup_insert, map_some]

theorem lookup_updateAll (hf : ∀ e, f (f e) = f e) (k : Uint256) :
    (m.updateAll l f).lookup k = if k ∈ l then (m.lookup k).map f else m.lookup k := by
  induction l generalizing m with
  | nil => rw [if_neg not_mem_nil, updateAll, foldl_nil]
  | cons a l ih =>
    show ((m.update a f).updateAll l f).lookup k = _
    rw [ih, lookup_update]
    by_cases hka : k = a
    · subst hka
      rw [if_pos rfl, if_pos mem_cons_self, Option.map_map]
      have hff : f ∘ f = f := funext hf
      rw [hff, ite_self]
    · rw [if_neg hka]
      simp only [mem_cons, hka, false_or]

/-- Two states of the index with the same blocks under the same parents. -/
def SameBlocks (m m' : BlockMap) : Prop :=
  ∀ k, (m.lookup k).map (·.toCBlockIndex) = (m'.lookup k).map (·.toCBlockIndex)

theorem SameBlocks.symm (h : SameBlocks m m') : SameBlocks m' m := fun k => (h k).symm

variable {e : CBlockIndexEntry}

variable (h : SameBlocks m m')

include h

theorem SameBlocks.exists_entry (he : m.lookup k = some e) :
    ∃ e', m'.lookup k = some e' ∧ e'.toCBlockIndex = e.toCBlockIndex := by
  have hk := h k
  rw [he, map_some] at hk
  exact map_eq_some_iff.mp hk.symm

theorem SameBlocks.mem_iff : k ∈ m ↔ k ∈ m' := by
  rw [← AList.lookup_isSome, ← AList.lookup_isSome]
  have hk := congrArg Option.isSome (h k)
  rw [isSome_map, isSome_map] at hk
  rw [hk]

theorem SameBlocks.pprev_eq (k : Uint256) : m.pprev k = m'.pprev k := by
  have hk := congrArg (Option.bind · fun t => t.pprev) (h k)
  rwa [bind_map, bind_map] at hk

theorem SameBlocks.nHeight_eq (k : Uint256) : m.nHeight k = m'.nHeight k := by
  have hk := congrArg (Option.elim · 0 fun t => t.nHeight) (h k)
  rwa [elim_map, elim_map] at hk

theorem SameBlocks.treeOk (hm : m.TreeOk) : m'.TreeOk where
  hash k e he := by
    obtain ⟨e', he', htree⟩ := h.symm.exists_entry he
    rw [← congrArg CBlockIndex.hash htree]
    exact hm.hash k e' he'
  parent k e p he hp := by
    obtain ⟨e', he', htree⟩ := h.symm.exists_entry he
    obtain ⟨q, hq, hh⟩ := hm.parent k e' p he' ((congrArg CBlockIndex.pprev htree).trans hp)
    obtain ⟨q', hq', htree'⟩ := h.exists_entry hq
    refine ⟨q', hq', ?_⟩
    rw [← congrArg CBlockIndex.nHeight htree, hh, congrArg CBlockIndex.nHeight htree']
  root k e he hp := by
    obtain ⟨e', he', htree⟩ := h.symm.exists_entry he
    rw [← congrArg CBlockIndex.nHeight htree]
    exact hm.root k e' he' ((congrArg CBlockIndex.pprev htree).trans hp)

theorem SameBlocks.forest_eq (hm : m.TreeOk) (hm' : m'.TreeOk) : hm'.forest = hm.forest := by
  have hparent : m'.pprev = m.pprev := funext fun k => (h.pprev_eq k).symm
  have hheight : m'.nHeight = m.nHeight := funext fun k => (h.nHeight_eq k).symm
  simp only [TreeOk.forest, hparent, hheight]

omit h

/-- Two states of the index with the same blocks at the same places. -/
def SameTree (m m' : BlockMap) : Prop :=
  ∀ k, (m.lookup k).map (fun e => (e.toCBlockIndex, e.pskip)) =
    (m'.lookup k).map fun e => (e.toCBlockIndex, e.pskip)

theorem SameTree.refl (m : BlockMap) : SameTree m m := fun _ => rfl

theorem SameTree.trans (h : SameTree m m') (h' : SameTree m' m'') : SameTree m m'' :=
  fun k => (h k).trans (h' k)

theorem SameTree.symm (h : SameTree m m') : SameTree m' m := fun k => (h k).symm

theorem SameTree.sameBlocks (h : SameTree m m') : SameBlocks m m' := by
  intro k
  have hk := congrArg (Option.map Prod.fst) (h k)
  rwa [Option.map_map, Option.map_map] at hk

theorem sameTree_insert {e' : CBlockIndexEntry} (he : m.lookup k = some e)
    (htree : e'.toCBlockIndex = e.toCBlockIndex) (hskip : e'.pskip = e.pskip) :
    SameTree m (m.insert k e') := by
  intro k'
  rw [Maps.lookup_insert]
  split
  next heq => rw [heq, he, map_some, map_some, htree, hskip]
  next => rfl

theorem SameTree.exists_entry (h : SameTree m m') (he : m.lookup k = some e)
    : ∃ e', m'.lookup k = some e' ∧
      e'.toCBlockIndex = e.toCBlockIndex ∧ e'.pskip = e.pskip := by
  have hk := h k
  rw [he, map_some] at hk
  obtain ⟨e', he', heq⟩ := map_eq_some_iff.mp hk.symm
  exact ⟨e', he', congrArg Prod.fst heq, congrArg Prod.snd heq⟩

theorem SameTree.mem_iff (h : SameTree m m') : k ∈ m ↔ k ∈ m' := h.sameBlocks.mem_iff

theorem SameTree.pprev_eq (h : SameTree m m') (k : Uint256) : m.pprev k = m'.pprev k :=
  h.sameBlocks.pprev_eq k

theorem SameTree.nHeight_eq (h : SameTree m m') (k : Uint256) : m.nHeight k = m'.nHeight k :=
  h.sameBlocks.nHeight_eq k

theorem SameTree.treeOk (h : SameTree m m') (hm : m.TreeOk) : m'.TreeOk := h.sameBlocks.treeOk hm

theorem SameTree.forest_eq (h : SameTree m m') (hm : m.TreeOk) (hm' : m'.TreeOk) :
    hm'.forest = hm.forest := h.sameBlocks.forest_eq hm hm'

theorem SameTree.skipOk (h : SameTree m m') (hm : m.TreeOk) (hm' : m'.TreeOk)
    (hskip : SkipOk m hm) : SkipOk m' hm' := by
  intro k e skip he hs
  obtain ⟨e', he', htree, hskip'⟩ := h.symm.exists_entry he
  rw [h.forest_eq hm hm', ← congrArg CBlockIndex.pprev htree, ← congrArg CBlockIndex.nHeight htree]
  exact hskip k e' skip he' (hskip'.trans hs)

/-- Two states of the index that differ in `nStatus` at most. -/
def StatusOnly (m m' : BlockMap) : Prop :=
  ∀ k, (m.lookup k).map (fun e => { e with nStatus := {} }) =
    (m'.lookup k).map fun e => { e with nStatus := {} }

theorem StatusOnly.refl (m : BlockMap) : StatusOnly m m := fun _ => rfl

theorem StatusOnly.trans (h : StatusOnly m m') (h' : StatusOnly m' m'') : StatusOnly m m'' :=
  fun k => (h k).trans (h' k)

theorem statusOnly_insert (he : m.lookup k = some e) (st : BlockStatus) :
    StatusOnly m (m.insert k { e with nStatus := st }) := by
  intro k'
  rw [Maps.lookup_insert]
  split
  next heq => rw [heq, he, map_some, map_some]
  next => rfl

theorem statusOnly_update (hf : ∀ e, ∃ st, f e = { e with nStatus := st }) :
    StatusOnly m (m.update k f) := by
  rw [update]
  cases he : m.lookup k with
  | none => exact StatusOnly.refl m
  | some e =>
    obtain ⟨st, hst⟩ := hf e
    show StatusOnly m (m.insert k (f e))
    rw [hst]
    exact statusOnly_insert he st

theorem statusOnly_updateAll (hf : ∀ e, ∃ st, f e = { e with nStatus := st }) :
    StatusOnly m (m.updateAll l f) := by
  induction l generalizing m with
  | nil => exact StatusOnly.refl m
  | cons a l ih => exact (statusOnly_update hf).trans ih

theorem StatusOnly.sameTree (h : StatusOnly m m') : SameTree m m' := by
  intro k
  have hk := congrArg (Option.map fun e => (e.toCBlockIndex, e.pskip)) (h k)
  rwa [Option.map_map, Option.map_map] at hk

theorem pathUntil_spec (h : m.TreeOk) {fuel : Nat} (hk : k ∈ m) (ha : h.forest.IsAncestor a k)
    (hfuel : h.forest.height k ≤ h.forest.height a + fuel) :
    ∃ l, m.pathUntil (some a) fuel (some k) = some l ∧
      ∀ x, x ∈ l ↔ h.forest.IsAncestor x k ∧ h.forest.height a < h.forest.height x := by
  induction fuel generalizing k with
  | zero =>
    obtain rfl : a = k := ha.eq_of_height hfuel
    refine ⟨[], by rw [pathUntil, if_pos rfl], fun x => ?_⟩
    simp only [not_mem_nil, false_iff, not_and, not_lt]
    exact fun hx => hx.height_le
  | succ fuel ih =>
    rw [pathUntil]
    by_cases heq : a = k
    · subst heq
      refine ⟨[], if_pos rfl, fun x => ?_⟩
      simp only [not_mem_nil, false_iff, not_and, not_lt]
      exact fun hx => hx.height_le
    · have hne : some k ≠ some a := fun hc => heq (Option.some.inj hc).symm
      obtain ⟨e, he⟩ := isSome_iff_exists.mp (AList.lookup_isSome.mpr hk)
      have hparent : h.forest.parent k = e.pprev := pprev_of_lookup he
      cases hp : e.pprev with
      | none => exact absurd ((h.forest.isAncestor_root (hparent.trans hp)).mp ha) heq
      | some p =>
        rw [hp] at hparent
        have hph := h.forest.height_parent hparent
        have hap := (Forest.isAncestor_iff_parent hparent).mp ha |>.resolve_left heq
        obtain ⟨l, hl, hmem⟩ := ih (h.mem_of_parent hparent).2 hap (by omega)
        have hak := hap.height_le
        refine ⟨k :: l, ?_, fun x => ?_⟩
        · simp only [if_neg hne, he, hp, bind_eq_bind, bind_some, hl]
        · rw [mem_cons, hmem, Forest.isAncestor_iff_parent hparent, or_and_right]
          refine or_congr_left ?_
          constructor
          · rintro rfl
            exact ⟨rfl, by omega⟩
          · exact fun hx => hx.1

theorem pathUntil_none (h : m.TreeOk) {fuel : Nat} (hk : k ∈ m)
    (hfuel : h.forest.height k < fuel) :
    ∃ l, m.pathUntil none fuel (some k) = some l ∧ ∀ x, x ∈ l ↔ h.forest.IsAncestor x k := by
  induction fuel generalizing k with
  | zero => cases hfuel
  | succ fuel ih =>
    have hne : some k ≠ none := some_ne_none k
    obtain ⟨e, he⟩ := isSome_iff_exists.mp (AList.lookup_isSome.mpr hk)
    have hparent : h.forest.parent k = e.pprev := pprev_of_lookup he
    rw [pathUntil]
    simp only [if_neg hne, he, bind_eq_bind, bind_some]
    cases hp : e.pprev with
    | none =>
      have hnil : m.pathUntil none fuel none = some [] := by
        cases fuel <;> exact if_pos rfl
      refine ⟨[k], by rw [hnil]; rfl, fun x => ?_⟩
      rw [mem_singleton, h.forest.isAncestor_root (hparent.trans hp)]
    | some p =>
      rw [hp] at hparent
      have hph := h.forest.height_parent hparent
      obtain ⟨l, hl, hmem⟩ := ih (h.mem_of_parent hparent).2 (by omega)
      refine ⟨k :: l, by rw [hl]; rfl, fun x => ?_⟩
      rw [mem_cons, hmem, Forest.isAncestor_iff_parent hparent]

end BlockMap

end Rcoin
