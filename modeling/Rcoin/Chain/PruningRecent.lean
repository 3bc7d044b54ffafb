/-
  The blocks near the tip are in no file that is pruned: who calls `FindFilesToPrune` and
  `FindFilesToPruneManual`, and what the records of the block files say of the blocks in
  them, through all that is done with block files.

  Source: pruneblockchain in src/rpc/blockchain.cpp, CChain in src/chain.h and src/chain.cpp,
  SaveBlockToDisk and LoadBlockIndexDB in src/validation.cpp.  The files themselves are lists
  of heights.
-/
import Rcoin.Chain.Pruning

namespace Rcoin

open List Option

/-! ## The callers -/

/-- `CChain`: `SetTip` puts every block at its height. -/
structure VChain where
  vChain : List CBlockIndex
  height_eq : ∀ (i : Nat) (b : CBlockIndex), vChain[i]? = some b → b.nHeight = i

namespace VChain

def tip (c : VChain) : Option CBlockIndex := c.vChain.getLast?

/-- `Height`, -1 for an empty chain. -/
def height (c : VChain) : Int := (c.vChain.length : Int) - 1

/-- `FindEarliestAtLeast`; `blockTimeMax`, the maximum of the times up to a block, never goes
    down along the chain. -/
def findEarliestAtLeast (c : VChain) (blockTimeMax : CBlockIndex → Int) (nTime : Int) :
    Option CBlockIndex :=
  c.vChain.find? fun pBlock => !decide (blockTimeMax pBlock < nTime)

theorem height_tip (c : VChain) {tip : CBlockIndex} (htip : c.tip = some tip) :
    c.height = tip.nHeight := by
  rw [VChain.tip, getLast?_eq_getElem?] at htip
  have hlen := (List.getElem?_eq_some_iff.mp htip).1
  rw [height, c.height_eq _ _ htip]
  omega

end VChain

structure JSONRPCError where
  code : Int
  message : String
  deriving DecidableEq, Repr

def RPC_MISC_ERROR : Int := -1

def RPC_INVALID_PARAMETER : Int := -8

def TIMESTAMP_WINDOW : Int := 2 * 60 * 60

/-- "Height value more than a billion is too high to be a block height, and too low to be a
    block time (corresponds to timestamp from Sep 2001)." -/
def heightOfParam (c : VChain) (blockTimeMax : CBlockIndex → Int) (heightParam : Int) :
    Except JSONRPCError Int :=
  if heightParam > 1000000000 then
    match c.findEarliestAtLeast blockTimeMax (heightParam - TIMESTAMP_WINDOW) with
    | none => .error ⟨RPC_INVALID_PARAMETER,
        "Could not find block with at least the specified timestamp."⟩
    | some pindex => .ok pindex.nHeight
  else .ok heightParam

/-- The conversion of an `int` to `unsigned int`. -/
def toUnsigned (x : Int) : Nat := (x % 2 ^ 32).toNat

/-- `pruneblockchain` up to the call of `PruneBlockFilesManual`: the height it is called with. -/
def pruneblockchain (network : Network) (fPruneMode : Bool) (c : VChain)
    (blockTimeMax : CBlockIndex → Int) (heightParam : Int) : Except JSONRPCError Nat :=
  if !fPruneMode then
    .error ⟨RPC_MISC_ERROR, "Cannot prune blocks because node is not in prune mode."⟩
  else if heightParam < 0 then .error ⟨RPC_INVALID_PARAMETER, "Negative block height."⟩
  else do
    let heightParam ← heightOfParam c blockTimeMax heightParam
    let height := toUnsigned heightParam
    let chainHeight := toUnsigned c.height
    if chainHeight < network.nPruneAfterHeight then
      .error ⟨RPC_MISC_ERROR, "Blockchain is too short for pruning."⟩
    else if height > chainHeight then
      .error ⟨RPC_INVALID_PARAMETER, "Blockchain is shorter than the attempted prune height."⟩
    else if height > subUnsigned chainHeight MIN_BLOCKS_TO_KEEP then
      .ok (subUnsigned chainHeight MIN_BLOCKS_TO_KEEP)
    else .ok height

/-! ## The last block that can be pruned -/

theorem Network.nPruneAfterHeight_ge (network : Network) :
    1000 ≤ network.nPruneAfterHeight := by
  cases network <;> decide

variable {tip : CBlockIndex}

theorem belowTip_add_le (h : MIN_BLOCKS_TO_KEEP ≤ tip.nHeight) :
    belowTip tip + MIN_BLOCKS_TO_KEEP ≤ tip.nHeight := by
  simp only [belowTip, subUnsigned, MIN_BLOCKS_TO_KEEP] at h ⊢
  omega

theorem pruneblockchain_long {network : Network} {fPruneMode : Bool} {c : VChain}
    {blockTimeMax : CBlockIndex → Int} {heightParam : Int} {nManualPruneHeight : Nat}
    (h : pruneblockchain network fPruneMode c blockTimeMax heightParam = .ok nManualPruneHeight)
    (htip : c.tip = some tip) : MIN_BLOCKS_TO_KEEP ≤ tip.nHeight := by
  rw [pruneblockchain] at h
  split at h
  · nomatch h
  split at h
  · nomatch h
  obtain ⟨height, -, h⟩ := Fallible.bind_eq_ok.mp h
  simp only at h
  split at h
  · nomatch h
  next hlong =>
    have hmin := network.nPruneAfterHeight_ge
    have hheight := c.height_tip htip
    rw [toUnsigned, hheight] at hlong
    simp only [MIN_BLOCKS_TO_KEEP]
    omega

/-! ## What the files hold -/

/-- The block files with the blocks in them, and what the block index database has of both. -/
structure BlockStore where
  files : BlockFiles := {}
  /-- The heights of the blocks in a file, the last one first. -/
  holds : Nat → List Nat := fun _ => []
  disk : NodeDisk := .empty
  /-- The heights of the blocks that the database knows in a file. -/
  recorded : Nat → List Nat := fun _ => []

/-- What happens to the files while blocks arrive. -/
inductive StoreEvent where
  /-- `WriteBlockToDisk` may fail after the block was counted. -/
  | saveBlockToDisk (fPruneMode diskSpace written : Bool) (known : Option CDiskBlockPos)
      (nAddSize nHeight nTime : Nat)
  | findUndoPos (fPruneMode diskSpace : Bool) (nFile nAddSize : Nat)
  | findFilesToPrune (tip : Option CBlockIndex) (nPruneTarget nPruneAfterHeight : Nat)
      (index : FileIndex)
  | findFilesToPruneManual (tip : Option CBlockIndex) (nManualPruneHeight : Nat)
      (index : FileIndex)
  | writeBatchSync
  | restart

namespace BlockStore

/-- `SaveBlockToDisk`; a block with a known position is on disk already. -/
def saveBlockToDisk (s : BlockStore) (fPruneMode diskSpace written : Bool)
    (known : Option CDiskBlockPos) (nAddSize nHeight nTime : Nat) : Option BlockStore := do
  let (found, pos, files) ←
    s.files.findBlockPos fPruneMode diskSpace known nAddSize nHeight nTime
  if found && (known.isSome || written) then
    some { s with
      files := files
      holds := Function.update s.holds pos.nFile (nHeight :: s.holds pos.nFile) }
  else some { s with files := files }

/-- Files are pruned, and unlinked with all that is in them. -/
def prune (s : BlockStore) (pruned : BlockFiles × FileIndex × List Nat) : BlockStore :=
  { s with
    files := pruned.1
    holds := fun nFile => if nFile ∈ pruned.2.2 then [] else s.holds nFile }

/-- The block index database is written, with the records of the dirty files. -/
def writeBatchSync (s : BlockStore) : BlockStore :=
  { s with
    files := { s.files with setDirtyFileInfo := [] }
    disk := s.disk.apply (.writeBatchSync
      (s.files.setDirtyFileInfo.map fun nFile => (nFile, s.files.info nFile))
      s.files.nLastBlockFile fun _ => none)
    recorded := s.holds }

/-- The records are read again.  A file past them counts as empty, and is written from its
    start. -/
def restart (s : BlockStore) : BlockStore :=
  { s with
    files := s.disk.loadBlockFiles
    holds := fun nFile =>
      if nFile < s.disk.loadBlockFiles.vinfoBlockFile.length then s.recorded nFile else [] }

def step (s : BlockStore) : StoreEvent → Option BlockStore
  | .saveBlockToDisk fPruneMode diskSpace written known nAddSize nHeight nTime =>
    s.saveBlockToDisk fPruneMode diskSpace written known nAddSize nHeight nTime
  | .findUndoPos fPruneMode diskSpace nFile nAddSize =>
    some { s with files := (s.files.findUndoPos fPruneMode diskSpace nFile nAddSize).2.2 }
  | .findFilesToPrune tip nPruneTarget nPruneAfterHeight index =>
    some (s.prune (findFilesToPrune tip nPruneTarget nPruneAfterHeight s.files index))
  | .findFilesToPruneManual tip nManualPruneHeight index =>
    some (s.prune (findFilesToPruneManual tip nManualPruneHeight s.files index))
  | .writeBatchSync => some s.writeBatchSync
  | .restart => some s.restart

def run : BlockStore → List StoreEvent → Option BlockStore
  | s, [] => some s
  | s, event :: events => (s.step event).bind (run · events)

end BlockStore

open BlockStore

/-! ## Heights are counted -/

/-- The greatest height of a file covers its blocks, in memory and, if the file is not dirty,
    in the database as well. -/
structure BlockStore.Counted (s : BlockStore) : Prop where
  covered : ∀ n, ∀ h ∈ s.holds n, h ≤ (s.files.info n).nHeightLast
  recorded : ∀ n, ∀ h ∈ s.recorded n, h ≤ (s.disk.info n).nHeightLast
  clean : ∀ n ∉ s.files.setDirtyFileInfo, ∀ h ∈ s.holds n, h ≤ (s.disk.info n).nHeightLast

/-- What allocations leave of the records, wherever they are made. -/
structure BlockFiles.HeightsGrow (files files' : BlockFiles) : Prop where
  nHeightLast : ∀ n, (files.info n).nHeightLast ≤ (files'.info n).nHeightLast
  dirty : ∀ n ∈ files.setDirtyFileInfo, n ∈ files'.setDirtyFileInfo

theorem BlockFiles.Grows.heights {files files' : BlockFiles} (h : files.Grows files') :
    files.HeightsGrow files' := ⟨h.nHeightLast, h.dirty⟩

namespace BlockFiles

variable {files files' : BlockFiles} {fPruneMode diskSpace found : Bool}
  {known : Option CDiskBlockPos} {nAddSize nHeight nTime : Nat} {pos : CDiskBlockPos}

theorem chargeBlock_heights (files : BlockFiles) (nFile nHeight nTime : Nat) (nSize : Nat → Nat) :
    files.HeightsGrow ((files.resize nFile).chargeBlock nFile nHeight nTime nSize) ∧
      nHeight ≤ (((files.resize nFile).chargeBlock nFile nHeight nTime nSize).info
        nFile).nHeightLast := by
  refine ⟨⟨fun m => ?_, fun _ hm => hm⟩, ?_⟩
  · rw [nHeightLast_chargeBlock]
    split <;> omega
  · rw [nHeightLast_chargeBlock, if_pos rfl]
    omega

theorem findBlockPos_heights
    (h : files.findBlockPos fPruneMode diskSpace known nAddSize nHeight nTime =
      some (found, pos, files')) :
    files.HeightsGrow files' ∧ nHeight ≤ (files'.info pos.nFile).nHeightLast ∧
      (found = true → pos.nFile ∈ files'.setDirtyFileInfo) := by
  cases known with
  | none =>
    obtain ⟨hgrows, -, hheight, hdirty⟩ := findBlockPos_spec h
    exact ⟨hgrows.heights, hheight, hdirty⟩
  | some known =>
    rw [findBlockPos] at h
    obtain ⟨rfl, rfl, rfl⟩ : true = found ∧ known = pos ∧ _ = files' := by
      simpa only [some.injEq, Prod.mk.injEq] using h
    obtain ⟨hgrow, hheight⟩ := chargeBlock_heights files known.nFile nHeight nTime
      fun nSize => max (addUnsigned known.nPos nAddSize) nSize
    exact ⟨⟨hgrow.nHeightLast, fun n hn => mem_setDirty.mpr (.inr (hgrow.dirty n hn))⟩,
      hheight, fun _ => mem_setDirty.mpr (.inl rfl)⟩

end BlockFiles

theorem NodeDisk.lookup_trailingInfo {fileInfo : AList fun _ : Nat => CBlockFileInfo}
    {info : CBlockFileInfo} {count nFile i : Nat}
    (h : (trailingInfo fileInfo count nFile)[i]? = some info) :
    fileInfo.lookup (nFile + i) = some info := by
  induction count generalizing nFile i with
  | zero => nomatch h
  | succ count ih =>
    rw [trailingInfo] at h
    split at h
    next record hrecord =>
      cases i with
      | zero =>
        rw [Nat.add_zero, hrecord]
        exact h
      | succ i =>
        have := ih h
        rwa [Nat.add_assoc, Nat.add_comm 1 i] at this
    next => nomatch h

theorem NodeDisk.info_loadBlockFiles_of_lt (d : NodeDisk) {n : Nat}
    (hn : n < d.loadBlockFiles.vinfoBlockFile.length) : d.loadBlockFiles.info n = d.info n := by
  by_cases hlast : n ≤ d.nLastBlockFile
  · exact d.info_loadBlockFiles hlast
  -- a record past the last block file
  have hlen : ((List.range (d.nLastBlockFile + 1)).map fun nFile =>
      (d.fileInfo.lookup nFile).getD {}).length = d.nLastBlockFile + 1 := by
    rw [length_map, length_range]
  have hget : d.loadBlockFiles.vinfoBlockFile[n]? =
      (trailingInfo d.fileInfo d.fileInfo.entries.length
        (d.nLastBlockFile + 1))[n - (d.nLastBlockFile + 1)]? := by
    rw [loadBlockFiles, getElem?_append_right (by omega), hlen]
  obtain ⟨info, hinfo⟩ : ∃ info, d.loadBlockFiles.vinfoBlockFile[n]? = some info :=
    ⟨_, getElem?_eq_getElem hn⟩
  have hlookup := lookup_trailingInfo (hget.symm.trans hinfo)
  rw [show d.nLastBlockFile + 1 + (n - (d.nLastBlockFile + 1)) = n by omega] at hlookup
  rw [BlockFiles.info, getD_eq_getElem?_getD, hinfo, NodeDisk.info, hlookup]

/-! ## The chosen files -/

theorem findFilesToPrune_spec (tip : Option CBlockIndex) (nPruneTarget nPruneAfterHeight : Nat)
    (files : BlockFiles) (index : FileIndex) :
    ∃ set, findFilesToPrune tip nPruneTarget nPruneAfterHeight files index =
        ((pruneAll set files index).1, (pruneAll set files index).2, set) ∧
      ∀ n ∈ set, ∃ t, tip = some t ∧ nPruneAfterHeight < t.nHeight ∧
        (files.info n).nHeightLast ≤ belowTip t := by
  cases tip with
  | none => exact ⟨[], rfl, fun _ hn => nomatch hn⟩
  | some t =>
    simp only [findFilesToPrune]
    split
    · exact ⟨[], rfl, fun _ hn => nomatch hn⟩
    next hlong =>
      split
      · obtain ⟨set, heq, hset⟩ := PruningNode.pruneLoop_range nPruneTarget (belowTip t)
          files.calculateCurrentUsage files.nLastBlockFile files index
        refine ⟨set, heq, fun n hn => ⟨t, rfl, ?_, ((hset n).mp hn).2.1.2⟩⟩
        exact Nat.lt_of_not_le (not_or.mp hlong).2
      · exact ⟨[], rfl, fun _ hn => nomatch hn⟩

theorem findFilesToPruneManual_spec (tip : Option CBlockIndex) (nManualPruneHeight : Nat)
    (files : BlockFiles) (index : FileIndex) :
    ∃ set, findFilesToPruneManual tip nManualPruneHeight files index =
        ((pruneAll set files index).1, (pruneAll set files index).2, set) ∧
      ∀ n ∈ set, ∃ t, tip = some t ∧
        (files.info n).nHeightLast ≤ manualLimit t nManualPruneHeight := by
  cases tip with
  | none => exact ⟨[], rfl, fun _ hn => nomatch hn⟩
  | some t =>
    obtain ⟨set, heq, hset⟩ := PruningNode.pruneLoop_range 0 (manualLimit t nManualPruneHeight) 0
      files.nLastBlockFile files index
    refine ⟨set, ?_, fun n hn => ⟨t, rfl, ((hset n).mp hn).2.1.2⟩⟩
    simp only [findFilesToPruneManual]
    rw [pruneManualLoop_eq _ 0, heq]

namespace BlockStore

namespace Counted

variable {s s' : BlockStore}

variable (h : s.Counted)

include h

theorem allocate {files : BlockFiles} (hgrow : s.files.HeightsGrow files) :
    ({ s with files := files } : BlockStore).Counted where
  covered n height hmem := (h.covered n height hmem).trans (hgrow.nHeightLast n)
  recorded := h.recorded
  clean n hn := h.clean n fun hdirty => hn (hgrow.dirty n hdirty)

theorem addBlock {nFile nHeight : Nat} (hheight : nHeight ≤ (s.files.info nFile).nHeightLast)
    (hdirty : nFile ∈ s.files.setDirtyFileInfo) :
    ({ s with holds := Function.update s.holds nFile (nHeight :: s.holds nFile) } :
      BlockStore).Counted := by
  have hholds : ∀ n, ∀ height ∈ Function.update s.holds nFile (nHeight :: s.holds nFile) n,
      (n = nFile ∧ height = nHeight) ∨ height ∈ s.holds n := by
    intro n height hmem
    by_cases heq : n = nFile
    · subst heq
      rw [Function.update_self] at hmem
      exact (mem_cons.mp hmem).imp_left fun hnew => ⟨rfl, hnew⟩
    · rw [Function.update_of_ne heq] at hmem
      exact .inr hmem
  refine ⟨fun n height hmem => ?_, h.recorded, fun n hn height hmem => ?_⟩
  · rcases hholds n height hmem with ⟨rfl, rfl⟩ | hold
    · exact hheight
    · exact h.covered n height hold
  · rcases hholds n height hmem with ⟨rfl, rfl⟩ | hold
    · exact absurd hdirty hn
    · exact h.clean n hn height hold

theorem saveBlockToDisk {fPruneMode diskSpace written : Bool} {known : Option CDiskBlockPos}
    {nAddSize nHeight nTime : Nat}
    (hsave : s.saveBlockToDisk fPruneMode diskSpace written known nAddSize nHeight nTime =
      some s') : s'.Counted := by
  obtain ⟨⟨found, pos, files⟩, hpos, hsave⟩ := bind_eq_some_iff.mp hsave
  obtain ⟨hgrow, hheight, hdirty⟩ := BlockFiles.findBlockPos_heights hpos
  simp only at hsave
  split at hsave
  next hstored =>
    obtain rfl := some.inj hsave
    rw [Bool.and_eq_true] at hstored
    exact (h.allocate hgrow).addBlock hheight (hdirty hstored.1)
  next =>
    obtain rfl := some.inj hsave
    exact h.allocate hgrow

theorem prune {pruned : BlockFiles × FileIndex × List Nat} {set : List Nat} {index : FileIndex}
    (hpruned : pruned = ((pruneAll set s.files index).1, (pruneAll set s.files index).2, set)) :
    (s.prune pruned).Counted := by
  subst hpruned
  refine ⟨fun n height hmem => ?_, h.recorded, fun n hn height hmem => ?_⟩
  · simp only [BlockStore.prune] at hmem ⊢
    split at hmem
    · nomatch hmem
    next hset =>
      rw [info_pruneAll, if_neg hset]
      exact h.covered n height hmem
  · simp only [BlockStore.prune, mem_dirty_pruneAll, not_or] at hn hmem
    rw [if_neg hn.1] at hmem
    exact h.clean n hn.2 height hmem

theorem writeBatchSync : s.writeBatchSync.Counted := by
  have hall : ∀ n, ∀ height ∈ s.holds n, height ≤ (s.writeBatchSync.disk.info n).nHeightLast := by
    intro n height hmem
    have hlookup : s.writeBatchSync.disk.fileInfo.lookup n = _ :=
      PruningNode.lookup_foldl_insert s.files.info s.files.setDirtyFileInfo s.disk.fileInfo n
    rw [NodeDisk.info, hlookup]
    split
    · exact h.covered n height hmem
    next hn => exact h.clean n hn height hmem
  exact ⟨h.covered, hall, fun n _ => hall n⟩

theorem restart : s.restart.Counted := by
  refine ⟨fun n height hmem => ?_, h.recorded, fun n _ height hmem => ?_⟩
  · simp only [BlockStore.restart] at hmem ⊢
    split at hmem
    next hn =>
      rw [NodeDisk.info_loadBlockFiles_of_lt _ hn]
      exact h.recorded n height hmem
    next => nomatch hmem
  · simp only [BlockStore.restart] at hmem ⊢
    split at hmem
    next => exact h.recorded n height hmem
    next => nomatch hmem

theorem step {event : StoreEvent} (hstep : s.step event = some s') : s'.Counted := by
  cases event with
  | saveBlockToDisk => exact h.saveBlockToDisk hstep
  | findUndoPos fPruneMode diskSpace nFile nAddSize =>
    obtain rfl := some.inj hstep
    obtain ⟨r, hr⟩ : ∃ r, s.files.findUndoPos fPruneMode diskSpace nFile nAddSize = r := ⟨_, rfl⟩
    rw [hr]
    exact h.allocate (BlockFiles.findUndoPos_spec hr).1.heights
  | findFilesToPrune tip nPruneTarget nPruneAfterHeight index =>
    obtain rfl := some.inj hstep
    obtain ⟨set, hset, -⟩ :=
      findFilesToPrune_spec tip nPruneTarget nPruneAfterHeight s.files index
    exact h.prune hset
  | findFilesToPruneManual tip nManualPruneHeight index =>
    obtain rfl := some.inj hstep
    obtain ⟨set, hset, -⟩ := findFilesToPruneManual_spec tip nManualPruneHeight s.files index
    exact h.prune hset
  | writeBatchSync =>
    obtain rfl := some.inj hstep
    exact h.writeBatchSync
  | restart =>
    obtain rfl := some.inj hstep
    exact h.restart

omit h

end Counted

theorem run_counted {s s' : BlockStore} (h : s.Counted) {events : List StoreEvent}
    (hrun : s.run events = some s') : s'.Counted := by
  induction events generalizing s with
  | nil =>
    obtain rfl := some.inj hrun
    exact h
  | cons event events ih =>
    obtain ⟨s1, hstep, hrun⟩ := bind_eq_some_iff.mp hrun
    exact ih (h.step hstep) hrun

theorem counted_empty : ({} : BlockStore).Counted :=
  ⟨fun _ _ h => (nomatch h), fun _ _ h => (nomatch h), fun _ _ _ h => (nomatch h)⟩

end BlockStore

/-- Whatever has happened to the block files, `FindFilesToPrune` chooses no file with a block
    that is less than `MIN_BLOCKS_TO_KEEP` below the tip, and `FindFilesToPruneManual` does not
    for any height that `pruneblockchain` passes on. -/
theorem pruning_keeps_recent (events : List StoreEvent) (s : BlockStore)
    (hrun : run {} events = some s) (network : Network) (c : VChain)
    (index : FileIndex) :
    (∀ nPruneTarget, ∀ n ∈ (findFilesToPrune c.tip nPruneTarget network.nPruneAfterHeight s.files
        index).2.2, ∀ h ∈ s.holds n, (h : Int) + MIN_BLOCKS_TO_KEEP ≤ c.height) ∧
      ∀ fPruneMode blockTimeMax heightParam nManualPruneHeight,
        pruneblockchain network fPruneMode c blockTimeMax heightParam = .ok nManualPruneHeight →
        ∀ n ∈ (findFilesToPruneManual c.tip nManualPruneHeight s.files index).2.2,
          ∀ h ∈ s.holds n, (h : Int) + MIN_BLOCKS_TO_KEEP ≤ c.height := by
  have hcounted := run_counted counted_empty hrun
  -- a file that ends far enough below the tip
  have hkeep : ∀ t, c.tip = some t → MIN_BLOCKS_TO_KEEP ≤ t.nHeight → ∀ n,
      (s.files.info n).nHeightLast ≤ belowTip t → ∀ h ∈ s.holds n,
        (h : Int) + MIN_BLOCKS_TO_KEEP ≤ c.height := by
    intro t ht hlong n hle h hmem
    have hlast := hcounted.covered n h hmem
    have hbelow := belowTip_add_le hlong
    rw [c.height_tip ht]
    omega
  constructor
  · intro nPruneTarget n hn
    obtain ⟨set, heq, hset⟩ :=
      findFilesToPrune_spec c.tip nPruneTarget network.nPruneAfterHeight s.files index
    rw [heq] at hn
    obtain ⟨t, ht, hlong, hle⟩ := hset n hn
    have hmin := network.nPruneAfterHeight_ge
    refine hkeep t ht ?_ n hle
    simp only [MIN_BLOCKS_TO_KEEP]
    omega
  · intro fPruneMode blockTimeMax heightParam height hcall n hn
    obtain ⟨set, heq, hset⟩ := findFilesToPruneManual_spec c.tip height s.files index
    rw [heq] at hn
    obtain ⟨t, ht, hle⟩ := hset n hn
    exact hkeep t ht (pruneblockchain_long hcall ht) n (hle.trans (Nat.min_le_right _ _))

namespace RecentSample

def pindex (n : Nat) : CBlockIndex :=
  { hash := n + 1, nHeight := n, pprev := if n = 0 then none else some n }

def chain (length : Nat) : VChain where
  vChain := (List.range length).map pindex
  height_eq := by
    intro i b hb
    rw [getElem?_map] at hb
    obtain ⟨j, hj, rfl⟩ := map_eq_some_iff.mp hb
    obtain ⟨hlt, hij⟩ := List.getElem?_eq_some_iff.mp hj
    rw [getElem_range] at hij
    exact hij.symm

theorem tip_chain (n : Nat) : (chain (n + 1)).tip = some (pindex n) := by
  rw [VChain.tip, chain, getLast?_eq_getElem?, getElem?_map, length_map,
    length_range, Nat.add_sub_cancel, getElem?_range (Nat.lt_succ_self n)]
  rfl

/-- Three files are imported, with a block that goes to the first one late. -/
def events : List StoreEvent :=
  [.saveBlockToDisk true true true (some ⟨0, 8⟩) 300 5 0,
    .saveBlockToDisk true true true (some ⟨1, 8⟩) 300 1400 0,
    .saveBlockToDisk true true true (some ⟨0, 308⟩) 300 900 0,
    .saveBlockToDisk true true true (some ⟨2, 8⟩) 300 1401 0]

def index : FileIndex := ⟨fun _ => none, fun _ => false⟩

end RecentSample

open RecentSample in
/-- The first file is chosen in both ways, and all its blocks are old. -/
theorem pruning_keeps_recent_sample : ∃ s, run {} events = some s ∧
    s.holds 0 = [900, 5] ∧
    0 ∈ (findFilesToPrune (chain 1501).tip 1 Network.regtest.nPruneAfterHeight s.files
      index).2.2 ∧
    0 ∈ (findFilesToPruneManual (chain 1501).tip 1212 s.files index).2.2 ∧
    ∀ h ∈ s.holds 0, (h : Int) + MIN_BLOCKS_TO_KEEP ≤ (chain 1501).height := by
  have htip : (chain 1501).tip = some (pindex 1500) := tip_chain 1500
  have hcomp : (run {} events).map (fun s => (s.holds 0,
      (findFilesToPrune (some (pindex 1500)) 1 Network.regtest.nPruneAfterHeight s.files
        index).2.2,
      (findFilesToPruneManual (some (pindex 1500)) 1212 s.files index).2.2)) =
      some ([900, 5], [0], [0]) := by decide
  obtain ⟨s, hrun, hfields⟩ := map_eq_some_iff.mp hcomp
  simp only [Prod.mk.injEq] at hfields
  obtain ⟨hholds, hauto, hmanual⟩ := hfields
  obtain ⟨-, hkeep⟩ := pruning_keeps_recent events s hrun .regtest (chain 1501) index
  rw [htip] at hkeep ⊢
  have hauto' : 0 ∈ (findFilesToPrune (some (pindex 1500)) 1 Network.regtest.nPruneAfterHeight
      s.files index).2.2 := by
    rw [hauto]
    exact mem_singleton.mpr rfl
  have hmanual' : 0 ∈ (findFilesToPruneManual (some (pindex 1500)) 1212 s.files index).2.2 := by
    rw [hmanual]
    exact mem_singleton.mpr rfl
  -- 1300 is too close to the tip
  have hcall : pruneblockchain .regtest true (chain 1501) (fun _ => 0) 1300 = .ok 1212 := by
    have hheight : (chain 1501).height = 1500 := (chain 1501).height_tip htip
    simp only [pruneblockchain, hheight]
    rfl
  exact ⟨s, hrun, hholds, hauto', hmanual', hkeep true _ 1300 1212 hcall 0 hmanual'⟩

end Rcoin
