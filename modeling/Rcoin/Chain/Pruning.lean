/-
  The disk of a pruning node (src/validation.cpp, src/txdb.cpp): the block and undo
  files, the block index database with the records of the files, and the coin
  database; what one write or deletion of `FlushStateToDisk` does to them, and what
  start-up reads of the files.
-/
import Rcoin.Chain.BlockFiles
import Rcoin.Chain.Replay

namespace Rcoin

open List Maps

/-! ## The disk -/

/-- The files, and what the database records of them. -/
structure NodeDisk where
  /-- The blocks in blk?????.dat; `none` when there is no such file. -/
  blkFiles : Nat → Option (List CBlock)
  /-- The undo data in rev?????.dat, by the block it belongs to. -/
  revFiles : Nat → Option (List (Uint256 × CBlockUndo))
  /-- The records under `DB_BLOCK_FILES`. -/
  fileInfo : AList fun _ : Nat => CBlockFileInfo
  /-- The record under `DB_LAST_BLOCK`, 0 without one. -/
  nLastBlockFile : Nat
  /-- The flag "prunedblockfiles". -/
  fHavePruned : Bool
  /-- The records under `DB_BLOCK_INDEX`. -/
  blockIndex : Uint256 → Option CBlockIndexFile
  coins : CCoinsViewDB

/-- A data directory that was just created. -/
def NodeDisk.empty : NodeDisk where
  blkFiles := fun _ => none
  revFiles := fun _ => none
  fileInfo := ∅
  nLastBlockFile := 0
  fHavePruned := false
  blockIndex := fun _ => none
  coins := .empty

/-- One write or deletion of `FlushStateToDisk`. -/
inductive DiskOp where
  | writeFlag (fValue : Bool)
  | flushBlockFile
  | writeBatchSync (fileInfo : List (Nat × CBlockFileInfo)) (nLastFile : Nat)
      (blockinfo : Uint256 → Option CBlockIndexFile)
  | removeBlk (nFile : Nat)
  | removeRev (nFile : Nat)
  | writeCoins (batch : List BatchOp)

namespace NodeDisk

def apply (d : NodeDisk) : DiskOp → NodeDisk
  | .writeFlag fValue => { d with fHavePruned := fValue }
  -- the files are synced; what they hold stays as it is
  | .flushBlockFile => d
  | .writeBatchSync fileInfo nLastFile blockinfo =>
    { d with
      fileInfo := fileInfo.foldl (fun records x => records.insert x.1 x.2) d.fileInfo
      nLastBlockFile := nLastFile
      blockIndex := fun hash => (blockinfo hash).or (d.blockIndex hash) }
  | .removeBlk nFile => { d with blkFiles := Function.update d.blkFiles nFile none }
  | .removeRev nFile => { d with revFiles := Function.update d.revFiles nFile none }
  | .writeCoins batch => { d with coins := d.coins.writeBatch batch }

end NodeDisk

/-- The networks of src/chainparams.cpp. -/
inductive Network where
  | main | test | regtest
  deriving DecidableEq, Repr

/-- `nPruneAfterHeight` of the chain parameters. -/
def Network.nPruneAfterHeight : Network → Nat
  | .main => 100000
  | .test => 1000
  | .regtest => 1000

namespace NodeDisk

/-- The loop of `LoadBlockIndexDB` past the last block file; `n` bounds it by the
    number of records. -/
def trailingInfo (fileInfo : AList fun _ : Nat => CBlockFileInfo) : Nat → Nat → List CBlockFileInfo
  | 0, _ => []
  | n + 1, nFile =>
    match fileInfo.lookup nFile with
    | some info => info :: trailingInfo fileInfo n (nFile + 1)
    | none => []

/-- The part of `LoadBlockIndexDB` about the block files. -/
def loadBlockFiles (d : NodeDisk) : BlockFiles where
  vinfoBlockFile :=
    (List.range (d.nLastBlockFile + 1)).map (fun nFile => (d.fileInfo.lookup nFile).getD {}) ++
      trailingInfo d.fileInfo d.fileInfo.entries.length (d.nLastBlockFile + 1)
  nLastBlockFile := d.nLastBlockFile

/-- What the records of a disk say of a file. -/
def info (d : NodeDisk) (nFile : Nat) : CBlockFileInfo := (d.fileInfo.lookup nFile).getD {}

theorem info_loadBlockFiles {d : NodeDisk} {n : Nat} (hn : n ≤ d.nLastBlockFile) :
    d.loadBlockFiles.info n = d.info n := by
  have hlen : n < ((List.range (d.nLastBlockFile + 1)).map fun nFile =>
      (d.fileInfo.lookup nFile).getD {}).length := by
    rw [length_map, length_range]
    omega
  unfold BlockFiles.info loadBlockFiles
  rw [getD_eq_getElem?_getD, getElem?_append_left hlen, getElem?_map,
    getElem?_range (by omega)]
  rfl

end NodeDisk

/-! ## The files that are chosen, and their records -/

namespace PruningNode

theorem range_split {m n : Nat} {pre : List Nat} :
    (∃ post, List.range m = pre ++ n :: post) ↔ n < m ∧ pre = List.range n := by
  simp only [range_eq_range', range'_eq_append_iff, eq_comm (a := _ :: _),
    range'_eq_cons_iff]
  constructor
  · rintro ⟨post, k, hk, hpre, hn, hlen, -⟩
    obtain rfl : k = n := by omega
    exact ⟨by omega, hpre⟩
  · rintro ⟨hn, hpre⟩
    exact ⟨_, n, Nat.le_of_lt hn, hpre, by omega, by omega, rfl⟩

theorem pruneLoop_range (target limit usage m : Nat) (files : BlockFiles) (index : FileIndex) :
    ∃ set, pruneLoop target limit usage (List.range m) files index =
        ((pruneAll set files index).1, (pruneAll set files index).2, set) ∧
      ∀ n, n ∈ set ↔ n < m ∧ files.Prunable limit n ∧
        target ≤ usage - files.freed limit (List.range n) +
          (BLOCKFILE_CHUNK_SIZE + UNDOFILE_CHUNK_SIZE) := by
  obtain ⟨set, heq, hset⟩ := pruneLoop_spec target limit usage nodup_range files index
  refine ⟨set, heq, fun n => (hset n).trans ?_⟩
  constructor
  · rintro ⟨pre, post, h, hn, hle⟩
    obtain ⟨hnm, rfl⟩ := range_split.mp ⟨post, h⟩
    exact ⟨hnm, hn, hle⟩
  · rintro ⟨hnm, hn, hle⟩
    obtain ⟨post, h⟩ := range_split.mpr ⟨hnm, rfl⟩
    exact ⟨_, post, h, hn, hle⟩

theorem lookup_foldl_insert (f : Nat → CBlockFileInfo) (ns : List Nat)
    (records : AList fun _ : Nat => CBlockFileInfo) (n : Nat) :
    ((ns.map fun m => (m, f m)).foldl (fun r x => r.insert x.1 x.2) records).lookup n =
      if n ∈ ns then some (f n) else records.lookup n := by
  induction ns generalizing records with
  | nil => rfl
  | cons m ns ih =>
    rw [map_cons, foldl_cons, ih, Maps.lookup_insert]
    by_cases hn : n ∈ ns
    · rw [if_pos hn, if_pos (mem_cons_of_mem _ hn)]
    · rw [if_neg hn]
      by_cases hm : n = m
      · rw [if_pos hm, if_pos (hm ▸ mem_cons_self ..), hm]
      · rw [if_neg hm, if_neg]
        rintro (_ | ⟨_, h⟩)
        · exact hm rfl
        · exact hn h

end PruningNode

end Rcoin
