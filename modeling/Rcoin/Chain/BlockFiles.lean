/-
  The block files and which of them are pruned (src/chain.h, src/validation.cpp):
  `CBlockFileInfo`, `FindBlockPos` and `FindUndoPos` hand out room in the files,
  `FindFilesToPruneManual` and `FindFilesToPrune` choose files to delete, and
  `PruneOneBlockFile` takes a file out of the block index.

  `vinfoBlockFile` is a list by file number.  `unsigned int` fields are natural
  numbers below `2 ^ 32`; their sums wrap.  The 64-bit total of the file sizes
  cannot wrap: there are fewer than `2 ^ 31` files.  What the operating system
  does for an allocation (`AllocateFileRange`, `fsync`, truncating a file that
  is left) does not change what a file holds and is not part of the model.
-/
import Rcoin.Primitives

namespace Rcoin

open List

/-- Addition of two `unsigned int`. -/
def addUnsigned (a b : Nat) : Nat := (a + b) % 2 ^ 32

/-- Subtraction of two `unsigned int`. -/
def subUnsigned (a b : Nat) : Nat := (a + 2 ^ 32 - b) % 2 ^ 32

/-! ## What is known of a file -/

/-- What is known of one pair of block and undo file. -/
structure CBlockFileInfo where
  /-- Number of blocks stored in file. -/
  nBlocks : Nat := 0
  /-- Number of used bytes of block file. -/
  nSize : Nat := 0
  /-- Number of used bytes in the undo file. -/
  nUndoSize : Nat := 0
  nHeightFirst : Nat := 0
  nHeightLast : Nat := 0
  nTimeFirst : Nat := 0
  nTimeLast : Nat := 0
  deriving DecidableEq, Repr

/-- `AddBlock`: the statistics, without `nSize`. -/
def CBlockFileInfo.addBlock (info : CBlockFileInfo) (nHeightIn nTimeIn : Nat) : CBlockFileInfo :=
  { info with
    nHeightFirst :=
      if info.nBlocks = 0 ∨ info.nHeightFirst > nHeightIn then nHeightIn else info.nHeightFirst
    nTimeFirst := if info.nBlocks = 0 ∨ info.nTimeFirst > nTimeIn then nTimeIn else info.nTimeFirst
    nBlocks := addUnsigned info.nBlocks 1
    nHeightLast := if nHeightIn > info.nHeightLast then nHeightIn else info.nHeightLast
    nTimeLast := if nTimeIn > info.nTimeLast then nTimeIn else info.nTimeLast }

structure CDiskBlockPos where
  nFile : Nat
  nPos : Nat
  deriving DecidableEq, Repr

def MAX_BLOCKFILE_SIZE : Nat := 0x8000000

def BLOCKFILE_CHUNK_SIZE : Nat := 0x1000000

def UNDOFILE_CHUNK_SIZE : Nat := 0x100000

/-- "Block files containing a block-height within MIN_BLOCKS_TO_KEEP of
    chainActive.Tip() will not be pruned." -/
def MIN_BLOCKS_TO_KEEP : Nat := 288

/-- What `cs_LastBlockFile` guards. -/
structure BlockFiles where
  vinfoBlockFile : List CBlockFileInfo := []
  nLastBlockFile : Nat := 0
  /-- Set when room was allocated, so that pruning is looked into. -/
  fCheckForPruning : Bool := false
  setDirtyFileInfo : List Nat := []
  deriving DecidableEq, Repr

namespace BlockFiles

/-- `vinfoBlockFile[nFile]`. -/
def info (files : BlockFiles) (nFile : Nat) : CBlockFileInfo := files.vinfoBlockFile.getD nFile {}

/-- `vinfoBlockFile.resize(nFile + 1)`, when it is shorter. -/
def resize (files : BlockFiles) (nFile : Nat) : BlockFiles :=
  { files with
    vinfoBlockFile := files.vinfoBlockFile ++
      replicate (nFile + 1 - files.vinfoBlockFile.length) {} }

/-- A write to `vinfoBlockFile[nFile]`. -/
def modifyInfo (files : BlockFiles) (nFile : Nat) (f : CBlockFileInfo → CBlockFileInfo) :
    BlockFiles :=
  { files with vinfoBlockFile := files.vinfoBlockFile.modify nFile f }

/-- `setDirtyFileInfo.insert(nFile)`. -/
def setDirty (files : BlockFiles) (nFile : Nat) : BlockFiles :=
  { files with setDirtyFileInfo := files.setDirtyFileInfo.insert nFile }

/-! ## Room for a block -/

/-- The `while` loop of `FindBlockPos` over the files from `nFile` on; past the
    last one a file is empty.  `none` when it never ends. -/
def findFile (nAddSize : Nat) : List CBlockFileInfo → Nat → Option Nat
  | [], nFile => if addUnsigned 0 nAddSize ≥ MAX_BLOCKFILE_SIZE then none else some nFile
  | info :: rest, nFile =>
    if addUnsigned info.nSize nAddSize ≥ MAX_BLOCKFILE_SIZE then findFile nAddSize rest (nFile + 1)
    else some nFile

/-- The number of chunks that `size` bytes take. -/
def chunks (size chunkSize : Nat) : Nat := addUnsigned size (chunkSize - 1) / chunkSize

/-- A block is counted in the last block file, whose size is then `nSize`. -/
def chargeBlock (files : BlockFiles) (nFile nHeight nTime : Nat) (nSize : Nat → Nat) : BlockFiles :=
  { files.modifyInfo nFile fun info =>
      { info.addBlock nHeight nTime with nSize := nSize info.nSize } with
    nLastBlockFile := nFile }

/-- `FindBlockPos`.  `known` is the position when the block is on disk already
    (`fKnown`), `diskSpace` what `CheckDiskSpace` answers. -/
def findBlockPos (fPruneMode diskSpace : Bool) (known : Option CDiskBlockPos)
    (nAddSize nHeight nTime : Nat) (files : BlockFiles) :
    Option (Bool × CDiskBlockPos × BlockFiles) :=
  match known with
  | some pos =>
    let files := (files.resize pos.nFile).chargeBlock pos.nFile nHeight nTime
      fun nSize => max (addUnsigned pos.nPos nAddSize) nSize
    some (true, pos, files.setDirty pos.nFile)
  | none => do
    let nFile ← findFile nAddSize (files.vinfoBlockFile.drop files.nLastBlockFile)
      files.nLastBlockFile
    let pos : CDiskBlockPos := { nFile := nFile, nPos := (files.info nFile).nSize }
    let files := (files.resize nFile).chargeBlock nFile nHeight nTime
      fun nSize => addUnsigned nSize nAddSize
    let nOldChunks := chunks pos.nPos BLOCKFILE_CHUNK_SIZE
    let nNewChunks := chunks (files.info nFile).nSize BLOCKFILE_CHUNK_SIZE
    if nNewChunks > nOldChunks then
      let files := { files with fCheckForPruning := files.fCheckForPruning || fPruneMode }
      -- "out of disk space": the file has been charged with the block all the same
      if diskSpace then some (true, pos, files.setDirty nFile) else some (false, pos, files)
    else some (true, pos, files.setDirty nFile)

/-- `FindUndoPos`: room in the undo file that belongs to block file `nFile`. -/
def findUndoPos (fPruneMode diskSpace : Bool) (nFile nAddSize : Nat) (files : BlockFiles) :
    Bool × CDiskBlockPos × BlockFiles :=
  let pos : CDiskBlockPos := { nFile := nFile, nPos := (files.info nFile).nUndoSize }
  let files := files.modifyInfo nFile fun info =>
    { info with nUndoSize := addUnsigned info.nUndoSize nAddSize }
  let files := files.setDirty nFile
  let nOldChunks := chunks pos.nPos UNDOFILE_CHUNK_SIZE
  let nNewChunks := chunks (files.info nFile).nUndoSize UNDOFILE_CHUNK_SIZE
  if nNewChunks > nOldChunks then
    (diskSpace, pos, { files with fCheckForPruning := files.fCheckForPruning || fPruneMode })
  else (true, pos, files)

/-! ## Usage -/

/-- The bytes a file and its undo file use. -/
def bytes (info : CBlockFileInfo) : Nat := addUnsigned info.nSize info.nUndoSize

def calculateCurrentUsage (files : BlockFiles) : Nat :=
  files.vinfoBlockFile.foldl (fun retval file => retval + bytes file) 0

end BlockFiles

open BlockFiles

/-! ## The block index -/

/-- The entries of `mapBlockIndex`, with where a block and its undo data are. -/
structure CBlockIndexFile extends CBlockIndex where
  nFile : Nat := 0
  nDataPos : Nat := 0
  nUndoPos : Nat := 0
  /-- `BLOCK_HAVE_DATA`: full block available in blk*.dat. -/
  haveData : Bool := false
  /-- `BLOCK_HAVE_UNDO`: undo data available in rev*.dat. -/
  haveUndo : Bool := false
  deriving DecidableEq, Repr

/-- The block index, and the entries that are not written back. -/
structure FileIndex where
  mapBlockIndex : Uint256 → Option CBlockIndexFile
  setDirtyBlockIndex : Uint256 → Bool

/-- What `PruneOneBlockFile` does to an entry that points to the file. -/
def CBlockIndexFile.pruned (pindex : CBlockIndexFile) : CBlockIndexFile :=
  { pindex with haveData := false, haveUndo := false, nFile := 0, nDataPos := 0, nUndoPos := 0 }

/-- `PruneOneBlockFile`: every entry in the file loses its data. -/
def pruneOneBlockFile (fileNumber : Nat) (files : BlockFiles) (index : FileIndex) :
    BlockFiles × FileIndex :=
  ((files.modifyInfo fileNumber fun _ => {}).setDirty fileNumber,
    { mapBlockIndex := fun hash => (index.mapBlockIndex hash).map fun pindex =>
        if pindex.nFile = fileNumber then pindex.pruned else pindex
      setDirtyBlockIndex := fun hash => index.setDirtyBlockIndex hash ||
        (index.mapBlockIndex hash).any fun pindex => pindex.nFile == fileNumber })

/-! ## Choosing files -/

/-- The loop of `FindFilesToPruneManual`. -/
def pruneManualLoop (nLastBlockWeCanPrune : Nat) :
    List Nat → BlockFiles → FileIndex → BlockFiles × FileIndex × List Nat
  | [], files, index => (files, index, [])
  | fileNumber :: rest, files, index =>
    if (files.info fileNumber).nSize = 0 ∨
        (files.info fileNumber).nHeightLast > nLastBlockWeCanPrune then
      pruneManualLoop nLastBlockWeCanPrune rest files index
    else
      let (files, index) := pruneOneBlockFile fileNumber files index
      let (files, index, setFilesToPrune) := pruneManualLoop nLastBlockWeCanPrune rest files index
      (files, index, fileNumber :: setFilesToPrune)

/-- `chainActive.Tip()->nHeight - MIN_BLOCKS_TO_KEEP`, which is unsigned. -/
def belowTip (tip : CBlockIndex) : Nat := subUnsigned tip.nHeight MIN_BLOCKS_TO_KEEP

/-- "last block to prune is the lesser of (user-specified height,
    MIN_BLOCKS_TO_KEEP from the tip)" -/
def manualLimit (tip : CBlockIndex) (nManualPruneHeight : Nat) : Nat :=
  min nManualPruneHeight (belowTip tip)

def findFilesToPruneManual (tip : Option CBlockIndex) (nManualPruneHeight : Nat)
    (files : BlockFiles) (index : FileIndex) : BlockFiles × FileIndex × List Nat :=
  match tip with
  | none => (files, index, [])
  | some tip =>
    pruneManualLoop (manualLimit tip nManualPruneHeight) (range files.nLastBlockFile)
      files index

/-- The loop of `FindFilesToPrune`; `nCurrentUsage` goes down with each file. -/
def pruneLoop (nPruneTarget nLastBlockWeCanPrune : Nat) :
    Nat → List Nat → BlockFiles → FileIndex → BlockFiles × FileIndex × List Nat
  | _, [], files, index => (files, index, [])
  | nCurrentUsage, fileNumber :: rest, files, index =>
    let info := files.info fileNumber
    let nBytesToPrune := bytes info
    if info.nSize = 0 then
      pruneLoop nPruneTarget nLastBlockWeCanPrune nCurrentUsage rest files index
    else if nCurrentUsage + (BLOCKFILE_CHUNK_SIZE + UNDOFILE_CHUNK_SIZE) < nPruneTarget then
      (files, index, [])
    -- "don't prune files that could have a block within MIN_BLOCKS_TO_KEEP of
    -- the main chain's tip but keep scanning"
    else if info.nHeightLast > nLastBlockWeCanPrune then
      pruneLoop nPruneTarget nLastBlockWeCanPrune nCurrentUsage rest files index
    else
      let (files, index) := pruneOneBlockFile fileNumber files index
      let (files, index, setFilesToPrune) :=
        pruneLoop nPruneTarget nLastBlockWeCanPrune (nCurrentUsage - nBytesToPrune) rest files index
      (files, index, fileNumber :: setFilesToPrune)

def findFilesToPrune (tip : Option CBlockIndex) (nPruneTarget nPruneAfterHeight : Nat)
    (files : BlockFiles) (index : FileIndex) : BlockFiles × FileIndex × List Nat :=
  match tip with
  | none => (files, index, [])
  | some tip =>
    if nPruneTarget = 0 ∨ tip.nHeight ≤ nPruneAfterHeight then (files, index, [])
    else
      let nCurrentUsage := files.calculateCurrentUsage
      if nCurrentUsage + (BLOCKFILE_CHUNK_SIZE + UNDOFILE_CHUNK_SIZE) ≥ nPruneTarget then
        pruneLoop nPruneTarget (belowTip tip) nCurrentUsage (range files.nLastBlockFile)
          files index
      else (files, index, [])

/-! ## What the files hold after a write -/

namespace BlockFiles

theorem info_modifyInfo (files : BlockFiles) (n m : Nat) (f : CBlockFileInfo → CBlockFileInfo) :
    (files.modifyInfo n f).info m =
      if n = m ∧ n < files.vinfoBlockFile.length then f (files.info m) else files.info m := by
  simp only [info, modifyInfo, getD_eq_getElem?_getD, getElem?_modify]
  by_cases hnm : n = m
  · obtain rfl := hnm
    by_cases hlen : n < files.vinfoBlockFile.length
    · simp [hlen]
    · simp [hlen]
  · simp [hnm]

@[simp] theorem info_resize (files : BlockFiles) (n m : Nat) :
    (files.resize n).info m = files.info m := by
  simp only [info, resize, getD_eq_getElem?_getD]
  by_cases hm : m < files.vinfoBlockFile.length
  · rw [getElem?_append_left hm]
  · rw [getElem?_append_right (Nat.le_of_not_lt hm), getElem?_replicate,
      getElem?_eq_none (Nat.le_of_not_lt hm)]
    split <;> rfl

theorem length_resize (files : BlockFiles) (n : Nat) :
    n < (files.resize n).vinfoBlockFile.length := by
  simp only [resize, length_append, length_replicate]
  omega

theorem info_setNull (files : BlockFiles) (n m : Nat) :
    (files.modifyInfo n fun _ => {}).info m = if n = m then {} else files.info m := by
  rw [info_modifyInfo]
  by_cases hnm : n = m
  · obtain rfl := hnm
    by_cases hlen : n < files.vinfoBlockFile.length
    · rw [if_pos ⟨rfl, hlen⟩, if_pos rfl]
    · rw [if_neg fun h => hlen h.2, if_pos rfl, info, getD_eq_getElem?_getD,
        getElem?_eq_none (Nat.le_of_not_lt hlen)]
      rfl
  · rw [if_neg fun h => hnm h.1, if_neg hnm]

variable {files : BlockFiles}

theorem mem_setDirty {n m : Nat} :
    m ∈ (files.setDirty n).setDirtyFileInfo ↔ m = n ∨ m ∈ files.setDirtyFileInfo := mem_insert_iff

variable {nAddSize : Nat}

variable {nFile : Nat}

theorem le_findFile {infos : List CBlockFileInfo} {n : Nat}
    (h : findFile nAddSize infos nFile = some n) : nFile ≤ n := by
  induction infos generalizing nFile with
  | nil =>
    rw [findFile] at h
    split at h
    · nomatch h
    · exact Nat.le_of_eq (Option.some.inj h)
  | cons info rest ih =>
    rw [findFile] at h
    split at h
    · exact Nat.le_of_succ_le (ih h)
    · exact Nat.le_of_eq (Option.some.inj h)

/-- What `FindBlockPos` and `FindUndoPos` leave of the records: recorded heights
    only grow. -/
structure Grows (files files' : BlockFiles) : Prop where
  nHeightLast : ∀ n, (files.info n).nHeightLast ≤ (files'.info n).nHeightLast
  nLastBlockFile : files.nLastBlockFile ≤ files'.nLastBlockFile
  dirty : ∀ n ∈ files.setDirtyFileInfo, n ∈ files'.setDirtyFileInfo

theorem nHeightLast_addBlock (info : CBlockFileInfo) (nHeight nTime : Nat) :
    (info.addBlock nHeight nTime).nHeightLast = max info.nHeightLast nHeight := by
  show (if nHeight > info.nHeightLast then nHeight else info.nHeightLast) = _
  split <;> omega

theorem info_chargeBlock (files : BlockFiles) (nFile nHeight nTime : Nat) (nSize : Nat → Nat)
    (m : Nat) : ((files.resize nFile).chargeBlock nFile nHeight nTime nSize).info m =
      if nFile = m then
        { (files.info m).addBlock nHeight nTime with nSize := nSize (files.info m).nSize }
      else files.info m := by
  have hmodify := info_modifyInfo (files.resize nFile) nFile m fun info =>
    { info.addBlock nHeight nTime with nSize := nSize info.nSize }
  have hcharge : ((files.resize nFile).chargeBlock nFile nHeight nTime nSize).info m = _ := hmodify
  rw [hcharge, info_resize]
  by_cases hm : nFile = m
  · rw [if_pos ⟨hm, length_resize files nFile⟩, if_pos hm]
  · rw [if_neg fun h => hm h.1, if_neg hm]

variable {fPruneMode : Bool}

theorem nHeightLast_chargeBlock (files : BlockFiles) (nFile nHeight nTime : Nat)
    (nSize : Nat → Nat) (m : Nat) :
    (((files.resize nFile).chargeBlock nFile nHeight nTime nSize).info m).nHeightLast =
      if nFile = m then max (files.info m).nHeightLast nHeight else (files.info m).nHeightLast := by
  rw [info_chargeBlock]
  split
  · exact nHeightLast_addBlock (files.info m) nHeight nTime
  · rfl

variable {pos : CDiskBlockPos} {files' : BlockFiles}

theorem findBlockPos_unknown {diskSpace found : Bool} {nHeight nTime : Nat}
    (h : files.findBlockPos fPruneMode diskSpace none nAddSize nHeight nTime =
      some (found, pos, files')) :
    findFile nAddSize (files.vinfoBlockFile.drop files.nLastBlockFile) files.nLastBlockFile =
        some pos.nFile ∧ pos.nPos = (files.info pos.nFile).nSize ∧
      ∃ check, ∃ files1 : BlockFiles,
        files1 = { (files.resize pos.nFile).chargeBlock pos.nFile nHeight nTime
          fun nSize => addUnsigned nSize nAddSize with fCheckForPruning := check } ∧
        files' = if found then files1.setDirty pos.nFile else files1 := by
  obtain ⟨nFile, hfind, h⟩ := Option.bind_eq_some_iff.mp h
  obtain ⟨files1, hfiles1⟩ : ∃ files1, files1 = (files.resize nFile).chargeBlock nFile nHeight nTime
      fun nSize => addUnsigned nSize nAddSize := ⟨_, rfl⟩
  dsimp only at h
  rw [← hfiles1] at h
  split at h
  · cases diskSpace with
    | true =>
      obtain ⟨rfl, rfl, rfl⟩ := h
      exact ⟨hfind, rfl, _, _, by rw [hfiles1], rfl⟩
    | false =>
      obtain ⟨rfl, rfl, rfl⟩ := h
      exact ⟨hfind, rfl, _, _, by rw [hfiles1], rfl⟩
  · simp only [Option.some.injEq, Prod.mk.injEq] at h
    obtain ⟨rfl, rfl, rfl⟩ := h
    exact ⟨hfind, rfl, files1.fCheckForPruning, files1, by rw [hfiles1], rfl⟩

theorem findBlockPos_spec {diskSpace found : Bool} {nHeight nTime : Nat}
    (h : files.findBlockPos fPruneMode diskSpace none nAddSize nHeight nTime =
      some (found, pos, files')) :
    files.Grows files' ∧ pos.nFile ≤ files'.nLastBlockFile ∧
      nHeight ≤ (files'.info pos.nFile).nHeightLast ∧
      (found = true → pos.nFile ∈ files'.setDirtyFileInfo) := by
  obtain ⟨hfind, -, check, files1, hfiles1, hfiles'⟩ := findBlockPos_unknown h
  have hinfo : ∀ m, (files1.info m).nHeightLast =
      if pos.nFile = m then max (files.info m).nHeightLast nHeight
      else (files.info m).nHeightLast := by
    intro m
    rw [hfiles1]
    exact nHeightLast_chargeBlock files pos.nFile nHeight nTime (addUnsigned · nAddSize) m
  have hgrows : files.Grows files1 := by
    refine ⟨fun m => ?_, ?_, ?_⟩
    · rw [hinfo]
      split <;> omega
    · rw [hfiles1]
      exact le_findFile hfind
    · rw [hfiles1]
      exact fun _ hm => hm
  have hlast : files1.nLastBlockFile = pos.nFile := by rw [hfiles1]; rfl
  have hheight : nHeight ≤ (files1.info pos.nFile).nHeightLast := by
    rw [hinfo, if_pos rfl]
    omega
  rw [hfiles']
  cases found with
  | true =>
    rw [if_pos rfl]
    exact ⟨⟨hgrows.1, hgrows.2, fun m hm => mem_setDirty.mpr (.inr (hgrows.3 m hm))⟩,
      le_of_eq hlast.symm, hheight, fun _ => mem_setDirty.mpr (.inl rfl)⟩
  | false =>
    rw [if_neg Bool.false_ne_true]
    exact ⟨hgrows, le_of_eq hlast.symm, hheight, fun h => nomatch h⟩

theorem findUndoPos_spec {diskSpace found : Bool}
    (h : files.findUndoPos fPruneMode diskSpace nFile nAddSize = (found, pos, files')) :
    files.Grows files' ∧ pos.nFile = nFile := by
  have hinfo : ∀ m, ((files.modifyInfo nFile fun info =>
      { info with nUndoSize := addUnsigned info.nUndoSize nAddSize }).info m).nHeightLast =
        (files.info m).nHeightLast := by
    intro m
    rw [info_modifyInfo]
    split <;> rfl
  have hgrows : ∀ b : Bool, files.Grows { (files.modifyInfo nFile fun info =>
      { info with nUndoSize := addUnsigned info.nUndoSize nAddSize }).setDirty nFile with
        fCheckForPruning := b } :=
    fun b => ⟨fun m => le_of_eq (hinfo m).symm, le_refl _,
      fun m hm => mem_setDirty.mpr (.inr hm)⟩
  unfold findUndoPos at h
  dsimp only at h
  split at h
  · cases h
    exact ⟨hgrows _, rfl⟩
  · cases h
    exact ⟨hgrows files.fCheckForPruning, rfl⟩

end BlockFiles

/-! ## Pruning a set of files -/

/-- `PruneOneBlockFile` for each file of a set. -/
def pruneAll (setFilesToPrune : List Nat) (files : BlockFiles) (index : FileIndex) :
    BlockFiles × FileIndex :=
  setFilesToPrune.foldl (fun s fileNumber => pruneOneBlockFile fileNumber s.1 s.2) (files, index)

section

variable {ns : List Nat} {files : BlockFiles} {index : FileIndex}

theorem pruneAll_cons (n : Nat) (ns : List Nat) (files : BlockFiles) (index : FileIndex) :
    pruneAll (n :: ns) files index =
      pruneAll ns (pruneOneBlockFile n files index).1 (pruneOneBlockFile n files index).2 := rfl

theorem info_pruneAll (ns : List Nat) (files : BlockFiles) (index : FileIndex) (m : Nat) :
    (pruneAll ns files index).1.info m = if m ∈ ns then {} else files.info m := by
  induction ns generalizing files index with
  | nil => rfl
  | cons n ns ih =>
    have hone : (pruneOneBlockFile n files index).1.info m =
        if n = m then {} else files.info m := info_setNull files n m
    rw [pruneAll_cons, ih, hone]
    by_cases hm : m ∈ ns
    · rw [if_pos hm, if_pos (mem_cons_of_mem _ hm)]
    · by_cases hnm : n = m
      · rw [if_neg hm, if_pos hnm, if_pos (hnm ▸ mem_cons_self ..)]
      · rw [if_neg hm, if_neg hnm, if_neg]
        rintro (_ | ⟨_, h⟩)
        · exact hnm rfl
        · exact hm h

theorem mem_dirty_pruneAll {m : Nat} :
    m ∈ (pruneAll ns files index).1.setDirtyFileInfo ↔ m ∈ ns ∨ m ∈ files.setDirtyFileInfo := by
  induction ns generalizing files index with
  | nil => simp [pruneAll]
  | cons n ns ih =>
    have hone : m ∈ (pruneOneBlockFile n files index).1.setDirtyFileInfo ↔
        m = n ∨ m ∈ files.setDirtyFileInfo := mem_setDirty
    rw [pruneAll_cons, ih, hone, mem_cons]
    tauto

end

/-! ## Which files are chosen -/

/-- A file the loops do not skip. -/
def BlockFiles.Prunable (files : BlockFiles) (nLastBlockWeCanPrune n : Nat) : Prop :=
  (files.info n).nSize ≠ 0 ∧ (files.info n).nHeightLast ≤ nLastBlockWeCanPrune

instance (files : BlockFiles) (nLastBlockWeCanPrune n : Nat) :
    Decidable (files.Prunable nLastBlockWeCanPrune n) :=
  inferInstanceAs (Decidable (_ ∧ _))

/-- The bytes that go with the prunable ones of a list of files. -/
def BlockFiles.freed (files : BlockFiles) (nLastBlockWeCanPrune : Nat) (ns : List Nat) : Nat :=
  ((ns.filter fun n => decide (files.Prunable nLastBlockWeCanPrune n)).map fun n =>
    bytes (files.info n)).sum

theorem pruneManualLoop_eq (limit nCurrentUsage : Nat) (ns : List Nat) (files : BlockFiles)
    (index : FileIndex) :
    pruneManualLoop limit ns files index = pruneLoop 0 limit nCurrentUsage ns files index := by
  induction ns generalizing nCurrentUsage files index with
  | nil => rfl
  | cons n ns ih =>
    rw [pruneManualLoop, pruneLoop]
    dsimp only
    by_cases hsize : (files.info n).nSize = 0
    · rw [if_pos (.inl hsize), if_pos hsize, ih]
    · rw [if_neg hsize, if_neg (Nat.not_lt_zero _)]
      by_cases hlast : (files.info n).nHeightLast > limit
      · rw [if_pos (.inr hlast), if_pos hlast, ih]
      · rw [if_neg (not_or.mpr ⟨hsize, hlast⟩), if_neg hlast, ih]

theorem pruneLoop_spec (target limit usage : Nat) {ns : List Nat} (hnd : ns.Nodup)
    (files : BlockFiles) (index : FileIndex) :
    ∃ set, pruneLoop target limit usage ns files index =
        ((pruneAll set files index).1, (pruneAll set files index).2, set) ∧
      ∀ n, n ∈ set ↔ ∃ pre post, ns = pre ++ n :: post ∧ files.Prunable limit n ∧
        target ≤ usage - files.freed limit pre + (BLOCKFILE_CHUNK_SIZE + UNDOFILE_CHUNK_SIZE) := by
  induction ns generalizing usage files index with
  | nil =>
    refine ⟨[], rfl, fun n => ⟨nofun, ?_⟩⟩
    rintro ⟨pre, post, h, -⟩
    cases pre <;> nomatch h
  | cons m ns ih =>
    obtain ⟨hm, hnd⟩ := nodup_cons.mp hnd
    -- a file that is passed over frees nothing
    have hskip : ¬ files.Prunable limit m → ∀ n, (∃ pre post, ns = pre ++ n :: post ∧
        files.Prunable limit n ∧ target ≤ usage - files.freed limit pre +
          (BLOCKFILE_CHUNK_SIZE + UNDOFILE_CHUNK_SIZE)) ↔
        ∃ pre post, m :: ns = pre ++ n :: post ∧ files.Prunable limit n ∧
          target ≤ usage - files.freed limit pre +
            (BLOCKFILE_CHUNK_SIZE + UNDOFILE_CHUNK_SIZE) := by
      intro hnot n
      constructor
      · rintro ⟨pre, post, rfl, hn, hle⟩
        refine ⟨m :: pre, post, rfl, hn, ?_⟩
        rwa [freed, filter_cons_of_neg (by simpa using hnot)]
      · rintro ⟨pre, post, h, hn, hle⟩
        cases pre with
        | nil => exact absurd (by cases h; exact hn) hnot
        | cons m' pre =>
          cases h
          rw [freed, filter_cons_of_neg (by simpa using hnot)] at hle
          exact ⟨pre, post, rfl, hn, hle⟩
    rw [pruneLoop]
    dsimp only
    by_cases hsize : (files.info m).nSize = 0
    · obtain ⟨set, heq, hset⟩ := ih usage hnd files index
      rw [if_pos hsize]
      exact ⟨set, heq, fun n => (hset n).trans (hskip (fun h => h.1 hsize) n)⟩
    rw [if_neg hsize]
    by_cases husage : usage + (BLOCKFILE_CHUNK_SIZE + UNDOFILE_CHUNK_SIZE) < target
    · -- the target is met, now and after any more files
      rw [if_pos husage]
      refine ⟨[], rfl, fun n => ⟨nofun, ?_⟩⟩
      rintro ⟨pre, post, -, -, hle⟩
      omega
    rw [if_neg husage]
    by_cases hlast : (files.info m).nHeightLast > limit
    · obtain ⟨set, heq, hset⟩ := ih usage hnd files index
      rw [if_pos hlast]
      exact ⟨set, heq, fun n => (hset n).trans (hskip (fun h => not_lt.mpr h.2 hlast) n)⟩
    rw [if_neg hlast]
    have hprunable : files.Prunable limit m := ⟨hsize, Nat.le_of_not_lt hlast⟩
    -- the rest of the loop sees the other files as they were
    have hinfo : ∀ n ∈ ns, (pruneOneBlockFile m files index).1.info n = files.info n := by
      intro n hn
      have hne : m ≠ n := fun h => hm (h ▸ hn)
      exact (info_setNull files m n).trans (if_neg hne)
    have hprune : ∀ n ∈ ns, (pruneOneBlockFile m files index).1.Prunable limit n ↔
        files.Prunable limit n := by
      intro n hn
      unfold Prunable
      rw [hinfo n hn]
    have hfreed : ∀ pre, (∀ n ∈ pre, n ∈ ns) →
        (pruneOneBlockFile m files index).1.freed limit pre = files.freed limit pre := by
      intro pre hpre
      unfold freed
      rw [filter_congr fun n hn => decide_eq_decide.mpr (hprune n (hpre n hn))]
      exact congrArg sum (map_congr_left fun n hn =>
        congrArg bytes (hinfo n (hpre n (mem_of_mem_filter hn))))
    obtain ⟨set, heq, hset⟩ := ih (usage - bytes (files.info m)) hnd
      (pruneOneBlockFile m files index).1 (pruneOneBlockFile m files index).2
    refine ⟨m :: set, ?_, fun n => ?_⟩
    · rw [heq]
      rfl
    have hfirst : ∀ pre, files.freed limit (m :: pre) =
        bytes (files.info m) + files.freed limit pre := by
      intro pre
      rw [freed, filter_cons_of_pos (by simpa using hprunable)]
      rfl
    rw [mem_cons, hset]
    constructor
    · rintro (rfl | ⟨pre, post, rfl, hn, hle⟩)
      · refine ⟨[], ns, rfl, hprunable, ?_⟩
        show target ≤ usage - 0 + _
        omega
      · refine ⟨m :: pre, post, rfl, (hprune n (by simp)).mp hn, ?_⟩
        rw [hfreed pre fun n hn => mem_append_left _ hn] at hle
        rw [hfirst]
        omega
    · rintro ⟨pre, post, h, hn, hle⟩
      cases pre with
      | nil => exact .inl (by cases h; rfl)
      | cons m' pre =>
        cases h
        refine .inr ⟨pre, post, rfl, (hprune n (by simp)).mpr hn, ?_⟩
        rw [hfreed pre fun n hn => mem_append_left _ hn]
        rw [hfirst] at hle
        omega

end Rcoin
