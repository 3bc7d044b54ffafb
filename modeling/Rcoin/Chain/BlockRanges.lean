/-
  The ranges that `FindBlockPos` and `FindUndoPos` hand out over a run, with flushes that
  prune files in between, and what the record of a file says of its blocks.

  Source: FindBlockPos, FindUndoPos and FlushStateToDisk in src/validation.cpp, CBlockFileInfo
  in src/chain.h.
-/
import Rcoin.Chain.BlockFiles

namespace Rcoin

open List BlockFiles

/-! ## What was handed out -/

/-- `nAddSize` bytes of a file from a position on. -/
structure DiskRange where
  pos : CDiskBlockPos
  nAddSize : Nat
  deriving DecidableEq, Repr

/-- Two ranges of one file with a byte in common. -/
def DiskRange.Overlaps (a b : DiskRange) : Prop :=
  a.pos.nFile = b.pos.nFile ∧ a.pos.nPos < b.pos.nPos + b.nAddSize ∧
    b.pos.nPos < a.pos.nPos + a.nAddSize

instance (a b : DiskRange) : Decidable (a.Overlaps b) := inferInstanceAs (Decidable (_ ∧ _ ∧ _))

/-- A block that was added to a file. -/
structure AddedBlock where
  range : DiskRange
  fKnown : Bool
  /-- Whether the range ends below the size that was recorded for the file. -/
  belowSize : Bool
  nHeight : Nat
  nTime : Nat
  deriving DecidableEq, Repr

/-- The block files with all ranges that were handed out and not pruned since, the newest
    first. -/
structure FileLedger where
  files : BlockFiles := {}
  blocks : List AddedBlock := []
  undos : List DiskRange := []
  deriving DecidableEq, Repr

/-- The calls that hand out positions in the files. -/
inductive FileOp where
  | findBlockPos (fPruneMode diskSpace : Bool) (known : Option CDiskBlockPos)
      (nAddSize nHeight nTime : Nat)
  | findUndoPos (fPruneMode diskSpace : Bool) (nFile nAddSize : Nat)
  /-- A flush writes the records of the dirty files, and may prune files. -/
  | flush (setFilesToPrune : List Nat) (index : FileIndex)

namespace FileOp

def apply (l : FileLedger) : FileOp → Option FileLedger
  | .findBlockPos fPruneMode diskSpace known nAddSize nHeight nTime => do
    let (_, pos, files) ← l.files.findBlockPos fPruneMode diskSpace known nAddSize nHeight nTime
    return { l with
      files := files
      blocks :=
        { range := { pos := pos, nAddSize := nAddSize }
          fKnown := known.isSome
          belowSize := decide (pos.nPos + nAddSize ≤ (files.info pos.nFile).nSize)
          nHeight := nHeight
          nTime := nTime } :: l.blocks }
  | .findUndoPos fPruneMode diskSpace nFile nAddSize =>
    -- the file of a block whose data is there
    if nFile < l.files.vinfoBlockFile.length then
      let (_, pos, files) := l.files.findUndoPos fPruneMode diskSpace nFile nAddSize
      some { l with files := files, undos := { pos := pos, nAddSize := nAddSize } :: l.undos }
    else none
  | .flush setFilesToPrune index =>
    some
      { files := { (pruneAll setFilesToPrune l.files index).1 with setDirtyFileInfo := [] }
        blocks := l.blocks.filter fun b => b.range.pos.nFile ∉ setFilesToPrune
        undos := l.undos.filter fun u => u.pos.nFile ∉ setFilesToPrune }

def run (l : FileLedger) (ops : List FileOp) : Option FileLedger := ops.foldlM apply l

/-- `P` holds of each operation of the run, with the files it meets. -/
def Always (P : FileLedger → FileOp → Prop) : FileLedger → List FileOp → Prop
  | _, [] => True
  | l, op :: ops => P l op ∧ ∀ l', op.apply l = some l' → Always P l' ops

/-- Blocks are smaller than a file, and undo data is for a block that is in a file. -/
def Legal (l : FileLedger) : FileOp → Prop
  | .findBlockPos _ _ _ nAddSize _ _ => nAddSize < MAX_BLOCKFILE_SIZE
  | .findUndoPos _ _ nFile _ => nFile < l.files.vinfoBlockFile.length
  | .flush _ _ => True

instance (l : FileLedger) (op : FileOp) : Decidable (Legal l op) :=
  match op with
  | .findBlockPos .. => inferInstanceAs (Decidable (_ < _))
  | .findUndoPos .. => inferInstanceAs (Decidable (_ < _))
  | .flush .. => inferInstanceAs (Decidable True)

end FileOp

open FileOp

/-! ## What is expected of them -/

def CBlockFileInfo.Covers (info : CBlockFileInfo) (nHeight nTime : Nat) : Prop :=
  info.nHeightFirst ≤ nHeight ∧ nHeight ≤ info.nHeightLast ∧ info.nTimeFirst ≤ nTime ∧
    nTime ≤ info.nTimeLast

namespace FileLedger

/-- A new range overlaps no range handed out before, and no known one below the recorded
    size. -/
def BlocksApart (l : FileLedger) : Prop :=
  l.blocks.Pairwise fun new old => new.fKnown = false → (old.fKnown = false ∨ old.belowSize = true) →
    ¬ new.range.Overlaps old.range

def UndosApart (l : FileLedger) : Prop := l.undos.Pairwise fun new old => ¬ new.Overlaps old

/-- A file whose last block went to a new range is smaller than a file may be. -/
def SizesBounded (l : FileLedger) : Prop :=
  ∀ n b, l.blocks.find? (fun b => b.range.pos.nFile == n) = some b → b.fKnown = false →
    (l.files.info n).nSize < MAX_BLOCKFILE_SIZE

/-- The heights and times recorded for a file are around those of its blocks. -/
def Covers (l : FileLedger) : Prop :=
  ∀ b ∈ l.blocks, (l.files.info b.range.pos.nFile).Covers b.nHeight b.nTime

end FileLedger

/-! ## When they hold -/

/-- The search of `FindBlockPos` comes to file `n`: those before it have no room. -/
def BlockFiles.Reaches (files : BlockFiles) (nAddSize n : Nat) : Prop :=
  files.nLastBlockFile ≤ n ∧ ∀ k, files.nLastBlockFile ≤ k → k < n →
    MAX_BLOCKFILE_SIZE ≤ addUnsigned (files.info k).nSize nAddSize

namespace FileOp

/-- The size of a file to which the search comes does not wrap. -/
def SizeFits (l : FileLedger) : FileOp → Prop
  | .findBlockPos _ _ none nAddSize _ _ =>
    ∀ n, l.files.Reaches nAddSize n → (l.files.info n).nSize + nAddSize < 2 ^ 32
  | _ => True

/-- The number of blocks of the file does not wrap. -/
def CountFits (l : FileLedger) : FileOp → Prop
  | .findBlockPos _ _ none nAddSize _ _ =>
    ∀ n, l.files.Reaches nAddSize n → (l.files.info n).nBlocks + 1 < 2 ^ 32
  | .findBlockPos _ _ (some pos) _ _ _ => (l.files.info pos.nFile).nBlocks + 1 < 2 ^ 32
  | _ => True

/-- The size of the undo file does not wrap. -/
def UndoFits (l : FileLedger) : FileOp → Prop
  | .findUndoPos _ _ nFile nAddSize => (l.files.info nFile).nUndoSize + nAddSize < 2 ^ 32
  | _ => True

end FileOp

/-! ## What a call does -/

namespace BlockFiles

variable {files files' : BlockFiles} {nAddSize nHeight nTime : Nat} {fPruneMode diskSpace found : Bool}
  {pos : CDiskBlockPos}

theorem findFile_spec {infos : List CBlockFileInfo} {nFile n : Nat}
    (h : findFile nAddSize infos nFile = some n) :
    nFile ≤ n ∧ (∀ k, nFile ≤ k → k < n →
        MAX_BLOCKFILE_SIZE ≤ addUnsigned (infos.getD (k - nFile) {}).nSize nAddSize) ∧
      addUnsigned (infos.getD (n - nFile) {}).nSize nAddSize < MAX_BLOCKFILE_SIZE := by
  induction infos generalizing nFile with
  | nil =>
    rw [findFile] at h
    split at h
    · cases h
    next hroom =>
      obtain rfl := Option.some.inj h
      exact ⟨le_rfl, fun k hk hlt => by omega, Nat.lt_of_not_le hroom⟩
  | cons info rest ih =>
    rw [findFile] at h
    split at h
    next hfull =>
      obtain ⟨hle, hpast, hroom⟩ := ih h
      have hsub : ∀ k, nFile + 1 ≤ k →
          (info :: rest).getD (k - nFile) {} = rest.getD (k - (nFile + 1)) {} := by
        intro k hk
        have hpred : k - nFile = k - (nFile + 1) + 1 := by omega
        rw [hpred, getD_cons_succ]
      refine ⟨by omega, fun k hk hlt => ?_, ?_⟩
      · by_cases heq : k = nFile
        · rw [heq, Nat.sub_self, getD_cons_zero]
          exact hfull
        · rw [hsub k (by omega)]
          exact hpast k (by omega) hlt
      · rw [hsub n hle]
        exact hroom
    next hroom =>
      obtain rfl := Option.some.inj h
      refine ⟨le_rfl, fun k hk hlt => by omega, ?_⟩
      rw [Nat.sub_self, getD_cons_zero]
      exact Nat.lt_of_not_le hroom

theorem exists_findFile (hsize : nAddSize < MAX_BLOCKFILE_SIZE) (infos : List CBlockFileInfo)
    (nFile : Nat) : ∃ n, findFile nAddSize infos nFile = some n := by
  induction infos generalizing nFile with
  | nil =>
    have hle : addUnsigned 0 nAddSize ≤ nAddSize := by
      rw [addUnsigned, Nat.zero_add]
      exact Nat.mod_le _ _
    have hlt := Nat.lt_of_le_of_lt hle hsize
    exact ⟨nFile, by rw [findFile, if_neg (Nat.not_le.mpr hlt)]⟩
  | cons info rest ih =>
    rw [findFile]
    split
    · exact ih (nFile + 1)
    · exact ⟨nFile, rfl⟩

theorem exists_findBlockPos (hsize : nAddSize < MAX_BLOCKFILE_SIZE)
    (fPruneMode diskSpace : Bool) (known : Option CDiskBlockPos) (nHeight nTime : Nat)
    (files : BlockFiles) :
    ∃ r, files.findBlockPos fPruneMode diskSpace known nAddSize nHeight nTime = some r := by
  cases known with
  | some pos => exact ⟨_, rfl⟩
  | none =>
    obtain ⟨n, hn⟩ := exists_findFile hsize
      (files.vinfoBlockFile.drop files.nLastBlockFile) files.nLastBlockFile
    obtain ⟨files1, hfiles1⟩ : ∃ files1, (files.resize n).chargeBlock n nHeight nTime
        (fun nSize => addUnsigned nSize nAddSize) = files1 := ⟨_, rfl⟩
    have hbind : files.findBlockPos fPruneMode diskSpace none nAddSize nHeight nTime =
        (findFile nAddSize (files.vinfoBlockFile.drop files.nLastBlockFile)
          files.nLastBlockFile).bind _ := rfl
    rw [hbind, hn, Option.bind_some]
    dsimp only
    rw [hfiles1]
    split
    · cases diskSpace with
      | true => exact ⟨_, rfl⟩
      | false => exact ⟨_, rfl⟩
    · exact ⟨_, rfl⟩

theorem findBlockPos_new
    (h : files.findBlockPos fPruneMode diskSpace none nAddSize nHeight nTime =
      some (found, pos, files')) :
    files.Reaches nAddSize pos.nFile ∧ pos.nPos = (files.info pos.nFile).nSize ∧
      addUnsigned (files.info pos.nFile).nSize nAddSize < MAX_BLOCKFILE_SIZE ∧
      ∀ m, files'.info m = if pos.nFile = m then
          { (files.info m).addBlock nHeight nTime with
            nSize := addUnsigned (files.info m).nSize nAddSize }
        else files.info m := by
  obtain ⟨hfind, hpos, check, files1, hfiles1, hfiles'⟩ := findBlockPos_unknown h
  obtain ⟨hle, hpast, hroom⟩ := findFile_spec hfind
  have hdrop : ∀ k, files.nLastBlockFile ≤ k →
      (files.vinfoBlockFile.drop files.nLastBlockFile).getD (k - files.nLastBlockFile) {} =
        files.info k := by
    intro k hk
    rw [getD_eq_getElem?_getD, getElem?_drop, Nat.add_sub_cancel' hk, info, getD_eq_getElem?_getD]
  rw [hdrop _ hle] at hroom
  refine ⟨⟨hle, fun k hk hlt => ?_⟩, hpos, hroom, fun m => ?_⟩
  · rw [← hdrop k hk]
    exact hpast k hk hlt
  · have hinfo : files'.info m = files1.info m := by
      rw [hfiles']
      cases found <;> rfl
    rw [hinfo, hfiles1]
    exact info_chargeBlock files pos.nFile nHeight nTime (addUnsigned · nAddSize) m

theorem findBlockPos_known {known : CDiskBlockPos}
    (h : files.findBlockPos fPruneMode diskSpace (some known) nAddSize nHeight nTime =
      some (found, pos, files')) :
    pos = known ∧ ∀ m, files'.info m = if pos.nFile = m then
        { (files.info m).addBlock nHeight nTime with
          nSize := max (addUnsigned pos.nPos nAddSize) (files.info m).nSize }
      else files.info m := by
  rw [findBlockPos] at h
  obtain ⟨rfl, rfl, rfl⟩ := h
  exact ⟨rfl, info_chargeBlock files pos.nFile nHeight nTime (max (addUnsigned pos.nPos nAddSize))⟩

theorem findUndoPos_info {nFile : Nat} (hfile : nFile < files.vinfoBlockFile.length)
    (h : files.findUndoPos fPruneMode diskSpace nFile nAddSize = (found, pos, files')) :
    pos = { nFile := nFile, nPos := (files.info nFile).nUndoSize } ∧
      files'.vinfoBlockFile.length = files.vinfoBlockFile.length ∧
      ∀ m, files'.info m = if nFile = m then
          { files.info m with nUndoSize := addUnsigned (files.info m).nUndoSize nAddSize }
        else files.info m := by
  have hinfo : ∀ m, (files.modifyInfo nFile fun info =>
      { info with nUndoSize := addUnsigned info.nUndoSize nAddSize }).info m = if nFile = m then
        { files.info m with nUndoSize := addUnsigned (files.info m).nUndoSize nAddSize }
      else files.info m := by
    intro m
    rw [info_modifyInfo]
    simp only [hfile, and_true]
  rw [findUndoPos] at h
  dsimp only at h
  split at h
  · obtain ⟨rfl, rfl, rfl⟩ := h
    exact ⟨rfl, length_modify .., hinfo⟩
  · obtain ⟨rfl, rfl, rfl⟩ := h
    exact ⟨rfl, length_modify .., hinfo⟩

end BlockFiles

/-! ## Steps -/

namespace FileOp

variable {l l' : FileLedger}

theorem apply_findBlockPos {fPruneMode diskSpace : Bool} {known : Option CDiskBlockPos}
    {nAddSize nHeight nTime : Nat}
    (h : (findBlockPos fPruneMode diskSpace known nAddSize nHeight nTime).apply l = some l') :
    ∃ pos nSize, l'.undos = l.undos ∧
      l'.blocks =
        { range := { pos := pos, nAddSize := nAddSize }
          fKnown := known.isSome
          belowSize := decide (pos.nPos + nAddSize ≤ nSize)
          nHeight := nHeight
          nTime := nTime } :: l.blocks ∧
      (∀ m, l'.files.info m = if pos.nFile = m then
          { (l.files.info m).addBlock nHeight nTime with nSize := nSize }
        else l.files.info m) ∧
      match known with
      | some known => pos = known ∧
          nSize = max (addUnsigned pos.nPos nAddSize) (l.files.info pos.nFile).nSize
      | none => l.files.Reaches nAddSize pos.nFile ∧ pos.nPos = (l.files.info pos.nFile).nSize ∧
          nSize = addUnsigned (l.files.info pos.nFile).nSize nAddSize ∧
          nSize < MAX_BLOCKFILE_SIZE := by
  obtain ⟨⟨found, pos, files'⟩, hfind, h⟩ := Option.bind_eq_some_iff.mp h
  obtain rfl := Option.some.inj h
  cases known with
  | some known =>
    obtain ⟨rfl, hinfo⟩ := findBlockPos_known hfind
    have hself := hinfo pos.nFile
    rw [if_pos rfl] at hself
    refine ⟨pos, _, rfl, by rw [hself], fun m => ?_, rfl, rfl⟩
    rw [hinfo]
    split
    next heq => rw [heq]
    next => rfl
  | none =>
    obtain ⟨hreaches, hpos, hroom, hinfo⟩ := findBlockPos_new hfind
    have hself := hinfo pos.nFile
    rw [if_pos rfl] at hself
    refine ⟨pos, _, rfl, by rw [hself], fun m => ?_, hreaches, hpos, rfl, hroom⟩
    rw [hinfo]
    split
    next heq => rw [heq]
    next => rfl

theorem apply_findUndoPos {fPruneMode diskSpace : Bool} {nFile nAddSize : Nat}
    (h : (findUndoPos fPruneMode diskSpace nFile nAddSize).apply l = some l') :
    l'.blocks = l.blocks ∧
      l'.undos =
        { pos := { nFile := nFile, nPos := (l.files.info nFile).nUndoSize }
          nAddSize := nAddSize } :: l.undos ∧
      ∀ m, l'.files.info m = if nFile = m then
          { l.files.info m with nUndoSize := addUnsigned (l.files.info m).nUndoSize nAddSize }
        else l.files.info m := by
  rw [apply] at h
  split at h
  next hfile =>
    obtain ⟨⟨found, pos, files'⟩, hfind⟩ :
        ∃ r, l.files.findUndoPos fPruneMode diskSpace nFile nAddSize = r := ⟨_, rfl⟩
    rw [hfind] at h
    obtain rfl := Option.some.inj h
    obtain ⟨rfl, -, hinfo⟩ := findUndoPos_info hfile hfind
    exact ⟨rfl, rfl, hinfo⟩
  next => nomatch h

theorem apply_flush {setFilesToPrune : List Nat} {index : FileIndex}
    (h : (flush setFilesToPrune index).apply l = some l') :
    l'.blocks = l.blocks.filter (fun b => b.range.pos.nFile ∉ setFilesToPrune) ∧
      l'.undos = l.undos.filter (fun u => u.pos.nFile ∉ setFilesToPrune) ∧
      ∀ m, l'.files.info m = if m ∈ setFilesToPrune then {} else l.files.info m := by
  obtain ⟨rfl⟩ := h
  exact ⟨rfl, rfl, info_pruneAll setFilesToPrune l.files index⟩

theorem exists_apply {op : FileOp} (hlegal : Legal l op) : ∃ l', op.apply l = some l' := by
  cases op with
  | findBlockPos fPruneMode diskSpace known nAddSize nHeight nTime =>
    obtain ⟨⟨found, pos, files⟩, hr⟩ :=
      exists_findBlockPos hlegal fPruneMode diskSpace known nHeight nTime l.files
    rw [apply, hr]
    exact ⟨_, rfl⟩
  | findUndoPos fPruneMode diskSpace nFile nAddSize =>
    obtain ⟨⟨found, pos, files⟩, hfind⟩ :
        ∃ r, l.files.findUndoPos fPruneMode diskSpace nFile nAddSize = r := ⟨_, rfl⟩
    have hfile : nFile < l.files.vinfoBlockFile.length := hlegal
    rw [apply, if_pos hfile, hfind]
    exact ⟨_, rfl⟩
  | flush setFilesToPrune index => exact ⟨_, rfl⟩

theorem run_preserves {I : FileLedger → Prop} {P : FileLedger → FileOp → Prop}
    (hstep : ∀ {l l' : FileLedger} {op : FileOp}, I l → P l op → op.apply l = some l' → I l')
    {ops : List FileOp} (h : I l) (hops : Always P l ops) (hrun : run l ops = some l') : I l' := by
  induction ops generalizing l with
  | nil => rwa [← Option.some.inj hrun]
  | cons op ops ih =>
    obtain ⟨l1, happly, hrun⟩ := Option.bind_eq_some_iff.mp hrun
    exact ih (hstep h hops.1 happly) (hops.2 l1 happly) hrun

theorem exists_run {ops : List FileOp} (hlegal : Always Legal l ops) :
    ∃ l', run l ops = some l' := by
  induction ops generalizing l with
  | nil => exact ⟨l, rfl⟩
  | cons op ops ih =>
    obtain ⟨l1, happly⟩ := exists_apply hlegal.1
    rw [run, foldlM_cons, happly]
    exact ih (hlegal.2 l1 happly)

end FileOp

/-! ## Block ranges -/

/-- All ranges that count end below the recorded size, where the next one begins. -/
structure BlocksInv (l : FileLedger) : Prop where
  apart : l.BlocksApart
  within : ∀ b ∈ l.blocks, (b.fKnown = false ∨ b.belowSize = true) →
    b.range.pos.nPos + b.range.nAddSize ≤ (l.files.info b.range.pos.nFile).nSize

theorem DiskRange.not_overlaps {a b : DiskRange}
    (h : a.pos.nFile = b.pos.nFile → b.pos.nPos + b.nAddSize ≤ a.pos.nPos) : ¬ a.Overlaps b := by
  rintro ⟨hfile, hlt, -⟩
  have := h hfile
  omega

variable {l l' : FileLedger}

theorem BlocksInv.step (h : BlocksInv l) {op : FileOp} (hfits : SizeFits l op)
    (happly : op.apply l = some l') : BlocksInv l' := by
  cases op with
  | findBlockPos fPruneMode diskSpace known nAddSize nHeight nTime =>
    obtain ⟨pos, nSize, -, hblocks, hinfo, hcase⟩ := apply_findBlockPos happly
    -- the recorded size does not go down
    have hgrows : (l.files.info pos.nFile).nSize ≤ nSize := by
      cases known with
      | some known => exact hcase.2 ▸ le_max_right _ _
      | none =>
        have hlt := hfits _ hcase.1
        rw [hcase.2.2.1, addUnsigned, Nat.mod_eq_of_lt hlt]
        exact Nat.le_add_right _ _
    have hsize : ∀ m, (l.files.info m).nSize ≤ (l'.files.info m).nSize := by
      intro m
      rw [hinfo]
      split
      next heq => exact heq ▸ hgrows
      next => exact le_rfl
    refine ⟨?_, fun b hb hcounts => ?_⟩
    · rw [FileLedger.BlocksApart, hblocks]
      refine pairwise_cons.mpr ⟨fun old hold hnew hcounts => ?_, h.apart⟩
      cases known with
      | some known => exact nomatch hnew
      | none =>
        refine DiskRange.not_overlaps fun hfile => ?_
        have hend := h.within old hold hcounts
        rw [← hfile] at hend
        exact hcase.2.1 ▸ hend
    · rw [hblocks] at hb
      rcases mem_cons.mp hb with rfl | hb
      · show pos.nPos + nAddSize ≤ (l'.files.info pos.nFile).nSize
        rw [hinfo, if_pos rfl]
        rcases hcounts with hnew | hbelow
        · cases known with
          | some known => exact nomatch hnew
          | none =>
            have hlt := hfits _ hcase.1
            show pos.nPos + nAddSize ≤ nSize
            rw [hcase.2.2.1, hcase.2.1, addUnsigned, Nat.mod_eq_of_lt hlt]
        · exact of_decide_eq_true hbelow
      · exact le_trans (h.within b hb hcounts) (hsize _)
  | findUndoPos fPruneMode diskSpace nFile nAddSize =>
    obtain ⟨hblocks, -, hinfo⟩ := apply_findUndoPos happly
    refine ⟨?_, fun b hb hcounts => ?_⟩
    · rw [FileLedger.BlocksApart, hblocks]
      exact h.apart
    · rw [hblocks] at hb
      have hsame : (l'.files.info b.range.pos.nFile).nSize =
          (l.files.info b.range.pos.nFile).nSize := by
        rw [hinfo]
        split <;> rfl
      rw [hsame]
      exact h.within b hb hcounts
  | flush setFilesToPrune index =>
    obtain ⟨hblocks, -, hinfo⟩ := apply_flush happly
    refine ⟨?_, fun b hb hcounts => ?_⟩
    · rw [FileLedger.BlocksApart, hblocks]
      exact h.apart.filter _
    · rw [hblocks] at hb
      obtain ⟨hb, hkept⟩ := mem_filter.mp hb
      rw [hinfo, if_neg (of_decide_eq_true hkept)]
      exact h.within b hb hcounts

theorem sizesBounded_step (h : l.SizesBounded) {op : FileOp} (happly : op.apply l = some l') :
    l'.SizesBounded := by
  intro n b hfind hnew
  cases op with
  | findBlockPos fPruneMode diskSpace known nAddSize nHeight nTime =>
    obtain ⟨pos, nSize, -, hblocks, hinfo, hcase⟩ := apply_findBlockPos happly
    rw [hblocks, find?_cons] at hfind
    rw [hinfo]
    split at hfind
    next hfile =>
      obtain rfl := Option.some.inj hfind
      rw [if_pos (beq_iff_eq.mp hfile)]
      cases known with
      | some known => exact nomatch hnew
      | none => exact hcase.2.2.2
    next hfile =>
      rw [if_neg (beq_eq_false_iff_ne.mp hfile)]
      exact h n b hfind hnew
  | findUndoPos fPruneMode diskSpace nFile nAddSize =>
    obtain ⟨hblocks, -, hinfo⟩ := apply_findUndoPos happly
    rw [hblocks] at hfind
    have hsame : (l'.files.info n).nSize = (l.files.info n).nSize := by
      rw [hinfo]
      split <;> rfl
    rw [hsame]
    exact h n b hfind hnew
  | flush setFilesToPrune index =>
    obtain ⟨hblocks, -, hinfo⟩ := apply_flush happly
    have hkept := mem_of_find?_eq_some hfind
    rw [hblocks, mem_filter] at hkept
    have hfile : b.range.pos.nFile = n := beq_iff_eq.mp (find?_some hfind :)
    have hnot : n ∉ setFilesToPrune := hfile ▸ of_decide_eq_true hkept.2
    rw [hinfo, if_neg hnot]
    refine h n b ?_ hnew
    rw [hblocks, find?_filter] at hfind
    rw [← hfind]
    congr 1
    funext x
    by_cases hx : x.range.pos.nFile = n
    · simp [hx, hnot]
    · simp [hx]

/-! ## Heights and times -/

theorem CBlockFileInfo.covers_addBlock (info : CBlockFileInfo) (nHeight nTime : Nat) :
    (info.addBlock nHeight nTime).Covers nHeight nTime := by
  unfold CBlockFileInfo.Covers CBlockFileInfo.addBlock
  dsimp only
  refine ⟨?_, ?_, ?_, ?_⟩ <;> split <;> omega

theorem CBlockFileInfo.Covers.addBlock {info : CBlockFileInfo} {h t : Nat} (hcovers : info.Covers h t)
    (hnonempty : info.nBlocks ≠ 0) (nHeight nTime : Nat) :
    (info.addBlock nHeight nTime).Covers h t := by
  obtain ⟨h1, h2, h3, h4⟩ := hcovers
  unfold CBlockFileInfo.Covers CBlockFileInfo.addBlock
  dsimp only
  refine ⟨?_, ?_, ?_, ?_⟩ <;> split <;> omega

/-- The records of the files cover the blocks in them, and count them. -/
structure CoversInv (l : FileLedger) : Prop where
  covers : l.Covers
  nonempty : ∀ b ∈ l.blocks, (l.files.info b.range.pos.nFile).nBlocks ≠ 0

theorem CoversInv.step (h : CoversInv l) {op : FileOp} (hfits : CountFits l op)
    (happly : op.apply l = some l') : CoversInv l' := by
  cases op with
  | findBlockPos fPruneMode diskSpace known nAddSize nHeight nTime =>
    obtain ⟨pos, nSize, -, hblocks, hinfo, hcase⟩ := apply_findBlockPos happly
    -- a count that wraps to 0 would let `AddBlock` start again
    have hlt : (l.files.info pos.nFile).nBlocks + 1 < 2 ^ 32 := by
      cases known with
      | some known => exact hcase.1 ▸ hfits
      | none => exact hfits _ hcase.1
    have hcount : (l'.files.info pos.nFile).nBlocks = (l.files.info pos.nFile).nBlocks + 1 := by
      rw [hinfo, if_pos rfl]
      exact Nat.mod_eq_of_lt hlt
    have hcovers : ∀ h t, ((l.files.info pos.nFile).addBlock nHeight nTime).Covers h t →
        (l'.files.info pos.nFile).Covers h t := by
      intro h t hcov
      rw [hinfo, if_pos rfl]
      exact hcov
    refine ⟨fun b hb => ?_, fun b hb => ?_⟩
    · rw [hblocks] at hb
      rcases mem_cons.mp hb with rfl | hb
      · exact hcovers _ _ (CBlockFileInfo.covers_addBlock _ _ _)
      · by_cases hfile : pos.nFile = b.range.pos.nFile
        · rw [← hfile]
          refine hcovers _ _ (.addBlock ?_ ?_ nHeight nTime)
          · exact hfile ▸ h.covers b hb
          · exact hfile ▸ h.nonempty b hb
        · rw [hinfo, if_neg hfile]
          exact h.covers b hb
    · by_cases hfile : pos.nFile = b.range.pos.nFile
      · rw [← hfile, hcount]
        exact Nat.succ_ne_zero _
      · rw [hinfo, if_neg hfile]
        rw [hblocks] at hb
        rcases mem_cons.mp hb with rfl | hb
        · exact absurd rfl hfile
        · exact h.nonempty b hb
  | findUndoPos fPruneMode diskSpace nFile nAddSize =>
    obtain ⟨hblocks, -, hinfo⟩ := apply_findUndoPos happly
    refine ⟨fun b hb => ?_, fun b hb => ?_⟩
    · rw [hblocks] at hb
      have hcov := h.covers b hb
      rw [hinfo]
      split
      · exact hcov
      · exact hcov
    · rw [hblocks] at hb
      have hne := h.nonempty b hb
      rw [hinfo]
      split
      · exact hne
      · exact hne
  | flush setFilesToPrune index =>
    obtain ⟨hblocks, -, hinfo⟩ := apply_flush happly
    have hkept : ∀ b ∈ l'.blocks, b ∈ l.blocks ∧ l'.files.info b.range.pos.nFile =
        l.files.info b.range.pos.nFile := by
      intro b hb
      rw [hblocks] at hb
      obtain ⟨hb, hkept⟩ := mem_filter.mp hb
      exact ⟨hb, by rw [hinfo, if_neg (of_decide_eq_true hkept)]⟩
    refine ⟨fun b hb => ?_, fun b hb => ?_⟩
    · rw [(hkept b hb).2]
      exact h.covers b (hkept b hb).1
    · rw [(hkept b hb).2]
      exact h.nonempty b (hkept b hb).1

/-! ## Undo ranges -/

/-- Undo data is within the undo size of its file, and apart. -/
structure UndosInv (l : FileLedger) : Prop where
  apart : l.UndosApart
  within : ∀ u ∈ l.undos, u.pos.nPos + u.nAddSize ≤ (l.files.info u.pos.nFile).nUndoSize

theorem UndosInv.step (h : UndosInv l) {op : FileOp} (hfits : UndoFits l op)
    (happly : op.apply l = some l') : UndosInv l' := by
  cases op with
  | findBlockPos fPruneMode diskSpace known nAddSize nHeight nTime =>
    obtain ⟨pos, nSize, hundos, -, hinfo, -⟩ := apply_findBlockPos happly
    refine ⟨?_, fun u hu => ?_⟩
    · rw [FileLedger.UndosApart, hundos]
      exact h.apart
    · rw [hundos] at hu
      have hend := h.within u hu
      rw [hinfo]
      split
      · exact hend
      · exact hend
  | findUndoPos fPruneMode diskSpace nFile nAddSize =>
    obtain ⟨-, hundos, hinfo⟩ := apply_findUndoPos happly
    have hlt : (l.files.info nFile).nUndoSize + nAddSize < 2 ^ 32 := hfits
    have hself : (l'.files.info nFile).nUndoSize = (l.files.info nFile).nUndoSize + nAddSize := by
      rw [hinfo, if_pos rfl]
      exact Nat.mod_eq_of_lt hlt
    refine ⟨?_, fun u hu => ?_⟩
    · rw [FileLedger.UndosApart, hundos]
      refine pairwise_cons.mpr ⟨fun old hold => DiskRange.not_overlaps fun hfile => ?_, h.apart⟩
      have hend := h.within old hold
      rw [← hfile] at hend
      exact hend
    · rw [hundos] at hu
      rcases mem_cons.mp hu with rfl | hu
      · exact le_of_eq hself.symm
      · have hend := h.within u hu
        by_cases hfile : nFile = u.pos.nFile
        · rw [← hfile] at hend ⊢
          rw [hself]
          omega
        · rw [hinfo, if_neg hfile]
          exact hend
  | flush setFilesToPrune index =>
    obtain ⟨-, hundos, hinfo⟩ := apply_flush happly
    refine ⟨?_, fun u hu => ?_⟩
    · rw [FileLedger.UndosApart, hundos]
      exact h.apart.filter _
    · rw [hundos] at hu
      obtain ⟨hu, hkept⟩ := mem_filter.mp hu
      rw [hinfo, if_neg (of_decide_eq_true hkept)]
      exact h.within u hu

/-! ## Runs -/

/-- Every legal run goes through, and what it hands out is apart, bounded and recorded as long
    as the 32-bit counters in question do not wrap; the bound on the size of a file needs no
    condition. -/
theorem run_fileRanges {ops : List FileOp} (hlegal : Always Legal {} ops) :
    ∃ l, run {} ops = some l ∧ l.SizesBounded ∧
      (Always SizeFits {} ops → l.BlocksApart) ∧
      (Always CountFits {} ops → l.Covers) ∧
      (Always UndoFits {} ops → l.UndosApart) := by
  obtain ⟨l, hrun⟩ := exists_run hlegal
  have hblocks : BlocksInv {} := ⟨.nil, nofun⟩
  have hcovers : CoversInv {} := ⟨nofun, nofun⟩
  have hundos : UndosInv {} := ⟨.nil, nofun⟩
  refine ⟨l, hrun, ?_, fun hfits => ?_, fun hfits => ?_, fun hfits => ?_⟩
  · refine run_preserves (fun h _ => sizesBounded_step h) (fun n b hb => ?_) hlegal hrun
    exact nomatch hb
  · exact (run_preserves (fun h hfits => h.step hfits) hblocks hfits hrun).apart
  · exact (run_preserves (fun h hfits => h.step hfits) hcovers hfits hrun).covers
  · exact (run_preserves (fun h hfits => h.step hfits) hundos hfits hrun).apart

/-! ## Runs that can be checked -/

namespace FileOp

def checkAlways (p : FileLedger → FileOp → Bool) : FileLedger → List FileOp → Bool
  | _, [] => true
  | l, op :: ops => p l op && (op.apply l).all fun l' => checkAlways p l' ops

theorem always_of_check {P : FileLedger → FileOp → Prop} {p : FileLedger → FileOp → Bool}
    (hp : ∀ l op, p l op = true → P l op) {ops : List FileOp} {l : FileLedger}
    (h : checkAlways p l ops = true) : Always P l ops := by
  induction ops generalizing l with
  | nil => trivial
  | cons op ops ih =>
    obtain ⟨hop, hrest⟩ := Bool.and_eq_true_iff.mp h
    refine ⟨hp l op hop, fun l' happly => ih ?_⟩
    rwa [happly] at hrest

/-- Nothing wraps in the file that is furthest on. -/
def fits (l : FileLedger) : FileOp → Bool
  | .findBlockPos _ _ _ nAddSize _ _ =>
    decide (nAddSize < 2 ^ 32) && l.files.vinfoBlockFile.all fun info =>
      decide (info.nSize + nAddSize < 2 ^ 32) && decide (info.nBlocks + 1 < 2 ^ 32)
  | .findUndoPos _ _ nFile nAddSize => decide ((l.files.info nFile).nUndoSize + nAddSize < 2 ^ 32)
  | .flush _ _ => true

theorem fits_spec {l : FileLedger} {op : FileOp} (h : fits l op = true) :
    SizeFits l op ∧ CountFits l op ∧ UndoFits l op := by
  cases op with
  | findBlockPos fPruneMode diskSpace known nAddSize nHeight nTime =>
    obtain ⟨hadd, hall⟩ := Bool.and_eq_true_iff.mp h
    have hinfo : ∀ n, (l.files.info n).nSize + nAddSize < 2 ^ 32 ∧
        (l.files.info n).nBlocks + 1 < 2 ^ 32 := by
      intro n
      rw [BlockFiles.info, getD_eq_getElem?_getD]
      cases hget : l.files.vinfoBlockFile[n]? with
      | none =>
        refine ⟨?_, by decide⟩
        rw [Option.getD_none]
        show 0 + nAddSize < 2 ^ 32
        rw [Nat.zero_add]
        exact of_decide_eq_true hadd
      | some info =>
        have := all_eq_true.mp hall info (mem_of_getElem? hget)
        rw [Bool.and_eq_true, decide_eq_true_eq, decide_eq_true_eq] at this
        exact this
    cases known with
    | none => exact ⟨fun n _ => (hinfo n).1, fun n _ => (hinfo n).2, trivial⟩
    | some pos => exact ⟨trivial, (hinfo pos.nFile).2, trivial⟩
  | findUndoPos fPruneMode diskSpace nFile nAddSize =>
    have hlt : (l.files.info nFile).nUndoSize + nAddSize < 2 ^ 32 := of_decide_eq_true h
    exact ⟨trivial, trivial, hlt⟩
  | flush setFilesToPrune index => exact ⟨trivial, trivial, trivial⟩

end FileOp

/-- Two new blocks with undo data, a known one in the next file, and a flush that prunes the
    first file. -/
def ordinaryRun : List FileOp :=
  [.findBlockPos false true none 2000 0 100,
    .findUndoPos false true 0 41,
    .findBlockPos false true none 2000 1 90,
    .findBlockPos false true (some { nFile := 1, nPos := 8 }) 3000 2 110,
    .findUndoPos false true 0 41,
    .flush [0] { mapBlockIndex := fun _ => none, setDirtyBlockIndex := fun _ => false },
    .findBlockPos false true none 2000 3 120]

theorem ordinaryRun_ranges : ∃ l, run {} ordinaryRun = some l ∧ l.SizesBounded ∧
    l.BlocksApart ∧ l.Covers ∧ l.UndosApart := by
  have hlegal : Always Legal {} ordinaryRun :=
    always_of_check (p := fun l op => decide (Legal l op)) (fun _ _ => of_decide_eq_true)
      (by decide +kernel)
  have hfits : checkAlways fits {} ordinaryRun = true := by decide +kernel
  obtain ⟨l, hrun, hsizes, hblocks, hcovers, hundos⟩ := run_fileRanges hlegal
  exact ⟨l, hrun, hsizes, hblocks (always_of_check (fun _ _ h => (fits_spec h).1) hfits),
    hcovers (always_of_check (fun _ _ h => (fits_spec h).2.1) hfits),
    hundos (always_of_check (fun _ _ h => (fits_spec h).2.2) hfits)⟩

/-- A new block, one that is known at the end of 4 GiB, and two new ones: the size wraps to
    1000, and the last block is written over the first. -/
def wrappingRun : List FileOp :=
  [.findBlockPos false true none 2000 0 100,
    .findBlockPos false true (some { nFile := 0, nPos := 2 ^ 32 - 3000 }) 2000 1 101,
    .findBlockPos false true none 2000 2 102,
    .findBlockPos false true none 2000 3 103]

/-- A block and then 19 times undo data of 240,000,000 bytes for blocks of its file. -/
def wrappingUndos : List FileOp :=
  .findBlockPos false true none 2000 0 100 ::
    List.replicate 19 (.findUndoPos false true 0 240000000)

instance (l : FileLedger) : Decidable l.BlocksApart :=
  inferInstanceAs (Decidable (List.Pairwise _ _))

instance (l : FileLedger) : Decidable l.UndosApart :=
  inferInstanceAs (Decidable (List.Pairwise _ _))

/-- Where 32-bit sums wrap around, ranges of blocks overlap, and so do those of undo data. -/
theorem wrapping_runs_overlap :
    (∃ l, Always Legal {} wrappingRun ∧ run {} wrappingRun = some l ∧ ¬ l.BlocksApart) ∧
      ∃ l, Always Legal {} wrappingUndos ∧ run {} wrappingUndos = some l ∧ ¬ l.UndosApart := by
  have hlegal : ∀ ops, checkAlways (fun l op => decide (Legal l op)) {} ops = true →
      Always Legal {} ops := fun ops => always_of_check fun _ _ => of_decide_eq_true
  have hblocks : (run {} wrappingRun).any (fun l => !decide l.BlocksApart) = true := by
    decide +kernel
  have hundos : (run {} wrappingUndos).any (fun l => !decide l.UndosApart) = true := by
    decide +kernel
  obtain ⟨l, hl, hapart⟩ := (Option.any_eq_true _ _).mp hblocks
  obtain ⟨l', hl', hapart'⟩ := (Option.any_eq_true _ _).mp hundos
  rw [Bool.not_eq_true', decide_eq_false_iff_not] at hapart hapart'
  exact ⟨⟨l, hlegal _ (by decide +kernel), hl, hapart⟩,
    l', hlegal _ (by decide +kernel), hl', hapart'⟩

end Rcoin
