/-
  The undo data of a block on disk: what is written for an accepted block is read back from
  the undo file, its checksum included, and the block is taken back with it.

  Source: src/undo.h, UndoWriteToDisk and UndoReadFromDisk in src/validation.cpp.  A file is
  its bytes; opening, seeking and writing succeed, and the hash of `CHashWriter` is a parameter.
-/
import Rcoin.Chain.Duplicates
import Rcoin.Chain.Recovery
import Rcoin.Coins.Compressor
import Rcoin.Miner.Template
import Rcoin.UnserializeTransaction

namespace Rcoin

open List Codec Fallible CCoinsViewCache

def MAX_INPUTS_PER_BLOCK : Nat := MAX_BLOCK_WEIGHT / (WITNESS_SCALE_FACTOR * 41)

namespace CTxUndo

def serialize (txundo : CTxUndo) : Option (List UInt8) := do
  let vprevout ← txundo.mapM TxInUndoSerializer.serialize
  return writeCompactSize txundo.length ++ vprevout.flatten

/-- The coins are read into those that `resize` makes. -/
def unserialize : Reader UInt8 IosFailure CTxUndo := fun bytes => do
  let (count, bytes) ← readCompactSize bytes
  failIf (count > MAX_INPUTS_PER_BLOCK) ⟨"Too many input undo records"⟩
  readMany (TxInUndoDeserializer.unserialize Coin.empty) count bytes

end CTxUndo

namespace CBlockUndo

def serialize (blockundo : CBlockUndo) : Option (List UInt8) := do
  let vtxundo ← blockundo.mapM CTxUndo.serialize
  return writeCompactSize blockundo.length ++ vtxundo.flatten

def unserialize : Reader UInt8 IosFailure CBlockUndo := readVector CTxUndo.unserialize

end CBlockUndo

/-- What a file holds once `data` is written at a position. -/
def fileWriteAt (file : List UInt8) (nPos : Nat) (data : List UInt8) : List UInt8 :=
  file.take nPos ++ replicate (nPos - file.length) 0 ++ data ++ file.drop (nPos + data.length)

section

variable (getHash : List UInt8 → Uint256)

/-- The file, and where in it the undo data starts. -/
def undoWriteToDisk (messageStart file : List UInt8) (blockundo : CBlockUndo) (nPos : Nat)
    (hashBlock : Uint256) : Option (List UInt8 × Nat) := do
  let data ← blockundo.serialize
  let header := messageStart ++ leBytes 4 data.length
  let hashChecksum := getHash (leBytes 32 hashBlock ++ data)
  return (fileWriteAt file nPos (header ++ data ++ leBytes 32 hashChecksum), nPos + header.length)

/-- The checksum is taken over the bytes that were read. -/
def undoReadFromDisk (file : List UInt8) (nUndoPos : Nat) (pindex : CBlockIndex) :
    Option CBlockUndo := do
  let filein := file.drop nUndoPos
  let (blockundo, rest) ← (CBlockUndo.unserialize filein).toOption
  let (hashChecksum, _) ← (readLe 32 rest).toOption
  let read := filein.take (filein.length - rest.length)
  if hashChecksum != getHash (leBytes 32 pindex.hashPrevBlock ++ read) then none
  else some blockundo

end

/-! ## Undo data, both ways -/

theorem CTxUndo.restores {txundo : CTxUndo} (hcoins : ∀ coin ∈ txundo, coin.UndoRoundTrip)
    (hlen : txundo.length ≤ MAX_INPUTS_PER_BLOCK) :
    Restores CTxUndo.unserialize CTxUndo.serialize txundo := by
  have hcoin : ∀ coin ∈ txundo, Restores (TxInUndoDeserializer.unserialize .empty)
      TxInUndoSerializer.serialize coin :=
    fun coin hmem => (hcoins coin hmem).imp fun _ h => ⟨h.1, h.2 _⟩
  obtain ⟨vprevout, hwrite, hread⟩ := Restores.many hcoin
  refine ⟨writeCompactSize txundo.length ++ vprevout.flatten, ?_, fun rest => ?_⟩
  · rw [CTxUndo.serialize, hwrite]
    rfl
  · have hmax : txundo.length ≤ MAX_SIZE := le_trans hlen (by decide)
    rw [append_assoc, CTxUndo.unserialize, readCompactSize_exact.read_write hmax]
    exact failIf_bind_eq_ok.mpr ⟨decide_eq_false (by omega), hread rest⟩

theorem CBlockUndo.restores {blockundo : CBlockUndo}
    (h : ∀ txundo ∈ blockundo, Restores CTxUndo.unserialize CTxUndo.serialize txundo)
    (hlen : blockundo.length ≤ MAX_SIZE) :
    Restores CBlockUndo.unserialize CBlockUndo.serialize blockundo := by
  obtain ⟨vtxundo, hwrite, hread⟩ := Restores.many h
  refine ⟨writeCompactSize blockundo.length ++ vtxundo.flatten, ?_, fun rest => ?_⟩
  · rw [CBlockUndo.serialize, hwrite]
    rfl
  · rw [append_assoc, CBlockUndo.unserialize, readVector, readCompactSize_exact.read_write hlen]
    exact hread rest

theorem drop_fileWriteAt (file : List UInt8) (nPos : Nat) (head data : List UInt8) :
    ∃ rest, (fileWriteAt file nPos (head ++ data)).drop (nPos + head.length) = data ++ rest := by
  have hbefore : (file.take nPos ++ replicate (nPos - file.length) 0).length = nPos := by
    rw [length_append, length_take, length_replicate]
    omega
  refine ⟨file.drop (nPos + (head ++ data).length), ?_⟩
  rw [fileWriteAt, append_assoc _ (head ++ data), append_assoc head, ← append_assoc _ head]
  refine drop_left' ?_
  rw [length_append, hbefore]

variable {getHash : List UInt8 → Uint256} {pindex : CBlockIndex} {blockundo : CBlockUndo}

theorem undoReadFromDisk_undoWriteToDisk (hhash : ∀ data, getHash data < 2 ^ 256)
    (h : Restores CBlockUndo.unserialize CBlockUndo.serialize blockundo)
    (messageStart file : List UInt8) (nPos : Nat) :
    ∃ file' nUndoPos,
      undoWriteToDisk getHash messageStart file blockundo nPos pindex.hashPrevBlock =
        some (file', nUndoPos) ∧
      undoReadFromDisk getHash file' nUndoPos pindex = some blockundo := by
  obtain ⟨data, hwrite, hread⟩ := h
  refine ⟨_, _, by rw [undoWriteToDisk, hwrite]; rfl, ?_⟩
  obtain ⟨rest, hrest⟩ := drop_fileWriteAt file nPos (messageStart ++ leBytes 4 data.length)
    (data ++ leBytes 32 (getHash (leBytes 32 pindex.hashPrevBlock ++ data)))
  have hsum := (readLe_exact 32).read_write (hhash (leBytes 32 pindex.hashPrevBlock ++ data)) rest
  rw [← append_assoc _ data, append_assoc data] at hrest
  rw [undoReadFromDisk, hrest, hread]
  -- the bytes that were read are those of the undo data
  have htaken : (data ++ (leBytes 32 (getHash (leBytes 32 pindex.hashPrevBlock ++ data)) ++ rest)).take
      ((data ++ (leBytes 32 (getHash (leBytes 32 pindex.hashPrevBlock ++ data)) ++ rest)).length -
        (leBytes 32 (getHash (leBytes 32 pindex.hashPrevBlock ++ data)) ++ rest).length) = data := by
    rw [@length_append _ data, Nat.add_sub_cancel_right]
    exact take_left
  simp only [Except.toOption, Option.bind_eq_bind, Option.bind_some, hsum, htaken,
    bne_self_eq_false, Bool.false_eq_true, if_false]

/-! ## What the blocks of a chain spend -/

/-- No coin is of the height `n` or above. -/
def HeightsBelow (n : Nat) (m : COutPoint → Option Coin) : Prop :=
  ∀ o coin, m o = some coin → coin.nHeight < n

variable {m : COutPoint → Option Coin} {nHeight n : Nat} {txs : List CTransaction}

theorem HeightsBelow.txsWrites (h : HeightsBelow n m) (hlow : nHeight < n) :
    HeightsBelow n (Maps.writes m (txsWrites nHeight txs)) := by
  induction txs generalizing m with
  | nil => exact h
  | cons tx rest ih =>
    rw [txsWrites_cons, Maps.writes_append]
    refine ih fun o coin hcoin => ?_
    rcases txWrites_some hcoin with hold | ⟨-, hheight, -⟩
    · exact h o coin hold
    · exact hheight ▸ hlow

variable {env : ValidationEnv} {view view' : CCoinsViewCache} {tip : Option CBlockIndex}

theorem CBlockIndex.Extends.nHeight_eq (h : pindex.Extends tip) :
    pindex.nHeight = nextHeight tip := by
  cases tip with
  | none => exact h.1
  | some tip => exact h.1

theorem Reachable.heightsBelow (h : Reachable env BlockFresh view tip) :
    HeightsBelow (nextHeight tip) view.coinAt := by
  induction h with
  | start =>
    intro o coin hcoin
    cases hcoin
  | connect hreach hext hmeets hconn ih =>
    obtain ⟨_, _, _, -, -, hat, -⟩ := connectBlock_spec hreach.coinsOk.1 hmeets hconn
    rw [hat]
    refine HeightsBelow.txsWrites (fun o coin hcoin => ?_) (Nat.lt_succ_self _)
    have hlow := ih o coin hcoin
    rw [← hext.nHeight_eq] at hlow
    exact Nat.lt_succ_of_lt hlow
  | flush hreach hflush ih =>
    show HeightsBelow _ (CCoinsViewCache.toView _).coinAt
    rw [(CCoinsViewCache.flush_spec hreach.coinsOk.1 hflush).1.coinAt]
    exact ih
  | layer hreach ih => exact (CCoinsViewCache.new_spec _ hreach.coinsOk.1).2 ▸ ih

variable {undos : CBlockUndo}

theorem TxsConnected.undoRoundTrip (h : TxsConnected nHeight m txs undos) (hm : CoinsOk m)
    (hlow : HeightsBelow n m) (hheight : nHeight < n) (hn : n ≤ 2 ^ 30)
    (hcb : ∀ tx ∈ txs, tx.isCoinBase = false) (hfresh : Along TxFresh nHeight m txs) :
    ∀ txundo ∈ undos, (∀ coin ∈ txundo, coin.UndoRoundTrip) ∧
      ∃ tx ∈ txs, txundo.length = tx.vin.length := by
  induction h with
  | nil =>
    intro txundo hmem
    cases hmem
  | @cons m tx txs txundo undos head tail ih =>
    have htx : tx ∈ tx :: txs := mem_cons_self ..
    intro txundo' hmem
    rcases mem_cons.mp hmem with rfl | hrest
    · have hspendable := head.spendable (hcb tx htx)
      obtain ⟨hmap, hspent⟩ := undo_eq_of_spendable hspendable
        (head.undo (hcb tx htx) (hfresh.1.distinct (hcb tx htx)))
      refine ⟨fun coin hcoin => ?_, tx, htx, ?_⟩
      · obtain ⟨-, o, ho, hseen⟩ := hspent coin hcoin
        obtain ⟨coin', hseen', hvalue, -⟩ := hspendable o ho
        obtain rfl : coin = coin' := Option.some.inj (hseen.symm.trans hseen')
        have hspendable' := hm.spendable o coin hseen
        rw [CScript.isUnspendable, Bool.or_eq_false_iff, decide_eq_false_iff_not] at hspendable'
        obtain ⟨n', hcode⟩ := Option.isSome_iff_exists.mp
          (Coin.isSome_code.mpr (lt_of_lt_of_le (hlow o coin hseen) hn))
        exact Coin.undoRoundTrip hcode hvalue (not_lt.mp hspendable'.2)
      · have hlen := congrArg length hmap
        rwa [length_map, length_map, CTransaction.prevouts, length_map] at hlen
    · have hlow' : HeightsBelow n (Maps.writes m (txsWrites nHeight [tx])) :=
        hlow.txsWrites hheight
      rw [txsWrites, flatMap_cons, flatMap_nil, append_nil] at hlow'
      obtain ⟨hcoins, t, ht, hlen⟩ := ih (hm.txWrites hfresh.1.unused) hlow'
        (fun t ht => hcb t (mem_cons_of_mem _ ht)) hfresh.2 txundo' hrest
      exact ⟨hcoins, t, mem_cons_of_mem _ ht, hlen⟩

/-! ## Sizes -/

variable {block : CBlock}

theorem vin_length_le (tx : CTransaction) : 41 * tx.vin.length ≤ (tx.serialize false).length := by
  have hinputs : tx.vin.length • 41 ≤ (tx.vin.map fun txin => txin.serialize.length).sum := by
    rw [← length_map (f := fun txin : CTxIn => txin.serialize.length)]
    refine card_nsmul_le_sum _ _ fun k hk => ?_
    obtain ⟨txin, -, rfl⟩ := mem_map.mp hk
    have hsize : 1 ≤ getSizeOfCompactSize txin.scriptSig.length := by
      unfold getSizeOfCompactSize
      split_ifs <;> omega
    rw [length_serializeTxIn]
    omega
  rw [length_serialize_noWitness, length_serializeVector]
  rw [smul_eq_mul] at hinputs
  omega

theorem checkTransactions_inputs (hsize : ∀ tx, env.serializeSize tx = (tx.serialize false).length)
    (h : checkTransactions env txs = .ok ⟨⟩) :
    ∀ tx ∈ txs, tx.vin.length ≤ MAX_INPUTS_PER_BLOCK := by
  induction txs with
  | nil =>
    intro tx hmem
    cases hmem
  | cons tx rest ih =>
    obtain ⟨u, htx, hrest⟩ := bind_eq_ok.mp h
    intro tx' hmem
    rcases mem_cons.mp hmem with rfl | hmem
    · obtain ⟨-, htx⟩ := failIf_bind_eq_ok.mp htx
      obtain ⟨-, htx⟩ := failIf_bind_eq_ok.mp htx
      obtain ⟨hover, -⟩ := failIf_bind_eq_ok.mp htx
      rw [decide_eq_false_iff_not, hsize, WITNESS_SCALE_FACTOR, MAX_BLOCK_WEIGHT] at hover
      have hle := vin_length_le tx'
      show _ ≤ 32000000 / (4 * 41)
      omega
    · exact ih hrest tx' hmem

theorem checkBlock_sizes {fCheckPOW fCheckMerkleRoot : Bool}
    (hsize : ∀ tx, env.serializeSize tx = (tx.serialize false).length)
    (h : checkBlock env block fCheckPOW fCheckMerkleRoot = .ok ⟨⟩) :
    block.vtx.length ≤ MAX_SIZE ∧ ∀ tx ∈ block.vtx, tx.vin.length ≤ MAX_INPUTS_PER_BLOCK := by
  obtain ⟨-, h⟩ := failIf_bind_eq_ok.mp h
  obtain ⟨-, h⟩ := onlyIf_bind_eq_ok.mp h
  obtain ⟨hlen, h⟩ := failIf_bind_eq_ok.mp h
  obtain ⟨-, h⟩ := failIf_bind_eq_ok.mp h
  obtain ⟨-, h⟩ := failIf_bind_eq_ok.mp h
  obtain ⟨u, htxs, -⟩ := bind_eq_ok.mp h
  refine ⟨?_, checkTransactions_inputs hsize htxs⟩
  rw [Bool.or_eq_false_iff, Bool.or_eq_false_iff, decide_eq_false_iff_not, WITNESS_SCALE_FACTOR,
    MAX_BLOCK_WEIGHT] at hlen
  rw [MAX_SIZE]
  omega

/-- The undo data of an accepted block survives the disk: what `UndoReadFromDisk` returns takes
    the block back. -/
theorem disconnectBlock_undoReadFromDisk {env : ValidationEnv} {getHash : List UInt8 → Uint256}
    (hhash : ∀ data, getHash data < 2 ^ 256)
    (hsize : ∀ tx, env.serializeSize tx = (tx.serialize false).length)
    {view view' : CCoinsViewCache} {tip : Option CBlockIndex}
    (hr : Reachable env BlockFresh view tip) {block : CBlock} {pindex : CBlockIndex}
    (hext : pindex.Extends tip) (hheight : pindex.nHeight < 2 ^ 30) {blockundo : CBlockUndo}
    (hfresh : BlockFresh view.coinAt pindex block)
    (h : connectBlock env block pindex view false = .ok (view', blockundo))
    (hleft : BlockMetadataLeft view.coinAt pindex block)
    (messageStart file : List UInt8) (nPos : Nat) :
    ∃ file' nUndoPos view'',
      undoWriteToDisk getHash messageStart file blockundo nPos pindex.hashPrevBlock =
        some (file', nUndoPos) ∧
      disconnectBlock block pindex view' (undoReadFromDisk getHash file' nUndoPos pindex) =
        .ok (.ok, view'') ∧
      view''.coinAt = view.coinAt ∧ view''.hashBlock = pindex.hashPrevBlock := by
  obtain ⟨hc, hm⟩ := hr.coinsOk
  obtain ⟨cb, rest, undo0, hshape, hcoh, hat, -, -, -, hconn⟩ := connectBlock_spec hc hfresh h
  obtain ⟨hcount, hinputs⟩ := checkBlock_sizes hsize (connectBlock_checked h)
  have hfresh' := hfresh
  unfold BlockFresh at hfresh'
  rw [hshape.vtx] at hfresh' hcount hinputs
  have hrestores : Restores CBlockUndo.unserialize CBlockUndo.serialize blockundo := by
    cases hconn with
    | cons head tail =>
      have hlow : HeightsBelow (2 ^ 30) (Maps.writes view.coinAt (txsWrites pindex.nHeight [cb])) := by
        refine HeightsBelow.txsWrites (fun o coin hcoin => ?_) hheight
        have hbelow := hr.heightsBelow o coin hcoin
        rw [← hext.nHeight_eq] at hbelow
        exact hbelow.trans hheight
      rw [txsWrites, flatMap_cons, flatMap_nil, append_nil] at hlow
      have hround := tail.undoRoundTrip (hm.txWrites hfresh'.1.unused) hlow hheight (le_refl _)
        hshape.others hfresh'.2
      refine CBlockUndo.restores (fun txundo hmem => ?_) ?_
      · obtain ⟨hcoins, tx, htx, hlen⟩ := hround txundo hmem
        exact CTxUndo.restores hcoins (hlen ▸ hinputs tx (mem_cons_of_mem _ htx))
      · rw [tail.length_eq]
        exact le_trans (Nat.le_succ _) hcount
  obtain ⟨file', nUndoPos, hwrite, hread⟩ :=
    undoReadFromDisk_undoWriteToDisk hhash hrestores messageStart file nPos
  obtain ⟨view'', he, hat'', -, hhashBlock, -⟩ :=
    (disconnectBlock_spec hm hshape hfresh hconn hcoh hat).1 hleft
  exact ⟨file', nUndoPos, view'', hwrite, hread ▸ he, hat'', hhashBlock⟩

open GenesisSpend in
/-- The undo data of two spent coins, written into a file behind other data. -/
theorem disconnectBlock_undoReadFromDisk_respend :
    let env := { lenientEnv with serializeSize := fun tx => (tx.serialize false).length }
    let getHash := fun data => ofLeBytes data % 2 ^ 256
    ∃ view view' blockundo file' nUndoPos view'',
      connectBlock env respendBlock (GenesisSpend.pindex 101) view false =
        .ok (view', blockundo) ∧ blockundo.map length = [1, 1] ∧
      undoWriteToDisk getHash [1, 2, 3, 4] [9, 9] blockundo 5 1100 = some (file', nUndoPos) ∧
      disconnectBlock respendBlock (GenesisSpend.pindex 101) view'
        (undoReadFromDisk getHash file' nUndoPos (GenesisSpend.pindex 101)) = .ok (.ok, view'') ∧
      view''.coinAt = view.coinAt := by
  intro env getHash
  obtain ⟨⟨view, view', blockundo⟩, hrun, hundo⟩ := exists_of_okAnd (x := connectRespend env)
    (p := fun r => r.2.2.map length = [1, 1]) (by decide +kernel)
  obtain ⟨hr, hat, hconn⟩ := connectRespend_reachable hrun
  have hhash : ∀ data, getHash data < 2 ^ 256 := fun _ => Nat.mod_lt _ (Nat.two_pow_pos 256)
  have hsize : ∀ tx, env.serializeSize tx = (tx.serialize false).length := fun _ => rfl
  obtain ⟨file', nUndoPos, view'', hwrite, hread, hback, -⟩ := disconnectBlock_undoReadFromDisk
    hhash hsize hr ⟨rfl, rfl⟩ (by decide) (hat.symm ▸ respendBlock_fresh) hconn
    (hat.symm ▸ respendBlock_metadata) [1, 2, 3, 4] [9, 9] 5
  exact ⟨view, view', blockundo, file', nUndoPos, view'', hconn, of_decide_eq_true hundo, hwrite,
    hread, hback⟩

end Rcoin
