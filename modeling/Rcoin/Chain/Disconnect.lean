/-
  When `DisconnectBlock` takes back what `ConnectBlock` did.  A block can be
  undone when no transaction names an outpoint twice or recreates outputs that
  are still unspent, and when each spent coin of height 0 (whose undo record
  has no metadata) leaves another output of its transaction to copy them from.
-/
import Rcoin.Coins.BatchWrite
import Rcoin.Chain.Undo

namespace Rcoin

open Maps Fallible CCoinsViewCache List Option

/-! ## The conditions -/

/-- The coins a database of this program holds: outputs that can be spent, and
    outputs of one transaction with one height and coinbase flag. -/
structure CoinsOk (m : COutPoint → Option Coin) : Prop where
  spendable : ∀ o coin, m o = some coin → coin.out.scriptPubKey.isUnspendable = false
  uniform : ∀ txid n n' coin coin', m ⟨txid, n⟩ = some coin → m ⟨txid, n'⟩ = some coin' →
    coin.nHeight = coin'.nHeight ∧ coin.fCoinBase = coin'.fCoinBase

theorem CoinsOk.empty : CoinsOk fun _ => none :=
  ⟨fun _ _ h => (nomatch h), fun _ _ _ _ _ h => (nomatch h)⟩

/-- The transaction names no outpoint twice, and no output with its id is
    unspent. -/
structure TxFresh (m : COutPoint → Option Coin) (tx : CTransaction) : Prop where
  distinct : tx.isCoinBase = false → tx.prevouts.Nodup
  unused : ∀ j, m ⟨tx.hash, j⟩ = none

/-- When a coin of height 0 is spent, another output of its transaction that
    `AccessByTxid` finds is left. -/
def MetadataLeft : (COutPoint → Option Coin) → List COutPoint → Prop
  | _, [] => True
  | m, o :: rest =>
    ((∃ coin, m o = some coin ∧ coin.nHeight = 0) →
      ∃ n, n < MAX_OUTPUTS_PER_BLOCK ∧ (write m (o, none) ⟨o.hash, n⟩).isSome = true) ∧
    MetadataLeft (write m (o, none)) rest

def TxMetadataLeft (m : COutPoint → Option Coin) (tx : CTransaction) : Prop :=
  tx.isCoinBase = false → MetadataLeft m tx.prevouts

/-! ## Coins stay as they should be -/

variable {nHeight : Nat} {tx : CTransaction} {coin : Coin}

theorem mem_txWrites_some {w : Write COutPoint Coin} (hw : w ∈ txWrites nHeight tx)
    (hcoin : w.2 = some coin) :
    w.1.hash = tx.hash ∧ coin.nHeight = nHeight ∧ coin.fCoinBase = tx.isCoinBase ∧
      coin.out.scriptPubKey.isUnspendable = false ∧ w ∈ addWrites tx nHeight := by
  rcases mem_append.mp hw with hspend | hadd
  · -- a spend sets nothing
    split at hspend
    · cases hspend
    · obtain ⟨o, -, rfl⟩ := List.mem_map.mp hspend
      cases hcoin
  · obtain ⟨j, txout, -, hu, rfl⟩ := mem_addWritesFrom hadd
    cases hcoin
    exact ⟨rfl, rfl, rfl, hu, hadd⟩

variable {m : COutPoint → Option Coin}

variable {o : COutPoint}

theorem txWrites_some (h : writes m (txWrites nHeight tx) o = some coin) :
    m o = some coin ∨ (o.hash = tx.hash ∧ coin.nHeight = nHeight ∧
      coin.fCoinBase = tx.isCoinBase ∧ coin.out.scriptPubKey.isUnspendable = false) := by
  rcases writes_cases m (txWrites nHeight tx) o with heq | ⟨w, hw, rfl, heq⟩
  · exact .inl (heq ▸ h)
  · obtain ⟨h1, h2, h3, h4, -⟩ := mem_txWrites_some hw (heq ▸ h)
    exact .inr ⟨h1, h2, h3, h4⟩

theorem CoinsOk.txWrites (hm : CoinsOk m) (hunused : ∀ j, m ⟨tx.hash, j⟩ = none) :
    CoinsOk (writes m (txWrites nHeight tx)) := by
  refine ⟨fun o coin h => ?_, fun txid n n' coin coin' h h' => ?_⟩
  · rcases txWrites_some h with hold | ⟨-, -, -, hu⟩
    · exact hm.spendable o coin hold
    · exact hu
  · -- an old and a new coin cannot share the transaction id
    have hclash : ∀ k c, m ⟨txid, k⟩ = some c → txid ≠ tx.hash := by
      rintro k c hc rfl
      rw [hunused k] at hc
      cases hc
    rcases txWrites_some h with hold | ⟨hh, h1, h2, -⟩
    · rcases txWrites_some h' with hold' | ⟨hh', -⟩
      · exact hm.uniform txid n n' coin coin' hold hold'
      · exact absurd hh' (hclash n coin hold)
    · rcases txWrites_some h' with hold' | ⟨-, h1', h2', -⟩
      · exact absurd hh (hclash n' coin' hold')
      · exact ⟨h1.trans h1'.symm, h2.trans h2'.symm⟩

variable {txs : List CTransaction}

theorem CoinsOk.txsWrites (hm : CoinsOk m) (h : Along TxFresh nHeight m txs) :
    CoinsOk (writes m (txsWrites nHeight txs)) := by
  induction txs generalizing m with
  | nil => exact hm
  | cons tx rest ih =>
    rw [txsWrites_cons, writes_append]
    exact ih (hm.txWrites h.1.unused) h.2

theorem CoinsOk.delete (hm : CoinsOk m) (o : COutPoint) : CoinsOk (write m (o, none)) := by
  have hold : ∀ o' coin, write m (o, none) o' = some coin → m o' = some coin := by
    intro o' coin h
    rw [write_apply] at h
    split at h
    · cases h
    · exact h
  exact ⟨fun o' coin h => hm.spendable o' coin (hold o' coin h),
    fun txid n n' coin coin' h h' =>
      hm.uniform txid n n' coin coin' (hold _ _ h) (hold _ _ h')⟩

/-! ## Restoring the inputs of one transaction -/

variable {txid : Uint256} {n : Nat} {txundo : CTxUndo}

namespace Plain

theorem accessByTxid_go_some {left : Nat} (h : accessByTxid.go m txid left n = some coin) :
    ∃ k, k < n + left ∧ m ⟨txid, k⟩ = some coin := by
  induction left generalizing n with
  | zero => cases h
  | succ left ih =>
    unfold accessByTxid.go at h
    cases hn : m ⟨txid, n⟩ with
    | none =>
      rw [hn] at h
      obtain ⟨k, hk, hcoin⟩ := ih h
      exact ⟨k, by omega, hcoin⟩
    | some c =>
      rw [hn] at h
      cases h
      exact ⟨n, by omega, hn⟩

theorem accessByTxid_go_isSome {left k : Nat} (hle : n ≤ k) (hlt : k < n + left)
    (hk : (m ⟨txid, k⟩).isSome = true) : (accessByTxid.go m txid left n).isSome = true := by
  induction left generalizing n with
  | zero => omega
  | succ left ih =>
    unfold accessByTxid.go
    cases hn : m ⟨txid, n⟩ with
    | some c => rfl
    | none =>
      have hne : k ≠ n := by
        rintro rfl
        rw [hn] at hk
        cases hk
      exact ih (by omega) (by omega)

theorem undoCoin_of_left (hm : CoinsOk m) (hcoin : m o = some coin) (hleft : coin.nHeight = 0 →
      ∃ n, n < MAX_OUTPUTS_PER_BLOCK ∧ (write m (o, none) ⟨o.hash, n⟩).isSome = true) :
    undoCoin (write m (o, none)) coin o = some coin := by
  unfold undoCoin
  by_cases hh : coin.nHeight = 0
  · rw [if_pos hh]
    obtain ⟨n, hn, hsome⟩ := hleft hh
    have hacc : (accessByTxid (write m (o, none)) o.hash).isSome = true :=
      accessByTxid_go_isSome (Nat.zero_le n) (by omega) hsome
    obtain ⟨a, ha⟩ := isSome_iff_exists.mp hacc
    obtain ⟨k, -, hk⟩ := accessByTxid_go_some ha
    rw [write_apply] at hk
    split at hk
    · cases hk
    · obtain ⟨h1, h2⟩ := hm.uniform o.hash k o.n a coin hk hcoin
      rw [ha, map_some, h1, h2]
  · rw [if_neg hh]

theorem undoCoin_of_not_left (hh : coin.nHeight = 0)
    (hnone : ¬ ∃ n, n < MAX_OUTPUTS_PER_BLOCK ∧ (m ⟨o.hash, n⟩).isSome = true) :
    undoCoin m coin o = none := by
  unfold undoCoin
  rw [if_pos hh]
  cases ha : accessByTxid m o.hash with
  | none => rfl
  | some a =>
    obtain ⟨k, hk, hsome⟩ := accessByTxid_go_some ha
    exact absurd ⟨k, by omega, by rw [hsome]; rfl⟩ hnone

/-- The inputs of a transaction, restored after all of them were spent: the
    coins are back exactly when the metadata were left.  By induction on the
    inputs; the map of the induction is the one before the inputs in question
    are spent. -/
theorem restoreInputs_spent {prevouts : List COutPoint} (hm : CoinsOk m) (hnd : prevouts.Nodup)
    (hundo : txundo.map some = prevouts.map m) (fClean : Bool) : (MetadataLeft m prevouts →
      restoreInputs (writes m (spendWrites prevouts)) (prevouts.zip txundo) fClean =
        some (fClean, m)) ∧
    (¬ MetadataLeft m prevouts →
      restoreInputs (writes m (spendWrites prevouts)) (prevouts.zip txundo) fClean = none) := by
  induction prevouts generalizing m txundo with
  | nil => exact ⟨fun _ => rfl, fun h => absurd trivial h⟩
  | cons o rest ih =>
    cases txundo with
    | nil => cases hundo
    | cons coin undos =>
      obtain ⟨hcoin, hundos⟩ := cons_eq_cons.mp hundo
      obtain ⟨hno, hnd'⟩ := nodup_cons.mp hnd
      have hundos' : undos.map some = rest.map (write m (o, none)) := by
        rw [hundos]
        apply map_congr_left
        intro o' ho'
        have hne : o' ≠ o := fun heq => hno (heq ▸ ho')
        rw [write_apply, if_neg hne]
      obtain ⟨hyes, hnot⟩ := ih (hm.delete o) hnd' hundos'
      have hgone : write m (o, none) o = none := by rw [write_apply, if_pos rfl]
      have hback : write (write m (o, none)) (o, some coin) = m := by
        funext o'
        rw [write_apply, write_apply]
        by_cases ho : o' = o
        · rw [if_pos ho, ho]; exact hcoin
        · rw [if_neg ho, if_neg ho]
      have hcons : restoreInputs (writes m (spendWrites (o :: rest))) ((o :: rest).zip
          (coin :: undos)) fClean =
          (restoreInputs (writes (write m (o, none)) (spendWrites rest)) (rest.zip undos)
            fClean).bind fun r => (undoCoin r.2 coin o).map fun c =>
              (r.1 && (r.2 o).isNone, write r.2 (o, some c)) := rfl
      rw [hcons]
      -- the last input is restored first, so the head comes after the rest
      refine ⟨fun hleft => ?_, fun hleft => ?_⟩
      · rw [hyes hleft.2, bind_some,
          undoCoin_of_left hm hcoin.symm fun hh => hleft.1 ⟨coin, hcoin.symm, hh⟩, map_some]
        dsimp only
        rw [hgone, hback]
        simp
      · by_cases hrest : MetadataLeft (write m (o, none)) rest
        · have hhead : ¬ ((∃ coin, m o = some coin ∧ coin.nHeight = 0) →
              ∃ n, n < MAX_OUTPUTS_PER_BLOCK ∧
                (write m (o, none) ⟨o.hash, n⟩).isSome = true) := fun h => hleft ⟨h, hrest⟩
          obtain ⟨⟨coin', hcoin', hh⟩, hnone⟩ := Classical.not_imp.mp hhead
          have heq : coin' = coin := Option.some.inj (hcoin'.symm.trans hcoin.symm)
          rw [hyes hrest, bind_some, undoCoin_of_not_left (heq ▸ hh) hnone, map_none]
        · rw [hnot hrest, bind_none]

end Plain

open Plain

/-! ## One transaction -/

theorem addWritesFrom_keys_nodup (tx : CTransaction) (nHeight i : Nat) (outs : List CTxOut) :
    ((addWritesFrom tx nHeight i outs).map Prod.fst).Nodup := by
  induction outs generalizing i with
  | nil => exact nodup_nil
  | cons txout rest ih =>
    unfold addWritesFrom
    split
    · exact ih (i + 1)
    · rw [map_cons, nodup_cons]
      refine ⟨fun hmem => ?_, ih (i + 1)⟩
      obtain ⟨w, hw, heq⟩ := List.mem_map.mp hmem
      obtain ⟨j, txout', -, -, rfl⟩ := mem_addWritesFrom hw
      have hidx : i + 1 + j = i := congrArg COutPoint.n heq
      omega

theorem outputs_disconnected (nHeight : Nat) (hunused : ∀ j, m ⟨tx.hash, j⟩ = none) :
    outputsMatch (writes m (txWrites nHeight tx)) (addWrites tx nHeight) = true ∧
      writes (writes m (txWrites nHeight tx)) (deletes ((addWrites tx nHeight).map Prod.fst)) =
        writes m (if tx.isCoinBase then [] else spendWrites tx.prevouts) := by
  have hnone : ∀ w ∈ addWrites tx nHeight,
      writes m (if tx.isCoinBase then [] else spendWrites tx.prevouts) w.1 = none := by
    intro w hw
    obtain ⟨j, txout, -, -, rfl⟩ := mem_addWritesFrom hw
    split
    · exact hunused _
    · rw [writes_deletes, hunused, ite_self]
  constructor
  · unfold outputsMatch
    rw [List.all_eq_true]
    intro w hw
    have hlast := writes_of_mem (addWritesFrom_keys_nodup tx nHeight 0 tx.vout)
      (writes m (if tx.isCoinBase then [] else spendWrites tx.prevouts)) hw
    rw [txWrites, writes_append]
    exact beq_iff_eq.mpr hlast
  · rw [txWrites, writes_append, writes_deletes_writes hnone]

theorem disconnect_coinbase (nHeight : Nat) (hcb : tx.isCoinBase = true)
    (hunused : ∀ j, m ⟨tx.hash, j⟩ = none) (fClean : Bool) :
    Plain.disconnectTx nHeight tx none fClean (writes m (txWrites nHeight tx)) =
      some (fClean, m) := by
  obtain ⟨hmatch, hdel⟩ := outputs_disconnected nHeight hunused
  unfold Plain.disconnectTx
  rw [hmatch, hdel, hcb, Bool.and_true]
  rfl

theorem disconnect_spender (nHeight : Nat) (hm : CoinsOk m) (hcb : tx.isCoinBase = false)
    (hfresh : TxFresh m tx) (hundo : txundo.map some = tx.prevouts.map m) (fClean : Bool)
    : (MetadataLeft m tx.prevouts →
      Plain.disconnectTx nHeight tx (some txundo) fClean (writes m (txWrites nHeight tx)) =
        some (fClean, m)) ∧
    (¬ MetadataLeft m tx.prevouts →
      Plain.disconnectTx nHeight tx (some txundo) fClean (writes m (txWrites nHeight tx)) =
        none) := by
  obtain ⟨hmatch, hdel⟩ := outputs_disconnected nHeight hfresh.unused
  have hlen : (txundo.length != tx.vin.length) = false := by
    have h := congrArg List.length hundo
    rw [length_map, length_map, CTransaction.prevouts, length_map] at h
    rw [h]
    exact bne_self_eq_false _
  have hbody : Plain.disconnectTx nHeight tx (some txundo) fClean
      (writes m (txWrites nHeight tx)) =
      Plain.restoreInputs (writes m (spendWrites tx.prevouts)) (tx.prevouts.zip txundo) fClean := by
    unfold Plain.disconnectTx
    rw [hmatch, hdel, hcb, Bool.and_true]
    simp only [hlen, Bool.false_eq_true, if_false]
  rw [hbody]
  exact Plain.restoreInputs_spent hm (hfresh.distinct hcb) hundo fClean

/-! ## The transactions of a block -/

theorem undo_eq_of_spendable {prevouts : List COutPoint}
    (hall : ∀ o ∈ prevouts, SpendableAt m nHeight o)
    (h : txundo.map Coin.unspent? = prevouts.map m) :
    txundo.map some = prevouts.map m ∧ ∀ coin ∈ txundo, coin.isSpent = false ∧
      ∃ o ∈ prevouts, m o = some coin := by
  induction prevouts generalizing txundo with
  | nil =>
    cases txundo with
    | nil => exact ⟨rfl, fun coin hmem => (nomatch hmem)⟩
    | cons coin rest => cases h
  | cons o rest ih =>
    cases txundo with
    | nil => cases h
    | cons coin undos =>
      obtain ⟨hcoin, hundos⟩ := cons_eq_cons.mp h
      obtain ⟨seen, hseen, -⟩ := hall o (mem_cons_self ..)
      obtain ⟨rfl, hs⟩ := Coin.unspent?_eq_some_iff.mp (hcoin.trans hseen)
      obtain ⟨hmap, hrest⟩ := ih (fun o' ho' => hall o' (mem_cons_of_mem _ ho')) hundos
      refine ⟨?_, fun c hc => ?_⟩
      · rw [map_cons, map_cons, hmap, hseen]
      · rcases mem_cons.mp hc with rfl | hmem
        · exact ⟨hs, o, mem_cons_self .., hseen⟩
        · obtain ⟨hs', o', ho', hseen'⟩ := hrest c hmem
          exact ⟨hs', o', mem_cons_of_mem _ ho', hseen'⟩

variable {undos : CBlockUndo}

theorem undoable_of_connected (hm : CoinsOk m) (h : TxsConnected nHeight m txs undos)
    (hcb : ∀ tx ∈ txs, tx.isCoinBase = false) (hfresh : Along TxFresh nHeight m txs)
    (hout : ∀ tx ∈ txs, ∀ txout ∈ tx.vout, moneyRange txout.nValue = true) :
    ∀ x ∈ txs.zip (undos.map some), Undoable x.1 x.2 := by
  induction h with
  | nil => intro x hx; cases hx
  | @cons m tx txs txundo undos head tail ih =>
    have htx : tx ∈ tx :: txs := mem_cons_self ..
    intro x hx
    rcases mem_cons.mp hx with rfl | hmem
    · refine ⟨fun txout ho => ?_, fun vprevout hv coin hcoin => ?_⟩
      · -- a value in range is not the null value
        have hrange := moneyRange_iff.mp (hout tx htx txout ho)
        have hne : txout.nValue ≠ -1 := by omega
        exact beq_eq_false_iff_ne.mpr hne
      · cases hv
        obtain ⟨hs, o, -, hseen⟩ := (undo_eq_of_spendable (head.spendable (hcb tx htx))
          (head.undo (hcb tx htx) (hfresh.1.distinct (hcb tx htx)))).2 coin hcoin
        exact ⟨hs, hm.spendable o coin hseen⟩
    · exact ih (hm.txWrites hfresh.1.unused)
        (fun t ht => hcb t (mem_cons_of_mem _ ht)) hfresh.2
        (fun t ht => hout t (mem_cons_of_mem _ ht)) x hmem

theorem disconnect_txs (hm : CoinsOk m) (h : TxsConnected nHeight m txs undos)
    (hcb : ∀ tx ∈ txs, tx.isCoinBase = false) (hfresh : Along TxFresh nHeight m txs) :
    (Along TxMetadataLeft nHeight m txs →
      Plain.disconnectTxs nHeight (writes m (txsWrites nHeight txs)) (txs.zip (undos.map some)) =
        some (true, m)) ∧
    (¬ Along TxMetadataLeft nHeight m txs →
      Plain.disconnectTxs nHeight (writes m (txsWrites nHeight txs)) (txs.zip (undos.map some)) =
        none) := by
  induction h with
  | nil => exact ⟨fun _ => rfl, fun hn => absurd trivial hn⟩
  | @cons m tx txs txundo undos head tail ih =>
    have hcbtx : tx.isCoinBase = false := hcb tx (mem_cons_self ..)
    obtain ⟨hyes, hnot⟩ := ih (hm.txWrites hfresh.1.unused)
      (fun t ht => hcb t (mem_cons_of_mem _ ht)) hfresh.2
    obtain ⟨hundo, -⟩ := undo_eq_of_spendable (head.spendable hcbtx)
      (head.undo hcbtx (hfresh.1.distinct hcbtx))
    obtain ⟨hyes1, hnot1⟩ := disconnect_spender nHeight hm hcbtx hfresh.1 hundo true
    have hcons : Plain.disconnectTxs nHeight (writes m (txsWrites nHeight (tx :: txs)))
        ((tx :: txs).zip ((txundo :: undos).map some)) =
        (Plain.disconnectTxs nHeight
          (writes (writes m (txWrites nHeight tx)) (txsWrites nHeight txs))
          (txs.zip (undos.map some))).bind fun r =>
            Plain.disconnectTx nHeight tx (some txundo) r.1 r.2 := by
      rw [txsWrites_cons, writes_append]
      rfl
    rw [hcons]
    refine ⟨fun hleft => ?_, fun hleft => ?_⟩
    · rw [hyes hleft.2, bind_some, hyes1 (hleft.1 hcbtx)]
    · by_cases hrest : Along TxMetadataLeft nHeight (writes m (txWrites nHeight tx)) txs
      · have hhead : ¬ MetadataLeft m tx.prevouts := fun hl => hleft ⟨fun _ => hl, hrest⟩
        rw [hyes hrest, bind_some, hnot1 hhead]
      · rw [hnot hrest, bind_none]

/-! ## The block -/

/-- Every transaction of the block is fresh when it is connected. -/
def BlockFresh (m : COutPoint → Option Coin) (pindex : CBlockIndex) (block : CBlock) : Prop :=
  Along TxFresh pindex.nHeight m block.vtx

/-- Every spent coin without a height leaves another output of its transaction. -/
def BlockMetadataLeft (m : COutPoint → Option Coin) (pindex : CBlockIndex) (block : CBlock) :
    Prop :=
  Along TxMetadataLeft pindex.nHeight m block.vtx

theorem TxFresh.newOutputs (h : TxFresh m tx) : NewOutputs m tx := fun _ => h.unused

variable {view : CCoinsViewCache}

variable {env : ValidationEnv} {block : CBlock} {blockundo : CBlockUndo}

theorem connectBlock_spec {pindex : CBlockIndex} {view' : CCoinsViewCache} (hc : view.Coherent)
    (hfresh : BlockFresh view.coinAt pindex block)
    (h : connectBlock env block pindex view false = .ok (view', blockundo)) :
    ∃ cb rest undo0, BlockShape block cb rest ∧ view'.Coherent ∧
      view'.coinAt = writes view.coinAt (txsWrites pindex.nHeight block.vtx) ∧
      view'.hashBlock = pindex.hash ∧ view'.base.bestBlock = view.base.bestBlock ∧
      view.bestBlock = pindex.hashPrevBlock ∧
      TxsConnected pindex.nHeight view.coinAt (cb :: rest) (undo0 :: blockundo) := by
  obtain ⟨cb, rest, s, hshape, hhash, hbest, hs, -, hundo, hview'⟩ := connectBlock_cases h
  have hsame := getBestBlock_sameCoins view
  have hat0 : view.getBestBlock.2.coinAt = view.coinAt := hsame.coinAt
  have hnew : Along NewOutputs pindex.nHeight view.getBestBlock.2.coinAt (cb :: rest) := by
    rw [hat0, ← hshape.vtx]
    exact Along.mono (fun _ _ => TxFresh.newOutputs) hfresh
  obtain ⟨hcoh, hat, hframe, -, undos, hundos, htxs⟩ := connectTxs_spec
    (s := { view := view.getBestBlock.2, nFees := 0, nSigOpsCost := 0, vtxundo := [] })
    (hsame.coherent hc) hnew hs
  have hbase : s.view.base.bestBlock = view.base.bestBlock :=
    hframe.baseBestBlock.trans (getBestBlock_spec view).2.2.2.2
  rw [hat0] at hat htxs
  have hundos' : s.vtxundo = undos := hundos
  subst hview'
  rw [hundos'] at hundo
  cases htxs with
  | @cons _ _ _ undo0 undos' head tail =>
    refine ⟨cb, rest, undo0, hshape, hcoh, ?_, rfl, hbase, hbest, ?_⟩
    · rw [hshape.vtx]; exact hat
    · rw [hundo]; exact .cons head tail

theorem TxsConnected.length_eq (h : TxsConnected nHeight m txs undos) :
    undos.length = txs.length := by
  induction h with
  | nil => rfl
  | cons _ _ ih => rw [length_cons, length_cons, ih]

/-- The result of `DisconnectBlock` follows its counterpart on plain maps. -/
def BlockFollows (pindex : CBlockIndex) (view : CCoinsViewCache)
    (e : Except CoinsError (DisconnectResult × CCoinsViewCache)) :
    Option (Bool × (COutPoint → Option Coin)) → Prop
  | none => ∃ view', e = .ok (.failed, view')
  | some (fClean, m) => ∃ view', e = .ok (.ofClean fClean, view') ∧ view'.Coherent ∧
      view'.coinAt = m ∧ view'.hashBlock = pindex.hashPrevBlock ∧
      view'.base.bestBlock = view.base.bestBlock ∧ ∀ d, view.base = .db d → view'.base = .db d

variable {rest : List CTransaction} {undo0 : CTxUndo} {cb : CTransaction}

theorem disconnectBlock_eq {pindex : CBlockIndex} {txs : List CTransaction} (hvtx : block.vtx = txs)
    (hlen : (blockundo.length + 1 != txs.length) = false) :
    disconnectBlock block pindex view (some blockundo) = (do
      let (res, view) ← disconnectTxs pindex.nHeight view (txs.zip (none :: blockundo.map some))
      if res = .failed then .ok (.failed, view)
      else .ok (res, view.setBestBlock pindex.hashPrevBlock)) := by
  unfold disconnectBlock
  simp only [hvtx, hlen, Bool.false_eq_true, if_false]

/-- `DisconnectBlock` with the undo data of `ConnectBlock`, on any coherent view:
    the view need not show the coins the block left. -/
theorem disconnectBlock_follows {pindex : CBlockIndex} (hm : CoinsOk m)
    (hshape : BlockShape block cb rest) (hfresh : BlockFresh m pindex block)
    (hconn : TxsConnected pindex.nHeight m (cb :: rest) (undo0 :: blockundo)) (hc : view.Coherent) :
    BlockFollows pindex view (disconnectBlock block pindex view (some blockundo))
      (Plain.disconnectTxs pindex.nHeight view.coinAt
        (block.vtx.zip (none :: blockundo.map some))) := by
  have hvtx := hshape.vtx
  unfold BlockFresh at hfresh
  rw [hvtx] at hfresh ⊢
  cases hconn with
  | cons head tail =>
    have hlen : (blockundo.length + 1 != (cb :: rest).length) = false := by
      rw [length_cons, tail.length_eq]
      exact bne_self_eq_false _
    have hundoable : ∀ x ∈ (cb :: rest).zip (none :: blockundo.map some), Undoable x.1 x.2 := by
      intro x hx
      rcases mem_cons.mp hx with rfl | hmem
      · refine ⟨fun txout ho => ?_, fun _ hv => by cases hv⟩
        have hrange := moneyRange_iff.mp (hshape.outputs cb (mem_cons_self ..) txout ho)
        have hne : txout.nValue ≠ -1 := by omega
        exact beq_eq_false_iff_ne.mpr hne
      · exact undoable_of_connected (hm.txWrites hfresh.1.unused) tail hshape.others hfresh.2
          (fun t ht => hshape.outputs t (mem_cons_of_mem _ ht)) x hmem
    have hfollows := disconnectTxs_spec pindex.nHeight hundoable hc
    rw [disconnectBlock_eq hvtx hlen]
    rcases hp : Plain.disconnectTxs pindex.nHeight view.coinAt
        ((cb :: rest).zip (none :: blockundo.map some)) with _ | ⟨fClean, m'⟩
    · rw [hp] at hfollows
      obtain ⟨view', he⟩ := hfollows
      rw [he]
      exact ⟨view', rfl⟩
    · rw [hp] at hfollows
      obtain ⟨view', he, hcoh, hframe, hat'⟩ := hfollows
      rw [he]
      exact ⟨view'.setBestBlock pindex.hashPrevBlock,
        if_neg (DisconnectResult.ofClean_ne_failed fClean), hcoh, hat', rfl,
        hframe.baseBestBlock, hframe.baseDB⟩

/-- `DisconnectBlock` after `ConnectBlock`, on any coherent view that shows the
    coins the block left: the coins before the block are back when the metadata
    were left, and otherwise the result is `DISCONNECT_FAILED`. -/
theorem disconnectBlock_spec {pindex : CBlockIndex} (hm : CoinsOk m)
    (hshape : BlockShape block cb rest) (hfresh : BlockFresh m pindex block)
    (hconn : TxsConnected pindex.nHeight m (cb :: rest) (undo0 :: blockundo)) (hc : view.Coherent)
    (hat : view.coinAt = writes m (txsWrites pindex.nHeight block.vtx)) :
    (BlockMetadataLeft m pindex block →
      ∃ view', disconnectBlock block pindex view (some blockundo) = .ok (.ok, view') ∧
        view'.coinAt = m ∧ view'.Coherent ∧ view'.hashBlock = pindex.hashPrevBlock ∧
        view'.base.bestBlock = view.base.bestBlock) ∧
    (¬ BlockMetadataLeft m pindex block →
      ∃ view', disconnectBlock block pindex view (some blockundo) = .ok (.failed, view')) := by
  have hfollows := disconnectBlock_follows hm hshape hfresh hconn hc
  unfold BlockFresh at hfresh
  unfold BlockMetadataLeft
  rw [hshape.vtx] at hfresh hat hfollows ⊢
  rw [txsWrites_cons, writes_append] at hat
  obtain ⟨hfreshcb, hfreshrest⟩ := hfresh
  cases hconn with
  | cons head tail =>
    obtain ⟨hyes, hnot⟩ := disconnect_txs (hm.txWrites hfreshcb.unused) tail hshape.others
      hfreshrest
    have hcoinbase := disconnect_coinbase pindex.nHeight hshape.coinbase
      hfreshcb.unused true
    have hplain : Plain.disconnectTxs pindex.nHeight view.coinAt
        ((cb :: rest).zip (none :: blockundo.map some)) =
        (Plain.disconnectTxs pindex.nHeight (writes (writes m (txWrites pindex.nHeight cb))
          (txsWrites pindex.nHeight rest)) (rest.zip (blockundo.map some))).bind fun r =>
            Plain.disconnectTx pindex.nHeight cb none r.1 r.2 := by
      rw [hat]; rfl
    refine ⟨fun hleft => ?_, fun hleft => ?_⟩
    · rw [hyes hleft.2, bind_some, hcoinbase] at hplain
      rw [hplain] at hfollows
      obtain ⟨view', he, hcoh, hat', hhash, hbest, -⟩ := hfollows
      exact ⟨view', he, hat', hcoh, hhash, hbest⟩
    · -- the coinbase has no records, so it is one of the others that leaves none
      have hcbleft : TxMetadataLeft m cb := fun hn => by
        rw [hshape.coinbase] at hn
        cases hn
      rw [hnot fun hr => hleft ⟨hcbleft, hr⟩, bind_none] at hplain
      rw [hplain] at hfollows
      exact hfollows

/-! ## Reachable views -/

/-- The index entry is the genesis block's, or comes right after the tip. -/
def CBlockIndex.Extends (pindex : CBlockIndex) : Option CBlockIndex → Prop
  | none => pindex.nHeight = 0 ∧ pindex.pprev = none
  | some tip => pindex.nHeight = tip.nHeight + 1 ∧ pindex.pprev = some tip.hash

/-- The views that are reached from an empty database by connecting blocks that
    meet a condition, the genesis block first; caches may be flushed and put on
    top in between. -/
inductive Reachable (env : ValidationEnv)
    (Meets : (COutPoint → Option Coin) → CBlockIndex → CBlock → Prop) :
    CCoinsViewCache → Option CBlockIndex → Prop where
  | start : Reachable env Meets (new (.db .empty)) none
  | connect {view view' : CCoinsViewCache} {tip : Option CBlockIndex} {block : CBlock}
      {pindex : CBlockIndex} {blockundo : CBlockUndo} (reachable : Reachable env Meets view tip)
      (ext : pindex.Extends tip) (meets : Meets view.coinAt pindex block)
      (connected : connectBlock env block pindex view false = .ok (view', blockundo)) :
      Reachable env Meets view' (some pindex)
  | flush {view view' : CCoinsViewCache} {tip : Option CBlockIndex}
      (reachable : Reachable env Meets view tip) (flushed : view.flush = .ok view') :
      Reachable env Meets view' tip
  | layer {view : CCoinsViewCache} {tip : Option CBlockIndex}
      (reachable : Reachable env Meets view tip) :
      Reachable env Meets (new view.toView) tip

theorem CCoinsViewCache.new_spec (v : CCoinsView) (hv : v.Coherent) :
    (new v).Coherent ∧ (new v).coinAt = v.coinAt := by
  refine ⟨⟨hv, fun o e he => ?_⟩, funext fun o =>
    CCoinsView.coinAt_cache_of_not_mem (AList.lookup_empty o)⟩
  cases he

variable {tip : Option CBlockIndex}

theorem Reachable.coinsOk (h : Reachable env BlockFresh view tip)
    : view.Coherent ∧ CoinsOk view.coinAt := by
  induction h with
  | start =>
    have hdb : (CCoinsView.db .empty).Coherent := by
      intro o coin h
      cases h
    obtain ⟨hcoh, hat⟩ := new_spec _ hdb
    have hnone : (new (.db .empty)).coinAt = fun _ => none := by
      rw [hat]
      exact funext fun o => AList.lookup_empty o
    exact ⟨hcoh, hnone ▸ CoinsOk.empty⟩
  | connect _ _ hmeets hconn ih =>
    obtain ⟨hc, hm⟩ := ih
    obtain ⟨_, _, _, -, hcoh, hat, -⟩ := connectBlock_spec hc hmeets hconn
    exact ⟨hcoh, hat ▸ hm.txsWrites hmeets⟩
  | flush _ hflush ih =>
    obtain ⟨hc, hm⟩ := ih
    have hsame := (flush_spec hc hflush).1
    refine ⟨hsame.coherent hc, ?_⟩
    show CoinsOk (toView _).coinAt
    rw [hsame.coinAt]
    exact hm
  | layer _ ih =>
    obtain ⟨hc, hm⟩ := ih
    obtain ⟨hcoh, hat⟩ := new_spec _ hc
    exact ⟨hcoh, hat ▸ hm⟩

theorem Reachable.mono {P Q : (COutPoint → Option Coin) → CBlockIndex → CBlock → Prop}
    (hPQ : ∀ m pindex block, P m pindex block → Q m pindex block) (h : Reachable env P view tip) :
    Reachable env Q view tip := by
  induction h with
  | start => exact .start
  | connect _ hext hmeets hconn ih => exact .connect ih hext (hPQ _ _ _ hmeets) hconn
  | flush _ hflush ih => exact .flush ih hflush
  | layer _ ih => exact .layer ih

/-- In every view reached by invertible blocks, connecting one more invertible
    block and disconnecting it again gives the coins and the best block back.  A
    fresh block that leaves no metadata for some spent coin of height 0 is
    accepted as well, and its disconnect fails. -/
theorem disconnectBlock_connectBlock {env : ValidationEnv} {view view' : CCoinsViewCache}
    {tip : Option CBlockIndex} (hr : Reachable env BlockFresh view tip) {block : CBlock}
    {pindex : CBlockIndex} {blockundo : CBlockUndo} (hfresh : BlockFresh view.coinAt pindex block)
    (h : connectBlock env block pindex view false = .ok (view', blockundo)) :
    (BlockMetadataLeft view.coinAt pindex block →
      ∃ view'', disconnectBlock block pindex view' (some blockundo) = .ok (.ok, view'') ∧
        view''.coinAt = view.coinAt ∧ view''.bestBlock = view.bestBlock) ∧
    (¬ BlockMetadataLeft view.coinAt pindex block →
      ∃ view'', disconnectBlock block pindex view' (some blockundo) = .ok (.failed, view'')) := by
  obtain ⟨hc, hm⟩ := hr.coinsOk
  obtain ⟨cb, rest, undo0, hshape, hcoh, hat, -, hbase, hbest, hconn⟩ :=
    connectBlock_spec hc hfresh h
  obtain ⟨hyes, hnot⟩ := disconnectBlock_spec hm hshape hfresh hconn hcoh hat
  refine ⟨fun hleft => ?_, hnot⟩
  obtain ⟨view'', he, hat'', -, hhash, hbase''⟩ := hyes hleft
  refine ⟨view'', he, hat'', ?_⟩
  -- the best block is set back; a null one is looked up below, where nothing changed
  have hview'' : view''.bestBlock =
      if view''.hashBlock = 0 then view''.base.bestBlock else view''.hashBlock := rfl
  have hview : view.bestBlock =
      if view.hashBlock = 0 then view.base.bestBlock else view.hashBlock := rfl
  rw [hview'', hhash, hbase'', hbase, ← hbest]
  by_cases hz : view.bestBlock = 0
  · rw [if_pos hz, hview]
    rw [hview] at hz
    by_cases hh : view.hashBlock = 0
    · rw [if_pos hh]
    · rw [if_neg hh] at hz
      exact absurd hz hh
  · rw [if_neg hz]

/-! ## Spending the genesis output

The genesis block pays one output.  After 99 blocks that create no coins the
output is mature, and block 100 spends it. -/

namespace GenesisSpend

def genesis : CBlock where
  hash := 1000
  hashPrevBlock := 0
  vtx := [coinbaseTx 1 0 [payAnyone GENESIS_MONEY]]

/-- Block `n`, whose coinbase only has an `OP_RETURN` output. -/
def emptyBlock (n : Nat) : CBlock where
  hash := 1000 + n
  hashPrevBlock := 999 + n
  vtx := [coinbaseTx (n + 1) n [{ nValue := 0, scriptPubKey := [opReturnByte] }]]

def pindex (n : Nat) : CBlockIndex where
  hash := 1000 + n
  nHeight := n
  pprev := if n = 0 then none else some (999 + n)

def spendBlock : CBlock where
  hash := 1100
  hashPrevBlock := 1099
  vtx := [coinbaseTx 101 100 [{ nValue := 0, scriptPubKey := [opReturnByte] }],
    { hash := 200, vin := [{ prevout := ⟨1, 0⟩ }], vout := [payAnyone GENESIS_MONEY] }]

/-- Spends what `spendBlock` creates, and in the next transaction what that one creates. -/
def respendBlock : CBlock where
  hash := 1101
  hashPrevBlock := 1100
  vtx := [coinbaseTx 102 101 [{ nValue := 0, scriptPubKey := [opReturnByte] }],
    { hash := 201, vin := [{ prevout := ⟨200, 0⟩ }], vout := [payAnyone GENESIS_MONEY] },
    { hash := 202, vin := [{ prevout := ⟨201, 0⟩ }], vout := [payAnyone GENESIS_MONEY] }]

variable (env) in
/-- The blocks up to height `n`, connected. -/
def connectChain : Nat → Except ValidationError CCoinsViewCache
  | 0 => do
    let (view, _) ← connectBlock env genesis (pindex 0) (new (.db .empty)) false
    pure view
  | n + 1 => do
    let view ← connectChain n
    let (view, _) ← connectBlock env (emptyBlock (n + 1)) (pindex (n + 1)) view false
    pure view

def genesisCoin : Coin := { out := payAnyone GENESIS_MONEY, nHeight := 0, fCoinBase := true }

/-- The genesis output is the only coin. -/
def onlyGenesis : COutPoint → Option Coin := write (fun _ => none) (⟨1, 0⟩, some genesisCoin)

theorem onlyGenesis_of_ne (h : txid ≠ 1) (j : Nat) : onlyGenesis ⟨txid, j⟩ = none := by
  rw [onlyGenesis, write_apply, if_neg]
  intro heq
  exact h (congrArg COutPoint.hash heq)

theorem start_coinAt : (new (.db .empty)).coinAt = fun _ => none := by
  rfl

theorem genesis_fresh : BlockFresh (fun _ => none) (pindex 0) genesis :=
  ⟨⟨fun h => (nomatch h), fun _ => rfl⟩, trivial⟩

theorem emptyBlock_fresh (n : Nat) : BlockFresh onlyGenesis (pindex (n + 1)) (emptyBlock (n + 1)) :=
  ⟨⟨fun h => (nomatch h), fun j => onlyGenesis_of_ne (Nat.succ_ne_succ_iff.mpr n.succ_ne_zero) j⟩,
    trivial⟩

theorem connectChain_reachable (h : connectChain env n = .ok view) :
    Reachable env BlockFresh view (some (pindex n)) ∧ view.coinAt = onlyGenesis := by
  induction n generalizing view with
  | zero =>
    obtain ⟨⟨view', blockundo⟩, hconn, h⟩ := bind_eq_ok.mp h
    cases pure_eq_ok.mp h
    have hstart : Reachable env BlockFresh (new (.db .empty)) none := .start
    have hfresh : BlockFresh (new (.db .empty)).coinAt (pindex 0) genesis := by
      rw [start_coinAt]; exact genesis_fresh
    obtain ⟨_, _, _, -, -, hat, -⟩ := connectBlock_spec hstart.coinsOk.1 hfresh hconn
    refine ⟨.connect hstart ⟨rfl, rfl⟩ hfresh hconn, ?_⟩
    rw [hat, start_coinAt]
    rfl
  | succ n ih =>
    obtain ⟨view0, hchain, h⟩ := bind_eq_ok.mp h
    obtain ⟨⟨view', blockundo⟩, hconn, h⟩ := bind_eq_ok.mp h
    cases pure_eq_ok.mp h
    obtain ⟨hr, hat0⟩ := ih hchain
    have hfresh : BlockFresh view0.coinAt (pindex (n + 1)) (emptyBlock (n + 1)) := by
      rw [hat0]; exact emptyBlock_fresh n
    obtain ⟨_, _, _, -, -, hat, -⟩ := connectBlock_spec hr.coinsOk.1 hfresh hconn
    have hext : (pindex (n + 1)).Extends (some (pindex n)) := by
      refine ⟨rfl, ?_⟩
      show some (999 + (n + 1)) = some (1000 + n)
      congr 1
      omega
    refine ⟨.connect hr hext hfresh hconn, ?_⟩
    rw [hat, hat0]
    rfl

theorem spendBlock_fresh : BlockFresh onlyGenesis (pindex 100) spendBlock := by
  refine ⟨⟨fun h => (nomatch h), fun j => onlyGenesis_of_ne (by decide) j⟩,
    ⟨fun _ => by decide, fun j => ?_⟩, trivial⟩
  exact @onlyGenesis_of_ne 200 (by decide) j

theorem spendBlock_metadata : ¬ BlockMetadataLeft onlyGenesis (pindex 100) spendBlock := by
  rintro ⟨-, hspend, -⟩
  obtain ⟨n, -, hsome⟩ := (hspend rfl).1 ⟨genesisCoin, rfl, rfl⟩
  have hnone : write onlyGenesis (⟨1, 0⟩, none) ⟨1, n⟩ = none := by
    rw [write_apply, onlyGenesis, write_apply]
    split <;> rfl
  have hsome' : (write onlyGenesis (⟨1, 0⟩, none) ⟨1, n⟩).isSome = true := hsome
  rw [hnone] at hsome'
  cases hsome'

/-- Block 100 is accepted on a reachable view, and cannot be disconnected. -/
theorem spendBlock_not_disconnected :
    ∃ view view' blockundo, Reachable lenientEnv (fun _ _ _ => True) view (some (pindex 99)) ∧
      (pindex 100).Extends (some (pindex 99)) ∧
      connectBlock lenientEnv spendBlock (pindex 100) view false = .ok (view', blockundo) ∧
      ∃ view'', disconnectBlock spendBlock (pindex 100) view' (some blockundo) =
        .ok (.failed, view'') := by
  obtain ⟨⟨view, view', blockundo⟩, hrun, -⟩ := exists_of_okAnd
    (x := do
      let view ← connectChain lenientEnv 99
      let (view', blockundo) ← connectBlock lenientEnv spendBlock (pindex 100) view false
      pure (view, view', blockundo))
    (p := fun _ => true) (by decide +kernel)
  obtain ⟨view0, hchain, hrun⟩ := bind_eq_ok.mp hrun
  obtain ⟨⟨view1, undo1⟩, hconn, hrun⟩ := bind_eq_ok.mp hrun
  cases pure_eq_ok.mp hrun
  obtain ⟨hr, hat⟩ := connectChain_reachable hchain
  obtain ⟨hc, hm⟩ := hr.coinsOk
  have hfresh : BlockFresh view.coinAt (pindex 100) spendBlock := by
    rw [hat]; exact spendBlock_fresh
  have hleft : ¬ BlockMetadataLeft view.coinAt (pindex 100) spendBlock := by
    rw [hat]; exact spendBlock_metadata
  obtain ⟨cb, rest, undo0, hshape, hcoh, hat', -, -, -, htxs⟩ := connectBlock_spec hc hfresh hconn
  exact ⟨view, view', blockundo, hr.mono fun _ _ _ _ => trivial, ⟨rfl, rfl⟩, hconn,
    (disconnectBlock_spec hm hshape hfresh htxs hcoh hat').2 hleft⟩

/-- The only coin after block 100, which spends the genesis output. -/
def onlySpend : COutPoint → Option Coin :=
  write (write onlyGenesis (⟨1, 0⟩, none))
    (⟨200, 0⟩, some { out := payAnyone GENESIS_MONEY, nHeight := 100, fCoinBase := false })

theorem onlySpend_of_ne (h1 : txid ≠ 1) (h200 : txid ≠ 200) (j : Nat) :
    onlySpend ⟨txid, j⟩ = none := by
  rw [onlySpend, write_apply, if_neg fun heq => h200 (congrArg COutPoint.hash heq), write_apply,
    if_neg fun heq => h1 (congrArg COutPoint.hash heq)]
  exact onlyGenesis_of_ne h1 j

theorem respendBlock_fresh : BlockFresh onlySpend (pindex 101) respendBlock := by
  refine ⟨⟨fun h => (nomatch h), fun j => onlySpend_of_ne (by decide) (by decide) j⟩,
    ⟨fun _ => by decide, fun j => ?_⟩, ⟨fun _ => by decide, fun j => ?_⟩, trivial⟩
  · exact @onlySpend_of_ne 201 (by decide) (by decide) j
  · show write (write onlySpend (⟨200, 0⟩, none)) (⟨201, 0⟩,
      some { out := payAnyone GENESIS_MONEY, nHeight := 101, fCoinBase := false }) ⟨202, j⟩ = none
    have hne : ∀ hash : Uint256, hash ≠ 202 → (⟨202, j⟩ : COutPoint) ≠ ⟨hash, 0⟩ :=
      fun hash h heq => h (congrArg COutPoint.hash heq).symm
    rw [write_apply, if_neg (hne 201 (by decide)), write_apply, if_neg (hne 200 (by decide))]
    exact @onlySpend_of_ne 202 (by decide) (by decide) j

/-- It spends no coin of height 0. -/
theorem respendBlock_metadata : BlockMetadataLeft onlySpend (pindex 101) respendBlock := by
  refine ⟨fun h => (nomatch h), fun _ => ⟨?_, trivial⟩, fun _ => ⟨?_, trivial⟩, trivial⟩
  · rintro ⟨coin, hcoin, hheight⟩
    cases hcoin
    cases hheight
  · rintro ⟨coin, hcoin, hheight⟩
    cases hcoin
    cases hheight

/-- The blocks up to height 101, connected; the view before the last one is first. -/
def connectRespend (env : ValidationEnv) :
    Except ValidationError (CCoinsViewCache × CCoinsViewCache × CBlockUndo) := do
  let view ← connectChain env 99
  let (view, _) ← connectBlock env spendBlock (pindex 100) view false
  let (view', blockundo) ← connectBlock env respendBlock (pindex 101) view false
  return (view, view', blockundo)

theorem connectRespend_reachable {blockundo : CBlockUndo}
    (h : connectRespend env = .ok (view, view', blockundo)) :
    Reachable env BlockFresh view (some (pindex 100)) ∧ view.coinAt = onlySpend ∧
      connectBlock env respendBlock (pindex 101) view false = .ok (view', blockundo) := by
  obtain ⟨view99, hchain, h⟩ := bind_eq_ok.mp h
  obtain ⟨⟨view100, undo⟩, hspend, h⟩ := bind_eq_ok.mp h
  obtain ⟨⟨view101, blockundo'⟩, hrespend, h⟩ := bind_eq_ok.mp h
  cases pure_eq_ok.mp h
  obtain ⟨hr, hat⟩ := connectChain_reachable hchain
  have hfresh : BlockFresh view99.coinAt (pindex 100) spendBlock := by
    rw [hat]; exact spendBlock_fresh
  obtain ⟨_, _, _, -, -, hat', -⟩ := connectBlock_spec hr.coinsOk.1 hfresh hspend
  refine ⟨.connect hr ⟨rfl, rfl⟩ hfresh hspend, ?_, hrespend⟩
  rw [hat', hat]
  rfl

/-- A block with a spend of an older coin and one of a coin of its own. -/
theorem respendBlock_disconnected :
    ∃ view view' blockundo, connectRespend lenientEnv = .ok (view, view', blockundo) ∧
      blockundo.map length = [1, 1] ∧
      ∃ view'', disconnectBlock respendBlock (pindex 101) view' (some blockundo) =
          .ok (.ok, view'') ∧
        view''.coinAt = view.coinAt ∧ view''.bestBlock = view.bestBlock := by
  obtain ⟨⟨view, view', blockundo⟩, hrun, hundo⟩ := exists_of_okAnd (x := connectRespend lenientEnv)
    (p := fun r => r.2.2.map length = [1, 1]) (by decide +kernel)
  obtain ⟨hr, hat, hconn⟩ := connectRespend_reachable hrun
  obtain ⟨view'', he, hback⟩ := (disconnectBlock_connectBlock hr
    (hat.symm ▸ respendBlock_fresh) hconn).1 (hat.symm ▸ respendBlock_metadata)
  exact ⟨view, view', blockundo, hrun, of_decide_eq_true hundo, view'', he, hback⟩

end GenesisSpend

end Rcoin
