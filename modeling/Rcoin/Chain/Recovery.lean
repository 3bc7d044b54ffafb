/-
  What `ReplayBlocks` makes of a database that an interrupted `BatchWrite` left
  behind.  In such a database every coin is as the old tip or as the new tip
  has it; replaying writes that lead from the old set to the new one repairs
  it.  What is not repaired is what the replay does not write: the outputs of
  the genesis block, which is never rolled forward.
-/
import Rcoin.Chain.Replay

namespace Rcoin

open Maps Fallible List ChainStore CCoinsViewCache Option

/-! ## Branches of connected blocks -/

/-- A block with its index entry and the undo data written for it. -/
structure StoredBlock where
  pindex : CBlockIndex
  block : CBlock
  blockundo : CBlockUndo

/-- What rolling the block forward writes. -/
def StoredBlock.connectWrites (b : StoredBlock) : List (Write COutPoint Coin) :=
  txsWrites b.pindex.nHeight b.block.vtx

/-- What rolling the block back writes. -/
def StoredBlock.disconnectWrites (b : StoredBlock) : List (Write COutPoint Coin) :=
  undoTxsWrites b.pindex.nHeight (b.block.vtx.zip (none :: b.blockundo.map some))

/-- The block was connected on the coins `m` of the tip, and was stored. -/
structure ConnectedOn (env : ValidationEnv) (store : ChainStore) (m : COutPoint → Option Coin)
    (tip : Option CBlockIndex) (b : StoredBlock) : Prop where
  ext : b.pindex.Extends tip
  notNull : b.pindex.hash ≠ 0
  index : store.mapBlockIndex b.pindex.hash = some b.pindex
  read : store.readBlockFromDisk b.pindex = some b.block
  undo : store.undoReadFromDisk b.pindex = some b.blockundo
  fresh : BlockFresh m b.pindex b.block
  connected : ∃ view view', view.Coherent ∧ view.coinAt = m ∧
    connectBlock env b.block b.pindex view false = .ok (view', b.blockundo)

/-- Blocks connected one after another, the newest first: from the coins and the
    tip before them to those after them. -/
inductive Branch (env : ValidationEnv) (store : ChainStore) (m0 : COutPoint → Option Coin)
    (tip0 : Option CBlockIndex) :
    List StoredBlock → (COutPoint → Option Coin) → Option CBlockIndex → Prop where
  | nil : Branch env store m0 tip0 [] m0 tip0
  | cons {bs : List StoredBlock} {m : COutPoint → Option Coin} {tip : Option CBlockIndex}
      {b : StoredBlock} (before : Branch env store m0 tip0 bs m tip)
      (last : ConnectedOn env store m tip b) :
      Branch env store m0 tip0 (b :: bs) (writes m b.connectWrites) (some b.pindex)

/-- The writes of a branch, oldest block first. -/
def branchWrites : List StoredBlock → List (Write COutPoint Coin)
  | [] => []
  | b :: bs => branchWrites bs ++ b.connectWrites

/-- The writes that take a branch back, newest block first. -/
def branchUndoWrites (bs : List StoredBlock) : List (Write COutPoint Coin) :=
  bs.flatMap StoredBlock.disconnectWrites

/-- The outputs the block creates have a property. -/
def StoredBlock.Creates (b : StoredBlock) (Q : COutPoint → Coin → Prop) : Prop :=
  ∀ tx ∈ b.block.vtx, ∀ o coin, o.hash = tx.hash → coin.nHeight = b.pindex.nHeight →
    coin.fCoinBase = tx.isCoinBase → Q o coin

/-! ## What a connected block has -/

section

variable {env : ValidationEnv} {store : ChainStore} {m : COutPoint → Option Coin}
  {tip : Option CBlockIndex} {b : StoredBlock}

theorem ConnectedOn.spec (h : ConnectedOn env store m tip b) :
    ∃ cb rest undo0, BlockShape b.block cb rest ∧
      TxsConnected b.pindex.nHeight m (cb :: rest) (undo0 :: b.blockundo) := by
  obtain ⟨view, view', hc, rfl, hconn⟩ := h.connected
  obtain ⟨cb, rest, undo0, hshape, -, -, -, -, -, htxs⟩ := connectBlock_spec hc h.fresh hconn
  exact ⟨cb, rest, undo0, hshape, htxs⟩

theorem ConnectedOn.outputs_notNull (h : ConnectedOn env store m tip b) :
    ∀ tx ∈ b.block.vtx, ∀ txout ∈ tx.vout, txout.isNull = false := by
  obtain ⟨cb, rest, undo0, hshape, -⟩ := h.spec
  intro tx htx txout hout
  have hrange := moneyRange_iff.mp (hshape.outputs tx (hshape.vtx ▸ htx) txout hout)
  have hne : txout.nValue ≠ -1 := by omega
  exact beq_eq_false_iff_ne.mpr hne

end

variable {m : COutPoint → Option Coin} {Q : COutPoint → Coin → Prop} {tx : CTransaction}

theorem AllCoins.txWrites (hm : AllCoins Q m) {nHeight : Nat}
    (hQ : ∀ o coin, o.hash = tx.hash → coin.nHeight = nHeight → coin.fCoinBase = tx.isCoinBase →
      Q o coin) : AllCoins Q (writes m (txWrites nHeight tx)) := by
  intro o coin h
  rcases txWrites_some h with hold | ⟨h1, h2, h3, -⟩
  · exact hm o coin hold
  · exact hQ o coin h1 h2 h3

variable {txs : List CTransaction}

theorem AllCoins.txsWrites (hm : AllCoins Q m) {nHeight : Nat}
    (hQ : ∀ tx ∈ txs, ∀ o coin, o.hash = tx.hash → coin.nHeight = nHeight →
      coin.fCoinBase = tx.isCoinBase → Q o coin)
    : AllCoins Q (writes m (txsWrites nHeight txs)) := by
  induction txs generalizing m with
  | nil => exact hm
  | cons tx rest ih =>
    rw [txsWrites_cons, writes_append]
    exact ih (hm.txWrites (hQ tx (mem_cons_self ..)))
      fun tx' hmem => hQ tx' (mem_cons_of_mem _ hmem)

theorem restoreWrites_spendWrites {prevouts : List COutPoint} (hnd : prevouts.Nodup)
    {txundo : CTxUndo} (hundo : txundo.map some = prevouts.map m) :
    writes (writes m (spendWrites prevouts)) (restoreWrites (prevouts.zip txundo)) = m := by
  induction prevouts generalizing m txundo with
  | nil => rfl
  | cons o rest ih =>
    cases txundo with
    | nil => cases hundo
    | cons coin undos =>
      obtain ⟨hcoin, hundos⟩ := cons_eq_cons.mp hundo
      obtain ⟨hno, hnd'⟩ := nodup_cons.mp hnd
      have hundos' : undos.map some = rest.map (write m (o, none)) := by
        rw [hundos]
        apply map_congr_left
        intro o' ho'
        have hne : o' ≠ o := fun heq => hno (heq ▸ ho')
        rw [write_apply, if_neg hne]
      have hspend : writes m (spendWrites (o :: rest)) =
          writes (write m (o, none)) (spendWrites rest) := rfl
      rw [zip_cons_cons, restoreWrites_cons, writes_append, hspend, ih hnd' hundos']
      funext o'
      rw [writes_cons, writes_nil, write_apply, write_apply]
      by_cases ho : o' = o
      · rw [if_pos ho, ho]
        exact hcoin
      · rw [if_neg ho, if_neg ho]

theorem undoTxWrites_txWrites {nHeight : Nat} (hfresh : TxFresh m tx) {txundo : Option CTxUndo}
    (hcb : tx.isCoinBase = true → txundo = none) (hundo : tx.isCoinBase = false →
      ∃ undo, txundo = some undo ∧ undo.map some = tx.prevouts.map m) :
    writes (writes m (txWrites nHeight tx)) (undoTxWrites nHeight tx txundo) = m := by
  obtain ⟨-, hdel⟩ := outputs_disconnected nHeight hfresh.unused
  rw [undoTxWrites, writes_append, hdel]
  cases hc : tx.isCoinBase with
  | true =>
    rw [hcb hc, getD_none, List.zip_nil_right]
    rfl
  | false =>
    obtain ⟨undo, rfl, hmap⟩ := hundo hc
    exact restoreWrites_spendWrites (hfresh.distinct hc) hmap

variable {undos : CBlockUndo}

theorem undoTxsWrites_txsWrites {nHeight : Nat} (h : TxsConnected nHeight m txs undos)
    (hcb : ∀ tx ∈ txs, tx.isCoinBase = false) (hfresh : Along TxFresh nHeight m txs) :
    writes (writes m (txsWrites nHeight txs)) (undoTxsWrites nHeight (txs.zip (undos.map some))) =
      m := by
  induction h with
  | nil => rfl
  | @cons m tx txs txundo undos head tail ih =>
    have hcbtx : tx.isCoinBase = false := hcb tx (mem_cons_self ..)
    obtain ⟨hundo, -⟩ := undo_eq_of_spendable (head.spendable hcbtx)
      (head.undo hcbtx (hfresh.1.distinct hcbtx))
    rw [map_cons, zip_cons_cons, undoTxsWrites, txsWrites_cons, writes_append,
      writes_append, ih (fun t ht => hcb t (mem_cons_of_mem _ ht)) hfresh.2]
    exact undoTxWrites_txWrites hfresh.1 (fun hc => by rw [hcbtx] at hc; cases hc)
      fun _ => ⟨txundo, rfl, hundo⟩

variable {b : StoredBlock} {env : ValidationEnv} {tip : Option CBlockIndex}

theorem ConnectedOn.disconnectWrites_connectWrites {store : ChainStore}
    (h : ConnectedOn env store m tip b) :
    writes (writes m b.connectWrites) b.disconnectWrites = m := by
  obtain ⟨cb, rest, undo0, hshape, htxs⟩ := h.spec
  have hfresh := h.fresh
  unfold BlockFresh at hfresh
  rw [StoredBlock.connectWrites, StoredBlock.disconnectWrites, hshape.vtx]
  rw [hshape.vtx] at hfresh
  cases htxs with
  | cons head tail =>
    rw [zip_cons_cons, undoTxsWrites, txsWrites_cons, writes_append, writes_append,
      undoTxsWrites_txsWrites tail hshape.others hfresh.2]
    exact undoTxWrites_txWrites hfresh.1 (fun _ => rfl)
      fun hc => by rw [hshape.coinbase] at hc; cases hc

/-! ## What a branch has -/

variable {pindexNew : CBlockIndex}

section

variable {store : ChainStore} {m0 : COutPoint → Option Coin} {tip0 : Option CBlockIndex}
  {bs : List StoredBlock}

theorem Branch.eq_writes (h : Branch env store m0 tip0 bs m tip) :
    m = writes m0 (branchWrites bs) := by
  induction h with
  | nil => rfl
  | cons before last ih => rw [branchWrites, writes_append, ← ih]

theorem Branch.undo (h : Branch env store m0 tip0 bs m tip) :
    writes m (branchUndoWrites bs) = m0 := by
  induction h with
  | nil => rfl
  | cons before last ih =>
    rw [branchUndoWrites, flatMap_cons, writes_append, last.disconnectWrites_connectWrites]
    exact ih

theorem Branch.coinsOk (hm : CoinsOk m0) (h : Branch env store m0 tip0 bs m tip) : CoinsOk m := by
  induction h with
  | nil => exact hm
  | cons before last ih => exact ih.txsWrites last.fresh

theorem Branch.append {bs' : List StoredBlock} {m' : COutPoint → Option Coin}
    {tip' : Option CBlockIndex} (h : Branch env store m0 tip0 bs m tip)
    (h' : Branch env store m tip bs' m' tip') : Branch env store m0 tip0 (bs' ++ bs) m' tip' := by
  induction h' with
  | nil => exact h
  | cons before last ih => exact .cons ih last

theorem Branch.allCoins (hm : AllCoins Q m0) (h : Branch env store m0 tip0 bs m tip)
    (hQ : ∀ b ∈ bs, b.Creates Q) : AllCoins Q m := by
  induction h with
  | nil => exact hm
  | cons before last ih =>
    exact (ih fun b hb => hQ b (mem_cons_of_mem _ hb)).txsWrites
      (hQ _ (mem_cons_self ..))

/-! ## The index along a branch -/

/-- The tip is in the block index. -/
def ChainStore.Knows (store : ChainStore) (tip : Option CBlockIndex) : Prop :=
  ∀ p, tip = some p → store.mapBlockIndex p.hash = some p

/-- The height of the next block. -/
def nextHeight (tip : Option CBlockIndex) : Nat := (tip.map fun p => p.nHeight + 1).getD 0

theorem Branch.knows (ht : store.Knows tip0) (h : Branch env store m0 tip0 bs m tip) :
    store.Knows tip := by
  cases h with
  | nil => exact ht
  | cons before last =>
    intro p hp
    cases hp
    exact last.index

theorem ConnectedOn.pprev (ht : store.Knows tip) (h : ConnectedOn env store m tip b) :
    store.pprev b.pindex = tip := by
  have hext := h.ext
  unfold ChainStore.pprev
  cases tip with
  | none => rw [hext.2, bind_none]
  | some p => rw [hext.2, bind_some, ht p rfl]

theorem ConnectedOn.nHeight (h : ConnectedOn env store m tip b) :
    b.pindex.nHeight = nextHeight tip := by
  have hext := h.ext
  cases tip with
  | none => exact hext.1
  | some p => exact hext.1

theorem Branch.nextHeight_eq (h : Branch env store m0 tip0 bs m tip) :
    nextHeight tip = nextHeight tip0 + bs.length := by
  induction h with
  | nil => rfl
  | @cons bs m tip b before last ih =>
    have hh := last.nHeight
    show b.pindex.nHeight + 1 = _
    rw [length_cons]
    omega

theorem Branch.tip_indexed (h : Branch env store m0 none bs m tip) {p : CBlockIndex}
    (hp : tip = some p) : p.hash ≠ 0 ∧ store.mapBlockIndex p.hash = some p := by
  cases h with
  | nil => cases hp
  | cons before last =>
    cases hp
    exact ⟨last.notNull, last.index⟩

theorem Branch.getAncestor (ht : store.Knows tip0) (h : Branch env store m0 tip0 bs m tip)
    (htip : tip = some pindexNew) : ∀ b ∈ bs, b.pindex.nHeight ≤ pindexNew.nHeight ∧
      store.getAncestor pindexNew b.pindex.nHeight = some b.pindex := by
  induction h generalizing pindexNew with
  | nil => intro b hb; cases hb
  | @cons bs m tip b before last ih =>
    cases htip
    intro b' hb'
    rcases mem_cons.mp hb' with rfl | hmem
    · refine ⟨le_rfl, ?_⟩
      rw [getAncestor, if_neg (by omega), Nat.sub_self]
      rfl
    · -- one step back is the tip before, and it has the block as ancestor
      have hprev := last.pprev (before.knows ht)
      have hheight := last.nHeight
      cases tip with
      | none =>
        cases before with
        | nil => cases hmem
      | some p =>
        obtain ⟨hle, hanc⟩ := ih rfl b' hmem
        have hb : b.pindex.nHeight = p.nHeight + 1 := hheight
        rw [getAncestor, if_neg (by omega)] at hanc
        refine ⟨by omega, ?_⟩
        have hstep : b.pindex.nHeight - b'.pindex.nHeight =
            (p.nHeight - b'.pindex.nHeight) + 1 := by omega
        rw [getAncestor, if_neg (by omega), hstep, back, hprev,
          bind_some, hanc]

theorem Branch.back (ht : store.Knows tip0) (h : Branch env store m0 tip0 bs m tip) :
    (∀ i b, bs[i]? = some b → tip.bind (store.back i) = some b.pindex) ∧
      tip.bind (store.back bs.length) = tip0 := by
  induction h with
  | nil =>
    refine ⟨fun i b hb => ?_, ?_⟩
    · rw [getElem?_nil] at hb
      cases hb
    · cases tip0 <;> rfl
  | @cons bs m tip b before last ih =>
    have hprev := last.pprev (before.knows ht)
    have hsucc : ∀ n, (some b.pindex).bind (store.back (n + 1)) = tip.bind (store.back n) := by
      intro n
      rw [bind_some, ChainStore.back, hprev]
    refine ⟨fun i b' hb' => ?_, ?_⟩
    · cases i with
      | zero =>
        cases hb'
        rfl
      | succ i => rw [hsucc]; exact ih.1 i b' hb'
    · rw [length_cons, hsucc]
      exact ih.2

theorem ChainStore.back_succ (store : ChainStore) (n : Nat) (p : CBlockIndex) :
    store.back (n + 1) p = (store.back n p).bind store.pprev := by
  induction n generalizing p with
  | zero =>
    show (store.pprev p).bind (store.back 0) = store.pprev p
    cases store.pprev p <;> rfl
  | succ n ih =>
    have hstep : store.back (n + 1 + 1) p = (store.pprev p).bind (store.back (n + 1)) := rfl
    have hstep' : store.back (n + 1) p = (store.pprev p).bind (store.back n) := rfl
    rw [hstep, hstep']
    cases store.pprev p with
    | none => rfl
    | some q => exact ih q

end

/-- Two branches from one block that have no block in common. -/
structure Fork (env : ValidationEnv) (store : ChainStore) (m0 : COutPoint → Option Coin)
    (pindexFork : CBlockIndex) (O N : List StoredBlock) (mOld mNew : COutPoint → Option Coin)
    (pindexOld pindexNew : CBlockIndex) : Prop where
  known : store.mapBlockIndex pindexFork.hash = some pindexFork
  old : Branch env store m0 (some pindexFork) O mOld (some pindexOld)
  new : Branch env store m0 (some pindexFork) N mNew (some pindexNew)
  apart : ∀ b ∈ O, ∀ b' ∈ N, b.pindex ≠ b'.pindex

variable {mOld mNew : COutPoint → Option Coin}

variable {N : List StoredBlock} {m0 : COutPoint → Option Coin} {O : List StoredBlock}

theorem Fork.lastCommonAncestor {store : ChainStore} {pindexFork pindexOld : CBlockIndex}
    (h : Fork env store m0 pindexFork O N mOld mNew pindexOld pindexNew) :
    store.lastCommonAncestor pindexOld pindexNew = some pindexFork := by
  have hknows : store.Knows (some pindexFork) := by
    intro p hp
    cases hp
    exact h.known
  obtain ⟨hold, holdEnd⟩ := h.old.back hknows
  obtain ⟨hnew, hnewEnd⟩ := h.new.back hknows
  rw [bind_some] at holdEnd hnewEnd
  have hOld : pindexOld.nHeight + 1 = pindexFork.nHeight + 1 + O.length := h.old.nextHeight_eq
  have hNew : pindexNew.nHeight + 1 = pindexFork.nHeight + 1 + N.length := h.new.nextHeight_eq
  -- `i` steps after the heights were made equal; by induction on the steps left
  have hmeet : ∀ n i, i ≤ min O.length N.length → min O.length N.length ≤ i + n →
      store.meet n (store.back (O.length - N.length + i) pindexOld)
        (store.back (N.length - O.length + i) pindexNew) = some pindexFork := by
    intro n
    induction n with
    | zero =>
      intro i hi hn
      have hi' : O.length - N.length + i = O.length := by omega
      have hi'' : N.length - O.length + i = N.length := by omega
      rw [hi', hi'', holdEnd, hnewEnd, meet, if_pos rfl]
    | succ n ih =>
      intro i hi hn
      by_cases hlast : i = min O.length N.length
      · have hi' : O.length - N.length + i = O.length := by omega
        have hi'' : N.length - O.length + i = N.length := by omega
        rw [hi', hi'', holdEnd, hnewEnd, meet, if_pos rfl]
      · have hO : O.length - N.length + i < O.length := by omega
        have hN : N.length - O.length + i < N.length := by omega
        have hbO := hold _ _ (getElem?_eq_getElem hO)
        have hbN := hnew _ _ (getElem?_eq_getElem hN)
        rw [bind_some] at hbO hbN
        have hne : some O[O.length - N.length + i].pindex ≠
            some N[N.length - O.length + i].pindex := fun heq =>
          h.apart _ (getElem_mem hO) _ (getElem_mem hN) (some.inj heq)
        have hnext := ih (i + 1) (by omega) (by omega)
        rw [← Nat.add_assoc, ← Nat.add_assoc, back_succ, back_succ, hbO, hbN,
          bind_some, bind_some] at hnext
        rw [hbO, hbN, meet, if_neg hne]
        exact hnext
  have hpa : (if pindexOld.nHeight > pindexNew.nHeight then
      store.getAncestor pindexOld pindexNew.nHeight else some pindexOld) =
      store.back (O.length - N.length + 0) pindexOld := by
    split
    · have hdiff : pindexOld.nHeight - pindexNew.nHeight = O.length - N.length + 0 := by omega
      rw [getAncestor, if_neg (by omega), hdiff]
    · have hzero : O.length - N.length + 0 = 0 := by omega
      rw [hzero]
      rfl
  have hpb : (if pindexNew.nHeight > pindexOld.nHeight then
      store.getAncestor pindexNew pindexOld.nHeight else some pindexNew) =
      store.back (N.length - O.length + 0) pindexNew := by
    split
    · have hdiff : pindexNew.nHeight - pindexOld.nHeight = N.length - O.length + 0 := by omega
      rw [getAncestor, if_neg (by omega), hdiff]
    · have hzero : N.length - O.length + 0 = 0 := by omega
      rw [hzero]
      rfl
  unfold ChainStore.lastCommonAncestor
  rw [hpa, hpb]
  exact hmeet _ 0 (by omega) (by omega)

/-! ## The undo records of a branch -/

theorem recordsOk_of_connected {nHeight : Nat} (hm : AllCoins Q m)
    (h : TxsConnected nHeight m txs undos) (hcb : ∀ tx ∈ txs, tx.isCoinBase = false)
    (hfresh : Along TxFresh nHeight m txs)
    (hQ : ∀ tx ∈ txs, ∀ o coin, o.hash = tx.hash → coin.nHeight = nHeight →
      coin.fCoinBase = tx.isCoinBase → Q o coin) :
    ∀ x ∈ txs.zip (undos.map some), Plain.RecordsOk Q x.1 x.2 := by
  induction h with
  | nil => intro x hx; cases hx
  | @cons m tx txs txundo undos head tail ih =>
    have htx : tx ∈ tx :: txs := mem_cons_self ..
    intro x hx
    rcases mem_cons.mp hx with rfl | hmem
    · obtain ⟨hundo, -⟩ := undo_eq_of_spendable (head.spendable (hcb tx htx))
        (head.undo (hcb tx htx) (hfresh.1.distinct (hcb tx htx)))
      refine ⟨fun vprevout hv => ?_, fun x hx => ?_⟩
      · cases hv
        have hlen := congrArg length hundo
        rwa [length_map, length_map, CTransaction.prevouts, length_map] at hlen
      · -- the record at an input is the coin the input named
        have hx' : x ∈ tx.prevouts.zip txundo := hx
        obtain ⟨i, hi⟩ := mem_iff_getElem?.mp hx'
        obtain ⟨ho, hcoin⟩ := getElem?_zip_eq_some.mp hi
        have heq := congrArg (·[i]?) hundo
        simp only [getElem?_map, ho, hcoin, map_some] at heq
        exact hm _ _ (some.inj heq).symm
    · exact ih (hm.txWrites (hQ tx htx)) (fun t ht => hcb t (mem_cons_of_mem _ ht)) hfresh.2
        (fun t ht => hQ t (mem_cons_of_mem _ ht)) x hmem

variable {d : CCoinsViewDB} {x : COutPoint → Option Coin} {cache : CCoinsViewCache}

section

variable {store : ChainStore}

theorem ConnectedOn.recordsOk (h : ConnectedOn env store m tip b) (hm : AllCoins Q m)
    (hQ : b.Creates Q) :
    ∀ x ∈ b.block.vtx.zip (none :: b.blockundo.map some), Plain.RecordsOk Q x.1 x.2 := by
  obtain ⟨cb, rest, undo0, hshape, htxs⟩ := h.spec
  have hfresh := h.fresh
  have hcreates : ∀ tx ∈ cb :: rest, ∀ o coin, o.hash = tx.hash →
      coin.nHeight = b.pindex.nHeight → coin.fCoinBase = tx.isCoinBase → Q o coin := by
    rw [← hshape.vtx]
    exact hQ
  unfold BlockFresh at hfresh
  rw [hshape.vtx] at hfresh ⊢
  cases htxs with
  | cons head tail =>
    intro x hx
    rcases mem_cons.mp hx with rfl | hmem
    · refine ⟨fun _ hv => (nomatch hv), fun x hx => ?_⟩
      rw [getD_none, List.zip_nil_right] at hx
      cases hx
    · exact recordsOk_of_connected (hm.txWrites (hcreates cb (mem_cons_self ..))) tail
        hshape.others hfresh.2 (fun t ht => hcreates t (mem_cons_of_mem _ ht)) x hmem

/-! ## One block, rolled back or forward -/

/-- What the replay has made of its cache: a coherent cache over the same
    database, showing `m`. -/
structure Shows (d : CCoinsViewDB) (m : COutPoint → Option Coin) (cache : CCoinsViewCache) :
    Prop where
  coherent : cache.Coherent
  base : cache.base = .db d
  coinAt : cache.coinAt = m

theorem rollbackBlock_eq (h : ConnectedOn env store m tip b) (hpos : 0 < b.pindex.nHeight) :
    rollbackBlock store b.pindex cache = (do
      let (res, cache) ← disconnectBlock b.block b.pindex cache (some b.blockundo)
      .ok (res != .failed, cache)) := by
  unfold rollbackBlock
  rw [if_pos hpos, h.read, h.undo]

theorem rollbackBlock_spec (hQ : FixesGenesis Q) (hm : AllCoins Q m) (hok : CoinsOk m)
    (h : ConnectedOn env store m tip b) (hcreates : b.Creates Q) (hpos : 0 < b.pindex.nHeight)
    (hcache : Shows d x cache) (hx : AllCoins Q x) : (RecordsFound x b.disconnectWrites → ∃ cache',
      rollbackBlock store b.pindex cache = .ok (true, cache') ∧
        Shows d (writes x b.disconnectWrites) cache') ∧
    (¬ RecordsFound x b.disconnectWrites → ∃ cache',
      rollbackBlock store b.pindex cache = .ok (false, cache')) ∧
    AllCoins Q (writes x b.disconnectWrites) := by
  obtain ⟨cb, rest, undo0, hshape, htxs⟩ := h.spec
  obtain ⟨hyes, hnot, hall⟩ := Plain.disconnectTxs_writes hQ b.pindex.nHeight hx
    (h.recordsOk hm hcreates)
  have hfollows := disconnectBlock_follows hok hshape h.fresh htxs hcache.coherent
  rw [hcache.coinAt] at hfollows
  rw [rollbackBlock_eq h hpos]
  refine ⟨fun hfound => ?_, fun hfound => ?_, hall⟩
  · obtain ⟨clean, he⟩ := hyes hfound
    rw [he] at hfollows
    obtain ⟨view', hd, hcoh, hat, -, -, hbase⟩ := hfollows
    rw [hd]
    refine ⟨view', ?_, hcoh, hbase d hcache.base, hat⟩
    -- clean or unclean, it has not failed
    cases clean <;> rfl
  · rw [hnot hfound] at hfollows
    obtain ⟨view', hd⟩ := hfollows
    rw [hd]
    exact ⟨view', rfl⟩

theorem rollforwardBlock_spec (h : ConnectedOn env store m tip b) (hcache : Shows d x cache) :
    ∃ cache', rollforwardBlock store b.pindex cache = .ok (true, cache') ∧
      Shows d (writes x b.connectWrites) cache' := by
  obtain ⟨cache', he, hcoh, hframe, hat⟩ :=
    rollforwardTxs_spec b.pindex.nHeight h.outputs_notNull hcache.coherent
  refine ⟨cache', ?_, hcoh, hframe.baseDB d hcache.base, ?_⟩
  · unfold rollforwardBlock
    rw [h.read]
    simp only [he]
    rfl
  · rw [hat, hcache.coinAt, StoredBlock.connectWrites]

end

/-! ## The two loops -/

section

variable {store : ChainStore} {pindexFork : CBlockIndex} {bs : List StoredBlock}

theorem rollback_succ {pindex : CBlockIndex} {pindexFork : Option CBlockIndex}
    (hne : some pindex ≠ pindexFork) (steps : Nat) :
    rollback store pindexFork (steps + 1) (some pindex) cache = (do
      let (done, cache) ← rollbackBlock store pindex cache
      if done then rollback store pindexFork steps (store.pprev pindex) cache
      else .ok (false, cache)) := by
  rw [rollback, if_neg hne]

theorem rollback_spec (hQ : FixesGenesis Q) (hm : AllCoins Q m0) (hok : CoinsOk m0)
    (hknows : store.Knows (some pindexFork)) (h : Branch env store m0 (some pindexFork) bs m tip)
    (hcreates : ∀ b ∈ bs, b.Creates Q) {steps : Nat} (hsteps : bs.length ≤ steps)
    (hcache : Shows d x cache) (hx : AllCoins Q x) :
    (RecordsFound x (branchUndoWrites bs) → ∃ cache',
      rollback store (some pindexFork) steps tip cache = .ok (true, cache') ∧
        Shows d (writes x (branchUndoWrites bs)) cache') ∧
    (¬ RecordsFound x (branchUndoWrites bs) → ∃ cache',
      rollback store (some pindexFork) steps tip cache = .ok (false, cache')) := by
  induction h generalizing steps x cache with
  | nil =>
    refine ⟨fun _ => ⟨cache, ?_, hcache⟩, fun h => absurd trivial h⟩
    unfold rollback
    rw [if_pos rfl]
  | @cons bs m tip b before last ih =>
    have hcreates' : ∀ b ∈ bs, b.Creates Q := fun b hb => hcreates b (mem_cons_of_mem _ hb)
    have hheight : b.pindex.nHeight = pindexFork.nHeight + 1 + bs.length :=
      last.nHeight.trans before.nextHeight_eq
    have hne : some b.pindex ≠ some pindexFork := by
      intro heq
      rw [some.inj heq] at hheight
      omega
    -- the last block of the branch goes first
    obtain ⟨hyes, hnot, hall⟩ := rollbackBlock_spec hQ (before.allCoins hm hcreates')
      (before.coinsOk hok) last (hcreates b (mem_cons_self ..)) (by omega) hcache hx
    cases steps with
    | zero => cases hsteps
    | succ steps =>
      have hsteps' : bs.length ≤ steps := Nat.le_of_succ_le_succ hsteps
      rw [rollback_succ hne, last.pprev (before.knows hknows), branchUndoWrites, flatMap_cons,
        recordsFound_append, writes_append]
      refine ⟨fun hfound => ?_, fun hfound => ?_⟩
      · obtain ⟨cache₁, he1, hcache1⟩ := hyes hfound.1
        obtain ⟨cache', he, hcache'⟩ := (ih hcreates' hsteps' hcache1 hall).1 hfound.2
        rw [he1]
        exact ⟨cache', he, hcache'⟩
      · by_cases hb : RecordsFound x b.disconnectWrites
        · obtain ⟨cache₁, he1, hcache1⟩ := hyes hb
          obtain ⟨cache', he⟩ := (ih hcreates' hsteps' hcache1 hall).2 fun hr => hfound ⟨hb, hr⟩
          rw [he1]
          exact ⟨cache', he⟩
        · obtain ⟨cache₁, he1⟩ := hnot hb
          rw [he1]
          exact ⟨cache₁, rfl⟩

theorem rollforward_append {hs : List Nat} (hs' : List Nat) {cache' : CCoinsViewCache}
    (h : rollforward store pindexNew hs cache = .ok (true, cache')) :
    rollforward store pindexNew (hs ++ hs') cache = rollforward store pindexNew hs' cache' := by
  induction hs generalizing cache with
  | nil => cases h; rfl
  | cons nHeight rest ih =>
    rw [cons_append]
    rw [rollforward] at h
    rw [rollforward]
    cases hanc : store.getAncestor pindexNew nHeight with
    | none =>
      rw [hanc] at h
      cases h
    | some pindex =>
      rw [hanc] at h
      obtain ⟨⟨done, cache₁⟩, hblock, h⟩ := bind_eq_ok.mp h
      simp only [hblock]
      cases done with
      | false => cases h
      | true => exact ih h

theorem rollforward_spec (h : Branch env store m0 (some pindexFork) bs m tip)
    (hanc : ∀ b ∈ bs, store.getAncestor pindexNew b.pindex.nHeight = some b.pindex)
    (hcache : Shows d x cache) :
    ∃ cache', rollforward store pindexNew (range' (pindexFork.nHeight + 1) bs.length) cache =
      .ok (true, cache') ∧ Shows d (writes x (branchWrites bs)) cache' := by
  induction h with
  | nil => exact ⟨cache, rfl, hcache⟩
  | @cons bs m tip b before last ih =>
    have hheight : b.pindex.nHeight = pindexFork.nHeight + 1 + bs.length :=
      last.nHeight.trans before.nextHeight_eq
    obtain ⟨cache₁, he1, hcache1⟩ := ih fun b' hb' => hanc b' (mem_cons_of_mem _ hb')
    obtain ⟨cache', he, hcache'⟩ := rollforwardBlock_spec last hcache1
    refine ⟨cache', ?_, ?_⟩
    · rw [length_cons, range'_concat, Nat.one_mul, rollforward_append _ he1]
      unfold rollforward
      rw [← hheight, hanc b (mem_cons_self ..)]
      simp only [he]
      rfl
    · rw [branchWrites, writes_append]
      exact hcache'

end

/-! ## The last flush -/

variable {old_tip : Uint256}

theorem flush_spec (hcache : Shows d m cache) (hnull : cache.hashBlock ≠ 0)
    (htip : d.oldTip cache.hashBlock = .ok old_tip) :
    ∃ cache' d', cache.flush = .ok cache' ∧ cache'.base = .db d' ∧ d'.coinAt = m ∧
      d'.bestBlock = cache.hashBlock ∧ d'.headBlocks = [] := by
  obtain ⟨hashBlock, cacheCoins, base⟩ := cache
  obtain ⟨hcoh, rfl, hat⟩ := hcache
  obtain ⟨d', hd'⟩ : ∃ d', d.batchWrite cacheCoins hashBlock = .ok d' := by
    unfold CCoinsViewDB.batchWrite CCoinsViewDB.batchWriteEntries
    rw [if_neg hnull, htip]
    exact ⟨_, rfl⟩
  obtain ⟨hcoins, hbest, hheads⟩ := CCoinsViewDB.batchWrite_spec hd'
  refine ⟨⟨hashBlock, ∅, .db d'⟩, d', ?_, rfl, ?_, hbest, hheads⟩
  · simp only [flush, CCoinsView.batchWrite, hd']
  · have hview := CCoinsView.coinAt_cache_eq_writes hcoh
    rw [hcoins, ← hat]
    exact hview.symm

/-! ## An interrupted `BatchWrite` -/

variable {entries : List CoinsMapItem}

variable {hashBlock : Uint256}

namespace CCoinsViewDB

/-- `d'` is what `BatchWrite` leaves of `d` when it is interrupted after some of
    its batches, but not all. -/
def Interrupted (d : CCoinsViewDB) (entries : List CoinsMapItem) (hashBlock old_tip : Uint256)
    (d' : CCoinsViewDB) : Prop :=
  ∃ full p, d.oldTip hashBlock = .ok old_tip ∧ 0 < p ∧
    p < (batches full hashBlock entries (headerOps hashBlock old_tip)).length ∧
    d' = ((batches full hashBlock entries (headerOps hashBlock old_tip)).take p).foldl writeBatch d

theorem batches_take_flatten (full : List BatchOp → Bool) (hashBlock : Uint256)
    (entries : List CoinsMapItem) (batch : List BatchOp) {p : Nat} (hp : 0 < p)
    (hlt : p < (batches full hashBlock entries batch).length) :
    ∃ j, ((batches full hashBlock entries batch).take p).flatten =
      batch ++ (entries.take j).flatMap fun x => entryOps x.1 x.2 := by
  induction entries generalizing batch p with
  | nil =>
    have hone : p < 1 := hlt
    omega
  | cons x rest ih =>
    obtain ⟨o, e⟩ := x
    simp only [batches] at hlt ⊢
    by_cases hfull : full (batch ++ entryOps o e) = true
    · rw [if_pos hfull] at hlt ⊢
      -- the batch is written, and the next one starts empty
      cases p with
      | zero => omega
      | succ p =>
        rw [take_succ_cons, flatten_cons]
        by_cases hz : p = 0
        · subst hz
          exact ⟨1, by simp⟩
        · rw [length_cons] at hlt
          obtain ⟨j, hj⟩ := ih [] (Nat.pos_of_ne_zero hz) (Nat.lt_of_succ_lt_succ hlt)
          exact ⟨j + 1, by rw [hj]; simp [append_assoc]⟩
    · rw [if_neg hfull] at hlt ⊢
      obtain ⟨j, hj⟩ := ih (batch ++ entryOps o e) hp hlt
      exact ⟨j + 1, by rw [hj]; simp [append_assoc]⟩

theorem Interrupted.spec {d' : CCoinsViewDB} (h : Interrupted d entries hashBlock old_tip d')
    (hnd : entries.NodupKeys) : d'.bestBlock = 0 ∧ d'.headBlocks = [hashBlock, old_tip] ∧
      ∀ o, d'.coinAt o = d.coinAt o ∨ d'.coinAt o = writes d.coinAt (dirtyWrites entries) o := by
  obtain ⟨full, p, -, hp, hlt, rfl⟩ := h
  obtain ⟨j, hj⟩ := batches_take_flatten full hashBlock entries _ hp hlt
  rw [foldl_writeBatch, hj]
  have hkeep : ∀ (xs : List CoinsMapItem) (d1 : CCoinsViewDB),
      (d1.writeBatch (xs.flatMap fun x => entryOps x.1 x.2)).bestBlock = d1.bestBlock ∧
      (d1.writeBatch (xs.flatMap fun x => entryOps x.1 x.2)).headBlocks = d1.headBlocks := by
    intro xs
    induction xs with
    | nil => exact fun d1 => ⟨rfl, rfl⟩
    | cons x rest ih =>
      intro d1
      rw [flatMap_cons, writeBatch_append]
      obtain ⟨h1, h2⟩ := ih (d1.writeBatch (entryOps x.1 x.2))
      rw [h1, h2]
      unfold entryOps
      split
      · split <;> exact ⟨rfl, rfl⟩
      · exact ⟨rfl, rfl⟩
  rw [writeBatch_append]
  refine ⟨(hkeep _ _).1, (hkeep _ _).2, fun o => ?_⟩
  have hhead : (d.writeBatch (headerOps hashBlock old_tip)).coinAt = d.coinAt := rfl
  rw [coinAt_writeBatch, filterMap_opWrite_entries, hhead]
  by_cases hmem : ∃ w ∈ dirtyWrites (entries.take j), w.1 = o
  · -- written already, with the value of its one entry
    right
    obtain ⟨w, hw, rfl⟩ := hmem
    obtain ⟨e, he, hd, -⟩ := mem_dirtyWrites.mp hw
    rw [writes_dirtyWrites_of_mem (hnd.sublist (take_sublist j entries)) _ he hd,
      writes_dirtyWrites_of_mem hnd _ (mem_of_mem_take he) hd]
  · left
    exact writes_of_forall_ne _ _ _ fun w hw heq => hmem ⟨w, hw, heq⟩

end CCoinsViewDB

open CCoinsViewDB

/-! ## Recovery -/

/-- `ReplayBlocks` succeeds, and leaves the coins `m`, the best block and no head
    blocks. -/
def Recovers (store : ChainStore) (d : CCoinsViewDB) (m : COutPoint → Option Coin)
    (hashBlock : Uint256) : Prop :=
  ∃ d', replayBlocks store d = .ok (true, .db d') ∧ d'.coinAt = m ∧ d'.bestBlock = hashBlock ∧
    d'.headBlocks = []

/-- Each outpoint the genesis block writes, and none of the blocks above it, is
    as the genesis block leaves it. -/
def GenesisWritten (N : List StoredBlock) (m : COutPoint → Option Coin) : Prop :=
  ∀ g, N.getLast? = some g → ∀ w ∈ g.connectWrites, (∀ w' ∈ branchWrites N.dropLast, w'.1 ≠ w.1) →
    m w.1 = writes (fun _ => none) g.connectWrites w.1

/-- Where a coin comes from: a transaction of one of the blocks. -/
def CreatedIn (bs : List StoredBlock) (o : COutPoint) (coin : Coin) : Prop :=
  ∃ b ∈ bs, ∃ tx ∈ b.block.vtx, o.hash = tx.hash ∧ coin.nHeight = b.pindex.nHeight ∧
    coin.fCoinBase = tx.isCoinBase

/-- The ids of the genesis block's transactions are not used again. -/
def GenesisIdsUnique (bs : List StoredBlock) : Prop :=
  ∀ b ∈ bs, ∀ tx ∈ b.block.vtx, ∀ b' ∈ bs, ∀ tx' ∈ b'.block.vtx, tx.hash = tx'.hash →
    b.pindex.nHeight = 0 → b'.pindex.nHeight = 0 ∧ tx'.isCoinBase = tx.isCoinBase

variable {bs : List StoredBlock}

theorem GenesisIdsUnique.fixes (h : GenesisIdsUnique bs) : FixesGenesis (CreatedIn bs) := by
  rintro o o' coin coin' ⟨b, hb, tx, htx, ho, hh, hcb⟩ ⟨b', hb', tx', htx', ho', hh', hcb'⟩ heq hz
  obtain ⟨h1, h2⟩ := h b hb tx htx b' hb' tx' htx' (ho.symm.trans (heq.trans ho')) (hh ▸ hz)
  exact ⟨hh'.trans h1, hcb'.trans (h2.trans hcb.symm)⟩

theorem creates_createdIn (hb : b ∈ bs) : b.Creates (CreatedIn bs) :=
  fun tx htx _ _ ho hh hcb => ⟨b, hb, tx, htx, ho, hh, hcb⟩

theorem AllCoins.empty (Q : COutPoint → Coin → Prop) : AllCoins Q fun _ => none :=
  fun _ _ h => (nomatch h)

theorem AllCoins.mixed {m' : COutPoint → Option Coin} (hm : AllCoins Q m) (hm' : AllCoins Q m')
    (hx : ∀ o, x o = m o ∨ x o = m' o) : AllCoins Q x := by
  intro o coin h
  rcases hx o with heq | heq
  · exact hm o coin (heq ▸ h)
  · exact hm' o coin (heq ▸ h)

theorem shows_new (hd : (CCoinsView.db d).Coherent) :
    Shows d d.coinAt (new (.db d)) := by
  obtain ⟨hcoh, hat⟩ := new_spec _ hd
  exact ⟨hcoh, rfl, hat⟩

theorem replay_flush (hnull : pindexNew.hash ≠ 0) (hbest : d.bestBlock = 0)
    (hheads : d.headBlocks = [pindexNew.hash, old_tip]) (hcache : Shows d m cache) :
    ∃ cache' d', (cache.setBestBlock pindexNew.hash).flush = .ok cache' ∧ cache'.base = .db d' ∧
      d'.coinAt = m ∧ d'.bestBlock = pindexNew.hash ∧ d'.headBlocks = [] := by
  have htip : d.oldTip pindexNew.hash = .ok old_tip := by
    unfold oldTip
    rw [if_pos hbest, hheads]
    exact if_pos rfl
  have hshows : Shows d m (cache.setBestBlock pindexNew.hash) :=
    ⟨hcache.coherent, hcache.base, hcache.coinAt⟩
  exact flush_spec hshows hnull htip

theorem replayBranches_ok {store : ChainStore} {pindexOld pindexFork : Option CBlockIndex}
    {cache1 cache2 cache3 : CCoinsViewCache}
    (hback : rollback store pindexFork ((pindexOld.map CBlockIndex.nHeight).getD 0) pindexOld
      (new (.db d)) = .ok (true, cache1))
    (hforward : rollforward store pindexNew (replayHeights pindexFork pindexNew) cache1 =
      .ok (true, cache2))
    (hflush : (cache2.setBestBlock pindexNew.hash).flush = .ok cache3) :
    replayBranches store d pindexOld pindexFork pindexNew = .ok (true, cache3.base) := by
  unfold replayBranches
  simp only [hback, hforward, hflush, bind, Except.bind, Bool.not_true, Bool.false_eq_true, if_false]

section

variable {store : ChainStore}

/-- A flush across a reorganisation (or along one branch, when `O` is empty):
    replaying repairs the database exactly when no record is missing on the way
    back. -/
theorem replay_fork {pindexFork pindexOld : CBlockIndex}
    (hfork : Fork env store m0 pindexFork O N mOld mNew pindexOld pindexNew) (hQ : FixesGenesis Q)
    (hm : AllCoins Q m0) (hok : CoinsOk m0) (hO : ∀ b ∈ O, b.Creates Q) (hN : ∀ b ∈ N, b.Creates Q)
    (hold : pindexOld.hash ≠ 0 ∧ store.mapBlockIndex pindexOld.hash = some pindexOld)
    (hnew : pindexNew.hash ≠ 0 ∧ store.mapBlockIndex pindexNew.hash = some pindexNew)
    (hbest : d.bestBlock = 0) (hheads : d.headBlocks = [pindexNew.hash, pindexOld.hash])
    (hd : (CCoinsView.db d).Coherent) (hmixed : ∀ o, d.coinAt o = mOld o ∨ d.coinAt o = mNew o) :
    Recovers store d mNew pindexNew.hash ↔ RecordsFound d.coinAt (branchUndoWrites O) := by
  have hknows : store.Knows (some pindexFork) := by
    intro p hp
    cases hp
    exact hfork.known
  have hOld : pindexOld.nHeight + 1 = pindexFork.nHeight + 1 + O.length := hfork.old.nextHeight_eq
  have hNew : pindexNew.nHeight + 1 = pindexFork.nHeight + 1 + N.length := hfork.new.nextHeight_eq
  -- each coin on disk is one of the old set or of the new one
  have hx : AllCoins Q d.coinAt :=
    (hfork.old.allCoins hm hO).mixed (hfork.new.allCoins hm hN) hmixed
  have hreplay : replayBlocks store d =
      replayBranches store d (some pindexOld) (some pindexFork) pindexNew := by
    unfold replayBlocks
    rw [hheads]
    simp only [hnew.2, hold.2, if_neg hold.1, hfork.lastCommonAncestor]
  have hsteps : O.length ≤ pindexOld.nHeight := by omega
  obtain ⟨hyes, hnot⟩ := rollback_spec hQ hm hok hknows hfork.old hO hsteps (shows_new hd) hx
  have hheights : replayHeights (some pindexFork) pindexNew =
      List.range' (pindexFork.nHeight + 1) N.length := by
    show List.range' (pindexFork.nHeight + 1) (pindexNew.nHeight - pindexFork.nHeight) = _
    have hlen : pindexNew.nHeight - pindexFork.nHeight = N.length := by omega
    rw [hlen]
  constructor
  · intro hrec
    by_contra hfound
    -- a record that is missing stops the way back, and the replay reports failure
    obtain ⟨cache', he⟩ := hnot hfound
    obtain ⟨d', hrun, -⟩ := hrec
    have hfail : replayBranches store d (some pindexOld) (some pindexFork) pindexNew =
        .ok (false, .db d) := by
      unfold replayBranches
      simp only [map_some, getD_some, he]
      rfl
    rw [hreplay, hfail] at hrun
    cases hrun
  · intro hfound
    obtain ⟨cache₁, he1, hcache1⟩ := hyes hfound
    obtain ⟨cache2, he2, hcache2⟩ := rollforward_spec hfork.new
      (fun b hb => (hfork.new.getAncestor hknows rfl b hb).2) hcache1
    obtain ⟨cache3, d', he3, hbase, hcoins, hbest', hheads'⟩ :=
      replay_flush hnew.1 hbest hheads hcache2
    refine ⟨d', ?_, ?_, hbest', hheads'⟩
    · rw [hreplay, replayBranches_ok he1 (by rw [hheights]; exact he2) he3, hbase]
    · -- the writes lead from the old set to the new one, so they can be replayed
      have hwrites : writes mOld (branchUndoWrites O ++ branchWrites N) = mNew := by
        rw [writes_append, hfork.old.undo, ← hfork.new.eq_writes]
      rw [hcoins, ← writes_append, ← hwrites]
      apply writes_replay
      rw [hwrites]
      exact hmixed

theorem replay_first {g : StoredBlock} (hg : ConnectedOn env store (fun _ => none) none g)
    (hN : Branch env store (writes (fun _ => none) g.connectWrites) (some g.pindex) N mNew
      (some pindexNew))
    (hnew : pindexNew.hash ≠ 0 ∧ store.mapBlockIndex pindexNew.hash = some pindexNew)
    (hbest : d.bestBlock = 0) (hheads : d.headBlocks = [pindexNew.hash, 0])
    (hd : (CCoinsView.db d).Coherent) (hmixed : ∀ o, d.coinAt o = none ∨ d.coinAt o = mNew o) :
    Recovers store d mNew pindexNew.hash ↔ GenesisWritten (N ++ [g]) d.coinAt := by
  have hknows : store.Knows (some g.pindex) := by
    intro p hp
    cases hp
    exact hg.index
  have hzero : g.pindex.nHeight = 0 := hg.nHeight
  have hNew : pindexNew.nHeight + 1 = g.pindex.nHeight + 1 + N.length := hN.nextHeight_eq
  have hmNew := hN.eq_writes
  -- the replay runs through, whatever was written of the genesis block
  obtain ⟨cache2, he2, hcache2⟩ := rollforward_spec hN
    (fun b hb => (hN.getAncestor hknows rfl b hb).2) (shows_new hd)
  obtain ⟨cache3, d', he3, hbase, hcoins, hbest', hheads'⟩ :=
    replay_flush hnew.1 hbest hheads hcache2
  have hrun : replayBlocks store d = .ok (true, .db d') := by
    have hheights : replayHeights none pindexNew =
        range' (g.pindex.nHeight + 1) N.length := by
      show range' (0 + 1) (pindexNew.nHeight - 0) = _
      have hlen : pindexNew.nHeight - 0 = N.length := by omega
      rw [hlen, hzero]
    have hback : rollback store none 0 none (new (.db d)) =
        .ok (true, new (.db d)) := by
      unfold rollback
      rw [if_pos rfl]
    unfold replayBlocks
    rw [hheads]
    simp only [hnew.2, if_true]
    rw [replayBranches_ok hback (by rw [hheights]; exact he2) he3, hbase]
  have hlast : (N ++ [g]).getLast? = some g := getLast?_concat
  have hinit : (N ++ [g]).dropLast = N := dropLast_concat
  constructor
  · rintro ⟨d'', hrun', hcoins', -⟩ g' hg' w hw hfree
    rw [hlast] at hg'
    cases hg'
    rw [hinit] at hfree
    rw [hrun] at hrun'
    cases hrun'
    have hat := congrFun (hcoins.symm.trans hcoins') w.1
    rwa [writes_of_forall_ne _ _ _ hfree, hmNew, writes_of_forall_ne _ _ _ hfree] at hat
  · intro hgen
    refine ⟨d', hrun, ?_, hbest', hheads'⟩
    rw [hcoins]
    funext o
    by_cases hmem : ∃ w ∈ branchWrites N, w.1 = o
    · rw [hmNew]
      exact writes_congr_of_mem _ _ _ _ hmem
    · have hfree : ∀ w ∈ branchWrites N, w.1 ≠ o := fun w hw heq => hmem ⟨w, hw, heq⟩
      rw [writes_of_forall_ne _ _ _ hfree]
      by_cases hgw : ∃ w ∈ g.connectWrites, w.1 = o
      · obtain ⟨w, hw, rfl⟩ := hgw
        rw [hgen g hlast w hw (by rw [hinit]; exact hfree), hmNew,
          writes_of_forall_ne _ _ _ hfree]
      · -- nothing ever writes this outpoint
        have hnone : mNew o = none := by
          rw [hmNew, writes_of_forall_ne _ _ _ hfree,
            writes_of_forall_ne _ _ _ fun w hw heq => hgw ⟨w, hw, heq⟩]
        rcases hmixed o with heq | heq
        · rw [heq, hnone]
        · exact heq

theorem Branch.unsnoc {tip0 : Option CBlockIndex} (h : Branch env store m0 tip0 (bs ++ [b]) m tip) :
    ConnectedOn env store m0 tip0 b ∧
      Branch env store (writes m0 b.connectWrites) (some b.pindex) bs m tip := by
  induction bs generalizing m tip with
  | nil =>
    cases h with
    | cons before last =>
      cases before
      exact ⟨last, .nil⟩
  | cons b' bs ih =>
    cases h with
    | cons before last =>
      obtain ⟨hb, hbs⟩ := ih before
      exact ⟨hb, .cons hbs last⟩

end

theorem writes_dirtyWrites_perm {entries' : List CoinsMapItem} (hperm : entries.Perm entries')
    (hnd : entries'.NodupKeys) (m : COutPoint → Option Coin) :
    writes m (dirtyWrites entries) = writes m (dirtyWrites entries') := by
  have hnd' : entries.NodupKeys := (perm_nodupKeys hperm).mpr hnd
  funext o
  by_cases hmem : ∃ w ∈ dirtyWrites entries, w.1 = o
  · obtain ⟨w, hw, rfl⟩ := hmem
    obtain ⟨e, he, hd, -⟩ := mem_dirtyWrites.mp hw
    rw [writes_dirtyWrites_of_mem hnd' _ he hd,
      writes_dirtyWrites_of_mem hnd _ (hperm.mem_iff.mp he) hd]
  · have hfree : ∀ w ∈ dirtyWrites entries, w.1 ≠ o := fun w hw heq => hmem ⟨w, hw, heq⟩
    have hfree' : ∀ w ∈ dirtyWrites entries', w.1 ≠ o := by
      intro w hw
      obtain ⟨e, he, hd⟩ := mem_dirtyWrites.mp hw
      exact hfree w (mem_dirtyWrites.mpr ⟨e, hperm.mem_iff.mpr he, hd⟩)
    rw [writes_of_forall_ne _ _ _ hfree, writes_of_forall_ne _ _ _ hfree']

/-! ## The flush and its interruption -/

/-- The hash recorded for a tip, null for none. -/
def tipHash (tip : Option CBlockIndex) : Uint256 := (tip.map CBlockIndex.hash).getD 0

/-- The old and the new chain: the blocks `F` they share, then the blocks `O` of
    the old and `N` of the new one. -/
structure Chains (env : ValidationEnv) (store : ChainStore) (F O N : List StoredBlock)
    (mFork mOld mNew : COutPoint → Option Coin) (tipFork tipOld : Option CBlockIndex)
    (pindexNew : CBlockIndex) : Prop where
  common : Branch env store (fun _ => none) none F mFork tipFork
  old : Branch env store mFork tipFork O mOld tipOld
  new : Branch env store mFork tipFork N mNew (some pindexNew)
  apart : ∀ b ∈ O, ∀ b' ∈ N, b.pindex ≠ b'.pindex
  /-- All blocks descend from one genesis block. -/
  oneGenesis : tipFork = none → O = []
  ids : GenesisIdsUnique (F ++ O ++ N)

/-- The flush that is interrupted: a cache that shows the new set, over a
    database that holds the old one (or, when an earlier replay was interrupted
    as well, a mixture), with its entries in any order. -/
structure Flushing (c : CCoinsViewCache) (entries : List CoinsMapItem) (d : CCoinsViewDB)
    (mOld mNew : COutPoint → Option Coin) (hashBlock : Uint256) : Prop where
  coherent : c.Coherent
  base : c.base = .db d
  hashBlock : c.hashBlock = hashBlock
  coinAt : c.coinAt = mNew
  entries : entries.Perm c.cacheCoins.entries
  mixed : ∀ o, d.coinAt o = mOld o ∨ d.coinAt o = mNew o

variable {c : CCoinsViewCache}

theorem Flushing.writes_entries (h : Flushing c entries d mOld mNew hashBlock) :
    entries.NodupKeys ∧ writes d.coinAt (dirtyWrites entries) = mNew := by
  obtain ⟨hb, m, base⟩ := c
  obtain ⟨hcoh, rfl, -, hat, hperm, -⟩ := h
  refine ⟨(perm_nodupKeys hperm).mpr m.nodupKeys, ?_⟩
  rw [writes_dirtyWrites_perm hperm m.nodupKeys, ← hat]
  exact (CCoinsView.coinAt_cache_eq_writes hcoh).symm

theorem Flushing.coherent_of_mixed {d' : CCoinsViewDB}
    (h : Flushing c entries d mOld mNew hashBlock)
    (hmixed : ∀ o, d'.coinAt o = d.coinAt o ∨ d'.coinAt o = mNew o) :
    (CCoinsView.db d').Coherent := by
  obtain ⟨hb, m, base⟩ := c
  obtain ⟨hcoh, rfl, -, hat, -, -⟩ := h
  intro o coin hcoin
  have hcoin' : d'.coinAt o = some coin := hcoin
  rcases hmixed o with heq | heq
  · exact hcoh.1 o coin (heq.symm.trans hcoin')
  · rw [hcoin', ← hat] at heq
    exact hcoh.not_isSpent heq.symm

/-- An uninterrupted flush leaves the new set.  After an interrupted one,
    `ReplayBlocks` leaves the same, if no record of the old branch is missing
    when it is restored and, at the first flush, the outputs of the genesis block
    that no other block writes were written before the interruption; if not, it
    does not. -/
theorem replayBlocks_interrupted {env : ValidationEnv} {store : ChainStore}
    {F O N : List StoredBlock} {mFork mOld mNew : COutPoint → Option Coin}
    {tipFork tipOld : Option CBlockIndex} {pindexNew : CBlockIndex}
    (hchains : Chains env store F O N mFork mOld mNew tipFork tipOld pindexNew)
    {c : CCoinsViewCache} {entries : List CoinsMapItem} {d d' : CCoinsViewDB}
    (hflush : Flushing c entries d mOld mNew pindexNew.hash)
    (hint : d.Interrupted entries pindexNew.hash (tipHash tipOld) d') :
    (∀ full, ∃ d1, d.batchWriteEntries full entries pindexNew.hash = .ok d1 ∧ d1.coinAt = mNew ∧
      d1.bestBlock = pindexNew.hash ∧ d1.headBlocks = []) ∧
    (Recovers store d' mNew pindexNew.hash ↔
      RecordsFound d'.coinAt (branchUndoWrites O) ∧ (tipOld = none → GenesisWritten N d'.coinAt)) := by
  obtain ⟨hnd, hwrites⟩ := hflush.writes_entries
  obtain ⟨hbest, hheads, hstep⟩ := hint.spec hnd
  rw [hwrites] at hstep
  obtain ⟨full0, p, htip, -⟩ := hint
  have hnew := (hchains.common.append hchains.new).tip_indexed rfl
  refine ⟨fun full => ?_, ?_⟩
  · obtain ⟨d1, hd1⟩ : ∃ d1, d.batchWriteEntries full entries pindexNew.hash = .ok d1 := by
      unfold batchWriteEntries
      rw [if_neg hnew.1, htip]
      exact ⟨_, rfl⟩
    obtain ⟨hcoins, hbest1, hheads1⟩ := batchWriteEntries_spec hd1
    exact ⟨d1, hd1, hcoins.trans hwrites, hbest1, hheads1⟩
  have hcoherent := hflush.coherent_of_mixed hstep
  -- the partial database is a mixture of the old and the new set
  have hmixed : ∀ o, d'.coinAt o = mOld o ∨ d'.coinAt o = mNew o := by
    intro o
    rcases hstep o with heq | heq
    · rw [heq]
      exact hflush.mixed o
    · exact .inr heq
  have hcreates : ∀ b ∈ F ++ O ++ N, b.Creates (CreatedIn (F ++ O ++ N)) :=
    fun b hb => creates_createdIn hb
  have hF : ∀ b ∈ F, b.Creates (CreatedIn (F ++ O ++ N)) := fun b hb =>
    hcreates b (mem_append_left _ (mem_append_left _ hb))
  have hO : ∀ b ∈ O, b.Creates (CreatedIn (F ++ O ++ N)) := fun b hb =>
    hcreates b (mem_append_left _ (mem_append_right _ hb))
  have hN : ∀ b ∈ N, b.Creates (CreatedIn (F ++ O ++ N)) := fun b hb =>
    hcreates b (mem_append_right _ hb)
  cases tipFork with
  | none =>
    -- the first flush: there is no block before the new branch
    have hOnil := hchains.oneGenesis rfl
    subst hOnil
    have hold := hchains.old
    cases hold
    have hcommon := hchains.common
    cases hcommon
    have htrivial : RecordsFound d'.coinAt (branchUndoWrites []) := trivial
    rcases eq_nil_or_concat' N with rfl | ⟨N', g, rfl⟩
    · have hnewnil := hchains.new
      cases hnewnil
    · obtain ⟨hg, hN'⟩ := hchains.new.unsnoc
      rw [replay_first hg hN' hnew hbest hheads hcoherent hmixed]
      exact ⟨fun h => ⟨htrivial, fun _ => h⟩, fun h => h.2 rfl⟩
  | some pindexFork =>
    obtain ⟨pindexOld, rfl⟩ : ∃ pindexOld, tipOld = some pindexOld := by
      cases hchains.old with
      | nil => exact ⟨_, rfl⟩
      | cons before last => exact ⟨_, rfl⟩
    have hold := (hchains.common.append hchains.old).tip_indexed rfl
    have hfork : Fork env store mFork pindexFork O N mOld mNew pindexOld pindexNew :=
      ⟨(hchains.common.tip_indexed rfl).2, hchains.old, hchains.new, hchains.apart⟩
    rw [replay_fork hfork hchains.ids.fixes
      (hchains.common.allCoins (AllCoins.empty _) hF) (hchains.common.coinsOk CoinsOk.empty)
      hO hN hold hnew hbest hheads hcoherent hmixed]
    exact ⟨fun h => ⟨h, fun hnone => (nomatch hnone)⟩, fun h => h.1⟩

/-! ## A first flush

The genesis block and one block above it are connected on an empty database, and
the flush is cut into batches of one coin each. -/

namespace FirstFlush

open GenesisSpend

def block1 : CBlock where
  hash := 1001
  hashPrevBlock := 1000
  vtx := [coinbaseTx 2 1 [payAnyone (5 * COIN)]]

def store : ChainStore where
  mapBlockIndex := fun hash =>
    if hash = 1000 then some (pindex 0) else if hash = 1001 then some (pindex 1) else none
  readBlockFromDisk := fun p => if p.nHeight = 0 then some genesis else some block1
  undoReadFromDisk := fun _ => some []

def genesisStored : StoredBlock := { pindex := pindex 0, block := genesis, blockundo := [] }

def block1Stored : StoredBlock := { pindex := pindex 1, block := block1, blockundo := [] }

def rewardCoin : Coin := { out := payAnyone (5 * COIN), nHeight := 1, fCoinBase := true }

/-- The coins after both blocks. -/
def bothCoins : COutPoint → Option Coin := write onlyGenesis (⟨2, 0⟩, some rewardCoin)

/-- The entry of a coin that was just added. -/
def added (coin : Coin) : CCoinsCacheEntry := { coin := coin, dirty := true, fresh := false }

def cache0 : CCoinsViewCache where
  hashBlock := 1000
  cacheCoins := AList.insert ⟨1, 0⟩ (added genesisCoin) ∅
  base := .db .empty

def cache1 : CCoinsViewCache where
  hashBlock := 1001
  cacheCoins := AList.insert ⟨2, 0⟩ (added rewardCoin) cache0.cacheCoins
  base := .db .empty

theorem connect_genesis :
    connectBlock lenientEnv genesis (pindex 0) (new (.db .empty)) false =
      .ok (cache0, []) := rfl

theorem connect_block1 :
    connectBlock lenientEnv block1 (pindex 1) cache0 false = .ok (cache1, []) := rfl

theorem block1_fresh : BlockFresh onlyGenesis (pindex 1) block1 :=
  ⟨⟨fun h => (nomatch h), fun j => @onlyGenesis_of_ne 2 (by decide) j⟩, trivial⟩

theorem caches_spec : cache0.Coherent ∧ cache0.coinAt = onlyGenesis ∧ cache1.Coherent ∧
    cache1.coinAt = bothCoins := by
  have hstart : Reachable lenientEnv BlockFresh (new (.db .empty)) none := .start
  obtain ⟨_, _, _, -, hcoh, hat, -⟩ :=
    connectBlock_spec hstart.coinsOk.1 (start_coinAt ▸ genesis_fresh) connect_genesis
  have hat0 : cache0.coinAt = onlyGenesis := by
    rw [hat, start_coinAt]
    rfl
  obtain ⟨_, _, _, -, hcoh', hat', -⟩ :=
    connectBlock_spec hcoh (hat0 ▸ block1_fresh) connect_block1
  refine ⟨hcoh, hat0, hcoh', ?_⟩
  rw [hat', hat0]
  rfl

theorem chains : Chains lenientEnv store [] [] [block1Stored, genesisStored] (fun _ => none)
    (fun _ => none) bothCoins none none (pindex 1) := by
  obtain ⟨hcoh0, hat0, -, -⟩ := caches_spec
  have hstart : Reachable lenientEnv BlockFresh (new (.db .empty)) none := .start
  have hgenesis : ConnectedOn lenientEnv store (fun _ => none) none genesisStored :=
    ⟨⟨rfl, rfl⟩, by decide, rfl, rfl, rfl, genesis_fresh, _, _, hstart.coinsOk.1,
      start_coinAt, connect_genesis⟩
  have hblock1 : ConnectedOn lenientEnv store onlyGenesis (some (pindex 0)) block1Stored :=
    ⟨⟨rfl, rfl⟩, by decide, rfl, rfl, rfl, block1_fresh, _, _, hcoh0, hat0, connect_block1⟩
  refine ⟨.nil, .nil, .cons (.cons .nil hgenesis) hblock1, fun b hb => (nomatch hb),
    fun _ => rfl, ?_⟩
  -- the two coinbases have different ids
  intro b hb tx htx b' hb' tx' htx' heq hz
  simp only [append_nil, nil_append, mem_cons, not_mem_nil, or_false] at hb hb'
  rcases hb with rfl | rfl
  · cases hz
  · rcases hb' with rfl | rfl
    · have h1 : tx = coinbaseTx 1 0 [payAnyone GENESIS_MONEY] := mem_singleton.mp htx
      have h2 : tx' = coinbaseTx 2 1 [payAnyone (5 * COIN)] := mem_singleton.mp htx'
      rw [h1, h2] at heq
      exact absurd heq (by decide)
    · have h1 : tx = coinbaseTx 1 0 [payAnyone GENESIS_MONEY] := mem_singleton.mp htx
      have h2 : tx' = coinbaseTx 1 0 [payAnyone GENESIS_MONEY] := mem_singleton.mp htx'
      exact ⟨rfl, by rw [h1, h2]⟩

theorem flushing (hperm : entries.Perm cache1.cacheCoins.entries) :
    Flushing cache1 entries .empty (fun _ => none) bothCoins (pindex 1).hash := by
  obtain ⟨-, -, hcoh, hat⟩ := caches_spec
  exact ⟨hcoh, rfl, rfl, hat, hperm, fun o => .inl (AList.lookup_empty o)⟩

/-- The database with the one coin of the first batch. -/
def afterFirstBatch (o : COutPoint) (coin : Coin) : CCoinsViewDB where
  coins := AList.insert o coin ∅
  bestBlock := 0
  headBlocks := [1001, 0]

/-- One coin fills a batch. -/
def oneCoin (batch : List BatchOp) : Bool := 3 ≤ batch.length || batch.length = 1

/-- The coin of block 1 is written first, and the flush is interrupted: after
    the replay the genesis output is not in the database. -/
theorem genesis_coin_lost :
    Chains lenientEnv store [] [] [block1Stored, genesisStored] (fun _ => none)
      (fun _ => none) bothCoins none none (pindex 1) ∧
    Flushing cache1 cache1.cacheCoins.entries .empty (fun _ => none) bothCoins (pindex 1).hash ∧
    empty.Interrupted cache1.cacheCoins.entries (pindex 1).hash (tipHash none)
      (afterFirstBatch ⟨2, 0⟩ rewardCoin) ∧
    bothCoins ⟨1, 0⟩ = some genesisCoin ∧
    (∃ d', replayBlocks store (afterFirstBatch ⟨2, 0⟩ rewardCoin) = .ok (true, .db d') ∧
      d'.coinAt ⟨1, 0⟩ = none) ∧
    ¬ Recovers store (afterFirstBatch ⟨2, 0⟩ rewardCoin) bothCoins (pindex 1).hash := by
  have hreplay : ∃ d', replayBlocks store (afterFirstBatch ⟨2, 0⟩ rewardCoin) =
      .ok (true, .db d') ∧ d'.coinAt ⟨1, 0⟩ = none := ⟨_, rfl, rfl⟩
  refine ⟨chains, flushing (.refl _), ⟨oneCoin, 1, rfl, by decide, by decide, rfl⟩, rfl,
    hreplay, ?_⟩
  rintro ⟨d'', hrun', hcoins, -⟩
  obtain ⟨d', hrun, hnone⟩ := hreplay
  rw [hrun] at hrun'
  cases hrun'
  rw [hcoins] at hnone
  cases hnone

/-- When the genesis coin is written first, the replay adds the other one. -/
theorem genesis_coin_first :
    Recovers store (afterFirstBatch ⟨1, 0⟩ genesisCoin) bothCoins (pindex 1).hash := by
  have hperm : cache1.cacheCoins.entries.reverse.Perm cache1.cacheCoins.entries :=
    reverse_perm _
  have hint : empty.Interrupted cache1.cacheCoins.entries.reverse (pindex 1).hash
      (tipHash none) (afterFirstBatch ⟨1, 0⟩ genesisCoin) :=
    ⟨oneCoin, 1, rfl, by decide, by decide, rfl⟩
  refine (replayBlocks_interrupted chains (flushing hperm) hint).2.mpr ⟨trivial, fun _ => ?_⟩
  intro g hg w hw hfree
  cases hg
  cases mem_singleton.mp hw
  rfl

end FirstFlush

end Rcoin
