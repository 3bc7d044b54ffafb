/-
  `ConnectBlock` without the check for repeated transaction ids (BIP30).  A
  chain keeps a record of its transactions: every coin comes from one of them,
  and what they spent stays spent.  A transaction whose id is in the record has
  the inputs of the recorded one, so it spends a coin that is gone, or it is a
  coinbase that names another block's height; either way it does not get to
  `AddCoins`.
-/
import Rcoin.Chain.Disconnect
import Rcoin.Chain.CoinbaseHeight

namespace Rcoin

open Maps Fallible CCoinsViewCache CTransaction List Avoids ConnectState

/-! ## Transaction ids -/

/-- What the id of a transaction commits to: everything but the witnesses. -/
def CTransaction.withoutWitness (tx : CTransaction) : CTransaction :=
  { tx with hash := 0, vin := tx.vin.map fun txin => { txin with scriptWitness := [] } }

/-- No two transactions of the set have one id, unless they differ in their
    witnesses only. -/
def HashInjOn (T : Set CTransaction) : Prop :=
  ∀ tx ∈ T, ∀ tx' ∈ T, tx.hash = tx'.hash → tx.withoutWitness = tx'.withoutWitness

/-- `vin[0].scriptSig`. -/
def CTransaction.firstScriptSig (tx : CTransaction) : CScript :=
  (tx.vin.head?.map CTxIn.scriptSig).getD []

theorem withoutWitness_prevouts (tx : CTransaction) :
    tx.withoutWitness.prevouts = tx.prevouts := by
  rw [CTransaction.prevouts, withoutWitness, map_map]
  rfl

theorem withoutWitness_isCoinBase (tx : CTransaction) :
    tx.withoutWitness.isCoinBase = tx.isCoinBase := by
  unfold isCoinBase withoutWitness
  rcases tx.vin with _ | ⟨txin, _ | ⟨txin', rest⟩⟩ <;> rfl

theorem withoutWitness_firstScriptSig (tx : CTransaction) :
    tx.withoutWitness.firstScriptSig = tx.firstScriptSig := by
  unfold firstScriptSig withoutWitness
  cases tx.vin <;> rfl

variable {tx : CTransaction}

variable {tx' : CTransaction} {T : Set CTransaction}

theorem HashInjOn.prevouts_eq (hT : HashInjOn T) (hmem : tx ∈ T) (hmem' : tx' ∈ T)
    (h : tx.hash = tx'.hash) : tx.prevouts = tx'.prevouts := by
  rw [← withoutWitness_prevouts tx, hT tx hmem tx' hmem' h, withoutWitness_prevouts]

theorem HashInjOn.isCoinBase_eq (hT : HashInjOn T) (hmem : tx ∈ T) (hmem' : tx' ∈ T)
    (h : tx.hash = tx'.hash) : tx.isCoinBase = tx'.isCoinBase := by
  rw [← withoutWitness_isCoinBase tx, hT tx hmem tx' hmem' h, withoutWitness_isCoinBase]

theorem HashInjOn.firstScriptSig_eq (hT : HashInjOn T) (hmem : tx ∈ T) (hmem' : tx' ∈ T)
    (h : tx.hash = tx'.hash) : tx.firstScriptSig = tx'.firstScriptSig := by
  rw [← withoutWitness_firstScriptSig tx, hT tx hmem tx' hmem' h, withoutWitness_firstScriptSig]

/-! ## The record of a chain -/

/-- The transactions of a chain with their heights. -/
abbrev History := List (Nat × CTransaction)

/-- A transaction of a block that was accepted at a height: one of the given
    set, with inputs, and starting with the height if it is a coinbase. -/
structure TxAccepted (T : Set CTransaction) (nHeight : Nat) (tx : CTransaction) : Prop where
  mem : tx ∈ T
  inputs : tx.isCoinBase = false → tx.prevouts ≠ []
  height : tx.isCoinBase = true → nHeight ≤ INT_MAX ∧ pushInt64 nHeight <+: tx.firstScriptSig

/-- The coins are those of the recorded transactions, and none that these spent
    is there. -/
structure Recorded (T : Set CTransaction) (hist : History) (m : COutPoint → Option Coin) :
    Prop where
  accepted : ∀ x ∈ hist, TxAccepted T x.1 x.2
  created : ∀ o coin, m o = some coin → ∃ x ∈ hist, x.2.hash = o.hash
  spent : ∀ x ∈ hist, x.2.isCoinBase = false → ∀ o ∈ x.2.prevouts,
    m o = none ∧ ∃ y ∈ hist, y.2.hash = o.hash

theorem Recorded.empty (T : Set CTransaction) : Recorded T [] fun _ => none :=
  ⟨fun _ h => (nomatch h), fun _ _ h => (nomatch h), fun _ h => (nomatch h)⟩

/-- No recorded transaction has the id. -/
def NewId (hist : History) (tx : CTransaction) : Prop := ∀ x ∈ hist, x.2.hash ≠ tx.hash

/-- No recorded coinbase has the height. -/
def NewHeight (hist : History) (nHeight : Nat) (tx : CTransaction) : Prop :=
  tx.isCoinBase = true → ∀ x ∈ hist, x.2.isCoinBase = true → x.1 ≠ nHeight

theorem height_lt_int64 {n : Nat} (h : n ≤ INT_MAX) : n < 2 ^ 63 := by
  have hmax : INT_MAX = 2147483647 := rfl
  omega

variable {hist : History} {nHeight : Nat} {m : COutPoint → Option Coin}

/-- A transaction that can be connected has a new id.  The cases are the two
    ways in which one with a recorded id would fail. -/
theorem Recorded.newId (hT : HashInjOn T) (h : Recorded T hist m) (htx : TxAccepted T nHeight tx)
    (hnew : NewHeight hist nHeight tx)
    (hspend : tx.isCoinBase = false → ∀ o ∈ tx.prevouts, SpendableAt m nHeight o) :
    NewId hist tx := by
  intro x hx hash_eq
  have hx' := h.accepted x hx
  have hcb := hT.isCoinBase_eq hx'.mem htx.mem hash_eq
  cases hkind : tx.isCoinBase with
  | false =>
    -- its first input was spent when the recorded transaction was connected
    rw [hkind] at hcb
    obtain ⟨o, ho⟩ := exists_mem_of_ne_nil _ (htx.inputs hkind)
    obtain ⟨coin, hcoin, -⟩ := hspend hkind o ho
    have ho' : o ∈ x.2.prevouts := by
      rw [hT.prevouts_eq hx'.mem htx.mem hash_eq]
      exact ho
    have hgone := (h.spent x hx hcb o ho').1
    rw [hgone] at hcoin
    cases hcoin
  | true =>
    -- its script would start with two heights
    rw [hkind] at hcb
    obtain ⟨hle, hprefix⟩ := htx.height hkind
    obtain ⟨hle', hprefix'⟩ := hx'.height hcb
    rw [hT.firstScriptSig_eq hx'.mem htx.mem hash_eq] at hprefix'
    exact hnew hkind x hx hcb
      (pushInt64_prefix_free (height_lt_int64 hle') (height_lt_int64 hle) hprefix' hprefix)

theorem Recorded.unused (h : Recorded T hist m) (hnew : NewId hist tx) (j : Nat) :
    m ⟨tx.hash, j⟩ = none := by
  cases hm : m ⟨tx.hash, j⟩ with
  | none => rfl
  | some coin =>
    obtain ⟨x, hx, hhash⟩ := h.created _ coin hm
    exact absurd hhash (hnew x hx)

theorem Recorded.connect (h : Recorded T hist m) (htx : TxAccepted T nHeight tx)
    (hnew : NewId hist tx)
    (hspend : tx.isCoinBase = false → ∀ o ∈ tx.prevouts, SpendableAt m nHeight o) :
    Recorded T ((nHeight, tx) :: hist) (writes m (txWrites nHeight tx)) := by
  -- an outpoint of another transaction that shows no coin shows none afterwards
  have hgone : ∀ o, (∃ y ∈ hist, y.2.hash = o.hash) → m o = none →
      writes m (txWrites nHeight tx) o = none := by
    rintro o ⟨y, hy, hhash⟩ hm
    cases hw : writes m (txWrites nHeight tx) o with
    | none => rfl
    | some coin =>
      rcases txWrites_some hw with hold | ⟨hhash', -⟩
      · rw [hm] at hold
        cases hold
      · exact absurd (hhash.trans hhash') (hnew y hy)
  refine ⟨fun x hx => ?_, fun o coin hw => ?_, fun x hx hcb o ho => ?_⟩
  · rcases mem_cons.mp hx with rfl | hmem
    · exact htx
    · exact h.accepted x hmem
  · rcases txWrites_some hw with hold | ⟨hhash, -⟩
    · obtain ⟨x, hx, hhash⟩ := h.created o coin hold
      exact ⟨x, mem_cons_of_mem _ hx, hhash⟩
    · exact ⟨(nHeight, tx), mem_cons_self .., hhash.symm⟩
  · rcases mem_cons.mp hx with rfl | hmem
    · -- its own inputs are spent, and its outputs are others
      obtain ⟨coin, hcoin, -⟩ := hspend hcb o ho
      obtain ⟨y, hy, hhash⟩ := h.created o coin hcoin
      refine ⟨?_, y, mem_cons_of_mem _ hy, hhash⟩
      have hne : ∀ w ∈ addWrites tx nHeight, w.1 ≠ o := by
        intro w hw hwo
        obtain ⟨j, txout, -, -, hweq⟩ := mem_addWritesFrom hw
        rw [hweq] at hwo
        exact hnew y hy (hhash.trans (congrArg COutPoint.hash hwo).symm)
      have hcb' : tx.isCoinBase = false := hcb
      rw [txWrites, writes_append, writes_of_forall_ne _ _ _ hne, hcb', spendWrites]
      simp only [Bool.false_eq_true, if_false]
      rw [writes_deletes, if_pos ho]
    · obtain ⟨hm, y, hy, hhash⟩ := h.spent x hmem hcb o ho
      exact ⟨hgone o ⟨y, hy, hhash⟩ hm, y, mem_cons_of_mem _ hy, hhash⟩

/-! ## The transactions of a block -/

/-- The transactions that are left of a block may be connected after those of
    the record. -/
def MayFollow (T : Set CTransaction) (nHeight : Nat) : History → List CTransaction → Prop
  | _, [] => True
  | hist, tx :: rest =>
    TxAccepted T nHeight tx ∧ NewHeight hist nHeight tx ∧
      MayFollow T nHeight ((nHeight, tx) :: hist) rest

variable {cb : CTransaction} {rest : List CTransaction}

theorem BlockShape.mayFollow {block : CBlock} (hshape : BlockShape block cb rest)
    (hall : ∀ tx ∈ cb :: rest, TxAccepted T nHeight tx) (hnew : ∀ x ∈ hist, x.1 ≠ nHeight) :
    MayFollow T nHeight hist (cb :: rest) := by
  have hrest : ∀ (txs : List CTransaction) (hist' : History), (∀ tx ∈ txs, tx ∈ rest) →
      MayFollow T nHeight hist' txs := by
    intro txs
    induction txs with
    | nil =>
      intro hist' _
      trivial
    | cons tx txs ih =>
      intro hist' hsub
      have hmem : tx ∈ rest := hsub tx (mem_cons_self ..)
      have hcb := hshape.others tx hmem
      refine ⟨hall tx (mem_cons_of_mem _ hmem), fun htrue => ?_,
        ih _ fun tx' h' => hsub tx' (mem_cons_of_mem _ h')⟩
      rw [hcb] at htrue
      cases htrue
  exact ⟨hall cb (mem_cons_self ..), fun _ x hx _ => hnew x hx, hrest rest _ fun _ h => h⟩

/-- The record after some transactions of a block. -/
def History.after (hist : History) (nHeight : Nat) : List CTransaction → History
  | [] => hist
  | tx :: rest => History.after ((nHeight, tx) :: hist) nHeight rest

variable {x : Nat × CTransaction}

theorem History.mem_after {txs : List CTransaction} :
    x ∈ hist.after nHeight txs ↔ x ∈ hist ∨ x.1 = nHeight ∧ x.2 ∈ txs := by
  induction txs generalizing hist with
  | nil => exact ⟨.inl, fun h => h.elim id fun h => (nomatch h.2)⟩
  | cons tx rest ih =>
    rw [History.after, ih]
    constructor
    · rintro (hmem | ⟨hh, hmem⟩)
      · rcases mem_cons.mp hmem with rfl | hmem
        · exact .inr ⟨rfl, mem_cons_self ..⟩
        · exact .inl hmem
      · exact .inr ⟨hh, mem_cons_of_mem _ hmem⟩
    · rintro (hmem | ⟨hh, hmem⟩)
      · exact .inl (mem_cons_of_mem _ hmem)
      · rcases mem_cons.mp hmem with heq | hmem
        · exact .inl (mem_cons.mpr (.inl (Prod.ext hh heq)))
        · exact .inr ⟨hh, hmem⟩

/-- No output with the transaction's id is unspent. -/
def Unused (m : COutPoint → Option Coin) (tx : CTransaction) : Prop := ∀ j, m ⟨tx.hash, j⟩ = none

theorem Unused.newOutputs (h : Unused m tx) :
    NewOutputs m tx := fun _ => h

/-- Undo data without a spent coin come from inputs that are all different: the
    second spend of an outpoint moves a spent coin out. -/
def SpentOnce (tx : CTransaction) (txundo : CTxUndo) : Prop :=
  tx.isCoinBase = false → (∀ coin ∈ txundo, coin.isSpent = false) → tx.prevouts.Nodup

variable {c : CCoinsViewCache}

variable {txundo : CTxUndo} {c' : CCoinsViewCache}

theorem spendInputs_once (hc : c.Coherent) {prevouts : List COutPoint}
    (h : spendInputs c prevouts = .ok (txundo, c')) (hall : ∀ coin ∈ txundo, coin.isSpent = false) :
    prevouts.Nodup ∧ ∀ o ∈ prevouts, c.coinAt o ≠ none := by
  induction prevouts generalizing c txundo with
  | nil => exact ⟨nodup_nil, fun o ho => (nomatch ho)⟩
  | cons prevout rest ih =>
    obtain ⟨hat, hcoh, hcoin⟩ := spendCoin_spec hc prevout
    unfold spendInputs at h
    rcases hsp : c.spendCoin prevout with ⟨_ | coin, c1⟩
    · rw [hsp] at h
      cases h
    rw [hsp] at h hat hcoh hcoin
    obtain ⟨⟨txundo1, c2⟩, hrest, h⟩ := bind_eq_ok.mp h
    cases h
    obtain ⟨hnd, hsome⟩ := ih hcoh hrest fun u hu => hall u (mem_cons_of_mem _ hu)
    have hhead : c.coinAt prevout = some coin := by
      rw [← hcoin]
      exact Coin.unspent?_of_not_isSpent (hall coin (mem_cons_self ..))
    have hne : ∀ o ∈ rest, o ≠ prevout ∧ c.coinAt o ≠ none := by
      intro o ho
      have hso := hsome o ho
      rw [hat, write_apply] at hso
      split at hso
      · exact absurd rfl hso
      · rename_i hne
        exact ⟨hne, hso⟩
    refine ⟨nodup_cons.mpr ⟨fun hmem => (hne prevout hmem).1 rfl, hnd⟩, fun o ho => ?_⟩
    rcases mem_cons.mp ho with rfl | hmem
    · rw [hhead]
      exact Option.some_ne_none coin
    · exact (hne o hmem).2

variable {s : ConnectState}

variable {s' : ConnectState} {env : ValidationEnv}

theorem connectTx_once {pindex : CBlockIndex} (hc : s.view.Coherent)
    (h : connectTx env pindex s tx = .ok s') :
    ∃ txundo, s'.vtxundo = s.vtxundo ++ [txundo] ∧ SpentOnce tx txundo := by
  obtain ⟨⟨nFees, coins, view⟩, hin, h⟩ := bind_eq_ok.mp h
  obtain ⟨-, h⟩ := failIf_bind_eq_ok.mp h
  obtain ⟨-, h⟩ := failIf_bind_eq_ok.mp h
  obtain ⟨⟨txundo, view'⟩, hupd, h⟩ := bind_eq_ok.mp h
  cases pure_eq_ok.mp h
  refine ⟨txundo, rfl, fun hcb hall => ?_⟩
  have hfetch := (connectInputs_spec hc.1 hin).1
  have hupd' := mapError_eq_ok.mp hupd
  obtain ⟨⟨txundo1, c1⟩, hspend, hupd'⟩ := bind_eq_ok.mp hupd'
  obtain ⟨c2, -, hupd'⟩ := bind_eq_ok.mp hupd'
  cases hupd'
  unfold markInputsSpent at hspend
  rw [hcb] at hspend
  exact (spendInputs_once (hfetch.sameCoins.coherent hc) hspend hall).1

theorem connectTxs_recorded (hT : HashInjOn T) {pindex : CBlockIndex}
    {done todo : List CTransaction} (hc : s.view.Coherent) (hr : Recorded T hist s.view.coinAt)
    (hf : MayFollow T pindex.nHeight hist (done ++ todo))
    (h : connectTxs env pindex s done = .ok s') :
    s'.view.Coherent ∧ Recorded T (hist.after pindex.nHeight done) s'.view.coinAt ∧
      MayFollow T pindex.nHeight (hist.after pindex.nHeight done) todo ∧
      Along Unused pindex.nHeight s.view.coinAt done ∧
      ∃ undos, s'.vtxundo = s.vtxundo ++ undos ∧ Forall₂ SpentOnce done undos := by
  induction done generalizing s hist with
  | nil =>
    cases h
    exact ⟨hc, hr, hf, trivial, [], (append_nil _).symm, .nil⟩
  | cons tx rest ih =>
    obtain ⟨s1, hs1, h⟩ := bind_eq_ok.mp h
    obtain ⟨htx, hheight, hf⟩ := hf
    have hspend : tx.isCoinBase = false →
        ∀ o ∈ tx.prevouts, SpendableAt s.view.coinAt pindex.nHeight o := by
      have hin := hs1
      obtain ⟨⟨nFees, coins, view⟩, hin, -⟩ := bind_eq_ok.mp hin
      exact (connectInputs_spec hc.1 hin).2.2
    have hnew := hr.newId hT htx hheight hspend
    obtain ⟨hcoh, hat, -⟩ := connectTx_spec hc
      (fun _ j => noneBelow_of_coinAt (hr.unused hnew j)) hs1
    have hr1 := hr.connect htx hnew hspend
    rw [← hat] at hr1
    obtain ⟨txundo, hundo, honce⟩ := connectTx_once hc hs1
    obtain ⟨hcoh', hr', hf', halong, undos, hundos, honces⟩ := ih hcoh hr1 hf h
    rw [hat] at halong
    refine ⟨hcoh', hr', hf', ⟨hr.unused hnew, halong⟩, txundo :: undos, ?_, .cons honce honces⟩
    rw [hundos, hundo, append_assoc]
    rfl

/-! ## Accepted blocks -/

/-- A block that `AcceptBlock` let through at the height of its index entry, and
    whose transactions are in the given set.  The genesis block, which is built
    in, starts with its height too. -/
structure BlockAccepted (cenv : ContextualEnv) (T : Set CTransaction) (pindex : CBlockIndex)
    (block : CBlock) : Prop where
  /-- `nHeight` is an `int`. -/
  height_int : pindex.nHeight ≤ INT_MAX
  contextual : contextualCheckBlock cenv block pindex.nHeight = .ok ⟨⟩
  mem : ∀ tx ∈ block.vtx, tx ∈ T

theorem checkTransactions_vin {txs : List CTransaction} (h : checkTransactions env txs = .ok ⟨⟩) :
    ∀ tx ∈ txs, tx.prevouts ≠ [] := by
  induction txs with
  | nil =>
    intro tx hmem
    cases hmem
  | cons tx rest ih =>
    obtain ⟨u, htx, hrest⟩ := bind_eq_ok.mp h
    intro tx' hmem
    rcases mem_cons.mp hmem with rfl | hmem
    · unfold checkTransaction at htx
      obtain ⟨hvin, -⟩ := failIf_bind_eq_ok.mp htx
      intro hnil
      rw [map_eq_nil_iff.mp hnil] at hvin
      cases hvin
    · exact ih hrest tx' hmem

theorem checkBlock_vin {block : CBlock} {fCheckPOW fCheckMerkleRoot : Bool}
    (h : checkBlock env block fCheckPOW fCheckMerkleRoot = .ok ⟨⟩) :
    ∀ tx ∈ block.vtx, tx.prevouts ≠ [] := by
  obtain ⟨-, h⟩ := failIf_bind_eq_ok.mp h
  obtain ⟨-, h⟩ := onlyIf_bind_eq_ok.mp h
  obtain ⟨-, h⟩ := failIf_bind_eq_ok.mp h
  obtain ⟨-, h⟩ := failIf_bind_eq_ok.mp h
  obtain ⟨-, h⟩ := failIf_bind_eq_ok.mp h
  obtain ⟨u, htxs, -⟩ := bind_eq_ok.mp h
  exact checkTransactions_vin htxs

variable {cenv : ContextualEnv}

theorem BlockAccepted.txAccepted {pindex : CBlockIndex} {block : CBlock}
    (hacc : BlockAccepted cenv T pindex block) (hshape : BlockShape block cb rest)
    (hvin : ∀ tx ∈ block.vtx, tx.prevouts ≠ []) :
    ∀ tx ∈ cb :: rest, TxAccepted T pindex.nHeight tx := by
  intro tx htx
  have hmem : tx ∈ block.vtx := by
    rw [hshape.vtx]
    exact htx
  refine ⟨hacc.mem tx hmem, fun _ => hvin tx hmem, fun hcb => ⟨hacc.height_int, ?_⟩⟩
  rcases mem_cons.mp htx with rfl | hrest
  · have hprefix := contextualCheckBlock_spec hacc.contextual
    have hscript : block.coinbaseScriptSig = tx.firstScriptSig := by
      rw [CBlock.coinbaseScriptSig, hshape.vtx]
      rfl
    rwa [hscript] at hprefix
  · rw [hshape.others tx hrest] at hcb
    cases hcb

/-! ## The calls of `AddCoins` -/

/-- `ConnectBlock` calls `AddCoins` for `tx` on the cache `inputs`: the block was
    checked, the transactions before it were connected, and its own inputs were
    checked and spent. -/
def AddsCoins (env : ValidationEnv) (block : CBlock) (pindex : CBlockIndex)
    (view : CCoinsViewCache) (fJustCheck : Bool) (tx : CTransaction) (inputs : CCoinsViewCache) :
    Prop :=
  checkBlock env block (!fJustCheck) (!fJustCheck) = .ok ⟨⟩ ∧
    ∃ done todo s nFees coins view1 txundo, block.vtx = done ++ tx :: todo ∧
      connectTxs env pindex
        { view := view.getBestBlock.2, nFees := 0, nSigOpsCost := 0, vtxundo := [] } done = .ok s ∧
      connectInputs env pindex s tx = .ok (nFees, coins, view1) ∧
      markInputsSpent tx view1 = .ok (txundo, inputs)

theorem markInputsSpent_spec (hc : c.Coherent) (h : markInputsSpent tx c = .ok (txundo, c')) :
    c'.Coherent ∧ ∀ o, c.coinAt o = none → c'.coinAt o = none := by
  unfold markInputsSpent at h
  cases hcb : tx.isCoinBase with
  | true =>
    rw [hcb] at h
    cases h
    exact ⟨hc, fun _ ho => ho⟩
  | false =>
    rw [hcb] at h
    obtain ⟨hcoh, hat, -⟩ := spendInputs_spec hc h
    refine ⟨hcoh, fun o ho => ?_⟩
    rw [hat, spendWrites, writes_deletes, ho]
    exact ite_self none

variable {view : CCoinsViewCache}

theorem unused_at_addCoins (hT : HashInjOn T) {pindex : CBlockIndex} {done todo : List CTransaction}
    (hc : s.view.Coherent) (hr : Recorded T hist s.view.coinAt)
    (hf : MayFollow T pindex.nHeight hist (done ++ tx :: todo))
    (h : connectTxs env pindex s done = .ok s') {nFees : Int} {coins : List Coin}
    (hin : connectInputs env pindex s' tx = .ok (nFees, coins, view)) {inputs : CCoinsViewCache}
    (hmark : markInputsSpent tx view = .ok (txundo, inputs)) :
    inputs.Coherent ∧ Unused inputs.coinAt tx := by
  obtain ⟨hcoh, hr', ⟨htx, hheight, -⟩, -⟩ := connectTxs_recorded hT hc hr hf h
  obtain ⟨hfetch, -, hspend⟩ := connectInputs_spec hcoh.1 hin
  have hnew := hr'.newId hT htx hheight hspend
  obtain ⟨hcoh', hnone⟩ := markInputsSpent_spec (hfetch.sameCoins.coherent hcoh) hmark
  refine ⟨hcoh', fun j => hnone _ ?_⟩
  rw [hfetch.coinAt]
  exact hr'.unused hnew j

/-! ## The exception of `AddCoin` -/

/-- The `std::logic_error` that `AddCoin` throws. -/
def replacesNonPruned : CoinsError := .logicError "Adding new coin that replaces non-pruned entry"

variable {o : COutPoint}

theorem addCoin_avoids (hnone : c.coinAt o = none) (coin : Coin) (possible_overwrite : Bool) :
    Avoids replacesNonPruned (c.addCoin o coin possible_overwrite) := by
  unfold addCoin
  split
  · exact error (nomatch ·)
  split
  · exact ok _ _
  have hspent : ((c.cacheCoins.lookup o).getD ⟨Coin.empty, false, false⟩).coin.isSpent = true := by
    cases hl : c.cacheCoins.lookup o with
    | none => rfl
    | some e =>
      have hseen : e.coin.unspent? = none :=
        (coinAt_of_lookup hl).symm.trans hnone
      exact Coin.unspent?_eq_none_iff.mp hseen
  simp only [hspent, Bool.not_true, Bool.and_false, Bool.false_eq_true, if_false]
  exact ok _ _

theorem addCoins_go_avoids {outs : List CTxOut} (hc : c.Coherent) {i : Nat}
    (hnone : ∀ j, i ≤ j → c.coinAt ⟨tx.hash, j⟩ = none) :
    Avoids replacesNonPruned (addCoins.go tx nHeight false c i outs) := by
  induction outs generalizing c i with
  | nil => exact ok _ _
  | cons txout rest ih =>
    unfold addCoins.go
    simp only [Bool.false_eq_true, if_false]
    have hi := hnone i (Nat.le_refl i)
    cases hadd : c.addCoin ⟨tx.hash, i⟩ ⟨txout, nHeight, tx.isCoinBase⟩ tx.isCoinBase with
    | error err =>
      have havoid := addCoin_avoids hi ⟨txout, nHeight, tx.isCoinBase⟩ tx.isCoinBase
      rw [hadd] at havoid
      exact error fun heq => havoid (congrArg Except.error heq)
    | ok c' =>
      obtain ⟨hat, hcoh, -⟩ := addCoin_spec hc
        (fun _ hl => noneBelow_of_coinAt hi hl) hadd
      refine ih hcoh fun j hj => ?_
      have hne : (⟨tx.hash, j⟩ : COutPoint) ≠ ⟨tx.hash, i⟩ := by
        intro heq
        have hji : j = i := congrArg COutPoint.n heq
        omega
      rw [hat, addedCoin]
      split
      · exact hnone j (by omega)
      · rw [write_apply, if_neg hne]
        exact hnone j (by omega)

/-! The checks before `UpdateCoins` end in errors of their own. -/

section Checks

variable (err : CoinsError)

theorem checkOutputValues_avoids (outs : List CTxOut) (nValueOut : Int) :
    Avoids (.coins err) (checkOutputValues outs nValueOut) := by
  induction outs generalizing nValueOut with
  | nil => exact ok _ _
  | cons txout rest ih =>
    exact failIf (nomatch ·) fun _ => failIf (nomatch ·) fun _ =>
      failIf (nomatch ·) fun _ => ih _

theorem checkDuplicateInputs_avoids (prevouts vInOutPoints : List COutPoint) :
    Avoids (.coins err) (checkDuplicateInputs prevouts vInOutPoints) := by
  induction prevouts generalizing vInOutPoints with
  | nil => exact ok _ _
  | cons o rest ih => exact failIf (nomatch ·) fun _ => ih _

theorem checkTransaction_avoids (tx : CTransaction) (fCheckDuplicateInputs : Bool) :
    Avoids (.coins err) (checkTransaction env tx fCheckDuplicateInputs) := by
  refine failIf (nomatch ·) fun _ => failIf (nomatch ·) fun _ =>
    failIf (nomatch ·) fun _ => bind (checkOutputValues_avoids err _ _) fun _ _ =>
      onlyIf (checkDuplicateInputs_avoids err _ _) ?_
  split
  · exact lastFailIf (nomatch ·)
  · exact lastFailIf (nomatch ·)

theorem checkTransactions_avoids (txs : List CTransaction) :
    Avoids (.coins err) (checkTransactions env txs) := by
  induction txs with
  | nil => exact ok _ _
  | cons tx rest ih => exact bind (checkTransaction_avoids err tx false) fun _ _ => ih

theorem checkBlock_avoids (block : CBlock) (fCheckPOW fCheckMerkleRoot : Bool) :
    Avoids (.coins err) (checkBlock env block fCheckPOW fCheckMerkleRoot) := by
  have hroot : Avoids (.coins err) (checkMerkleRoot env block) :=
    failIf (nomatch ·) fun _ => lastFailIf (nomatch ·)
  exact failIf (nomatch ·) fun _ => onlyIf hroot <|
    failIf (nomatch ·) fun _ => failIf (nomatch ·) fun _ =>
      failIf (nomatch ·) fun _ => bind (checkTransactions_avoids err _) fun _ _ =>
        lastFailIf (nomatch ·)

theorem checkInputValues_avoids (nSpendHeight : Nat) (inputs : CCoinsViewCache) (nValueIn : Int)
    (prevouts : List COutPoint) :
    Avoids (.coins err) (checkInputValues nSpendHeight inputs nValueIn prevouts) := by
  induction prevouts generalizing inputs nValueIn with
  | nil => exact ok _ _
  | cons prevout rest ih =>
    exact failIf (nomatch ·) fun _ => failIf (nomatch ·) fun _ =>
      failIf (nomatch ·) fun _ => ih _ _

theorem checkTxInputs_avoids (tx : CTransaction) (inputs : CCoinsViewCache) (nSpendHeight : Nat) :
    Avoids (.coins err) (checkTxInputs tx inputs nSpendHeight) := by
  refine failIf (nomatch ·) fun _ =>
    bind (checkInputValues_avoids err _ _ _ _) fun r _ => ?_
  cases hout : tx.getValueOut with
  | none => exact error (nomatch ·)
  | some value_out =>
    exact failIf (nomatch ·) fun _ => failIf (nomatch ·) fun _ => ok _ _

theorem connectInputs_avoids (pindex : CBlockIndex) (s : ConnectState) (tx : CTransaction) :
    Avoids (.coins err) (connectInputs env pindex s tx) := by
  unfold connectInputs
  split
  · exact ok _ _
  · exact bind (checkTxInputs_avoids err _ _ _) fun r _ =>
      failIf (nomatch ·) fun _ => failIf (nomatch ·) fun _ => ok _ _

end Checks

theorem spendInputs_avoids (inputs : CCoinsViewCache) (prevouts : List COutPoint) :
    Avoids replacesNonPruned (spendInputs inputs prevouts) := by
  induction prevouts generalizing inputs with
  | nil => exact ok _ _
  | cons prevout rest ih =>
    unfold spendInputs
    rcases inputs.spendCoin prevout with ⟨_ | coin, inputs'⟩
    · exact Avoids.error fun h => by cases h
    · exact bind (ih inputs') fun _ _ => ok _ _

theorem updateCoins_avoids
    (hunused : ∀ txundo inputs, markInputsSpent tx view = .ok (txundo, inputs) →
      inputs.Coherent ∧ Unused inputs.coinAt tx) :
    Avoids replacesNonPruned (updateCoins tx view nHeight) := by
  have hmark : Avoids replacesNonPruned (markInputsSpent tx view) := by
    unfold markInputsSpent
    split
    · exact ok _ _
    · exact spendInputs_avoids _ _
  refine bind hmark fun r hr => ?_
  obtain ⟨txundo, inputs⟩ := r
  obtain ⟨hcoh, hnone⟩ := hunused txundo inputs hr
  exact bind (addCoins_go_avoids hcoh fun j _ => hnone j) fun _ _ => ok _ _

theorem connectTxs_avoids (hT : HashInjOn T) {pindex : CBlockIndex} {txs : List CTransaction}
    (hc : s.view.Coherent) (hr : Recorded T hist s.view.coinAt)
    (hf : MayFollow T pindex.nHeight hist txs) :
    Avoids (.coins replacesNonPruned) (connectTxs env pindex s txs) := by
  induction txs generalizing s hist with
  | nil => exact ok _ _
  | cons tx rest ih =>
    have hhead : Avoids (.coins replacesNonPruned) (connectTx env pindex s tx) := by
      refine bind (connectInputs_avoids _ _ _ _) fun r hin => ?_
      obtain ⟨nFees, coins, view⟩ := r
      refine failIf (nomatch ·) fun _ => failIf (nomatch ·) fun _ =>
        bind ?_ fun _ _ => ok _ _
      have hf0 : MayFollow T pindex.nHeight hist ([] ++ tx :: rest) := hf
      have hupd : Avoids replacesNonPruned (updateCoins tx view pindex.nHeight) :=
        updateCoins_avoids fun txundo inputs hmark =>
          unused_at_addCoins hT hc hr hf0 rfl hin hmark
      intro herr
      cases hu : updateCoins tx view pindex.nHeight with
      | ok r =>
        rw [hu] at herr
        cases herr
      | error err =>
        rw [hu] at herr
        have heq : err = replacesNonPruned :=
          ValidationError.coins.inj (Except.error.inj herr)
        exact hupd (heq ▸ hu)
    refine bind hhead fun s1 hs1 => ?_
    have hone : connectTxs env pindex s [tx] = .ok s1 := bind_eq_ok.mpr ⟨s1, hs1, rfl⟩
    have hf1 : MayFollow T pindex.nHeight hist ([tx] ++ rest) := hf
    obtain ⟨hcoh, hr1, hf1, -⟩ := connectTxs_recorded hT hc hr hf1 hone
    exact ih hcoh hr1 hf1

/-! ## Disconnecting -/

variable {view' : CCoinsViewCache}

variable {res : DisconnectResult}

theorem applyTxInUndo_unspent {undo : Coin} {out : COutPoint}
    (h : applyTxInUndo undo view out = .ok (res, view')) (hres : res ≠ .failed)
    : undo.isSpent = false := by
  have hrestore : ∀ {coin : Coin} {v : CCoinsViewCache} {fClean : Bool},
      restoreCoin coin v out fClean = .ok (res, view') → coin.isSpent = false := by
    intro coin v fClean hr
    obtain ⟨v', hadd, -⟩ := bind_eq_ok.mp hr
    unfold addCoin at hadd
    split at hadd
    · cases hadd
    · rename_i hs
      exact Bool.not_eq_true _ ▸ hs
  unfold applyTxInUndo at h
  simp only at h
  split at h
  · split at h
    · have hs := hrestore h
      exact hs
    · cases h
      exact absurd rfl hres
  · exact hrestore h

theorem restoreInputs_unspent {inputs : List (COutPoint × Coin)} {fClean : Bool}
    (h : restoreInputs view inputs fClean = .ok (res, view')) (hres : res ≠ .failed)
    : ∀ x ∈ inputs, x.2.isSpent = false := by
  induction inputs generalizing res view' with
  | nil =>
    intro x hx
    cases hx
  | cons input rest ih =>
    obtain ⟨⟨res1, view1⟩, hrest, h⟩ := bind_eq_ok.mp h
    simp only at h
    split at h
    · cases h
      exact absurd rfl hres
    rename_i hres1
    obtain ⟨⟨res2, view2⟩, happly, h⟩ := bind_eq_ok.mp h
    split at h
    · cases h
      exact absurd rfl hres
    rename_i hres2
    intro x hx
    rcases mem_cons.mp hx with rfl | hmem
    · exact applyTxInUndo_unspent happly hres2
    · exact ih hrest hres1 x hmem

theorem disconnectTxs_unspent {txs : List (CTransaction × Option CTxUndo)}
    (h : disconnectTxs nHeight view txs = .ok (res, view')) (hres : res ≠ .failed) :
    ∀ tx txundo, (tx, some txundo) ∈ txs → ∀ coin ∈ txundo, coin.isSpent = false := by
  induction txs generalizing res view' with
  | nil =>
    intro tx txundo hmem
    cases hmem
  | cons head rest ih =>
    obtain ⟨⟨res1, view1⟩, hrest, h⟩ := bind_eq_ok.mp h
    simp only at h
    split at h
    · cases h
      exact absurd rfl hres
    rename_i hres1
    intro tx txundo hmem coin hcoin
    rcases mem_cons.mp hmem with heq | hmem
    · obtain ⟨htx, hundo⟩ := Prod.mk.inj heq
      rw [← htx, ← hundo] at h
      unfold disconnectTx at h
      simp only at h
      split at h
      · cases h
        exact absurd rfl hres
      · rename_i hlen
        have hlen' : txundo.length ≤ tx.prevouts.length := by
          rw [CTransaction.prevouts, length_map]
          exact Nat.le_of_eq (by simpa using hlen)
        rw [← map_snd_zip hlen'] at hcoin
        obtain ⟨x, hx, rfl⟩ := mem_map.mp hcoin
        exact restoreInputs_unspent h hres x hx
    · exact ih hrest hres1 tx txundo hmem coin hcoin

variable {blockundo : CBlockUndo}

theorem disconnectBlock_nodup {block : CBlock} {pindex : CBlockIndex}
    (hshape : BlockShape block cb rest) (honce : Forall₂ SpentOnce rest blockundo)
    (h : disconnectBlock block pindex view (some blockundo) = .ok (.ok, view')) :
    ∀ tx ∈ block.vtx, tx.isCoinBase = false → tx.prevouts.Nodup := by
  unfold disconnectBlock at h
  simp only at h
  split at h
  · cases h
  obtain ⟨⟨res, view1⟩, htxs, h⟩ := bind_eq_ok.mp h
  split at h
  · cases h
  rename_i hres
  rw [hshape.vtx] at htxs ⊢
  intro tx htx hcb
  rcases mem_cons.mp htx with rfl | hmem
  · rw [hshape.coinbase] at hcb
    cases hcb
  obtain ⟨hlen, honce⟩ := forall₂_iff_zip.mp honce
  rw [← map_fst_zip (Nat.le_of_eq hlen)] at hmem
  obtain ⟨⟨tx', txundo⟩, hzip, rfl⟩ := mem_map.mp hmem
  refine honce hzip hcb (disconnectTxs_unspent htxs hres tx' txundo ?_)
  rw [zip_cons_cons, zip_map_right]
  exact mem_cons_of_mem _ (mem_map.mpr ⟨(tx', txundo), hzip, rfl⟩)

theorem Along.txFresh {txs : List CTransaction} (h : Along Unused nHeight m txs)
    (hnd : ∀ tx ∈ txs, tx.isCoinBase = false → tx.prevouts.Nodup) :
    Along TxFresh nHeight m txs := by
  induction txs generalizing m with
  | nil => trivial
  | cons tx rest ih =>
    exact ⟨⟨hnd tx (mem_cons_self ..), h.1⟩,
      ih h.2 fun tx' h' => hnd tx' (mem_cons_of_mem _ h')⟩

theorem coinsOk_of_unused (hm : CoinsOk m) {txs : List CTransaction}
    (h : Along Unused nHeight m txs) : CoinsOk (writes m (txsWrites nHeight txs)) := by
  induction txs generalizing m with
  | nil => exact hm
  | cons tx rest ih =>
    rw [txsWrites_cons, writes_append]
    exact ih (hm.txWrites h.1) h.2

/-! ## Chains -/

/-- A block of the active chain, with the undo data that were written for it. -/
structure ConnectedBlock where
  block : CBlock
  pindex : CBlockIndex
  blockundo : CBlockUndo

/-- The views that are reached from an empty database when accepted blocks are
    connected on the tip and the tip is disconnected, with the active chain, its
    tip first.  Caches may be put on top, be flushed, and fetch coins. -/
inductive ChainView (env : ValidationEnv) (Accepted : CBlockIndex → CBlock → Prop) :
    CCoinsViewCache → List ConnectedBlock → Prop where
  | start : ChainView env Accepted (new (.db .empty)) []
  | connect {view view' : CCoinsViewCache} {chain : List ConnectedBlock} {block : CBlock}
      {pindex : CBlockIndex} {blockundo : CBlockUndo} (reached : ChainView env Accepted view chain)
      (ext : pindex.Extends (chain.head?.map ConnectedBlock.pindex))
      (accepted : Accepted pindex block)
      (connected : connectBlock env block pindex view false = .ok (view', blockundo)) :
      ChainView env Accepted view' (⟨block, pindex, blockundo⟩ :: chain)
  | disconnect {view view' : CCoinsViewCache} {chain : List ConnectedBlock} {tip : ConnectedBlock}
      (reached : ChainView env Accepted view (tip :: chain))
      (disconnected : disconnectBlock tip.block tip.pindex view (some tip.blockundo) =
        .ok (.ok, view')) :
      ChainView env Accepted view' chain
  | fetch {view view' : CCoinsViewCache} {chain : List ConnectedBlock}
      (reached : ChainView env Accepted view chain) (fetched : view.Fetched view') :
      ChainView env Accepted view' chain
  | flush {view view' : CCoinsViewCache} {chain : List ConnectedBlock}
      (reached : ChainView env Accepted view chain) (flushed : view.flush = .ok view') :
      ChainView env Accepted view' chain
  | layer {view : CCoinsViewCache} {chain : List ConnectedBlock}
      (reached : ChainView env Accepted view chain) :
      ChainView env Accepted (new view.toView) chain

/-- The record of a chain. -/
def chainHistory : List ConnectedBlock → History
  | [] => []
  | b :: chain => (chainHistory chain).after b.pindex.nHeight b.block.vtx

/-- The coins of a chain: those its blocks leave one after another, with what
    disconnecting each block needs. -/
inductive ChainCoins (T : Set CTransaction) :
    List ConnectedBlock → (COutPoint → Option Coin) → Prop where
  | nil : ChainCoins T [] fun _ => none
  | cons {chain : List ConnectedBlock} {b : ConnectedBlock} {m : COutPoint → Option Coin}
      {cb : CTransaction} {rest : List CTransaction} {undo0 : CTxUndo}
      (below : ChainCoins T chain m)
      (ext : b.pindex.Extends (chain.head?.map ConnectedBlock.pindex))
      (shape : BlockShape b.block cb rest)
      (unused : Along Unused b.pindex.nHeight m b.block.vtx)
      (connected : TxsConnected b.pindex.nHeight m (cb :: rest) (undo0 :: b.blockundo))
      (once : Forall₂ SpentOnce rest b.blockundo)
      (recorded : Recorded T (chainHistory (b :: chain))
        (writes m (txsWrites b.pindex.nHeight b.block.vtx))) :
      ChainCoins T (b :: chain) (writes m (txsWrites b.pindex.nHeight b.block.vtx))

namespace ChainCoins

variable {chain : List ConnectedBlock}

variable (h : ChainCoins T chain m)

include h

theorem coinsOk : CoinsOk m := by
  induction h with
  | nil => exact CoinsOk.empty
  | cons _ _ _ unused _ _ _ ih => exact coinsOk_of_unused ih unused

theorem history : Recorded T (chainHistory chain) m := by
  cases h with
  | nil => exact Recorded.empty T
  | cons _ _ _ _ _ _ recorded => exact recorded

theorem height_lt {pindex : CBlockIndex}
    (hext : pindex.Extends (chain.head?.map ConnectedBlock.pindex)) :
    ∀ x ∈ chainHistory chain, x.1 < pindex.nHeight := by
  induction h generalizing pindex with
  | nil =>
    intro x hx
    cases hx
  | cons _ ext _ _ _ _ _ ih =>
    intro x hx
    obtain ⟨hheight, -⟩ := hext
    rcases History.mem_after.mp hx with hmem | ⟨heq, -⟩
    · have hlt := ih ext x hmem
      omega
    · omega

theorem mayFollow {pindex : CBlockIndex}
    (hext : pindex.Extends (chain.head?.map ConnectedBlock.pindex)) {block : CBlock}
    (hacc : BlockAccepted cenv T pindex block) (hshape : BlockShape block cb rest)
    (hvin : ∀ tx ∈ block.vtx, tx.prevouts ≠ []) :
    MayFollow T pindex.nHeight (chainHistory chain) (cb :: rest) :=
  hshape.mayFollow (hacc.txAccepted hshape hvin) fun x hx => Nat.ne_of_lt (h.height_lt hext x hx)

omit h

end ChainCoins

/-- The state with which the loop of `ConnectBlock` starts. -/
def ConnectState.start (view : CCoinsViewCache) : ConnectState :=
  { view := view.getBestBlock.2, nFees := 0, nSigOpsCost := 0, vtxundo := [] }

theorem ConnectState.start_spec (hc : view.Coherent) : (start view).view.Coherent ∧
      (start view).view.coinAt = view.coinAt := by
  have hsame := getBestBlock_sameCoins view
  exact ⟨hsame.coherent hc, hsame.coinAt⟩

theorem connectBlock_checked {block : CBlock} {pindex : CBlockIndex} {fJustCheck : Bool}
    {r : CCoinsViewCache × CBlockUndo} (h : connectBlock env block pindex view fJustCheck = .ok r) :
    checkBlock env block (!fJustCheck) (!fJustCheck) = .ok ⟨⟩ := by
  obtain ⟨-, h⟩ := failIf_bind_eq_ok.mp h
  obtain ⟨u, hcheck, -⟩ := bind_eq_ok.mp h
  exact hcheck

variable {chain : List ConnectedBlock}

theorem ChainCoins.connect (hT : HashInjOn T) (hc : view.Coherent)
    (h : ChainCoins T chain view.coinAt) {block : CBlock} {pindex : CBlockIndex}
    (hext : pindex.Extends (chain.head?.map ConnectedBlock.pindex))
    (hacc : BlockAccepted cenv T pindex block)
    (hconn : connectBlock env block pindex view false = .ok (view', blockundo)) :
    view'.Coherent ∧ ChainCoins T (⟨block, pindex, blockundo⟩ :: chain) view'.coinAt := by
  obtain ⟨cb, rest, s, hshape, -, -, hs, -, hundo, hview'⟩ := connectBlock_cases hconn
  obtain ⟨hc0, hat0⟩ := start_spec hc
  have hmay : MayFollow T pindex.nHeight (chainHistory chain) ((cb :: rest) ++ []) := by
    rw [append_nil]
    exact h.mayFollow hext hacc hshape (checkBlock_vin (connectBlock_checked hconn))
  have hr0 : Recorded T (chainHistory chain) (start view).view.coinAt := by
    rw [hat0]
    exact h.history
  obtain ⟨hcoh, hr, -, halong, undos, hundos, honce⟩ := connectTxs_recorded hT hc0 hr0 hmay hs
  have hnewout : Along NewOutputs pindex.nHeight (start view).view.coinAt
      (cb :: rest) := Along.mono (fun _ _ => Unused.newOutputs) halong
  obtain ⟨-, hat, -, -, undos', hundos', htxs⟩ := connectTxs_spec hc0 hnewout hs
  rw [hat0] at hat htxs halong
  have hsame : undos' = undos := append_cancel_left (hundos'.symm.trans hundos)
  have hvtxundo : s.vtxundo = undos := hundos
  rw [hsame] at htxs
  subst hview'
  have hcoins : (s.view.setBestBlock pindex.hash).coinAt =
      writes view.coinAt (txsWrites pindex.nHeight block.vtx) := by
    rw [hshape.vtx]
    exact hat
  refine ⟨hcoh, ?_⟩
  show ChainCoins T _ (s.view.setBestBlock pindex.hash).coinAt
  rw [hcoins]
  cases honce with
  | @cons _ undo0 _ undos1 hhead htail =>
    have htailundo : blockundo = undos1 := by rw [hundo, hvtxundo, tail_cons]
    rw [← htailundo] at htail htxs
    refine .cons h hext hshape ?_ htxs htail ?_
    · show Along Unused pindex.nHeight view.coinAt block.vtx
      rw [hshape.vtx]
      exact halong
    · show Recorded T ((chainHistory chain).after pindex.nHeight block.vtx)
        (writes view.coinAt (txsWrites pindex.nHeight block.vtx))
      rw [← hcoins, hshape.vtx]
      exact hr

theorem ChainCoins.disconnect {tip : ConnectedBlock} (hc : view.Coherent)
    (h : ChainCoins T (tip :: chain) view.coinAt)
    (hdis : disconnectBlock tip.block tip.pindex view (some tip.blockundo) = .ok (.ok, view')) :
    view'.Coherent ∧ ChainCoins T chain view'.coinAt := by
  generalize hm : view.coinAt = m at h
  cases h with
  | @cons _ _ m0 _ _ _ below _ shape unused connected once _ =>
    have hfresh := unused.txFresh (disconnectBlock_nodup shape once hdis)
    obtain ⟨hleft, hnot⟩ := disconnectBlock_spec below.coinsOk shape hfresh connected hc hm
    by_cases hmeta : BlockMetadataLeft m0 tip.pindex tip.block
    · obtain ⟨view'', hdis', hat, hcoh, -⟩ := hleft hmeta
      rw [hdis] at hdis'
      cases hdis'
      refine ⟨hcoh, ?_⟩
      rw [hat]
      exact below
    · obtain ⟨view'', hdis'⟩ := hnot hmeta
      rw [hdis] at hdis'
      cases hdis'

theorem ChainView.chainCoins (hT : HashInjOn T)
    (h : ChainView env (BlockAccepted cenv T) view chain) :
    view.Coherent ∧ ChainCoins T chain view.coinAt := by
  induction h with
  | start =>
    have hstart : Reachable env BlockFresh (new (.db .empty)) none := .start
    refine ⟨hstart.coinsOk.1, ?_⟩
    exact .nil
  | connect _ hext hacc hconn ih => exact ih.2.connect hT ih.1 hext hacc hconn
  | disconnect _ hdis ih => exact ih.2.disconnect ih.1 hdis
  | fetch _ hfetch ih =>
    obtain ⟨hc, hchain⟩ := ih
    exact ⟨hfetch.sameCoins.coherent hc, hfetch.coinAt ▸ hchain⟩
  | flush _ hflush ih =>
    obtain ⟨hc, hchain⟩ := ih
    have hsame := (CCoinsViewCache.flush_spec hc hflush).1
    refine ⟨hsame.coherent hc, ?_⟩
    show ChainCoins T _ (toView _).coinAt
    rw [hsame.coinAt]
    exact hchain
  | layer _ ih =>
    obtain ⟨hc, hchain⟩ := ih
    obtain ⟨hcoh, hat⟩ := new_spec _ hc
    exact ⟨hcoh, hat ▸ hchain⟩

theorem ChainView.mono {P Q : CBlockIndex → CBlock → Prop}
    (hPQ : ∀ pindex block, P pindex block → Q pindex block) (h : ChainView env P view chain) :
    ChainView env Q view chain := by
  induction h with
  | start => exact .start
  | connect _ hext hacc hconn ih => exact .connect ih hext (hPQ _ _ hacc) hconn
  | disconnect _ hdis ih => exact .disconnect ih hdis
  | fetch _ hfetch ih => exact .fetch ih hfetch
  | flush _ hflush ih => exact .flush ih hflush
  | layer _ ih => exact .layer ih

theorem ChainView.accepted {P : CBlockIndex → CBlock → Prop} (h : ChainView env P view chain) :
    ∀ b ∈ chain, P b.pindex b.block := by
  induction h with
  | start => exact fun _ hb => nomatch hb
  | connect _ _ hacc _ ih => exact forall_mem_cons.mpr ⟨hacc, ih⟩
  | disconnect _ _ ih => exact fun b hb => ih b (mem_cons_of_mem _ hb)
  | fetch _ _ ih => exact ih
  | flush _ _ ih => exact ih
  | layer _ ih => exact ih

/-! ## What the record says about a coin -/

theorem mem_chainHistory :
    x ∈ chainHistory chain ↔ ∃ b ∈ chain, x.1 = b.pindex.nHeight ∧ x.2 ∈ b.block.vtx := by
  induction chain with
  | nil => simp [chainHistory]
  | cons b chain ih =>
    rw [chainHistory, History.mem_after, ih]
    simp [or_comm]

theorem txsWrites_some {txs : List CTransaction} {coin : Coin}
    (h : writes m (txsWrites nHeight txs) o = some coin) :
    m o = some coin ∨ coin.nHeight = nHeight ∧ ∃ tx ∈ txs, tx.hash = o.hash := by
  induction txs generalizing m with
  | nil => exact .inl h
  | cons tx txs ih =>
    rw [txsWrites_cons, writes_append] at h
    rcases ih h with hbefore | ⟨hheight, tx', htx', hhash⟩
    · rcases txWrites_some hbefore with hold | ⟨hhash, hheight, -⟩
      · exact .inl hold
      · exact .inr ⟨hheight, tx, mem_cons_self, hhash.symm⟩
    · exact .inr ⟨hheight, tx', mem_cons_of_mem _ htx', hhash⟩

theorem ChainCoins.coin_recorded (h : ChainCoins T chain m) {coin : Coin} (ho : m o = some coin)
    : ∃ tx, (coin.nHeight, tx) ∈ chainHistory chain ∧ tx.hash = o.hash := by
  induction h with
  | nil => nomatch ho
  | cons _ _ _ _ _ _ _ ih =>
    rcases txsWrites_some ho with hold | ⟨hheight, tx, htx, hhash⟩
    · obtain ⟨tx, htx, hhash⟩ := ih hold
      exact ⟨tx, History.mem_after.mpr (.inl htx), hhash⟩
    · exact ⟨tx, History.mem_after.mpr (.inr ⟨hheight, htx⟩), hhash⟩

/-- No id is in the record twice. -/
def History.DistinctIds (hist : History) : Prop := hist.Pairwise fun x y => x.2.hash ≠ y.2.hash

theorem History.DistinctIds.eq (h : hist.DistinctIds) {y : Nat × CTransaction} (hx : x ∈ hist)
    (hy : y ∈ hist) (hhash : x.2.hash = y.2.hash) : x = y := by
  by_contra hne
  have : Std.Symm fun x y : Nat × CTransaction => x.2.hash ≠ y.2.hash := ⟨fun _ _ hxy => hxy.symm⟩
  exact h.forall hx hy hne hhash

theorem Recorded.distinctIds (hT : HashInjOn T) {txs : List CTransaction} {undos : CBlockUndo}
    (hr : Recorded T hist m) (hids : hist.DistinctIds) (hf : MayFollow T nHeight hist txs)
    (hc : TxsConnected nHeight m txs undos) : (hist.after nHeight txs).DistinctIds := by
  induction hc generalizing hist with
  | nil => exact hids
  | cons head _ ih =>
    obtain ⟨htx, hheight, hf⟩ := hf
    have hnew := hr.newId hT htx hheight head.spendable
    exact ih (hr.connect htx hnew head.spendable)
      (pairwise_cons.mpr ⟨fun x hx => (hnew x hx).symm, hids⟩) hf

theorem ChainCoins.distinctIds (hT : HashInjOn T) (h : ChainCoins T chain m) :
    (chainHistory chain).DistinctIds := by
  induction h with
  | nil => exact .nil
  | @cons chain b m cb rest undo0 below ext shape _ connected _ recorded ih =>
    have hall : ∀ tx ∈ cb :: rest, TxAccepted T b.pindex.nHeight tx := by
      intro tx htx
      refine recorded.accepted (b.pindex.nHeight, tx) (History.mem_after.mpr (.inr ⟨rfl, ?_⟩))
      rw [shape.vtx]
      exact htx
    have hmay := shape.mayFollow hall fun x hx => Nat.ne_of_lt (below.height_lt ext x hx)
    rw [chainHistory, shape.vtx]
    exact below.history.distinctIds hT ih hmay connected

/-! ## No coin is replaced -/

/-- The coinbases of blocks accepted at different heights have different
    scripts; no call of `AddCoins` that `ConnectBlock` makes on a chain of
    accepted blocks meets an unspent output of the transaction, and the
    exception of `AddCoin` is not thrown. -/
theorem addCoins_never_replaces (env : ValidationEnv) (cenv : ContextualEnv)
    (T : Set CTransaction) (hT : HashInjOn T) :
    (∀ (h1 h2 : Nat) (block1 block2 : CBlock), 1 ≤ h1 → 1 ≤ h2 → h1 ≤ INT_MAX → h2 ≤ INT_MAX →
      h1 ≠ h2 → contextualCheckBlock cenv block1 h1 = .ok ⟨⟩ →
      contextualCheckBlock cenv block2 h2 = .ok ⟨⟩ →
      block1.coinbaseScriptSig ≠ block2.coinbaseScriptSig) ∧
    ∀ (view : CCoinsViewCache) (chain : List ConnectedBlock),
      ChainView env (BlockAccepted cenv T) view chain →
      ∀ (block : CBlock) (pindex : CBlockIndex) (fJustCheck : Bool),
        pindex.Extends (chain.head?.map ConnectedBlock.pindex) →
        BlockAccepted cenv T pindex block →
        (∀ (tx : CTransaction) (inputs : CCoinsViewCache),
          AddsCoins env block pindex view fJustCheck tx inputs →
          ∀ j, inputs.coinAt ⟨tx.hash, j⟩ = none) ∧
        connectBlock env block pindex view fJustCheck ≠
          .error (.coins (.logicError "Adding new coin that replaces non-pruned entry")) := by
  refine ⟨fun h1 h2 block1 block2 _ _ hle1 hle2 hne hok1 hok2 heq => hne ?_,
    fun view chain hrun block pindex fJustCheck hext hacc => ?_⟩
  · have hp1 := contextualCheckBlock_spec hok1
    rw [heq] at hp1
    exact pushInt64_prefix_free (height_lt_int64 hle1) (height_lt_int64 hle2) hp1
      (contextualCheckBlock_spec hok2)
  obtain ⟨hc, hchain⟩ := hrun.chainCoins hT
  obtain ⟨hc0, hat0⟩ := start_spec hc
  have hr0 : Recorded T (chainHistory chain) (start view).view.coinAt := by
    rw [hat0]
    exact hchain.history
  have hmay : checkBlock env block (!fJustCheck) (!fJustCheck) = .ok ⟨⟩ →
      MayFollow T pindex.nHeight (chainHistory chain) block.vtx := by
    intro hcheck
    obtain ⟨cb, rest, hshape⟩ := checkBlock_spec hcheck
    rw [hshape.vtx]
    exact hchain.mayFollow hext hacc hshape (checkBlock_vin hcheck)
  -- at each call of `AddCoins`, and so the exception is out of reach
  refine ⟨fun tx inputs hadds => ?_, ?_⟩
  · obtain ⟨hcheck, done, todo, s, nFees, coins, view1, txundo, hvtx, hs, hin, hmark⟩ := hadds
    have hf := hmay hcheck
    rw [hvtx] at hf
    exact (unused_at_addCoins hT hc0 hr0 hf hs hin hmark).2
  · refine failIf (nomatch ·) fun _ => bind (checkBlock_avoids _ _ _ _) fun _ hcheck =>
      failIf (nomatch ·) fun _ => failIf (nomatch ·) fun _ =>
        bind (connectTxs_avoids hT hc0 hr0 (hmay hcheck)) fun s _ => ?_
    split
    · exact error (nomatch ·)
    · refine failIf (nomatch ·) fun _ => ?_
      split
      · exact ok _ _
      · exact ok _ _

/-! ## A chain of two blocks -/

namespace HeightSample

def lenientContext : ContextualEnv where
  isFinalTx := fun _ _ _ => true
  checkWitnessCommitment := fun _ => .ok ⟨⟩
  getBlockWeight := fun _ => 1200

/-- A coinbase that starts with its height. -/
def coinbase (hash : Uint256) (nHeight : Nat) (nValue : Int) : CTransaction where
  hash := hash
  vin := [{ prevout := ⟨0, COutPoint.nullIndex⟩, scriptSig := pushInt64 nHeight ++ [OP_0] }]
  vout := [payAnyone nValue]

def block (n : Nat) : CBlock where
  hash := 1000 + n
  hashPrevBlock := if n = 0 then 0 else 999 + n
  vtx := [coinbase (n + 1) n (if n = 0 then GENESIS_MONEY else INITIAL_SUBSIDY)]

def pindex (n : Nat) : CBlockIndex where
  hash := 1000 + n
  nHeight := n
  pprev := if n = 0 then none else some (999 + n)

/-- The transactions of the first two blocks. -/
def txs : Set CTransaction :=
  fun tx => tx = coinbase 1 0 GENESIS_MONEY ∨ tx = coinbase 2 1 INITIAL_SUBSIDY

theorem txs_injective : HashInjOn txs := by
  rintro tx (rfl | rfl) tx' (rfl | rfl) h
  · rfl
  · cases h
  · cases h
  · rfl

theorem block_accepted (n : Nat) (hn : n = 0 ∨ n = 1) :
    BlockAccepted lenientContext txs (pindex n) (block n) := by
  rcases hn with rfl | rfl
  · exact ⟨by decide, by decide, fun tx htx => .inl (mem_singleton.mp htx)⟩
  · exact ⟨by decide, by decide, fun tx htx => .inr (mem_singleton.mp htx)⟩

/-- With the genesis block connected, the next block replaces nothing, and the
    heights 1 and 17 give different scripts. -/
theorem next_replaces_nothing :
    (block 1).coinbaseScriptSig ≠ (block 17).coinbaseScriptSig ∧
      ∃ view blockundo, ChainView lenientEnv (BlockAccepted lenientContext txs) view
          [⟨block 0, pindex 0, blockundo⟩] ∧
        connectBlock lenientEnv (block 1) (pindex 1) view false ≠
          .error (.coins (.logicError "Adding new coin that replaces non-pruned entry")) := by
  obtain ⟨hscripts, hruns⟩ := addCoins_never_replaces lenientEnv lenientContext txs txs_injective
  obtain ⟨⟨view, blockundo⟩, hconn, -⟩ := exists_of_okAnd
    (x := connectBlock lenientEnv (block 0) (pindex 0) (new (.db .empty)) false)
    (p := fun _ => true) (by decide)
  have hrun : ChainView lenientEnv (BlockAccepted lenientContext txs) view
      [⟨block 0, pindex 0, blockundo⟩] :=
    .connect .start ⟨rfl, rfl⟩ (block_accepted 0 (.inl rfl)) hconn
  refine ⟨hscripts 1 17 (block 1) (block 17) (by decide) (by decide) (by decide) (by decide)
    (by decide) (by decide) (by decide), view, blockundo, hrun, ?_⟩
  exact (hruns view _ hrun (block 1) (pindex 1) false ⟨rfl, rfl⟩ (block_accepted 1 (.inr rfl))).2

end HeightSample

end Rcoin
