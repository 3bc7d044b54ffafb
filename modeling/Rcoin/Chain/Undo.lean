/-
  `AccessByTxid` (src/coins.cpp), `ApplyTxInUndo` and
  `CChainState::DisconnectBlock` (src/validation.cpp), and the same procedure on
  plain maps of coins.  On a coherent view the two agree: a disconnect deletes
  the outputs of each transaction and puts the spent coins back, last
  transaction and last input first.

  Undo data is read back as it was written; an unreadable undo file is `none`.
-/
import Rcoin.Chain.Connect

namespace Rcoin

open Maps Fallible CCoinsViewCache Coin List Option

/-! ## The functions of the source -/

/-- `::GetSerializeSize(CTxOut())`: eight bytes of value, an empty script. -/
def MIN_TRANSACTION_OUTPUT_WEIGHT : Nat := WITNESS_SCALE_FACTOR * 9

def MAX_OUTPUTS_PER_BLOCK : Nat := MAX_BLOCK_WEIGHT / MIN_TRANSACTION_OUTPUT_WEIGHT

/-- `AccessByTxid`: the first unspent output of a transaction, a spent coin when
    there is none.  The loop is structural in the number of indices left. -/
def accessByTxid (view : CCoinsViewCache) (txid : Uint256) : Coin × CCoinsViewCache :=
  go MAX_OUTPUTS_PER_BLOCK 0 view
where
  go : Nat → Nat → CCoinsViewCache → Coin × CCoinsViewCache
    | 0, _, view => (empty, view)
    | left + 1, n, view =>
      let r := view.accessCoin ⟨txid, n⟩
      if !r.1.isSpent then r else go left (n + 1) r.2

inductive DisconnectResult where
  | ok
  | unclean
  | failed
  deriving DecidableEq, Repr

/-- `fClean ? DISCONNECT_OK : DISCONNECT_UNCLEAN`. -/
def DisconnectResult.ofClean (fClean : Bool) : DisconnectResult := if fClean then .ok else .unclean

/-- The end of `ApplyTxInUndo`: `view.AddCoin(out, std::move(undo), !fClean)`. -/
def restoreCoin (undo : Coin) (view : CCoinsViewCache) (out : COutPoint) (fClean : Bool) :
    Except CoinsError (DisconnectResult × CCoinsViewCache) := do
  let view ← view.addCoin out undo (!fClean)
  .ok (.ofClean fClean, view)

def applyTxInUndo (undo : Coin) (view : CCoinsViewCache) (out : COutPoint) :
    Except CoinsError (DisconnectResult × CCoinsViewCache) :=
  let r := view.haveCoin out
  let fClean := !r.1
  if undo.nHeight = 0 then
    -- missing undo metadata: take it from another output of the transaction
    let a := accessByTxid r.2 out.hash
    if !a.1.isSpent then
      restoreCoin { undo with nHeight := a.1.nHeight, fCoinBase := a.1.fCoinBase } a.2 out fClean
    else .ok (.failed, a.2)
  else restoreCoin undo r.2 out fClean

/-- The loop of `DisconnectBlock` over the outputs: each must be there, and be
    what the block says.  A coin that was not there is left as `Coin()`. -/
def disconnectOutputs (tx : CTransaction) (nHeight : Nat) :
    Nat → List CTxOut → Bool → CCoinsViewCache → Bool × CCoinsViewCache
  | _, [], fClean, view => (fClean, view)
  | o, txout :: rest, fClean, view =>
    if txout.scriptPubKey.isUnspendable then disconnectOutputs tx nHeight (o + 1) rest fClean view
    else
      let r := view.spendCoin ⟨tx.hash, o⟩
      let coin := r.1.getD empty
      let mismatch := r.1.isNone || txout != coin.out || nHeight != coin.nHeight ||
        tx.isCoinBase != coin.fCoinBase
      disconnectOutputs tx nHeight (o + 1) rest (fClean && !mismatch) r.2

/-- The loop over the inputs, `for (j = tx.vin.size(); j-- > 0;)`: the inputs
    after the first are restored before it. -/
def restoreInputs (view : CCoinsViewCache) :
    List (COutPoint × Coin) → Bool → Except CoinsError (DisconnectResult × CCoinsViewCache)
  | [], fClean => .ok (.ofClean fClean, view)
  | (out, undo) :: rest, fClean => do
    let (res, view) ← restoreInputs view rest fClean
    if res = .failed then .ok (.failed, view)
    else
      let (res', view) ← applyTxInUndo undo view out
      if res' = .failed then .ok (.failed, view)
      else .ok (.ofClean (res = .ok && res' != .unclean), view)

/-- The body of the loop over the transactions; `txundo` is `none` for the
    coinbase, which has no inputs to restore. -/
def disconnectTx (nHeight : Nat) (tx : CTransaction) (txundo : Option CTxUndo) (fClean : Bool)
    (view : CCoinsViewCache) : Except CoinsError (DisconnectResult × CCoinsViewCache) :=
  let r := disconnectOutputs tx nHeight 0 tx.vout fClean view
  match txundo with
  | none => .ok (.ofClean r.1, r.2)
  | some vprevout =>
    if vprevout.length != tx.vin.length then .ok (.failed, r.2)
    else restoreInputs r.2 (tx.prevouts.zip vprevout) r.1

/-- The loop over the transactions in reverse order. -/
def disconnectTxs (nHeight : Nat) (view : CCoinsViewCache) :
    List (CTransaction × Option CTxUndo) → Except CoinsError (DisconnectResult × CCoinsViewCache)
  | [] => .ok (.ok, view)
  | (tx, txundo) :: rest => do
    let (res, view) ← disconnectTxs nHeight view rest
    if res = .failed then .ok (.failed, view)
    else disconnectTx nHeight tx txundo (res = .ok) view

def disconnectBlock (block : CBlock) (pindex : CBlockIndex) (view : CCoinsViewCache)
    (undoFile : Option CBlockUndo) : Except CoinsError (DisconnectResult × CCoinsViewCache) :=
  match undoFile with
  | none => .ok (.failed, view)
  | some blockUndo =>
    if blockUndo.length + 1 != block.vtx.length then .ok (.failed, view)
    else do
      let (res, view) ← disconnectTxs pindex.nHeight view
        (block.vtx.zip (none :: blockUndo.map some))
      if res = .failed then .ok (.failed, view)
      else .ok (res, view.setBestBlock pindex.hashPrevBlock)

/-! ## The same on plain maps

`none` stands for `DISCONNECT_FAILED`. -/

namespace Plain

/-- The first unspent output of a transaction. -/
def accessByTxid (m : COutPoint → Option Coin) (txid : Uint256) : Option Coin :=
  go MAX_OUTPUTS_PER_BLOCK 0
where
  go : Nat → Nat → Option Coin
    | 0, _ => none
    | left + 1, n => (m ⟨txid, n⟩).or (go left (n + 1))

/-- The coin an undo record stands for: one without a height takes height and
    coinbase flag from another output of its transaction. -/
def undoCoin (m : COutPoint → Option Coin) (undo : Coin) (out : COutPoint) : Option Coin :=
  if undo.nHeight = 0 then
    (accessByTxid m out.hash).map fun a =>
      { undo with nHeight := a.nHeight, fCoinBase := a.fCoinBase }
  else some undo

/-- The coins after the inputs are restored, and whether all of them were
    missing before. -/
def restoreInputs (m : COutPoint → Option Coin) :
    List (COutPoint × Coin) → Bool → Option (Bool × (COutPoint → Option Coin))
  | [], fClean => some (fClean, m)
  | (out, undo) :: rest, fClean =>
    (restoreInputs m rest fClean).bind fun r =>
      (undoCoin r.2 undo out).map fun coin =>
        (r.1 && (r.2 out).isNone, write r.2 (out, some coin))

/-- Whether a transaction's outputs are in the map as its block created them. -/
def outputsMatch (m : COutPoint → Option Coin) (ws : List (Write COutPoint Coin)) : Bool :=
  ws.all fun w => m w.1 == w.2

def disconnectTx (nHeight : Nat) (tx : CTransaction) (txundo : Option CTxUndo) (fClean : Bool)
    (m : COutPoint → Option Coin) : Option (Bool × (COutPoint → Option Coin)) :=
  let fClean := fClean && outputsMatch m (addWrites tx nHeight)
  let m := writes m (deletes ((addWrites tx nHeight).map Prod.fst))
  match txundo with
  | none => some (fClean, m)
  | some vprevout =>
    if vprevout.length != tx.vin.length then none
    else restoreInputs m (tx.prevouts.zip vprevout) fClean

def disconnectTxs (nHeight : Nat) (m : COutPoint → Option Coin) :
    List (CTransaction × Option CTxUndo) → Option (Bool × (COutPoint → Option Coin))
  | [] => some (true, m)
  | (tx, txundo) :: rest =>
    (disconnectTxs nHeight m rest).bind fun r => disconnectTx nHeight tx txundo r.1 r.2

end Plain

open Plain

/-! ## The view follows the plain map -/

/-- An undo record whose coin can be added: unspent, with a script that can be
    spent. -/
def Coin.Addable (coin : Coin) : Prop :=
  coin.isSpent = false ∧ coin.out.scriptPubKey.isUnspendable = false

/-- The result of a disconnect step follows its counterpart on plain maps. -/
def Follows (view : CCoinsViewCache) (e : Except CoinsError (DisconnectResult × CCoinsViewCache)) :
    Option (Bool × (COutPoint → Option Coin)) → Prop
  | none => ∃ view', e = .ok (.failed, view')
  | some (fClean, m) => ∃ view', e = .ok (.ofClean fClean, view') ∧ view'.Coherent ∧
      view.Frame view' ∧ view'.coinAt = m

variable {view : CCoinsViewCache}

theorem accessByTxid_go_spec (hc : view.base.Coherent) (txid : Uint256) (left n : Nat) :
    (accessByTxid.go txid left n view).1.unspent? = Plain.accessByTxid.go view.coinAt txid left n ∧
      view.Fetched (accessByTxid.go txid left n view).2 := by
  induction left generalizing n view with
  | zero => exact ⟨rfl, .refl _⟩
  | succ left ih =>
    obtain ⟨h1, h2⟩ := accessCoin_spec hc ⟨txid, n⟩
    unfold accessByTxid.go Plain.accessByTxid.go
    cases hs : (view.accessCoin ⟨txid, n⟩).1.isSpent with
    | false =>
      simp only [hs, Bool.not_false, if_true]
      refine ⟨?_, h2⟩
      rw [← h1, unspent?_of_not_isSpent hs]
      rfl
    | true =>
      simp only [hs, Bool.not_true, Bool.false_eq_true, if_false]
      obtain ⟨hgo, hf⟩ := ih (h2.base.coherent hc) (n + 1)
      refine ⟨?_, h2.trans hf⟩
      rw [hgo, h2.coinAt, ← h1, unspent?_of_isSpent hs]
      rfl

theorem addCoin_ok (hc : view.Coherent) {o : COutPoint} {coin : Coin} (hcoin : coin.Addable)
    {fClean : Bool} (hclean : fClean = (view.coinAt o).isNone) :
    ∃ view', view.addCoin o coin (!fClean) = .ok view' ∧ view'.Coherent ∧ view.Frame view' ∧
      view'.coinAt = write view.coinAt (o, some coin) := by
  obtain ⟨hs, hu⟩ := hcoin
  have hnone : fClean = true → view.coinAt o = none := by
    intro hf
    rw [hf] at hclean
    exact isNone_iff_eq_none.mp hclean.symm
  have hex : ∃ view', view.addCoin o coin (!fClean) = .ok view' := by
    unfold CCoinsViewCache.addCoin
    rw [if_neg (by simp [hs]), if_neg (by simp [hu])]
    set it := (view.cacheCoins.lookup o).getD ⟨empty, false, false⟩ with hit
    have hthrow : ¬ (!(!fClean) && !it.coin.isSpent) = true := by
      intro ht
      obtain ⟨hf, hns⟩ := Bool.and_eq_true_iff.mp ht
      have hfc : fClean = true := by simpa using hf
      cases hl : view.cacheCoins.lookup o with
      | none => rw [hit, hl] at hns; cases hns
      | some e =>
        rw [hit, hl] at hns
        have hseen : e.coin.unspent? = none :=
          (coinAt_of_lookup hl).symm.trans (hnone hfc)
        have hspent : e.coin.isSpent = true := unspent?_eq_none_iff.mp hseen
        have hns' : (!e.coin.isSpent) = true := hns
        rw [hspent] at hns'
        cases hns'
    exact ⟨_, by rw [if_neg hthrow]⟩
  obtain ⟨view', hadd⟩ := hex
  obtain ⟨hat, hcoh, -⟩ := addCoin_spec hc (fun hp hl =>
    noneBelow_of_coinAt (hnone (by simpa using hp)) hl) hadd
  refine ⟨view', hadd, hcoh, addCoin_frame hadd, ?_⟩
  rw [hat, addedCoin, if_neg (by simp [hu])]

theorem applyTxInUndo_spec (hc : view.Coherent) {undo : Coin} (hundo : undo.Addable)
    (out : COutPoint) : Follows view (applyTxInUndo undo view out)
      ((Plain.undoCoin view.coinAt undo out).map fun coin =>
        ((view.coinAt out).isNone, write view.coinAt (out, some coin))) := by
  obtain ⟨h1, h2⟩ := haveCoin_spec hc.1 out
  have hclean : (!(view.haveCoin out).1) = (view.coinAt out).isNone := by
    rw [h1]
    cases view.coinAt out <;> rfl
  -- the last step, on any view that shows the same coins
  have hrestore : ∀ {view1 : CCoinsViewCache} {coin : Coin}, view.Fetched view1 →
      coin.Addable → Follows view (restoreCoin coin view1 out (!(view.haveCoin out).1))
        (some ((view.coinAt out).isNone, write view.coinAt (out, some coin))) := by
    intro view1 coin hf hcoin
    have hclean1 : (!(view.haveCoin out).1) = (view1.coinAt out).isNone := by
      rw [hf.coinAt]; exact hclean
    obtain ⟨view2, hadd, hcoh, hframe, hat⟩ :=
      addCoin_ok (hf.sameCoins.coherent hc) hcoin hclean1
    refine ⟨view2, ?_, hcoh, hf.frame.trans hframe, by rw [hat, hf.coinAt]⟩
    unfold restoreCoin
    rw [hadd, ← hclean]
    rfl
  unfold applyTxInUndo Plain.undoCoin
  by_cases hh : undo.nHeight = 0
  · simp only [hh, if_true]
    obtain ⟨ha, hfa⟩ := accessByTxid_go_spec (h2.base.coherent hc.1) out.hash
      MAX_OUTPUTS_PER_BLOCK 0
    have haccess : Plain.accessByTxid view.coinAt out.hash =
        (accessByTxid (view.haveCoin out).2 out.hash).1.unspent? := by
      rw [← h2.coinAt]
      exact ha.symm
    rw [haccess]
    cases hs : (accessByTxid (view.haveCoin out).2 out.hash).1.isSpent with
    | true =>
      simp only [Bool.not_true, Bool.false_eq_true, if_false, unspent?_of_isSpent hs]
      exact ⟨_, rfl⟩
    | false =>
      simp only [Bool.not_false, if_true, unspent?_of_not_isSpent hs]
      exact hrestore (h2.trans hfa) hundo
  · simp only [hh, if_false]
    exact hrestore h2 hundo

variable {tx : CTransaction} {nHeight : Nat}

theorem mismatch_eq {txout : CTxOut} (hout : txout.isNull = false) {r : Option Coin} :
    (!(r.isNone || txout != (r.getD Coin.empty).out || nHeight != (r.getD Coin.empty).nHeight ||
      tx.isCoinBase != (r.getD Coin.empty).fCoinBase)) =
      (r.bind unspent? == some (tx.newCoin nHeight txout)) := by
  cases r with
  | none => rfl
  | some coin =>
    simp only [isNone_some, Bool.false_or, getD_some, bind_some]
    cases hs : coin.isSpent with
    | true =>
      -- a coin spent before cannot be an output of the block
      have hne : txout ≠ coin.out := by
        intro heq
        rw [heq] at hout
        exact Bool.false_ne_true (hout.symm.trans hs)
      rw [unspent?_of_isSpent hs, bne_iff_ne.mpr hne]
      rfl
    | false =>
      rw [unspent?_of_not_isSpent hs, Bool.eq_iff_iff]
      obtain ⟨out, height, cb⟩ := coin
      simp only [CTransaction.newCoin, Bool.not_eq_true', Bool.or_eq_false_iff, bne_eq_false_iff_eq,
        beq_iff_eq, Option.some.injEq, Coin.mk.injEq]
      constructor
      · rintro ⟨⟨rfl, rfl⟩, rfl⟩
        exact ⟨rfl, rfl, rfl⟩
      · rintro ⟨rfl, rfl, rfl⟩
        exact ⟨⟨rfl, rfl⟩, rfl⟩

theorem disconnectOutputs_spec {outs : List CTxOut} (hout : ∀ txout ∈ outs, txout.isNull = false)
    (hc : view.Coherent) (o : Nat) (fClean : Bool) {r : Bool × CCoinsViewCache}
    (hr : disconnectOutputs tx nHeight o outs fClean view = r) : r.2.Coherent ∧ view.Frame r.2 ∧
      r.1 = (fClean && outputsMatch view.coinAt (addWritesFrom tx nHeight o outs)) ∧
      r.2.coinAt =
        writes view.coinAt (deletes ((addWritesFrom tx nHeight o outs).map Prod.fst)) := by
  induction outs generalizing view o fClean with
  | nil =>
    subst hr
    exact ⟨hc, .refl _, by simp [disconnectOutputs, addWritesFrom, outputsMatch], rfl⟩
  | cons txout rest ih =>
    have hout' : ∀ txout' ∈ rest, txout'.isNull = false :=
      fun txout' hmem => hout txout' (mem_cons_of_mem _ hmem)
    unfold disconnectOutputs at hr
    unfold addWritesFrom
    by_cases hu : txout.scriptPubKey.isUnspendable = true
    · simp only [hu, if_true] at hr ⊢
      exact ih hout' hc (o + 1) fClean hr
    · simp only [hu, Bool.false_eq_true, if_false] at hr ⊢
      obtain ⟨hat, hcoh, hcoin⟩ := spendCoin_spec hc ⟨tx.hash, o⟩
      have hframe := spendCoin_frame hc ⟨tx.hash, o⟩
      obtain ⟨hcoh', hframe', hclean', hat'⟩ := ih hout' hcoh (o + 1) _ hr
      refine ⟨hcoh', hframe.trans hframe', ?_, ?_⟩
      · -- the outputs after this one have other indices, so they are still as they were
        have hkeep : outputsMatch (view.spendCoin ⟨tx.hash, o⟩).2.coinAt
            (addWritesFrom tx nHeight (o + 1) rest) =
            outputsMatch view.coinAt (addWritesFrom tx nHeight (o + 1) rest) := by
          unfold outputsMatch
          rw [Bool.eq_iff_iff, List.all_eq_true, List.all_eq_true]
          have hsame : ∀ w ∈ addWritesFrom tx nHeight (o + 1) rest,
              (view.spendCoin ⟨tx.hash, o⟩).2.coinAt w.1 = view.coinAt w.1 := by
            intro w hw
            obtain ⟨j, txout', -, -, rfl⟩ := mem_addWritesFrom hw
            rw [hat, write_apply, if_neg]
            intro heq
            have hidx : o + 1 + j = o := congrArg COutPoint.n heq
            omega
          constructor
          · intro h w hw
            rw [← hsame w hw]; exact h w hw
          · intro h w hw
            rw [hsame w hw]; exact h w hw
        rw [hclean', hkeep, mismatch_eq (hout txout (mem_cons_self ..)), hcoin, Bool.and_assoc]
        rfl
      · rw [hat', hat]; rfl

/-! ## Inputs, transactions, blocks -/

theorem DisconnectResult.ofClean_ne_failed (fClean : Bool) : ofClean fClean ≠ .failed := by
  cases fClean <;> decide

theorem restoreInputs_spec {inputs : List (COutPoint × Coin)} (hundo : ∀ x ∈ inputs, x.2.Addable)
    (hc : view.Coherent) (fClean : Bool) : Follows view (restoreInputs view inputs fClean)
      (Plain.restoreInputs view.coinAt inputs fClean) := by
  induction inputs generalizing fClean with
  | nil => exact ⟨view, rfl, hc, .refl _, rfl⟩
  | cons x rest ih =>
    obtain ⟨out, undo⟩ := x
    have hrest := ih (fun x hx => hundo x (mem_cons_of_mem _ hx)) fClean
    unfold restoreInputs Plain.restoreInputs
    rcases hp : Plain.restoreInputs view.coinAt rest fClean with _ | ⟨clean1, m1⟩
    · -- an input after this one could not be restored
      rw [hp] at hrest
      obtain ⟨view1, he⟩ := hrest
      rw [he]
      exact ⟨view1, rfl⟩
    · rw [hp] at hrest
      obtain ⟨view1, he, hcoh, hframe, hat⟩ := hrest
      subst hat
      have happly := applyTxInUndo_spec hcoh (hundo (out, undo) (mem_cons_self ..)) out
      have hne := DisconnectResult.ofClean_ne_failed clean1
      have hbody : (do
          let (res, view) ← restoreInputs view rest fClean
          if res = .failed then .ok (.failed, view)
          else
            let (res', view) ← applyTxInUndo undo view out
            if res' = .failed then .ok (.failed, view)
            else .ok (.ofClean (res = .ok && res' != .unclean), view)) =
          (applyTxInUndo undo view1 out >>= fun r =>
            if r.1 = .failed then .ok (.failed, r.2)
            else .ok (DisconnectResult.ofClean
              (DisconnectResult.ofClean clean1 = .ok && r.1 != .unclean), r.2)) := by
        rw [he]
        exact if_neg hne
      rw [hbody, bind_some]
      cases hcoin : Plain.undoCoin view1.coinAt undo out with
      | none =>
        rw [hcoin] at happly
        obtain ⟨view2, he2⟩ := happly
        rw [he2]
        exact ⟨view2, rfl⟩
      | some coin =>
        rw [hcoin] at happly
        obtain ⟨view2, he2, hcoh2, hframe2, hat2⟩ := happly
        refine ⟨view2, ?_, hcoh2, hframe.trans hframe2, hat2⟩
        rw [he2]
        cases clean1 <;> cases (view1.coinAt out).isNone <;> rfl

/-- The outputs of a transaction as `CheckTransaction` leaves them, and undo
    records that can be added. -/
structure Undoable (tx : CTransaction) (txundo : Option CTxUndo) : Prop where
  outputs : ∀ txout ∈ tx.vout, txout.isNull = false
  coins : ∀ vprevout, txundo = some vprevout → ∀ coin ∈ vprevout, coin.Addable

theorem disconnectTx_spec {txundo : Option CTxUndo} (hu : Undoable tx txundo) (hc : view.Coherent)
    (fClean : Bool) : Follows view (disconnectTx nHeight tx txundo fClean view)
      (Plain.disconnectTx nHeight tx txundo fClean view.coinAt) := by
  unfold disconnectTx Plain.disconnectTx
  rcases hr : disconnectOutputs tx nHeight 0 tx.vout fClean view with ⟨clean, view1⟩
  obtain ⟨hcoh, hframe, hclean, hat⟩ := disconnectOutputs_spec hu.outputs hc 0 fClean hr
  have hclean' : (fClean && outputsMatch view.coinAt (addWrites tx nHeight)) = clean :=
    hclean.symm
  have hat' : writes view.coinAt (deletes ((addWrites tx nHeight).map Prod.fst)) = view1.coinAt :=
    hat.symm
  simp only [hclean', hat']
  cases txundo with
  | none => exact ⟨view1, rfl, hcoh, hframe, rfl⟩
  | some vprevout =>
    simp only
    by_cases hlen : (vprevout.length != tx.vin.length) = true
    · rw [if_pos hlen, if_pos hlen]
      exact ⟨view1, rfl⟩
    · rw [if_neg hlen, if_neg hlen]
      have hcoins : ∀ x ∈ tx.prevouts.zip vprevout, x.2.Addable := by
        intro x hx
        exact hu.coins vprevout rfl x.2 (of_mem_zip hx).2
      have hrestore := restoreInputs_spec hcoins hcoh clean
      rcases hp : Plain.restoreInputs view1.coinAt (tx.prevouts.zip vprevout) clean with
        _ | ⟨clean2, m2⟩
      · rw [hp] at hrestore
        exact hrestore
      · rw [hp] at hrestore
        obtain ⟨view2, he, hcoh2, hframe2, hat2⟩ := hrestore
        exact ⟨view2, he, hcoh2, hframe.trans hframe2, hat2⟩

theorem disconnectTxs_spec (nHeight : Nat) {txs : List (CTransaction × Option CTxUndo)}
    (hu : ∀ x ∈ txs, Undoable x.1 x.2) (hc : view.Coherent) :
    Follows view (disconnectTxs nHeight view txs)
      (Plain.disconnectTxs nHeight view.coinAt txs) := by
  induction txs with
  | nil => exact ⟨view, rfl, hc, .refl _, rfl⟩
  | cons x rest ih =>
    obtain ⟨tx, txundo⟩ := x
    have hrest := ih fun x hx => hu x (mem_cons_of_mem _ hx)
    unfold disconnectTxs Plain.disconnectTxs
    rcases hp : Plain.disconnectTxs nHeight view.coinAt rest with _ | ⟨clean1, m1⟩
    · rw [hp] at hrest
      obtain ⟨view1, he⟩ := hrest
      rw [he]
      exact ⟨view1, rfl⟩
    · rw [hp] at hrest
      obtain ⟨view1, he, hcoh, hframe, hat⟩ := hrest
      subst hat
      have hstep : Follows view1
          (disconnectTx nHeight tx txundo (DisconnectResult.ofClean clean1 = .ok) view1)
          (Plain.disconnectTx nHeight tx txundo (DisconnectResult.ofClean clean1 = .ok)
            view1.coinAt) :=
        disconnectTx_spec (hu (tx, txundo) (mem_cons_self ..)) hcoh _
      have hdec : decide (DisconnectResult.ofClean clean1 = .ok) = clean1 := by
        cases clean1 <;> rfl
      have hbody : (do
          let (res, view) ← disconnectTxs nHeight view rest
          if res = .failed then .ok (.failed, view)
          else disconnectTx nHeight tx txundo (res = .ok) view) =
          disconnectTx nHeight tx txundo (DisconnectResult.ofClean clean1 = .ok) view1 := by
        rw [he]
        exact if_neg (DisconnectResult.ofClean_ne_failed clean1)
      rw [hbody, bind_some]
      rw [hdec] at hstep ⊢
      rcases hp2 : Plain.disconnectTx nHeight tx txundo clean1 view1.coinAt with _ | ⟨clean2, m2⟩
      · rw [hp2] at hstep
        exact hstep
      · rw [hp2] at hstep
        obtain ⟨view2, he2, hcoh2, hframe2, hat2⟩ := hstep
        exact ⟨view2, he2, hcoh2, hframe.trans hframe2, hat2⟩

end Rcoin
