/-
  A tip change that is refused leaves no trace, and one that is made leaves
  `pcoinsTip` at the new tip.  Up to the flush of the view on top of it,
  `pcoinsTip` is only read; this is put together along the structure of
  `ConnectBlock` and `DisconnectBlock`.
-/
import Rcoin.Chain.Disconnect
import Rcoin.Chain.TipChange
import Rcoin.Coins.Parent

namespace Rcoin

open Fallible GenesisSpend CCoinsView

/-! ## Computations that only read the parent -/

namespace ViewM

variable {α β : Type}

/-- However the computation ends, the parent of the view shows what it showed. -/
def KeepsBase (m : ViewM α) : Prop :=
  ∀ c : CCoinsViewCache, c.base.UnspentRecords → c.base.Unseen (m c).2.base

theorem KeepsBase.pure (a : α) : KeepsBase (Pure.pure a : ViewM α) := fun _ hc => .refl hc

theorem KeepsBase.check (x : Except ValidationError α) : KeepsBase (check x) :=
  fun _ hc => .refl hc

theorem KeepsBase.call {f : CCoinsViewCache → α × CCoinsViewCache}
    (h : ∀ c : CCoinsViewCache, c.base.UnspentRecords → c.base.Unseen (f c).2.base) :
    KeepsBase (call f) := h

theorem KeepsBase.throwing {f : CCoinsViewCache → Except CoinsError (α × CCoinsViewCache)}
    (h : ∀ (c : CCoinsViewCache) r, c.base.UnspentRecords → f c = .ok r → c.base.Unseen r.2.base) :
    KeepsBase (throwing f) := by
  intro c hc
  unfold ViewM.throwing
  split
  next a c' hf => exact h c _ hc hf
  next => exact .refl hc

theorem bind_apply (m : ViewM α) (f : α → ViewM β) (c : CCoinsViewCache) :
    (m >>= f) c = match m c with
      | (.ok a, c') => f a c'
      | (.error e, c') => (.error e, c') := rfl

theorem KeepsBase.bind {m : ViewM α} {f : α → ViewM β} (hm : KeepsBase m)
    (hf : ∀ a, KeepsBase (f a)) : KeepsBase (m >>= f) := by
  intro c hc
  have hread := hm c hc
  rw [bind_apply]
  rcases hmc : m c with ⟨e | a, c'⟩ <;> rw [hmc] at hread
  · exact hread
  · exact hread.trans (hf a c' hread.unspentRecords)

end ViewM

variable {c : CCoinsViewCache}

namespace CCoinsViewCache

theorem accessCoins_base (prevouts : List COutPoint) (hc : c.base.UnspentRecords)
    : c.base.Unseen (c.accessCoins prevouts).2.base := by
  induction prevouts generalizing c with
  | nil => exact .refl hc
  | cons o rest ih =>
    have hread := accessCoin_base hc o
    exact hread.trans (ih hread.unspentRecords)

end CCoinsViewCache

open CCoinsViewCache

variable {r : CTxUndo × CCoinsViewCache}

theorem spendInputs_base {prevouts : List COutPoint} (hc : c.base.UnspentRecords)
    (h : spendInputs c prevouts = .ok r)
    : c.base.Unseen r.2.base := by
  induction prevouts generalizing c r with
  | nil =>
    cases h
    exact .refl hc
  | cons o rest ih =>
    have hspend := spendCoin_base hc o
    unfold spendInputs at h
    split at h
    · nomatch h
    next coin c' hc' =>
      rw [hc'] at hspend
      obtain ⟨⟨txundo, c''⟩, hrest, h⟩ := bind_eq_ok.mp h
      cases h
      exact hspend.trans (ih (r := (txundo, c'')) hspend.unspentRecords hrest)

variable {nHeight : Nat} {tx : CTransaction}

theorem updateCoins_base (hc : c.base.UnspentRecords) (h : updateCoins tx c nHeight = .ok r)
    : c.base.Unseen r.2.base := by
  obtain ⟨⟨txundo, c1⟩, hspent, h⟩ := bind_eq_ok.mp h
  obtain ⟨c2, hadd, h⟩ := bind_eq_ok.mp h
  cases h
  have hread : c.base.Unseen c1.base := by
    unfold markInputsSpent at hspent
    split at hspent
    · cases hspent
      exact .refl hc
    · exact spendInputs_base hc hspent
  exact hread.trans (addCoins_base hread.unspentRecords hadd)

namespace OnView

open ViewM

theorem checkInputValues_keepsBase (nSpendHeight : Nat) (nValueIn : Int)
    (prevouts : List COutPoint) : (checkInputValues nSpendHeight nValueIn prevouts).KeepsBase := by
  induction prevouts generalizing nValueIn with
  | nil => exact .pure _
  | cons o rest ih =>
    refine (KeepsBase.call fun c hc => c.accessCoin_base hc o).bind fun coin => ?_
    refine (KeepsBase.check _).bind fun _ => (KeepsBase.check _).bind fun _ => ?_
    exact (KeepsBase.check _).bind fun _ => ih _

theorem checkTxInputs_keepsBase (tx : CTransaction) (nSpendHeight : Nat) :
    (checkTxInputs tx nSpendHeight).KeepsBase := by
  refine (KeepsBase.call fun c hc => c.haveInputs_base hc tx).bind fun have_inputs => ?_
  refine (KeepsBase.check _).bind fun _ => ?_
  refine (checkInputValues_keepsBase _ _ _).bind fun nValueIn => ?_
  split
  · exact .check _
  · refine (KeepsBase.check _).bind fun _ => (KeepsBase.check _).bind fun _ => ?_
    exact .pure _

theorem connectInputs_keepsBase (env : ValidationEnv) (pindex : CBlockIndex) (s : Totals)
    (tx : CTransaction) : (connectInputs env pindex s tx).KeepsBase := by
  unfold connectInputs
  split
  · exact .pure _
  · refine (checkTxInputs_keepsBase _ _).bind fun txfee => (KeepsBase.check _).bind fun _ => ?_
    refine (KeepsBase.call fun c hc => c.accessCoins_base _ hc).bind fun coins => ?_
    exact (KeepsBase.check _).bind fun _ => .pure _

theorem connectTx_keepsBase (env : ValidationEnv) (pindex : CBlockIndex) (s : Totals)
    (tx : CTransaction) : (connectTx env pindex s tx).KeepsBase := by
  refine (connectInputs_keepsBase _ _ _ _).bind fun r => ?_
  refine (KeepsBase.check _).bind fun _ => (KeepsBase.check _).bind fun _ => ?_
  refine (KeepsBase.throwing fun c r hc h => updateCoins_base hc h).bind fun txundo => ?_
  exact .pure _

theorem connectTxs_keepsBase (env : ValidationEnv) (pindex : CBlockIndex) (s : Totals)
    (txs : List CTransaction) : (connectTxs env pindex s txs).KeepsBase := by
  induction txs generalizing s with
  | nil => exact .pure _
  | cons tx rest ih => exact (connectTx_keepsBase _ _ _ _).bind fun s' => ih s'

theorem connectBlock_keepsBase (env : ValidationEnv) (block : CBlock) (pindex : CBlockIndex) :
    (connectBlock env block pindex).KeepsBase := by
  refine (KeepsBase.check _).bind fun _ => (KeepsBase.check _).bind fun _ => ?_
  refine (KeepsBase.call fun c hc => c.getBestBlock_base hc).bind fun bestBlock => ?_
  refine (KeepsBase.check _).bind fun _ => (KeepsBase.check _).bind fun _ => ?_
  refine (connectTxs_keepsBase _ _ _ _).bind fun s => ?_
  split
  · exact .check _
  · refine (KeepsBase.check _).bind fun _ => ?_
    exact .call fun c hc => .refl hc

end OnView

/-! ## `DisconnectBlock` only reads the parent -/

theorem accessByTxid_base (hc : c.base.UnspentRecords) (txid : Uint256) :
    c.base.Unseen (accessByTxid c txid).2.base := by
  suffices hgo : ∀ (left n : Nat) (c : CCoinsViewCache), c.base.UnspentRecords →
      c.base.Unseen (accessByTxid.go txid left n c).2.base from hgo _ _ c hc
  intro left
  induction left with
  | zero => exact fun _ c hc => .refl hc
  | succ left ih =>
    intro n c hc
    have hread := accessCoin_base hc ⟨txid, n⟩
    unfold accessByTxid.go
    dsimp only
    split
    · exact hread
    · exact hread.trans (ih _ _ hread.unspentRecords)

variable {r : DisconnectResult × CCoinsViewCache} {fClean : Bool} {out : COutPoint} {undo : Coin}

theorem restoreCoin_base (hc : c.base.UnspentRecords) (h : restoreCoin undo c out fClean = .ok r)
    : c.base.Unseen r.2.base := by
  obtain ⟨c', hadd, h⟩ := bind_eq_ok.mp h
  cases h
  rw [show c'.base = c.base from addCoin_base hadd]
  exact .refl hc

theorem applyTxInUndo_base (hc : c.base.UnspentRecords) (h : applyTxInUndo undo c out = .ok r) :
    c.base.Unseen r.2.base := by
  have hread := haveCoin_base hc out
  unfold applyTxInUndo at h
  dsimp only at h
  split at h
  · have haccess := hread.trans (accessByTxid_base hread.unspentRecords out.hash)
    split at h
    · exact haccess.trans (restoreCoin_base haccess.unspentRecords h)
    · cases h
      exact haccess
  · exact hread.trans (restoreCoin_base hread.unspentRecords h)

theorem disconnectOutputs_base (tx : CTransaction) (nHeight o : Nat) (outs : List CTxOut)
    (fClean : Bool) (hc : c.base.UnspentRecords) :
    c.base.Unseen (disconnectOutputs tx nHeight o outs fClean c).2.base := by
  induction outs generalizing o fClean c with
  | nil => exact .refl hc
  | cons txout rest ih =>
    unfold disconnectOutputs
    split
    · exact ih _ _ hc
    · have hspend := spendCoin_base hc ⟨tx.hash, o⟩
      exact hspend.trans (ih _ _ hspend.unspentRecords)

variable (hc : c.base.UnspentRecords)

include hc

theorem restoreInputs_base {inputs : List (COutPoint × Coin)}
    (h : restoreInputs c inputs fClean = .ok r)
    : c.base.Unseen r.2.base := by
  induction inputs generalizing r with
  | nil =>
    cases h
    exact .refl hc
  | cons input rest ih =>
    obtain ⟨⟨res, c'⟩, hrest, h⟩ := bind_eq_ok.mp h
    have hread := ih hrest
    dsimp only at h
    split at h
    · cases h
      exact hread
    · obtain ⟨⟨res', c''⟩, happly, h⟩ := bind_eq_ok.mp h
      have happlied := hread.trans (applyTxInUndo_base hread.unspentRecords happly)
      split at h <;> cases h <;> exact happlied

theorem disconnectTx_base {txundo : Option CTxUndo}
    (h : disconnectTx nHeight tx txundo fClean c = .ok r) : c.base.Unseen r.2.base := by
  have houts := disconnectOutputs_base tx nHeight 0 tx.vout fClean hc
  unfold disconnectTx at h
  split at h
  · cases h
    exact houts
  · split at h
    · cases h
      exact houts
    · exact houts.trans (restoreInputs_base houts.unspentRecords h)

theorem disconnectTxs_base {txs : List (CTransaction × Option CTxUndo)}
    (h : disconnectTxs nHeight c txs = .ok r)
    : c.base.Unseen r.2.base := by
  induction txs generalizing r with
  | nil =>
    cases h
    exact .refl hc
  | cons tx rest ih =>
    obtain ⟨⟨res, c'⟩, hrest, h⟩ := bind_eq_ok.mp h
    have hread := ih hrest
    dsimp only at h
    split at h
    · cases h
      exact hread
    · exact hread.trans (disconnectTx_base hread.unspentRecords h)

theorem disconnectBlock_base {block : CBlock} {pindex : CBlockIndex} {undoFile : Option CBlockUndo}
    (h : disconnectBlock block pindex c undoFile = .ok r) :
    c.base.Unseen r.2.base ∧ (r.1 ≠ .failed → r.2.hashBlock = pindex.hashPrevBlock) := by
  unfold disconnectBlock at h
  split at h
  · cases h
    exact ⟨.refl hc, fun hne => absurd rfl hne⟩
  split at h
  · cases h
    exact ⟨.refl hc, fun hne => absurd rfl hne⟩
  · obtain ⟨⟨res, c'⟩, htxs, h⟩ := bind_eq_ok.mp h
    have hread := disconnectTxs_base hc htxs
    dsimp only at h
    split at h
    · cases h
      exact ⟨hread, fun hne => absurd rfl hne⟩
    · cases h
      exact ⟨hread, fun _ => rfl⟩

omit hc

/-! ## The two accounts of `ConnectBlock` agree -/

namespace ViewM

variable {α β : Type}

/-- The computation as one that loses the view when it fails. -/
def outcome (m : ViewM α) (c : CCoinsViewCache) : Except ValidationError (α × CCoinsViewCache) :=
  match m c with
  | (.ok a, c') => .ok (a, c')
  | (.error e, _) => .error e

theorem outcome_bind (m : ViewM α) (f : α → ViewM β) (c : CCoinsViewCache) :
    (m >>= f).outcome c = m.outcome c >>= fun r => (f r.1).outcome r.2 := by
  unfold outcome
  rw [bind_apply]
  rcases m c with ⟨e | a, c'⟩ <;> rfl

theorem outcome_pure (a : α) (c : CCoinsViewCache) :
    outcome (Pure.pure a : ViewM α) c = .ok (a, c) := rfl

theorem outcome_call_bind (g : CCoinsViewCache → α × CCoinsViewCache) (f : α → ViewM β)
    (c : CCoinsViewCache) : (call g >>= f).outcome c = (f (g c).1).outcome (g c).2 := rfl

theorem outcome_check_bind (x : Except ValidationError α) (f : α → ViewM β)
    (c : CCoinsViewCache) : (check x >>= f).outcome c = x >>= fun a => (f a).outcome c := by
  cases x <;> rfl

theorem outcome_throwing_bind (g : CCoinsViewCache → Except CoinsError (α × CCoinsViewCache))
    (f : α → ViewM β) (c : CCoinsViewCache) :
    (throwing g >>= f).outcome c =
      (g c).mapError .coins >>= fun r => (f r.1).outcome r.2 := by
  rw [outcome_bind]
  unfold outcome throwing
  rcases g c with e | ⟨a, c'⟩ <;> rfl

end ViewM

namespace OnView

open ViewM

theorem outcome_checkInputValues (nSpendHeight : Nat) (nValueIn : Int) (prevouts : List COutPoint)
    (c : CCoinsViewCache) : (checkInputValues nSpendHeight nValueIn prevouts).outcome c =
      Rcoin.checkInputValues nSpendHeight c nValueIn prevouts := by
  induction prevouts generalizing nValueIn c with
  | nil => rfl
  | cons o rest ih =>
    unfold checkInputValues Rcoin.checkInputValues
    simp only [outcome_call_bind, outcome_check_bind, ih]

theorem outcome_checkTxInputs (tx : CTransaction) (nSpendHeight : Nat) (c : CCoinsViewCache) :
    (checkTxInputs tx nSpendHeight).outcome c = Rcoin.checkTxInputs tx c nSpendHeight := by
  unfold checkTxInputs Rcoin.checkTxInputs
  simp only [outcome_call_bind, outcome_check_bind]
  rw [outcome_bind]
  simp only [outcome_checkInputValues]
  congr 1
  cases tx.getValueOut with
  | none => rfl
  | some value_out => simp only [outcome_check_bind, outcome_pure]; rfl

/-- The loop's state, taken apart. -/
def Totals.withView (s : Totals) (view : CCoinsViewCache) : ConnectState where
  view
  nFees := s.nFees
  nSigOpsCost := s.nSigOpsCost
  vtxundo := s.vtxundo

theorem outcome_connectInputs (env : ValidationEnv) (pindex : CBlockIndex) (s : Totals)
    (tx : CTransaction) (c : CCoinsViewCache) :
    ((connectInputs env pindex s tx).outcome c).map (fun r => (r.1.1, r.1.2, r.2)) =
      Rcoin.connectInputs env pindex (s.withView c) tx := by
  unfold connectInputs Rcoin.connectInputs
  split
  · rfl
  · simp only [outcome_bind (checkTxInputs _ _), outcome_checkTxInputs, outcome_check_bind,
      outcome_call_bind, outcome_pure, map_bind]
    rfl

theorem outcome_connectTx (env : ValidationEnv) (pindex : CBlockIndex) (s : Totals)
    (tx : CTransaction) (c : CCoinsViewCache) :
    ((connectTx env pindex s tx).outcome c).map (fun r => r.1.withView r.2) =
      Rcoin.connectTx env pindex (s.withView c) tx := by
  unfold connectTx Rcoin.connectTx
  rw [← outcome_connectInputs, bind_map]
  simp only [outcome_bind (connectInputs _ _ _ _), outcome_check_bind, outcome_throwing_bind,
    outcome_pure, map_bind]
  rfl

theorem outcome_connectTxs (env : ValidationEnv) (pindex : CBlockIndex) (s : Totals)
    (txs : List CTransaction) (c : CCoinsViewCache) :
    ((connectTxs env pindex s txs).outcome c).map (fun r => r.1.withView r.2) =
      Rcoin.connectTxs env pindex (s.withView c) txs := by
  induction txs generalizing s c with
  | nil => rfl
  | cons tx rest ih =>
    unfold connectTxs Rcoin.connectTxs
    rw [← outcome_connectTx, bind_map, outcome_bind, map_bind]
    simp only [ih]

theorem outcome_connectBlock (env : ValidationEnv) (block : CBlock) (pindex : CBlockIndex)
    (c : CCoinsViewCache) :
    ((connectBlock env block pindex).outcome c).map Prod.swap =
      Rcoin.connectBlock env block pindex c false := by
  unfold connectBlock Rcoin.connectBlock
  simp only [outcome_check_bind, outcome_call_bind, outcome_bind (connectTxs _ _ _ _), map_bind]
  have htxs : Rcoin.connectTxs env pindex
      { view := c.getBestBlock.2, nFees := 0, nSigOpsCost := 0, vtxundo := [] } block.vtx = _ :=
    (outcome_connectTxs env pindex { nFees := 0, nSigOpsCost := 0, vtxundo := [] } block.vtx
      c.getBestBlock.2).symm
  rw [htxs]
  simp only [bind_map]
  cases (Option.map CTransaction.getValueOut block.vtx.head?).join with
  | none => rfl
  | some value_out =>
    simp only [outcome_check_bind, map_bind]
    rfl

end OnView

/-! ## The tip changes -/

/-- The hash of the block before the first of these blocks, which ends with the
    genesis block. -/
def Linked : List CBlockIndex → Prop
  | [] => True
  | pindex :: rest => pindex.pprev = rest.head?.map CBlockIndex.hash ∧ Linked rest

variable {s : TipState}

namespace TipState

/-- What every chain state keeps: no spent coins on disk, a chain of blocks each
    of which names the one before, and no null hashes. -/
structure Ok (s : TipState) : Prop where
  unspentRecords : s.pcoinsTip.UnspentRecords
  linked : Linked s.chainActive
  hash_ne_zero : ∀ pindex ∈ s.chainActive, pindex.hash ≠ 0

/-- A refused call leaves no trace. -/
structure Untouched (s s' : TipState) : Prop where
  coinAt : s'.pcoinsTip.coinAt = s.pcoinsTip.coinAt
  bestBlock : s'.pcoinsTip.bestBlock = s.pcoinsTip.bestBlock
  chainActive : s'.chainActive = s.chainActive

/-- What a call is to do: without a trace when it refuses, with `pcoinsTip` at
    the new tip when it succeeds, and always to a chain state. -/
structure Atomic (s : TipState) (r : TipResult × TipState) : Prop where
  refused : ∀ err, r.1 = .invalid err → s.Untouched r.2
  succeeded : r.1 = .ok → r.2.tipHash? = some r.2.pcoinsTip.bestBlock
  ok : r.1 ≠ .crash → r.2.Ok

theorem Ok.withTip (hs : s.Ok) {v : CCoinsView} (hv : v.UnspentRecords) :
    Ok { s with pcoinsTip := v } := ⟨hv, hs.linked, hs.hash_ne_zero⟩

end TipState

open TipState

theorem flushed_unspentRecords {v v' : CCoinsView} (hv : v.UnspentRecords)
    (h : v.flushed = .ok v') : v'.UnspentRecords := by
  cases v with
  | db d =>
    cases h
    exact hv
  | cache hb m base =>
    unfold flushed flush at h
    dsimp only at h
    cases hw : base.batchWrite m hb with
    | error e => rw [hw] at h; nomatch h
    | ok base' =>
      rw [hw] at h
      cases h
      show base'.UnspentRecords
      exact batchWrite_unspentRecords (v := base) hv hw

theorem flushed_bestBlock {v v1 v2 : CCoinsView} {m : CCoinsMap} {hash : Uint256}
    (hw : v.batchWrite m hash = .ok v1) (hne : hash ≠ 0) (h : v1.flushed = .ok v2) :
    v2.bestBlock = hash := by
  have hbest := batchWrite_bestBlock hw hne
  cases v1 with
  | db d =>
    cases h
    exact hbest
  | cache hb m' base =>
    have hhash : hb = hash := by
      cases v with
      | db d =>
        simp only [batchWrite] at hw
        split at hw <;> cases hw
      | cache hb' mc base' =>
        simp only [batchWrite] at hw
        split at hw
        · cases hw
        · cases hw
          rfl
    unfold flushed flush at h
    dsimp only at h
    split at h
    next err hflush => cases h
    next c' hflush =>
      split at hflush
      · cases hflush
      · cases hflush
        cases h
        show (if hb = 0 then _ else hb) = hash
        rw [hhash, if_neg hne]

theorem TipState.flushView_atomic (hs : s.Ok) {flush : FlushOutcome} {view : CCoinsViewCache}
    {chain : List CBlockIndex} (hview : view.base.UnspentRecords) (hlinked : Linked chain)
    (hne : ∀ pindex ∈ chain, pindex.hash ≠ 0)
    (hbest : ∀ pindex ∈ chain.head?, view.hashBlock = pindex.hash) :
    s.Atomic (s.flushView flush view chain) := by
  have crash : ∀ s', s.Atomic (.crash, s') := fun s' =>
    ⟨fun _ h => (by cases h), fun h => (by cases h), fun h => absurd rfl h⟩
  unfold flushView
  split
  · exact crash _
  next view' hflush =>
    unfold CCoinsViewCache.flush at hflush
    split at hflush
    · cases hflush
    next base' hw =>
      cases hflush
      have hrecords := batchWrite_unspentRecords hview hw
      unfold finish
      split
      · exact crash _
      · exact ⟨fun _ h => (by cases h), fun h => (by cases h), fun _ => hs.withTip hrecords⟩
      next pcoinsTip hstate =>
        cases hchain : chain with
        | nil => exact crash _
        | cons pindex rest =>
          rw [hchain] at hlinked hne hbest
          have hhash : view.hashBlock = pindex.hash := hbest pindex rfl
          have hne' : pindex.hash ≠ 0 := hne pindex List.mem_cons_self
          rw [hhash] at hw
          have htip : pcoinsTip.bestBlock = pindex.hash ∧ pcoinsTip.UnspentRecords := by
            unfold flushStateToDisk at hstate
            split at hstate
            · cases hstate
              exact ⟨batchWrite_bestBlock hw hne', hrecords⟩
            · split at hstate
              · cases hstate
              next hflushed =>
                cases hstate
                exact ⟨flushed_bestBlock hw hne' hflushed,
                  flushed_unspentRecords hrecords hflushed⟩
            · cases hstate
          refine ⟨fun _ h => (by cases h), fun _ => ?_, fun _ => ⟨htip.2, hlinked, hne⟩⟩
          exact congrArg some htip.1.symm

theorem TipState.connectTip_atomic (env : ValidationEnv) (hs : s.Ok) {pindexNew : CBlockIndex}
    (hne : pindexNew.hash ≠ 0) (io : TipIO) : s.Atomic (s.connectTip env pindexNew io) := by
  have crash : ∀ s', s.Atomic (.crash, s') := fun s' =>
    ⟨nofun, nofun, fun h => absurd rfl h⟩
  unfold connectTip
  split
  · exact crash _
  next hprev =>
    split
    · exact ⟨nofun, nofun, fun _ => hs⟩
    next block _ =>
      have hread := OnView.connectBlock_keepsBase env block pindexNew
        (new s.pcoinsTip) hs.unspentRecords
      split
      next view hconnect =>
        rw [hconnect] at hread
        exact ⟨fun _ _ => ⟨hread.coinAt, hread.bestBlock, rfl⟩, nofun,
          fun _ => hs.withTip hread.unspentRecords⟩
      · exact crash _
      next undo view hconnect =>
        rw [hconnect] at hread
        split
        · exact ⟨nofun, nofun, fun _ => hs.withTip hread.unspentRecords⟩
        · have hconnected : Rcoin.connectBlock env block pindexNew (new s.pcoinsTip)
              false = .ok (view, undo) := by
            rw [← OnView.outcome_connectBlock]
            unfold ViewM.outcome
            rw [hconnect]
            rfl
          obtain ⟨_, _, s', -, -, -, -, -, -, hview⟩ := connectBlock_cases hconnected
          have hhash : view.hashBlock = pindexNew.hash := by rw [hview]; rfl
          refine s.flushView_atomic hs hread.unspentRecords ⟨?_, hs.linked⟩ ?_ ?_
          · exact not_not.mp hprev
          · exact List.forall_mem_cons.mpr ⟨hne, hs.hash_ne_zero⟩
          · rintro pindex hmem
            cases Option.some.inj hmem
            exact hhash

theorem TipState.disconnectTip_atomic (hs : s.Ok) (io : TipIO) : s.Atomic (s.disconnectTip io) := by
  have crash : ∀ s', s.Atomic (.crash, s') := fun s' =>
    ⟨nofun, nofun, fun h => absurd rfl h⟩
  have hlinked := hs.linked
  have hne := hs.hash_ne_zero
  unfold disconnectTip
  split
  · exact crash _
  next pindexDelete rest hchain =>
    rw [hchain] at hlinked hne
    split
    · exact ⟨nofun, nofun, fun _ => hs⟩
    next block _ =>
      have hbest := getBestBlock_base (c := new s.pcoinsTip)
        hs.unspentRecords
      dsimp only
      split
      · exact crash _
      · split
        · exact crash _
        next view hdisconnect =>
          obtain ⟨hread, hblock⟩ := disconnectBlock_base hbest.unspentRecords hdisconnect
          refine s.flushView_atomic hs hread.unspentRecords hlinked.2
            (fun pindex hmem => hne pindex (List.mem_cons_of_mem _ hmem)) fun pindex hmem => ?_
          -- the block before the tip is the new tip
          have hpprev : pindexDelete.pprev = some pindex.hash := by
            rw [hlinked.1, Option.mem_def.mp hmem]
            rfl
          rw [show view.hashBlock = _ from hblock nofun, CBlockIndex.hashPrevBlock, hpprev]
          rfl
        next res view _ hdisconnect =>
          have hread := hbest.trans (disconnectBlock_base hbest.unspentRecords hdisconnect).1
          exact ⟨fun _ _ => ⟨hread.coinAt, hread.bestBlock, rfl⟩, nofun,
            fun _ => hs.withTip hread.unspentRecords⟩

/-- The hash of a new block is not null. -/
def TipCall.Legal : TipCall → Prop
  | .connectTip pindexNew _ => pindexNew.hash ≠ 0
  | .disconnectTip _ => True

/-- From every chain state: a call that refuses the block or finds the undo data
    useless leaves coins, best block and chain as they were, and after a
    successful one `pcoinsTip` is at the tip.  The state it leaves is again a
    chain state. -/
theorem TipState.step_atomic (env : ValidationEnv) {s : TipState} (hs : s.Ok) {call : TipCall}
    (hcall : call.Legal) : s.Atomic (s.step env call) := by
  cases call with
  | connectTip pindexNew io => exact s.connectTip_atomic env hs hcall io
  | disconnectTip io => exact s.disconnectTip_atomic hs io

namespace TipSample

/-- No block connected yet, over an empty database. -/
def start : TipState := { pcoinsTip := .cache 0 ∅ (.db .empty), chainActive := [] }

theorem start_ok : start.Ok where
  unspentRecords o coin h := by
    nomatch h
  linked := trivial
  hash_ne_zero := nofun

def ioFor (block : CBlock) : TipIO where
  block := some block
  undo := some []
  blockWritten := true
  flush := .written

/-- The genesis block, with a coinbase that pays a coin too much. -/
def greedyGenesis : CBlock :=
  { genesis with vtx := [coinbaseTx 1 0 [payAnyone (GENESIS_MONEY + COIN)]] }

/-- The greedy block is refused without a trace, the genesis block is connected. -/
theorem step_atomic_genesis :
    start.Untouched
        (start.step lenientEnv (.connectTip (pindex 0) (ioFor greedyGenesis))).2 ∧
      (start.step lenientEnv (.connectTip (pindex 0)
        (ioFor genesis))).2.tipHash? = some (start.step lenientEnv
          (.connectTip (pindex 0) (ioFor genesis))).2.pcoinsTip.bestBlock := by
  have hlegal : ∀ io, (TipCall.connectTip (pindex 0) io).Legal := fun io => by
    show (pindex 0).hash ≠ 0
    decide
  constructor
  · exact (step_atomic lenientEnv start_ok (hlegal _)).refused
      (some (doS 100 "bad-cb-amount")) (by decide)
  · exact (step_atomic lenientEnv start_ok (hlegal _)).succeeded (by decide)

end TipSample

end Rcoin
