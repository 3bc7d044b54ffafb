/-
  What the methods of a cache do to its parent.  Only `Flush` writes to it; all
  others at most make it fetch, which nobody can see.  This needs no coherent
  flags, only that the database has no records of spent coins, as
  `Coin::Serialize` asserts.
-/
import Rcoin.Coins.BatchWrite

namespace Rcoin

open Maps

variable {o : COutPoint}

namespace CCoinsView

/-- The database below all caches holds unspent coins only. -/
def UnspentRecords : CCoinsView → Prop
  | .db d => ∀ o coin, d.coins.lookup o = some coin → coin.isSpent = false
  | .cache _ _ base => base.UnspentRecords

variable {v : CCoinsView}

theorem UnspentRecords.not_isSpent (hv : v.UnspentRecords) {coin : Coin}
    (h : v.coinAt o = some coin) : coin.isSpent = false := by
  induction v with
  | db d => exact hv o coin h
  | cache hb m base ih =>
    cases he : m.lookup o with
    | none => exact ih hv ((coinAt_cache_of_not_mem he).symm.trans h)
    | some e =>
      rw [coinAt_cache_of_lookup he] at h
      obtain ⟨rfl, hs⟩ := Coin.unspent?_eq_some_iff.mp h
      exact hs

/-- Nobody can tell `v'` from `v`. -/
structure Unseen (v v' : CCoinsView) : Prop where
  coinAt : v'.coinAt = v.coinAt
  bestBlock : v'.bestBlock = v.bestBlock
  unspentRecords : v'.UnspentRecords

theorem Unseen.refl (hv : v.UnspentRecords) : v.Unseen v := ⟨rfl, rfl, hv⟩

theorem Unseen.trans {u w : CCoinsView} (h : u.Unseen v) (h' : v.Unseen w) : u.Unseen w :=
  ⟨h'.coinAt.trans h.coinAt, h'.bestBlock.trans h.bestBlock, h'.unspentRecords⟩

variable {m : CCoinsMap}

theorem emplaceFetched_unseen {h : Uint256} {base : CCoinsView} (hno : m.lookup o = none)
    {r : Option Coin × CCoinsView} (hr : r.1 = base.coinAt o) (hbase : base.Unseen r.2) :
    ((CCoinsViewCache.emplaceFetched ⟨h, m, base⟩ o r).1.bind fun e => e.coin.unspent?) =
        (cache h m base).coinAt o ∧
      (cache h m base).Unseen (CCoinsViewCache.emplaceFetched ⟨h, m, base⟩ o r).2.toView := by
  obtain ⟨found, base'⟩ := r
  have hbest : (cache h m base').bestBlock = (cache h m base).bestBlock := by
    show (if h = 0 then base'.bestBlock else h) = if h = 0 then base.bestBlock else h
    rw [hbase.bestBlock]
  cases found with
  | none =>
    refine ⟨?_, coinAt_cache_congr hbase.coinAt, hbest, hbase.unspentRecords⟩
    exact hr.trans (coinAt_cache_of_not_mem hno).symm
  | some tmp =>
    -- the parent has found the coin, so it is unspent
    have htmp : base'.coinAt o = some tmp := by rw [hbase.coinAt]; exact hr.symm
    have hunspent : tmp.unspent? = some tmp :=
      Coin.unspent?_of_not_isSpent (hbase.unspentRecords.not_isSpent htmp)
    have hat : (cache h m base).coinAt o = tmp.unspent? := by
      rw [coinAt_cache_of_not_mem hno, hunspent]
      exact hr.symm
    refine ⟨hat.symm, ?_, hbest, hbase.unspentRecords⟩
    show (cache h (m.insert o _) base').coinAt = _
    rw [coinAt_cache_insert, coinAt_cache_congr hbase.coinAt]
    exact write_eq_self hat

theorem getCoin_unseen (hv : v.UnspentRecords) (o : COutPoint) :
    (v.getCoin o).1 = v.coinAt o ∧ v.Unseen (v.getCoin o).2 := by
  induction v with
  | db d => exact ⟨rfl, .refl hv⟩
  | cache h m base ih =>
    cases he : m.lookup o with
    | some e =>
      simp only [getCoin, he]
      exact ⟨(coinAt_cache_of_lookup he).symm, .refl hv⟩
    | none =>
      simp only [getCoin, he]
      obtain ⟨hr, hbase⟩ := ih hv
      exact emplaceFetched_unseen he hr hbase

theorem getBestBlock_unseen (hv : v.UnspentRecords) :
    v.getBestBlock.1 = v.bestBlock ∧ v.Unseen v.getBestBlock.2 := by
  obtain ⟨hbest, hsame, hbest'⟩ := v.getBestBlock_spec
  refine ⟨hbest, hsame.coinAt, hbest', ?_⟩
  clear hbest hsame hbest'
  induction v with
  | db d => exact hv
  | cache h m base ih =>
    unfold getBestBlock
    split
    · exact ih hv
    · exact hv

variable {v' : CCoinsView} {hash : Uint256}

theorem batchWrite_bestBlock (h : v.batchWrite m hash = .ok v') (hne : hash ≠ 0) :
    v'.bestBlock = hash := by
  cases v with
  | db d =>
    simp only [batchWrite] at h
    split at h
    · cases h
    next d' hd' =>
      cases h
      exact (CCoinsViewDB.batchWrite_spec hd').2.1
  | cache hb mc base =>
    simp only [batchWrite] at h
    split at h
    · cases h
    · cases h
      exact if_neg hne

theorem batchWrite_unspentRecords (hv : v.UnspentRecords) (h : v.batchWrite m hash = .ok v') :
    v'.UnspentRecords := by
  cases v with
  | db d =>
    simp only [batchWrite] at h
    split at h
    · cases h
    next d' hd' =>
      cases h
      intro o coin ho
      have ho' : d'.coinAt o = some coin := ho
      rw [(CCoinsViewDB.batchWrite_spec hd').1] at ho'
      exact not_isSpent_writes_dirtyWrites hv m.entries o coin ho'
  | cache hb mc base =>
    simp only [batchWrite] at h
    split at h
    · cases h
    · cases h
      exact hv

end CCoinsView

namespace CCoinsViewCache

variable {c : CCoinsViewCache}

variable (hc : c.base.UnspentRecords)

include hc

theorem fetchCoin_base (o : COutPoint) : c.base.Unseen (c.fetchCoin o).2.base := by
  unfold fetchCoin
  split
  · exact .refl hc
  · obtain ⟨-, hbase⟩ := CCoinsView.getCoin_unseen hc o
    rcases hr : c.base.getCoin o with ⟨_ | tmp, base'⟩ <;> rw [hr] at hbase <;> exact hbase

theorem haveCoin_base (o : COutPoint) :
    c.base.Unseen (c.haveCoin o).2.base := fetchCoin_base hc o

theorem accessCoin_base (o : COutPoint) :
    c.base.Unseen (c.accessCoin o).2.base := fetchCoin_base hc o

theorem getBestBlock_base : c.base.Unseen c.getBestBlock.2.base := by
  unfold getBestBlock
  split
  · exact (CCoinsView.getBestBlock_unseen hc).2
  · exact .refl hc

theorem spendCoin_base (o : COutPoint) : c.base.Unseen (c.spendCoin o).2.base := by
  have hfetch := fetchCoin_base hc o
  unfold spendCoin
  rcases hr : c.fetchCoin o with ⟨_ | e, c'⟩
  · rw [hr] at hfetch
    exact hfetch
  · rw [hr] at hfetch
    dsimp only
    split <;> exact hfetch

omit hc

variable {c' : CCoinsViewCache}

theorem addCoin_base {coin : Coin} {possible_overwrite : Bool}
    (h : c.addCoin o coin possible_overwrite = .ok c') : c'.base = c.base := by
  unfold addCoin at h
  split at h
  · nomatch h
  split at h
  · cases h
    rfl
  dsimp only at h
  split at h
  · nomatch h
  · cases h
    rfl

theorem addCoins_base (hc : c.base.UnspentRecords) {tx : CTransaction} {nHeight : Nat}
    {check : Bool} (h : c.addCoins tx nHeight check = .ok c') : c.base.Unseen c'.base := by
  suffices hgo : ∀ (outs : List CTxOut) (c : CCoinsViewCache) (i : Nat),
      c.base.UnspentRecords → addCoins.go tx nHeight check c i outs = .ok c' →
      c.base.Unseen c'.base from hgo _ c 0 hc h
  intro outs
  induction outs with
  | nil =>
    intro c i hc h
    cases h
    exact .refl hc
  | cons txout rest ih =>
    intro c i hc h
    have hread : c.base.Unseen
        (if check then c.haveCoin ⟨tx.hash, i⟩ else (tx.isCoinBase, c)).2.base := by
      split
      · exact haveCoin_base hc _
      · exact .refl hc
    unfold addCoins.go at h
    dsimp only at h
    split at h
    · nomatch h
    next c1 hadd =>
      have hbase := addCoin_base hadd
      have hrest := ih c1 (i + 1) (hbase ▸ hread.unspentRecords) h
      rw [hbase] at hrest
      exact hread.trans hrest

theorem haveInputs_base (hc : c.base.UnspentRecords) (tx : CTransaction) :
    c.base.Unseen (c.haveInputs tx).2.base := by
  unfold haveInputs
  split
  · exact .refl hc
  suffices hgo : ∀ (prevouts : List COutPoint) (c : CCoinsViewCache), c.base.UnspentRecords →
      c.base.Unseen (haveInputs.go c prevouts).2.base from hgo _ c hc
  intro prevouts
  induction prevouts with
  | nil => exact fun c hc => .refl hc
  | cons o rest ih =>
    intro c hc
    have hread := haveCoin_base hc o
    unfold haveInputs.go
    dsimp only
    split
    · exact hread.trans (ih _ hread.unspentRecords)
    · exact hread

end CCoinsViewCache

end Rcoin
