/-
  The contract of `SpendCoin`, and exactly when the code keeps it.  `FetchCoin`
  hands over any entry the cache holds, a spent one as well, and `SpendCoin`
  does not look which: where `GetCoin` and `HaveCoin` test `IsSpent` on the
  entry they got, it reports success and moves the empty coin out.
-/
import Rcoin.Coins.Parent

namespace Rcoin

open Maps CCoinsView

/-! ## Dirty flags -/

/-- The `DIRTY` flags at an outpoint, from the topmost cache downwards. -/
def CCoinsView.dirtyFlags : CCoinsView → COutPoint → List Bool
  | .db _, _ => []
  | .cache _ m base, o => (m.lookup o).any CCoinsCacheEntry.dirty :: base.dirtyFlags o

def CCoinsViewCache.dirtyFlags (c : CCoinsViewCache) : COutPoint → List Bool := c.toView.dirtyFlags

theorem CCoinsViewCache.emplaceFetched_dirtyFlags {c : CCoinsViewCache} {o : COutPoint}
    (hno : c.cacheCoins.lookup o = none) {r : Option Coin × CCoinsView}
    (hr : r.2.dirtyFlags = c.base.dirtyFlags) :
    (c.emplaceFetched o r).2.dirtyFlags = c.dirtyFlags := by
  obtain ⟨h, m, base⟩ := c
  obtain ⟨found, base'⟩ := r
  funext o'
  have hbase : base'.dirtyFlags o' = base.dirtyFlags o' := congrFun hr o'
  cases found with
  | none =>
    show (m.lookup o').any _ :: base'.dirtyFlags o' = (m.lookup o').any _ :: base.dirtyFlags o'
    rw [hbase]
  | some tmp =>
    show ((m.insert o ⟨tmp, false, tmp.isSpent⟩).lookup o').any _ :: base'.dirtyFlags o' =
      (m.lookup o').any _ :: base.dirtyFlags o'
    rw [hbase, Maps.lookup_insert]
    by_cases ho : o' = o
    · have hno' : m.lookup o' = none := ho ▸ hno
      rw [if_pos ho, hno']
      rfl
    · rw [if_neg ho]

theorem CCoinsView.getCoin_dirtyFlags (v : CCoinsView) (o : COutPoint) :
    (v.getCoin o).2.dirtyFlags = v.dirtyFlags := by
  induction v with
  | db d => rfl
  | cache h m base ih =>
    cases he : m.lookup o with
    | some e => simp only [getCoin, he]
    | none =>
      simp only [getCoin, he]
      exact CCoinsViewCache.emplaceFetched_dirtyFlags (c := ⟨h, m, base⟩) he ih

namespace CCoinsViewCache

variable {c : CCoinsViewCache} {o : COutPoint}

/-! ## The three ways through `SpendCoin` -/

theorem spendCoin_of_not_cached (hc : c.base.UnspentRecords) (hno : c.cacheCoins.lookup o = none) :
    (c.spendCoin o).1 = c.coinAt o ∧ (c.spendCoin o).2.coinAt o = none := by
  have hat : c.coinAt o = c.base.coinAt o := coinAt_cache_of_not_mem hno
  obtain ⟨hr, hbase⟩ := getCoin_unseen hc o
  rw [hat, ← hr]
  unfold spendCoin fetchCoin
  rw [hno]
  rcases hg : c.base.getCoin o with ⟨_ | tmp, base'⟩
  · rw [hg] at hr hbase
    refine ⟨rfl, ?_⟩
    show (CCoinsView.cache c.hashBlock c.cacheCoins base').coinAt o = none
    rw [coinAt_cache_of_not_mem hno, hbase.coinAt]
    exact hr.symm
  · -- a coin that the parent shows is unspent, so the entry made for it is not `FRESH`
    rw [hg] at hr
    have hunspent : tmp.isSpent = false := hc.not_isSpent hr.symm
    dsimp only [emplaceFetched]
    rw [if_neg (by rw [hunspent]; exact Bool.false_ne_true)]
    refine ⟨rfl, ?_⟩
    show (CCoinsView.cache _ (AList.insert o _ _) base').coinAt o = none
    rw [coinAt_cache_insert, write_apply, if_pos rfl]
    rfl

theorem spendCoin_of_cached {e : CCoinsCacheEntry} (he : c.cacheCoins.lookup o = some e) :
    (c.spendCoin o).1 = some e.coin ∧
      (c.spendCoin o).2.coinAt o = if e.fresh then c.base.coinAt o else none := by
  obtain ⟨h, m, base⟩ := c
  have he' : m.lookup o = some e := he
  unfold spendCoin fetchCoin
  simp only [he']
  by_cases hfr : e.fresh = true
  · rw [if_pos hfr, if_pos hfr]
    refine ⟨rfl, ?_⟩
    show (CCoinsView.cache h (m.erase o) base).coinAt o = _
    rw [coinAt_cache_erase, write_apply, if_pos rfl]
  · rw [if_neg hfr, if_neg hfr]
    refine ⟨rfl, ?_⟩
    show (CCoinsView.cache h (m.insert o _) base).coinAt o = _
    rw [coinAt_cache_insert, write_apply, if_pos rfl]
    rfl

theorem spendCoin_of_false (hc : c.base.UnspentRecords) (hnone : (c.spendCoin o).1 = none) :
    c.coinAt o = none ∧ c.toView.Unseen (c.spendCoin o).2.toView ∧
      (c.spendCoin o).2.dirtyFlags = c.dirtyFlags := by
  cases he : c.cacheCoins.lookup o with
  | some e =>
    rw [(spendCoin_of_cached he).1] at hnone
    nomatch hnone
  | none =>
    have hat : c.coinAt o = none := (spendCoin_of_not_cached hc he).1.symm.trans hnone
    obtain ⟨hr, hbase⟩ := getCoin_unseen hc o
    have hfound : (c.base.getCoin o).1 = none := by
      rw [hr, ← coinAt_cache_of_not_mem (h := c.hashBlock) he]
      exact hat
    have hseen := (emplaceFetched_unseen (h := c.hashBlock) he hr hbase).2
    have hdirty := emplaceFetched_dirtyFlags he (getCoin_dirtyFlags c.base o)
    have hspend : (c.spendCoin o).2 = (c.emplaceFetched o (c.base.getCoin o)).2 := by
      unfold spendCoin fetchCoin
      rw [he]
      rcases hg : c.base.getCoin o with ⟨_ | tmp, base'⟩
      · rfl
      · rw [hg] at hfound
        nomatch hfound
    rw [hspend]
    exact ⟨hat, hseen, hdirty⟩

/-! ## The contract -/

/-- What `coins.h` promises of `SpendCoin`: it succeeds where an unspent coin is
    seen, moves that coin out and leaves none behind; where none is seen it has
    no effect. -/
structure SpendContract (c : CCoinsViewCache) (o : COutPoint) : Prop where
  returns : (c.spendCoin o).1.isSome = (c.coinAt o).isSome
  moved : ∀ coin, (c.spendCoin o).1 = some coin → c.coinAt o = some coin
  gone : (c.spendCoin o).2.coinAt o = none
  noEffect : (c.spendCoin o).1 = none →
    (c.spendCoin o).2.coinAt = c.coinAt ∧ (c.spendCoin o).2.bestBlock = c.bestBlock ∧
      (c.spendCoin o).2.dirtyFlags = c.dirtyFlags

/-- The cache holds no spent entry at the outpoint, and no entry there is
    `FRESH` over a coin of the parent. -/
def HoldsUnspent (c : CCoinsViewCache) (o : COutPoint) : Prop :=
  ∀ e, c.cacheCoins.lookup o = some e →
    e.coin.isSpent = false ∧ (e.fresh = true → c.base.coinAt o = none)

theorem spendContract_of_holdsUnspent (hc : c.base.UnspentRecords) (h : c.HoldsUnspent o) :
    c.SpendContract o := by
  have hfalse : (c.spendCoin o).1 = none → (c.spendCoin o).2.coinAt = c.coinAt ∧
      (c.spendCoin o).2.bestBlock = c.bestBlock ∧ (c.spendCoin o).2.dirtyFlags = c.dirtyFlags := by
    intro hnone
    obtain ⟨-, hseen, hdirty⟩ := spendCoin_of_false hc hnone
    exact ⟨hseen.coinAt, hseen.bestBlock, hdirty⟩
  cases he : c.cacheCoins.lookup o with
  | none =>
    obtain ⟨hret, hgone⟩ := spendCoin_of_not_cached hc he
    exact ⟨congrArg Option.isSome hret, fun coin hcoin => hret.symm.trans hcoin, hgone, hfalse⟩
  | some e =>
    obtain ⟨hunspent, hfresh⟩ := h e he
    obtain ⟨hret, hgone⟩ := spendCoin_of_cached he
    have hat : c.coinAt o = some e.coin := by
      show c.toView.coinAt o = _
      rw [toView, coinAt_cache_of_lookup he]
      exact Coin.unspent?_of_not_isSpent hunspent
    refine ⟨by rw [hret, hat], fun coin hcoin => ?_, ?_, hfalse⟩
    · rw [hat, ← hret, hcoin]
    · rw [hgone]
      by_cases hfr : e.fresh = true
      · rw [if_pos hfr, hfresh hfr]
      · rw [if_neg hfr]

/-- `SpendCoin` keeps its contract exactly where the cache holds no spent entry
    (and no `FRESH` flag that is wrong). -/
theorem spendContract_iff (hc : c.base.UnspentRecords) :
    c.SpendContract o ↔ c.HoldsUnspent o := by
  refine ⟨fun h e he => ?_, spendContract_of_holdsUnspent hc⟩
  obtain ⟨hret, hgone⟩ := spendCoin_of_cached he
  have hat : c.coinAt o = some e.coin := h.moved e.coin hret
  constructor
  · have hseen : c.coinAt o = e.coin.unspent? := coinAt_cache_of_lookup he
    rw [hat] at hseen
    exact (Coin.unspent?_eq_some_iff.mp hseen.symm).2
  · intro hfr
    rw [← h.gone, hgone, if_pos hfr]

end CCoinsViewCache

/-! ## A coin that is spent twice -/

namespace SpendSample

def prevout : COutPoint := ⟨7, 0⟩

def coin : Coin := ⟨⟨50, []⟩, 1, false⟩

/-- A cache over a database with one coin, which the cache has read. -/
def unspentCache : CCoinsViewCache :=
  { hashBlock := 0, cacheCoins := AList.singleton prevout ⟨coin, false, false⟩,
    base := .db { coins := AList.singleton prevout coin, bestBlock := 0, headBlocks := [] } }

/-- The same cache after a first `SpendCoin`. -/
def spentCache : CCoinsViewCache := (unspentCache.spendCoin prevout).2

theorem unspentCache_base : unspentCache.base.UnspentRecords := by
  intro o c h
  have hmem : (⟨o, c⟩ : Sigma fun _ : COutPoint => Coin) ∈ [⟨prevout, coin⟩] :=
    AList.mem_lookup_iff.mp h
  cases List.mem_singleton.mp hmem
  rfl

theorem spendContract_iff_unspent : unspentCache.SpendContract prevout := by
  refine (CCoinsViewCache.spendContract_iff unspentCache_base).mpr fun e he => ?_
  cases he
  exact ⟨rfl, (nomatch ·)⟩

/-- The second `SpendCoin` reports success and moves the empty coin out. -/
theorem spendCoin_twice :
    spentCache.coinAt prevout = none ∧ (spentCache.spendCoin prevout).1 = some Coin.empty ∧
      ¬ spentCache.SpendContract prevout := by
  have hret : (spentCache.spendCoin prevout).1 = some Coin.empty := by decide
  have hat : spentCache.coinAt prevout = none := by decide
  refine ⟨hat, hret, fun h => ?_⟩
  have hmoved := h.moved Coin.empty hret
  rw [hat] at hmoved
  nomatch hmoved

end SpendSample

end Rcoin
