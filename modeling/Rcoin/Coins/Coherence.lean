/-
  What the `DIRTY` and `FRESH` flags promise, as an invariant of a stack of
  views, and what each operation of a cache does to the map of coins seen
  through it.  `CCoinsView.coinAt` is that map; every lemma below says how one
  operation changes it and that the invariant survives.
-/
import Rcoin.Lib.Maps
import Rcoin.Coins.View

namespace Rcoin

open Maps CCoinsView Coin

/-! ## The map of coins a view shows -/

/-- The unspent coin seen through a view: the topmost cached entry decides, and
    below all caches the database. -/
def CCoinsView.coinAt : CCoinsView → COutPoint → Option Coin
  | .db d, o => d.coins.lookup o
  | .cache _ m base, o =>
    match m.lookup o with
    | some e => e.coin.unspent?
    | none => base.coinAt o

/-- The promise of an entry's flags, given the coin seen below its cache:
    without `DIRTY` the entry repeats that coin, with `FRESH` there is none. -/
structure CCoinsCacheEntry.Ok (e : CCoinsCacheEntry) (below : Option Coin) : Prop where
  clean : e.dirty = false → e.coin.unspent? = below
  fresh : e.fresh = true → below = none

/-- Every cached entry of every layer keeps its promise, and the database holds
    only unspent coins. -/
def CCoinsView.Coherent : CCoinsView → Prop
  | .db d => ∀ o coin, d.coins.lookup o = some coin → coin.isSpent = false
  | .cache _ m base => base.Coherent ∧ ∀ o e, m.lookup o = some e → e.Ok (base.coinAt o)

def CCoinsViewCache.Coherent (c : CCoinsViewCache) : Prop := c.toView.Coherent

def CCoinsViewCache.coinAt (c : CCoinsViewCache) : COutPoint → Option Coin := c.toView.coinAt

/-! ## Small facts about coins -/

variable {c : Coin}

theorem Coin.unspent?_of_not_isSpent (h : c.isSpent = false) : c.unspent? = some c := by
  simp [unspent?, h]

theorem Coin.unspent?_of_isSpent (h : c.isSpent = true) : c.unspent? = none := by
  simp [unspent?, h]

theorem Coin.unspent?_eq_none_iff : c.unspent? = none ↔ c.isSpent = true := by
  unfold unspent?; split <;> simp_all

theorem Coin.unspent?_eq_some_iff {d : Coin} : c.unspent? = some d ↔ c = d ∧ c.isSpent = false := by
  unfold unspent?; split <;> simp_all

theorem Coin.isSome_unspent? (c : Coin) : c.unspent?.isSome = !c.isSpent := by
  unfold unspent?; split <;> simp_all

/-! ## Looking through one cache -/

variable {h : Uint256} {m : CCoinsMap} {o : COutPoint} {e : CCoinsCacheEntry} {base : CCoinsView}

theorem CCoinsView.coinAt_cache_of_lookup (he : m.lookup o = some e) :
    (cache h m base).coinAt o = e.coin.unspent? := by
  simp only [coinAt, he]

theorem CCoinsView.coinAt_cache_of_not_mem (he : m.lookup o = none) :
    (cache h m base).coinAt o = base.coinAt o := by
  simp only [coinAt, he]

variable {v : CCoinsView} {coin : Coin}

theorem CCoinsView.Coherent.not_isSpent (hv : v.Coherent) (h : v.coinAt o = some coin)
    : coin.isSpent = false := by
  induction v with
  | db d => exact hv o coin h
  | cache hb m base ih =>
    cases he : m.lookup o with
    | none => rw [coinAt_cache_of_not_mem he] at h; exact ih hv.1 h
    | some e =>
      rw [coinAt_cache_of_lookup he] at h
      obtain ⟨rfl, hs⟩ := unspent?_eq_some_iff.mp h
      exact hs

variable {b b' : CCoinsView} {h' : Uint256}

theorem CCoinsView.coinAt_cache_congr (hb : b'.coinAt = b.coinAt) :
    (cache h' m b').coinAt = (cache h m b).coinAt := by
  funext o
  cases he : m.lookup o with
  | none => rw [coinAt_cache_of_not_mem he, coinAt_cache_of_not_mem he, hb]
  | some e => rw [coinAt_cache_of_lookup he, coinAt_cache_of_lookup he]

theorem CCoinsView.Coherent.congr_base (hv : (cache h m b).Coherent)
    (hb : b'.coinAt = b.coinAt) (hc : b'.Coherent) : (cache h' m b').Coherent :=
  ⟨hc, fun o e he => hb ▸ hv.2 o e he⟩

theorem CCoinsView.coinAt_cache_insert (h : Uint256) (m : CCoinsMap) (b : CCoinsView)
    (o : COutPoint) (e : CCoinsCacheEntry) :
    (cache h (m.insert o e) b).coinAt =
      write (cache h m b).coinAt (o, e.coin.unspent?) := by
  funext o'
  rw [write_apply]
  simp only [coinAt, Maps.lookup_insert]
  by_cases ho : o' = o
  · simp only [ho, if_true]
  · simp only [ho, if_false]

theorem CCoinsView.coinAt_cache_erase (h : Uint256) (m : CCoinsMap) (b : CCoinsView)
    (o : COutPoint) :
    (cache h (m.erase o) b).coinAt =
      write (cache h m b).coinAt (o, b.coinAt o) := by
  funext o'
  rw [write_apply]
  simp only [coinAt, Maps.lookup_erase]
  by_cases ho : o' = o
  · simp only [ho, if_true]
  · simp only [ho, if_false]

theorem CCoinsView.Coherent.insert (hv : (cache h m b).Coherent)
    (he : e.Ok (b.coinAt o)) :
    (cache h (m.insert o e) b).Coherent := by
  refine ⟨hv.1, fun o' e' h' => ?_⟩
  rw [Maps.lookup_insert] at h'
  by_cases ho : o' = o
  · rw [if_pos ho] at h'
    cases h'
    exact ho ▸ he
  · rw [if_neg ho] at h'
    exact hv.2 o' e' h'

theorem CCoinsView.Coherent.erase (hv : (cache h m b).Coherent) (o : COutPoint) :
    (cache h (m.erase o) b).Coherent := by
  refine ⟨hv.1, fun o' e' h' => ?_⟩
  rw [Maps.lookup_erase] at h'
  by_cases ho : o' = o
  · rw [if_pos ho] at h'; cases h'
  · rw [if_neg ho] at h'; exact hv.2 o' e' h'

theorem write_eq_self {m : COutPoint → Option Coin} {r : Option Coin} (h : m o = r)
    : write m (o, r) = m := by
  unfold write; subst h; exact Function.update_eq_self o m

/-! ## Reads -/

/-- What a read may do to a view: fill caches, and nothing that can be seen. -/
structure CCoinsView.SameCoins (v v' : CCoinsView) : Prop where
  coinAt : v'.coinAt = v.coinAt
  coherent : v.Coherent → v'.Coherent

theorem CCoinsView.SameCoins.refl (v : CCoinsView) : v.SameCoins v := ⟨rfl, id⟩

theorem CCoinsView.SameCoins.trans {u w : CCoinsView} (h : u.SameCoins v) (h' : v.SameCoins w) :
    u.SameCoins w := ⟨h'.coinAt.trans h.coinAt, fun hu => h'.coherent (h.coherent hu)⟩

/-- The two views show the same coins, and the second is coherent. -/
abbrev CCoinsViewCache.SameCoins (c c' : CCoinsViewCache) : Prop := c.toView.SameCoins c'.toView

/-- The best block of a view, as `GetBestBlock` finds it. -/
def CCoinsView.bestBlock : CCoinsView → Uint256
  | .db d => d.bestBlock
  | .cache h _ base => if h = 0 then base.bestBlock else h

def CCoinsViewCache.bestBlock (c : CCoinsViewCache) : Uint256 := c.toView.bestBlock

/-- What a read leaves in a cache: clean copies of coins the parent shows, and a
    parent that shows the same coins as before. -/
structure CCoinsViewCache.Fetched (c c' : CCoinsViewCache) : Prop where
  hashBlock : c'.hashBlock = c.hashBlock
  baseBestBlock : c'.base.bestBlock = c.base.bestBlock
  baseDB : ∀ d, c.base = .db d → c'.base = .db d
  base : c.base.SameCoins c'.base
  entry : ∀ o, c'.cacheCoins.lookup o = c.cacheCoins.lookup o ∨
    (c.cacheCoins.lookup o = none ∧ ∃ coin, c.base.coinAt o = some coin ∧
      coin.isSpent = false ∧ c'.cacheCoins.lookup o = some ⟨coin, false, false⟩)

theorem CCoinsViewCache.Fetched.refl (c : CCoinsViewCache) : c.Fetched c :=
  ⟨rfl, rfl, fun _ h => h, .refl _, fun _ => .inl rfl⟩

variable {c c' : CCoinsViewCache}

theorem CCoinsViewCache.Fetched.trans {c'' : CCoinsViewCache} (h : c.Fetched c')
    (h' : c'.Fetched c'') : c.Fetched c'' := by
  refine ⟨h'.hashBlock.trans h.hashBlock, h'.baseBestBlock.trans h.baseBestBlock,
    fun d hd => h'.baseDB d (h.baseDB d hd), h.base.trans h'.base, fun o => ?_⟩
  rcases h'.entry o with heq' | ⟨hno', coin, hcoin, hs, hl⟩
  · rw [heq']; exact h.entry o
  · rcases h.entry o with heq | ⟨_, _, _, _, hl'⟩
    · rw [h.base.coinAt] at hcoin
      exact .inr ⟨heq ▸ hno', coin, hcoin, hs, hl⟩
    · rw [hl'] at hno'; cases hno'

theorem CCoinsViewCache.Fetched.sameCoins (h : c.Fetched c') : c.SameCoins c' := by
  obtain ⟨hb, m, b⟩ := c
  obtain ⟨hb', m', b'⟩ := c'
  have hbase : b'.coinAt = b.coinAt := h.base.coinAt
  constructor
  · funext o
    show (cache hb' m' b').coinAt o = (cache hb m b).coinAt o
    rcases h.entry o with heq | ⟨hno, coin, hcoin, hs, hl⟩
    · have heq' : m'.lookup o = m.lookup o := heq
      simp only [CCoinsView.coinAt, heq', hbase]
    · rw [coinAt_cache_of_lookup hl, coinAt_cache_of_not_mem hno, hcoin]
      exact unspent?_of_not_isSpent hs
  · intro hv
    refine ⟨h.base.coherent hv.1, fun o e he => ?_⟩
    rw [hbase]
    rcases h.entry o with heq | ⟨hno, coin, hcoin, hs, hl⟩
    · have heq' : m'.lookup o = m.lookup o := heq
      exact hv.2 o e (heq' ▸ he)
    · have hl' : m'.lookup o = some ⟨coin, false, false⟩ := hl
      rw [hl'] at he
      cases he
      exact ⟨fun _ => (unspent?_of_not_isSpent hs).trans hcoin.symm, (nomatch ·)⟩

theorem CCoinsViewCache.Fetched.coinAt (h : c.Fetched c') :
    c'.coinAt = c.coinAt := h.sameCoins.coinAt

theorem CCoinsViewCache.emplaceFetched_spec (hc : c.base.Coherent)
    (hno : c.cacheCoins.lookup o = none) {r : Option Coin × CCoinsView} (hr : r.1 = c.base.coinAt o)
    (hb : c.base.SameCoins r.2) (hbest : r.2.bestBlock = c.base.bestBlock)
    (hdb : ∀ d, c.base = .db d → r.2 = .db d) :
    ((c.emplaceFetched o r).1.bind fun e => e.coin.unspent?) = c.coinAt o ∧
      c.Fetched (c.emplaceFetched o r).2 ∧
      (c.emplaceFetched o r).2.cacheCoins.lookup o = (c.emplaceFetched o r).1 := by
  obtain ⟨h, m, b⟩ := c
  obtain ⟨found, b'⟩ := r
  have hat : CCoinsViewCache.coinAt ⟨h, m, b⟩ o = b.coinAt o :=
    coinAt_cache_of_not_mem hno
  cases found with
  | none =>
    refine ⟨?_, ⟨rfl, hbest, hdb, hb, fun _ => .inl rfl⟩, hno⟩
    show none = _
    rw [hat, ← hr]
  | some tmp =>
    have htmp : b.coinAt o = some tmp := hr.symm
    have hspent : tmp.isSpent = false := hc.not_isSpent htmp
    refine ⟨?_, ⟨rfl, hbest, hdb, hb, fun o' => ?_⟩, ?_⟩
    · show tmp.unspent? = _
      rw [hat, htmp, unspent?_of_not_isSpent hspent]
    · show (m.insert o ⟨tmp, false, tmp.isSpent⟩).lookup o' = m.lookup o' ∨ _
      rw [Maps.lookup_insert]
      by_cases ho : o' = o
      · subst ho
        refine .inr ⟨hno, tmp, htmp, hspent, ?_⟩
        show (m.insert o' ⟨tmp, false, tmp.isSpent⟩).lookup o' = _
        rw [AList.lookup_insert, hspent]
      · exact .inl (if_neg ho)
    · show (m.insert o ⟨tmp, false, tmp.isSpent⟩).lookup o = _
      rw [AList.lookup_insert]
      rfl

theorem CCoinsView.getCoin_spec (hv : v.Coherent) (o : COutPoint) :
    (v.getCoin o).1 = v.coinAt o ∧ v.SameCoins (v.getCoin o).2 ∧
      (v.getCoin o).2.bestBlock = v.bestBlock ∧ ∀ d, v = .db d → (v.getCoin o).2 = .db d := by
  induction v with
  | db d => exact ⟨rfl, .refl _, rfl, fun _ h => h⟩
  | cache h m base ih =>
    cases he : m.lookup o with
    | some e =>
      simp only [getCoin, he]
      exact ⟨(coinAt_cache_of_lookup he).symm, .refl _, trivial, fun _ h => h⟩
    | none =>
      simp only [getCoin, he]
      obtain ⟨hr, hb, hbest, hdb⟩ := ih hv.1
      obtain ⟨h1, h2, -⟩ := CCoinsViewCache.emplaceFetched_spec (c := ⟨h, m, base⟩) hv.1 he
        hr hb hbest hdb
      refine ⟨h1, h2.sameCoins, ?_, fun d hd => by cases hd⟩
      show (if _ = 0 then _ else _) = if h = 0 then base.bestBlock else h
      rw [h2.hashBlock, h2.baseBestBlock]

namespace CCoinsViewCache

theorem fetchCoin_spec (hc : c.base.Coherent) (o : COutPoint) :
    ((c.fetchCoin o).1.bind fun e => e.coin.unspent?) = c.coinAt o ∧
      c.Fetched (c.fetchCoin o).2 ∧
      (c.fetchCoin o).2.cacheCoins.lookup o = (c.fetchCoin o).1 := by
  cases he : c.cacheCoins.lookup o with
  | some e =>
    simp only [fetchCoin, he]
    exact ⟨(coinAt_cache_of_lookup he).symm, .refl _, trivial⟩
  | none =>
    simp only [fetchCoin, he]
    obtain ⟨hr, hb, hbest, hdb⟩ := getCoin_spec hc o
    exact emplaceFetched_spec hc he hr hb hbest hdb

theorem getCoin_spec (hc : c.base.Coherent) (o : COutPoint) :
    (c.getCoin o).1 = c.coinAt o ∧ c.Fetched (c.getCoin o).2 :=
  ⟨(fetchCoin_spec hc o).1, (fetchCoin_spec hc o).2.1⟩

theorem haveCoin_spec (hc : c.base.Coherent) (o : COutPoint) :
    (c.haveCoin o).1 = (c.coinAt o).isSome ∧ c.Fetched (c.haveCoin o).2 := by
  obtain ⟨h1, h2, -⟩ := fetchCoin_spec hc o
  refine ⟨?_, h2⟩
  rw [← h1]
  show ((c.fetchCoin o).1.any fun e => !e.coin.isSpent) = _
  cases (c.fetchCoin o).1 with
  | none => rfl
  | some e => exact (isSome_unspent? e.coin).symm

theorem accessCoin_spec (hc : c.base.Coherent) (o : COutPoint) :
    (c.accessCoin o).1.unspent? = c.coinAt o ∧ c.Fetched (c.accessCoin o).2 := by
  obtain ⟨h1, h2, -⟩ := fetchCoin_spec hc o
  refine ⟨?_, h2⟩
  rw [← h1]
  show (((c.fetchCoin o).1.map CCoinsCacheEntry.coin).getD Coin.empty).unspent? = _
  cases (c.fetchCoin o).1 with
  | none => rfl
  | some e => rfl

/-! ## The best block -/

end CCoinsViewCache

theorem CCoinsView.getBestBlock_spec (v : CCoinsView) :
    v.getBestBlock.1 = v.bestBlock ∧ v.SameCoins v.getBestBlock.2 ∧
      v.getBestBlock.2.bestBlock = v.bestBlock := by
  induction v with
  | db d => exact ⟨rfl, .refl _, rfl⟩
  | cache h m base ih =>
    obtain ⟨h1, h2, h3⟩ := ih
    unfold getBestBlock bestBlock
    by_cases hh : h = 0
    · rw [if_pos hh, if_pos hh]
      refine ⟨h1, ⟨coinAt_cache_congr h2.coinAt, fun hv => hv.congr_base h2.coinAt
        (h2.coherent hv.1)⟩, ?_⟩
      show (if base.getBestBlock.1 = 0 then base.getBestBlock.2.bestBlock else _) = _
      rw [h1, h3, ite_id]
    · rw [if_neg hh, if_neg hh]
      exact ⟨rfl, .refl _, if_neg hh⟩

namespace CCoinsViewCache

theorem getBestBlock_spec (c : CCoinsViewCache) :
    c.getBestBlock.1 = c.bestBlock ∧ c.getBestBlock.2.hashBlock = c.bestBlock ∧
      c.getBestBlock.2.cacheCoins = c.cacheCoins ∧ c.base.SameCoins c.getBestBlock.2.base ∧
      c.getBestBlock.2.base.bestBlock = c.base.bestBlock := by
  obtain ⟨h, m, base⟩ := c
  obtain ⟨h1, h2, h3⟩ := CCoinsView.getBestBlock_spec base
  have hbest : bestBlock ⟨h, m, base⟩ = if h = 0 then base.bestBlock else h := rfl
  rw [hbest]
  unfold getBestBlock
  by_cases hh : h = 0
  · rw [if_pos hh, if_pos hh]
    exact ⟨h1, h1, rfl, h2, h3⟩
  · rw [if_neg hh, if_neg hh]
    exact ⟨rfl, rfl, rfl, .refl _, rfl⟩

theorem getBestBlock_sameCoins (c : CCoinsViewCache) : c.SameCoins c.getBestBlock.2 := by
  obtain ⟨-, -, hm, hb, -⟩ := getBestBlock_spec c
  have hview : c.getBestBlock.2.toView =
      .cache c.getBestBlock.2.hashBlock c.cacheCoins c.getBestBlock.2.base := by
    rw [← hm]; rfl
  rw [SameCoins, hview]
  exact ⟨coinAt_cache_congr hb.coinAt,
    fun hv => Coherent.congr_base hv hb.coinAt (hb.coherent hv.1)⟩

/-! ## Updates -/

/-- The value a successful `AddCoin` leaves at its outpoint. -/
def addedCoin (m : COutPoint → Option Coin) (o : COutPoint) (coin : Coin) :
    COutPoint → Option Coin :=
  if coin.out.scriptPubKey.isUnspendable then m else write m (o, some coin)

theorem addCoin_spec (hc : c.Coherent) {possible_overwrite : Bool}
    (hpo : possible_overwrite = false → c.cacheCoins.lookup o = none → c.base.coinAt o = none)
    (h : c.addCoin o coin possible_overwrite = .ok c') :
    c'.coinAt = addedCoin c.coinAt o coin ∧ c'.Coherent ∧ c'.base = c.base := by
  obtain ⟨hb, m, b⟩ := c
  unfold addCoin at h
  by_cases hs : coin.isSpent = true
  · rw [if_pos hs] at h; cases h
  rw [if_neg hs] at h
  have hs' : coin.isSpent = false := by simpa using hs
  by_cases hu : coin.out.scriptPubKey.isUnspendable = true
  · rw [if_pos hu] at h
    cases h
    exact ⟨by rw [addedCoin, if_pos hu], hc, rfl⟩
  rw [if_neg hu] at h
  set it := (m.lookup o).getD ⟨Coin.empty, false, false⟩ with hit
  by_cases ht : (!possible_overwrite && !it.coin.isSpent) = true
  · rw [if_pos ht] at h; cases h
  rw [if_neg ht] at h
  cases h
  -- the flags of the new entry: DIRTY, and FRESH only over an outpoint with no coin below
  have hok : CCoinsCacheEntry.Ok
      ⟨coin, true, it.fresh || (!possible_overwrite && !it.dirty)⟩ (b.coinAt o) := by
    refine ⟨(nomatch ·), fun hf => ?_⟩
    rcases Bool.or_eq_true _ _ ▸ hf with hf | hf
    · cases he : m.lookup o with
      | none => rw [hit, he] at hf; cases hf
      | some e =>
        rw [hit, he] at hf
        exact (hc.2 o e he).fresh hf
    · have hpf : possible_overwrite = false := by
        cases possible_overwrite <;> simp_all
      have hdf : it.dirty = false := by
        cases hd : it.dirty <;> simp_all
      cases he : m.lookup o with
      | none => exact hpo hpf he
      | some e =>
        rw [hit, he] at hdf ht
        have hsp : e.coin.isSpent = true := by
          cases hsp : e.coin.isSpent
          · exact absurd (by simp [hpf, hsp]) ht
          · rfl
        rw [← (hc.2 o e he).clean hdf]
        exact unspent?_of_isSpent hsp
  refine ⟨?_, Coherent.insert hc hok, rfl⟩
  rw [addedCoin, if_neg hu]
  show (cache hb (m.insert o _) b).coinAt = _
  rw [coinAt_cache_insert, unspent?_of_not_isSpent hs']
  rfl

theorem spendCoin_spec (hc : c.Coherent) (o : COutPoint) :
    (c.spendCoin o).2.coinAt = write c.coinAt (o, none) ∧ (c.spendCoin o).2.Coherent ∧
      ((c.spendCoin o).1.bind unspent?) = c.coinAt o := by
  obtain ⟨h1, h2, h3⟩ := fetchCoin_spec hc.1 o
  have hc' : (c.fetchCoin o).2.Coherent := h2.sameCoins.coherent hc
  have hat : (c.fetchCoin o).2.coinAt = c.coinAt := h2.sameCoins.coinAt
  unfold spendCoin
  rcases hf : c.fetchCoin o with ⟨_ | e, hb, m, b⟩
  · rw [hf] at h1 hc' hat
    refine ⟨?_, hc', h1⟩
    rw [hat]
    exact (write_eq_self h1.symm).symm
  · rw [hf] at h1 h3 hc' hat
    have hfresh := (hc'.2 o e h3).fresh
    by_cases hfr : e.fresh = true
    · simp only [hfr, if_true]
      refine ⟨?_, hc'.erase o, h1⟩
      show (cache hb (m.erase o) b).coinAt = _
      rw [coinAt_cache_erase, hfresh hfr]
      exact congrArg (fun f => write f (o, none)) hat
    · have hfr' : e.fresh = false := by simpa using hfr
      simp only [hfr', Bool.false_eq_true, if_false]
      refine ⟨?_, ?_, h1⟩
      · show (cache hb (m.insert o _) b).coinAt = _
        rw [coinAt_cache_insert]
        exact congrArg (fun f => write f (o, none)) hat
      · refine Coherent.insert hc' ⟨(nomatch ·), (nomatch ·)⟩

theorem uncache_spec (hc : c.Coherent) (o : COutPoint) : c.SameCoins (c.uncache o) := by
  obtain ⟨hb, m, b⟩ := c
  unfold uncache
  cases he : m.lookup o with
  | none => exact .refl _
  | some e =>
    simp only
    by_cases hf : (!e.dirty && !e.fresh) = true
    · rw [if_pos hf]
      have hd : e.dirty = false := by simp_all
      refine ⟨?_, fun hv => hv.erase o⟩
      show (cache hb (m.erase o) b).coinAt = (cache hb m b).coinAt
      rw [coinAt_cache_erase]
      exact write_eq_self (by
        rw [coinAt_cache_of_lookup he, (hc.2 o e he).clean hd])
    · rw [if_neg hf]; exact .refl _

end CCoinsViewCache

end Rcoin
