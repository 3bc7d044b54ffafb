/-
  The total value of the unspent outputs seen through a view, and how
  `SpendCoin` and `AddCoin` change it.  `AddCoin` may mark an entry `FRESH`
  over a parent that still has a coin there; such a coin is out of sight until
  the entry is erased.  The `potential` of a cache counts it as well, so that
  each operation changes the potential by exactly the value it moves.
-/
import Rcoin.Lib.Totals
import Rcoin.Coins.Coherence

namespace Rcoin

open Maps Totals AList CCoinsView

/-! ## Value of a view -/

/-- The value of the coin at an outpoint, `0` when there is none. -/
def valueAt (m : COutPoint → Option Coin) (o : COutPoint) : Int :=
  (m o).elim 0 fun coin => coin.out.nValue

/-- Every outpoint some layer has an entry for. -/
def CCoinsView.outpoints : CCoinsView → Finset COutPoint
  | .db d => d.coins.keys.toFinset
  | .cache _ m base => m.keys.toFinset ∪ base.outpoints

/-- The total value of the unspent outputs in the view. -/
def CCoinsView.totalValue (v : CCoinsView) : Int := ∑ o ∈ v.outpoints, valueAt v.coinAt o

def CCoinsViewCache.totalValue (c : CCoinsViewCache) : Int := c.toView.totalValue

variable {o : COutPoint} {m : COutPoint → Option Coin}

theorem valueAt_none (h : m o = none) : valueAt m o = 0 := by
  rw [valueAt, h]; rfl

variable {coin : Coin}

theorem valueAt_some (h : m o = some coin)
    : valueAt m o = coin.out.nValue := by
  rw [valueAt, h]; rfl

theorem CCoinsView.coinAt_of_not_mem_outpoints {v : CCoinsView} (h : o ∉ v.outpoints)
    : v.coinAt o = none := by
  induction v with
  | db d =>
    have hk : o ∉ d.coins := fun hm => h (List.mem_toFinset.mpr (AList.mem_keys.mp hm))
    exact lookup_eq_none.mpr hk
  | cache hb m base ih =>
    have hk : o ∉ m := fun hm =>
      h (Finset.mem_union_left _ (List.mem_toFinset.mpr (AList.mem_keys.mp hm)))
    rw [coinAt_cache_of_not_mem (lookup_eq_none.mpr hk)]
    exact ih fun hm => h (Finset.mem_union_right _ hm)

theorem CCoinsView.totalValue_eq_total (v : CCoinsView) :
    v.totalValue = total (valueAt v.coinAt) :=
  (total_eq_sum fun _ ho => valueAt_none (coinAt_of_not_mem_outpoints ho)).symm

theorem CCoinsView.finite_support_valueAt (v : CCoinsView) :
    (Function.support (valueAt v.coinAt)).Finite := by
  apply (v.outpoints.finite_toSet).subset
  intro o ho
  by_contra hno
  exact ho (valueAt_none (coinAt_of_not_mem_outpoints hno))

namespace CCoinsViewCache

/-! ## The ledger of a cache -/

/-- What `Coherent` asks of the entries that are not `DIRTY`.  The promise of
    `FRESH` is left out: connecting a block that repeats an unspent transaction
    breaks it. -/
structure CleanOk (c : CCoinsViewCache) : Prop where
  base : c.base.Coherent
  clean : ∀ o e, c.cacheCoins.lookup o = some e → e.dirty = false →
    e.coin.unspent? = c.base.coinAt o

/-- The value of a parent's coin under a `FRESH` entry. -/
def hiddenAt (c : CCoinsViewCache) (o : COutPoint) : Int :=
  if (c.cacheCoins.lookup o).any CCoinsCacheEntry.fresh then valueAt c.base.coinAt o else 0

def ledger (c : CCoinsViewCache) (o : COutPoint) : Int := valueAt c.coinAt o + c.hiddenAt o

/-- Visible and hidden value together. -/
noncomputable def potential (c : CCoinsViewCache) : Int := total c.ledger

variable {c : CCoinsViewCache}

theorem Coherent.cleanOk (hc : c.Coherent) : c.CleanOk :=
  ⟨hc.1, fun o e he => (hc.2 o e he).clean⟩

theorem hiddenAt_of_coherent (hc : c.Coherent) (o : COutPoint) : c.hiddenAt o = 0 := by
  unfold hiddenAt
  split
  · rename_i hf
    cases he : c.cacheCoins.lookup o with
    | none => rw [he] at hf; cases hf
    | some e =>
      rw [he] at hf
      exact valueAt_none ((hc.2 o e he).fresh hf)
  · rfl

theorem potential_of_coherent (hc : c.Coherent) : c.potential = c.totalValue := by
  rw [totalValue, totalValue_eq_total]
  apply total_congr
  intro o
  rw [ledger, hiddenAt_of_coherent hc, add_zero]
  rfl

theorem hiddenAt_of_not_mem (he : c.cacheCoins.lookup o = none) : c.hiddenAt o = 0 := by
  rw [hiddenAt, he]; rfl

variable {e : CCoinsCacheEntry}

theorem hiddenAt_of_lookup (he : c.cacheCoins.lookup o = some e) :
    c.hiddenAt o = if e.fresh then valueAt c.base.coinAt o else 0 := by
  rw [hiddenAt, he]; rfl

theorem coinAt_of_lookup (he : c.cacheCoins.lookup o = some e)
    : c.coinAt o = e.coin.unspent? :=
  coinAt_cache_of_lookup he

theorem coinAt_of_not_mem (he : c.cacheCoins.lookup o = none) : c.coinAt o = c.base.coinAt o :=
  coinAt_cache_of_not_mem he

theorem finite_support_ledger (c : CCoinsViewCache) : (Function.support c.ledger).Finite := by
  apply (c.toView.outpoints.finite_toSet).subset
  intro o ho
  by_contra hno
  have hk : c.cacheCoins.lookup o = none := by
    apply lookup_eq_none.mpr
    intro hm
    exact hno (Finset.mem_union_left _ (List.mem_toFinset.mpr (AList.mem_keys.mp hm)))
  have hvis : valueAt c.coinAt o = 0 := valueAt_none (coinAt_of_not_mem_outpoints hno)
  exact ho (by rw [ledger, hvis, hiddenAt_of_not_mem hk]; rfl)

theorem totalValue_le_potential (h : ∀ o, 0 ≤ valueAt c.base.coinAt o) :
    c.totalValue ≤ c.potential := by
  rw [totalValue, totalValue_eq_total]
  apply total_mono c.toView.finite_support_valueAt c.finite_support_ledger
  intro o
  have hhid : 0 ≤ c.hiddenAt o := by
    unfold hiddenAt
    split
    · exact h o
    · exact le_refl 0
  show valueAt c.coinAt o ≤ valueAt c.coinAt o + c.hiddenAt o
  omega

/-! ## Reads -/

variable {c' : CCoinsViewCache}

theorem Fetched.cleanOk (h : c.Fetched c') (hc : c.CleanOk) : c'.CleanOk := by
  refine ⟨h.base.coherent hc.base, fun o e he hd => ?_⟩
  rw [h.base.coinAt]
  rcases h.entry o with heq | ⟨-, coin, hcoin, hs, hl⟩
  · exact hc.clean o e (heq ▸ he) hd
  · rw [hl] at he
    cases he
    exact (Coin.unspent?_of_not_isSpent hs).trans hcoin.symm

theorem Fetched.ledger (h : c.Fetched c') : c'.ledger = c.ledger := by
  funext o
  have hvis : c'.coinAt = c.coinAt := h.coinAt
  have hhid : c'.hiddenAt o = c.hiddenAt o := by
    rcases h.entry o with heq | ⟨hno, coin, -, -, hl⟩
    · unfold hiddenAt
      rw [heq, h.base.coinAt]
    · rw [hiddenAt_of_not_mem hno, hiddenAt_of_lookup hl]
      rfl
  show valueAt c'.coinAt o + c'.hiddenAt o = valueAt c.coinAt o + c.hiddenAt o
  rw [hvis, hhid]

theorem Fetched.potential (h : c.Fetched c') : c'.potential = c.potential := by
  rw [CCoinsViewCache.potential, h.ledger]; rfl

/-! ## One change -/

/-- An operation that touches the entry of one outpoint only. -/
structure ChangesOnly (c c' : CCoinsViewCache) (o : COutPoint) : Prop where
  base : c'.base.coinAt = c.base.coinAt
  other : ∀ o', o' ≠ o → c'.cacheCoins.lookup o' = c.cacheCoins.lookup o'

theorem ChangesOnly.coinAt (h : ChangesOnly c c' o) {o' : COutPoint} (ho : o' ≠ o)
    : c'.coinAt o' = c.coinAt o' := by
  have heq := h.other o' ho
  cases he : c.cacheCoins.lookup o' with
  | none => rw [coinAt_of_not_mem he, coinAt_of_not_mem (heq.trans he), h.base]
  | some e => rw [coinAt_of_lookup he, coinAt_of_lookup (heq.trans he)]

theorem ChangesOnly.potential (h : ChangesOnly c c' o) :
    c'.potential = c.potential - c.ledger o + c'.ledger o := by
  have hoff : ∀ o', o' ∉ ({o} : Finset COutPoint) → c'.ledger o' = c.ledger o' := by
    intro o' ho'
    have hne : o' ≠ o := fun he => ho' (Finset.mem_singleton.mpr he)
    have hhid : c'.hiddenAt o' = c.hiddenAt o' := by
      unfold hiddenAt
      rw [h.other o' hne, h.base]
    rw [CCoinsViewCache.ledger, CCoinsViewCache.ledger, hhid, valueAt, valueAt, h.coinAt hne]
  have htot := total_of_eq_off c.finite_support_ledger {o} hoff
  rw [Finset.sum_singleton, Finset.sum_singleton] at htot
  exact htot

theorem spendCoin_potential (hc : c.CleanOk) (h : (c.spendCoin o).1 = some coin) :
    coin.unspent? = c.coinAt o ∧ (c.spendCoin o).2.CleanOk ∧
      (c.spendCoin o).2.base.coinAt = c.base.coinAt ∧
      (c.spendCoin o).2.potential = c.potential - valueAt c.coinAt o ∧
      (∀ o', o' ≠ o → (c.spendCoin o).2.coinAt o' = c.coinAt o') ∧
      ((c.spendCoin o).2.coinAt o = none ∨ (c.spendCoin o).2.coinAt o = c.base.coinAt o) := by
  obtain ⟨h1, h2, h3⟩ := fetchCoin_spec hc.base o
  have hc1 := h2.cleanOk hc
  have hpot := h2.potential
  have hbase : (c.fetchCoin o).2.base.coinAt = c.base.coinAt := h2.base.coinAt
  have hat : (c.fetchCoin o).2.coinAt = c.coinAt := h2.coinAt
  unfold spendCoin at h ⊢
  rcases hf : c.fetchCoin o with ⟨_ | e, c1⟩
  · rw [hf] at h; cases h
  rw [hf] at h h1 h3 hc1 hpot hbase hat
  have hled : c1.ledger o = valueAt c.coinAt o +
      if e.fresh then valueAt c.base.coinAt o else 0 := by
    rw [ledger, hiddenAt_of_lookup h3, hat, hbase]
  by_cases hfr : e.fresh = true
  · -- a FRESH entry is erased: what its parent has is seen again
    simp only [hfr, if_true] at h ⊢ hled
    cases h
    have hno : (c1.cacheCoins.erase o).lookup o = none := AList.lookup_erase _ _
    have hch : ChangesOnly c1 { c1 with cacheCoins := c1.cacheCoins.erase o } o :=
      ⟨rfl, fun o' ho' => lookup_erase_ne ho'⟩
    have hseen : CCoinsViewCache.coinAt { c1 with cacheCoins := c1.cacheCoins.erase o } o =
        c.base.coinAt o := by
      rw [coinAt_of_not_mem hno, ← hbase]
    refine ⟨h1, ⟨hc1.base, fun o' e' he' => ?_⟩, hbase, ?_, fun o' ho' => ?_, .inr hseen⟩
    · by_cases ho : o' = o
      · subst ho; rw [hno] at he'; cases he'
      · exact hc1.clean o' e' (hch.other o' ho ▸ he')
    · have hval : valueAt (CCoinsViewCache.coinAt { c1 with
          cacheCoins := c1.cacheCoins.erase o }) o = valueAt c.base.coinAt o := by
        rw [valueAt, hseen]; rfl
      rw [hch.potential, hpot, hled, ledger, hiddenAt_of_not_mem hno, hval]
      omega
    · rw [hch.coinAt ho', hat]
  -- another entry stays and hides the parent's coin
  · have hfr' : e.fresh = false := by simpa using hfr
    simp only [hfr', Bool.false_eq_true, if_false] at h ⊢ hled
    cases h
    have hl : (c1.cacheCoins.insert o { e with coin := Coin.empty, dirty := true }).lookup o =
        some { e with coin := Coin.empty, dirty := true } := AList.lookup_insert _
    have hch : ChangesOnly c1 { c1 with
        cacheCoins := c1.cacheCoins.insert o { e with coin := Coin.empty, dirty := true } } o :=
      ⟨rfl, fun o' ho' => lookup_insert_ne ho'⟩
    have hseen : CCoinsViewCache.coinAt { c1 with
        cacheCoins := c1.cacheCoins.insert o { e with coin := Coin.empty, dirty := true } } o =
        none := by
      rw [coinAt_of_lookup hl]; rfl
    rw [hfr'] at hl hch hseen
    refine ⟨h1, ⟨hc1.base, fun o' e' he' hd' => ?_⟩, hbase, ?_, fun o' ho' => ?_, .inl hseen⟩
    · by_cases ho : o' = o
      · subst ho; rw [hl] at he'; cases he'; cases hd'
      · exact hc1.clean o' e' (hch.other o' ho ▸ he') hd'
    · rw [hch.potential, hpot, hled, ledger, hiddenAt_of_lookup hl, valueAt_none hseen]
      simp
    · rw [hch.coinAt ho', hat]

theorem addCoin_potential (hc : c.CleanOk) {possible_overwrite : Bool}
    (h : c.addCoin o coin possible_overwrite = .ok c') :
    c'.CleanOk ∧ c'.base = c.base ∧ (∀ o', o' ≠ o → c'.coinAt o' = c.coinAt o') ∧
      if coin.out.scriptPubKey.isUnspendable then c' = c
      else c'.coinAt o = some coin ∧ c'.potential = c.potential + coin.out.nValue -
        if possible_overwrite then valueAt c.coinAt o else 0 := by
  unfold addCoin at h
  by_cases hs : coin.isSpent = true
  · rw [if_pos hs] at h; cases h
  rw [if_neg hs] at h
  have hs' : coin.isSpent = false := by simpa using hs
  by_cases hu : coin.out.scriptPubKey.isUnspendable = true
  · rw [if_pos hu] at h
    cases h
    exact ⟨hc, rfl, fun _ _ => rfl, by rw [if_pos hu]⟩
  rw [if_neg hu] at h ⊢
  set it := (c.cacheCoins.lookup o).getD ⟨Coin.empty, false, false⟩ with hit
  by_cases ht : (!possible_overwrite && !it.coin.isSpent) = true
  · rw [if_pos ht] at h; cases h
  rw [if_neg ht] at h
  set e : CCoinsCacheEntry := ⟨coin, true, it.fresh || (!possible_overwrite && !it.dirty)⟩ with he
  have hc' : c' = { c with cacheCoins := c.cacheCoins.insert o e } := by cases h; rfl
  subst hc'
  have hl : (c.cacheCoins.insert o e).lookup o = some e := AList.lookup_insert _
  have hch : ChangesOnly c { c with cacheCoins := c.cacheCoins.insert o e } o :=
    ⟨rfl, fun o' ho' => lookup_insert_ne ho'⟩
  have hseen : CCoinsViewCache.coinAt { c with cacheCoins := c.cacheCoins.insert o e } o =
      some coin := by
    rw [coinAt_of_lookup hl, Coin.unspent?_of_not_isSpent hs']
  refine ⟨⟨hc.base, fun o' e' he' hd' => ?_⟩, rfl, fun o' ho' => hch.coinAt ho', hseen, ?_⟩
  · by_cases ho : o' = o
    · subst ho
      have hee : e = e' := Option.some.inj (hl.symm.trans he')
      rw [← hee, he] at hd'
      cases hd'
    · exact hc.clean o' e' (hch.other o' ho ▸ he') hd'
  have hhid : hiddenAt { c with cacheCoins := c.cacheCoins.insert o e } o =
      if e.fresh then valueAt c.base.coinAt o else 0 := hiddenAt_of_lookup hl
  rw [hch.potential, ledger, ledger, hhid, valueAt_some hseen]
  -- the coin under the entry is counted before and after, whatever the flag becomes
  have hbalance : valueAt c.coinAt o + c.hiddenAt o =
      (if e.fresh then valueAt c.base.coinAt o else 0) +
        if possible_overwrite then valueAt c.coinAt o else 0 := by
    cases hlk : c.cacheCoins.lookup o with
    | none =>
      have hvis : valueAt c.coinAt o = valueAt c.base.coinAt o := by
        rw [valueAt, coinAt_of_not_mem hlk]; rfl
      have hef : e.fresh = !possible_overwrite := by rw [he, hit, hlk]; simp
      rw [hiddenAt_of_not_mem hlk, hvis, hef]
      cases possible_overwrite <;> simp
    | some itUs =>
      have hitUs : it = itUs := by rw [hit, hlk]; rfl
      rw [hitUs] at ht
      rw [hiddenAt_of_lookup hlk]
      cases hpo : possible_overwrite with
      | true =>
        have hef : e.fresh = itUs.fresh := by rw [he, hitUs, hpo]; simp
        rw [hef]
        simp [add_comm]
      | false =>
        have hsp : itUs.coin.isSpent = true := by
          rw [hpo] at ht
          simpa using ht
        have hvis : valueAt c.coinAt o = 0 :=
          valueAt_none ((coinAt_of_lookup hlk).trans (Coin.unspent?_of_isSpent hsp))
        rw [hvis]
        cases hd : itUs.dirty with
        | true =>
          have hef : e.fresh = itUs.fresh := by rw [he, hitUs, hd]; simp
          rw [hef]
          simp
        | false =>
          have hbelow : valueAt c.base.coinAt o = 0 := by
            apply valueAt_none
            rw [← hc.clean o itUs hlk hd]
            exact Coin.unspent?_of_isSpent hsp
          rw [hbelow]
          simp
  omega

end CCoinsViewCache

end Rcoin
