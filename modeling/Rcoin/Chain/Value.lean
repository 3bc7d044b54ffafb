/-
  The value of the UTXO set across `ConnectBlock`.  Every function of the loop
  changes the potential of the view by the values it moves; summed up, a block
  whose transactions name each outpoint once creates at most the subsidy.
  `CheckBlock` does not look for repeated inputs within a transaction, and a
  block that has them creates the value they repeat.
-/
import Rcoin.Chain.Connect

namespace Rcoin

open Maps Fallible Totals CTransaction CCoinsView List

/-! ## The values that enter the balance -/

/-- What the inputs count for beyond what they remove: an outpoint that is named
    `k` times is counted `k` times and removed once. -/
def repeatedInputValue (m : COutPoint → Option Coin) (prevouts : List COutPoint) : Int :=
  ∑ o ∈ prevouts.toFinset, ((prevouts.count o : Int) - 1) * valueAt m o

def txRepeatedValue (m : COutPoint → Option Coin) (tx : CTransaction) : Int :=
  if tx.isCoinBase then 0 else repeatedInputValue m tx.prevouts

/-- The value of the outputs that never enter the UTXO set. -/
def CTransaction.burnedValue (tx : CTransaction) : Int :=
  (tx.vout.map fun txout =>
    if txout.scriptPubKey.isUnspendable then txout.nValue else 0).sum

/-- The value of the coins that a transaction's outputs replace. -/
def overwrittenValue (m : COutPoint → Option Coin) (tx : CTransaction) : Int :=
  ((addWrites tx 0).map fun w => valueAt m w.1).sum

/-- The value of the inputs of a block that is counted twice. -/
def repeatedValue (m : COutPoint → Option Coin) (nHeight : Nat) (block : CBlock) : Int :=
  sumAlong txRepeatedValue nHeight m block.vtx

/-- The value a block gives up: reward the coinbase does not claim, unspendable
    outputs, and coins that the coinbase replaces. -/
def forgoneValue (env : ValidationEnv) (m : COutPoint → Option Coin) (nHeight : Nat)
    (block : CBlock) : Int :=
  let coinbaseOut := (block.vtx.head?.map outValue).getD 0
  let overwritten := (block.vtx.head?.map (overwrittenValue m)).getD 0
  sumAlong txFee nHeight m block.vtx + getBlockSubsidy env.nSubsidyHalvingInterval nHeight -
    coinbaseOut + (block.vtx.map burnedValue).sum + overwritten

variable {c c' : CCoinsViewCache}

namespace CCoinsViewCache

/-- All coins have values that are not negative, as `CheckTransaction` asks of
    the outputs they come from. -/
structure ValuesOk (c : CCoinsViewCache) : Prop where
  visible : ∀ o, 0 ≤ valueAt c.coinAt o
  below : ∀ o, 0 ≤ valueAt c.base.coinAt o

theorem Fetched.valuesOk (h : c.Fetched c') (hc : c.ValuesOk) : c'.ValuesOk := by
  refine ⟨fun o => ?_, fun o => ?_⟩
  · rw [h.coinAt]; exact hc.visible o
  · rw [h.base.coinAt]; exact hc.below o

end CCoinsViewCache

open CCoinsViewCache

theorem valueAt_congr {m m' : COutPoint → Option Coin} {o : COutPoint} (h : m o = m' o) :
    valueAt m o = valueAt m' o := by
  rw [valueAt, h]; rfl

/-! ## Spending the inputs -/

variable {prevouts : List COutPoint} {txundo : CTxUndo}

theorem spendInputs_potential (hc : c.CleanOk) (hv : c.ValuesOk)
    (h : spendInputs c prevouts = .ok (txundo, c')) : c'.CleanOk ∧ c'.ValuesOk ∧
      (prevouts.Nodup → c'.potential = c.potential - inputValue c.coinAt prevouts) := by
  induction prevouts generalizing c txundo with
  | nil => cases h; exact ⟨hc, hv, fun _ => by simp [inputValue]⟩
  | cons prevout rest ih =>
    unfold spendInputs at h
    rcases hsp : c.spendCoin prevout with ⟨_ | coin, c1⟩
    · rw [hsp] at h; cases h
    have hsome : (c.spendCoin prevout).1 = some coin := by rw [hsp]
    obtain ⟨-, hc1, hbase, hpot, hother, hself⟩ := spendCoin_potential hc hsome
    rw [hsp] at h hc1 hbase hpot hother hself
    obtain ⟨⟨txundo1, c2⟩, hrest, h⟩ := bind_eq_ok.mp h
    cases h
    have hv1 : c1.ValuesOk := by
      refine ⟨fun o => ?_, fun o => ?_⟩
      · by_cases ho : o = prevout
        · subst ho
          rcases hself with hnone | hbelow
          · rw [valueAt_none hnone]
          · rw [valueAt_congr hbelow]; exact hv.below o
        · rw [valueAt_congr (hother o ho)]; exact hv.visible o
      · rw [hbase]; exact hv.below o
    obtain ⟨hc', hv', hpot'⟩ := ih hc1 hv1 hrest
    refine ⟨hc', hv', fun hnd => ?_⟩
    obtain ⟨hno, hnd'⟩ := nodup_cons.mp hnd
    have hkeep : inputValue c1.coinAt rest = inputValue c.coinAt rest := by
      unfold inputValue
      congr 1
      apply map_congr_left
      intro o ho
      have hne : o ≠ prevout := fun heq => hno (heq ▸ ho)
      exact valueAt_congr (hother o hne)
    have hsum : inputValue c.coinAt (prevout :: rest) =
        valueAt c.coinAt prevout + inputValue c.coinAt rest := by
      simp [inputValue]
    rw [hpot' hnd', hpot, hkeep, hsum]
    omega

theorem repeatedInputValue_eq (m : COutPoint → Option Coin) (prevouts : List COutPoint) :
    repeatedInputValue m prevouts =
      inputValue m prevouts - ∑ o ∈ prevouts.toFinset, valueAt m o := by
  unfold repeatedInputValue inputValue
  rw [Finset.sum_list_map_count, ← Finset.sum_sub_distrib]
  apply Finset.sum_congr rfl
  intro o _
  rw [nsmul_eq_mul, sub_mul, one_mul]

theorem spendInputs_potential_of_coherent (hc : c.Coherent)
    (h : spendInputs c prevouts = .ok (txundo, c')) :
    c'.potential = c.potential - inputValue c.coinAt prevouts +
      repeatedInputValue c.coinAt prevouts := by
  obtain ⟨hc', hat, -, -⟩ := spendInputs_spec hc h
  have hspent : ∀ o ∈ prevouts.toFinset, valueAt c'.coinAt o = 0 := by
    intro o ho
    apply valueAt_none
    rw [hat, writes_deletes, if_pos (mem_toFinset.mp ho)]
  have hkept : ∀ o, o ∉ prevouts.toFinset → valueAt c'.coinAt o = valueAt c.coinAt o := by
    intro o ho
    apply valueAt_congr
    rw [hat, writes_deletes, if_neg fun hm => ho (mem_toFinset.mpr hm)]
  have htot := total_of_eq_off c.toView.finite_support_valueAt prevouts.toFinset hkept
  rw [Finset.sum_eq_zero hspent] at htot
  rw [CCoinsViewCache.potential_of_coherent hc, CCoinsViewCache.potential_of_coherent hc',
    CCoinsViewCache.totalValue, CCoinsViewCache.totalValue, CCoinsView.totalValue_eq_total,
    CCoinsView.totalValue_eq_total, repeatedInputValue_eq]
  have htot' : total (valueAt c'.toView.coinAt) = total (valueAt c.toView.coinAt) -
      ∑ o ∈ prevouts.toFinset, valueAt c.coinAt o + 0 := htot
  omega

/-! ## Adding the outputs -/

/-- The value of the outputs from index `i` on that enter the UTXO set. -/
def spendableValue (outs : List CTxOut) : Int :=
  (outs.map fun txout => if txout.scriptPubKey.isUnspendable then 0 else txout.nValue).sum

theorem outValue_eq (tx : CTransaction) :
    tx.outValue = spendableValue tx.vout + tx.burnedValue := by
  unfold outValue spendableValue burnedValue
  induction tx.vout with
  | nil => rfl
  | cons txout rest ih =>
    simp only [map_cons, sum_cons, ih]
    split <;> omega

variable {tx : CTransaction}

theorem addCoins_go_potential {nHeight : Nat} (outs : List CTxOut) (hc : c.CleanOk)
    (hv : c.ValuesOk) {i : Nat} (hout : ∀ txout ∈ outs, moneyRange txout.nValue = true)
    (h : addCoins.go tx nHeight false c i outs = .ok c') :
    c'.CleanOk ∧ c'.ValuesOk ∧ c'.potential = c.potential + spendableValue outs -
      if tx.isCoinBase then ((addWritesFrom tx 0 i outs).map fun w => valueAt c.coinAt w.1).sum
      else 0 := by
  induction outs generalizing c i with
  | nil => cases h; exact ⟨hc, hv, by simp [spendableValue, addWritesFrom]⟩
  | cons txout rest ih =>
    unfold addCoins.go at h
    simp only [Bool.false_eq_true, if_false] at h
    cases hadd : c.addCoin ⟨tx.hash, i⟩ ⟨txout, nHeight, tx.isCoinBase⟩ tx.isCoinBase with
    | error err => rw [hadd] at h; cases h
    | ok c1 =>
      rw [hadd] at h
      obtain ⟨hc1, hbase, hother, hnew⟩ := addCoin_potential hc hadd
      have hin := moneyRange_iff.mp (hout txout (mem_cons_self ..))
      have hout' : ∀ txout' ∈ rest, moneyRange txout'.nValue = true :=
        fun txout' hmem => hout txout' (mem_cons_of_mem _ hmem)
      by_cases hu : txout.scriptPubKey.isUnspendable = true
      · rw [if_pos hu] at hnew
        subst hnew
        obtain ⟨hc', hv', hpot'⟩ := ih hc hv hout' h
        refine ⟨hc', hv', ?_⟩
        rw [hpot', addWritesFrom, if_pos hu, spendableValue, spendableValue, map_cons,
          sum_cons, if_pos hu, zero_add]
      · rw [if_neg hu] at hnew
        obtain ⟨hself, hpot⟩ := hnew
        have hv1 : c1.ValuesOk := by
          refine ⟨fun o => ?_, fun o => ?_⟩
          · by_cases ho : o = ⟨tx.hash, i⟩
            · rw [ho, valueAt_some hself]; exact hin.1
            · rw [valueAt_congr (hother o ho)]; exact hv.visible o
          · rw [hbase]; exact hv.below o
        obtain ⟨hc', hv', hpot'⟩ := ih hc1 hv1 hout' h
        -- later outputs have other indices, so they replace the same coins as before
        have hkeep : ((addWritesFrom tx 0 (i + 1) rest).map fun w => valueAt c1.coinAt w.1) =
            (addWritesFrom tx 0 (i + 1) rest).map fun w => valueAt c.coinAt w.1 := by
          apply map_congr_left
          intro w hw
          obtain ⟨j, txout', -, -, rfl⟩ := mem_addWritesFrom hw
          apply valueAt_congr
          apply hother
          intro heq
          have hidx : i + 1 + j = i := congrArg COutPoint.n heq
          omega
        refine ⟨hc', hv', ?_⟩
        rw [hpot', hpot, hkeep, addWritesFrom, if_neg hu, spendableValue, spendableValue,
          map_cons, sum_cons, if_neg hu, map_cons, sum_cons]
        dsimp only
        split <;> omega

/-! ## One transaction -/

variable {env : ValidationEnv}

variable {s s' : ConnectState}

theorem connectTx_potential {pindex : CBlockIndex} (hc : s.view.CleanOk) (hv : s.view.ValuesOk)
    (hout : ∀ txout ∈ tx.vout, moneyRange txout.nValue = true)
    (h : connectTx env pindex s tx = .ok s') :
    s'.view.CleanOk ∧ s'.view.ValuesOk ∧ s'.nFees = s.nFees + txFee s.view.coinAt tx ∧
      ∃ spent, s'.view.potential = s.view.potential - spent + tx.outValue - tx.burnedValue -
          (if tx.isCoinBase then overwrittenValue s.view.coinAt tx else 0) ∧
        (tx.isCoinBase = true → spent = 0) ∧
        (tx.isCoinBase = false → tx.prevouts.Nodup →
          spent = inputValue s.view.coinAt tx.prevouts) ∧
        (tx.isCoinBase = false → s.view.Coherent →
          spent = inputValue s.view.coinAt tx.prevouts -
            repeatedInputValue s.view.coinAt tx.prevouts) := by
  obtain ⟨⟨nFees, coins, view⟩, hin, h⟩ := bind_eq_ok.mp h
  obtain ⟨hf, hfee, -⟩ := connectInputs_spec hc.base hin
  obtain ⟨-, h⟩ := failIf_bind_eq_ok.mp h
  obtain ⟨-, h⟩ := failIf_bind_eq_ok.mp h
  obtain ⟨⟨txundo, view'⟩, hupd, h⟩ := bind_eq_ok.mp h
  have heq := pure_eq_ok.mp h
  cases heq
  have hupd' := mapError_eq_ok.mp hupd
  obtain ⟨⟨txundo1, c1⟩, hspend, hupd'⟩ := bind_eq_ok.mp hupd'
  obtain ⟨c2, hadd, hupd'⟩ := bind_eq_ok.mp hupd'
  cases hupd'
  have hcv := hf.cleanOk hc
  have hvv := hf.valuesOk hv
  unfold markInputsSpent at hspend
  cases hcb : tx.isCoinBase with
  | true =>
    rw [hcb] at hspend
    cases hspend
    -- the coinbase spends nothing, and its outputs may replace coins
    obtain ⟨hc', hv', hpot⟩ := addCoins_go_potential tx.vout hcv hvv hout hadd
    refine ⟨hc', hv', hfee, 0, ?_, fun _ => rfl, (nomatch ·), (nomatch ·)⟩
    rw [hcb, hf.coinAt, hf.potential] at hpot
    rw [hpot, outValue_eq]
    simp only [if_true, overwrittenValue, addWrites]
    omega
  | false =>
    rw [hcb] at hspend
    obtain ⟨hc1, hv1, hnodup⟩ := spendInputs_potential hcv hvv hspend
    obtain ⟨hc', hv', hpot⟩ := addCoins_go_potential tx.vout hc1 hv1 hout hadd
    rw [hcb] at hpot
    refine ⟨hc', hv', hfee, s.view.potential - c1.potential, ?_, (nomatch ·), fun _ hnd => ?_,
      fun _ hcoh => ?_⟩
    · rw [hpot, outValue_eq]
      simp only [Bool.false_eq_true, if_false]
      omega
    · rw [hnodup hnd, hf.potential, hf.coinAt]
      omega
    · rw [spendInputs_potential_of_coherent (hf.sameCoins.coherent hcoh) hspend, hf.potential,
        hf.coinAt]
      omega

/-! ## All transactions -/

theorem burnedValue_nonneg (hout : ∀ txout ∈ tx.vout, moneyRange txout.nValue = true)
    : 0 ≤ tx.burnedValue := by
  apply sum_nonneg
  intro v hv
  obtain ⟨txout, hmem, rfl⟩ := mem_map.mp hv
  split
  · exact (moneyRange_iff.mp (hout txout hmem)).1
  · exact le_refl 0

variable {txs : List CTransaction}

theorem connectTxs_potential_le {pindex : CBlockIndex} (hc : s.view.CleanOk) (hv : s.view.ValuesOk)
    (hcb : ∀ tx ∈ txs, tx.isCoinBase = false) (hnd : ∀ tx ∈ txs, tx.prevouts.Nodup)
    (hout : ∀ tx ∈ txs, ∀ txout ∈ tx.vout, moneyRange txout.nValue = true)
    (h : connectTxs env pindex s txs = .ok s') : s'.view.CleanOk ∧ s'.view.ValuesOk ∧
      s'.view.potential + s'.nFees ≤ s.view.potential + s.nFees := by
  induction txs generalizing s with
  | nil => cases h; exact ⟨hc, hv, le_refl _⟩
  | cons tx rest ih =>
    obtain ⟨s1, hs1, h⟩ := bind_eq_ok.mp h
    have hmem : tx ∈ tx :: rest := mem_cons_self ..
    obtain ⟨hc1, hv1, hfee, spent, hpot, -, hspent, -⟩ :=
      connectTx_potential hc hv (hout tx hmem) hs1
    obtain ⟨hc', hv', hle⟩ := ih hc1 hv1 (fun t ht => hcb t (mem_cons_of_mem _ ht))
      (fun t ht => hnd t (mem_cons_of_mem _ ht))
      (fun t ht => hout t (mem_cons_of_mem _ ht)) h
    refine ⟨hc', hv', ?_⟩
    have hburned := burnedValue_nonneg (hout tx hmem)
    rw [hspent (hcb tx hmem) (hnd tx hmem)] at hpot
    simp only [txFee, hcb tx hmem, Bool.false_eq_true, if_false] at hpot hfee
    omega

theorem connectTxs_potential_eq {pindex : CBlockIndex} (hc : s.view.Coherent) (hv : s.view.ValuesOk)
    (hcb : ∀ tx ∈ txs, tx.isCoinBase = false)
    (hnew : Along NewOutputs pindex.nHeight s.view.coinAt txs)
    (hout : ∀ tx ∈ txs, ∀ txout ∈ tx.vout, moneyRange txout.nValue = true)
    (h : connectTxs env pindex s txs = .ok s') :
    s'.view.potential + s'.nFees + (txs.map burnedValue).sum =
      s.view.potential + s.nFees + sumAlong txRepeatedValue pindex.nHeight s.view.coinAt txs := by
  induction txs generalizing s with
  | nil => cases h; simp [sumAlong]
  | cons tx rest ih =>
    obtain ⟨s1, hs1, h⟩ := bind_eq_ok.mp h
    have hmem : tx ∈ tx :: rest := mem_cons_self ..
    obtain ⟨-, hv1, hfee, spent, hpot, -, -, hspent⟩ :=
      connectTx_potential hc.cleanOk hv (hout tx hmem) hs1
    obtain ⟨hnewtx, hnewrest⟩ := hnew
    obtain ⟨hc1, hat, -⟩ := connectTx_spec hc
      (fun hncb j => noneBelow_of_coinAt (hnewtx hncb j)) hs1
    rw [← hat] at hnewrest
    have hih := ih hc1 hv1 (fun t ht => hcb t (mem_cons_of_mem _ ht)) hnewrest
      (fun t ht => hout t (mem_cons_of_mem _ ht)) h
    rw [hat] at hih
    rw [hspent (hcb tx hmem) hc] at hpot
    simp only [txFee, hcb tx hmem, Bool.false_eq_true, if_false] at hpot hfee
    rw [sumAlong, map_cons, sum_cons, txRepeatedValue, hcb tx hmem]
    simp only [Bool.false_eq_true, if_false]
    omega

/-! ## The block -/

theorem CCoinsViewCache.totalValue_congr (h : c'.coinAt = c.coinAt) :
    c'.totalValue = c.totalValue := by
  rw [totalValue, totalValue, totalValue_eq_total, totalValue_eq_total]
  exact total_congr fun o => valueAt_congr (congrFun h o)

variable {view' : CCoinsViewCache} {fJustCheck : Bool} {blockundo : CBlockUndo}

/-- An accepted block, seen from the view it was given: the loop's first step
    connects the coinbase, the rest of the loop the other transactions, and the
    view that is returned shows the coins of the last state. -/
theorem connectBlock_steps {block : CBlock} {pindex : CBlockIndex} {view : CCoinsViewCache}
    (hc : view.Coherent) (hv : view.ValuesOk)
    (h : connectBlock env block pindex view fJustCheck = .ok (view', blockundo)) :
    ∃ cb rest s0 s1 s, BlockShape block cb rest ∧ s0.view.Coherent ∧ s0.view.ValuesOk ∧
      s0.view.coinAt = view.coinAt ∧ s0.nFees = 0 ∧
      connectTx env pindex s0 cb = .ok s1 ∧ connectTxs env pindex s1 rest = .ok s ∧
      cb.outValue ≤ s.nFees + getBlockSubsidy env.nSubsidyHalvingInterval pindex.nHeight ∧
      view'.totalValue = s.view.totalValue := by
  obtain ⟨cb, rest, s, hshape, -, -, hs, hle, -, hview'⟩ := connectBlock_cases h
  have hsame := getBestBlock_sameCoins view
  have hbase : view.getBestBlock.2.base.coinAt = view.base.coinAt :=
    (getBestBlock_spec view).2.2.2.1.coinAt
  have hat : view.getBestBlock.2.coinAt = view.coinAt := hsame.coinAt
  obtain ⟨s1, hs1, hs⟩ := bind_eq_ok.mp hs
  refine ⟨cb, rest, { view := view.getBestBlock.2, nFees := 0, nSigOpsCost := 0, vtxundo := [] },
    s1, s, hshape, hsame.coherent hc, ⟨fun o => ?_, fun o => ?_⟩, hat, rfl, hs1, hs, hle, ?_⟩
  · rw [hat]; exact hv.visible o
  · rw [hbase]; exact hv.below o
  · rw [hview']
    split
    · rfl
    · exact totalValue_congr rfl

theorem totalValue_le_of_nodup {block : CBlock} {pindex : CBlockIndex} {view : CCoinsViewCache}
    (hc : view.Coherent) (hv : view.ValuesOk)
    (h : connectBlock env block pindex view fJustCheck = .ok (view', blockundo))
    (hnd : ∀ tx ∈ block.vtx, tx.prevouts.Nodup) : view'.totalValue ≤
      view.totalValue + getBlockSubsidy env.nSubsidyHalvingInterval pindex.nHeight := by
  obtain ⟨cb, rest, s0, s1, s, hshape, hc0, hv0, hat0, hfee0, hs1, hs, hle, htotal⟩ :=
    connectBlock_steps hc hv h
  rw [hshape.vtx] at hnd
  have hcbout := hshape.outputs cb (mem_cons_self ..)
  obtain ⟨hc1, hv1, hfee, spent, hpot, hspent, -, -⟩ :=
    connectTx_potential hc0.cleanOk hv0 hcbout hs1
  obtain ⟨-, hv', hpotle⟩ := connectTxs_potential_le hc1 hv1 hshape.others
    (fun tx htx => hnd tx (mem_cons_of_mem _ htx))
    (fun tx htx => hshape.outputs tx (mem_cons_of_mem _ htx)) hs
  have hvisible := totalValue_le_potential hv'.below
  have hstart := potential_of_coherent hc0
  have hview : s0.view.totalValue = view.totalValue := totalValue_congr hat0
  have hburned := burnedValue_nonneg hcbout
  have hoverwritten : 0 ≤ overwrittenValue s0.view.coinAt cb := by
    apply sum_nonneg
    intro v hmem
    obtain ⟨w, -, rfl⟩ := mem_map.mp hmem
    exact hv0.visible w.1
  rw [hspent hshape.coinbase, hshape.coinbase] at hpot
  simp only [txFee, hshape.coinbase, if_true] at hfee hpot
  omega

/-- When the outputs after the coinbase are new, the balance is exact: the view gains the
    subsidy and what is counted twice, less what the block gives up. -/
theorem totalValue_eq_of_newAlong {block : CBlock} {pindex : CBlockIndex} {view : CCoinsViewCache}
    (hc : view.Coherent) (hv : view.ValuesOk)
    (h : connectBlock env block pindex view fJustCheck = .ok (view', blockundo))
    (hnew : Along NewOutputs pindex.nHeight view.coinAt block.vtx) :
    view'.totalValue + forgoneValue env view.coinAt pindex.nHeight block =
      view.totalValue + getBlockSubsidy env.nSubsidyHalvingInterval pindex.nHeight +
        repeatedValue view.coinAt pindex.nHeight block := by
  obtain ⟨cb, rest, s0, s1, s, hshape, hc0, hv0, hat0, hfee0, hs1, hs, hle, htotal⟩ :=
    connectBlock_steps hc hv h
  have hcb := hshape.coinbase
  have hcbout := hshape.outputs cb (mem_cons_self ..)
  obtain ⟨-, hv1, hfee, spent, hpot, hspent, -, -⟩ :=
    connectTx_potential hc0.cleanOk hv0 hcbout hs1
  obtain ⟨hc1, hat1, -⟩ :=
    connectTx_spec hc0 (fun hn => by rw [hcb] at hn; cases hn) hs1
  have hnewrest : Along NewOutputs pindex.nHeight s1.view.coinAt rest := by
    rw [hshape.vtx] at hnew
    rw [hat1, hat0]
    exact hnew.2
  have hrest := connectTxs_potential_eq hc1 hv1 hshape.others hnewrest
    (fun tx htx => hshape.outputs tx (mem_cons_of_mem _ htx)) hs
  obtain ⟨hc', -, -, hfees, -⟩ := connectTxs_spec hc1 hnewrest hs
  have hend := potential_of_coherent hc'
  have hstart := potential_of_coherent hc0
  have hview : s0.view.totalValue = view.totalValue := totalValue_congr hat0
  rw [hat1, hat0] at hrest hfees
  rw [hspent hcb, hcb, hat0] at hpot
  simp only [txFee, hcb, if_true] at hfee hpot
  have hrepeated : repeatedValue view.coinAt pindex.nHeight block =
      sumAlong txRepeatedValue pindex.nHeight
        (writes view.coinAt (txWrites pindex.nHeight cb)) rest := by
    rw [repeatedValue, hshape.vtx, sumAlong, txRepeatedValue, hcb]
    simp
  have hforgone : forgoneValue env view.coinAt pindex.nHeight block =
      sumAlong txFee pindex.nHeight (writes view.coinAt (txWrites pindex.nHeight cb)) rest +
        getBlockSubsidy env.nSubsidyHalvingInterval pindex.nHeight - cb.outValue +
        (cb.burnedValue + (rest.map burnedValue).sum) +
        overwrittenValue view.coinAt cb := by
    rw [forgoneValue, hshape.vtx, sumAlong, txFee, hcb]
    simp
  omega

/-- No accepted block creates value beyond the subsidy, provided that no
    transaction names an outpoint twice.  For blocks with new outputs the bound
    holds exactly when the value they count twice is covered by what they give
    up. -/
theorem connectBlock_totalValue {env : ValidationEnv} {block : CBlock} {pindex : CBlockIndex}
    {view view' : CCoinsViewCache} {fJustCheck : Bool} {blockundo : CBlockUndo}
    (hc : view.Coherent) (hv : view.ValuesOk)
    (h : connectBlock env block pindex view fJustCheck = .ok (view', blockundo)) :
    ((∀ tx ∈ block.vtx, tx.prevouts.Nodup) →
      view'.totalValue ≤
        view.totalValue + getBlockSubsidy env.nSubsidyHalvingInterval pindex.nHeight) ∧
    (Along NewOutputs pindex.nHeight view.coinAt block.vtx →
      (view'.totalValue ≤
          view.totalValue + getBlockSubsidy env.nSubsidyHalvingInterval pindex.nHeight ↔
        repeatedValue view.coinAt pindex.nHeight block ≤
          forgoneValue env view.coinAt pindex.nHeight block)) := by
  refine ⟨totalValue_le_of_nodup hc hv h, fun hnew => ?_⟩
  have hbalance := totalValue_eq_of_newAlong hc hv h hnew
  constructor
  · intro hle
    omega
  · intro hle
    omega

/-! ## A block that repeats an input

The coinbase of height 1 pays 5 coins.  At height 101 a transaction names its
output twice and pays out 10 coins; every check passes. -/

namespace RepeatedInput

/-- The database after height 100: the coinbase output of height 1. -/
def chainstate : CCoinsViewDB where
  coins := AList.singleton ⟨11, 0⟩
    { out := payAnyone (5 * COIN), nHeight := 1, fCoinBase := true }
  bestBlock := 100
  headBlocks := []

def view : CCoinsViewCache := new (.db chainstate)

def coinbase : CTransaction := coinbaseTx 21 101 [payAnyone (5 * COIN)]

def spend : CTransaction where
  hash := 22
  vin := [{ prevout := ⟨11, 0⟩ }, { prevout := ⟨11, 0⟩ }]
  vout := [payAnyone (10 * COIN)]

def block : CBlock where
  hash := 101
  hashPrevBlock := 100
  vtx := [coinbase, spend]

def pindex : CBlockIndex := { hash := 101, nHeight := 101, pprev := some 100 }

theorem view_coherent : view.Coherent := by
  refine ⟨fun o coin h => ?_, fun o e h => ?_⟩
  · have hmem := lookup_eq_some_iff_mem.mp h
    have heq : (⟨o, coin⟩ : Sigma fun _ : COutPoint => Coin) =
        ⟨⟨11, 0⟩, { out := payAnyone (5 * COIN), nHeight := 1, fCoinBase := true }⟩ := by
      simpa [chainstate, AList.singleton] using hmem
    cases heq
    rfl
  · rw [view, new, AList.lookup_empty] at h
    cases h

theorem view_valuesOk : view.ValuesOk := by
  have hdb : ∀ o, 0 ≤ valueAt (db chainstate).coinAt o := by
    intro o
    by_cases ho : o = ⟨11, 0⟩
    · subst ho; decide
    · have hno : o ∉ chainstate.coins := by
        intro hm
        exact ho (mem_singleton.mp (AList.mem_keys.mp hm))
      rw [valueAt_none (AList.lookup_eq_none.mpr hno)]
  exact ⟨hdb, hdb⟩

/-- The block is accepted and leaves 15 coins where there were 5. -/
theorem creates_value :
    view.Coherent ∧ view.ValuesOk ∧ ∃ view' blockundo,
      connectBlock lenientEnv block pindex view false = .ok (view', blockundo) ∧
        ¬ view'.totalValue ≤ view.totalValue +
          getBlockSubsidy lenientEnv.nSubsidyHalvingInterval pindex.nHeight := by
  obtain ⟨⟨view', blockundo⟩, h, hgain⟩ := exists_of_okAnd
    (x := connectBlock lenientEnv block pindex view false)
    (p := fun r => decide (¬ r.1.totalValue ≤ view.totalValue +
      getBlockSubsidy lenientEnv.nSubsidyHalvingInterval pindex.nHeight)) (by decide)
  exact ⟨view_coherent, view_valuesOk, view', blockundo, h, of_decide_eq_true hgain⟩

/-- The same block with the input named once and 5 coins paid out. -/
def honestBlock : CBlock :=
  { block with
    vtx := [coinbase, { spend with
      vin := [{ prevout := ⟨11, 0⟩ }], vout := [payAnyone (5 * COIN)] }] }

theorem honestBlock_totalValue :
    ∃ view' blockundo, connectBlock lenientEnv honestBlock pindex view false = .ok (view', blockundo) ∧
      view'.totalValue ≤ view.totalValue +
        getBlockSubsidy lenientEnv.nSubsidyHalvingInterval pindex.nHeight := by
  obtain ⟨⟨view', blockundo⟩, h, -⟩ := exists_of_okAnd
    (x := connectBlock lenientEnv honestBlock pindex view false) (p := fun _ => true) (by decide)
  exact ⟨view', blockundo, h, (connectBlock_totalValue view_coherent view_valuesOk h).1 (by decide)⟩

end RepeatedInput

end Rcoin
