/-
  What connecting a block does to the map of coins: every transaction deletes
  the outpoints it spends and sets its spendable outputs.  The writes are
  defined first, on plain maps; then each function of `ConnectBlock` is shown
  to apply them, and to read what it checks from the map.
-/
import Rcoin.Coins.Value
import Rcoin.Chain.Validation

namespace Rcoin

open Maps Fallible CTransaction List

/-! ## The writes of a block -/

/-- The spends of a list of outpoints. -/
abbrev spendWrites (prevouts : List COutPoint) : List (Write COutPoint Coin) := deletes prevouts

/-- The coin a transaction creates for one of its outputs. -/
def CTransaction.newCoin (tx : CTransaction) (nHeight : Nat) (txout : CTxOut) : Coin :=
  { out := txout, nHeight := nHeight, fCoinBase := tx.isCoinBase }

/-- The writes for the outputs from index `i` on; unspendable ones are left out. -/
def addWritesFrom (tx : CTransaction) (nHeight : Nat) : Nat → List CTxOut →
    List (Write COutPoint Coin)
  | _, [] => []
  | i, txout :: rest =>
    if txout.scriptPubKey.isUnspendable then addWritesFrom tx nHeight (i + 1) rest
    else (⟨tx.hash, i⟩, some (tx.newCoin nHeight txout)) :: addWritesFrom tx nHeight (i + 1) rest

def addWrites (tx : CTransaction) (nHeight : Nat) : List (Write COutPoint Coin) :=
  addWritesFrom tx nHeight 0 tx.vout

/-- What a transaction does to the coins when it is connected. -/
def txWrites (nHeight : Nat) (tx : CTransaction) : List (Write COutPoint Coin) :=
  (if tx.isCoinBase then [] else spendWrites tx.prevouts) ++ addWrites tx nHeight

def txsWrites (nHeight : Nat) (txs : List CTransaction) : List (Write COutPoint Coin) :=
  txs.flatMap (txWrites nHeight)

theorem txsWrites_cons (nHeight : Nat) (tx : CTransaction) (rest : List CTransaction) :
    txsWrites nHeight (tx :: rest) = txWrites nHeight tx ++ txsWrites nHeight rest :=
  flatMap_cons

variable {tx : CTransaction} {nHeight : Nat} {outs : List CTxOut} {i : Nat}

theorem mem_addWritesFrom {w : Write COutPoint Coin} (h : w ∈ addWritesFrom tx nHeight i outs) :
    ∃ j txout, outs[j]? = some txout ∧ txout.scriptPubKey.isUnspendable = false ∧
      w = (⟨tx.hash, i + j⟩, some (tx.newCoin nHeight txout)) := by
  induction outs generalizing i with
  | nil => cases h
  | cons txout rest ih =>
    have hshift : w ∈ addWritesFrom tx nHeight (i + 1) rest →
        ∃ j txout', (txout :: rest)[j]? = some txout' ∧
          txout'.scriptPubKey.isUnspendable = false ∧
          w = (⟨tx.hash, i + j⟩, some (tx.newCoin nHeight txout')) := by
      intro hmem
      obtain ⟨j, txout', hj, hs, hw⟩ := ih hmem
      refine ⟨j + 1, txout', by rw [getElem?_cons_succ]; exact hj, hs, ?_⟩
      rw [hw, Nat.add_assoc, Nat.add_comm 1 j]
    unfold addWritesFrom at h
    by_cases hu : txout.scriptPubKey.isUnspendable = true
    · rw [if_pos hu] at h
      exact hshift h
    · rw [if_neg hu] at h
      rcases mem_cons.mp h with hw | hmem
      · exact ⟨0, txout, rfl, by simpa using hu, hw⟩
      · exact hshift hmem

/-! ## Frame facts of the cache operations -/

variable {c c' : CCoinsViewCache}

namespace CCoinsViewCache

/-- Where the cache has no entry, its parent shows no coin either. -/
def NoneBelow (c : CCoinsViewCache) (o : COutPoint) : Prop :=
  c.cacheCoins.lookup o = none → c.base.coinAt o = none

/-- What the operations of one cache leave alone. -/
structure Frame (c c' : CCoinsViewCache) : Prop where
  hashBlock : c'.hashBlock = c.hashBlock
  baseBestBlock : c'.base.bestBlock = c.base.bestBlock
  baseDB : ∀ d, c.base = .db d → c'.base = .db d
  noneBelow : ∀ o, c.NoneBelow o → c'.NoneBelow o

theorem Frame.refl (c : CCoinsViewCache) : c.Frame c := ⟨rfl, rfl, fun _ h => h, fun _ h => h⟩

theorem Frame.trans {c'' : CCoinsViewCache} (h : c.Frame c') (h' : c'.Frame c'') : c.Frame c'' :=
  ⟨h'.hashBlock.trans h.hashBlock, h'.baseBestBlock.trans h.baseBestBlock,
    fun d hd => h'.baseDB d (h.baseDB d hd), fun o ho => h'.noneBelow o (h.noneBelow o ho)⟩

theorem noneBelow_of_coinAt {o : COutPoint} (h : c.coinAt o = none) :
    c.NoneBelow o := fun hl => (coinAt_of_not_mem hl).symm.trans h

theorem Fetched.frame (h : c.Fetched c') : c.Frame c' := by
  refine ⟨h.hashBlock, h.baseBestBlock, h.baseDB, fun o ho hno => ?_⟩
  rw [h.base.coinAt]
  rcases h.entry o with heq | ⟨_, _, _, _, hl⟩
  · exact ho (heq ▸ hno)
  · rw [hl] at hno; cases hno

theorem spendCoin_frame (hc : c.Coherent) (o : COutPoint) : c.Frame (c.spendCoin o).2 := by
  obtain ⟨-, h2, h3⟩ := fetchCoin_spec hc.1 o
  have hc1 : (c.fetchCoin o).2.Coherent := h2.sameCoins.coherent hc
  apply h2.frame.trans
  unfold spendCoin
  rcases hf : c.fetchCoin o with ⟨_ | e, c1⟩
  · exact .refl _
  rw [hf] at h3 hc1
  by_cases hfr : e.fresh = true
  · simp only [hfr, if_true]
    refine ⟨rfl, rfl, fun _ h => h, fun o' ho' hno => ?_⟩
    by_cases ho : o' = o
    · subst ho
      exact (hc1.2 o' e h3).fresh hfr
    · exact ho' ((AList.lookup_erase_ne ho).symm.trans hno)
  · simp only [hfr, Bool.false_eq_true, if_false]
    refine ⟨rfl, rfl, fun _ h => h, fun o' ho' hno => ?_⟩
    have hno' := hno
    rw [Maps.lookup_insert] at hno'
    split at hno'
    · cases hno'
    · exact ho' hno'

theorem addCoin_frame {o : COutPoint} {coin : Coin} {possible_overwrite : Bool}
    (h : c.addCoin o coin possible_overwrite = .ok c') : c.Frame c' := by
  unfold addCoin at h
  split at h
  · cases h
  split at h
  · cases h; exact .refl _
  simp only at h
  split at h
  · cases h
  cases h
  refine ⟨rfl, rfl, fun _ h => h, fun o' ho' hno => ?_⟩
  have hno' := hno
  rw [Maps.lookup_insert] at hno'
  split at hno'
  · cases hno'
  · exact ho' hno'

/-! ## Reads of the inputs -/

theorem haveInputs_go_spec (hc : c.base.Coherent) (prevouts : List COutPoint) :
    c.Fetched (haveInputs.go c prevouts).2 ∧
      ((haveInputs.go c prevouts).1 = true → ∀ o ∈ prevouts, (c.coinAt o).isSome = true) := by
  induction prevouts generalizing c with
  | nil => exact ⟨.refl _, fun _ o ho => (nomatch ho)⟩
  | cons o rest ih =>
    obtain ⟨h1, h2⟩ := haveCoin_spec hc o
    unfold haveInputs.go
    by_cases hh : (c.haveCoin o).1 = true
    · simp only [hh, if_true]
      obtain ⟨hf, hall⟩ := ih (h2.base.coherent hc)
      refine ⟨h2.trans hf, fun hgo o' ho' => ?_⟩
      rcases mem_cons.mp ho' with rfl | hmem
      · rw [← h1, hh]
      · have hsome := hall hgo o' hmem
        rwa [h2.coinAt] at hsome
    · simp only [hh, Bool.false_eq_true, if_false]
      exact ⟨h2, fun hfalse => (nomatch hfalse)⟩

theorem accessCoins_spec (hc : c.base.Coherent) (prevouts : List COutPoint)
    : c.Fetched (c.accessCoins prevouts).2 := by
  induction prevouts generalizing c with
  | nil => exact .refl _
  | cons o rest ih =>
    have h2 := (accessCoin_spec hc o).2
    exact h2.trans (ih (h2.base.coherent hc))

end CCoinsViewCache

open CCoinsViewCache

/-- The sum of the values of the coins at some outpoints, repeats included. -/
def inputValue (m : COutPoint → Option Coin) (prevouts : List COutPoint) : Int :=
  (prevouts.map (valueAt m)).sum

/-- The sum of a transaction's output values. -/
def CTransaction.outValue (tx : CTransaction) : Int := (tx.vout.map CTxOut.nValue).sum

/-- An input that may be spent at a height: its coin is there, in range, and
    mature if a coinbase created it. -/
def SpendableAt (m : COutPoint → Option Coin) (nSpendHeight : Nat) (o : COutPoint) : Prop :=
  ∃ coin, m o = some coin ∧ moneyRange coin.out.nValue = true ∧
    (coin.fCoinBase = true → COINBASE_MATURITY ≤ (nSpendHeight : Int) - coin.nHeight)

variable {prevouts : List COutPoint} {nSpendHeight : Nat}

theorem checkInputValues_spec (hc : c.base.Coherent) {nValueIn v : Int}
    (h : checkInputValues nSpendHeight c nValueIn prevouts = .ok (v, c')) :
    c.Fetched c' ∧ v = nValueIn + inputValue c.coinAt prevouts ∧
      ∀ o ∈ prevouts, SpendableAt c.coinAt nSpendHeight o := by
  induction prevouts generalizing c nValueIn with
  | nil =>
    cases h
    exact ⟨.refl _, by simp [inputValue], fun o ho => (nomatch ho)⟩
  | cons prevout rest ih =>
    unfold checkInputValues at h
    obtain ⟨h1, h2⟩ := accessCoin_spec hc prevout
    rcases hac : c.accessCoin prevout with ⟨coin, c1⟩
    rw [hac] at h h1 h2
    obtain ⟨hspent, h⟩ := failIf_bind_eq_ok.mp h
    obtain ⟨hmature, h⟩ := failIf_bind_eq_ok.mp h
    obtain ⟨hrange, h⟩ := failIf_bind_eq_ok.mp h
    obtain ⟨hf, hv, hall⟩ := ih (h2.base.coherent hc) h
    have hcoin : c.coinAt prevout = some coin := by
      rw [← h1]; exact Coin.unspent?_of_not_isSpent hspent
    have hat : c1.coinAt = c.coinAt := h2.coinAt
    rw [hat] at hv hall
    refine ⟨h2.trans hf, ?_, fun o ho => ?_⟩
    · rw [hv, inputValue, inputValue, map_cons, sum_cons, valueAt_some hcoin]
      omega
    · rcases mem_cons.mp ho with rfl | hmem
      · refine ⟨coin, hcoin, ?_, fun hcb => ?_⟩
        · cases hr : moneyRange coin.out.nValue with
          | true => rfl
          | false => rw [hr] at hrange; cases hrange
        · rw [hcb] at hmature
          simpa using hmature
      · exact hall o hmem

theorem getValueOut_eq_some {v : Int} (h : tx.getValueOut = some v) : v = tx.outValue := by
  have hgo : ∀ (outs : List CTxOut) (acc : Int), getValueOut.go outs acc = some v →
      v = acc + (outs.map CTxOut.nValue).sum := by
    intro outs
    induction outs with
    | nil =>
      intro acc hgo
      cases hgo
      simp
    | cons txout rest ih =>
      intro acc hgo
      unfold getValueOut.go at hgo
      split at hgo
      · rw [ih _ hgo, map_cons, sum_cons]
        omega
      · cases hgo
  rw [hgo _ _ h, outValue]
  omega

theorem checkTxInputs_spec (hc : c.base.Coherent) {txfee : Int}
    (h : checkTxInputs tx c nSpendHeight = .ok (txfee, c')) :
    c.Fetched c' ∧ txfee = inputValue c.coinAt tx.prevouts - tx.outValue ∧
      ∀ o ∈ tx.prevouts, SpendableAt c.coinAt nSpendHeight o := by
  unfold checkTxInputs at h
  have hfirst : c.Fetched (c.haveInputs tx).2 := by
    unfold haveInputs
    split
    · exact .refl _
    · exact (haveInputs_go_spec hc tx.prevouts).1
  rcases hhi : c.haveInputs tx with ⟨have_inputs, c1⟩
  obtain ⟨-, h⟩ := failIf_bind_eq_ok.mp h
  obtain ⟨⟨nValueIn, c2⟩, hvals, h⟩ := bind_eq_ok.mp h
  obtain ⟨hf, hv, hall⟩ := checkInputValues_spec (hfirst.base.coherent hc) hvals
  rw [hfirst.coinAt] at hv hall
  cases hout : tx.getValueOut with
  | none => simp only [hout] at h; cases h
  | some value_out =>
    simp only [hout] at h
    obtain ⟨-, h⟩ := failIf_bind_eq_ok.mp h
    obtain ⟨-, h⟩ := failIf_bind_eq_ok.mp h
    have heq := pure_eq_ok.mp h
    cases heq
    refine ⟨hfirst.trans hf, ?_, hall⟩
    rw [hv, getValueOut_eq_some hout]
    omega

/-! ## Updates -/

variable {txundo : CTxUndo}

theorem spendInputs_spec (hc : c.Coherent) (h : spendInputs c prevouts = .ok (txundo, c')) :
    c'.Coherent ∧ c'.coinAt = writes c.coinAt (spendWrites prevouts) ∧ c.Frame c' ∧
      (prevouts.Nodup → txundo.map Coin.unspent? = prevouts.map c.coinAt) := by
  induction prevouts generalizing c txundo with
  | nil => cases h; exact ⟨hc, rfl, .refl _, fun _ => rfl⟩
  | cons prevout rest ih =>
    obtain ⟨hat, hcoh, hcoin⟩ := spendCoin_spec hc prevout
    have hframe := spendCoin_frame hc prevout
    unfold spendInputs at h
    rcases hsp : c.spendCoin prevout with ⟨_ | coin, c1⟩
    · rw [hsp] at h; cases h
    rw [hsp] at h hat hcoh hcoin hframe
    obtain ⟨⟨txundo1, c2⟩, hrest, h⟩ := bind_eq_ok.mp h
    cases h
    obtain ⟨hcoh', hat', hframe', hundo⟩ := ih hcoh hrest
    refine ⟨hcoh', ?_, hframe.trans hframe', fun hnd => ?_⟩
    · rw [hat', hat]; rfl
    · obtain ⟨hno, hnd'⟩ := nodup_cons.mp hnd
      have hkeep : rest.map c1.coinAt = rest.map c.coinAt := by
        apply map_congr_left
        intro o ho
        have hne : o ≠ prevout := fun heq => hno (heq ▸ ho)
        rw [hat, write_apply, if_neg hne]
      have hhead : coin.unspent? = c.coinAt prevout := hcoin
      rw [map_cons, map_cons, hundo hnd', hkeep, hhead]

/-- The loop of `AddCoins`.  Without `check`, a transaction that is no coinbase
    must not meet a coin of the parent that the cache has no entry for. -/
theorem addCoins_go_spec {check : Bool} (outs : List CTxOut) (hc : c.Coherent)
    (hnew : check = false → tx.isCoinBase = false → ∀ j, c.NoneBelow ⟨tx.hash, j⟩)
    (h : addCoins.go tx nHeight check c i outs = .ok c') :
    c'.Coherent ∧ c'.coinAt = writes c.coinAt (addWritesFrom tx nHeight i outs) ∧ c.Frame c' := by
  induction outs generalizing c i with
  | nil => cases h; exact ⟨hc, rfl, .refl _⟩
  | cons txout rest ih =>
    unfold addCoins.go at h
    simp only at h
    -- the overwrite flag is right about the parent, and looking it up changes nothing
    obtain ⟨po, c1, hpo, hfetch, hbelow⟩ : ∃ po c1,
        (if check then c.haveCoin ⟨tx.hash, i⟩ else (tx.isCoinBase, c)) = (po, c1) ∧
          c.Fetched c1 ∧ (po = false → c1.NoneBelow ⟨tx.hash, i⟩) := by
      cases check with
      | true =>
        obtain ⟨h1, h2⟩ := haveCoin_spec hc.1 ⟨tx.hash, i⟩
        refine ⟨_, _, rfl, h2, fun hp => ?_⟩
        have hnone : (c.coinAt ⟨tx.hash, i⟩).isSome = false := h1.symm.trans hp
        apply noneBelow_of_coinAt
        exact (congrFun h2.coinAt _).trans
          (Option.isSome_eq_false_iff.mp hnone |> Option.isNone_iff_eq_none.mp)
      | false =>
        exact ⟨_, _, rfl, .refl _, fun hp => hnew rfl hp i⟩
    rw [hpo] at h
    cases hadd : c1.addCoin ⟨tx.hash, i⟩ ⟨txout, nHeight, tx.isCoinBase⟩ po with
    | error err => rw [hadd] at h; cases h
    | ok c2 =>
      rw [hadd] at h
      have hframe : c.Frame c2 := hfetch.frame.trans (addCoin_frame hadd)
      obtain ⟨hat, hcoh, -⟩ := addCoin_spec (hfetch.sameCoins.coherent hc)
        (fun hp hl => hbelow hp hl) hadd
      obtain ⟨hcoh', hat', hframe'⟩ := ih hcoh
        (fun hcheck hcb j => hframe.noneBelow _ (hnew hcheck hcb j)) h
      refine ⟨hcoh', ?_, hframe.trans hframe'⟩
      rw [hat', hat, hfetch.coinAt, addedCoin, addWritesFrom]
      split <;> rfl

theorem addCoins_spec {check : Bool} (hc : c.Coherent)
    (hnew : check = false → tx.isCoinBase = false → ∀ j, c.NoneBelow ⟨tx.hash, j⟩)
    (h : c.addCoins tx nHeight check = .ok c') :
    c'.Coherent ∧ c'.coinAt = writes c.coinAt (addWrites tx nHeight) ∧ c.Frame c' :=
  addCoins_go_spec tx.vout hc hnew h

theorem updateCoins_spec (hc : c.Coherent)
    (hnew : tx.isCoinBase = false → ∀ j, c.NoneBelow ⟨tx.hash, j⟩)
    (h : updateCoins tx c nHeight = .ok (txundo, c')) :
    c'.Coherent ∧ c'.coinAt = writes c.coinAt (txWrites nHeight tx) ∧ c.Frame c' ∧
      (tx.isCoinBase = false → tx.prevouts.Nodup →
        txundo.map Coin.unspent? = tx.prevouts.map c.coinAt) := by
  obtain ⟨⟨txundo1, c1⟩, hspend, h⟩ := bind_eq_ok.mp h
  obtain ⟨c2, hadd, h⟩ := bind_eq_ok.mp h
  cases h
  have hspent : c1.Coherent ∧ c1.coinAt = writes c.coinAt
      (if tx.isCoinBase then [] else spendWrites tx.prevouts) ∧ c.Frame c1 ∧
      (tx.isCoinBase = false → tx.prevouts.Nodup →
        txundo.map Coin.unspent? = tx.prevouts.map c.coinAt) := by
    unfold markInputsSpent at hspend
    cases hcb : tx.isCoinBase with
    | true =>
      rw [hcb] at hspend
      cases hspend
      exact ⟨hc, rfl, .refl _, (nomatch ·)⟩
    | false =>
      rw [hcb] at hspend
      obtain ⟨hcoh, hat, hframe, hundo⟩ := spendInputs_spec hc hspend
      exact ⟨hcoh, hat, hframe, fun _ => hundo⟩
  obtain ⟨hcoh, hat, hframe, hundo⟩ := hspent
  obtain ⟨hcoh', hat', hframe'⟩ := addCoins_spec hcoh
    (fun _ hcb j => hframe.noneBelow _ (hnew hcb j)) hadd
  refine ⟨hcoh', ?_, hframe.trans hframe', hundo⟩
  rw [hat', hat, txWrites, writes_append]

/-! ## The transactions of a block -/

/-- The fee of a transaction, from the coins before it. -/
def txFee (m : COutPoint → Option Coin) (tx : CTransaction) : Int :=
  if tx.isCoinBase then 0 else inputValue m tx.prevouts - tx.outValue

/-- `f` summed over the transactions, each seeing the coins its predecessors
    leave. -/
def sumAlong (f : (COutPoint → Option Coin) → CTransaction → Int) (nHeight : Nat) :
    (COutPoint → Option Coin) → List CTransaction → Int
  | _, [] => 0
  | m, tx :: rest => f m tx + sumAlong f nHeight (writes m (txWrites nHeight tx)) rest

/-- A transaction that was connected on the coins `m`: its inputs could be spent,
    and its undo data holds the coins they named. -/
structure TxConnected (nHeight : Nat) (m : COutPoint → Option Coin) (tx : CTransaction)
    (txundo : CTxUndo) : Prop where
  spendable : tx.isCoinBase = false → ∀ o ∈ tx.prevouts, SpendableAt m nHeight o
  undo : tx.isCoinBase = false → tx.prevouts.Nodup →
    txundo.map Coin.unspent? = tx.prevouts.map m

/-- The transactions of a block, connected one after another. -/
inductive TxsConnected (nHeight : Nat) :
    (COutPoint → Option Coin) → List CTransaction → CBlockUndo → Prop where
  | nil (m : COutPoint → Option Coin) : TxsConnected nHeight m [] []
  | cons {m : COutPoint → Option Coin} {tx : CTransaction} {txs : List CTransaction}
      {txundo : CTxUndo} {undos : CBlockUndo} (head : TxConnected nHeight m tx txundo)
      (tail : TxsConnected nHeight (writes m (txWrites nHeight tx)) txs undos) :
      TxsConnected nHeight m (tx :: txs) (txundo :: undos)

/-- `P` holds of every transaction, on the coins its predecessors leave. -/
def Along (P : (COutPoint → Option Coin) → CTransaction → Prop) (nHeight : Nat) :
    (COutPoint → Option Coin) → List CTransaction → Prop
  | _, [] => True
  | m, tx :: rest => P m tx ∧ Along P nHeight (writes m (txWrites nHeight tx)) rest

variable {txs : List CTransaction}

theorem Along.mono {P Q : (COutPoint → Option Coin) → CTransaction → Prop}
    (hPQ : ∀ m tx, P m tx → Q m tx) {m : COutPoint → Option Coin} (h : Along P nHeight m txs)
    : Along Q nHeight m txs := by
  induction txs generalizing m with
  | nil => trivial
  | cons tx rest ih => exact ⟨hPQ m tx h.1, ih h.2⟩

/-- No output of a transaction other than a coinbase is in the map already when
    the transaction is connected. -/
def NewOutputs (m : COutPoint → Option Coin) (tx : CTransaction) : Prop :=
  tx.isCoinBase = false → ∀ j, m ⟨tx.hash, j⟩ = none

variable {env : ValidationEnv} {pindex : CBlockIndex}

variable {s : ConnectState}

theorem connectInputs_spec (hc : s.view.base.Coherent) {nFees : Int} {coins : List Coin}
    {view : CCoinsViewCache} (h : connectInputs env pindex s tx = .ok (nFees, coins, view)) :
    s.view.Fetched view ∧ nFees = s.nFees + txFee s.view.coinAt tx ∧
      (tx.isCoinBase = false →
        ∀ o ∈ tx.prevouts, SpendableAt s.view.coinAt pindex.nHeight o) := by
  unfold connectInputs at h
  unfold txFee
  cases hcb : tx.isCoinBase with
  | true =>
    rw [hcb] at h
    cases h
    exact ⟨.refl _, by simp, (nomatch ·)⟩
  | false =>
    simp only [hcb, Bool.false_eq_true, if_false] at h ⊢
    obtain ⟨⟨txfee, view1⟩, hin, h⟩ := bind_eq_ok.mp h
    obtain ⟨hf, hfee, hall⟩ := checkTxInputs_spec hc hin
    obtain ⟨-, h⟩ := failIf_bind_eq_ok.mp h
    have hf' := accessCoins_spec (hf.base.coherent hc) tx.prevouts
    obtain ⟨-, h⟩ := failIf_bind_eq_ok.mp h
    have heq := pure_eq_ok.mp h
    cases heq
    exact ⟨hf.trans hf', by rw [hfee], fun _ => hall⟩

variable {s' : ConnectState}

theorem connectTx_spec (hc : s.view.Coherent)
    (hnew : tx.isCoinBase = false → ∀ j, s.view.NoneBelow ⟨tx.hash, j⟩)
    (h : connectTx env pindex s tx = .ok s') :
    s'.view.Coherent ∧ s'.view.coinAt = writes s.view.coinAt (txWrites pindex.nHeight tx) ∧
      s.view.Frame s'.view ∧ s'.nFees = s.nFees + txFee s.view.coinAt tx ∧
      ∃ txundo, s'.vtxundo = s.vtxundo ++ [txundo] ∧
        TxConnected pindex.nHeight s.view.coinAt tx txundo := by
  obtain ⟨⟨nFees, coins, view⟩, hin, h⟩ := bind_eq_ok.mp h
  obtain ⟨hf, hfee, hall⟩ := connectInputs_spec hc.1 hin
  obtain ⟨-, h⟩ := failIf_bind_eq_ok.mp h
  obtain ⟨-, h⟩ := failIf_bind_eq_ok.mp h
  obtain ⟨⟨txundo, view'⟩, hupd, h⟩ := bind_eq_ok.mp h
  have heq := pure_eq_ok.mp h
  cases heq
  obtain ⟨hcoh, hat, hframe, hundo⟩ := updateCoins_spec (hf.sameCoins.coherent hc)
    (fun hcb j => hf.frame.noneBelow _ (hnew hcb j)) (mapError_eq_ok.mp hupd)
  rw [hf.coinAt] at hat hundo
  exact ⟨hcoh, hat, hf.frame.trans hframe, hfee, txundo, rfl, hall, hundo⟩

theorem connectTxs_spec (hc : s.view.Coherent)
    (hnew : Along NewOutputs pindex.nHeight s.view.coinAt txs)
    (h : connectTxs env pindex s txs = .ok s') :
    s'.view.Coherent ∧ s'.view.coinAt = writes s.view.coinAt (txsWrites pindex.nHeight txs) ∧
      s.view.Frame s'.view ∧
      s'.nFees = s.nFees + sumAlong txFee pindex.nHeight s.view.coinAt txs ∧
      ∃ undos, s'.vtxundo = s.vtxundo ++ undos ∧
        TxsConnected pindex.nHeight s.view.coinAt txs undos := by
  induction txs generalizing s with
  | nil =>
    cases h
    refine ⟨hc, rfl, .refl _, by simp [sumAlong], [], by simp, .nil _⟩
  | cons tx rest ih =>
    obtain ⟨s1, hs1, h⟩ := bind_eq_ok.mp h
    obtain ⟨hnewtx, hnewrest⟩ := hnew
    obtain ⟨hcoh, hat, hframe, hfee, txundo, hundo, htx⟩ := connectTx_spec hc
      (fun hcb j => noneBelow_of_coinAt (hnewtx hcb j)) hs1
    rw [← hat] at hnewrest
    obtain ⟨hcoh', hat', hframe', hfee', undos, hundos, htxs⟩ := ih hcoh hnewrest h
    rw [hat] at hat' hfee' htxs
    refine ⟨hcoh', ?_, hframe.trans hframe', ?_, txundo :: undos, ?_, .cons htx htxs⟩
    · rw [hat', txsWrites_cons, writes_append]
    · rw [hfee', hfee, sumAlong]
      omega
    · rw [hundos, hundo, append_assoc]; rfl

/-! ## What an accepted block looks like -/

theorem checkOutputValues_spec {nValueOut : Int} (h : checkOutputValues outs nValueOut = .ok ⟨⟩) :
    ∀ txout ∈ outs, moneyRange txout.nValue = true := by
  induction outs generalizing nValueOut with
  | nil => intro txout hmem; cases hmem
  | cons txout rest ih =>
    obtain ⟨hneg, h⟩ := failIf_bind_eq_ok.mp h
    obtain ⟨hlarge, h⟩ := failIf_bind_eq_ok.mp h
    obtain ⟨-, h⟩ := failIf_bind_eq_ok.mp h
    intro txout' hmem
    rcases mem_cons.mp hmem with rfl | hmem
    · apply moneyRange_iff.mpr
      have h1 : ¬ txout'.nValue < 0 := of_decide_eq_false hneg
      have h2 : ¬ txout'.nValue > MAX_MONEY := of_decide_eq_false hlarge
      omega
    · exact ih h txout' hmem

theorem checkDuplicateInputs_eq_ok {vInOutPoints : List COutPoint} :
    checkDuplicateInputs prevouts vInOutPoints = .ok ⟨⟩ ↔
      prevouts.Nodup ∧ ∀ o ∈ prevouts, o ∉ vInOutPoints := by
  induction prevouts generalizing vInOutPoints with
  | nil => exact ⟨fun _ => ⟨nodup_nil, fun o ho => (nomatch ho)⟩, fun _ => rfl⟩
  | cons o rest ih =>
    unfold checkDuplicateInputs
    rw [failIf_bind_eq_ok, ih, nodup_cons]
    have hcontains : vInOutPoints.contains o = false ↔ o ∉ vInOutPoints := by simp
    rw [hcontains]
    constructor
    · rintro ⟨ho, hnd, hrest⟩
      refine ⟨⟨fun hmem => hrest o hmem (mem_cons_self ..), hnd⟩, fun o' ho' => ?_⟩
      rcases mem_cons.mp ho' with rfl | hmem
      · exact ho
      · exact fun hin => hrest o' hmem (mem_cons_of_mem _ hin)
    · rintro ⟨⟨hno, hnd⟩, hall⟩
      refine ⟨hall o (mem_cons_self ..), hnd, fun o' ho' hin => ?_⟩
      rcases mem_cons.mp hin with rfl | hmem
      · exact hno ho'
      · exact hall o' (mem_cons_of_mem _ ho') hmem

theorem checkTransaction_spec {fCheck : Bool} (h : checkTransaction env tx fCheck = .ok ⟨⟩) :
    (∀ txout ∈ tx.vout, moneyRange txout.nValue = true) ∧
      (fCheck = true → tx.prevouts.Nodup) := by
  obtain ⟨-, h⟩ := failIf_bind_eq_ok.mp h
  obtain ⟨-, h⟩ := failIf_bind_eq_ok.mp h
  obtain ⟨-, h⟩ := failIf_bind_eq_ok.mp h
  obtain ⟨u, hvals, h⟩ := bind_eq_ok.mp h
  obtain ⟨hdup, -⟩ := onlyIf_bind_eq_ok.mp h
  exact ⟨checkOutputValues_spec hvals,
    fun hf => (checkDuplicateInputs_eq_ok.mp (hdup hf)).1⟩

/-- The transactions of a block that `CheckBlock` lets through: a coinbase, then
    others, all with outputs in range. -/
structure BlockShape (block : CBlock) (cb : CTransaction) (rest : List CTransaction) : Prop where
  vtx : block.vtx = cb :: rest
  coinbase : cb.isCoinBase = true
  others : ∀ tx ∈ rest, tx.isCoinBase = false
  outputs : ∀ tx ∈ cb :: rest, ∀ txout ∈ tx.vout, moneyRange txout.nValue = true

theorem checkTransactions_spec (h : checkTransactions env txs = .ok ⟨⟩) :
    ∀ tx ∈ txs, ∀ txout ∈ tx.vout, moneyRange txout.nValue = true := by
  induction txs with
  | nil => intro tx hmem; cases hmem
  | cons tx rest ih =>
    obtain ⟨u, htx, hrest⟩ := bind_eq_ok.mp h
    intro tx' hmem
    rcases mem_cons.mp hmem with rfl | hmem
    · exact (checkTransaction_spec htx).1
    · exact ih hrest tx' hmem

theorem checkBlock_spec {block : CBlock} {fCheckPOW fCheckMerkleRoot : Bool}
    (h : checkBlock env block fCheckPOW fCheckMerkleRoot = .ok ⟨⟩) :
    ∃ cb rest, BlockShape block cb rest := by
  obtain ⟨-, h⟩ := failIf_bind_eq_ok.mp h
  obtain ⟨-, h⟩ := onlyIf_bind_eq_ok.mp h
  obtain ⟨-, h⟩ := failIf_bind_eq_ok.mp h
  obtain ⟨hcb, h⟩ := failIf_bind_eq_ok.mp h
  obtain ⟨hothers, h⟩ := failIf_bind_eq_ok.mp h
  obtain ⟨u, htxs, -⟩ := bind_eq_ok.mp h
  cases hvtx : block.vtx with
  | nil => rw [hvtx] at hcb; cases hcb
  | cons cb rest =>
    rw [hvtx] at hcb hothers htxs
    refine ⟨cb, rest, hvtx, ?_, fun tx htx => ?_, checkTransactions_spec htxs⟩
    · simpa using hcb
    · simpa using (List.any_eq_false.mp hothers) tx htx

/-- `ConnectBlock`, taken apart: the block has its shape, its transactions were
    connected on the view it was given, and the coinbase claims at most fees and
    subsidy. -/
theorem connectBlock_cases {block : CBlock} {view view' : CCoinsViewCache} {fJustCheck : Bool}
    {blockundo : CBlockUndo}
    (h : connectBlock env block pindex view fJustCheck = .ok (view', blockundo)) :
    ∃ cb rest s, BlockShape block cb rest ∧ pindex.hash = block.hash ∧
      view.bestBlock = pindex.hashPrevBlock ∧
      connectTxs env pindex
        { view := view.getBestBlock.2, nFees := 0, nSigOpsCost := 0, vtxundo := [] }
        (cb :: rest) = .ok s ∧
      cb.outValue ≤ s.nFees + getBlockSubsidy env.nSubsidyHalvingInterval pindex.nHeight ∧
      blockundo = s.vtxundo.tail ∧
      view' = if fJustCheck then s.view else s.view.setBestBlock pindex.hash := by
  obtain ⟨hhash, h⟩ := failIf_bind_eq_ok.mp h
  obtain ⟨u, hcheck, h⟩ := bind_eq_ok.mp h
  obtain ⟨cb, rest, hshape⟩ := checkBlock_spec hcheck
  obtain ⟨hprev, h⟩ := failIf_bind_eq_ok.mp h
  obtain ⟨-, h⟩ := failIf_bind_eq_ok.mp h
  obtain ⟨s, hs, h⟩ := bind_eq_ok.mp h
  rw [hshape.vtx] at hs h
  have hhead : ((cb :: rest).head?.map getValueOut).join = cb.getValueOut := by
    simp
  rw [hhead] at h
  cases hout : cb.getValueOut with
  | none => rw [hout] at h; cases h
  | some value_out =>
    rw [hout] at h
    obtain ⟨hamount, h⟩ := failIf_bind_eq_ok.mp h
    have hle : ¬ value_out > s.nFees +
        getBlockSubsidy env.nSubsidyHalvingInterval pindex.nHeight := of_decide_eq_false hamount
    rw [getValueOut_eq_some hout] at hle
    have hbest : view.bestBlock = pindex.hashPrevBlock := by
      rw [← (getBestBlock_spec view).1]
      exact (bne_eq_false_iff_eq.mp hprev).symm
    refine ⟨cb, rest, s, hshape, by simpa using hhash, hbest, hs, by omega, ?_⟩
    cases fJustCheck with
    | true =>
      have heq := pure_eq_ok.mp h
      cases heq
      exact ⟨rfl, rfl⟩
    | false =>
      have heq := pure_eq_ok.mp h
      cases heq
      exact ⟨rfl, rfl⟩

end Rcoin
