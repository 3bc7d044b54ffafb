/-
  Crash recovery of the coin database: `CBlockIndex::GetAncestor` and
  `LastCommonAncestor` (src/chain.cpp), `RollforwardBlock` and `ReplayBlocks`
  (src/validation.cpp).  Rolling a block back or forward is a fixed list of
  absolute writes, whatever the database holds; the one read they depend on is
  the lookup of an undo record without a height.
-/
import Rcoin.Chain.Disconnect

namespace Rcoin

open Maps Fallible CCoinsViewCache List Option

/-! ## The block index -/

/-- `mapBlockIndex`, and the block and undo files behind its entries. -/
structure ChainStore where
  mapBlockIndex : Uint256 → Option CBlockIndex
  readBlockFromDisk : CBlockIndex → Option CBlock
  undoReadFromDisk : CBlockIndex → Option CBlockUndo

namespace ChainStore

/-- `pindex->pprev`. -/
def pprev (store : ChainStore) (pindex : CBlockIndex) : Option CBlockIndex :=
  pindex.pprev.bind store.mapBlockIndex

/-- `n` times `pprev`. -/
def back (store : ChainStore) : Nat → CBlockIndex → Option CBlockIndex
  | 0, pindex => some pindex
  | n + 1, pindex => (store.pprev pindex).bind (store.back n)

/-- `GetAncestor`; `pskip`, which only shortens the walk, is left out. -/
def getAncestor (store : ChainStore) (pindex : CBlockIndex) (height : Nat) : Option CBlockIndex :=
  if height > pindex.nHeight then none else store.back (pindex.nHeight - height) pindex

/-- The loop of `LastCommonAncestor`; `none` when it ends without a common block. -/
def meet (store : ChainStore) : Nat → Option CBlockIndex → Option CBlockIndex → Option CBlockIndex
  | 0, pa, pb => if pa = pb then pa else none
  | n + 1, pa, pb =>
    if pa = pb then pa
    else
      match pa, pb with
      | some a, some b => store.meet n (store.pprev a) (store.pprev b)
      | _, _ => none

def lastCommonAncestor (store : ChainStore) (pa pb : CBlockIndex) : Option CBlockIndex :=
  let pa' := if pa.nHeight > pb.nHeight then store.getAncestor pa pb.nHeight else some pa
  let pb' := if pb.nHeight > pa.nHeight then store.getAncestor pb pa.nHeight else some pb
  store.meet (min pa.nHeight pb.nHeight + 1) pa' pb'

end ChainStore

/-! ## Rolling forward and back -/

/-- The inputs of `RollforwardBlock`'s loop body: the result of `SpendCoin` is
    not looked at. -/
def respendInputs (inputs : CCoinsViewCache) (prevouts : List COutPoint) : CCoinsViewCache :=
  prevouts.foldl (fun view o => (view.spendCoin o).2) inputs

def rollforwardTx (nHeight : Nat) (inputs : CCoinsViewCache) (tx : CTransaction) :
    Except CoinsError CCoinsViewCache :=
  (if tx.isCoinBase then inputs else respendInputs inputs tx.prevouts).addCoins tx nHeight true

def rollforwardTxs (nHeight : Nat) (inputs : CCoinsViewCache) :
    List CTransaction → Except CoinsError CCoinsViewCache
  | [] => .ok inputs
  | tx :: rest => do
    let inputs ← rollforwardTx nHeight inputs tx
    rollforwardTxs nHeight inputs rest

/-- `RollforwardBlock`: false when the block cannot be read. -/
def rollforwardBlock (store : ChainStore) (pindex : CBlockIndex) (inputs : CCoinsViewCache) :
    Except CoinsError (Bool × CCoinsViewCache) :=
  match store.readBlockFromDisk pindex with
  | none => .ok (false, inputs)
  | some block => do
    let inputs ← rollforwardTxs pindex.nHeight inputs block.vtx
    .ok (true, inputs)

/-- The loop of `ReplayBlocks` over the heights to roll forward. -/
def rollforward (store : ChainStore) (pindexNew : CBlockIndex) :
    List Nat → CCoinsViewCache → Except CoinsError (Bool × CCoinsViewCache)
  | [], cache => .ok (true, cache)
  | nHeight :: rest, cache =>
    match store.getAncestor pindexNew nHeight with
    | none => .error (.assertFailed "pindex")
    | some pindex => do
      let (done, cache) ← rollforwardBlock store pindex cache
      if done then rollforward store pindexNew rest cache else .ok (false, cache)

/-- The body of the rollback loop: "Never disconnect the genesis block". -/
def rollbackBlock (store : ChainStore) (pindexOld : CBlockIndex) (cache : CCoinsViewCache) :
    Except CoinsError (Bool × CCoinsViewCache) :=
  if pindexOld.nHeight > 0 then
    match store.readBlockFromDisk pindexOld with
    | none => .ok (false, cache)
    | some block => do
      let (res, cache) ← disconnectBlock block pindexOld cache (store.undoReadFromDisk pindexOld)
      .ok (res != .failed, cache)
  else .ok (true, cache)

/-- The loop `while (pindexOld != pindexFork)`, with a bound on its steps. -/
def rollback (store : ChainStore) (pindexFork : Option CBlockIndex) :
    Nat → Option CBlockIndex → CCoinsViewCache → Except CoinsError (Bool × CCoinsViewCache)
  | steps, pindexOld, cache =>
    if pindexOld = pindexFork then .ok (true, cache)
    else
      match steps, pindexOld with
      | steps + 1, some pindex => do
        let (done, cache) ← rollbackBlock store pindex cache
        if done then rollback store pindexFork steps (store.pprev pindex) cache
        else .ok (false, cache)
      | _, _ => .error (.assertFailed "pindexOld")

/-! ## `ReplayBlocks` -/

/-- The heights that are rolled forward: `nForkHeight + 1` up to the new tip,
    with `nForkHeight = 0` when there is no fork block. -/
def replayHeights (pindexFork : Option CBlockIndex) (pindexNew : CBlockIndex) : List Nat :=
  let nForkHeight := (pindexFork.map CBlockIndex.nHeight).getD 0
  List.range' (nForkHeight + 1) (pindexNew.nHeight - nForkHeight)

/-- `ReplayBlocks` after the two tips and the fork are known. -/
def replayBranches (store : ChainStore) (d : CCoinsViewDB) (pindexOld pindexFork : Option CBlockIndex)
    (pindexNew : CBlockIndex) : Except CoinsError (Bool × CCoinsView) := do
  let steps := (pindexOld.map CBlockIndex.nHeight).getD 0
  let (done, cache) ← rollback store pindexFork steps pindexOld (CCoinsViewCache.new (.db d))
  if !done then .ok (false, .db d)
  else
    let (done, cache) ← rollforward store pindexNew (replayHeights pindexFork pindexNew) cache
    if !done then .ok (false, .db d)
    else
      let cache ← (cache.setBestBlock pindexNew.hash).flush
      .ok (true, cache.base)

/-- `ReplayBlocks` on the database view: the result and the database after it. -/
def replayBlocks (store : ChainStore) (d : CCoinsViewDB) : Except CoinsError (Bool × CCoinsView) :=
  match d.headBlocks with
  | [] => .ok (true, .db d)
  | [head, tail] =>
    match store.mapBlockIndex head with
    | none => .ok (false, .db d)
    | some pindexNew =>
      -- the old tip may be null: then this was the first flush
      if tail = 0 then replayBranches store d none none pindexNew
      else
        match store.mapBlockIndex tail with
        | none => .ok (false, .db d)
        | some pindexOld =>
          match store.lastCommonAncestor pindexOld pindexNew with
          | none => .error (.assertFailed "pindexFork != nullptr")
          | some pindexFork => replayBranches store d (some pindexOld) (some pindexFork) pindexNew
  | _ => .ok (false, .db d)

/-! ## Rolling forward is a list of writes -/

variable {c : CCoinsViewCache}

theorem respendInputs_spec (hc : c.Coherent) (prevouts : List COutPoint) :
    (respendInputs c prevouts).Coherent ∧ c.Frame (respendInputs c prevouts) ∧
      (respendInputs c prevouts).coinAt = writes c.coinAt (spendWrites prevouts) := by
  induction prevouts generalizing c with
  | nil => exact ⟨hc, .refl _, rfl⟩
  | cons o rest ih =>
    obtain ⟨hat, hcoh, -⟩ := spendCoin_spec hc o
    have hframe := spendCoin_frame hc o
    obtain ⟨hcoh', hframe', hat'⟩ := ih hcoh
    refine ⟨hcoh', hframe.trans hframe', ?_⟩
    have hcons : (respendInputs c (o :: rest)).coinAt =
        writes (c.spendCoin o).2.coinAt (spendWrites rest) := hat'
    rw [hcons, hat]
    rfl

variable {tx : CTransaction}

theorem addCoins_check_ok (nHeight : Nat) {outs : List CTxOut}
    (hout : ∀ txout ∈ outs, txout.isNull = false) (hc : c.Coherent) (i : Nat) :
    ∃ c', addCoins.go tx nHeight true c i outs = .ok c' := by
  induction outs generalizing c i with
  | nil => exact ⟨c, rfl⟩
  | cons txout rest ih =>
    obtain ⟨hhave, hfetch⟩ := haveCoin_spec hc.1 ⟨tx.hash, i⟩
    have hc1 := hfetch.sameCoins.coherent hc
    have hs : (tx.newCoin nHeight txout).isSpent = false := hout txout (mem_cons_self ..)
    -- `HaveCoin` tells whether this is an overwrite, so `AddCoin` has nothing to complain about
    have hadd : ∃ c2, (c.haveCoin ⟨tx.hash, i⟩).2.addCoin ⟨tx.hash, i⟩ (tx.newCoin nHeight txout)
        (c.haveCoin ⟨tx.hash, i⟩).1 = .ok c2 := by
      by_cases hu : txout.scriptPubKey.isUnspendable = true
      · refine ⟨(c.haveCoin ⟨tx.hash, i⟩).2, ?_⟩
        have hu' : (tx.newCoin nHeight txout).out.scriptPubKey.isUnspendable = true := hu
        rw [CCoinsViewCache.addCoin, if_neg (by simp [hs]), if_pos hu']
      · have haddable : (tx.newCoin nHeight txout).Addable := ⟨hs, Bool.not_eq_true _ ▸ hu⟩
        have hclean : (!(c.haveCoin ⟨tx.hash, i⟩).1) =
            ((c.haveCoin ⟨tx.hash, i⟩).2.coinAt ⟨tx.hash, i⟩).isNone := by
          rw [hfetch.coinAt, hhave]
          cases c.coinAt ⟨tx.hash, i⟩ <;> rfl
        obtain ⟨c2, hadd, -⟩ := addCoin_ok hc1 haddable hclean
        rw [Bool.not_not] at hadd
        exact ⟨c2, hadd⟩
    obtain ⟨c2, hadd⟩ := hadd
    have hc2 : c2.Coherent := by
      refine (addCoin_spec hc1 (fun hp hl => ?_) hadd).2.1
      have hnone : c.coinAt ⟨tx.hash, i⟩ = none := by
        rw [hp] at hhave
        exact not_isSome_iff_eq_none.mp (by rw [← hhave]; decide)
      exact noneBelow_of_coinAt (hfetch.coinAt ▸ hnone) hl
    obtain ⟨c', hrest⟩ := ih (fun txout' hmem => hout txout' (mem_cons_of_mem _ hmem)) hc2 (i + 1)
    refine ⟨c', ?_⟩
    have hadd' : (c.haveCoin ⟨tx.hash, i⟩).2.addCoin ⟨tx.hash, i⟩ ⟨txout, nHeight, tx.isCoinBase⟩
        (c.haveCoin ⟨tx.hash, i⟩).1 = .ok c2 := hadd
    simp only [addCoins.go, if_true, hadd', hrest]

theorem rollforwardTx_spec (nHeight : Nat) (hout : ∀ txout ∈ tx.vout, txout.isNull = false)
    (hc : c.Coherent) : ∃ c', rollforwardTx nHeight c tx = .ok c' ∧ c'.Coherent ∧ c.Frame c' ∧
      c'.coinAt = writes c.coinAt (txWrites nHeight tx) := by
  obtain ⟨c1, hc1, hcoh, hframe, hat⟩ : ∃ c1,
      (if tx.isCoinBase then c else respendInputs c tx.prevouts) = c1 ∧ c1.Coherent ∧
        c.Frame c1 ∧ c1.coinAt =
          writes c.coinAt (if tx.isCoinBase then [] else spendWrites tx.prevouts) := by
    cases tx.isCoinBase with
    | true => exact ⟨_, rfl, hc, .refl _, rfl⟩
    | false =>
      obtain ⟨hcoh, hframe, hat⟩ := respendInputs_spec hc tx.prevouts
      exact ⟨_, rfl, hcoh, hframe, hat⟩
  obtain ⟨c2, hadd⟩ := addCoins_check_ok nHeight hout hcoh 0
  have hadd' : c1.addCoins tx nHeight true = .ok c2 := hadd
  obtain ⟨hcoh', hat', hframe'⟩ := addCoins_spec hcoh (fun h => Bool.noConfusion h) hadd'
  refine ⟨c2, ?_, hcoh', hframe.trans hframe', ?_⟩
  · rw [rollforwardTx, hc1]
    exact hadd
  · rw [hat', hat, txWrites, writes_append]

theorem rollforwardTxs_spec (nHeight : Nat) {txs : List CTransaction}
    (hout : ∀ tx ∈ txs, ∀ txout ∈ tx.vout, txout.isNull = false) (hc : c.Coherent) :
    ∃ c', rollforwardTxs nHeight c txs = .ok c' ∧ c'.Coherent ∧ c.Frame c' ∧
      c'.coinAt = writes c.coinAt (txsWrites nHeight txs) := by
  induction txs generalizing c with
  | nil => exact ⟨c, rfl, hc, .refl _, rfl⟩
  | cons tx rest ih =>
    obtain ⟨c1, he, hcoh, hframe, hat⟩ :=
      rollforwardTx_spec nHeight (hout tx (mem_cons_self ..)) hc
    obtain ⟨c', he', hcoh', hframe', hat'⟩ :=
      ih (fun tx' hmem => hout tx' (mem_cons_of_mem _ hmem)) hcoh
    refine ⟨c', ?_, hcoh', hframe.trans hframe', ?_⟩
    · rw [rollforwardTxs, he]
      exact he'
    · rw [hat', hat, txsWrites_cons, writes_append]

/-! ## Rolling back is a list of writes -/

/-- The writes that put the inputs of a transaction back, last input first. -/
def restoreWrites (inputs : List (COutPoint × Coin)) : List (Write COutPoint Coin) :=
  (inputs.map fun x => (x.1, some x.2)).reverse

theorem restoreWrites_cons (x : COutPoint × Coin) (rest : List (COutPoint × Coin)) :
    restoreWrites (x :: rest) = restoreWrites rest ++ [(x.1, some x.2)] := by
  rw [restoreWrites, map_cons, reverse_cons]
  rfl

/-- What a transaction does to the coins when it is disconnected. -/
def undoTxWrites (nHeight : Nat) (tx : CTransaction) (txundo : Option CTxUndo) :
    List (Write COutPoint Coin) :=
  deletes ((addWrites tx nHeight).map Prod.fst) ++
    restoreWrites (tx.prevouts.zip (txundo.getD []))

/-- The transactions of a block are disconnected last one first. -/
def undoTxsWrites (nHeight : Nat) : List (CTransaction × Option CTxUndo) →
    List (Write COutPoint Coin)
  | [] => []
  | (tx, txundo) :: rest => undoTxsWrites nHeight rest ++ undoTxWrites nHeight tx txundo

/-- Whenever a record without a height is restored, some output of its
    transaction is there for `AccessByTxid` to find. -/
def RecordsFound : (COutPoint → Option Coin) → List (Write COutPoint Coin) → Prop
  | _, [] => True
  | m, w :: ws =>
    (∀ coin, w.2 = some coin → coin.nHeight = 0 → (Plain.accessByTxid m w.1.hash).isSome = true) ∧
      RecordsFound (write m w) ws

variable {m : COutPoint → Option Coin}

theorem recordsFound_append {ws ws' : List (Write COutPoint Coin)} :
    RecordsFound m (ws ++ ws') ↔ RecordsFound m ws ∧ RecordsFound (writes m ws) ws' := by
  induction ws generalizing m with
  | nil => exact ⟨fun h => ⟨trivial, h⟩, fun h => h.2⟩
  | cons w ws ih =>
    rw [cons_append, RecordsFound, RecordsFound, ih, writes_cons, and_assoc]

theorem recordsFound_deletes (m : COutPoint → Option Coin) (os : List COutPoint) :
    RecordsFound m (deletes os) := by
  induction os generalizing m with
  | nil => trivial
  | cons o os ih => exact ⟨fun _ h => (nomatch h), ih _⟩

/-- A property of the coins and their places that fixes what `AccessByTxid`
    reports: all outputs of a transaction of height 0 agree on height and
    coinbase flag. -/
def FixesGenesis (Q : COutPoint → Coin → Prop) : Prop :=
  ∀ o o' coin coin', Q o coin → Q o' coin' → o.hash = o'.hash → coin.nHeight = 0 →
    coin'.nHeight = 0 ∧ coin'.fCoinBase = coin.fCoinBase

/-- Every coin of the map has the property. -/
def AllCoins (Q : COutPoint → Coin → Prop) (m : COutPoint → Option Coin) : Prop :=
  ∀ o coin, m o = some coin → Q o coin

variable {Q : COutPoint → Coin → Prop}

theorem AllCoins.after (hm : AllCoins Q m) {ws : List (Write COutPoint Coin)}
    (hws : ∀ w ∈ ws, ∀ coin, w.2 = some coin → Q w.1 coin) : AllCoins Q (writes m ws) := by
  intro o coin h
  rcases writes_cases m ws o with heq | ⟨w, hw, rfl, heq⟩
  · exact hm o coin (heq ▸ h)
  · exact hws w hw coin (heq ▸ h)

namespace Plain

theorem undoCoin_eq (hQ : FixesGenesis Q) (hm : AllCoins Q m) {out : COutPoint} {undo : Coin}
    (hundo : Q out undo) : undoCoin m undo out =
      if undo.nHeight = 0 → (accessByTxid m out.hash).isSome = true then some undo else none := by
  unfold undoCoin
  by_cases hh : undo.nHeight = 0
  · rw [if_pos hh]
    cases ha : accessByTxid m out.hash with
    | none =>
      rw [if_neg fun h => (nomatch h hh)]
      rfl
    | some a =>
      obtain ⟨k, -, hk⟩ := accessByTxid_go_some ha
      obtain ⟨h1, h2⟩ := hQ out ⟨out.hash, k⟩ undo a hundo (hm _ _ hk) rfl hh
      have hcond : undo.nHeight = 0 → (some a).isSome = true := fun _ => rfl
      rw [if_pos hcond, map_some, h1, h2, ← hh]
  · rw [if_neg hh, if_pos fun h => absurd h hh]

theorem restoreInputs_writes (hQ : FixesGenesis Q) (hm : AllCoins Q m)
    {inputs : List (COutPoint × Coin)} (hin : ∀ x ∈ inputs, Q x.1 x.2) (fClean : Bool) :
    (RecordsFound m (restoreWrites inputs) →
      ∃ clean, restoreInputs m inputs fClean = some (clean, writes m (restoreWrites inputs))) ∧
    (¬ RecordsFound m (restoreWrites inputs) → restoreInputs m inputs fClean = none) := by
  induction inputs with
  | nil => exact ⟨fun _ => ⟨fClean, rfl⟩, fun h => absurd trivial h⟩
  | cons x rest ih =>
    obtain ⟨out, undo⟩ := x
    obtain ⟨hyes, hnot⟩ := ih fun x hx => hin x (mem_cons_of_mem _ hx)
    have hm' : AllCoins Q (writes m (restoreWrites rest)) := by
      refine hm.after fun w hw coin hcoin => ?_
      obtain ⟨x, hx, rfl⟩ := List.mem_map.mp (mem_reverse.mp hw)
      cases hcoin
      exact hin x (mem_cons_of_mem _ hx)
    have hundo := undoCoin_eq hQ hm' (hin (out, undo) (mem_cons_self ..))
    rw [restoreWrites_cons, recordsFound_append, writes_append]
    unfold restoreInputs
    refine ⟨fun hfound => ?_, fun hfound => ?_⟩
    · obtain ⟨clean, he⟩ := hyes hfound.1
      rw [he, bind_some, hundo, if_pos (hfound.2.1 undo rfl)]
      exact ⟨_, rfl⟩
    · by_cases hrest : RecordsFound m (restoreWrites rest)
      · obtain ⟨clean, he⟩ := hyes hrest
        rw [he, bind_some, hundo, if_neg]
        · rfl
        · intro hone
          refine hfound ⟨hrest, fun coin hcoin => ?_, trivial⟩
          cases hcoin
          exact hone
      · rw [hnot hrest, bind_none]

/-- The length that `DisconnectBlock` compares, and records with the property. -/
structure RecordsOk (Q : COutPoint → Coin → Prop) (tx : CTransaction) (txundo : Option CTxUndo) :
    Prop where
  length : ∀ vprevout, txundo = some vprevout → vprevout.length = tx.vin.length
  coins : ∀ x ∈ tx.prevouts.zip (txundo.getD []), Q x.1 x.2

variable {txundo : Option CTxUndo}

theorem mem_undoTxWrites {nHeight : Nat} (hr : RecordsOk Q tx txundo) {w : Write COutPoint Coin}
    (hw : w ∈ undoTxWrites nHeight tx txundo) {coin : Coin} (hcoin : w.2 = some coin) :
    Q w.1 coin := by
  rcases mem_append.mp hw with hdel | hres
  · obtain ⟨o, -, rfl⟩ := List.mem_map.mp hdel
    cases hcoin
  · obtain ⟨x, hx, rfl⟩ := List.mem_map.mp (mem_reverse.mp hres)
    cases hcoin
    exact hr.coins x hx

theorem disconnectTx_writes (hQ : FixesGenesis Q) (nHeight : Nat) (hm : AllCoins Q m)
    (hr : RecordsOk Q tx txundo) (fClean : Bool) :
    (RecordsFound m (undoTxWrites nHeight tx txundo) →
      ∃ clean, disconnectTx nHeight tx txundo fClean m =
        some (clean, writes m (undoTxWrites nHeight tx txundo))) ∧
    (¬ RecordsFound m (undoTxWrites nHeight tx txundo) →
      disconnectTx nHeight tx txundo fClean m = none) := by
  have hdel : AllCoins Q (writes m (deletes ((addWrites tx nHeight).map Prod.fst))) := by
    refine hm.after fun w hw coin hcoin => ?_
    obtain ⟨o, -, rfl⟩ := List.mem_map.mp hw
    cases hcoin
  obtain ⟨hyes, hnot⟩ := restoreInputs_writes hQ hdel hr.coins
    (fClean && outputsMatch m (addWrites tx nHeight))
  rw [undoTxWrites, recordsFound_append, writes_append]
  unfold disconnectTx
  cases txundo with
  | none =>
    have hnil : restoreWrites (tx.prevouts.zip ((none : Option CTxUndo).getD [])) = [] := by
      rw [getD_none, zip_nil_right]
      rfl
    rw [hnil]
    exact ⟨fun _ => ⟨_, rfl⟩, fun h => absurd ⟨recordsFound_deletes _ _, trivial⟩ h⟩
  | some vprevout =>
    have hlen : (vprevout.length != tx.vin.length) = false := by
      rw [hr.length vprevout rfl]
      exact bne_self_eq_false _
    simp only [hlen, Bool.false_eq_true, if_false]
    exact ⟨fun h => hyes h.2, fun h => hnot fun hres => h ⟨recordsFound_deletes _ _, hres⟩⟩

theorem disconnectTxs_writes (hQ : FixesGenesis Q) (nHeight : Nat) (hm : AllCoins Q m)
    {txs : List (CTransaction × Option CTxUndo)} (hr : ∀ x ∈ txs, RecordsOk Q x.1 x.2) :
    (RecordsFound m (undoTxsWrites nHeight txs) →
      ∃ clean, disconnectTxs nHeight m txs = some (clean, writes m (undoTxsWrites nHeight txs))) ∧
    (¬ RecordsFound m (undoTxsWrites nHeight txs) → disconnectTxs nHeight m txs = none) ∧
    AllCoins Q (writes m (undoTxsWrites nHeight txs)) := by
  induction txs with
  | nil => exact ⟨fun _ => ⟨true, rfl⟩, fun h => absurd trivial h, hm⟩
  | cons x rest ih =>
    obtain ⟨tx, txundo⟩ := x
    obtain ⟨hyes, hnot, hm'⟩ := ih fun x hx => hr x (mem_cons_of_mem _ hx)
    have hrtx := hr (tx, txundo) (mem_cons_self ..)
    rw [undoTxsWrites, recordsFound_append, writes_append]
    unfold disconnectTxs
    refine ⟨fun hfound => ?_, fun hfound => ?_, ?_⟩
    · obtain ⟨clean, he⟩ := hyes hfound.1
      rw [he, bind_some]
      exact (disconnectTx_writes hQ nHeight hm' hrtx clean).1 hfound.2
    · by_cases hrest : RecordsFound m (undoTxsWrites nHeight rest)
      · obtain ⟨clean, he⟩ := hyes hrest
        rw [he, bind_some]
        exact (disconnectTx_writes hQ nHeight hm' hrtx clean).2 fun h => hfound ⟨hrest, h⟩
      · rw [hnot hrest, bind_none]
    · exact hm'.after fun w hw coin hcoin => mem_undoTxWrites hrtx hw hcoin

end Plain

end Rcoin
