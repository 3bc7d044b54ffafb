/-
  A whole stack of caches over the database, driven by calls on any of its
  layers.  `CCoinsView.run` performs the calls; `plainRun` performs the same
  adds and spends on one finite map.  The two agree after every legal run.
-/
import Rcoin.Coins.BatchWrite

namespace Rcoin

open Maps

/-! ## Calls and runs -/

/-- A call of a method of one layer. -/
inductive CoinsCall where
  | addCoin (o : COutPoint) (coin : Coin) (possible_overwrite : Bool)
  | spendCoin (o : COutPoint)
  | getCoin (o : COutPoint)
  | haveCoin (o : COutPoint)
  | accessCoin (o : COutPoint)
  | uncache (o : COutPoint)
  | setBestBlock (hash : Uint256)
  | getBestBlock
  | flush
  | batchWrite (mapCoins : CCoinsMap) (hashBlock : Uint256)

def CCoinsViewCache.call (c : CCoinsViewCache) : CoinsCall → Except CoinsError CCoinsViewCache
  | .addCoin o coin possible_overwrite => c.addCoin o coin possible_overwrite
  | .spendCoin o => .ok (c.spendCoin o).2
  | .getCoin o => .ok (c.getCoin o).2
  | .haveCoin o => .ok (c.haveCoin o).2
  | .accessCoin o => .ok (c.accessCoin o).2
  | .uncache o => .ok (c.uncache o)
  | .setBestBlock hash => .ok (c.setBestBlock hash)
  | .getBestBlock => .ok c.getBestBlock.2
  | .flush => c.flush
  | .batchWrite mapCoins hashBlock =>
    match CCoinsViewCache.batchWriteLoop c.cacheCoins mapCoins.entries with
    | .error err => .error err
    | .ok m' => .ok { c with hashBlock := hashBlock, cacheCoins := m' }

/-- The call on the layer `depth` layers below the top. -/
def CCoinsView.callAt : CCoinsView → Nat → CoinsCall → Except CoinsError CCoinsView
  | .db _, _, _ => .error (.assertFailed "no cache layer at this depth")
  | .cache h m base, 0, call =>
    match CCoinsViewCache.call ⟨h, m, base⟩ call with
    | .error err => .error err
    | .ok c' => .ok c'.toView
  | .cache h m base, depth + 1, call =>
    match base.callAt depth call with
    | .error err => .error err
    | .ok base' => .ok (.cache h m base')

/-- What happens to a stack: a new cache is put on top, an emptied one is taken
    off again, or some layer is called. -/
inductive StackEvent where
  | push
  | pop
  | call (depth : Nat) (c : CoinsCall)

def CCoinsView.step (v : CCoinsView) : StackEvent → Except CoinsError CCoinsView
  | .push => .ok (CCoinsViewCache.new v).toView
  | .pop =>
    match v with
    | .db d => .ok (.db d)
    | .cache _ _ base => .ok base
  | .call depth c => v.callAt depth c

def CCoinsView.run (v : CCoinsView) : List StackEvent → Except CoinsError CCoinsView
  | [] => .ok v
  | ev :: rest =>
    match v.step ev with
    | .error err => .error err
    | .ok v' => v'.run rest

/-! ## The plain map -/

/-- The adds and spends of a call; an unspendable output is never added. -/
def CoinsCall.coinWrites : CoinsCall → List (Write COutPoint Coin)
  | .addCoin o coin _ => if coin.out.scriptPubKey.isUnspendable then [] else [(o, some coin)]
  | .spendCoin o => [(o, none)]
  | .batchWrite mapCoins _ => dirtyWrites mapCoins.entries
  | _ => []

def StackEvent.coinWrites : StackEvent → List (Write COutPoint Coin)
  | .call _ c => c.coinWrites
  | _ => []

/-- The same adds and spends on one finite map, without layers or flags. -/
def plainRun (m : AList fun _ : COutPoint => Coin) (events : List StackEvent) :
    AList fun _ : COutPoint => Coin :=
  events.foldl (fun m ev => puts m ev.coinWrites) m

/-! ## Legal calls -/

/-- What the caller of a layer promises: `possible_overwrite` is false only when
    no coin is seen below the layer, and a map given to `BatchWrite` carries
    flags that are right about the layer it is written to. -/
def CoinsCall.LegalOn (c : CCoinsViewCache) : CoinsCall → Prop
  | .addCoin o _ possible_overwrite => possible_overwrite = false → c.base.coinAt o = none
  | .batchWrite mapCoins _ => ∀ o e, mapCoins.lookup o = some e → e.Ok (c.coinAt o)
  | _ => True

/-- A layer is updated only where no layer above it has an entry of its own. -/
def CCoinsView.LegalAt : CCoinsView → Nat → CoinsCall → Prop
  | .db _, _, _ => True
  | .cache h m base, 0, call => call.LegalOn ⟨h, m, base⟩
  | .cache _ m base, depth + 1, call =>
    (∀ w ∈ call.coinWrites, m.lookup w.1 = none) ∧ base.LegalAt depth call

def CCoinsView.Legal (v : CCoinsView) : StackEvent → Prop
  | .push => True
  | .pop =>
    match v with
    | .db _ => True
    | .cache _ m _ => m = ∅
  | .call depth c => v.LegalAt depth c

/-- Every event of the run is legal in the state in which it happens. -/
def CCoinsView.LegalRun (v : CCoinsView) : List StackEvent → Prop
  | [] => True
  | ev :: rest => v.Legal ev ∧ ∀ v', v.step ev = .ok v' → v'.LegalRun rest

/-! ## One call -/

theorem CCoinsViewCache.batchWriteCall_spec {c c' : CCoinsViewCache} (hc : c.Coherent)
    {mapCoins : CCoinsMap} {hashBlock : Uint256}
    (hm : ∀ o e, mapCoins.lookup o = some e → e.Ok (c.coinAt o))
    (h : c.call (.batchWrite mapCoins hashBlock) = .ok c') :
    c'.coinAt = writes c.coinAt (dirtyWrites mapCoins.entries) ∧ c'.Coherent := by
  have hview : c.toView.batchWrite mapCoins hashBlock = .ok c'.toView := by
    simp only [call] at h
    simp only [CCoinsView.batchWrite, toView]
    cases hl : batchWriteLoop c.cacheCoins mapCoins.entries with
    | error err => rw [hl] at h; cases h
    | ok m' => rw [hl] at h; cases h; rfl
  exact CCoinsView.batchWrite_spec hc hm hview

variable {call : CoinsCall}

theorem CCoinsViewCache.call_spec {c c' : CCoinsViewCache} (hc : c.Coherent) (hl : call.LegalOn c)
    (h : c.call call = .ok c') : c'.coinAt = writes c.coinAt call.coinWrites ∧ c'.Coherent := by
  have of_same : ∀ {c'' : CCoinsViewCache}, c.SameCoins c'' →
      c''.coinAt = writes c.coinAt [] ∧ c''.Coherent :=
    fun hs => ⟨hs.coinAt, hs.coherent hc⟩
  cases call with
  | addCoin o coin possible_overwrite =>
    obtain ⟨hat, hcoh, -⟩ := addCoin_spec hc (fun hp _ => hl hp) h
    refine ⟨?_, hcoh⟩
    rw [hat, addedCoin, CoinsCall.coinWrites]
    split <;> rfl
  | spendCoin o =>
    cases h
    obtain ⟨hat, hcoh, -⟩ := spendCoin_spec hc o
    exact ⟨hat, hcoh⟩
  | getCoin o => cases h; exact of_same (getCoin_spec hc.1 o).2.sameCoins
  | haveCoin o => cases h; exact of_same (haveCoin_spec hc.1 o).2.sameCoins
  | accessCoin o => cases h; exact of_same (accessCoin_spec hc.1 o).2.sameCoins
  | uncache o => cases h; exact of_same (uncache_spec hc o)
  | setBestBlock hash => cases h; exact ⟨rfl, hc⟩
  | getBestBlock => cases h; exact of_same (getBestBlock_sameCoins c)
  | flush => exact of_same (flush_spec hc h).1
  | batchWrite mapCoins hashBlock => exact batchWriteCall_spec hc hl h

variable {m : CCoinsMap} {ws : List (Write COutPoint Coin)} {h : Uint256}

theorem CCoinsView.coinAt_cache_writes {b b' : CCoinsView} (hws : ∀ w ∈ ws, m.lookup w.1 = none)
    (hb : b'.coinAt = writes b.coinAt ws) :
    (CCoinsView.cache h m b').coinAt = writes (CCoinsView.cache h m b).coinAt ws := by
  funext o
  cases he : m.lookup o with
  | none =>
    rw [coinAt_cache_of_not_mem he, hb]
    exact writes_congr_at _ _ ws o (coinAt_cache_of_not_mem he).symm
  | some e =>
    rw [coinAt_cache_of_lookup he, writes_of_forall_ne, coinAt_cache_of_lookup he]
    rintro w hw rfl
    rw [hws w hw] at he
    cases he

theorem CCoinsView.Coherent.writes_base {b b' : CCoinsView} (hv : (CCoinsView.cache h m b).Coherent)
    (hws : ∀ w ∈ ws, m.lookup w.1 = none) (hb : b'.coinAt = writes b.coinAt ws) (hc : b'.Coherent)
    : (CCoinsView.cache h m b').Coherent := by
  refine ⟨hc, fun o e he => ?_⟩
  rw [hb, writes_of_forall_ne]
  · exact hv.2 o e he
  · rintro w hw rfl
    rw [hws w hw] at he
    cases he

variable {v v' : CCoinsView}

theorem CCoinsView.callAt_spec {depth : Nat} (hv : v.Coherent) (hl : v.LegalAt depth call)
    (h : v.callAt depth call = .ok v') :
    v'.coinAt = writes v.coinAt call.coinWrites ∧ v'.Coherent := by
  induction v generalizing depth v' with
  | db d => simp only [callAt] at h; cases h
  | cache hb m base ih =>
    cases depth with
    | zero =>
      simp only [callAt] at h
      cases hcall : CCoinsViewCache.call ⟨hb, m, base⟩ call with
      | error err => rw [hcall] at h; cases h
      | ok c' =>
        rw [hcall] at h
        cases h
        exact CCoinsViewCache.call_spec (c := ⟨hb, m, base⟩) hv hl hcall
    | succ depth =>
      simp only [callAt] at h
      obtain ⟨hno, hl'⟩ := hl
      cases hcall : base.callAt depth call with
      | error err => rw [hcall] at h; cases h
      | ok base' =>
        rw [hcall] at h
        cases h
        obtain ⟨hat, hcoh⟩ := ih hv.1 hl' hcall
        exact ⟨coinAt_cache_writes hno hat, hv.writes_base hno hat hcoh⟩

/-! ## Whole runs -/

variable {ev : StackEvent}

theorem CCoinsView.step_spec (hv : v.Coherent) (hl : v.Legal ev) (h : v.step ev = .ok v') :
    v'.coinAt = writes v.coinAt ev.coinWrites ∧ v'.Coherent := by
  have hempty : ∀ (h : Uint256) (b : CCoinsView), (CCoinsView.cache h ∅ b).coinAt = b.coinAt :=
    fun h b => funext fun o => coinAt_cache_of_not_mem (AList.lookup_empty o)
  cases ev with
  | push =>
    cases h
    refine ⟨hempty 0 v, hv, fun o e he => ?_⟩
    cases he
  | pop =>
    cases v with
    | db d => cases h; exact ⟨rfl, hv⟩
    | cache hb m base =>
      cases h
      have hm : m = ∅ := hl
      subst hm
      exact ⟨(hempty hb v').symm, hv.1⟩
  | call depth c => exact callAt_spec hv hl h

theorem CCoinsView.run_spec {events : List StackEvent} {m : AList fun _ : COutPoint => Coin}
    (hv : v.Coherent) (hm : v.coinAt = m.lookup) (hl : v.LegalRun events)
    (h : v.run events = .ok v') : v'.coinAt = (plainRun m events).lookup ∧ v'.Coherent := by
  induction events generalizing v m with
  | nil => cases h; exact ⟨hm, hv⟩
  | cons ev rest ih =>
    obtain ⟨hlev, hlrest⟩ := hl
    simp only [run] at h
    cases hs : v.step ev with
    | error err => rw [hs] at h; cases h
    | ok v1 =>
      rw [hs] at h
      obtain ⟨hat, hcoh⟩ := step_spec hv hlev hs
      have hm1 : v1.coinAt = (puts m ev.coinWrites).lookup := by rw [hat, hm, lookup_puts]
      exact ih hcoh hm1 (hlrest v1 hs) h

/-! ## Flushing every layer -/

/-- The number of cache layers. -/
def CCoinsView.depth : CCoinsView → Nat
  | .db _ => 0
  | .cache _ _ base => base.depth + 1

/-- The database under all layers. -/
def CCoinsView.bottom : CCoinsView → CCoinsViewDB
  | .db d => d
  | .cache _ _ base => base.bottom

/-- `Flush` on every layer, the top one first. -/
def flushEvents (depth : Nat) : List StackEvent :=
  (List.range depth).map fun k => .call k .flush

/-- The `k` topmost layers hold no entries. -/
def CCoinsView.EmptyAbove : CCoinsView → Nat → Prop
  | _, 0 => True
  | .db _, _ + 1 => True
  | .cache _ m base, k + 1 => m = ∅ ∧ base.EmptyAbove k

theorem CCoinsView.coinAt_of_emptyAbove (h : v.EmptyAbove v.depth) :
    v.coinAt = v.bottom.coins.lookup := by
  induction v with
  | db d => rfl
  | cache hb m base ih =>
    obtain ⟨rfl, hb'⟩ := h
    rw [bottom, ← ih hb']
    exact funext fun o => coinAt_cache_of_not_mem (AList.lookup_empty o)

theorem CCoinsView.depth_batchWrite {hash : Uint256} (h : v.batchWrite m hash = .ok v')
    : v'.depth = v.depth := by
  cases v with
  | db d =>
    simp only [batchWrite] at h
    split at h <;> cases h
    rfl
  | cache hb mc base =>
    simp only [batchWrite] at h
    split at h <;> cases h
    rfl

theorem CCoinsView.callAt_flush {k : Nat} (h : v.callAt k .flush = .ok v') :
    v'.depth = v.depth ∧ (v.EmptyAbove k → v'.EmptyAbove (k + 1)) := by
  induction v generalizing k v' with
  | db d => simp only [callAt] at h; cases h
  | cache hb m base ih =>
    cases k with
    | zero =>
      simp only [callAt, CCoinsViewCache.call, CCoinsViewCache.flush] at h
      cases hbw : base.batchWrite m hb with
      | error err => rw [hbw] at h; cases h
      | ok base' =>
        rw [hbw] at h
        cases h
        exact ⟨congrArg (· + 1) (depth_batchWrite hbw), fun _ => ⟨rfl, by simp [EmptyAbove]⟩⟩
    | succ k =>
      simp only [callAt] at h
      cases hcall : base.callAt k .flush with
      | error err => rw [hcall] at h; cases h
      | ok base' =>
        rw [hcall] at h
        cases h
        obtain ⟨hd, he⟩ := ih hcall
        exact ⟨congrArg (· + 1) hd, fun hem => ⟨hem.1, he hem.2⟩⟩

theorem CCoinsView.legalRun_cons {v1 : CCoinsView} {rest : List StackEvent}
    (hs : v.step ev = .ok v1) (hl : v.Legal ev) (h : v1.LegalRun rest) :
    v.LegalRun (ev :: rest) := by
  refine ⟨hl, fun v' hv' => ?_⟩
  rw [hs] at hv'
  cases hv'
  exact h

theorem CCoinsView.run_append (v : CCoinsView) (evs evs' : List StackEvent) :
    v.run (evs ++ evs') =
      match v.run evs with
      | .error err => .error err
      | .ok v' => v'.run evs' := by
  induction evs generalizing v with
  | nil => rfl
  | cons ev rest ih =>
    simp only [List.cons_append, run]
    cases v.step ev with
    | error err => rfl
    | ok v1 => exact ih v1

theorem CCoinsView.run_flushEvents {k : Nat} (h : v.run (flushEvents k) = .ok v')
    : v'.depth = v.depth ∧ v'.EmptyAbove k := by
  induction k generalizing v' with
  | zero => cases h; exact ⟨rfl, by simp [EmptyAbove]⟩
  | succ k ih =>
    have hsplit : flushEvents (k + 1) = flushEvents k ++ [.call k .flush] := by
      simp [flushEvents, List.range_succ]
    rw [hsplit, run_append] at h
    cases hk : v.run (flushEvents k) with
    | error err => rw [hk] at h; cases h
    | ok v1 =>
      rw [hk] at h
      obtain ⟨hd1, he1⟩ := ih hk
      simp only [run, step] at h
      cases hf : v1.callAt k .flush with
      | error err => rw [hf] at h; cases h
      | ok v2 =>
        rw [hf] at h
        cases h
        obtain ⟨hd, he⟩ := callAt_flush hf
        exact ⟨hd.trans hd1, he he1⟩

theorem CCoinsView.legalRun_flushEvents (v : CCoinsView) (ks : List Nat) :
    v.LegalRun (ks.map fun k => .call k .flush) := by
  have hflush : ∀ (v : CCoinsView) (k : Nat), v.LegalAt k .flush := by
    intro v
    induction v with
    | db d => intro k; trivial
    | cache hb m base ih =>
      intro k
      cases k with
      | zero => trivial
      | succ k => exact ⟨fun w hw => (nomatch hw), ih k⟩
  induction ks generalizing v with
  | nil => trivial
  | cons k rest ih => exact ⟨hflush v k, fun v' _ => ih v'⟩

theorem plainRun_flushEvents (m : AList fun _ : COutPoint => Coin) (ks : List Nat) :
    plainRun m (ks.map fun k => .call k .flush) = m := by
  induction ks generalizing m with
  | nil => rfl
  | cons k rest ih => exact ih m

/-- `n` new caches over the database. -/
def CCoinsView.stackOn (d : CCoinsViewDB) : Nat → CCoinsView
  | 0 => .db d
  | n + 1 => (CCoinsViewCache.new (stackOn d n)).toView

theorem CCoinsView.stackOn_spec {d : CCoinsViewDB}
    (hd : ∀ o coin, d.coins.lookup o = some coin → coin.isSpent = false) (n : Nat) :
    (stackOn d n).Coherent ∧ (stackOn d n).coinAt = d.coins.lookup := by
  induction n with
  | zero => exact ⟨hd, rfl⟩
  | succ n ih =>
    refine ⟨⟨ih.1, fun o e he => ?_⟩, ?_⟩
    · rw [CCoinsViewCache.new, AList.lookup_empty] at he; cases he
    · rw [← ih.2]
      exact funext fun o => coinAt_cache_of_not_mem (AList.lookup_empty o)

/-- `GetCoin`, and at a cache `HaveCoin` and `AccessCoin`, answer what `m` holds. -/
def CCoinsView.Answers (v : CCoinsView) (m : AList fun _ : COutPoint => Coin) : Prop :=
  (∀ o, (v.getCoin o).1 = m.lookup o) ∧ ∀ c : CCoinsViewCache, v = c.toView → ∀ o,
    (c.haveCoin o).1 = (m.lookup o).isSome ∧ (c.accessCoin o).1.unspent? = m.lookup o

theorem CCoinsView.Coherent.answers {v : CCoinsView} {m : AList fun _ : COutPoint => Coin}
    (hcoh : v.Coherent) (hat : v.coinAt = m.lookup) : v.Answers m := by
  have hlookup (o : COutPoint) : v.coinAt o = m.lookup o := congrFun hat o
  refine ⟨fun o => (getCoin_spec hcoh o).1.trans (hlookup o), ?_⟩
  rintro c rfl o
  rw [← hlookup o]
  exact ⟨(CCoinsViewCache.haveCoin_spec hcoh.1 o).1, (CCoinsViewCache.accessCoin_spec hcoh.1 o).1⟩

/-- A stack of caches over a database of unspent coins behaves as one finite
    map: after every legal run the top layer shows the plain map and answers from
    it, and once every layer is flushed the database holds it. -/
theorem CCoinsView.run_refines_plainRun {d : CCoinsViewDB}
    (hd : ∀ o coin, d.coins.lookup o = some coin → coin.isSpent = false) (n : Nat)
    (events : List StackEvent) (hl : (stackOn d n).LegalRun events) {v : CCoinsView}
    (h : (stackOn d n).run events = .ok v) :
    v.coinAt = (plainRun d.coins events).lookup ∧ v.Answers (plainRun d.coins events) ∧
      ∀ v', v.run (flushEvents v.depth) = .ok v' →
        v'.bottom.coins.lookup = (plainRun d.coins events).lookup := by
  obtain ⟨hcoh0, hat0⟩ := stackOn_spec hd n
  obtain ⟨hat, hcoh⟩ := run_spec hcoh0 hat0 hl h
  refine ⟨hat, hcoh.answers hat, fun v' hv' => ?_⟩
  obtain ⟨hd', hempty⟩ := run_flushEvents hv'
  obtain ⟨hat', -⟩ := run_spec hcoh hat (legalRun_flushEvents v _) hv'
  rw [← coinAt_of_emptyAbove (hd' ▸ hempty), hat', plainRun_flushEvents]

/-! A run on two layers: a coin of the database is spent, another one is created
and both changes are flushed through the lower layer. -/

def sampleCoin (nHeight : Nat) : Coin :=
  { out := { nValue := 5 * COIN, scriptPubKey := [] }, nHeight := nHeight, fCoinBase := true }

def sampleDB : CCoinsViewDB :=
  { coins := AList.singleton ⟨1, 0⟩ (sampleCoin 1), bestBlock := 7, headBlocks := [] }

def sampleEvents : List StackEvent :=
  [.call 0 (.spendCoin ⟨1, 0⟩), .call 0 (.addCoin ⟨2, 0⟩ (sampleCoin 2) false),
    .call 0 (.setBestBlock 8), .call 0 .flush, .call 1 (.haveCoin ⟨1, 0⟩)]

theorem sampleDB_unspent (o : COutPoint) (coin : Coin)
    (h : sampleDB.coins.lookup o = some coin) : coin.isSpent = false := by
  have hmem := lookup_eq_some_iff_mem.mp h
  have heq : (⟨o, coin⟩ : Sigma fun _ : COutPoint => Coin) = ⟨⟨1, 0⟩, sampleCoin 1⟩ := by
    simpa [sampleDB, AList.singleton] using hmem
  cases heq
  rfl

theorem CCoinsView.run_refines_plainRun_sample :
    ∃ v, (stackOn sampleDB 2).run sampleEvents = .ok v ∧
      v.coinAt = (plainRun sampleDB.coins sampleEvents).lookup ∧ v.coinAt ⟨1, 0⟩ = none := by
  have hl : (stackOn sampleDB 2).LegalRun sampleEvents :=
    legalRun_cons rfl trivial <|
      legalRun_cons rfl (fun _ => rfl) <|
        legalRun_cons rfl trivial <|
          legalRun_cons rfl trivial <|
            legalRun_cons rfl ⟨fun _ hw => (nomatch hw), trivial⟩ trivial
  exact ⟨_, rfl, (run_refines_plainRun sampleDB_unspent 2 sampleEvents hl rfl).1, rfl⟩

end Rcoin
