/-
  Runs of the pool in which transactions are accepted, some of them in the place of others, and
  what holds of every replacement.  A replacement pays for what it evicts and for itself, and
  evicts none of its ancestors.  But the check against new unconfirmed inputs compares
  transactions, not outputs: it misses a fresh output of a parent of a direct conflict.  And the
  sums of fees have to fit into 64 bits.

  Source: AcceptToMemoryPoolWorker in src/validation.cpp.
-/
import Rcoin.Mempool.Reorg
import Rcoin.Mempool.Replacement

namespace Rcoin

open Relation CTxMemPool CTxMemPoolEntry

section

variable {env : AcceptEnv} {pool pool' : CTxMemPool} {call : AcceptCall} {ws : Workspace}

/-! ## One transaction -/

theorem isAncestor_removed {tx : CTransaction} {D : SetEntries} {a : Uint256 → AncestorTotals}
    {d : Uint256 → DescendantTotals} (h : Removed env.toMempoolEnv pool pool' D a d)
    (hlinks : LinksInputs pool) (hkept : ∀ x, pool.IsAncestor x tx → x ∉ D) (x : Uint256) :
    pool'.IsAncestor x tx ↔ pool.IsAncestor x tx := by
  have hspends : ∀ p c, pool'.SpendsFrom p c ↔ pool.SpendsFrom p c ∧ p ∉ D ∧ c ∉ D := by
    intro p c
    rw [← h.linksInputs hlinks, h.parent, hlinks]
  constructor
  · rintro ⟨p, hreach, hmem, hspent⟩
    have hbefore := ReflTransGen.mono (fun b c hbc => ((hspends b c).mp hbc).1) _ _ hreach
    exact ⟨p, hbefore, (h.mem_mapTx.mp hmem).1, hspent⟩
  · rintro ⟨p, hreach, hmem, hspent⟩
    refine ⟨p, ?_, h.mem_mapTx.mpr ⟨hmem, hkept p ⟨p, .refl, hmem, hspent⟩⟩, hspent⟩
    induction hreach using ReflTransGen.head_induction_on with
    | refl => exact .refl
    | head hbc hreach ih =>
      -- both ends of the step are ancestors
      refine .head ((hspends _ _).mpr ⟨hbc, hkept _ ?_, hkept _ ?_⟩) ih
      · exact ⟨p, .head hbc hreach, hmem, hspent⟩
      · exact ⟨p, hreach, hmem, hspent⟩

theorem PreChecked.removeStaged_spec (hc : PreChecked env pool call ws) (h : Good env.toMempoolEnv pool)
    (hr : env.removeStaged ws.allConflicting false pool = some pool') :
    Removed env.toMempoolEnv pool pool' ws.allConflicting 0
        (fun k => ∑ r ∈ ws.allConflicting.toFinset, descendantLoss env.toMempoolEnv pool r k) ∧
      Stored env.toMempoolEnv pool' ∧ Shrinks pool pool' ∧
      ∀ k, k ∈ pool'.mapTx ↔ k ∈ pool.mapTx ∧ ¬ pool.Evicted call.tx k := by
  have hrem := Rcoin.removeStaged_spec h.stored.hashes h.stored.tallied.links h.stored.sigOps hr
  have hclosed : ∀ p c, pool.Parent p c → p ∈ ws.allConflicting → c ∈ ws.allConflicting := by
    intro p c hpc hp
    obtain ⟨k, hk, hreach⟩ := (hc.evicted p).mp hp
    exact (hc.evicted c).mpr ⟨k, hk, hreach.tail ((h.links p c).mp hpc)⟩
  refine ⟨hrem, hrem.stored h.stored (hrem.tallied_of_descendants h.stored.tallied hclosed),
    hrem.shrinks, fun k => ?_⟩
  rw [hrem.mem_mapTx, hc.evicted]

theorem PreChecked.addLegal (hc : PreChecked env pool call ws) (h : Good env.toMempoolEnv pool)
    (hself : call.tx.hash ∉ call.tx.prevouts.map COutPoint.hash)
    (hchildren : ∀ c e, pool.mapTx.lookup c = some e →
      call.tx.hash ∉ e.tx.prevouts.map COutPoint.hash)
    (hr : env.removeStaged ws.allConflicting false pool = some pool') {nSigOpsCost : Int}
    (hsig : 0 ≤ nSigOpsCost ∧ nSigOpsCost < 2 ^ 31) :
    AddLegal pool' call.tx nSigOpsCost ws.setAncestors := by
  obtain ⟨hrem, hst, hshrink, hmem⟩ := hc.removeStaged_spec h hr
  refine ⟨fun hin => hc.new (hshrink.mem hin), hself, fun c e he => ?_, fun o ho => ?_, hsig,
    fun a => ?_⟩
  · obtain ⟨e0, he0, htx, -⟩ := hshrink.lookup c e he
    rw [htx]
    exact hchildren c e0 he0
  · by_contra hspent
    obtain ⟨t, ht⟩ := Option.ne_none_iff_exists'.mp hspent
    obtain ⟨e, he, rfl, ho'⟩ := (hst.mapNextTx o t).mp ht
    -- whoever spends the output is a direct conflict, and has gone
    obtain ⟨e0, he0, htx, -⟩ := hshrink.lookup _ e he
    have hconflict : pool.DirectConflict call.tx e.tx.hash := ⟨e0, he0, o, ho, htx ▸ ho'⟩
    exact ((hmem _).mp (mem_mapTx_iff.mpr ⟨e, he⟩)).2 ⟨_, hconflict, .refl⟩
  · rw [hc.ancestors, isAncestor_removed hrem h.links]
    exact fun x hx hxD => hc.not_evicted hx ((hc.evicted x).mp hxD)

theorem limitMempoolSize_good (h : Good env.toMempoolEnv pool)
    (hr : env.limitMempoolSize pool = some pool') :
    Good env.toMempoolEnv pool' ∧ Shrinks pool pool' := by
  obtain ⟨p, hp, hr⟩ := Option.bind_eq_some_iff.mp hr
  obtain ⟨hgood, hshrink⟩ := expire_good h hp
  obtain ⟨hgood', hshrink', -⟩ := trimLoop_good hgood (le_refl _) hr
  exact ⟨hgood', hshrink.trans hshrink'⟩

theorem PreChecked.finalize_good (hc : PreChecked env pool call ws) (h : Good env.toMempoolEnv pool)
    (hself : call.tx.hash ∉ call.tx.prevouts.map COutPoint.hash)
    (hchildren : ∀ c e, pool.mapTx.lookup c = some e →
      call.tx.hash ∉ e.tx.prevouts.map COutPoint.hash)
    (hr : env.finalize pool call ws = some pool') :
    Good env.toMempoolEnv pool' ∧ ∀ k, pool.Evicted call.tx k → k ∉ pool'.mapTx := by
  obtain ⟨p1, h1, hr⟩ := Option.bind_eq_some_iff.mp hr
  obtain ⟨p2, h2, hr⟩ := Option.bind_eq_some_iff.mp hr
  obtain ⟨hrem, hst, hshrink, hmem⟩ := hc.removeStaged_spec h h1
  rw [hc.entry] at h2
  obtain ⟨hgood, hin⟩ := addUnchecked_good ⟨hst, hrem.linksInputs h.links, hshrink.deltasOk h.deltas⟩
    (hc.addLegal h hself hchildren h1 ⟨Int.natCast_nonneg _, hc.sigOps⟩) h2
  have hgone : ∀ k, pool.Evicted call.tx k → k ∉ p2.mapTx := by
    intro k hk hk2
    rcases (hin k).mp hk2 with rfl | hk1
    · exact hc.new hk.mem_mapTx
    · exact ((hmem k).mp hk1).2 hk
  split at hr
  · cases hr
    exact ⟨hgood, hgone⟩
  · obtain ⟨hgood', hshrink'⟩ := limitMempoolSize_good hgood hr
    exact ⟨hgood', fun k hk hk' => hgone k hk (hshrink'.mem hk')⟩

theorem acceptToMemoryPoolWorker_fst (env : AcceptEnv) (pool : CTxMemPool) (call : AcceptCall) :
    (env.acceptToMemoryPoolWorker pool call).1 = pool ∨ ∃ ws, env.preChecks pool call = .ok ws ∧
      env.finalize pool call ws = some (env.acceptToMemoryPoolWorker pool call).1 := by
  rw [AcceptEnv.acceptToMemoryPoolWorker]
  cases hpre : env.preChecks pool call with
  | error err => exact .inl rfl
  | ok ws =>
    dsimp only
    cases hfin : env.finalize pool call ws with
    | none => exact .inl rfl
    | some p =>
      refine .inr ⟨ws, rfl, ?_⟩
      dsimp only
      split <;> exact hfin

theorem acceptToMemoryPoolWorker_eq_ok
    (h : env.acceptToMemoryPoolWorker pool call = (pool', .ok ws)) :
    env.preChecks pool call = .ok ws ∧ env.finalize pool call ws = some pool' := by
  rw [AcceptEnv.acceptToMemoryPoolWorker] at h
  split at h
  · cases h
  next ws' hpre =>
    split at h
    · cases h
    next p hfin =>
      split at h
      · cases h
      · cases h
        exact ⟨hpre, hfin⟩

end

/-! ## Runs -/

/-- The pools of a node: what legal operations, the return of the transactions of disconnected
    blocks and transactions offered to the pool make of an empty pool.  A transaction on offer
    does not spend from itself, and none of the pool spends from it: its outputs were not there
    to be spent. -/
inductive PoolReached (env : MempoolEnv) : CTxMemPool → Prop
  | empty (mapDeltas : AList fun _ : Uint256 => Int) : PoolReached env (.empty mapDeltas)
  | step {pool pool' : CTxMemPool} (op : MempoolOp) (h : PoolReached env pool)
      (hlegal : MempoolEnv.Legal pool op) (hr : env.step pool op = some pool') :
      PoolReached env pool'
  | reorg {pool S pool' : CTxMemPool} (rs : List Resurrected) (h : PoolReached env pool)
      (hrs : Resurrectable pool rs) (hadd : rs.foldlM env.addResurrected pool = some S)
      (hr : env.updateTransactionsFromBlock (rs.map fun r => r.tx.hash) S = some pool') :
      PoolReached env pool'
  | accept {pool : CTxMemPool} (accepting : AcceptEnv) (call : AcceptCall)
      (h : PoolReached env pool) (henv : accepting.toMempoolEnv = env)
      (hself : call.tx.hash ∉ call.tx.prevouts.map COutPoint.hash)
      (hchildren : ∀ c e, pool.mapTx.lookup c = some e →
        call.tx.hash ∉ e.tx.prevouts.map COutPoint.hash) :
      PoolReached env (accepting.acceptToMemoryPoolWorker pool call).1

variable {pool : CTxMemPool}

theorem PoolReached.good {env : MempoolEnv} (h : PoolReached env pool) : Good env pool := by
  induction h with
  | empty mapDeltas => exact good_empty mapDeltas
  | step op h hlegal hr ih => exact step_good ih hlegal hr
  | reorg rs h hrs hadd hr ih => exact updateTransactionsFromBlock_good ih hrs hadd hr
  | accept accepting call h henv hself hchildren ih =>
    subst henv
    rcases acceptToMemoryPoolWorker_fst accepting _ call with heq | ⟨ws, hpre, hfin⟩
    · exact heq ▸ ih
    · exact ((preChecks_spec ih.stored ih.links hpre).finalize_good ih hself hchildren hfin).1

/-! ## The rules of a replacement -/

section

variable (env : AcceptEnv) (pool : CTxMemPool) (call : AcceptCall)

/-- What a replacement is to obey: the conflicts and all their descendants are what goes, at most
    a hundred; it pays the sum of their modified fees and for its own relay, at a higher fee rate
    than each direct conflict; a direct conflict spends each unconfirmed output that it spends;
    and none of its ancestors goes. -/
structure ReplacementRules (ws : Workspace) : Prop where
  removed : ∃ p, env.removeStaged ws.allConflicting false pool = some p ∧
    ∀ k, k ∈ p.mapTx ↔ k ∈ pool.mapTx ∧ ¬ pool.Evicted call.tx k
  evicted : ∀ k, k ∈ ws.allConflicting ↔ pool.Evicted call.tx k
  fees : ∑ k ∈ ws.allConflicting.toFinset, pool.modifiedFeeAt k +
    env.incrementalRelayFee.getFee (env.newSize pool call) ≤ env.modifiedFee pool call
  feeRate : ∀ c e, pool.DirectConflict call.tx c → pool.mapTx.lookup c = some e →
    (CFeeRate.ofFee e.getModifiedFee (env.getTxSize e)).nSatoshisPerK <
      (CFeeRate.ofFee (env.modifiedFee pool call) (env.newSize pool call)).nSatoshisPerK
  inputs : ∀ o ∈ call.tx.prevouts, o.hash ∈ pool.mapTx →
    ∃ c e, pool.DirectConflict call.tx c ∧ pool.mapTx.lookup c = some e ∧ o ∈ e.tx.prevouts
  ancestors : ∀ a, pool.IsAncestor a call.tx → ¬ pool.Evicted call.tx a
  count : ws.allConflicting.size ≤ 100

/-- The transaction is not refused: it is accepted, or an operation on fees overflows and the
    standard leaves open what happens. -/
def NotRefused : Prop :=
  ∀ err, (env.acceptToMemoryPoolWorker pool call).2 = .error err → err = .overflow

/-- Where a direct conflict has a parent in the pool, the outputs of the parent that the
    transaction spends are spent in the pool. -/
def NoFreshOutput (pool : CTxMemPool) (tx : CTransaction) : Prop :=
  ∀ c e, pool.DirectConflict tx c → pool.mapTx.lookup c = some e →
    ∀ p ∈ e.tx.prevouts, p.hash ∈ pool.mapTx →
      ∀ o ∈ tx.prevouts, o.hash = p.hash → o ∈ pool.mapNextTx

end

section

variable {env : AcceptEnv} {call : AcceptCall} {ws : Workspace}

theorem exists_conflict_iff (hst : Stored env.toMempoolEnv pool) {o : COutPoint}
    (ho : o ∈ call.tx.prevouts) : o ∈ pool.mapNextTx ↔
      ∃ c e, pool.DirectConflict call.tx c ∧ pool.mapTx.lookup c = some e ∧ o ∈ e.tx.prevouts := by
  constructor
  · intro hmem
    obtain ⟨t, ht⟩ := Option.isSome_iff_exists.mp (AList.lookup_isSome.mpr hmem)
    obtain ⟨e, he, rfl, hspent⟩ := (hst.mapNextTx o t).mp ht
    exact ⟨_, e, ⟨e, he, o, ho, hspent⟩, he, hspent⟩
  · rintro ⟨c, e, -, he, hspent⟩
    have hhash := hst.hashes c e he
    exact AList.lookup_isSome.mp (Option.isSome_iff_exists.mpr
      ⟨e.tx, (hst.mapNextTx o e.tx).mpr ⟨e, hhash.symm ▸ he, rfl, hspent⟩⟩)

/-- All the rules but the one about inputs hold of an accepted replacement, and that one where it
    takes no fresh output. -/
theorem rules_of_accepted {pool' : CTxMemPool} (hpool : Good env.toMempoolEnv pool)
    (haccept : env.acceptToMemoryPoolWorker pool call = (pool', .ok ws))
    (hreplaces : ∃ c, pool.DirectConflict call.tx c) : env.FeesFit pool call ∧
      (ReplacementRules env pool call ws ↔ NoFreshOutput pool call.tx) := by
  obtain ⟨hpre, hfin⟩ := acceptToMemoryPoolWorker_eq_ok haccept
  have hc := preChecks_spec hpool.stored hpool.links hpre
  have hok := hc.replacement hreplaces
  refine ⟨hc.fits hreplaces, fun hrules c e hconflict he p hp hmem o ho heq => ?_, fun hfresh => ?_⟩
  · exact (exists_conflict_iff hpool.stored ho).mpr (hrules.inputs o ho (heq ▸ hmem))
  · -- the eviction is the first step of what changes the pool
    rw [AcceptEnv.finalize] at hfin
    obtain ⟨p, hp, -⟩ := Option.bind_eq_some_iff.mp hfin
    obtain ⟨-, -, -, hmem⟩ := hc.removeStaged_spec hpool hp
    refine ⟨⟨p, hp, hmem⟩, hc.evicted, hok.fees, hok.feeRate, fun o ho hin => ?_,
      fun a ha => hc.not_evicted ha, hok.count⟩
    obtain ⟨c, e, hconflict, he, hparent⟩ := hok.parents o ho hin
    obtain ⟨q, hq, heq⟩ := List.mem_map.mp hparent
    exact (exists_conflict_iff hpool.stored ho).mp
      (hfresh c e hconflict he q hq (heq ▸ hin) o ho heq.symm)

theorem exists_ok_of_notRefused (hpool : Good env.toMempoolEnv pool)
    (hfits : env.FeesFit pool call) (h : NotRefused env pool call) :
    ∃ pool' ws, env.acceptToMemoryPoolWorker pool call = (pool', .ok ws) := by
  have havoids := preChecks_avoids hpool.stored hpool.links hfits
  have hrefused : ∀ err, err ≠ .overflow →
      (env.acceptToMemoryPoolWorker pool call).2 ≠ .error err := fun err hne heq => hne (h err heq)
  cases hpre : env.preChecks pool call with
  | error err =>
    refine absurd ?_ (hrefused err fun heq => havoids (hpre.trans (heq ▸ rfl)))
    rw [AcceptEnv.acceptToMemoryPoolWorker, hpre]
  | ok ws =>
    cases hfin : env.finalize pool call ws with
    | none =>
      refine absurd ?_ (hrefused .assertFailed fun heq => (nomatch heq))
      simp only [AcceptEnv.acceptToMemoryPoolWorker, hpre, hfin]
    | some pool' =>
      refine ⟨pool', ws, ?_⟩
      have hfull := hrefused (rejection 0 REJECT_INSUFFICIENTFEE "mempool full")
        (rejection_ne_overflow _ _ _)
      simp only [AcceptEnv.acceptToMemoryPoolWorker, hpre, hfin] at hfull ⊢
      split at hfull
      · exact absurd rfl hfull
      next hin => rw [if_neg hin]

end

/-- In every pool that a node reaches, a replacement that is not refused is accepted and obeys the
    rules exactly if the sums of fees fit into 64 bits and it takes no fresh output of a parent of
    a direct conflict. -/
theorem replacement_rules (env : AcceptEnv) (pool : CTxMemPool) (call : AcceptCall)
    (hpool : PoolReached env.toMempoolEnv pool)
    (hreplaces : ∃ c, pool.DirectConflict call.tx c) (hpassed : NotRefused env pool call) :
    (∃ pool' ws, env.acceptToMemoryPoolWorker pool call = (pool', .ok ws) ∧
      ReplacementRules env pool call ws) ↔
    env.FeesFit pool call ∧ NoFreshOutput pool call.tx := by
  have hgood := hpool.good
  constructor
  · rintro ⟨pool', ws, haccept, hrules⟩
    obtain ⟨hfits, hiff⟩ := rules_of_accepted hgood haccept hreplaces
    exact ⟨hfits, hiff.mp hrules⟩
  · rintro ⟨hfits, hfresh⟩
    obtain ⟨pool', ws, haccept⟩ := exists_ok_of_notRefused hgood hfits hpassed
    exact ⟨pool', ws, haccept, (rules_of_accepted hgood haccept hreplaces).2.mpr hfresh⟩

/-! ### A new output of an unconfirmed parent -/

namespace SampleReplacement

/-- Standard limits, and nothing to object to in scripts. -/
def env : AcceptEnv where
  toMempoolEnv := SamplePool.env
  validation := lenientEnv
  noWitnessYet _ := false
  isStandardTx _ := none
  checkFinalTx _ := true
  coinsTip o := if o = ⟨100, 0⟩ then some ⟨payAnyone 120, 1, false⟩ else none
  haveCoinInCache _ := false
  nSpendHeight := 7
  checkSequenceLocks _ _ := true
  areInputsStandard _ _ := true
  isWitnessStandard _ _ := true
  getTransactionSigOpCost _ _ := 4
  getMinFee _ := ⟨0⟩
  checkInputs _ _ := .ok ⟨⟩
  fEnableReplacement := true
  minRelayTxFee := ⟨1⟩
  incrementalRelayFee := ⟨100⟩
  limits := SamplePool.limits
  sizelimit := 300
  expiryTime := -1

def parent : CTransaction :=
  { hash := 1, vin := [⟨⟨100, 0⟩, [], 0, []⟩], vout := [payAnyone 60, payAnyone 50] }

def original : CTransaction :=
  { hash := 2, vin := [⟨⟨1, 0⟩, [], 0, []⟩], vout := [payAnyone 50] }

/-- Spends what `original` spends, and the other output of `parent`. -/
def replacement : CTransaction :=
  { hash := 3, vin := [⟨⟨1, 0⟩, [], 0, []⟩, ⟨⟨1, 1⟩, [], 0, []⟩], vout := [payAnyone 50] }

def call (tx : CTransaction) : AcceptCall :=
  { tx, nAcceptTime := 0, bypass_limits := false, nAbsurdFee := 0 }

def withParent : CTxMemPool := (env.acceptToMemoryPoolWorker (.empty ∅) (call parent)).1

def withOriginal : CTxMemPool := (env.acceptToMemoryPoolWorker withParent (call original)).1

/-- Spends nothing but what `original` spends, and pays more. -/
def higherBid : CTransaction :=
  { hash := 4, vin := [⟨⟨1, 0⟩, [], 0, []⟩], vout := [payAnyone 5] }

def result (tx : CTransaction) : CTxMemPool × Except AcceptError Workspace :=
  env.acceptToMemoryPoolWorker withOriginal (call tx)

theorem noChildren {tx : CTransaction}
    (h : ∀ x ∈ pool.mapTx.entries, tx.hash ∉ x.2.tx.prevouts.map COutPoint.hash) :
    ∀ c e, pool.mapTx.lookup c = some e → tx.hash ∉ e.tx.prevouts.map COutPoint.hash :=
  fun _ _ he => h ⟨_, _⟩ (AList.mem_lookup_iff.mp he)

theorem reached : PoolReached env.toMempoolEnv withOriginal := by
  refine .accept env (call original) (.accept env (call parent) (.empty ∅) rfl ?_ ?_) rfl ?_ ?_
  · decide
  · exact fun c e he => (nomatch he)
  · decide
  · exact noChildren (by decide)

theorem accepted (tx : CTransaction) (hok : (result tx).2.toOption.isSome = true) :
    ∃ ws, result tx = ((result tx).1, .ok ws) := by
  cases h : (result tx).2 with
  | error err =>
    rw [h] at hok
    nomatch hok
  | ok ws => exact ⟨ws, Prod.ext rfl h⟩

theorem conflict {tx : CTransaction} (h : ⟨1, 0⟩ ∈ tx.prevouts) :
    withOriginal.DirectConflict tx 2 := by
  refine ⟨(withOriginal.mapTx.lookup 2).getD (CTxMemPoolEntry.new env.toMempoolEnv parent 0 0 0),
    by decide, ⟨1, 0⟩, h, by decide⟩

end SampleReplacement

open SampleReplacement in
/-- The replacement is accepted, although no direct conflict spends its second input, which is
    not confirmed. -/
theorem replacement_adds_unconfirmed_input :
    ∃ ws, PoolReached env.toMempoolEnv withOriginal ∧
      env.acceptToMemoryPoolWorker withOriginal (call replacement) =
        ((result replacement).1, .ok ws) ∧
      withOriginal.DirectConflict replacement 2 ∧
      ⟨1, 1⟩ ∈ replacement.prevouts ∧ 1 ∈ withOriginal.mapTx ∧
      ∀ c e, withOriginal.DirectConflict replacement c → withOriginal.mapTx.lookup c = some e →
        ⟨1, 1⟩ ∉ e.tx.prevouts := by
  obtain ⟨ws, hws⟩ := accepted replacement (by decide)
  refine ⟨ws, reached, hws, conflict (by decide), by decide, by decide, fun c e _ he => ?_⟩
  have hall : ∀ x ∈ withOriginal.mapTx.entries, (⟨1, 1⟩ : COutPoint) ∉ x.2.tx.prevouts := by
    decide
  exact hall ⟨_, _⟩ (AList.mem_lookup_iff.mp he)

open SampleReplacement in
theorem replacement_rules_sample :
    (∃ pool' ws, env.acceptToMemoryPoolWorker withOriginal (call higherBid) = (pool', .ok ws) ∧
      ReplacementRules env withOriginal (call higherBid) ws) ∧
    env.FeesFit withOriginal (call higherBid) ∧ NoFreshOutput withOriginal higherBid := by
  obtain ⟨ws, hws⟩ := accepted higherBid (by decide)
  have hreplaces : ∃ c, withOriginal.DirectConflict higherBid c := ⟨2, conflict (by decide)⟩
  have hfits := (rules_of_accepted reached.good hws hreplaces).1
  have hfresh : NoFreshOutput withOriginal higherBid := by
    intro c e _ _ p _ _ o ho _
    obtain rfl := List.mem_singleton.mp ho
    decide
  refine ⟨(replacement_rules env withOriginal (call higherBid) reached hreplaces ?_).mpr
    ⟨hfits, hfresh⟩, hfits, hfresh⟩
  intro err herr
  have hok : (result higherBid).2 = .ok ws := congrArg Prod.snd hws
  nomatch hok.symm.trans herr

end Rcoin
