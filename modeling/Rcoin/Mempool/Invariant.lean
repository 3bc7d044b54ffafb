/-
  When the tables of the pool agree with each other and with the inputs of its
  transactions, and that taking entries out keeps it so.

  Source: the assertions of CTxMemPool::check in src/txmempool.cpp.
-/
import Rcoin.Mempool.Removal

namespace Rcoin

open Relation CTxMemPool CTxMemPoolEntry Closure Finset

namespace CTxMemPool

/-- `c` spends an output of `p`, and both are in the pool. -/
def SpendsFrom (pool : CTxMemPool) (p c : Uint256) : Prop :=
  p ∈ pool.mapTx ∧ ∃ e, pool.mapTx.lookup c = some e ∧ p ∈ e.tx.prevouts.map COutPoint.hash

end CTxMemPool

/-- What `CTxMemPool::check` compares: the cached totals of each entry are the
    sums over its in-pool ancestors and descendants (itself included), recomputed
    from the inputs; the links are the parents and children by inputs; `mapNextTx`
    holds the spent outpoints with their spenders; `totalTxSize` is the sum of the
    sizes. -/
structure Consistent (env : MempoolEnv) (pool : CTxMemPool) : Prop where
  ancestors : ∀ h e, pool.mapTx.lookup h = some e →
    e.ancestorTotals =
      ∑ a ∈ reaching pool.SpendsFrom pool.txids h, env.ancestorWeightAt pool a
  descendants : ∀ h e, pool.mapTx.lookup h = some e →
    e.descendantTotals =
      ∑ x ∈ reaching (Function.swap pool.SpendsFrom) pool.txids h,
        env.descendantWeightAt pool x
  linked : ∀ h, h ∈ pool.mapLinks ↔ h ∈ pool.mapTx
  parents : ∀ p c, p ∈ (pool.links c).parents ↔ pool.SpendsFrom p c
  children : ∀ p c, c ∈ (pool.links p).children ↔ pool.SpendsFrom p c
  mapNextTx : ∀ o tx, pool.mapNextTx.lookup o = some tx ↔
    ∃ e, pool.mapTx.lookup tx.hash = some e ∧ e.tx = tx ∧ o ∈ tx.prevouts
  totalTxSize : pool.totalTxSize = ∑ h ∈ pool.txids, env.sizeAt pool h

/-- The cached totals are the sums over what the links connect. -/
structure Tallied (env : MempoolEnv) (pool : CTxMemPool) : Prop where
  links : LinksOk pool
  acyclic : ∀ h, ¬ TransGen pool.Parent h h
  ancestors : ∀ h e, pool.mapTx.lookup h = some e →
    e.ancestorTotals = Closure.total pool.Parent pool.txids (env.ancestorWeightAt pool) h
  descendants : ∀ h e, pool.mapTx.lookup h = some e →
    e.descendantTotals =
      Closure.total (Function.swap pool.Parent) pool.txids (env.descendantWeightAt pool) h

/-- `mapNextTx` holds the outpoints the entries spend. -/
def NextTxOk (pool : CTxMemPool) : Prop :=
  ∀ o tx, pool.mapNextTx.lookup o = some tx ↔
    ∃ e, pool.mapTx.lookup tx.hash = some e ∧ e.tx = tx ∧ o ∈ tx.prevouts

/-- Each entry has the fee delta that is set for its hash. -/
def DeltasOk (pool : CTxMemPool) : Prop :=
  ∀ h e, pool.mapTx.lookup h = some e → e.feeDelta = (pool.mapDeltas.lookup h).getD 0

/-- What the operations keep, the links and fee deltas aside. -/
structure Stored (env : MempoolEnv) (pool : CTxMemPool) : Prop where
  hashes : HashesOk pool
  sigOps : SigOpsOk pool
  tallied : Tallied env pool
  mapNextTx : NextTxOk pool
  totalTxSize : pool.totalTxSize = ∑ h ∈ pool.txids, env.sizeAt pool h

/-- The links are those the inputs make. -/
def LinksInputs (pool : CTxMemPool) : Prop := ∀ p c, pool.Parent p c ↔ pool.SpendsFrom p c

theorem Stored.consistent {env : MempoolEnv} {pool : CTxMemPool} (h : Stored env pool)
    (hlinks : LinksInputs pool) : Consistent env pool := by
  have hrel : pool.Parent = pool.SpendsFrom := funext fun p => funext fun c => propext (hlinks p c)
  refine ⟨fun k e he => ?_, fun k e he => ?_, h.tallied.links.dom, hlinks, fun p c => ?_,
    h.mapNextTx, h.totalTxSize⟩
  · rw [h.tallied.ancestors k e he, hrel]
    rfl
  · rw [h.tallied.descendants k e he, hrel]
    rfl
  · rw [h.tallied.links.symm, hlinks]

/-! ## Taking entries out -/

section

open scoped Classical

variable {env : MempoolEnv} {pool pool' : CTxMemPool} {D : SetEntries}
  {a : Uint256 → AncestorTotals} {d : Uint256 → DescendantTotals}

variable {k : Uint256}

variable (h : Removed env pool pool' D a d)

include h

theorem Removed.lookup {e : CTxMemPoolEntry} (he : pool'.mapTx.lookup k = some e) :
    k ∉ D ∧ ∃ e0, pool.mapTx.lookup k = some e0 ∧ e = e0.adjust (a k) (d k) := by
  rw [h.mapTx] at he
  by_cases hk : k ∈ D
  · rw [if_pos hk] at he
    cases he
  · rw [if_neg hk] at he
    obtain ⟨e0, he0, rfl⟩ := Option.map_eq_some_iff.mp he
    exact ⟨hk, e0, he0, rfl⟩

theorem Removed.mem_mapTx : k ∈ pool'.mapTx ↔ k ∈ pool.mapTx ∧ k ∉ D := by
  rw [← AList.lookup_isSome, ← AList.lookup_isSome, h.mapTx]
  by_cases hk : k ∈ D <;> simp [hk]

theorem Removed.txids : pool'.txids = pool.txids \ D.toFinset := by
  ext k
  rw [mem_sdiff, mem_txids, mem_txids, h.mem_mapTx]
  rfl

theorem Removed.parent_eq : pool'.Parent = Without pool.Parent D.toFinset :=
  funext fun p => funext fun c => propext (h.parent p c)

theorem Removed.linksOk (hok : LinksOk pool) :
    LinksOk pool' where
  dom k := by rw [h.dom, h.mem_mapTx, hok.dom]
  symm p c := by rw [h.children, h.parent]
  mem p c hp := by
    obtain ⟨hpar, hpD, -⟩ := (h.parent p c).mp hp
    exact h.mem_mapTx.mpr ⟨hok.mem p c hpar, hpD⟩

theorem Removed.lookup_of_mem_txids (hk : k ∈ pool'.txids)
    : pool'.mapTx.lookup k = (pool.mapTx.lookup k).map (adjust (a k) (d k)) := by
  rw [h.txids, mem_sdiff] at hk
  rw [h.mapTx]
  exact if_neg hk.2

theorem Removed.weights (hk : k ∈ pool'.txids) :
    env.ancestorWeightAt pool' k = env.ancestorWeightAt pool k ∧
      env.descendantWeightAt pool' k = env.descendantWeightAt pool k ∧
      env.sizeAt pool' k = env.sizeAt pool k := by
  simp only [MempoolEnv.ancestorWeightAt, MempoolEnv.descendantWeightAt, MempoolEnv.sizeAt,
    h.lookup_of_mem_txids hk]
  cases pool.mapTx.lookup k <;> exact ⟨rfl, rfl, rfl⟩

theorem Removed.subset : D.toFinset ⊆ pool.txids :=
  fun r hr => mem_txids.mpr (h.mem r hr)

omit h

theorem sum_ancestorLoss (hD : D.toFinset ⊆ pool.txids) (hk : k ∉ D) :
    ∑ r ∈ D.toFinset, ancestorLoss env pool r k =
      -∑ r ∈ reaching pool.Parent pool.txids k ∩ D.toFinset,
        env.ancestorWeightAt pool r := by
  have hiff : ∀ r ∈ D.toFinset, (k ≠ r ∧ ReflTransGen pool.Parent r k) ↔
      ReflTransGen pool.Parent r k := by
    intro r hr
    have hne : k ≠ r := fun heq => hk (heq ▸ hr)
    exact ⟨fun h => h.2, fun h => ⟨hne, h⟩⟩
  exact sum_loss (w := env.ancestorWeightAt pool) hD hiff

theorem sum_descendantLoss (hD : D.toFinset ⊆ pool.txids) (hk : k ∉ D) :
    ∑ r ∈ D.toFinset, descendantLoss env pool r k =
      -∑ r ∈ reaching (Function.swap pool.Parent) pool.txids k ∩ D.toFinset,
        env.descendantWeightAt pool r := by
  have hiff : ∀ r ∈ D.toFinset, TransGen pool.Parent k r ↔
      ReflTransGen (Function.swap pool.Parent) r k := by
    intro r hr
    have hne : r ≠ k := fun heq => hk (heq ▸ hr)
    rw [reflTransGen_swap, reflTransGen_iff_eq_or_transGen]
    exact ⟨.inr, fun h => h.resolve_left hne⟩
  exact sum_loss (w := env.descendantWeightAt pool) hD hiff

theorem Removed.tallied_of_descendants (h : Removed env pool pool' D 0
      fun k => ∑ r ∈ D.toFinset, descendantLoss env pool r k) (htal : Tallied env pool)
    (hD : ∀ p c, pool.Parent p c → p ∈ D → c ∈ D) : Tallied env pool' := by
  refine ⟨h.linksOk htal.links, fun k hk => ?_, fun k e he => ?_, fun k e he => ?_⟩
  · rw [h.parent_eq] at hk
    exact htal.acyclic k (hk.lift id fun _ _ hr => hr.1)
  · obtain ⟨hkD, e0, he0, rfl⟩ := h.lookup he
    rw [ancestorTotals_adjust, htal.ancestors k e0 he0, Pi.zero_apply, add_zero,
      total_congr fun x hx => (h.weights hx).1, h.parent_eq, h.txids]
    exact (total_without hD hkD).symm
  · obtain ⟨hkD, e0, he0, rfl⟩ := h.lookup he
    rw [descendantTotals_adjust, htal.descendants k e0 he0, sum_descendantLoss h.subset hkD,
      total_congr fun x hx => (h.weights hx).2.1, h.parent_eq, h.txids,
      swap_without,
      total_without_of_pred (R := Function.swap pool.Parent) (fun p c hp hc => hD c p hp hc)
        hkD, sub_eq_add_neg]

theorem Removed.tallied_of_ancestors (h : Removed env pool pool' D
      (fun k => ∑ r ∈ D.toFinset, ancestorLoss env pool r k)
      fun k => ∑ r ∈ D.toFinset, descendantLoss env pool r k) (htal : Tallied env pool)
    (hD : ∀ p c, pool.Parent p c → c ∈ D → p ∈ D) : Tallied env pool' := by
  refine ⟨h.linksOk htal.links, fun k hk => ?_, fun k e he => ?_, fun k e he => ?_⟩
  · rw [h.parent_eq] at hk
    exact htal.acyclic k (hk.lift id fun _ _ hr => hr.1)
  · obtain ⟨hkD, e0, he0, rfl⟩ := h.lookup he
    rw [ancestorTotals_adjust, htal.ancestors k e0 he0, sum_ancestorLoss h.subset hkD,
      total_congr fun x hx => (h.weights hx).1, h.parent_eq, h.txids,
      total_without_of_pred hD hkD, sub_eq_add_neg]
  · obtain ⟨hkD, e0, he0, rfl⟩ := h.lookup he
    have hnone : reaching (Function.swap pool.Parent) pool.txids k ∩ D.toFinset = ∅ := by
      ext r
      rw [mem_inter, mem_reaching]
      refine ⟨fun ⟨⟨_, hr⟩, hrD⟩ => ?_, fun hr => absurd hr (Finset.notMem_empty r)⟩
      exact absurd hrD (not_mem_of_reaches (R := Function.swap pool.Parent)
        (fun p c hp hp' => hD c p hp hp') hkD hr)
    rw [descendantTotals_adjust, htal.descendants k e0 he0, sum_descendantLoss h.subset hkD, hnone,
      sum_empty, neg_zero, add_zero, total_congr fun x hx => (h.weights hx).2.1,
      h.parent_eq, h.txids, swap_without]
    exact (total_without (R := Function.swap pool.Parent) (fun p c hp hp' => hD c p hp hp')
      hkD).symm

include h

theorem Removed.nextTxOk (hhash : HashesOk pool) (hok : NextTxOk pool) : NextTxOk pool' := by
  intro o tx
  rw [h.mapNextTx]
  constructor
  · intro ho
    split at ho
    · cases ho
    next hnone =>
      obtain ⟨e, he, rfl, hmem⟩ := (hok o tx).mp ho
      have hD : e.tx.hash ∉ D := fun hD => hnone ⟨_, hD, e, he, hmem⟩
      exact ⟨e.adjust _ _, by rw [h.mapTx, if_neg hD, he]; rfl, rfl, hmem⟩
  · rintro ⟨e, he, rfl, hmem⟩
    obtain ⟨hD, e0, he0, heq0⟩ := h.lookup he
    have htx : e0.tx = e.tx := by rw [heq0, tx_adjust]
    have ho := (hok o e.tx).mpr ⟨e0, he0, htx, hmem⟩
    rw [if_neg, ho]
    -- the spender of an outpoint is unique, and this one stays
    rintro ⟨r, hr, e', he', ho'⟩
    have hr' : e'.tx.hash = r := hhash r e' he'
    have heq : e'.tx = e.tx := Option.some.inj
      (((hok o e'.tx).mpr ⟨e', by rw [hr', he'], rfl, ho'⟩).symm.trans ho)
    apply hD
    rwa [← heq, hr']

theorem Removed.totalTxSize_eq (htotal : pool.totalTxSize = ∑ k ∈ pool.txids, env.sizeAt pool k) :
    pool'.totalTxSize = ∑ k ∈ pool'.txids, env.sizeAt pool' k := by
  have hsum : ∑ k ∈ pool.txids \ D.toFinset, env.sizeAt pool k +
      ∑ k ∈ D.toFinset, env.sizeAt pool k = ∑ k ∈ pool.txids, env.sizeAt pool k :=
    sum_sdiff h.subset
  have hsame : ∑ k ∈ pool'.txids, env.sizeAt pool' k = ∑ k ∈ pool'.txids, env.sizeAt pool k :=
    sum_congr rfl fun x hx => (h.weights hx).2.2
  rw [h.totalTxSize, htotal, hsame, h.txids]
  omega

theorem Removed.stored (hst : Stored env pool) (htal : Tallied env pool') : Stored env pool' where
  hashes k e he := by
    obtain ⟨-, e0, he0, rfl⟩ := h.lookup he
    exact hst.hashes k e0 he0
  sigOps k e he := by
    obtain ⟨-, e0, he0, rfl⟩ := h.lookup he
    exact hst.sigOps k e0 he0
  tallied := htal
  mapNextTx := h.nextTxOk hst.hashes hst.mapNextTx
  totalTxSize := h.totalTxSize_eq hst.totalTxSize

theorem Removed.linksInputs (hok : LinksInputs pool) : LinksInputs pool' := by
  intro p c
  rw [h.parent, hok, SpendsFrom, SpendsFrom, h.mem_mapTx]
  constructor
  · rintro ⟨⟨hp, e, he, hin⟩, hpD, hcD⟩
    exact ⟨⟨hp, hpD⟩, e.adjust _ _, by rw [h.mapTx, if_neg hcD, he]; rfl, hin⟩
  · rintro ⟨⟨hp, hpD⟩, e, he, hin⟩
    obtain ⟨hcD, e0, he0, rfl⟩ := h.lookup he
    exact ⟨⟨hp, e0, he0, hin⟩, hpD, hcD⟩

omit h

end

end Rcoin
