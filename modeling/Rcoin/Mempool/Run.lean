/-
  Sequences of operations on the pool.  Each operation keeps the tables
  consistent, and so does every sequence from an empty pool.

  Source: src/txmempool.cpp; the conditions on an added transaction are those
  AcceptToMemoryPoolWorker (src/validation.cpp) has checked before.
-/
import Rcoin.Mempool.Adding

namespace Rcoin

open Relation CTxMemPool CTxMemPoolEntry List Option SortedSet

/-! ## Operations and runs -/

/-- The calls a run of the pool is made of. -/
inductive MempoolOp where
  | addUnchecked (tx : CTransaction) (nFee nTime nSigOpsCost : Int) (setAncestors : SetEntries)
  | prioritiseTransaction (hash : Uint256) (nFeeDelta : Int)
  | removeRecursive (origTx : CTransaction)
  | removeForBlock (vtx : List CTransaction)
  | expire (time : Int)
  | trimToSize (sizelimit : Int)

/-- `a` is in the pool, and the transaction `tx`, which may be about to enter it,
    spends an output of `a` or of a descendant of `a`. -/
def CTxMemPool.IsAncestor (pool : CTxMemPool) (a : Uint256) (tx : CTransaction) : Prop :=
  ∃ p, ReflTransGen pool.SpendsFrom a p ∧ p ∈ pool.mapTx ∧ p ∈ tx.prevouts.map COutPoint.hash

/-- A new transaction without children in the pool, none of whose inputs is spent
    in the pool, with the set of its ancestors. -/
structure AddLegal (pool : CTxMemPool) (tx : CTransaction) (nSigOpsCost : Int)
    (setAncestors : SetEntries) : Prop where
  new : tx.hash ∉ pool.mapTx
  notOwnParent : tx.hash ∉ tx.prevouts.map COutPoint.hash
  noChildren : ∀ c e, pool.mapTx.lookup c = some e → tx.hash ∉ e.tx.prevouts.map COutPoint.hash
  noConflict : ∀ o ∈ tx.prevouts, pool.mapNextTx.lookup o = none
  sigOps : 0 ≤ nSigOpsCost ∧ nSigOpsCost < 2 ^ 31
  ancestors : ∀ a, a ∈ setAncestors ↔ pool.IsAncestor a tx

/-- The in-pool parents of a block's transactions precede them in the block. -/
def BlockLegal (pool : CTxMemPool) (vtx : List CTransaction) : Prop :=
  ∀ before tx after, vtx = before ++ tx :: after →
    ∀ p, pool.SpendsFrom p tx.hash → ∃ t ∈ before, t.hash = p

namespace MempoolEnv

variable (env : MempoolEnv)

def step (pool : CTxMemPool) : MempoolOp → Option CTxMemPool
  | .addUnchecked tx nFee nTime nSigOpsCost setAncestors =>
    env.addUnchecked tx.hash (CTxMemPoolEntry.new env tx nFee nTime nSigOpsCost) setAncestors pool
  | .prioritiseTransaction hash nFeeDelta => pool.prioritiseTransaction hash nFeeDelta
  | .removeRecursive origTx => env.removeRecursive origTx pool
  | .removeForBlock vtx => env.removeForBlock vtx pool
  | .expire time => env.expire time pool
  | .trimToSize sizelimit => env.trimToSize sizelimit pool

def Legal (pool : CTxMemPool) : MempoolOp → Prop
  | .addUnchecked tx _ _ nSigOpsCost setAncestors => AddLegal pool tx nSigOpsCost setAncestors
  | .removeForBlock vtx => BlockLegal pool vtx
  | _ => True

def run (pool : CTxMemPool) (ops : List MempoolOp) : Option CTxMemPool := ops.foldlM env.step pool

/-- Each operation is legal in the pool it is applied to. -/
def LegalRun (pool : CTxMemPool) : List MempoolOp → Prop
  | [] => True
  | op :: rest => Legal pool op ∧ ∀ pool', env.step pool op = some pool' → LegalRun pool' rest

end MempoolEnv

open MempoolEnv

/-! ## What each operation keeps -/

section

/-- The invariant of the pool between operations. -/
structure Good (env : MempoolEnv) (pool : CTxMemPool) : Prop where
  stored : Stored env pool
  links : LinksInputs pool
  deltas : DeltasOk pool

/-- What stays in the pool is what was there, under the same fee deltas. -/
structure Shrinks (pool pool' : CTxMemPool) : Prop where
  lookup : ∀ k e', pool'.mapTx.lookup k = some e' →
    ∃ e, pool.mapTx.lookup k = some e ∧ e'.tx = e.tx ∧ e'.feeDelta = e.feeDelta
  mapDeltas : pool'.mapDeltas = pool.mapDeltas

variable {env : MempoolEnv} {pool pool' pool'' : CTxMemPool} {k : Uint256}

theorem Shrinks.mem (h : Shrinks pool pool') (hk : k ∈ pool'.mapTx) : k ∈ pool.mapTx := by
  obtain ⟨e', he'⟩ := mem_mapTx_iff.mp hk
  obtain ⟨e, he, -⟩ := h.lookup k e' he'
  exact mem_mapTx_iff.mpr ⟨e, he⟩

theorem Shrinks.refl (pool : CTxMemPool) : Shrinks pool pool :=
  ⟨fun _ e he => ⟨e, he, rfl, rfl⟩, rfl⟩

theorem Shrinks.trans (h : Shrinks pool pool') (h' : Shrinks pool' pool'') :
    Shrinks pool pool'' where
  lookup k e'' he'' := by
    obtain ⟨e', he', htx', hdelta'⟩ := h'.lookup k e'' he''
    obtain ⟨e, he, htx, hdelta⟩ := h.lookup k e' he'
    exact ⟨e, he, htx'.trans htx, hdelta'.trans hdelta⟩
  mapDeltas := h'.mapDeltas.trans h.mapDeltas

theorem Shrinks.deltasOk (h : Shrinks pool pool') (hok : DeltasOk pool) : DeltasOk pool' := by
  intro k e' he'
  obtain ⟨e, he, -, hdelta⟩ := h.lookup k e' he'
  rw [hdelta, h.mapDeltas]
  exact hok k e he

variable {D : SetEntries}

theorem Removed.shrinks {a : Uint256 → AncestorTotals} {d : Uint256 → DescendantTotals}
    (h : Removed env pool pool' D a d) : Shrinks pool pool' where
  lookup k e' he' := by
    obtain ⟨-, e0, he0, rfl⟩ := h.lookup he'
    exact ⟨e0, he0, rfl, rfl⟩
  mapDeltas := h.mapDeltas

theorem removeStaged_descendants (hst : Stored env pool) (hlinks : LinksInputs pool)
    (hD : ∀ p c, pool.Parent p c → p ∈ D → c ∈ D) (h : env.removeStaged D false pool = some pool') :
    Stored env pool' ∧ LinksInputs pool' ∧ Shrinks pool pool' ∧ ∀ k ∈ D, k ∉ pool'.mapTx := by
  have hrem := removeStaged_spec hst.hashes hst.tallied.links hst.sigOps h
  exact ⟨hrem.stored hst (hrem.tallied_of_descendants hst.tallied hD), hrem.linksInputs hlinks,
    hrem.shrinks, fun k hk hmem => (hrem.mem_mapTx.mp hmem).2 hk⟩

variable {s : SetEntries}

theorem removeAll_spec (hst : Stored env pool) (hlinks : LinksInputs pool)
    (hs : ∀ x ∈ s, x ∈ pool.mapTx) (hD : pool.calculateAllDescendants s = some D)
    (h : env.removeStaged D false pool = some pool') :
    Stored env pool' ∧ LinksInputs pool' ∧ Shrinks pool pool' ∧ ∀ x ∈ s, x ∉ pool'.mapTx := by
  obtain ⟨D', hD', hiff⟩ := calculateAllDescendants_spec hst.tallied.links hs
  obtain rfl : D = D' := Option.some.inj (hD.symm.trans hD')
  obtain ⟨hst', hlinks', hshrink, hgone⟩ := removeStaged_descendants hst hlinks (fun p c hp hpD => by
    obtain ⟨r, hr, hreach⟩ := (hiff p).mp hpD
    exact (hiff c).mpr ⟨r, hr, hreach.tail hp⟩) h
  exact ⟨hst', hlinks', hshrink, fun x hx => hgone x ((hiff x).mpr ⟨x, hx, .refl⟩)⟩

variable {origTx : CTransaction}

theorem foldlM_keeps {σ α : Type} {f : σ → α → Option σ} {P : σ → Prop}
    (hstep : ∀ s a s', f s a = some s' → P s → P s') {l : List α} {s s' : σ}
    (h : l.foldlM f s = some s') (hs : P s) : P s' := by
  induction l generalizing s with
  | nil =>
    cases h
    exact hs
  | cons a l ih =>
    rw [foldlM_cons] at h
    obtain ⟨t, ht, h⟩ := bind_eq_some_iff.mp h
    exact ih h (hstep s a t ht hs)

theorem mem_spendersOf (h : pool.spendersOf origTx = some s) : ∀ x ∈ s, x ∈ pool.mapTx := by
  unfold spendersOf at h
  refine foldlM_keeps (P := fun t : SetEntries => ∀ x ∈ t, x ∈ pool.mapTx) ?_ h
    fun x hx => absurd hx (not_mem_empty x)
  intro t i u hu ht
  split at hu
  · cases hu
    exact ht
  · split at hu
    next hmem =>
      cases hu
      intro x hx
      rcases SortedSet.mem_insert.mp hx with rfl | hx
      · exact hmem
      · exact ht x hx
    · cases hu

theorem removeRecursive_spec (hst : Stored env pool) (hlinks : LinksInputs pool)
    (h : env.removeRecursive origTx pool = some pool') :
    Stored env pool' ∧ LinksInputs pool' ∧ Shrinks pool pool' ∧
      origTx.hash ∉ pool'.mapTx := by
  obtain ⟨s, hs, hrest⟩ := bind_eq_some_iff.mp h
  obtain ⟨D, hD, hstaged⟩ := bind_eq_some_iff.mp hrest
  split at hs
  next hmem =>
    obtain rfl := Option.some.inj hs
    obtain ⟨hst', hlinks', hshrink, hgone⟩ := removeAll_spec hst hlinks (fun x hx => by
      rw [mem_ofList, mem_singleton] at hx
      exact hx ▸ hmem) hD hstaged
    exact ⟨hst', hlinks', hshrink, hgone _ (by simp)⟩
  next hmem =>
    obtain ⟨hst', hlinks', hshrink, -⟩ := removeAll_spec hst hlinks (mem_spendersOf hs) hD hstaged
    exact ⟨hst', hlinks', hshrink, fun hm => hmem (hshrink.mem hm)⟩

theorem Stored.clearPrioritisation {hash : Uint256} (h : Stored env pool) :
    Stored env (pool.clearPrioritisation hash) where
  hashes := h.hashes
  sigOps := h.sigOps
  tallied := ⟨⟨h.tallied.links.dom, h.tallied.links.symm, h.tallied.links.mem⟩,
    h.tallied.acyclic, h.tallied.ancestors, h.tallied.descendants⟩
  mapNextTx := h.mapNextTx
  totalTxSize := h.totalTxSize

theorem Good.clearPrioritisation {hash : Uint256} (h : Good env pool)
    (hmem : hash ∉ pool.mapTx) : Good env (pool.clearPrioritisation hash) := by
  refine ⟨h.stored.clearPrioritisation, h.links, fun k e he => ?_⟩
  have hk : k ≠ hash := fun heq => hmem (heq ▸ mem_mapTx_iff.mpr ⟨e, he⟩)
  show _ = ((pool.mapDeltas.erase hash).lookup k).getD 0
  rw [Maps.lookup_erase, if_neg hk]
  exact h.deltas k e he

variable {tx : CTransaction}

variable (h : Good env pool)

include h

theorem removeConflict_spec {o : COutPoint} (hr : env.removeConflict tx pool o = some pool') :
    Good env pool' ∧ ∀ k e', pool'.mapTx.lookup k = some e' →
      ∃ e, pool.mapTx.lookup k = some e ∧ e'.tx = e.tx := by
  unfold removeConflict at hr
  split at hr
  · cases hr
    exact ⟨h, fun k e he => ⟨e, he, rfl⟩⟩
  next txConflict hspent =>
    split at hr
    · have hst1 : Stored env (pool.clearPrioritisation txConflict.hash) :=
        h.stored.clearPrioritisation
      obtain ⟨hst, hlinks, hshrink, hgone⟩ := removeRecursive_spec hst1 h.links hr
      refine ⟨⟨hst, hlinks, fun k e' he' => ?_⟩, fun k e' he' => ?_⟩
      · obtain ⟨e, he, -, hdelta⟩ := hshrink.lookup k e' he'
        have hk : k ≠ txConflict.hash := fun heq => hgone (heq ▸ mem_mapTx_iff.mpr ⟨e', he'⟩)
        rw [hdelta, hshrink.mapDeltas]
        show _ = ((pool.mapDeltas.erase _).lookup k).getD 0
        rw [Maps.lookup_erase, if_neg hk]
        exact h.deltas k e he
      · obtain ⟨e, he, htx, -⟩ := hshrink.lookup k e' he'
        exact ⟨e, he, htx⟩
    · cases hr
      exact ⟨h, fun k e he => ⟨e, he, rfl⟩⟩

theorem removeConflicts_spec {l : List COutPoint}
    (hr : l.foldlM (env.removeConflict tx) pool = some pool') :
    Good env pool' ∧ ∀ k e', pool'.mapTx.lookup k = some e' →
      ∃ e, pool.mapTx.lookup k = some e ∧ e'.tx = e.tx := by
  induction l generalizing pool with
  | nil =>
    cases hr
    exact ⟨h, fun k e he => ⟨e, he, rfl⟩⟩
  | cons o l ih =>
    obtain ⟨p, hp, hr⟩ := bind_eq_some_iff.mp hr
    obtain ⟨hgood, hsub⟩ := removeConflict_spec h hp
    obtain ⟨hgood', hsub'⟩ := ih hgood hr
    refine ⟨hgood', fun k e' he' => ?_⟩
    obtain ⟨e1, he1, htx1⟩ := hsub' k e' he'
    obtain ⟨e, he, htx⟩ := hsub k e1 he1
    exact ⟨e, he, htx1.trans htx⟩

theorem removeForBlockTx_spec (hparents : ∀ p, ¬ pool.SpendsFrom p tx.hash)
    (hr : env.removeForBlockTx pool tx = some pool') :
    Good env pool' ∧ tx.hash ∉ pool'.mapTx ∧ ∀ k e', pool'.mapTx.lookup k = some e' →
      ∃ e, pool.mapTx.lookup k = some e ∧ e'.tx = e.tx := by
  obtain ⟨p1, h1, hr⟩ := bind_eq_some_iff.mp hr
  obtain ⟨p2, h2, hr⟩ := bind_eq_some_iff.mp hr
  cases hr
  have hfirst : Good env p1 ∧ tx.hash ∉ p1.mapTx ∧ Shrinks pool p1 := by
    split at h1
    next hmem =>
      have hrem := removeStaged_spec h.stored.hashes h.stored.tallied.links h.stored.sigOps h1
      have hclosed : ∀ p c, pool.Parent p c → c ∈ ofList [tx.hash] →
          p ∈ ofList [tx.hash] := by
        intro p c hp hc
        rw [mem_ofList, mem_singleton] at hc
        exact absurd ((h.links p tx.hash).mp (hc ▸ hp)) (hparents p)
      have hshrink := hrem.shrinks
      refine ⟨⟨hrem.stored h.stored (hrem.tallied_of_ancestors h.stored.tallied hclosed),
        hrem.linksInputs h.links, hshrink.deltasOk h.deltas⟩, fun hm => ?_, hshrink⟩
      exact (hrem.mem_mapTx.mp hm).2 (by simp)
    next hmem =>
      cases h1
      exact ⟨h, hmem, Shrinks.refl pool⟩
  obtain ⟨hgood1, hgone1, hshrink1⟩ := hfirst
  obtain ⟨hgood2, hsub2⟩ := removeConflicts_spec hgood1 h2
  have hgone2 : tx.hash ∉ p2.mapTx := by
    intro hm
    obtain ⟨e', he'⟩ := mem_mapTx_iff.mp hm
    obtain ⟨e, he, -⟩ := hsub2 _ e' he'
    exact hgone1 (mem_mapTx_iff.mpr ⟨e, he⟩)
  refine ⟨hgood2.clearPrioritisation hgone2, hgone2, fun k e' he' => ?_⟩
  obtain ⟨e1, he1, htx1⟩ := hsub2 k e' he'
  obtain ⟨e, he, htx, -⟩ := hshrink1.lookup k e1 he1
  exact ⟨e, he, htx1.trans htx⟩

theorem removeForBlock_good {vtx : List CTransaction} (hlegal : BlockLegal pool vtx)
    (hr : env.removeForBlock vtx pool = some pool') :
    Good env pool' ∧ (∀ tx ∈ vtx, tx.hash ∉ pool'.mapTx) ∧ ∀ k ∈ pool'.mapTx, k ∈ pool.mapTx := by
  induction vtx generalizing pool with
  | nil =>
    cases hr
    exact ⟨h, fun _ hmem => absurd hmem not_mem_nil, fun _ hk => hk⟩
  | cons tx vtx ih =>
    unfold removeForBlock at hr
    obtain ⟨p, hp, hr⟩ := bind_eq_some_iff.mp hr
    obtain ⟨hgood, hgone, hsub⟩ := removeForBlockTx_spec h (fun q hq => by
      obtain ⟨t, ht, -⟩ := hlegal [] tx vtx rfl q hq
      cases ht) hp
    have hmem : ∀ k ∈ p.mapTx, k ∈ pool.mapTx := by
      intro k hk
      obtain ⟨e1, he1⟩ := mem_mapTx_iff.mp hk
      obtain ⟨e, he, -⟩ := hsub k e1 he1
      exact mem_mapTx_iff.mpr ⟨e, he⟩
    obtain ⟨hgood', hgone', hmem'⟩ := ih hgood (fun before t after heq q hq => by
      -- what precedes in the block, the first transaction aside
      obtain ⟨hqp, e', he', hin⟩ := hq
      obtain ⟨e, he, htx⟩ := hsub _ e' he'
      obtain ⟨u, hu, hhash⟩ :=
        hlegal (tx :: before) t after (congrArg _ heq) q ⟨hmem q hqp, e, he, htx ▸ hin⟩
      rcases mem_cons.mp hu with rfl | hu
      · exact absurd (hhash ▸ hqp) hgone
      · exact ⟨u, hu, hhash⟩) hr
    exact ⟨hgood', forall_mem_cons.mpr ⟨fun hk => hgone (hmem' _ hk), hgone'⟩,
      fun k hk => hmem k (hmem' k hk)⟩

theorem Good.of_shrinks (h' : Stored env pool' ∧ LinksInputs pool' ∧ Shrinks pool pool') :
    Good env pool' :=
  ⟨h'.1, h'.2.1, h'.2.2.deltasOk h.deltas⟩

theorem expire_good {time : Int} (hr : env.expire time pool = some pool') :
    Good env pool' ∧ Shrinks pool pool' := by
  obtain ⟨D, hD, hr⟩ := bind_eq_some_iff.mp hr
  obtain ⟨hst, hlinks, hshrink, -⟩ := removeAll_spec h.stored h.links (fun x hx => by
    rw [mem_ofList, mem_filter] at hx
    exact AList.mem_keys.mpr hx.1) hD hr
  exact ⟨h.of_shrinks ⟨hst, hlinks, hshrink⟩, hshrink⟩

omit h

theorem mem_of_calculateDescendants {it : Uint256} (hok : LinksOk pool) (hne : pool.mapTx.keys ≠ [])
    (h : pool.calculateDescendants it ∅ = some D) : it ∈ pool.mapTx := by
  by_contra hit
  have hnone : pool.getMemPoolChildren it = none := by
    rw [getMemPoolChildren, AList.lookup_eq_none.mpr fun hm => hit ((hok.dom it).mp hm)]
    rfl
  obtain ⟨n, hn⟩ := Nat.exists_eq_succ_of_ne_zero (length_pos_iff.mpr hne).ne'
  have helems : (ofList [it]).elems = [it] := rfl
  rw [calculateDescendants, if_neg (not_mem_empty it), hn, Worklist.collect] at h
  simp only [helems, hnone] at h
  cases h

theorem Shrinks.card_lt (h : Shrinks pool pool') (hk : k ∈ pool.mapTx) (hgone : k ∉ pool'.mapTx) :
    pool'.mapTx.keys.length < pool.mapTx.keys.length := by
  rw [← card_txids, ← card_txids]
  refine Finset.card_lt_card ((Finset.ssubset_iff_of_subset ?_).mpr ⟨k, ?_, ?_⟩)
  · exact fun x hx => mem_txids.mpr (h.mem (mem_txids.mp hx))
  · exact mem_txids.mpr hk
  · exact fun hm => hgone (mem_txids.mp hm)

/-- The loop of `TrimToSize` keeps the invariant, and ends with the pool empty or
    within the limit: no round is left when the rounds run out. -/
theorem trimLoop_good {sizelimit : Int} {fuel : Nat} (h : Good env pool)
    (hfuel : pool.mapTx.keys.length ≤ fuel)
    (hr : env.trimLoop sizelimit fuel pool = some pool') :
    Good env pool' ∧ Shrinks pool pool' ∧
      (pool'.mapTx.keys = [] ∨ env.dynamicMemoryUsage pool' ≤ sizelimit) := by
  induction fuel generalizing pool with
  | zero =>
    cases hr
    exact ⟨h, Shrinks.refl _, .inl (length_eq_zero_iff.mp (Nat.le_zero.mp hfuel))⟩
  | succ fuel ih =>
    rw [trimLoop] at hr
    split at hr
    next hcond =>
      obtain ⟨it, -, hr⟩ := bind_eq_some_iff.mp hr
      obtain ⟨D, hD, hr⟩ := bind_eq_some_iff.mp hr
      obtain ⟨p, hp, hr⟩ := bind_eq_some_iff.mp hr
      have hit := mem_of_calculateDescendants h.stored.tallied.links hcond.1 hD
      have hall : pool.calculateAllDescendants (ofList [it]) = some D := by
        show (pool.calculateDescendants it ∅).bind some = some D
        rw [hD]
        rfl
      have hmem : ∀ x ∈ ofList [it], x ∈ pool.mapTx := by
        intro x hx
        rw [mem_ofList, mem_singleton] at hx
        exact hx ▸ hit
      obtain ⟨hst, hlinks, hshrink, hgone⟩ := removeAll_spec h.stored h.links hmem hall hp
      have hlt := hshrink.card_lt hit (hgone it (by simp))
      obtain ⟨hgood, hshrink', hend⟩ := ih (h.of_shrinks ⟨hst, hlinks, hshrink⟩) (by omega) hr
      exact ⟨hgood, hshrink.trans hshrink', hend⟩
    next hcond =>
      cases hr
      refine ⟨h, Shrinks.refl pool', ?_⟩
      by_cases hne : pool'.mapTx.keys = []
      · exact .inl hne
      · exact .inr (not_lt.mp fun hlt => hcond ⟨hne, hlt⟩)

theorem addUnchecked_good {nFee nTime nSigOpsCost : Int} {A : SetEntries} (h : Good env pool)
    (hlegal : AddLegal pool tx nSigOpsCost A)
    (hr : env.addUnchecked tx.hash (CTxMemPoolEntry.new env tx nFee nTime nSigOpsCost) A pool =
      some pool')
    : Good env pool' ∧ ∀ k, k ∈ pool'.mapTx ↔ k = tx.hash ∨ k ∈ pool.mapTx := by
  have hrel : pool.Parent = pool.SpendsFrom :=
    funext fun p => funext fun c => propext (h.links p c)
  obtain ⟨hadded, hst⟩ := addUnchecked_added h.stored hlegal.new hlegal.notOwnParent
    hlegal.noConflict hlegal.sigOps (fun x => by rw [hlegal.ancestors, IsAncestor, hrel]) hr
  exact ⟨⟨hst, hadded.linksInputs h.links hlegal.new hlegal.notOwnParent hlegal.noChildren,
    hadded.deltasOk h.deltas rfl⟩, fun _ => hadded.mem_mapTx⟩

/-! ## Runs -/

theorem step_good {op : MempoolOp} (h : Good env pool) (hlegal : Legal pool op)
    (hr : env.step pool op = some pool') : Good env pool' := by
  cases op with
  | addUnchecked tx nFee nTime nSigOpsCost A => exact (addUnchecked_good h hlegal hr).1
  | prioritiseTransaction hash nFeeDelta =>
    have hp := prioritiseTransaction_spec h.stored h.deltas hr
    exact ⟨hp.stored h.stored, hp.linksInputs h.links, hp.deltasOk h.deltas⟩
  | removeRecursive origTx =>
    obtain ⟨hst, hlinks, hshrink, -⟩ := removeRecursive_spec h.stored h.links hr
    exact h.of_shrinks ⟨hst, hlinks, hshrink⟩
  | removeForBlock vtx => exact (removeForBlock_good h hlegal hr).1
  | expire time => exact (expire_good h hr).1
  | trimToSize sizelimit => exact (trimLoop_good h (le_refl _) hr).1

variable {ops : List MempoolOp}

theorem run_good (h : Good env pool) (hlegal : env.LegalRun pool ops)
    (hr : env.run pool ops = some pool') : Good env pool' := by
  induction ops generalizing pool with
  | nil =>
    cases hr
    exact h
  | cons op ops ih =>
    unfold run at hr
    obtain ⟨p, hp, hr⟩ := bind_eq_some_iff.mp hr
    exact ih (step_good h hlegal.1 hp) (hlegal.2 p hp) hr

theorem MempoolEnv.legalRun_cons {op : MempoolOp} (pool' : CTxMemPool)
    (hs : env.step pool op = some pool') (hl : Legal pool op)
    (h : env.LegalRun pool' ops) : env.LegalRun pool (op :: ops) := by
  refine ⟨hl, fun p hp => ?_⟩
  obtain rfl : pool' = p := Option.some.inj (hs.symm.trans hp)
  exact h

theorem good_empty (mapDeltas : AList fun _ : Uint256 => Int) :
    Good env (empty mapDeltas) := by
  have hpar : ∀ p c, ¬ (empty mapDeltas).Parent p c := fun p c =>
    not_mem_empty p
  refine ⟨⟨fun k e he => ?_, fun k e he => ?_, ⟨⟨fun k => Iff.rfl, fun p c => ?_, fun p c hp => ?_⟩,
    fun k hk => ?_, fun k e he => ?_, fun k e he => ?_⟩, fun o tx => ?_, rfl⟩, fun p c => ?_,
    fun k e he => ?_⟩
  · cases he
  · cases he
  · exact ⟨fun h => absurd h (not_mem_empty c), fun h => absurd h (hpar p c)⟩
  · exact absurd hp (hpar p c)
  · obtain ⟨c, hc, -⟩ := TransGen.head'_iff.mp hk
    exact hpar k c hc
  · cases he
  · cases he
  · exact ⟨fun h => (nomatch h), fun ⟨e, he, _⟩ => by cases he⟩
  · exact ⟨fun h => absurd h (hpar p c), fun ⟨_, e, he, _⟩ => by cases he⟩
  · cases he

/-- Every sequence of legal operations from an empty pool leaves its tables
    consistent. -/
theorem run_consistent (mapDeltas : AList fun _ : Uint256 => Int) (ops : List MempoolOp)
    (hlegal : env.LegalRun (empty mapDeltas) ops) {pool : CTxMemPool}
    (hr : env.run (empty mapDeltas) ops = some pool) : Consistent env pool := by
  have hgood := run_good (good_empty mapDeltas) hlegal hr
  exact hgood.stored.consistent hgood.links

end

/-! ### A run -/

namespace SamplePool

def env : MempoolEnv where
  nBytesPerSigOp := 20
  getTransactionWeight _ := 400
  dynamicMemoryUsage pool := pool.mapTx.keys.length
  descendantScoreBegin pool := pool.mapTx.keys.head?

def parent : CTransaction := { hash := 1, vin := [⟨⟨100, 0⟩, [], 0, []⟩], vout := [⟨5, []⟩] }

def child : CTransaction := { hash := 2, vin := [⟨⟨1, 0⟩, [], 0, []⟩], vout := [⟨4, []⟩] }

def ops : List MempoolOp :=
  [.addUnchecked parent 10 0 4 ∅, .addUnchecked child 20 1 8 (ofList [1]),
    .prioritiseTransaction 2 7, .removeForBlock [parent]]

/-- The pool after the first `n` operations. -/
def after (n : Nat) : CTxMemPool :=
  (env.run (empty ∅) (ops.take n)).getD (empty ∅)

example : ((after 3).mapTx.lookup 1).map descendantTotals = some (2, 200, 37) := by decide

theorem legal_parent : AddLegal (after 0) parent 4 ∅ where
  new := by decide
  notOwnParent := by decide
  noChildren c e he := by cases he
  noConflict := by decide
  sigOps := by decide
  ancestors a := by
    refine ⟨fun h => absurd h (not_mem_empty a), ?_⟩
    rintro ⟨p, -, hp, -⟩
    exact absurd (AList.mem_keys.mpr hp) not_mem_nil

theorem legal_child : AddLegal (after 1) child 8 (ofList [1]) where
  new := by decide
  notOwnParent := by decide
  noChildren c e he := by
    have hc : c = 1 := by
      have hmem : c ∈ (after 1).mapTx.keys := AList.mem_keys.mpr (mem_mapTx_iff.mpr ⟨e, he⟩)
      exact mem_singleton.mp hmem
    subst hc
    cases he
    decide
  noConflict := by decide
  sigOps := by decide
  ancestors a := by
    rw [mem_ofList, mem_singleton]
    constructor
    · rintro rfl
      exact ⟨1, .refl, by decide, by decide⟩
    · rintro ⟨p, hreach, -, hin⟩
      obtain rfl : p = 1 := mem_singleton.mp hin
      -- the parent has no parents in the pool
      rcases ReflTransGen.cases_tail hreach with heq | ⟨c, -, hc, e, he, hce⟩
      · exact heq.symm
      · cases he
        obtain rfl : c = 100 := mem_singleton.mp hce
        exact absurd hc (by decide)

theorem legal_block : BlockLegal (after 3) [parent] := by
  rintro before tx rest heq p ⟨hp, e, he, hin⟩
  have hlen := congrArg length heq
  simp only [length_append, length_cons, length_nil] at hlen
  obtain rfl : before = [] := length_eq_zero_iff.mp (by omega)
  cases heq
  cases he
  obtain rfl : p = 100 := mem_singleton.mp hin
  exact absurd hp (by decide)

theorem legalRun : env.LegalRun (empty ∅) ops :=
  legalRun_cons (after 1) rfl legal_parent <|
    legalRun_cons (after 2) rfl legal_child <|
      legalRun_cons (after 3) rfl trivial <|
        legalRun_cons (after 4) rfl legal_block trivial

/-- Spends the outpoint that `parent` spends. -/
def rival : CTransaction := { parent with hash := 3 }

theorem not_isAncestor {pool : CTxMemPool} (hpool : 100 ∉ pool.mapTx) (a : Uint256) :
    ¬ pool.IsAncestor a rival := by
  rintro ⟨p, -, hp, hin⟩
  obtain rfl : p = 100 := mem_singleton.mp hin
  exact hpool hp

/-- Nothing in the pool is a child or an ancestor of `rival`, but what it spends is spent
    there: when `parent` leaves, the outpoint leaves `mapNextTx`. -/
theorem rival_not_consistent :
    AddLegal (empty ∅) parent 4 ∅ ∧
    (∀ c e, (after 1).mapTx.lookup c = some e → rival.hash ∉ e.tx.prevouts.map COutPoint.hash) ∧
    (∀ a, a ∈ (∅ : SetEntries) ↔ (after 1).IsAncestor a rival) ∧
    ∃ pool, env.run (empty ∅) [.addUnchecked parent 10 0 4 ∅, .addUnchecked rival 10 0 4 ∅,
      .removeRecursive parent] = some pool ∧ ¬ Consistent env pool := by
  refine ⟨legal_parent, fun c e he => ?_, fun a => ?_, _, rfl, fun h => ?_⟩
  · have hc : c ∈ (after 1).mapTx.keys := AList.mem_keys.mpr (mem_mapTx_iff.mpr ⟨e, he⟩)
    obtain rfl : c = 1 := mem_singleton.mp hc
    cases he
    decide
  · exact iff_of_false (not_mem_empty a) (not_isAncestor (by decide) a)
  · have hspent := (h.mapNextTx ⟨100, 0⟩ rival).mpr ⟨_, rfl, rfl, by decide⟩
    exact absurd hspent (by decide)

end SamplePool

open SamplePool

theorem run_consistent_sample : Consistent env (after 4) :=
  run_consistent ∅ ops legalRun rfl

end Rcoin
