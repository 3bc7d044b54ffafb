/-
  After blocks have been disconnected, their transactions are put back into a pool
  that may hold descendants of them already.  `addUnchecked` takes each to have no
  children; `UpdateTransactionsFromBlock` then makes the missing links and adds up
  the missing totals.

  Source: src/txmempool.cpp; UpdateMempoolForReorg in src/validation.cpp makes the
  calls.
-/
import Rcoin.Mempool.Run

namespace Rcoin

open Relation CTxMemPool CTxMemPoolEntry Closure Finset List Option SortedSet Worklist COutPoint TransGen

/-- The descendants outside the list of the list members already dealt with. -/
abbrev CacheMap := AList fun _ : Uint256 => SetEntries

/-- A transaction of a disconnected block, with what its new entry records. -/
structure Resurrected where
  tx : CTransaction
  nFee : Int
  nTime : Int
  nSigOpsCost : Int

/-! ## The operations -/

namespace CTxMemPool

/-- The spent outputs of a transaction, in the order of `mapNextTx`. -/
def spentOutputs (pool : CTxMemPool) (hash : Uint256) : List COutPoint :=
  (pool.mapNextTx.keys.filter (·.hash = hash)).insertionSort fun a b => a.n ≤ b.n

/-- The spender of one output of `it` is linked to it, unless it has been met
    before or is in the list.  With the pool go the children met so far
    (`setChildren`). -/
def linkChild (setAlreadyIncluded : SetEntries) (it : Uint256) (st : CTxMemPool × SetEntries)
    (o : COutPoint) : Option (CTxMemPool × SetEntries) := do
  let tx ← st.1.mapNextTx.lookup o
  if tx.hash ∈ st.1.mapTx then
    if tx.hash ∉ st.2 ∧ tx.hash ∉ setAlreadyIncluded then
      some ((st.1.updateChild it tx.hash true).updateParent tx.hash it true, st.2.insert tx.hash)
    else some (st.1, st.2.insert tx.hash)
  else none

end CTxMemPool

namespace MempoolEnv

variable (env : MempoolEnv)

/-- What the loop of `UpdateForDescendants` carries: the pool, the cache and the
    sums over the descendants counted so far. -/
structure DescendantSums where
  pool : CTxMemPool
  cachedDescendants : CacheMap
  modifySize : Int := 0
  modifyFee : Int := 0
  modifyCount : Int := 0

def countDescendant (updateIt : Uint256) (setExclude : SetEntries) (st : DescendantSums)
    (cit : Uint256) : Option DescendantSums := do
  let c ← st.pool.mapTx.lookup cit
  if c.tx.hash ∈ setExclude then some st
  else
    let u ← st.pool.mapTx.lookup updateIt
    let pool ← st.pool.modifyEntry (updateAncestorState (env.getTxSize u) u.getModifiedFee 1
      u.sigOpCost) cit
    let known := (st.cachedDescendants.lookup updateIt).getD ∅
    some {
      pool
      cachedDescendants := st.cachedDescendants.insert updateIt (known.insert cit)
      modifySize := st.modifySize + env.getTxSize c
      modifyFee := st.modifyFee + c.getModifiedFee
      modifyCount := st.modifyCount + 1 }

def updateForDescendants (updateIt : Uint256) (setExclude : SetEntries)
    (cachedDescendants : CacheMap) (pool : CTxMemPool) : Option (CTxMemPool × CacheMap) := do
  let stageEntries ← pool.getMemPoolChildren updateIt
  let setAllDescendants ← collectCached pool.getMemPoolChildren
    cachedDescendants.lookup pool.mapTx.keys.length stageEntries ∅
  let st ← setAllDescendants.elems.foldlM (env.countDescendant updateIt setExclude)
    { pool, cachedDescendants }
  let pool ← st.pool.modifyEntry (updateDescendantState st.modifySize st.modifyFee st.modifyCount)
    updateIt
  some (pool, st.cachedDescendants)

/-- What `UpdateTransactionsFromBlock` does for one hash of the list. -/
def updateTransactionFromBlock (setAlreadyIncluded : SetEntries) (st : CTxMemPool × CacheMap)
    (hash : Uint256) : Option (CTxMemPool × CacheMap) :=
  if hash ∈ st.1.mapTx then do
    let linked ← (st.1.spentOutputs hash).foldlM (linkChild setAlreadyIncluded hash) (st.1, ∅)
    env.updateForDescendants hash setAlreadyIncluded st.2 linked.1
  else some st

def updateTransactionsFromBlock (vHashesToUpdate : List Uint256) (pool : CTxMemPool) :
    Option CTxMemPool :=
  let setAlreadyIncluded := ofList vHashesToUpdate
  (vHashesToUpdate.reverse.foldlM (env.updateTransactionFromBlock setAlreadyIncluded)
    (pool, ∅)).map Prod.fst

/-- `addUnchecked` with the ancestors `CalculateMemPoolAncestors` finds. -/
def addResurrected (pool : CTxMemPool) (r : Resurrected) : Option CTxMemPool := do
  let entry := new env r.tx r.nFee r.nTime r.nSigOpsCost
  let setAncestors ← pool.calculateMemPoolAncestors entry true
  env.addUnchecked r.tx.hash entry setAncestors pool

end MempoolEnv

open MempoolEnv

/-! ## Adding the transactions back -/

/-- The hashes of the transactions. -/
def hashesOf (rs : List Resurrected) : Finset Uint256 := (rs.map fun r => r.tx.hash).toFinset

/-- Transactions in block order that may be added to the pool: none is in it, none
    has a parent in it, and no two of them nor one of them and an entry spend the
    same output. -/
structure Resurrectable (pool : CTxMemPool) (rs : List Resurrected) : Prop where
  new : ∀ r ∈ rs, r.tx.hash ∉ pool.mapTx
  distinct : rs.Pairwise fun r s => r.tx.hash ≠ s.tx.hash
  noParents : ∀ r ∈ rs, ∀ p ∈ r.tx.prevouts.map hash, p ∉ pool.mapTx
  ordered : rs.Pairwise fun r s => s.tx.hash ∉ r.tx.prevouts.map hash
  notOwnParent : ∀ r ∈ rs, r.tx.hash ∉ r.tx.prevouts.map hash
  noConflict : ∀ r ∈ rs, ∀ o ∈ r.tx.prevouts, pool.mapNextTx.lookup o = none
  noDoubleSpend : rs.Pairwise fun r s => ∀ o ∈ r.tx.prevouts, o ∉ s.tx.prevouts
  sigOps : ∀ r ∈ rs, 0 ≤ r.nSigOpsCost ∧ r.nSigOpsCost < 2 ^ 31

theorem Resurrectable.left {pool : CTxMemPool} {rs rest : List Resurrected}
    (h : Resurrectable pool (rs ++ rest)) : Resurrectable pool rs where
  new r hr := h.new r (mem_append_left _ hr)
  distinct := (pairwise_append.mp h.distinct).1
  noParents r hr := h.noParents r (mem_append_left _ hr)
  ordered := (pairwise_append.mp h.ordered).1
  notOwnParent r hr := h.notOwnParent r (mem_append_left _ hr)
  noConflict r hr := h.noConflict r (mem_append_left _ hr)
  noDoubleSpend := (pairwise_append.mp h.noDoubleSpend).1
  sigOps r hr := h.sigOps r (mem_append_left _ hr)

/-- The pool `q` that `pool` has become with the transactions `rs` added: no link
    leads from one of them to an entry that was there before. -/
structure Resurrecting (env : MempoolEnv) (pool q : CTxMemPool) (rs : List Resurrected) : Prop where
  stored : Stored env q
  entries : ∀ k e, q.mapTx.lookup k = some e →
    (∃ e0, pool.mapTx.lookup k = some e0 ∧ e.tx = e0.tx) ∨ ∃ r ∈ rs, r.tx = e.tx
  added : ∀ r ∈ rs, r.tx.hash ∈ q.mapTx
  kept : ∀ k ∈ pool.mapTx, k ∈ q.mapTx
  parent : q.Parent = Cut q.SpendsFrom (hashesOf rs)

variable {k : Uint256}

section

variable {env : MempoolEnv} {pool q q' : CTxMemPool} {rs : List Resurrected} {r : Resurrected}

theorem mem_hashesOf : k ∈ hashesOf rs ↔ ∃ r ∈ rs, r.tx.hash = k := by
  rw [hashesOf, List.mem_toFinset, List.mem_map]

theorem hashesOf_append : k ∈ hashesOf (rs ++ [r]) ↔ k ∈ hashesOf rs ∨ k = r.tx.hash := by
  rw [mem_hashesOf, mem_hashesOf]
  simp only [mem_append, List.mem_singleton]
  constructor
  · rintro ⟨s, hs | rfl, h⟩
    · exact .inl ⟨s, hs, h⟩
    · exact .inr h.symm
  · rintro (⟨s, hs, h⟩ | h)
    · exact ⟨s, .inl hs, h⟩
    · exact ⟨r, .inr rfl, h.symm⟩

theorem calculateMemPoolAncestors_search (hok : LinksOk pool) (entry : CTxMemPoolEntry) :
    ∃ A, pool.calculateMemPoolAncestors entry true = some A ∧ ∀ x, x ∈ A ↔
      ∃ p, ReflTransGen pool.Parent x p ∧ p ∈ pool.mapTx ∧
        p ∈ entry.tx.prevouts.map hash := by
  have hnext : ∀ x ∈ pool.txids, ∃ s, pool.getMemPoolParents x = some s ∧
      ∀ c ∈ s, c ∈ pool.txids :=
    fun x hx => ⟨_, getMemPoolParents_eq ((hok.dom x).mpr (mem_txids.mp hx)),
      fun c hc => mem_txids.mpr (hok.mem c x hc)⟩
  have hsearch : ∀ x, x ∈ pool.searchForParents entry.tx ↔
      x ∈ pool.mapTx ∧ x ∈ entry.tx.prevouts.map hash := by
    intro x
    rw [searchForParents, mem_ofList, mem_filter, decide_eq_true_iff, and_comm]
  obtain ⟨A, hA, hiff⟩ := collect_spec hnext (pool.searchForParents entry.tx) ∅
    (fun x hx => ⟨mem_txids.mpr ((hsearch x).mp hx).1, not_mem_empty x⟩)
    (fun x hx => absurd hx (not_mem_empty x)) (le_of_eq card_txids)
  refine ⟨A, hA, fun x => (hiff x).trans ?_⟩
  have hswap : Worklist.Succ pool.getMemPoolParents = Function.swap pool.Parent :=
    funext fun _ => funext fun _ => propext succ_getMemPoolParents
  rw [hswap]
  constructor
  · rintro (h | ⟨p, hp, h⟩)
    · exact absurd h (not_mem_empty x)
    · exact ⟨p, reflTransGen_swap.mp h, (hsearch p).mp hp⟩
  · rintro ⟨p, h, hp⟩
    exact .inr ⟨p, (hsearch p).mpr hp, reflTransGen_swap.mpr h⟩

variable {c : Uint256} {e : CTxMemPoolEntry}

variable (h : Resurrecting env pool q rs)

include h

theorem Resurrecting.entry_of (hnew : ∀ r ∈ rs, r.tx.hash ∉ pool.mapTx) (hc : c ∈ hashesOf rs)
    (he : q.mapTx.lookup c = some e) : ∃ s ∈ rs, s.tx = e.tx := by
  rcases h.entries c e he with ⟨e0, he0, -⟩ | hs
  · obtain ⟨r, hr, rfl⟩ := mem_hashesOf.mp hc
    exact absurd (mem_mapTx_iff.mpr ⟨e0, he0⟩) (hnew r hr)
  · exact hs

theorem Resurrecting.parent_of (hrs : Resurrectable pool rs) {a : Uint256} (hac : q.SpendsFrom a c)
    (hc : c ∈ hashesOf rs) :
    a ∈ hashesOf rs ∧ ∃ s ∈ rs, s.tx.hash = c ∧ a ∈ s.tx.prevouts.map hash := by
  obtain ⟨ha, e, he, hin⟩ := hac
  obtain ⟨s, hs, htx⟩ := h.entry_of hrs.new hc he
  rw [← htx] at hin
  refine ⟨?_, s, hs, by rw [htx, h.stored.hashes c e he], hin⟩
  obtain ⟨e', he'⟩ := mem_mapTx_iff.mp ha
  rcases h.entries a e' he' with ⟨e0, he0, -⟩ | ⟨r, hr, hre⟩
  · exact absurd (mem_mapTx_iff.mpr ⟨e0, he0⟩) (hrs.noParents s hs a hin)
  · exact mem_hashesOf.mpr ⟨r, hr, by rw [hre, h.stored.hashes a e' he']⟩

theorem Resurrecting.not_mem (hrs : Resurrectable pool (rs ++ [r])) : r.tx.hash ∉ q.mapTx := by
  intro hmem
  obtain ⟨e, he⟩ := mem_mapTx_iff.mp hmem
  rcases h.entries _ e he with ⟨e0, he0, -⟩ | ⟨s, hs, hse⟩
  · exact hrs.new r (by simp) (mem_mapTx_iff.mpr ⟨e0, he0⟩)
  · have hne := (pairwise_append.mp hrs.distinct).2.2 s hs r (by simp)
    exact hne (by rw [hse, h.stored.hashes _ e he])

theorem Resurrecting.noConflict (hnext : NextTxOk pool) (hrs : Resurrectable pool (rs ++ [r])) :
    ∀ o ∈ r.tx.prevouts, q.mapNextTx.lookup o = none := by
  intro o ho
  by_contra hne
  obtain ⟨tx, htx⟩ := ne_none_iff_exists'.mp hne
  obtain ⟨e, he, hetx, hin⟩ := (h.stored.mapNextTx o tx).mp htx
  rcases h.entries _ e he with ⟨e0, he0, heq⟩ | ⟨s, hs, hse⟩
  · have hspent := (hnext o tx).mpr ⟨e0, he0, heq.symm.trans hetx, hin⟩
    rw [hrs.noConflict r (by simp) o ho] at hspent
    cases hspent
  · have hdis := (pairwise_append.mp hrs.noDoubleSpend).2.2 s hs r (by simp)
    rw [hse, hetx] at hdis
    exact hdis o hin ho

theorem Resurrecting.addUnchecked (hnext : NextTxOk pool) (hrs : Resurrectable pool (rs ++ [r]))
    (hadd : env.addResurrected q r = some q') :
    ∃ A, Added env q q' ((new env r.tx r.nFee r.nTime r.nSigOpsCost).updateFeeDelta
      ((q.mapDeltas.lookup r.tx.hash).getD 0)) A ∧ Stored env q' := by
  obtain ⟨A, hA, hadd⟩ := bind_eq_some_iff.mp hadd
  have hrmem : r ∈ rs ++ [r] := by simp
  obtain ⟨A', hA', hiff⟩ := calculateMemPoolAncestors_search h.stored.tallied.links
    (new env r.tx r.nFee r.nTime r.nSigOpsCost)
  obtain rfl : A = A' := Option.some.inj (hA.symm.trans hA')
  exact ⟨A, addUnchecked_added h.stored (h.not_mem hrs) (hrs.notOwnParent r hrmem)
    (h.noConflict hnext hrs) (hrs.sigOps r hrmem) hiff hadd⟩

theorem Resurrecting.add (hnext : NextTxOk pool) (hrs : Resurrectable pool (rs ++ [r]))
    (hadd : env.addResurrected q r = some q') : Resurrecting env pool q' (rs ++ [r]) := by
  have hrmem : r ∈ rs ++ [r] := by simp
  have hnew := h.not_mem hrs
  have hself := hrs.notOwnParent r hrmem
  obtain ⟨A, hadded, hst⟩ := h.addUnchecked hnext hrs hadd
  have hmem : ∀ k, k ∈ q'.mapTx ↔ k = r.tx.hash ∨ k ∈ q.mapTx := fun k => hadded.mem_mapTx
  have hlookup : ∀ k e, q'.mapTx.lookup k = some e → (k = r.tx.hash ∧ e.tx = r.tx) ∨
      k ≠ r.tx.hash ∧ ∃ e0, q.mapTx.lookup k = some e0 ∧ e.tx = e0.tx := by
    intro k e he
    rw [hadded.mapTx] at he
    split at he
    next hk =>
      cases he
      exact .inl ⟨hk, rfl⟩
    next hk =>
      obtain ⟨e0, he0, rfl⟩ := map_eq_some_iff.mp he
      exact .inr ⟨hk, e0, he0, rfl⟩
  refine ⟨hst, fun k e he => ?_, fun s hs => ?_, fun k hk => (hmem k).mpr (.inr (h.kept k hk)), ?_⟩
  · rcases hlookup k e he with ⟨-, htx⟩ | ⟨-, e0, he0, htx⟩
    · exact .inr ⟨r, hrmem, htx.symm⟩
    · rcases h.entries k e0 he0 with ⟨e1, he1, htx1⟩ | ⟨s, hs, htx1⟩
      · exact .inl ⟨e1, he1, htx.trans htx1⟩
      · exact .inr ⟨s, mem_append_left _ hs, htx1.trans htx.symm⟩
  · rw [hmem]
    rcases mem_append.mp hs with hs | hs
    · exact .inr (h.added s hs)
    · exact .inl (by rw [List.mem_singleton.mp hs])
  · funext a c
    refine propext ?_
    rw [hadded.parent, h.parent, Cut, Cut, hashesOf_append, hashesOf_append]
    constructor
    · rintro (⟨⟨ha, e, he, hin⟩, hL⟩ | ⟨hc, ha, hin⟩)
      · have hcn : c ≠ r.tx.hash := fun heq => hnew (heq ▸ mem_mapTx_iff.mpr ⟨e, he⟩)
        have han : a ≠ r.tx.hash := fun heq => hnew (heq ▸ ha)
        have he' : q'.mapTx.lookup c = some (e.adjust 0 (if c ∈ A then
            env.descendantWeight ((new env r.tx r.nFee r.nTime
              r.nSigOpsCost).updateFeeDelta ((q.mapDeltas.lookup r.tx.hash).getD 0)) else 0)) := by
          rw [hadded.mapTx]
          exact (if_neg hcn).trans (by rw [he]; rfl)
        exact ⟨⟨(hmem a).mpr (.inr ha), _, he', hin⟩,
          fun haB => .inl (hL (haB.resolve_right han))⟩
      · obtain ⟨e, he⟩ := mem_mapTx_iff.mp ((hmem c).mpr (.inl hc))
        rcases hlookup c e he with ⟨-, htx⟩ | ⟨hne, -⟩
        · refine ⟨⟨(hmem a).mpr (.inr ha), e, he, ?_⟩, fun _ => .inr hc⟩
          rw [htx]
          exact hin
        · exact absurd hc hne
    · rintro ⟨⟨ha, e, he, hin⟩, hL⟩
      rcases hlookup c e he with ⟨hc, htx⟩ | ⟨hne, e0, he0, htx⟩
      · rw [htx] at hin
        have han : a ≠ r.tx.hash := fun heq => hself (heq ▸ hin)
        exact .inr ⟨hc, ((hmem a).mp ha).resolve_left han, hin⟩
      · rw [htx] at hin
        -- what was added before spends nothing of what is added after
        have han : a ≠ r.tx.hash := by
          intro heq
          have hcB := (hL (.inr heq)).resolve_right hne
          obtain ⟨s, hs, hse⟩ := h.entry_of (fun s hs => hrs.new s (mem_append_left _ hs))
            hcB he0
          have hord := (pairwise_append.mp hrs.ordered).2.2 s hs r (by simp)
          rw [hse, ← heq] at hord
          exact hord hin
        exact .inl ⟨⟨((hmem a).mp ha).resolve_left han, e0, he0, hin⟩,
          fun haB => (hL (.inl haB)).resolve_right hne⟩

omit h

theorem Resurrecting.start (hst : Stored env pool) (hlinks : LinksInputs pool) :
    Resurrecting env pool pool [] where
  stored := hst
  entries k e he := .inl ⟨e, he, rfl⟩
  added r hr := absurd hr not_mem_nil
  kept k hk := hk
  parent := by
    funext a c
    refine propext ((hlinks a c).trans ⟨fun h => ⟨h, fun ha => ?_⟩, fun h => h.1⟩)
    exact absurd ha (notMem_empty a)

theorem resurrecting_of_added (hst : Stored env pool) (hlinks : LinksInputs pool)
    (hrs : Resurrectable pool rs) (hadd : rs.foldlM env.addResurrected pool = some q) :
    Resurrecting env pool q rs ∧ (DeltasOk pool → DeltasOk q) := by
  suffices h : ∀ (rest done : List Resurrected) (p : CTxMemPool), Resurrecting env pool p done →
      Resurrectable pool (done ++ rest) → rest.foldlM env.addResurrected p = some q →
      Resurrecting env pool q (done ++ rest) ∧ (DeltasOk p → DeltasOk q) from
    h rs [] pool (Resurrecting.start hst hlinks) hrs hadd
  intro rest
  induction rest with
  | nil =>
    intro done p hp _ hadd
    cases hadd
    rw [append_nil]
    exact ⟨hp, id⟩
  | cons r rest ih =>
    intro done p hp hall hadd
    obtain ⟨p', hp', hadd⟩ := bind_eq_some_iff.mp hadd
    rw [append_cons] at hall ⊢
    obtain ⟨A, hadded, -⟩ := hp.addUnchecked hst.mapNextTx hall.left hp'
    obtain ⟨hres, hdeltas⟩ := ih (done ++ [r]) p' (hp.add hst.mapNextTx hall.left hp') hall hadd
    exact ⟨hres, fun hok => hdeltas (hadded.deltasOk hok rfl)⟩

end

/-! ## Linking the children -/

section

open scoped Classical

variable {env : MempoolEnv} {S pool q q' : CTxMemPool} {it : Uint256} {L P : Finset Uint256}
  {setExclude : SetEntries}

theorem link_spec (hok : LinksOk pool) (hit : it ∈ pool.mapTx) (hc : c ∈ pool.mapTx) :
    LinksOnly pool ((pool.updateChild it c true).updateParent c it true) ∧
      LinksOk ((pool.updateChild it c true).updateParent c it true) ∧
      ∀ p x, ((pool.updateChild it c true).updateParent c it true).Parent p x ↔
        pool.Parent p x ∨ p = it ∧ x = c := by
  obtain ⟨honly, hdom, hpar, hchild⟩ := foldl_updateChild_spec c true [it] pool
  obtain ⟨honly', hdom', hchild', hpar'⟩ :=
    foldl_updateParent_spec it true [c] (pool.updateChild it c true)
  simp only [foldl_cons, foldl_nil, List.mem_singleton] at *
  have hparent : ∀ p x, ((pool.updateChild it c true).updateParent c it true).Parent p x ↔
      pool.Parent p x ∨ p = it ∧ x = c := by
    intro p x
    rw [Parent, hpar', hpar, Parent]
    by_cases h : x = c ∧ p = it
    · simp [h]
    · rw [if_neg h]
      exact ⟨.inl, fun hor => hor.resolve_right fun hc => h ⟨hc.2, hc.1⟩⟩
  refine ⟨honly.trans honly', ⟨fun h => ?_, fun p x => ?_, fun p x hp => ?_⟩, hparent⟩
  · rw [hdom', hdom, hok.dom, (honly.trans honly').mapTx]
    constructor
    · rintro ((h | rfl) | rfl)
      · exact h
      · exact hit
      · exact hc
    · exact fun h => .inl (.inl h)
  · rw [hchild', hchild, hparent]
    by_cases h : p = it ∧ x = c
    · simp [h]
    · simp [h, hok.symm]
  · rw [(honly.trans honly').mapTx]
    rcases (hparent p x).mp hp with h | ⟨rfl, -⟩
    · exact hok.mem p x h
    · exact hit

theorem foldlM_linkChild {l : List COutPoint} {setChildren : SetEntries} (hok : LinksOk pool)
    (hit : it ∈ pool.mapTx)
    (hl : ∀ o ∈ l, ∃ tx, pool.mapNextTx.lookup o = some tx ∧ tx.hash ∈ pool.mapTx)
    (hmet : ∀ c ∈ setChildren, c ∉ setExclude → pool.Parent it c) :
    ∃ st, l.foldlM (linkChild setExclude it) (pool, setChildren) = some st ∧
      LinksOnly pool st.1 ∧ LinksOk st.1 ∧ ∀ p c, st.1.Parent p c ↔ pool.Parent p c ∨
        p = it ∧ c ∉ setExclude ∧ ∃ o ∈ l, ∃ tx, pool.mapNextTx.lookup o = some tx ∧
          tx.hash = c := by
  induction l generalizing pool setChildren with
  | nil => exact ⟨(pool, setChildren), rfl, LinksOnly.refl pool, hok, by simp⟩
  | cons o l ih =>
    obtain ⟨tx, hlookup, hmem⟩ := hl o mem_cons_self
    have hl' : ∀ o ∈ l, ∃ tx, pool.mapNextTx.lookup o = some tx ∧ tx.hash ∈ pool.mapTx :=
      fun o ho => hl o (mem_cons_of_mem _ ho)
    have hstep : linkChild setExclude it (pool, setChildren) o = some
        (if tx.hash ∉ setChildren ∧ tx.hash ∉ setExclude then
          (pool.updateChild it tx.hash true).updateParent tx.hash it true else pool,
        setChildren.insert tx.hash) := by
      simp only [linkChild, hlookup, bind_eq_bind, bind_some, if_pos hmem]
      split <;> rfl
    rw [foldlM_cons, hstep]
    -- a child is linked when it is met first and is not excluded; one that was met
    -- before has its link already, which is what `hmet` says
    by_cases hnew : tx.hash ∉ setChildren ∧ tx.hash ∉ setExclude
    · obtain ⟨honly, hok', hpar⟩ := link_spec hok hit hmem
      obtain ⟨st, hst, honly', hok'', hpar'⟩ := @ih
        ((pool.updateChild it tx.hash true).updateParent tx.hash it true)
        (setChildren.insert tx.hash) hok' (by rwa [honly.mapTx])
        (by rwa [honly.mapNextTx, honly.mapTx]) (fun c hc hcL => by
          rw [hpar]
          rcases mem_insert.mp hc with rfl | hc
          · exact .inr ⟨rfl, rfl⟩
          · exact .inl (hmet c hc hcL))
      refine ⟨st, ?_, honly.trans honly', hok'', fun p c => ?_⟩
      · rw [if_pos hnew]
        exact hst
      · rw [hpar', hpar, honly.mapNextTx]
        simp only [exists_mem_cons_iff, hlookup, Option.some.injEq, exists_eq_left']
        constructor
        · rintro ((h | ⟨rfl, rfl⟩) | ⟨rfl, hcL, h⟩)
          · exact .inl h
          · exact .inr ⟨rfl, hnew.2, .inl rfl⟩
          · exact .inr ⟨rfl, hcL, .inr h⟩
        · rintro (h | ⟨rfl, hcL, rfl | h⟩)
          · exact .inl (.inl h)
          · exact .inl (.inr ⟨rfl, rfl⟩)
          · exact .inr ⟨rfl, hcL, h⟩
    · obtain ⟨st, hst, honly', hok'', hpar'⟩ := @ih pool (setChildren.insert tx.hash) hok hit hl'
        (fun c hc hcL => by
          rcases mem_insert.mp hc with rfl | hc
          · by_contra hpc
            exact hnew ⟨fun hm => hpc (hmet _ hm hcL), hcL⟩
          · exact hmet c hc hcL)
      refine ⟨st, ?_, honly', hok'', fun p c => ?_⟩
      · rw [if_neg hnew]
        exact hst
      · rw [hpar']
        simp only [exists_mem_cons_iff, hlookup, Option.some.injEq, exists_eq_left']
        constructor
        · rintro (h | ⟨rfl, hcL, h⟩)
          · exact .inl h
          · exact .inr ⟨rfl, hcL, .inr h⟩
        · rintro (h | ⟨rfl, hcL, rfl | h⟩)
          · exact .inl h
          · left
            by_contra hpc
            exact hnew ⟨fun hm => hpc (hmet _ hm hcL), hcL⟩
          · exact .inr ⟨rfl, hcL, h⟩

theorem mem_spentOutputs {o : COutPoint} :
    o ∈ pool.spentOutputs it ↔ (∃ tx, pool.mapNextTx.lookup o = some tx) ∧ o.hash = it := by
  rw [spentOutputs, mem_insertionSort, mem_filter, ← AList.mem_keys, ← AList.lookup_isSome,
    isSome_iff_exists, decide_eq_true_iff]

theorem linkChildren_spec (hok : LinksOk pool) (hit : it ∈ pool.mapTx) (hhash : HashesOk pool)
    (hnext : NextTxOk pool) :
    ∃ st, (pool.spentOutputs it).foldlM (linkChild setExclude it) (pool, ∅) = some st ∧
      LinksOnly pool st.1 ∧ LinksOk st.1 ∧ ∀ p c, st.1.Parent p c ↔ pool.Parent p c ∨
        p = it ∧ c ∉ setExclude ∧ pool.SpendsFrom it c := by
  obtain ⟨st, hst, honly, hok', hpar⟩ := @foldlM_linkChild pool it setExclude
    (pool.spentOutputs it) ∅ hok hit (fun o ho => by
      obtain ⟨⟨tx, htx⟩, -⟩ := mem_spentOutputs.mp ho
      obtain ⟨e, he, -, -⟩ := (hnext o tx).mp htx
      exact ⟨tx, htx, mem_mapTx_iff.mpr ⟨e, he⟩⟩)
    (fun c hc => absurd hc (not_mem_empty c))
  refine ⟨st, hst, honly, hok', fun p c => (hpar p c).trans ?_⟩
  refine or_congr_right (and_congr_right fun _ => and_congr_right fun _ => ?_)
  constructor
  · rintro ⟨o, ho, tx, htx, rfl⟩
    obtain ⟨e, he, heq, hin⟩ := (hnext o tx).mp htx
    refine ⟨hit, e, he, ?_⟩
    rw [heq]
    exact mem_map.mpr ⟨o, hin, (mem_spentOutputs.mp ho).2⟩
  · rintro ⟨-, e, he, hin⟩
    obtain ⟨o, ho, hoh⟩ := mem_map.mp hin
    have hc := hhash c e he
    have htx := (hnext o e.tx).mpr ⟨e, by rw [hc, he], rfl, ho⟩
    exact ⟨o, mem_spentOutputs.mpr ⟨⟨e.tx, htx⟩, hoh⟩, e.tx, htx, hc⟩

/-! ## Counting the descendants -/

/-- What the loop over the descendants `l` of `r` does: those outside the list get
    `r` as an ancestor, are counted and enter the cache. -/
structure Counted (env : MempoolEnv) (r : Uint256) (setExclude : SetEntries) (l : List Uint256)
    (st st' : DescendantSums) : Prop where
  moved : Moved st.pool st'.pool (fun k => (l.map fun x =>
    if x = k ∧ x ∉ setExclude then env.ancestorWeightAt st.pool r else 0).sum) 0
  mapLinks : st'.pool.mapLinks = st.pool.mapLinks
  sums : (st'.modifyCount, st'.modifySize, st'.modifyFee) =
    (st.modifyCount, st.modifySize, st.modifyFee) +
      (l.map fun x => if x ∉ setExclude then env.descendantWeightAt st.pool x else 0).sum
  others : ∀ c, c ≠ r → st'.cachedDescendants.lookup c = st.cachedDescendants.lookup c
  known : ∀ x, x ∈ (st'.cachedDescendants.lookup r).getD ∅ ↔
    x ∈ (st.cachedDescendants.lookup r).getD ∅ ∨ (x ∈ l ∧ x ∉ setExclude)

variable {r x : Uint256}

theorem countDescendant_spec {st st' : DescendantSums} (hhash : HashesOk st.pool)
    (h : env.countDescendant r setExclude st x = some st') :
    Counted env r setExclude [x] st st' := by
  obtain ⟨c, hc, h⟩ := bind_eq_some_iff.mp h
  rw [hhash x c hc] at h
  split at h
  next hx =>
    cases h
    refine ⟨(Moved.refl _).congr (fun k => ?_) fun _ => rfl, rfl, ?_, fun _ _ => rfl, fun y => ?_⟩
    · simp [hx]
    · simp [hx]
    · refine ⟨.inl, fun h => h.elim id fun ⟨hy, hn⟩ => absurd hx ?_⟩
      rwa [List.mem_singleton.mp hy] at hn
  next hx =>
    obtain ⟨u, hu, h⟩ := bind_eq_some_iff.mp h
    obtain ⟨p, hp, h⟩ := bind_eq_some_iff.mp h
    cases h
    obtain ⟨hm, hl⟩ := modifyEntry_spec (fun _ _ => updateAncestorState_eq_some) hp
    have hwu : env.ancestorWeightAt st.pool r = env.ancestorWeight u := by
      rw [ancestorWeightAt, hu, elim_some]
    have hwc : env.descendantWeightAt st.pool x = env.descendantWeight c := by
      rw [descendantWeightAt, hc, elim_some]
    refine ⟨hm.congr (fun k => ?_) (fun k => by simp), hl, ?_, fun y hy => ?_, fun y => ?_⟩
    · rw [hwu, List.map_singleton, List.sum_singleton]
      by_cases hk : k = x
      · rw [if_pos hk, if_pos ⟨hk.symm, hx⟩]
        rfl
      · rw [if_neg hk, if_neg fun h => hk h.1.symm]
    · rw [List.map_singleton, List.sum_singleton, if_pos hx, hwc]
      rfl
    · show (st.cachedDescendants.insert r _).lookup y = _
      rw [Maps.lookup_insert, if_neg hy]
    · show y ∈ ((st.cachedDescendants.insert r _).lookup r).getD ∅ ↔ _
      rw [Maps.lookup_insert, if_pos rfl, getD_some, SortedSet.mem_insert,
        List.mem_singleton]
      constructor
      · rintro (rfl | h)
        · exact .inr ⟨rfl, hx⟩
        · exact .inl h
      · rintro (h | ⟨rfl, -⟩)
        · exact .inr h
        · exact .inl rfl

variable {l : List Uint256}

theorem foldlM_countDescendant {st st' : DescendantSums} (hhash : HashesOk st.pool)
    (h : l.foldlM (env.countDescendant r setExclude) st = some st') :
    Counted env r setExclude l st st' := by
  induction l generalizing st with
  | nil =>
    cases h
    exact ⟨(Moved.refl _).congr (fun _ => rfl) fun _ => rfl, rfl, (add_zero _).symm,
      fun _ _ => rfl, fun x => by simp⟩
  | cons x l ih =>
    obtain ⟨st1, hx, h⟩ := bind_eq_some_iff.mp h
    have hone := countDescendant_spec hhash hx
    have hrest := ih (hone.moved.hashesOk hhash) h
    refine ⟨(hone.moved.trans hrest.moved).congr (fun k => ?_) (fun k => by simp),
      hrest.mapLinks.trans hone.mapLinks, ?_, fun c hc => (hrest.others c hc).trans
        (hone.others c hc), fun y => ?_⟩
    · simp [hone.moved.ancestorWeightAt]
    · rw [hrest.sums, hone.sums, add_assoc]
      simp [hone.moved.descendantWeightAt]
    · rw [hrest.known, hone.known]
      simp only [List.mem_cons, not_mem_nil, or_false]
      tauto

/-! ## One member of the list -/

/-- What the entry `k` gains as an ancestor's share when `r` is dealt with. -/
noncomputable def ancestorGain (env : MempoolEnv) (S : CTxMemPool) (L : Finset Uint256)
    (r k : Uint256) : AncestorTotals :=
  if k ∉ L ∧ TransGen S.SpendsFrom r k then env.ancestorWeightAt S r else 0

/-- What the entry `k` gains as its descendants' shares when `r` is dealt with. -/
noncomputable def descendantGain (env : MempoolEnv) (S : CTxMemPool) (L : Finset Uint256)
    (r k : Uint256) : DescendantTotals :=
  if k = r then ∑ x ∈ S.txids.filter (fun x => x ∉ L ∧ TransGen S.SpendsFrom r x),
    env.descendantWeightAt S x else 0

/-- The pool `q` that `S` has become with the members `P` of the list `L` dealt
    with, and the cache. -/
structure Updated (env : MempoolEnv) (S : CTxMemPool) (L P : Finset Uint256) (q : CTxMemPool)
    (cached : CacheMap) : Prop where
  moved : Moved S q (fun k => ∑ r ∈ P, ancestorGain env S L r k)
    fun k => ∑ r ∈ P, descendantGain env S L r k
  links : LinksOk q
  parent : ∀ p c, q.Parent p c ↔ S.SpendsFrom p c ∧ (p ∈ L → c ∈ L ∨ p ∈ P)
  cachedMem : ∀ c s, cached.lookup c = some s → c ∈ P
  cachedSet : ∀ c s, cached.lookup c = some s →
    ∀ x, x ∈ s ↔ x ∉ L ∧ TransGen S.SpendsFrom c x

variable {a : Uint256 → AncestorTotals} {d : Uint256 → DescendantTotals}

theorem moved_spendsFrom (h : Moved pool q a d) : q.SpendsFrom = pool.SpendsFrom := by
  funext p c
  refine propext (and_congr h.mem ⟨?_, ?_⟩)
  · rintro ⟨e, he, hin⟩
    obtain ⟨e0, he0, rfl⟩ := h.lookup he
    exact ⟨e0, he0, hin⟩
  · rintro ⟨e, he, hin⟩
    exact ⟨e.adjust (a c) (d c), by rw [h.mapTx, he]; rfl, hin⟩

theorem moved_nextTxOk (h : Moved pool q a d) (hok : NextTxOk pool) : NextTxOk q := by
  intro o tx
  rw [h.mapNextTx, hok]
  constructor
  · rintro ⟨e, he, rfl, ho⟩
    exact ⟨e.adjust _ _, by rw [h.mapTx, he]; rfl, rfl, ho⟩
  · rintro ⟨e, he, rfl, ho⟩
    obtain ⟨e0, he0, heq⟩ := h.lookup he
    exact ⟨e0, he0, by rw [heq, tx_adjust], ho⟩

variable {cached : CacheMap}

theorem collectDescendants_spec (hok : LinksOk q) (hr : r ∈ q.mapTx)
    (hpar : ∀ p c, q.Parent p c ↔ S.SpendsFrom p c ∧ (p ∈ L → c ∈ L ∨ p ∈ insert r P))
    (hpred : ∀ a c, S.SpendsFrom a c → c ∈ L → a ∈ L)
    (hlater : ∀ a c, S.SpendsFrom a c → a ∈ insert r P → c ∈ L → c ∈ P)
    (hcache : Worklist.CacheOk S.SpendsFrom L cached.lookup) :
    ∃ stage res, q.getMemPoolChildren r = some stage ∧
      collectCached q.getMemPoolChildren cached.lookup q.mapTx.keys.length stage ∅ =
        some res ∧ (∀ x ∈ res, TransGen S.SpendsFrom r x) ∧
      ∀ x, x ∉ L → TransGen S.SpendsFrom r x → x ∈ res := by
  -- the nodes whose children are all linked
  let U := q.txids.filter fun x => x ∈ L → x ∈ insert r P
  have hchild : ∀ a, (a ∈ L → a ∈ insert r P) → ∀ c, c ∈ (q.links a).children ↔
      S.SpendsFrom a c := by
    intro a ha c
    rw [hok.symm, hpar]
    exact ⟨fun h => h.1, fun h => ⟨h, fun haL => .inr (ha haL)⟩⟩
  have hclosed : ∀ a, (a ∈ L → a ∈ insert r P) → ∀ c ∈ (q.links a).children, c ∈ U := by
    intro a ha c hc
    have hac := (hchild a ha c).mp hc
    refine mem_filter.mpr ⟨mem_txids.mpr (hok.mem_child ((hok.symm a c).mp hc)), fun hcL => ?_⟩
    exact mem_insert_of_mem (hlater a c hac (ha (hpred a c hac hcL)) hcL)
  have hget : ∀ a ∈ q.mapTx, q.getMemPoolChildren a = some (q.links a).children :=
    fun a ha => getMemPoolChildren_eq ((hok.dom a).mpr ha)
  have hrU : r ∈ L → r ∈ insert r P := fun _ => mem_insert_self r P
  obtain ⟨res, hres, hsound, hcomplete⟩ := collectCached_spec hcache (fun a ha => by
    obtain ⟨hmem, haP⟩ := Finset.mem_filter.mp ha
    exact ⟨_, hget a (mem_txids.mp hmem), hchild a haP, hclosed a haP⟩) (hchild r hrU)
    (hclosed r hrU) ((card_filter_le _ _).trans (le_of_eq card_txids))
  exact ⟨_, res, hget r hr, hres, hsound, hcomplete⟩

/-- The turn of `r` after the members `P` of the list `L`: what is known then of
    the inputs. -/
structure Turn (S : CTxMemPool) (setExclude : SetEntries) (L P : Finset Uint256) (r : Uint256) :
    Prop where
  exclude : ∀ x, x ∈ setExclude ↔ x ∈ L
  subset : P ⊆ L
  mem : r ∈ S.mapTx
  listed : r ∈ L
  fresh : r ∉ P
  pred : ∀ a c, S.SpendsFrom a c → c ∈ L → a ∈ L
  later : ∀ a c, S.SpendsFrom a c → a ∈ insert r P → c ∈ L → c ∈ P

theorem Updated.walk (hup : Updated env S L P q cached) (hhash : HashesOk S) (hnext : NextTxOk S)
    (ht : Turn S setExclude L P r) : ∃ linked stage res,
      (q.spentOutputs r).foldlM (linkChild setExclude r) (q, ∅) = some linked ∧
      LinksOnly q linked.1 ∧ LinksOk linked.1 ∧
      (∀ p c, linked.1.Parent p c ↔ S.SpendsFrom p c ∧ (p ∈ L → c ∈ L ∨ p ∈ insert r P)) ∧
      linked.1.getMemPoolChildren r = some stage ∧
      collectCached linked.1.getMemPoolChildren cached.lookup
        linked.1.mapTx.keys.length stage ∅ = some res ∧
      (∀ x ∈ res, TransGen S.SpendsFrom r x) ∧
      ∀ x, x ∉ L → TransGen S.SpendsFrom r x → x ∈ res := by
  have hrq : r ∈ q.mapTx := hup.moved.mem.mpr ht.mem
  obtain ⟨linked, hlinked, honly, hok, hpar⟩ := @linkChildren_spec q r setExclude hup.links hrq
    (hup.moved.hashesOk hhash) (moved_nextTxOk hup.moved hnext)
  have hpar1 : ∀ p c, linked.1.Parent p c ↔
      S.SpendsFrom p c ∧ (p ∈ L → c ∈ L ∨ p ∈ insert r P) := by
    intro p c
    rw [hpar, hup.parent, moved_spendsFrom hup.moved, ht.exclude, Finset.mem_insert]
    by_cases hp : p = r
    · subst hp
      tauto
    · tauto
  obtain ⟨stage, res, hstage, hres, hreach⟩ := collectDescendants_spec hok
    (by rwa [honly.mapTx]) hpar1 ht.pred ht.later
    ⟨ht.pred, fun c s hs => ht.subset (hup.cachedMem c s hs), hup.cachedSet⟩
  exact ⟨linked, stage, res, hlinked, honly, hok, hpar1, hstage, hres, hreach⟩

theorem Counted.sums_eq {p1 : CTxMemPool} {res : SetEntries} {counted : DescendantSums}
    (hc : Counted env r setExclude res.elems { pool := p1, cachedDescendants := cached } counted)
    (hm : Moved S p1 a d) (hL : ∀ x, x ∈ setExclude ↔ x ∈ L)
    (hsound : ∀ x ∈ res, TransGen S.SpendsFrom r x)
    (hcomplete : ∀ x, x ∉ L → TransGen S.SpendsFrom r x → x ∈ res) :
    (counted.modifyCount, counted.modifySize, counted.modifyFee) = descendantGain env S L r r := by
  rw [hc.sums, sum_elems, descendantGain, if_pos rfl, ← sum_filter]
  refine (zero_add _).trans (sum_congr ?_ fun x _ => hm.descendantWeightAt env x)
  ext x
  rw [Finset.mem_filter, Finset.mem_filter, SortedSet.mem_toFinset, hL]
  constructor
  · rintro ⟨hx, hxL⟩
    have hreach := hsound x hx
    refine ⟨?_, hxL, hreach⟩
    obtain ⟨y, -, -, e, he, -⟩ := tail'_iff.mp hreach
    exact mem_txids.mpr (mem_mapTx_iff.mpr ⟨e, he⟩)
  · rintro ⟨-, hxL, hx⟩
    exact ⟨hcomplete x hxL hx, hxL⟩

variable {st : CTxMemPool × CacheMap}

theorem Updated.step (hup : Updated env S L P q cached) (hhash : HashesOk S) (hnext : NextTxOk S)
    (ht : Turn S setExclude L P r)
    (h : env.updateTransactionFromBlock setExclude (q, cached) r = some st) :
    Updated env S L (insert r P) st.1 st.2 := by
  have hL := ht.exclude
  have hrP := ht.fresh
  obtain ⟨linked, stage, res, hlinked, honly, hok, hpar1, hstage, hres, hsound, hcomplete⟩ :=
    hup.walk hhash hnext ht
  have hiff : ∀ x, x ∉ L → (x ∈ res ↔ TransGen S.SpendsFrom r x) :=
    fun x hx => ⟨hsound x, hcomplete x hx⟩
  unfold updateTransactionFromBlock at h
  rw [if_pos (hup.moved.mem.mpr ht.mem)] at h
  simp only [hlinked, bind_eq_bind, bind_some, updateForDescendants,
    hstage, hres] at h
  generalize linked.1 = p1 at honly hok hpar1 h
  have hm1 := hup.moved.trans honly.moved
  obtain ⟨counted, hcounted, h⟩ := bind_eq_some_iff.mp h
  obtain ⟨p3, hp3, h⟩ := bind_eq_some_iff.mp h
  cases h
  have hc := foldlM_countDescendant (hm1.hashesOk hhash) hcounted
  obtain ⟨hm3, hl3⟩ := modifyEntry_spec (fun _ _ => updateDescendantState_eq_some) hp3
  have hsums := hc.sums_eq hm1 hL hsound hcomplete
  have hlinks : p3.mapLinks = p1.mapLinks := hl3.trans hc.mapLinks
  -- only earlier members of the list have a cached set
  have hnone : cached.lookup r = none := by
    by_contra hne
    obtain ⟨s, hs⟩ := ne_none_iff_exists'.mp hne
    exact hrP (hup.cachedMem r s hs)
  refine ⟨((hm1.trans hc.moved).trans hm3).congr (fun k => ?_) (fun k => ?_),
    (hc.moved.trans hm3).linksOk hlinks hok, fun p c => ?_, fun c s hs => ?_, fun c s hs => ?_⟩
  · rw [sum_insert hrP, add_comm (ancestorGain env S L r k)]
    simp only [Pi.add_apply, add_zero, ite_self]
    congr 1
    -- a descendant outside the list gains r once; no other entry is visited
    rw [sum_elems, ancestorGain, ← hm1.ancestorWeightAt env r]
    by_cases hk : k ∉ L ∧ TransGen S.SpendsFrom r k
    · rw [if_pos hk, sum_eq_single k]
      · exact if_pos ⟨rfl, fun hm => hk.1 ((hL k).mp hm)⟩
      · exact fun x _ hx => if_neg fun h => hx h.1
      · exact fun hm => absurd ((hiff k hk.1).mpr hk.2) hm
    · rw [if_neg hk]
      refine sum_eq_zero fun x hx => if_neg ?_
      rintro ⟨rfl, hxL⟩
      rw [hL] at hxL
      exact hk ⟨hxL, (hiff x hxL).mp hx⟩
  · rw [sum_insert hrP, add_comm (descendantGain env S L r k)]
    simp only [Pi.add_apply, add_zero, hsums]
    by_cases hk : k = r
    · rw [if_pos hk, hk]
    · rw [if_neg hk, descendantGain, if_neg hk]
  · rw [parent_congr hlinks, hpar1]
  · by_cases hcr : c = r
    · exact hcr ▸ Finset.mem_insert_self r P
    · rw [hc.others c hcr] at hs
      exact mem_insert_of_mem (hup.cachedMem c s hs)
  · by_cases hcr : c = r
    · subst hcr
      intro x
      have hknown := hc.known x
      simp only [hs, hnone, getD_some, getD_none] at hknown
      rw [hknown, mem_elems, hL]
      constructor
      · rintro (h | ⟨hx, hxL⟩)
        · exact absurd h (not_mem_empty x)
        · exact ⟨hxL, (hiff x hxL).mp hx⟩
      · rintro ⟨hxL, hx⟩
        exact .inr ⟨(hiff x hxL).mpr hx, hxL⟩
    · rw [hc.others c hcr] at hs
      exact hup.cachedSet c s hs

/-! ## The whole list -/

variable {rs : List Resurrected}

variable {done : List Resurrected}

theorem hashesOf_cons {r : Resurrected} :
    hashesOf (r :: done) = insert r.tx.hash (hashesOf done) := by
  rw [hashesOf, List.map_cons, toFinset_cons]
  rfl

variable {before : List Resurrected}

variable (h : Resurrecting env pool S rs)

include h

theorem Resurrecting.child_after (hrs : Resurrectable pool rs) {r : Resurrected}
    (heq : rs = before ++ r :: done) {a : Uint256} (hac : S.SpendsFrom a c)
    (ha : a ∈ insert r.tx.hash (hashesOf done)) (hc : c ∈ hashesOf rs)
    : c ∈ hashesOf done := by
  obtain ⟨-, s, hs, rfl, hin⟩ := h.parent_of hrs hac hc
  rw [← hashesOf_cons] at ha
  obtain ⟨t, ht, rfl⟩ := mem_hashesOf.mp ha
  rw [heq] at hs
  have hord := hrs.ordered
  rw [heq] at hord
  obtain ⟨-, hord', hbefore⟩ := pairwise_append.mp hord
  rcases mem_append.mp hs with hs | hs
  · exact absurd hin (hbefore s hs t ht)
  · rcases mem_cons.mp hs with rfl | hs
    · rcases mem_cons.mp ht with rfl | ht
      · exact absurd hin (hrs.notOwnParent t (by simp [heq]))
      · exact absurd hin ((pairwise_cons.mp hord').1 t ht)
    · exact mem_hashesOf.mpr ⟨s, hs, rfl⟩

theorem Resurrecting.turn (hrs : Resurrectable pool rs) {r : Resurrected}
    (heq : rs = before ++ r :: done) :
    Turn S (ofList (rs.map fun r => r.tx.hash)) (hashesOf rs) (hashesOf done) r.tx.hash where
  exclude x := by rw [mem_ofList, hashesOf, List.mem_toFinset]
  subset x hx := by
    obtain ⟨s, hs, rfl⟩ := mem_hashesOf.mp hx
    exact mem_hashesOf.mpr ⟨s, by simp [heq, hs], rfl⟩
  mem := h.added r (by simp [heq])
  listed := mem_hashesOf.mpr ⟨r, by simp [heq], rfl⟩
  fresh hm := by
    obtain ⟨s, hs, hsr⟩ := mem_hashesOf.mp hm
    have hdis := hrs.distinct
    rw [heq] at hdis
    exact (pairwise_cons.mp (pairwise_append.mp hdis).2.1).1 s hs hsr.symm
  pred _ _ hac hc := (h.parent_of hrs hac hc).1
  later _ _ hac ha hc := h.child_after hrs heq hac ha hc

theorem Updated.start :
    Updated env S (hashesOf rs) ∅ S ∅ where
  moved := (Moved.refl S).congr (fun _ => rfl) fun _ => rfl
  links := h.stored.tallied.links
  parent p c := by
    rw [h.parent, Cut]
    simp
  cachedMem c s hs := by cases hs
  cachedSet c s hs := by cases hs

theorem foldlM_updateTransactionFromBlock (hrs : Resurrectable pool rs)
    (hup : (rs.map fun r => r.tx.hash).reverse.foldlM (env.updateTransactionFromBlock
      (ofList (rs.map fun r => r.tx.hash))) (S, ∅) = some st) :
    Updated env S (hashesOf rs) (hashesOf rs) st.1 st.2 := by
  -- the members dealt with are the end of the list
  suffices hl : ∀ (before done : List Resurrected) (q : CTxMemPool × CacheMap),
      rs = before ++ done → Updated env S (hashesOf rs) (hashesOf done) q.1 q.2 →
      (before.map fun r => r.tx.hash).reverse.foldlM (env.updateTransactionFromBlock
        (ofList (rs.map fun r => r.tx.hash))) q = some st →
      Updated env S (hashesOf rs) (hashesOf rs) st.1 st.2 from
    hl rs [] (S, ∅) (append_nil rs).symm (Updated.start h) hup
  intro before
  induction before using reverseRecOn with
  | nil =>
    intro done q heq hq hup
    cases hup
    rw [nil_append] at heq
    rwa [← heq] at hq
  | append_singleton before r ih =>
    intro done q heq hq hup
    rw [map_append, List.map_singleton, reverse_append, reverse_singleton,
      singleton_append, foldlM_cons] at hup
    obtain ⟨q', hq', hup⟩ := bind_eq_some_iff.mp hup
    rw [append_assoc, singleton_append] at heq
    have hstep := hq.step h.stored.hashes h.stored.mapNextTx (h.turn hrs heq) hq'
    rw [← hashesOf_cons] at hstep
    exact ih (r :: done) q' heq hstep hup

omit h

/-! ## The totals at the end -/

theorem sum_ancestorGain (hL : L ⊆ S.txids) (k : Uint256) :
    ∑ r ∈ L, ancestorGain env S L r k =
      ∑ a ∈ (reaching S.SpendsFrom S.txids k).filter (fun a => ¬ (a ∈ L → k ∈ L)),
        env.ancestorWeightAt S a := by
  unfold ancestorGain
  rw [← sum_filter]
  refine sum_congr ?_ fun _ _ => rfl
  ext a
  rw [Finset.mem_filter, Finset.mem_filter, mem_reaching, Classical.not_imp]
  constructor
  · rintro ⟨haL, hk, h⟩
    exact ⟨⟨hL haL, h.to_reflTransGen⟩, haL, hk⟩
  · rintro ⟨⟨-, h⟩, haL, hk⟩
    refine ⟨haL, hk, (reflTransGen_iff_eq_or_transGen.mp h).resolve_left fun heq => hk ?_⟩
    rwa [heq]

theorem sum_descendantGain (k : Uint256) :
    ∑ r ∈ L, descendantGain env S L r k =
      ∑ x ∈ (reaching (Function.swap S.SpendsFrom) S.txids k).filter
        (fun x => ¬ (k ∈ L → x ∈ L)), env.descendantWeightAt S x := by
  unfold descendantGain
  rw [sum_ite_eq]
  split
  next hk =>
    refine sum_congr ?_ fun _ _ => rfl
    ext x
    rw [Finset.mem_filter, Finset.mem_filter, mem_reaching, Classical.not_imp,
      reflTransGen_swap]
    constructor
    · rintro ⟨hx, hxL, h⟩
      exact ⟨⟨hx, h.to_reflTransGen⟩, hk, hxL⟩
    · rintro ⟨⟨hx, h⟩, -, hxL⟩
      refine ⟨hx, hxL, (reflTransGen_iff_eq_or_transGen.mp h).resolve_left fun heq => hxL ?_⟩
      rwa [heq]
  next hk =>
    refine (Finset.sum_eq_zero fun x hx => ?_).symm
    exact absurd (Classical.not_imp.mp (Finset.mem_filter.mp hx).2).1 hk

theorem Updated.stored (hup : Updated env S L L q cached) (hst : Stored env S)
    (hcut : S.Parent = Cut S.SpendsFrom L) (hL : L ⊆ S.txids)
    (hpred : ∀ a c, S.SpendsFrom a c → c ∈ L → a ∈ L) : Stored env q ∧ LinksInputs q := by
  have hparent : q.Parent = S.SpendsFrom := by
    funext p c
    refine propext ((hup.parent p c).trans ⟨fun h => h.1, fun h => ⟨h, .inr⟩⟩)
  have htxids := hup.moved.txids
  refine ⟨⟨hup.moved.hashesOk hst.hashes, hup.moved.sigOpsOk hst.sigOps,
    ⟨hup.links, fun k hk => ?_, fun k e he => ?_, fun k e he => ?_⟩,
    moved_nextTxOk hup.moved hst.mapNextTx, ?_⟩, fun p c => ?_⟩
  · -- a cycle lies inside the list or outside it, and was there before
    rw [hparent] at hk
    obtain ⟨c, hc, hreach⟩ := head'_iff.mp hk
    have hback : ∀ {a}, ReflTransGen S.SpendsFrom a k → k ∈ L → a ∈ L := by
      intro a ha hkL
      induction ha using ReflTransGen.head_induction_on with
      | refl => exact hkL
      | head hac _ ih => exact hpred _ _ hac ih
    refine hst.tallied.acyclic k (head'_iff.mpr ⟨c, ?_, ?_⟩)
    · rw [hcut]
      exact ⟨hc, hback hreach⟩
    · rw [hcut, reaches_cut_iff hpred]
      exact ⟨hreach, hpred k c hc⟩
  · obtain ⟨e0, he0, rfl⟩ := hup.moved.lookup he
    rw [ancestorTotals_adjust, hst.tallied.ancestors k e0 he0, sum_ancestorGain hL, hparent, htxids,
      hcut, total_congr fun x _ => hup.moved.ancestorWeightAt env x]
    exact (total_eq_add_rest fun a => reaches_cut_iff hpred).symm
  · obtain ⟨e0, he0, rfl⟩ := hup.moved.lookup he
    rw [descendantTotals_adjust, hst.tallied.descendants k e0 he0, sum_descendantGain, hparent,
      htxids, hcut, total_congr fun x _ => hup.moved.descendantWeightAt env x]
    refine (total_eq_add_rest fun x => ?_).symm
    exact (reflTransGen_swap.trans (reaches_cut_iff hpred)).trans
      (and_congr_left' reflTransGen_swap.symm)
  · rw [hup.moved.totalTxSize, hst.totalTxSize, htxids]
    refine sum_congr rfl fun x _ => ?_
    rw [sizeAt, sizeAt, hup.moved.mapTx]
    cases S.mapTx.lookup x <;> rfl
  · rw [hparent, moved_spendsFrom hup.moved]

/-! ## No assertion fails -/

/-- Transactions have a positive size, and the sigop costs of the whole pool fit
    an `int`. -/
structure Bounded (env : MempoolEnv) (S : CTxMemPool) : Prop where
  size : ∀ h e, S.mapTx.lookup h = some e → 0 < env.getTxSize e
  sigOps : ∑ h ∈ S.txids, (env.ancestorWeightAt S h).2.2.2 < 2 ^ 31

theorem toInt_of_nonneg {x : Int} (h0 : 0 ≤ x) (h1 : x < 2 ^ 31) : toInt x = x := by
  unfold toInt
  rw [Int.bmod_eq_of_le]
  · omega
  · omega

theorem updateAncestorState_isSome {size fee count sigOps : Int}
    (hsize : 0 < e.nSizeWithAncestors + size) (hcount : 0 < e.nCountWithAncestors + count)
    (h0 : 0 ≤ e.nSigOpCostWithAncestors + sigOps)
    (h1 : e.nSigOpCostWithAncestors + sigOps < 2 ^ 31) :
    (updateAncestorState size fee count sigOps e).isSome := by
  simp only [updateAncestorState, toInt_of_nonneg h0 h1]
  rw [if_pos ⟨hsize, hcount, h0⟩]
  rfl

theorem updateDescendantState_isSome {size fee count : Int}
    (hsize : 0 < e.nSizeWithDescendants + size) (hcount : 0 < e.nCountWithDescendants + count) :
    (updateDescendantState size fee count e).isSome := by
  simp only [updateDescendantState]
  rw [if_pos ⟨hsize, hcount⟩]
  rfl

theorem modifyEntry_isSome {f : CTxMemPoolEntry → Option CTxMemPoolEntry}
    (he : pool.mapTx.lookup it = some e) (hf : (f e).isSome) : (pool.modifyEntry f it).isSome := by
  simp only [modifyEntry, he, isSome_map]
  exact hf

/-- The asserts of `UpdateAncestorState` pass when `r` becomes an ancestor of `x`. -/
def Roomy (env : MempoolEnv) (p : CTxMemPool) (r x : Uint256) : Prop :=
  ∃ e u, p.mapTx.lookup x = some e ∧ p.mapTx.lookup r = some u ∧
    0 < e.nSizeWithAncestors + env.getTxSize u ∧ 0 < e.nCountWithAncestors + 1 ∧
    0 ≤ e.nSigOpCostWithAncestors + u.sigOpCost ∧ e.nSigOpCostWithAncestors + u.sigOpCost < 2 ^ 31

theorem foldlM_countDescendant_isSome (hl : l.Nodup) {st : DescendantSums}
    (hhash : HashesOk st.pool) (hroom : ∀ x ∈ l, x ∉ setExclude → Roomy env st.pool r x)
    (hmem : ∀ x ∈ l, x ∈ st.pool.mapTx) :
    (l.foldlM (env.countDescendant r setExclude) st).isSome := by
  induction l generalizing st with
  | nil => rfl
  | cons x l ih =>
    obtain ⟨hx, hnd⟩ := nodup_cons.mp hl
    have hsome : (env.countDescendant r setExclude st x).isSome := by
      obtain ⟨c, hc⟩ := mem_mapTx_iff.mp (hmem x mem_cons_self)
      simp only [countDescendant, hc, bind_eq_bind, bind_some]
      rw [hhash x c hc]
      split
      next => rfl
      next hxL =>
        obtain ⟨e, u, he, hu, hsize, hcount, h0, h1⟩ := hroom x mem_cons_self hxL
        simp only [hu, bind_some]
        obtain ⟨p, hp⟩ := isSome_iff_exists.mp
          (modifyEntry_isSome he (updateAncestorState_isSome hsize hcount h0 h1))
        rw [hp]
        rfl
    obtain ⟨st', hst'⟩ := isSome_iff_exists.mp hsome
    have hc := countDescendant_spec hhash hst'
    rw [foldlM_cons, hst']
    refine ih hnd (hc.moved.hashesOk hhash) (fun y hy hyL => ?_) fun y hy => ?_
    · -- the entries still to come are as they were
      obtain ⟨e, u, he, hu, hbounds⟩ := hroom y (mem_cons_of_mem _ hy) hyL
      refine ⟨e, u.adjust _ _, ?_, by rw [hc.moved.mapTx, hu]; rfl, hbounds⟩
      have hne : x ≠ y := fun h => hx (h ▸ hy)
      rw [hc.moved.mapTx, he, List.map_singleton, List.sum_singleton, if_neg fun h => hne h.1]
      exact congrArg some (adjust_zero e)
    · exact hc.moved.mem.mpr (hmem y (mem_cons_of_mem _ hy))

theorem Bounded.descendantSum (hb : Bounded env S) {D : Finset Uint256} (hD : D ⊆ S.txids) :
    (D.card : Int) = (∑ x ∈ D, env.descendantWeightAt S x).1 ∧
      (D.card : Int) ≤ (∑ x ∈ D, env.descendantWeightAt S x).2.1 := by
  have hone : ∀ x ∈ D, (env.descendantWeightAt S x).1 = 1 ∧ 1 ≤ (env.descendantWeightAt S x).2.1 := by
    intro x hx
    obtain ⟨e, he⟩ := mem_mapTx_iff.mp (mem_txids.mp (hD hx))
    rw [descendantWeightAt, he, elim_some]
    exact ⟨rfl, hb.size x e he⟩
  rw [Prod.fst_sum, Prod.snd_sum, Prod.fst_sum]
  constructor
  · rw [sum_congr rfl fun x hx => (hone x hx).1]
    simp
  · calc (D.card : Int) = ∑ x ∈ D, 1 := by simp
      _ ≤ _ := sum_le_sum fun x hx => (hone x hx).2

theorem Bounded.ancestorSum (hb : Bounded env S) (hsig : SigOpsOk S) {A : Finset Uint256}
    (hA : A ⊆ S.txids) :
    (A.card : Int) = (∑ x ∈ A, env.ancestorWeightAt S x).1 ∧
      (A.card : Int) ≤ (∑ x ∈ A, env.ancestorWeightAt S x).2.1 ∧
      0 ≤ (∑ x ∈ A, env.ancestorWeightAt S x).2.2.2 ∧
      (∑ x ∈ A, env.ancestorWeightAt S x).2.2.2 < 2 ^ 31 := by
  have hone : ∀ x ∈ S.txids, (env.ancestorWeightAt S x).1 = 1 ∧
      1 ≤ (env.ancestorWeightAt S x).2.1 ∧ 0 ≤ (env.ancestorWeightAt S x).2.2.2 := by
    intro x hx
    obtain ⟨e, he⟩ := mem_mapTx_iff.mp (mem_txids.mp hx)
    rw [ancestorWeightAt, he, elim_some]
    exact ⟨rfl, hb.size x e he, (hsig x e he).1⟩
  simp only [Prod.fst_sum, Prod.snd_sum]
  refine ⟨?_, ?_, sum_nonneg fun x hx => (hone x (hA hx)).2.2, lt_of_le_of_lt ?_ hb.sigOps⟩
  · rw [sum_congr rfl fun x hx => (hone x (hA hx)).1]
    simp
  · calc (A.card : Int) = ∑ x ∈ A, 1 := by simp
      _ ≤ _ := sum_le_sum fun x hx => (hone x (hA hx)).2.1
  · exact sum_le_sum_of_subset_of_nonneg hA fun x hx _ => (hone x hx).2.2

theorem Updated.ancestorTotals_eq (hup : Updated env S L P q cached) (hst : Stored env S)
    (hcut : S.Parent = Cut S.SpendsFrom L) (hL : L ⊆ S.txids) (ht : Turn S setExclude L P r)
    (hx : x ∉ L) (he : q.mapTx.lookup x = some e) :
    ∃ A ⊆ S.txids, r ∈ A ∧
      e.ancestorTotals + env.ancestorWeightAt S r = ∑ a ∈ A, env.ancestorWeightAt S a := by
  obtain ⟨e0, he0, rfl⟩ := hup.moved.lookup he
  let A0 := reaching S.Parent S.txids x
  let A1 := insert r (P.filter fun a => TransGen S.SpendsFrom a x)
  have hA1 : A1 ⊆ L := by
    intro a ha
    rcases mem_insert.mp ha with rfl | ha
    · exact ht.listed
    · exact ht.subset (mem_filter.mp ha).1
  have hdis : Disjoint A0 A1 := by
    refine disjoint_left.mpr fun a ha ha1 => hx ?_
    have hreach := (mem_reaching.mp ha).2
    rw [hcut, reaches_cut_iff ht.pred] at hreach
    exact hreach.2 (hA1 ha1)
  refine ⟨A0 ∪ A1, union_subset (fun a ha => (mem_reaching.mp ha).1)
    (hA1.trans hL), mem_union_right _ (mem_insert_self _ _), ?_⟩
  have hgain : ∑ a ∈ P, ancestorGain env S L a x =
      ∑ a ∈ P.filter fun a => TransGen S.SpendsFrom a x, env.ancestorWeightAt S a := by
    rw [sum_filter]
    refine sum_congr rfl fun a _ => ?_
    simp only [ancestorGain, hx, not_false_eq_true, true_and]
  have hrnot : r ∉ P.filter fun a => TransGen S.SpendsFrom a x :=
    fun h => ht.fresh (mem_filter.mp h).1
  rw [sum_union hdis, sum_insert hrnot, ancestorTotals_adjust,
    hst.tallied.ancestors x e0 he0, hgain, total]
  abel

theorem Updated.step_isSome (hup : Updated env S L P q cached) (hst : Stored env S)
    (hcut : S.Parent = Cut S.SpendsFrom L) (hL : L ⊆ S.txids) (hb : Bounded env S)
    (ht : Turn S setExclude L P r) :
    (env.updateTransactionFromBlock setExclude (q, cached) r).isSome := by
  obtain ⟨linked, stage, res, hlinked, honly, hok, -, hstage, hres, hsound, hcomplete⟩ :=
    hup.walk hst.hashes hst.mapNextTx ht
  unfold updateTransactionFromBlock
  rw [if_pos (hup.moved.mem.mpr ht.mem)]
  simp only [hlinked, bind_eq_bind, bind_some, updateForDescendants,
    hstage, hres]
  generalize linked.1 = p1 at honly
  have hm1 := hup.moved.trans honly.moved
  have hhash1 := hm1.hashesOk hst.hashes
  obtain ⟨u, hu⟩ := mem_mapTx_iff.mp (hm1.mem.mpr ht.mem)
  have hwu : env.ancestorWeightAt S r = env.ancestorWeight u := by
    rw [← hm1.ancestorWeightAt env, ancestorWeightAt, hu, elim_some]
  have hmem : ∀ x ∈ res, x ∈ p1.mapTx := by
    intro x hx
    obtain ⟨y, -, -, e, he, -⟩ := tail'_iff.mp (hsound x hx)
    exact hm1.mem.mpr (mem_mapTx_iff.mpr ⟨e, he⟩)
  have hroom : ∀ x ∈ res, x ∉ setExclude → Roomy env p1 r x := by
    intro x hx hxL
    obtain ⟨e, he⟩ := mem_mapTx_iff.mp (hmem x hx)
    rw [ht.exclude] at hxL
    obtain ⟨A, hA, hrA, hsum⟩ := hup.ancestorTotals_eq hst hcut hL ht hxL (honly.mapTx ▸ he)
    obtain ⟨hcount, hsize, h0, h1⟩ := hb.ancestorSum hst.sigOps hA
    have hpos : 0 < A.card := card_pos.mpr ⟨r, hrA⟩
    rw [← hsum, hwu] at hcount hsize h0 h1
    refine ⟨e, u, he, hu, ?_, ?_, h0, h1⟩
    · show 0 < (e.ancestorTotals + env.ancestorWeight u).2.1
      omega
    · show 0 < (e.ancestorTotals + env.ancestorWeight u).1
      omega
  obtain ⟨counted, hcounted⟩ := isSome_iff_exists.mp
    (@foldlM_countDescendant_isSome env setExclude r res.elems res.nodup
      { pool := p1, cachedDescendants := cached } hhash1 hroom hmem)
  have hc := foldlM_countDescendant hhash1 hcounted
  simp only [hcounted, bind_some]
  -- the totals of `r` with its descendants, before and after
  have hm := hm1.trans hc.moved
  obtain ⟨e, he⟩ := mem_mapTx_iff.mp (hm.mem.mpr ht.mem)
  obtain ⟨e0, he0, heq⟩ := hm.lookup he
  have htotals : e.descendantTotals =
      ∑ x ∈ reaching (Function.swap S.Parent) S.txids r, env.descendantWeightAt S x := by
    rw [heq, descendantTotals_adjust, hst.tallied.descendants r e0 he0, total]
    simp [descendantGain, ht.fresh]
  have hsums := hc.sums_eq hm1 ht.exclude hsound hcomplete
  obtain ⟨hcount, hsize⟩ := hb.descendantSum (D := reaching (Function.swap S.Parent)
    S.txids r) fun x hx => (mem_reaching.mp hx).1
  obtain ⟨hcount', hsize'⟩ := hb.descendantSum (D := S.txids.filter fun x =>
    x ∉ L ∧ TransGen S.SpendsFrom r x) (filter_subset _ _)
  have hpos : 0 < (reaching (Function.swap S.Parent) S.txids r).card :=
    card_pos.mpr ⟨r, mem_reaching.mpr ⟨mem_txids.mpr ht.mem, .refl⟩⟩
  rw [descendantGain, if_pos rfl] at hsums
  rw [← htotals] at hcount hsize
  rw [← hsums] at hcount' hsize'
  dsimp only at hcount' hsize'
  have hsome : (updateDescendantState counted.modifySize counted.modifyFee counted.modifyCount
      e).isSome := by
    have hsizeEq : e.nSizeWithDescendants = e.descendantTotals.2.1 := rfl
    have hcountEq : e.nCountWithDescendants = e.descendantTotals.1 := rfl
    apply updateDescendantState_isSome <;> omega
  obtain ⟨p3, hp3⟩ := isSome_iff_exists.mp (modifyEntry_isSome he hsome)
  rw [hp3]
  rfl

theorem foldlM_updateTransactionFromBlock_isSome (h : Resurrecting env pool S rs)
    (hrs : Resurrectable pool rs) (hL : hashesOf rs ⊆ S.txids) (hb : Bounded env S) :
    ((rs.map fun r => r.tx.hash).reverse.foldlM (env.updateTransactionFromBlock
      (ofList (rs.map fun r => r.tx.hash))) (S, ∅)).isSome := by
  suffices hl : ∀ (before done : List Resurrected) (q : CTxMemPool × CacheMap),
      rs = before ++ done → Updated env S (hashesOf rs) (hashesOf done) q.1 q.2 →
      ((before.map fun r => r.tx.hash).reverse.foldlM (env.updateTransactionFromBlock
        (ofList (rs.map fun r => r.tx.hash))) q).isSome from
    hl rs [] (S, ∅) (append_nil rs).symm (Updated.start h)
  intro before
  induction before using reverseRecOn with
  | nil => exact fun _ _ _ _ => rfl
  | append_singleton before r ih =>
    intro done q heq hq
    rw [append_assoc, singleton_append] at heq
    obtain ⟨q', hq'⟩ := isSome_iff_exists.mp
      (hq.step_isSome h.stored h.parent hL hb (h.turn hrs heq))
    have hstep := hq.step h.stored.hashes h.stored.mapNextTx (h.turn hrs heq) hq'
    rw [← hashesOf_cons] at hstep
    rw [map_append, List.map_singleton, reverse_append, reverse_singleton,
      singleton_append, foldlM_cons, hq']
    exact ih (r :: done) q' heq hstep

/-! ## The pool after a reorganisation -/

/-- What holds of a pool whatever the cached totals are: entries are stored under
    their own hashes, sigop costs fit, and no transaction spends from itself along
    a chain of others. -/
structure WellFormed (pool : CTxMemPool) : Prop where
  hashes : HashesOk pool
  sigOps : SigOpsOk pool
  acyclic : ∀ h, ¬ TransGen pool.SpendsFrom h h

theorem Consistent.stored (h : Consistent env pool) (hw : WellFormed pool) :
    Stored env pool ∧ LinksInputs pool := by
  have hrel : pool.Parent = pool.SpendsFrom :=
    funext fun p => funext fun c => propext (h.parents p c)
  refine ⟨⟨hw.hashes, hw.sigOps, ⟨⟨h.linked, fun p c => ?_, fun p c hp => ?_⟩, fun k => ?_,
    fun k e he => ?_, fun k e he => ?_⟩, h.mapNextTx, h.totalTxSize⟩, h.parents⟩
  · rw [h.children, hrel]
  · exact ((h.parents p c).mp hp).1
  · rw [hrel]
    exact hw.acyclic k
  · rw [h.ancestors k e he, hrel]
    rfl
  · rw [h.descendants k e he, hrel]
    rfl

theorem Resurrecting.hashes_subset (h : Resurrecting env pool S rs) : hashesOf rs ⊆ S.txids := by
  intro x hx
  obtain ⟨r, hr, rfl⟩ := mem_hashesOf.mp hx
  exact mem_txids.mpr (h.added r hr)

theorem updateTransactionsFromBlock_stored (hres : Resurrecting env pool S rs)
    (hrs : Resurrectable pool rs)
    (hq : env.updateTransactionsFromBlock (rs.map fun r => r.tx.hash) S = some q) :
    ∃ a d, Moved S q a d ∧ Stored env q ∧ LinksInputs q := by
  obtain ⟨st, hst, rfl⟩ := map_eq_some_iff.mp hq
  have hup := foldlM_updateTransactionFromBlock hres hrs hst
  exact ⟨_, _, hup.moved, hup.stored hres.stored hres.parent hres.hashes_subset
    fun a c hac hc => (hres.parent_of hrs hac hc).1⟩

/-- The transactions of disconnected blocks are added back to a consistent pool,
    in block order; `UpdateTransactionsFromBlock` on their hashes leaves the pool
    consistent.  It returns unless a total leaves its range. -/
theorem updateTransactionsFromBlock_consistent (hcons : Consistent env pool)
    (hwell : WellFormed pool) (hrs : Resurrectable pool rs)
    (hadd : rs.foldlM env.addResurrected pool = some S) :
    (∀ q, env.updateTransactionsFromBlock (rs.map fun r => r.tx.hash) S = some q →
      Consistent env q ∧ q.txids = pool.txids ∪ hashesOf rs) ∧
    (Bounded env S → ∃ q,
      env.updateTransactionsFromBlock (rs.map fun r => r.tx.hash) S = some q) := by
  obtain ⟨hst, hlinks⟩ := hcons.stored hwell
  obtain ⟨hres, -⟩ := resurrecting_of_added hst hlinks hrs hadd
  have hL := hres.hashes_subset
  have hS : S.txids = pool.txids ∪ hashesOf rs := by
    refine Finset.Subset.antisymm (fun x hx => ?_) (union_subset (fun x hx => ?_) hL)
    · obtain ⟨e, he⟩ := mem_mapTx_iff.mp (mem_txids.mp hx)
      rcases hres.entries x e he with ⟨e0, he0, -⟩ | ⟨r, hr, hre⟩
      · exact mem_union_left _ (mem_txids.mpr (mem_mapTx_iff.mpr ⟨e0, he0⟩))
      · exact Finset.mem_union_right _
          (mem_hashesOf.mpr ⟨r, hr, by rw [hre, hres.stored.hashes x e he]⟩)
    · exact mem_txids.mpr (hres.kept x (mem_txids.mp hx))
  constructor
  · intro q hq
    obtain ⟨a, d, hmoved, hstq, hlinksq⟩ := updateTransactionsFromBlock_stored hres hrs hq
    exact ⟨hstq.consistent hlinksq, hmoved.txids.trans hS⟩
  · intro hb
    obtain ⟨st, hst'⟩ := isSome_iff_exists.mp
      (foldlM_updateTransactionFromBlock_isSome hres hrs hL hb)
    exact ⟨st.1, by rw [updateTransactionsFromBlock, hst']; rfl⟩

theorem updateTransactionsFromBlock_good (h : Good env pool) (hrs : Resurrectable pool rs)
    (hadd : rs.foldlM env.addResurrected pool = some S)
    (hq : env.updateTransactionsFromBlock (rs.map fun r => r.tx.hash) S = some q) :
    Good env q := by
  obtain ⟨hres, hdeltas⟩ := resurrecting_of_added h.stored h.links hrs hadd
  obtain ⟨a, d, hmoved, hst, hlinks⟩ := updateTransactionsFromBlock_stored hres hrs hq
  refine ⟨hst, hlinks, fun k e he => ?_⟩
  obtain ⟨e0, he0, rfl⟩ := hmoved.lookup he
  rw [hmoved.mapDeltas]
  exact hdeltas h.deltas k e0 he0

theorem Good.wellFormed (h : Good env pool) : WellFormed pool where
  hashes := h.stored.hashes
  sigOps := h.stored.sigOps
  acyclic := by
    have hrel : pool.SpendsFrom = pool.Parent :=
      funext fun p => funext fun c => propext (h.links p c).symm
    rw [hrel]
    exact h.stored.tallied.acyclic

end

/-! ### The block with the parent is disconnected again -/

namespace SamplePool

def parentBack : Resurrected := { tx := parent, nFee := 10, nTime := 2, nSigOpsCost := 4 }

/-- The pool with the parent added and the child not yet linked to it. -/
def readded : CTxMemPool := (([parentBack].foldlM env.addResurrected) (after 4)).getD (after 4)

def repaired : CTxMemPool := (env.updateTransactionsFromBlock [1] readded).getD readded

example : (readded.mapTx.lookup 1).map descendantTotals = some (1, 100, 10) ∧
    (repaired.mapTx.lookup 1).map descendantTotals = some (2, 200, 37) := by decide

theorem mem_after (hk : k ∈ (after 4).mapTx) : k = 2 :=
  List.mem_singleton.mp (AList.mem_keys.mpr hk)

theorem resurrectable : Resurrectable (after 4) [parentBack] where
  new := by decide
  distinct := pairwise_singleton _ _
  noParents r hr p hp hmem := by
    rw [mem_after hmem] at hp
    rw [List.mem_singleton.mp hr] at hp
    exact absurd hp (by decide)
  ordered := pairwise_singleton _ _
  notOwnParent := by decide
  noConflict := by decide
  noDoubleSpend := pairwise_singleton _ _
  sigOps := by decide

end SamplePool

open SamplePool

theorem updateTransactionsFromBlock_consistent_sample :
    Consistent env repaired ∧
      repaired.txids = (SamplePool.after 4).txids ∪ {1} := by
  have hgood : Good env (after 4) :=
    run_good (good_empty ∅) legalRun rfl
  exact (updateTransactionsFromBlock_consistent (hgood.stored.consistent hgood.links)
    hgood.wellFormed resurrectable (S := readded) rfl).1 _ rfl

end Rcoin
