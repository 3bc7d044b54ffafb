/-
  `addUnchecked` and `PrioritiseTransaction`: what they do to the tables, and
  that the totals stay sums over what the links connect.

  Source: src/txmempool.cpp.
-/
import Rcoin.Mempool.Invariant

namespace Rcoin

open Relation CTxMemPool CTxMemPoolEntry AList Closure Finset Maps MempoolEnv Option SortedSet
  COutPoint TransGen

section

open scoped Classical

variable {env : MempoolEnv} {pool pool' p p' : CTxMemPool} {e : CTxMemPoolEntry} {A : SetEntries}

/-! ## Sums over a set of entries -/

theorem sumOver_spec {f : CTxMemPoolEntry → Int} {n : Int} (h : pool.sumOver A f = some n) :
    n = ∑ x ∈ A.toFinset, (pool.mapTx.lookup x).elim 0 f := by
  suffices hl : ∀ (l : List Uint256) (m : Int),
      l.foldlM (fun acc it => (pool.mapTx.lookup it).map fun e => acc + f e) m = some n →
        n = m + (l.map fun x => (pool.mapTx.lookup x).elim 0 f).sum by
    have := hl A.elems 0 h
    rwa [zero_add, sum_elems] at this
  intro l
  induction l with
  | nil =>
    intro m h
    cases h
    simp
  | cons x l ih =>
    intro m h
    obtain ⟨k, hk, h⟩ := bind_eq_some_iff.mp h
    obtain ⟨e, he, rfl⟩ := map_eq_some_iff.mp hk
    rw [ih _ h, List.map_cons, List.sum_cons, he, elim_some]
    omega

theorem ancestorWeightAt_eq (pool : CTxMemPool) {x : Uint256} (hx : x ∈ pool.mapTx) :
    env.ancestorWeightAt pool x = (1, (pool.mapTx.lookup x).elim 0 env.getTxSize,
      (pool.mapTx.lookup x).elim 0 getModifiedFee, (pool.mapTx.lookup x).elim 0 sigOpCost) := by
  obtain ⟨e, he⟩ := mem_mapTx_iff.mp hx
  rw [ancestorWeightAt, he]
  rfl

theorem sum_ancestorWeightAt {s : Finset Uint256} (hs : ∀ x ∈ s, x ∈ pool.mapTx) :
    ∑ x ∈ s, env.ancestorWeightAt pool x = ((s.card : Int),
      ∑ x ∈ s, (pool.mapTx.lookup x).elim 0 env.getTxSize,
      ∑ x ∈ s, (pool.mapTx.lookup x).elim 0 getModifiedFee,
      ∑ x ∈ s, (pool.mapTx.lookup x).elim 0 sigOpCost) := by
  rw [sum_congr rfl fun x hx => ancestorWeightAt_eq pool (hs x hx)]
  refine Prod.ext ?_ (Prod.ext ?_ (Prod.ext ?_ ?_)) <;> simp [Prod.fst_sum, Prod.snd_sum]

theorem updateEntryForAncestors_spec {it : Uint256} (hA : ∀ x ∈ A, x ∈ p.mapTx)
    (h : env.updateEntryForAncestors it A p = some p') :
    Moved p p' (fun k => if k = it then ∑ x ∈ A.toFinset, env.ancestorWeightAt p x else 0) 0 ∧
      p'.mapLinks = p.mapLinks := by
  obtain ⟨size, hsize, h⟩ := bind_eq_some_iff.mp h
  obtain ⟨fee, hfee, h⟩ := bind_eq_some_iff.mp h
  obtain ⟨sigOps, hsig, h⟩ := bind_eq_some_iff.mp h
  obtain ⟨hm, hl⟩ := modifyEntry_spec (fun _ _ => updateAncestorState_eq_some) h
  have hcard : A.toFinset.card = A.elems.length := rfl
  refine ⟨hm.congr (fun k => ?_) (fun k => by simp), hl⟩
  rw [sum_ancestorWeightAt hA, hcard, ← sumOver_spec hsize, ← sumOver_spec hfee,
    ← sumOver_spec hsig]

/-! ## addUnchecked -/

/-- The pool with the entry `e` put in, whose set of ancestors is `A`. -/
structure Added (env : MempoolEnv) (pool pool' : CTxMemPool) (e : CTxMemPoolEntry)
    (A : SetEntries) : Prop where
  mapTx : ∀ k, pool'.mapTx.lookup k =
    if k = e.tx.hash then some (e.adjust (∑ x ∈ A.toFinset, env.ancestorWeightAt pool x) 0)
    else (pool.mapTx.lookup k).map (adjust 0 (if k ∈ A then env.descendantWeight e else 0))
  dom : ∀ k, k ∈ pool'.mapLinks ↔ k ∈ pool.mapLinks ∨ k = e.tx.hash
  parent : ∀ x c, pool'.Parent x c ↔ pool.Parent x c ∨
    c = e.tx.hash ∧ x ∈ pool.mapTx ∧ x ∈ e.tx.prevouts.map hash
  children : ∀ x c, c ∈ (pool'.links x).children ↔ c ∈ (pool.links x).children ∨
    c = e.tx.hash ∧ x ∈ pool.mapTx ∧ x ∈ e.tx.prevouts.map hash
  mapNextTx : ∀ o, pool'.mapNextTx.lookup o =
    if o ∈ e.tx.prevouts then some ((pool.mapNextTx.lookup o).getD e.tx)
    else pool.mapNextTx.lookup o
  mapDeltas : pool'.mapDeltas = pool.mapDeltas
  totalTxSize : pool'.totalTxSize = pool.totalTxSize + env.getTxSize e

theorem lookup_foldl_insertNew (m : AList fun _ : COutPoint => CTransaction)
    (l : List COutPoint) (tx : CTransaction) (o : COutPoint) :
    (l.foldl (fun m o => insertNew m o tx) m).lookup o =
      if o ∈ l then some ((m.lookup o).getD tx) else m.lookup o := by
  induction l generalizing m with
  | nil => simp
  | cons b l ih =>
    rw [List.foldl_cons, ih, lookup_insertNew]
    by_cases hb : o = b
    · subst hb
      by_cases ho : o ∈ l <;> simp [ho]
    · simp [hb]

theorem foldl_addParent_spec (newit : Uint256) (l : List Uint256) (pool : CTxMemPool) :
    LinksOnly pool (l.foldl (fun p phash =>
      if phash ∈ p.mapTx then p.updateParent newit phash true else p) pool) ∧
    (∀ k, k ∈ (l.foldl (fun p phash =>
      if phash ∈ p.mapTx then p.updateParent newit phash true else p) pool).mapLinks →
      k ∈ pool.mapLinks ∨ k = newit) ∧
    (∀ k, k ∈ pool.mapLinks → k ∈ (l.foldl (fun p phash =>
      if phash ∈ p.mapTx then p.updateParent newit phash true else p) pool).mapLinks) ∧
    (∀ k, ((l.foldl (fun p phash =>
      if phash ∈ p.mapTx then p.updateParent newit phash true else p) pool).links k).children =
      (pool.links k).children) ∧
    ∀ x c, (l.foldl (fun p phash =>
      if phash ∈ p.mapTx then p.updateParent newit phash true else p) pool).Parent x c ↔
      pool.Parent x c ∨ c = newit ∧ x ∈ pool.mapTx ∧ x ∈ l := by
  induction l generalizing pool with
  | nil => exact ⟨LinksOnly.refl pool, fun _ h => .inl h, fun _ h => h, fun _ => rfl, by simp⟩
  | cons b l ih =>
    rw [List.foldl_cons]
    by_cases hb : b ∈ pool.mapTx
    · rw [if_pos hb]
      obtain ⟨honly, hdom, hsub, hchild, hpar⟩ := ih (pool.updateParent newit b true)
      have hlinks : ∀ k, (pool.updateParent newit b true).links k = if k = newit then
          { pool.links newit with parents := (pool.links newit).parents.insert b }
          else pool.links k := links_insert pool newit _
      refine ⟨⟨honly.mapTx, honly.mapNextTx, honly.mapDeltas, honly.totalTxSize⟩, fun k hk => ?_,
        fun k hk => ?_, fun k => ?_, fun x c => ?_⟩
      · rcases hdom k hk with h | h
        · exact (AList.mem_insert _).mp h |>.symm
        · exact .inr h
      · exact hsub k ((AList.mem_insert _).mpr (.inr hk))
      · rw [hchild, hlinks]
        split
        next heq => rw [heq]
        next => rfl
      · rw [hpar, Parent, hlinks, Parent, List.mem_cons]
        show _ ∨ c = newit ∧ x ∈ pool.mapTx ∧ x ∈ l ↔ _
        by_cases hc : c = newit
        · subst hc
          by_cases hx : x = b
          · simp [hx, hb]
          · simp [hx]
        · simp [hc]
    · rw [if_neg hb]
      obtain ⟨honly, hdom, hsub, hchild, hpar⟩ := ih pool
      refine ⟨honly, hdom, hsub, hchild, fun x c => ?_⟩
      rw [hpar, List.mem_cons]
      by_cases hx : x = b
      · simp [hx, hb]
      · simp [hx]

theorem updateFeeDelta_self (he : e.feeDelta = 0) : e.updateFeeDelta 0 = e := by
  simp [updateFeeDelta, he]
  rw [← he]

variable {entry : CTxMemPoolEntry}

theorem insert_entry_spec (hdelta : entry.feeDelta = 0) (hnew : entry.tx.hash ∉ pool.mapTx)
    {delta : Int} (h : (if delta ≠ 0 then modifyEntry (fun e => some (e.updateFeeDelta delta))
        { pool with
          mapTx := insertNew pool.mapTx entry.tx.hash entry
          mapLinks := insertNew pool.mapLinks entry.tx.hash {} } entry.tx.hash
      else some { pool with
          mapTx := insertNew pool.mapTx entry.tx.hash entry
          mapLinks := insertNew pool.mapLinks entry.tx.hash {} }) = some p) :
    (∀ k, p.mapTx.lookup k = if k = entry.tx.hash then some (entry.updateFeeDelta delta)
      else pool.mapTx.lookup k) ∧
    p.mapLinks = insertNew pool.mapLinks entry.tx.hash {} ∧
    p.mapNextTx = pool.mapNextTx ∧ p.mapDeltas = pool.mapDeltas ∧
    p.totalTxSize = pool.totalTxSize := by
  have hlookup : ∀ k, (insertNew pool.mapTx entry.tx.hash entry).lookup k =
      if k = entry.tx.hash then some entry else pool.mapTx.lookup k := by
    intro k
    rw [lookup_insertNew, lookup_eq_none.mpr hnew, getD_none]
  split at h
  · obtain ⟨e, e', he, hfe, htx, hlinks, hnext, hdeltas, htotal⟩ := modifyEntry_tables h
    rw [hlookup, if_pos rfl] at he
    cases he
    cases hfe
    refine ⟨fun k => ?_, hlinks, hnext, hdeltas, htotal⟩
    rw [htx, hlookup]
    by_cases hk : k = entry.tx.hash <;> simp [hk]
  next hzero =>
    cases h
    rw [not_not] at hzero
    rw [hzero, updateFeeDelta_self hdelta]
    exact ⟨hlookup, rfl, rfl, rfl, rfl⟩

/-- The pool with the entry `e` put in and linked to its parents, before any total is updated. -/
structure EntryLinked (pool p : CTxMemPool) (e : CTxMemPoolEntry) : Prop where
  mapTx : ∀ k, p.mapTx.lookup k = if k = e.tx.hash then some e else pool.mapTx.lookup k
  dom : ∀ k, k ∈ p.mapLinks ↔ k ∈ pool.mapLinks ∨ k = e.tx.hash
  parent : ∀ x c, p.Parent x c ↔ pool.Parent x c ∨
    c = e.tx.hash ∧ x ∈ pool.mapTx ∧ x ∈ e.tx.prevouts.map hash
  children : ∀ x, (p.links x).children = (pool.links x).children
  mapNextTx : p.mapNextTx =
    e.tx.prevouts.foldl (fun m o => insertNew m o e.tx) pool.mapNextTx
  mapDeltas : p.mapDeltas = pool.mapDeltas
  totalTxSize : p.totalTxSize = pool.totalTxSize

theorem linkEntry_spec (hok : LinksOk pool) (hnew : e.tx.hash ∉ pool.mapTx)
    (hself : e.tx.hash ∉ e.tx.prevouts.map hash)
    (htx : ∀ k, p.mapTx.lookup k = if k = e.tx.hash then some e else pool.mapTx.lookup k)
    (hlinks : p.mapLinks = insertNew pool.mapLinks e.tx.hash {})
    (hnext : p.mapNextTx = pool.mapNextTx) (hdeltas : p.mapDeltas = pool.mapDeltas)
    (htotal : p.totalTxSize = pool.totalTxSize) :
    EntryLinked pool ((ofList (e.tx.prevouts.map hash)).elems.foldl
      (fun pool phash =>
        if phash ∈ pool.mapTx then updateParent e.tx.hash phash true pool else pool)
      { p with mapNextTx := e.tx.prevouts.foldl (fun m o => insertNew m o e.tx) p.mapNextTx })
      e := by
  have hnlinks : e.tx.hash ∉ pool.mapLinks := fun hm => hnew ((hok.dom _).mp hm)
  have hlk : ∀ k, p.links k = pool.links k := by
    intro k
    rw [links, hlinks, lookup_insertNew]
    by_cases hk : k = e.tx.hash
    · rw [if_pos hk, hk, links, lookup_eq_none.mpr hnlinks]
      rfl
    · rw [if_neg hk]
      rfl
  have hmem : ∀ k, k ∈ p.mapTx ↔ k = e.tx.hash ∨ k ∈ pool.mapTx := by
    intro k
    rw [← lookup_isSome, ← lookup_isSome, htx]
    by_cases hk : k = e.tx.hash <;> simp [hk]
  have hins : ∀ k, k ∈ p.mapLinks ↔ k ∈ pool.mapLinks ∨ k = e.tx.hash := by
    intro k
    rw [hlinks, ← lookup_isSome, lookup_insertNew, ← lookup_isSome]
    by_cases hk : k = e.tx.hash <;> simp [hk]
  obtain ⟨honly, hdomle, hdomge, hchild, hpar⟩ := foldl_addParent_spec e.tx.hash
    (ofList (e.tx.prevouts.map hash)).elems
    { p with mapNextTx := e.tx.prevouts.foldl (fun m o => insertNew m o e.tx) p.mapNextTx }
  refine ⟨fun k => ?_, fun k => ?_, fun x c => ?_, fun x => ?_, ?_, ?_, ?_⟩
  · rw [honly.mapTx]
    exact htx k
  · rw [← hins]
    refine ⟨fun hk => ?_, fun hk => hdomge k hk⟩
    rcases hdomle k hk with h | h
    · exact h
    · exact (hins k).mpr (.inr h)
  · rw [hpar, mem_elems, mem_ofList]
    show x ∈ (p.links c).parents ∨ c = e.tx.hash ∧ x ∈ p.mapTx ∧ _ ↔ _
    rw [hlk, hmem]
    -- the entry itself is in the pool by now, and does not spend itself
    have hne : x ∈ e.tx.prevouts.map hash → x ≠ e.tx.hash := by
      rintro hx rfl
      exact hself hx
    have hx : (x = e.tx.hash ∨ x ∈ pool.mapTx) ∧ x ∈ e.tx.prevouts.map hash ↔
        x ∈ pool.mapTx ∧ x ∈ e.tx.prevouts.map hash :=
      and_congr_left fun hx => or_iff_right (hne hx)
    rw [hx]
    rfl
  · rw [hchild, ← hlk]
    rfl
  · rw [honly.mapNextTx, hnext]
  · rw [honly.mapDeltas]
    exact hdeltas
  · rw [honly.totalTxSize]
    exact htotal

theorem EntryLinked.added {p4 p5 p6 : CTxMemPool} (h : EntryLinked pool p4 e) (hok : LinksOk pool)
    (hnew : e.tx.hash ∉ pool.mapTx) (hA : ∀ x ∈ A, x ∈ pool.mapTx)
    (h5 : env.updateAncestorsOf true e.tx.hash A p4 = some p5)
    (h6 : env.updateEntryForAncestors e.tx.hash A p5 = some p6) :
    Added env pool { p6 with totalTxSize := p6.totalTxSize + env.getTxSize e } e A := by
  have hwd : env.descendantWeightAt p4 e.tx.hash = env.descendantWeight e := by
    rw [descendantWeightAt, h.mapTx, if_pos rfl, elim_some]
  obtain ⟨hm5, hc5⟩ := updateAncestorsOf_spec h5
  have hAn : ∀ x ∈ A, x ≠ e.tx.hash := fun x hx heq => hnew (heq ▸ hA x hx)
  have hmem5 : ∀ x ∈ A, x ∈ p5.mapTx := by
    intro x hx
    rw [hm5.mem, ← lookup_isSome, h.mapTx, if_neg (hAn x hx), lookup_isSome]
    exact hA x hx
  obtain ⟨hm6, hl6⟩ := updateEntryForAncestors_spec hmem5 h6
  -- the ancestors' own weights are those of before
  have hsum : ∑ x ∈ A.toFinset, env.ancestorWeightAt p5 x =
      ∑ x ∈ A.toFinset, env.ancestorWeightAt pool x := by
    refine sum_congr rfl fun x hx => ?_
    rw [hm5.ancestorWeightAt, ancestorWeightAt, h.mapTx, if_neg (hAn x hx),
      ancestorWeightAt]
  have hm := hm5.trans hm6
  refine ⟨fun k => ?_, fun k => ?_, fun x c => ?_, fun x c => ?_, fun o => ?_, ?_, ?_⟩
  · show p6.mapTx.lookup k = _
    rw [hm.mapTx, h.mapTx, hwd]
    by_cases hk : k = e.tx.hash
    · have hnA : e.tx.hash ∉ A := fun hx => hAn _ hx rfl
      subst hk
      simp [hnA, hsum]
    · simp [hk]
  · show k ∈ p6.mapLinks ↔ _
    rw [hl6, hc5.dom (fun x hx => ?_), h.dom]
    rw [h.dom]
    rcases (h.parent x _).mp hx with hp | ⟨-, hp, -⟩
    · exact .inl ((hok.dom x).mpr (hok.mem x _ hp))
    · exact .inl ((hok.dom x).mpr hp)
  · rw [← h.parent, ← hc5.parents, ← parent_congr hl6]
    rfl
  · show c ∈ (links _ x).children ↔ _
    rw [links, hl6]
    show c ∈ (p5.links x).children ↔ _
    have hno : ¬ pool.Parent x e.tx.hash := fun hp => hnew (hok.mem_child hp)
    have hnc : e.tx.hash ∉ (pool.links x).children := fun hc => hno ((hok.symm x _).mp hc)
    simp only [hc5.children, h.parent, h.children, hno, false_or, true_and]
    by_cases hc : c = e.tx.hash
    · simp [hc, hnc]
    · simp [hc]
  · show p6.mapNextTx.lookup o = _
    rw [hm.mapNextTx, h.mapNextTx, lookup_foldl_insertNew]
  · show p6.mapDeltas = _
    rw [hm.mapDeltas, h.mapDeltas]
  · show p6.totalTxSize + _ = _
    rw [hm.totalTxSize, h.totalTxSize]

theorem addUnchecked_spec (hdelta : entry.feeDelta = 0) (hok : LinksOk pool)
    (hnew : entry.tx.hash ∉ pool.mapTx)
    (hself : entry.tx.hash ∉ entry.tx.prevouts.map hash) (hA : ∀ x ∈ A, x ∈ pool.mapTx)
    (h : env.addUnchecked entry.tx.hash entry A pool = some pool') :
    Added env pool pool'
      (entry.updateFeeDelta ((pool.mapDeltas.lookup entry.tx.hash).getD 0)) A := by
  obtain ⟨p2, h2, h⟩ := bind_eq_some_iff.mp h
  obtain ⟨htx2, hlinks2, hnext2, hdeltas2, htotal2⟩ := insert_entry_spec hdelta hnew h2
  obtain ⟨e2, he2, h⟩ := bind_eq_some_iff.mp h
  rw [htx2, if_pos rfl] at he2
  cases he2
  obtain ⟨p5, h5, h⟩ := bind_eq_some_iff.mp h
  obtain ⟨p6, h6, h⟩ := bind_eq_some_iff.mp h
  cases h
  have hlinked := linkEntry_spec (p := p2)
    (e := entry.updateFeeDelta ((pool.mapDeltas.lookup entry.tx.hash).getD 0)) hok hnew hself htx2
    hlinks2 hnext2 hdeltas2 htotal2
  exact hlinked.added hok hnew hA h5 h6

/-! ## The totals after adding -/

variable {k : Uint256}

variable (h : Added env pool pool' e A)

include h

theorem Added.mem_mapTx : k ∈ pool'.mapTx ↔ k = e.tx.hash ∨ k ∈ pool.mapTx := by
  rw [← lookup_isSome, ← lookup_isSome, h.mapTx]
  by_cases hk : k = e.tx.hash <;> simp [hk]

theorem Added.txids (hnew : e.tx.hash ∉ pool.mapTx) : pool.txids = pool'.txids \ {e.tx.hash} := by
  ext k
  rw [mem_sdiff, mem_txids, mem_txids, h.mem_mapTx, mem_singleton]
  constructor
  · intro hk
    exact ⟨.inr hk, fun heq => hnew (heq ▸ hk)⟩
  · rintro ⟨hk, hne⟩
    exact hk.resolve_left hne

theorem Added.weights (hk : k ≠ e.tx.hash) :
    env.ancestorWeightAt pool' k = env.ancestorWeightAt pool k ∧
      env.descendantWeightAt pool' k = env.descendantWeightAt pool k ∧
      env.sizeAt pool' k = env.sizeAt pool k := by
  simp only [ancestorWeightAt, descendantWeightAt, sizeAt,
    h.mapTx, if_neg hk]
  cases pool.mapTx.lookup k <;> exact ⟨rfl, rfl, rfl⟩

theorem Added.weights_self :
    env.ancestorWeightAt pool' e.tx.hash = env.ancestorWeight e ∧
      env.descendantWeightAt pool' e.tx.hash = env.descendantWeight e ∧
      env.sizeAt pool' e.tx.hash = env.getTxSize e := by
  simp only [ancestorWeightAt, descendantWeightAt, sizeAt,
    h.mapTx, if_true]
  exact ⟨rfl, rfl, rfl⟩

theorem Added.not_parent (hok : LinksOk pool) (hnew : e.tx.hash ∉ pool.mapTx) (c : Uint256) :
    ¬ pool'.Parent e.tx.hash c := by
  rw [h.parent]
  rintro (hp | ⟨-, hp, -⟩)
  · exact hnew (hok.mem _ c hp)
  · exact hnew hp

theorem Added.not_reaches (hok : LinksOk pool) (hnew : e.tx.hash ∉ pool.mapTx) (c : Uint256) :
    ¬ TransGen pool'.Parent e.tx.hash c := by
  intro hc
  obtain ⟨x, hx, -⟩ := head'_iff.mp hc
  exact h.not_parent hok hnew x hx

theorem Added.parent_eq (hok : LinksOk pool) (hnew : e.tx.hash ∉ pool.mapTx) :
    pool.Parent = Without pool'.Parent {e.tx.hash} := by
  funext x c
  refine propext ?_
  rw [Without, h.parent, mem_singleton, mem_singleton]
  constructor
  · intro hp
    exact ⟨.inl hp, fun hx => hnew (hx ▸ hok.mem x c hp), fun hc => hnew (hc ▸ hok.mem_child hp)⟩
  · rintro ⟨hp | ⟨hc, -⟩, -, hne⟩
    · exact hp
    · exact absurd hc hne

theorem Added.linksOk (hok : LinksOk pool) : LinksOk pool' where
  dom k := by rw [h.dom, h.mem_mapTx, hok.dom, or_comm]
  symm p c := by rw [h.children, h.parent, hok.symm]
  mem p c hp := by
    rw [h.parent] at hp
    rcases hp with hp | ⟨-, hp, -⟩
    · exact h.mem_mapTx.mpr (.inr (hok.mem p c hp))
    · exact h.mem_mapTx.mpr (.inr hp)

theorem Added.tallied (htal : Tallied env pool) (hnew : e.tx.hash ∉ pool.mapTx)
    (hA : ∀ x, x ∈ A ↔ TransGen pool'.Parent x e.tx.hash)
    (hanc : e.ancestorTotals = env.ancestorWeight e)
    (hdesc : e.descendantTotals = env.descendantWeight e) : Tallied env pool' := by
  have hok' := h.linksOk htal.links
  have hout := h.not_parent htal.links hnew
  have hparent := h.parent_eq htal.links hnew
  have htxids := h.txids hnew
  have hn : e.tx.hash ∈ pool'.txids := mem_txids.mpr (h.mem_mapTx.mpr (.inl rfl))
  have hS : ∀ x ∈ pool.txids, x ≠ e.tx.hash := fun x hx heq => hnew (heq ▸ mem_txids.mp hx)
  -- the new entry has no child, so the pool without it is the pool of before
  have hclosed : ∀ x c, pool'.Parent x c → x ∈ ({e.tx.hash} : Finset Uint256) →
      c ∈ ({e.tx.hash} : Finset Uint256) := fun x c hp hx =>
    absurd (Finset.mem_singleton.mp hx ▸ hp) (hout c)
  have hacyclic : ∀ k, ¬ TransGen pool'.Parent k k := by
    intro k hk
    by_cases hkn : k = e.tx.hash
    · exact h.not_reaches htal.links hnew k (hkn ▸ hk)
    · -- a cycle elsewhere was there before
      have hknot : k ∉ ({e.tx.hash} : Finset Uint256) := fun hm => hkn (Finset.mem_singleton.mp hm)
      obtain ⟨c, hc, hreach⟩ := head'_iff.mp hk
      have hcnot := not_mem_of_reaches hclosed hknot hreach
      apply htal.acyclic k
      rw [hparent]
      exact head'_iff.mpr
        ⟨c, ⟨hc, hknot, hcnot⟩, (reaches_without_iff hclosed hknot).mpr hreach⟩
  refine ⟨hok', hacyclic, fun k e' he' => ?_, fun k e' he' => ?_⟩
  · rw [h.mapTx] at he'
    by_cases hk : k = e.tx.hash
    · rw [if_pos hk] at he'
      cases he'
      -- the new entry: itself and its ancestors A
      rw [hk, ancestorTotals_adjust, hanc, ← h.weights_self.1]
      have hiff : ∀ x, x ∈ A.toFinset ↔ x ∈ pool'.txids ∧ TransGen pool'.Parent x e.tx.hash := by
        intro x
        rw [SortedSet.mem_toFinset, hA]
        refine ⟨fun hx => ⟨?_, hx⟩, fun hx => hx.2⟩
        obtain ⟨y, hy, -⟩ := head'_iff.mp hx
        exact mem_txids.mpr (hok'.mem x y hy)
      rw [total_eq_add_proper hiff hn (hacyclic _)]
      congr 1
      refine sum_congr rfl fun x hx => ((h.weights ?_).1).symm
      rintro rfl
      exact hacyclic _ ((hA _).mp hx)
    · rw [if_neg hk] at he'
      obtain ⟨e0, he0, rfl⟩ := map_eq_some_iff.mp he'
      have hknot : k ∉ ({e.tx.hash} : Finset Uint256) := fun hm => hk (Finset.mem_singleton.mp hm)
      -- an old entry has no new ancestor
      rw [ancestorTotals_adjust, add_zero, htal.ancestors k e0 he0,
        ← total_congr fun x hx => (h.weights (hS x hx)).1, hparent, htxids]
      exact total_without hclosed hknot
  · rw [h.mapTx] at he'
    by_cases hk : k = e.tx.hash
    · rw [if_pos hk] at he'
      cases he'
      have hiff : ∀ x, x ∈ (∅ : Finset Uint256) ↔
          x ∈ pool'.txids ∧ TransGen (Function.swap pool'.Parent) x e.tx.hash := by
        intro x
        refine ⟨fun hx => absurd hx (Finset.notMem_empty x), fun ⟨_, hx⟩ => ?_⟩
        exact absurd (transGen_swap.mp hx) (h.not_reaches htal.links hnew x)
      -- the new entry has no descendant but itself
      rw [hk, descendantTotals_adjust, add_zero, hdesc, ← h.weights_self.2.1,
        total_eq_add_proper hiff hn
          (fun hc => h.not_reaches htal.links hnew _ (transGen_swap.mp hc)), sum_empty,
        add_zero]
    · rw [if_neg hk] at he'
      obtain ⟨e0, he0, rfl⟩ := map_eq_some_iff.mp he'
      have hknot : k ∉ ({e.tx.hash} : Finset Uint256) := fun hm => hk (Finset.mem_singleton.mp hm)
      -- an old entry gains the new one exactly when it is one of the ancestors A
      have hinter : ∑ x ∈ reaching (Function.swap pool'.Parent) pool'.txids k ∩ {e.tx.hash},
          env.descendantWeightAt pool' x = if k ∈ A then env.descendantWeight e else 0 := by
        split
        next hkA =>
          have hr := (hA k).mp hkA
          have hmem : e.tx.hash ∈ reaching (Function.swap pool'.Parent) pool'.txids k :=
            mem_reaching.mpr ⟨hn, reflTransGen_swap.mpr hr.to_reflTransGen⟩
          rw [inter_singleton_of_mem hmem, Finset.sum_singleton, h.weights_self.2.1]
        next hkA =>
          rw [inter_singleton_of_notMem, sum_empty]
          intro hmem
          have hreach := reflTransGen_swap.mp (mem_reaching.mp hmem).2
          rcases reflTransGen_iff_eq_or_transGen.mp hreach with heq | ht
          · exact hk heq.symm
          · exact hkA ((hA k).mpr ht)
      have hold := total_without_of_pred (R := Function.swap pool'.Parent)
        (S := pool'.txids) (w := env.descendantWeightAt pool')
        (fun x c hp hc => hclosed c x hp hc) hknot
      rw [descendantTotals_adjust, htal.descendants k e0 he0,
        ← total_congr fun x hx => (h.weights (hS x hx)).2.1, hparent, htxids,
        swap_without, hold, hinter, sub_add_cancel]

theorem Added.nextTxOk (hok : NextTxOk pool) (hnew : e.tx.hash ∉ pool.mapTx)
    (hfree : ∀ o ∈ e.tx.prevouts, pool.mapNextTx.lookup o = none) : NextTxOk pool' := by
  intro o tx
  rw [h.mapNextTx, h.mapTx]
  by_cases htx : tx.hash = e.tx.hash
  · simp only [if_pos htx, some.injEq, exists_eq_left', tx_adjust]
    constructor
    · intro ho
      split at ho
      next hmem =>
        rw [hfree o hmem, getD_none] at ho
        cases ho
        exact ⟨rfl, hmem⟩
      next =>
        obtain ⟨e', he', -, -⟩ := (hok o tx).mp ho
        exact absurd (mem_mapTx_iff.mpr ⟨e', he'⟩) (htx ▸ hnew)
    · rintro ⟨rfl, hmem⟩
      rw [if_pos hmem, hfree o hmem, getD_none]
  · simp only [if_neg htx]
    by_cases hmem : o ∈ e.tx.prevouts
    · rw [if_pos hmem, hfree o hmem, getD_none]
      constructor
      · intro heq
        cases heq
        exact absurd rfl htx
      · rintro ⟨e', he', heq, ho⟩
        obtain ⟨e0, he0, rfl⟩ := map_eq_some_iff.mp he'
        have hspent := (hok o tx).mpr ⟨e0, he0, heq, ho⟩
        rw [hfree o hmem] at hspent
        cases hspent
    · rw [if_neg hmem, hok]
      constructor
      · rintro ⟨e0, he0, heq, ho⟩
        exact ⟨e0.adjust _ _, by rw [he0]; rfl, heq, ho⟩
      · rintro ⟨e', he', heq, ho⟩
        obtain ⟨e0, he0, rfl⟩ := map_eq_some_iff.mp he'
        exact ⟨e0, he0, heq, ho⟩

theorem Added.stored (hst : Stored env pool) (hnew : e.tx.hash ∉ pool.mapTx)
    (hA : ∀ x, x ∈ A ↔ TransGen pool'.Parent x e.tx.hash)
    (hanc : e.ancestorTotals = env.ancestorWeight e)
    (hdesc : e.descendantTotals = env.descendantWeight e)
    (hsig : 0 ≤ e.sigOpCost ∧ e.sigOpCost < 2 ^ 31)
    (hfree : ∀ o ∈ e.tx.prevouts, pool.mapNextTx.lookup o = none) : Stored env pool' where
  hashes k e' he' := by
    rw [h.mapTx] at he'
    split at he'
    next hk => cases he'; exact hk.symm
    next =>
      obtain ⟨e0, he0, rfl⟩ := map_eq_some_iff.mp he'
      exact hst.hashes k e0 he0
  sigOps k e' he' := by
    rw [h.mapTx] at he'
    split at he'
    next => cases he'; exact hsig
    next =>
      obtain ⟨e0, he0, rfl⟩ := map_eq_some_iff.mp he'
      exact hst.sigOps k e0 he0
  tallied := h.tallied hst.tallied hnew hA hanc hdesc
  mapNextTx := h.nextTxOk hst.mapNextTx hnew hfree
  totalTxSize := by
    have hn : e.tx.hash ∈ pool'.txids := mem_txids.mpr (h.mem_mapTx.mpr (.inl rfl))
    have hsplit := sum_sdiff (f := env.sizeAt pool') (singleton_subset_iff.mpr hn)
    rw [← h.txids hnew, sum_singleton, h.weights_self.2.2] at hsplit
    have hsame : ∑ k ∈ pool.txids, env.sizeAt pool' k = ∑ k ∈ pool.txids, env.sizeAt pool k :=
      sum_congr rfl fun x hx =>
        (h.weights fun heq => hnew (heq ▸ mem_txids.mp hx)).2.2
    rw [h.totalTxSize, hst.totalTxSize, ← hsame]
    exact hsplit

theorem Added.reaches_self_iff (hok : LinksOk pool) (hnew : e.tx.hash ∉ pool.mapTx) {x : Uint256} :
    TransGen pool'.Parent x e.tx.hash ↔ ∃ p, ReflTransGen pool.Parent x p ∧ p ∈ pool.mapTx ∧
      p ∈ e.tx.prevouts.map hash := by
  have hclosed : ∀ a c, pool'.Parent a c → a ∈ ({e.tx.hash} : Finset Uint256) →
      c ∈ ({e.tx.hash} : Finset Uint256) := fun a c hp ha =>
    absurd (mem_singleton.mp ha ▸ hp) (h.not_parent hok hnew c)
  rw [tail'_iff, h.parent_eq hok hnew]
  refine exists_congr fun p => ?_
  constructor
  · rintro ⟨hreach, hp⟩
    have hpne : p ∉ ({e.tx.hash} : Finset Uint256) := fun hm =>
      h.not_parent hok hnew e.tx.hash (mem_singleton.mp hm ▸ hp)
    refine ⟨(reaches_without_iff hclosed hpne).mpr hreach, ?_⟩
    rcases (h.parent p e.tx.hash).mp hp with hold | ⟨-, hmem, hin⟩
    · exact absurd (hok.mem_child hold) hnew
    · exact ⟨hmem, hin⟩
  · rintro ⟨hreach, hp, hin⟩
    refine ⟨Without.mono hreach, ?_⟩
    exact (h.parent p e.tx.hash).mpr (.inr ⟨rfl, hp, hin⟩)

omit h

theorem addUnchecked_added {tx : CTransaction} {nFee nTime nSigOpsCost : Int}
    (hst : Stored env pool) (hnew : tx.hash ∉ pool.mapTx)
    (hself : tx.hash ∉ tx.prevouts.map hash)
    (hfree : ∀ o ∈ tx.prevouts, pool.mapNextTx.lookup o = none)
    (hsig : 0 ≤ nSigOpsCost ∧ nSigOpsCost < 2 ^ 31)
    (hA : ∀ x, x ∈ A ↔ ∃ p, ReflTransGen pool.Parent x p ∧ p ∈ pool.mapTx ∧
      p ∈ tx.prevouts.map hash)
    (h : env.addUnchecked tx.hash (new env tx nFee nTime nSigOpsCost) A pool =
      some pool') :
    Added env pool pool' ((new env tx nFee nTime nSigOpsCost).updateFeeDelta
      ((pool.mapDeltas.lookup tx.hash).getD 0)) A ∧ Stored env pool' := by
  have hok := hst.tallied.links
  have hAmem : ∀ x ∈ A, x ∈ pool.mapTx := by
    intro x hx
    obtain ⟨p, hreach, hp, -⟩ := (hA x).mp hx
    rcases ReflTransGen.cases_head hreach with rfl | ⟨c, hc, -⟩
    · exact hp
    · exact hok.mem x c hc
  have hadded : Added env pool pool' ((new env tx nFee nTime
      nSigOpsCost).updateFeeDelta ((pool.mapDeltas.lookup tx.hash).getD 0)) A :=
    addUnchecked_spec rfl hok hnew hself hAmem h
  refine ⟨hadded, hadded.stored hst hnew (fun x => ?_) ?_ ?_ hsig hfree⟩
  · exact (hA x).trans (hadded.reaches_self_iff hok hnew).symm
  · simp [updateFeeDelta, ancestorTotals, ancestorWeight, new,
      getTxSize, getModifiedFee]
  · simp [updateFeeDelta, descendantTotals, descendantWeight, new,
      getTxSize, getModifiedFee]

theorem Added.linksInputs (h : Added env pool pool' e A) (hok : LinksInputs pool)
    (hnew : e.tx.hash ∉ pool.mapTx)
    (hself : e.tx.hash ∉ e.tx.prevouts.map hash)
    (hchildren : ∀ c e', pool.mapTx.lookup c = some e' →
      e.tx.hash ∉ e'.tx.prevouts.map hash) : LinksInputs pool' := by
  intro p c
  rw [h.parent, hok, SpendsFrom, SpendsFrom, h.mem_mapTx, h.mapTx]
  by_cases hc : c = e.tx.hash
  · have hnone : ¬ ∃ e', pool.mapTx.lookup c = some e' ∧ p ∈ e'.tx.prevouts.map hash := by
      rintro ⟨e', he', -⟩
      exact hnew (hc ▸ mem_mapTx_iff.mpr ⟨e', he'⟩)
    simp only [hc] at hnone ⊢
    simp only [if_true, some.injEq, exists_eq_left', tx_adjust, true_and, hnone, and_false,
      false_or]
    constructor
    · rintro ⟨hp, hin⟩
      exact ⟨.inr hp, hin⟩
    · rintro ⟨hp | hp, hin⟩
      · exact absurd (hp ▸ hin) hself
      · exact ⟨hp, hin⟩
  · simp only [hc, false_and, or_false, if_false]
    constructor
    · rintro ⟨hp, e', he', hin⟩
      exact ⟨.inr hp, e'.adjust _ _, by rw [he']; rfl, hin⟩
    · rintro ⟨hp, e', he', hin⟩
      obtain ⟨e0, he0, rfl⟩ := map_eq_some_iff.mp he'
      rcases hp with hp | hp
      · exact absurd (hp ▸ hin) (hchildren c e0 he0)
      · exact ⟨hp, e0, he0, hin⟩

theorem Added.deltasOk (h : Added env pool pool' e A) (hok : DeltasOk pool)
    (he : e.feeDelta = (pool.mapDeltas.lookup e.tx.hash).getD 0) : DeltasOk pool' := by
  intro k e' he'
  rw [h.mapTx] at he'
  rw [h.mapDeltas]
  split at he'
  next hk => cases he'; rw [hk]; exact he
  next =>
    obtain ⟨e0, he0, rfl⟩ := map_eq_some_iff.mp he'
    exact hok k e0 he0

/-! ## PrioritiseTransaction -/

/-- The entry with another fee delta, its totals aside. -/
def CTxMemPoolEntry.withFeeDelta (e : CTxMemPoolEntry) (delta : Int) : CTxMemPoolEntry :=
  { e with feeDelta := delta }

theorem updateFeeDelta_eq (delta : Int) :
    e.updateFeeDelta delta = (e.withFeeDelta delta).adjust (0, 0, delta - e.feeDelta, 0)
      (0, 0, delta - e.feeDelta) := by
  simp [updateFeeDelta, withFeeDelta, adjust]

/-- The pool after the fee delta of the entry `hash` has grown by `δ`. -/
structure Prioritised (pool pool' : CTxMemPool) (hash : Uint256) (δ : Int) : Prop where
  mapTx : ∀ k, pool'.mapTx.lookup k = (pool.mapTx.lookup k).map fun e =>
    (if k = hash then e.withFeeDelta (e.feeDelta + δ) else e).adjust
      (if ReflTransGen pool.Parent hash k then (0, 0, δ, 0) else 0)
      (if ReflTransGen pool.Parent k hash then (0, 0, δ) else 0)
  mapLinks : pool'.mapLinks = pool.mapLinks
  mapNextTx : pool'.mapNextTx = pool.mapNextTx
  mapDeltas : ∀ k, pool'.mapDeltas.lookup k =
    if k = hash then some ((pool.mapDeltas.lookup k).getD 0 + δ) else pool.mapDeltas.lookup k
  totalTxSize : pool'.totalTxSize = pool.totalTxSize

theorem prioritiseTransaction_spec {hash : Uint256} {δ : Int} (hst : Stored env pool)
    (hdeltas : DeltasOk pool) (h : pool.prioritiseTransaction hash δ = some pool') :
    Prioritised pool pool' hash δ := by
  unfold prioritiseTransaction at h
  simp only at h
  split at h
  next hmem =>
    obtain ⟨p2, h2, h⟩ := bind_eq_some_iff.mp h
    obtain ⟨entry, hentry, h⟩ := bind_eq_some_iff.mp h
    obtain ⟨A, hA, h⟩ := bind_eq_some_iff.mp h
    obtain ⟨p3, h3, h⟩ := bind_eq_some_iff.mp h
    obtain ⟨D, hD, h4⟩ := bind_eq_some_iff.mp h
    obtain ⟨e0, e1, he0, hfe, htx2, hlinks2, hnext2, hdeltas2, htotal2⟩ := modifyEntry_tables h2
    obtain rfl := some.inj hfe
    change p2.mapLinks = pool.mapLinks at hlinks2
    have hmem2 : ∀ k, k ∈ p2.mapTx ↔ k ∈ pool.mapTx := by
      intro k
      rw [← lookup_isSome, ← lookup_isSome, htx2]
      by_cases hk : k = hash
      · subst hk
        simp [he0]
      · simp [hk]
    have hok2 : LinksOk p2 := by
      refine ⟨fun k => ?_, fun x c => ?_, fun x c hp => ?_⟩
      · rw [hlinks2, hmem2, hst.tallied.links.dom]
      · rw [parent_congr hlinks2, links, hlinks2]
        exact hst.tallied.links.symm x c
      · rw [parent_congr hlinks2] at hp
        exact (hmem2 x).mpr (hst.tallied.links.mem x c hp)
    rw [htx2, if_pos rfl] at hentry
    have hhash : entry.tx.hash = hash := by
      rw [← some.inj hentry]
      exact hst.hashes hash e0 he0
    have hentrymem : entry.tx.hash ∈ p2.mapTx := by
      rw [hhash]
      exact (hmem2 hash).mpr hmem
    obtain ⟨A', hA', hAiff⟩ := calculateMemPoolAncestors_spec hok2.parentsOk hentrymem
    obtain rfl : A = A' := some.inj (hA.symm.trans hA')
    obtain ⟨hm3, hl3⟩ := modifyAll_spec (fun _ _ => updateDescendantState_eq_some) h3
    have hok3 := hm3.linksOk hl3 hok2
    obtain ⟨D', hD', hDiff⟩ := calculateDescendants_spec hok3
      (hm3.mem.mpr ((hmem2 hash).mpr hmem)) (D := ∅) fun x hx => absurd hx (not_mem_empty x)
    obtain rfl : D = D' := some.inj (hD.symm.trans hD')
    obtain ⟨hm4, hl4⟩ := modifyAll_spec (fun _ _ => updateAncestorState_eq_some) h4
    have hm := hm3.trans hm4
    rw [parent_congr hl3, parent_congr hlinks2] at hDiff
    rw [parent_congr hlinks2, hhash] at hAiff
    refine ⟨fun k => ?_, (hl4.trans hl3).trans hlinks2, ?_, fun k => ?_, ?_⟩
    · rw [hm.mapTx, htx2]
      by_cases hk : k = hash
      · -- the entry itself is neither among its ancestors nor its descendants
        have hkA : hash ∉ A := fun hx => hst.tallied.acyclic hash ((hAiff hash).mp hx)
        have hδ : e0.feeDelta = (pool.mapDeltas.lookup hash).getD 0 := hdeltas hash e0 he0
        subst hk
        simp [he0, hkA, updateFeeDelta_eq, hδ, ReflTransGen.refl]
      · have hreach : ReflTransGen pool.Parent k hash ↔ TransGen pool.Parent k hash := by
          rw [reflTransGen_iff_eq_or_transGen]
          exact or_iff_right fun heq => hk heq.symm
        simp only [Pi.add_apply, SortedSet.mem_erase, hDiff, hAiff, hreach,
          not_mem_empty, false_or, ne_eq, hk, not_false_eq_true, true_and]
        cases pool.mapTx.lookup k <;> simp
    · rw [hm.mapNextTx, hnext2]
    · rw [hm.mapDeltas, hdeltas2, Maps.lookup_insert]
      by_cases hk : k = hash
      · subst hk
        rfl
      · simp [hk]
    · rw [hm.totalTxSize, htotal2]
  next hmem =>
    cases h
    refine ⟨fun k => ?_, rfl, rfl, fun k => ?_, rfl⟩
    · show pool.mapTx.lookup k = _
      cases he : pool.mapTx.lookup k with
      | none => rfl
      | some e =>
        -- without the entry there is no link to or from it
        have hk : k ≠ hash := fun heq => hmem (heq ▸ mem_mapTx_iff.mpr ⟨e, he⟩)
        obtain ⟨hdown, hup⟩ := hst.tallied.links.not_reaches_of_not_mem hmem hk
        simp [hk, hdown, hup]
    · show (pool.mapDeltas.insert hash _).lookup k = _
      rw [Maps.lookup_insert]
      by_cases hk : k = hash
      · subst hk
        rfl
      · simp [hk]

section Prioritised

variable {hash : Uint256} {δ : Int}

theorem Prioritised.lookup (h : Prioritised pool pool' hash δ) {e' : CTxMemPoolEntry}
    (he' : pool'.mapTx.lookup k = some e') :
    ∃ e0, pool.mapTx.lookup k = some e0 ∧ e'.tx = e0.tx ∧ e'.sigOpCost = e0.sigOpCost ∧
      e'.feeDelta = (if k = hash then e0.feeDelta + δ else e0.feeDelta) ∧
      e'.ancestorTotals = e0.ancestorTotals +
        (if ReflTransGen pool.Parent hash k then (0, 0, δ, 0) else 0) ∧
      e'.descendantTotals = e0.descendantTotals +
        (if ReflTransGen pool.Parent k hash then (0, 0, δ) else 0) := by
  rw [h.mapTx] at he'
  obtain ⟨e0, he0, rfl⟩ := map_eq_some_iff.mp he'
  refine ⟨e0, he0, ?_⟩
  by_cases hk : k = hash
  · simp only [if_pos hk]
    exact ⟨rfl, rfl, rfl, rfl, rfl⟩
  · simp only [if_neg hk]
    exact ⟨rfl, rfl, rfl, rfl, rfl⟩

theorem Prioritised.mem_mapTx (h : Prioritised pool pool' hash δ) :
    k ∈ pool'.mapTx ↔ k ∈ pool.mapTx := by
  rw [← lookup_isSome, ← lookup_isSome, h.mapTx, isSome_map]

theorem Prioritised.txids (h : Prioritised pool pool' hash δ) : pool'.txids = pool.txids := by
  ext k
  rw [mem_txids, mem_txids, h.mem_mapTx]

theorem Prioritised.weights (h : Prioritised pool pool' hash δ) (hk : k ≠ hash) :
    env.ancestorWeightAt pool' k = env.ancestorWeightAt pool k ∧
      env.descendantWeightAt pool' k = env.descendantWeightAt pool k := by
  simp only [ancestorWeightAt, descendantWeightAt, h.mapTx, if_neg hk]
  cases pool.mapTx.lookup k <;> exact ⟨rfl, rfl⟩

theorem Prioritised.weights_self (h : Prioritised pool pool' hash δ) (hmem : hash ∈ pool.mapTx) :
    env.ancestorWeightAt pool' hash = env.ancestorWeightAt pool hash + (0, 0, δ, 0) ∧
      env.descendantWeightAt pool' hash = env.descendantWeightAt pool hash + (0, 0, δ) := by
  obtain ⟨e, he⟩ := mem_mapTx_iff.mp hmem
  have hfee : e.nFee + (e.feeDelta + δ) = e.nFee + e.feeDelta + δ := by omega
  simp only [ancestorWeightAt, descendantWeightAt, h.mapTx, he,
    map_some, elim_some, if_true, ancestorWeight,
    descendantWeight, Prod.mk_add_mk, add_zero]
  exact ⟨congrArg (fun fee => (1, env.getTxSize e, fee, e.sigOpCost)) hfee,
    congrArg (fun fee => (1, env.getTxSize e, fee)) hfee⟩

theorem Prioritised.sizeAt (h : Prioritised pool pool' hash δ) (k : Uint256) :
    env.sizeAt pool' k = env.sizeAt pool k := by
  simp only [MempoolEnv.sizeAt, h.mapTx]
  by_cases hk : k = hash
  · simp only [if_pos hk]
    cases pool.mapTx.lookup k <;> rfl
  · simp only [if_neg hk]
    cases pool.mapTx.lookup k <;> rfl

theorem Prioritised.tallied (h : Prioritised pool pool' hash δ) (htal : Tallied env pool) :
    Tallied env pool' := by
  have hpar := parent_congr h.mapLinks
  have hlinks : LinksOk pool' := by
    refine ⟨fun k => ?_, fun x c => ?_, fun x c hp => ?_⟩
    · rw [h.mapLinks, h.mem_mapTx, htal.links.dom]
    · rw [hpar, links, h.mapLinks]
      exact htal.links.symm x c
    · rw [hpar] at hp
      exact h.mem_mapTx.mpr (htal.links.mem x c hp)
  refine ⟨hlinks, fun k => by rw [hpar]; exact htal.acyclic k, fun k e' he' => ?_,
    fun k e' he' => ?_⟩
  · obtain ⟨e0, he0, -, -, -, hanc, -⟩ := h.lookup he'
    rw [hanc, htal.ancestors k e0 he0, hpar, h.txids]
    by_cases hmem : hash ∈ pool.mapTx
    · exact (total_of_change (mem_txids.mpr hmem) (h.weights_self hmem).1
        fun a ha => (h.weights ha).1).symm
    · have hk : k ≠ hash := fun heq => hmem (heq ▸ mem_mapTx_iff.mpr ⟨e0, he0⟩)
      rw [if_neg (htal.links.not_reaches_of_not_mem hmem hk).1, add_zero]
      refine (total_congr fun x hx => (h.weights ?_).1).symm
      exact fun heq => hmem (heq ▸ mem_txids.mp hx)
  · obtain ⟨e0, he0, -, -, -, -, hdesc⟩ := h.lookup he'
    rw [hdesc, htal.descendants k e0 he0, hpar, h.txids]
    by_cases hmem : hash ∈ pool.mapTx
    · have hself : env.descendantWeightAt pool' hash = env.descendantWeightAt pool hash + (0, 0, δ) :=
        (h.weights_self hmem).2
      have hchange := total_of_change (R := Function.swap pool.Parent) (x := k)
        (mem_txids.mpr hmem) hself fun a ha => (h.weights ha).2
      rw [hchange]
      simp only [reflTransGen_swap]
    · have hk : k ≠ hash := fun heq => hmem (heq ▸ mem_mapTx_iff.mpr ⟨e0, he0⟩)
      rw [if_neg (htal.links.not_reaches_of_not_mem hmem hk).2, add_zero]
      refine (total_congr fun x hx => (h.weights ?_).2).symm
      exact fun heq => hmem (heq ▸ mem_txids.mp hx)

theorem Prioritised.stored (h : Prioritised pool pool' hash δ) (hst : Stored env pool) :
    Stored env pool' where
  hashes k e' he' := by
    obtain ⟨e0, he0, htx, -⟩ := h.lookup he'
    rw [htx]
    exact hst.hashes k e0 he0
  sigOps k e' he' := by
    obtain ⟨e0, he0, -, hsig, -⟩ := h.lookup he'
    rw [hsig]
    exact hst.sigOps k e0 he0
  tallied := h.tallied hst.tallied
  mapNextTx o tx := by
    rw [h.mapNextTx, hst.mapNextTx]
    constructor
    · rintro ⟨e, he, heq, ho⟩
      refine ⟨_, by rw [h.mapTx, he, map_some], ?_, ho⟩
      by_cases hk : tx.hash = hash
      · rw [if_pos hk]
        exact heq
      · rw [if_neg hk]
        exact heq
    · rintro ⟨e', he', heq, ho⟩
      obtain ⟨e0, he0, htx, -⟩ := h.lookup he'
      exact ⟨e0, he0, htx.symm.trans heq, ho⟩
  totalTxSize := by
    rw [h.totalTxSize, hst.totalTxSize, h.txids]
    exact sum_congr rfl fun x _ => (h.sizeAt x).symm

theorem Prioritised.linksInputs (h : Prioritised pool pool' hash δ) (hok : LinksInputs pool) :
    LinksInputs pool' := by
  intro p c
  rw [parent_congr h.mapLinks, hok, SpendsFrom, SpendsFrom, h.mem_mapTx]
  refine and_congr_right fun _ => ?_
  constructor
  · rintro ⟨e, he, hin⟩
    refine ⟨_, by rw [h.mapTx, he, map_some], ?_⟩
    by_cases hk : c = hash
    · rw [if_pos hk]
      exact hin
    · rw [if_neg hk]
      exact hin
  · rintro ⟨e', he', hin⟩
    obtain ⟨e0, he0, htx, -⟩ := h.lookup he'
    exact ⟨e0, he0, htx ▸ hin⟩

theorem Prioritised.deltasOk (h : Prioritised pool pool' hash δ) (hok : DeltasOk pool) :
    DeltasOk pool' := by
  intro k e' he'
  obtain ⟨e0, he0, -, -, hdelta, -⟩ := h.lookup he'
  rw [hdelta, h.mapDeltas, hok k e0 he0]
  split <;> rfl

end Prioritised

end

end Rcoin
