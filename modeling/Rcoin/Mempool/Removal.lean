/-
  `RemoveStaged`: what is left of the tables when a set of entries has been
  taken out of the pool.

  Source: UpdateForRemoveFromMempool, UpdateChildrenForRemoval, removeUnchecked
  and RemoveStaged in src/txmempool.cpp.
-/
import Rcoin.Mempool.Tables

namespace Rcoin

open Relation CTxMemPool CTxMemPoolEntry Option SortedSet

/-! ## What the walks rely on -/

/-- The sigop cost of each entry fits an `int`, as the pool's callers check
    (`MAX_STANDARD_TX_SIGOPS_COST`). -/
def SigOpsOk (pool : CTxMemPool) : Prop :=
  ∀ h e, pool.mapTx.lookup h = some e → 0 ≤ e.sigOpCost ∧ e.sigOpCost < 2 ^ 31

theorem toInt_neg {x : Int} (h0 : 0 ≤ x) (h1 : x < 2 ^ 31) : toInt (-x) = -x := by
  unfold toInt
  rw [Int.bmod_eq_of_le]
  · omega
  · omega

namespace CTxMemPool

/-- Each entry is stored under its own hash. -/
def HashesOk (pool : CTxMemPool) : Prop :=
  ∀ h e, pool.mapTx.lookup h = some e → e.tx.hash = h

variable {pool pool' : CTxMemPool} {a : Uint256 → AncestorTotals} {d : Uint256 → DescendantTotals}

theorem Moved.lookup (h : Moved pool pool' a d) {k : Uint256} {e : CTxMemPoolEntry}
    (he : pool'.mapTx.lookup k = some e) :
    ∃ e0, pool.mapTx.lookup k = some e0 ∧ e = e0.adjust (a k) (d k) := by
  rw [h.mapTx] at he
  obtain ⟨e0, he0, rfl⟩ := map_eq_some_iff.mp he
  exact ⟨e0, he0, rfl⟩

theorem Moved.hashesOk (h : Moved pool pool' a d) (hok : HashesOk pool) : HashesOk pool' := by
  intro k e he
  obtain ⟨e0, he0, rfl⟩ := h.lookup he
  exact hok k e0 he0

theorem Moved.sigOpsOk (h : Moved pool pool' a d) (hok : SigOpsOk pool) : SigOpsOk pool' := by
  intro k e he
  obtain ⟨e0, he0, rfl⟩ := h.lookup he
  exact hok k e0 he0

theorem parent_congr (h : pool'.mapLinks = pool.mapLinks) : pool'.Parent = pool.Parent := by
  funext p c
  rw [Parent, Parent, links, links, h]

theorem Moved.linksOk (h : Moved pool pool' a d) (hl : pool'.mapLinks = pool.mapLinks)
    (hok : LinksOk pool) : LinksOk pool' where
  dom k := by rw [hl, h.mem]; exact hok.dom k
  symm p c := by
    rw [parent_congr hl, links, hl]
    exact hok.symm p c
  mem p c hp := by
    rw [parent_congr hl] at hp
    exact h.mem.mpr (hok.mem p c hp)

end CTxMemPool

/-! ## Totals of the descendants that stay -/

section

open scoped Classical

variable (env : MempoolEnv)

/-- What the entry `k` loses when `r`, which reaches it, is removed. -/
noncomputable def ancestorLoss (pool : CTxMemPool) (r k : Uint256) : AncestorTotals :=
  if k ≠ r ∧ ReflTransGen pool.Parent r k then -env.ancestorWeightAt pool r else 0

/-- What the entry `k` loses when `r`, which it properly reaches, is removed. -/
noncomputable def descendantLoss (pool : CTxMemPool) (r k : Uint256) : DescendantTotals :=
  if TransGen pool.Parent k r then -env.descendantWeightAt pool r else 0

variable {env} {pool p p' : CTxMemPool} {r : Uint256}

theorem updateDescendantsForRemove_spec (hok : LinksOk p) (hsig : SigOpsOk p)
    (h : env.updateDescendantsForRemove p r = some p') :
    Moved p p' (ancestorLoss env p r) 0 ∧ p'.mapLinks = p.mapLinks := by
  obtain ⟨D, hD, h⟩ := bind_eq_some_iff.mp h
  obtain ⟨e, he, h⟩ := bind_eq_some_iff.mp h
  obtain ⟨D', hD', hiff⟩ := calculateDescendants_spec hok (mem_mapTx_iff.mpr ⟨e, he⟩)
    (D := ∅) fun x hx => absurd hx (not_mem_empty x)
  obtain rfl : D = D' := Option.some.inj (hD.symm.trans hD')
  obtain ⟨h0, h1⟩ := hsig r e he
  obtain ⟨hm, hl⟩ := modifyAll_spec (fun _ _ => updateAncestorState_eq_some) h
  refine ⟨hm.congr (fun k => ?_) (fun k => by simp), hl⟩
  have hw : env.ancestorWeightAt p r = env.ancestorWeight e := by
    rw [MempoolEnv.ancestorWeightAt, he, elim_some]
  simp only [ancestorLoss, hw, toInt_neg h0 h1, SortedSet.mem_erase, hiff, not_mem_empty,
    false_or]
  rfl

variable {l : List Uint256}

theorem foldlM_updateDescendantsForRemove (hok : LinksOk pool) (hsig : SigOpsOk pool)
    (h : l.foldlM env.updateDescendantsForRemove pool = some p') :
    Moved pool p' (fun k => (l.map (ancestorLoss env pool · k)).sum) 0 ∧
      p'.mapLinks = pool.mapLinks := by
  obtain ⟨hm, -, hl⟩ := foldlM_moved (g := 0)
    (P := fun _ p => (∃ a d, Moved pool p a d) ∧ p.mapLinks = pool.mapLinks) []
    (fun _ p r p' _ ⟨⟨a, d, hp⟩, hl⟩ hr => by
      obtain ⟨hm, hl'⟩ := updateDescendantsForRemove_spec (hp.linksOk hl hok) (hp.sigOpsOk hsig) hr
      have hloss : ancestorLoss env p r = ancestorLoss env pool r := by
        funext k
        rw [ancestorLoss, ancestorLoss, hp.ancestorWeightAt, parent_congr hl]
      rw [hloss] at hm
      exact ⟨hm, ⟨_, _, hp.trans hm⟩, hl'.trans hl⟩)
    ⟨⟨0, 0, Moved.refl pool⟩, rfl⟩ h
  exact ⟨hm.congr (fun _ => rfl) (fun k => by simp), hl⟩

/-! ## Totals of the ancestors -/

/-- The links after `it` has been made a child of its parents, or taken from
    their children. -/
structure ChildMoved (p p' : CTxMemPool) (it : Uint256) (add : Bool) : Prop where
  dom : (∀ x, p.Parent x it → x ∈ p.mapLinks) → ∀ h, h ∈ p'.mapLinks ↔ h ∈ p.mapLinks
  parents : p'.Parent = p.Parent
  children : ∀ h x, x ∈ (p'.links h).children ↔
    if p.Parent h it ∧ x = it then add = true else x ∈ (p.links h).children

theorem updateAncestorsOf_spec {it : Uint256} {A : SetEntries} {add : Bool}
    (h : env.updateAncestorsOf add it A p = some p') :
    Moved p p' 0 (fun k => if k ∈ A then
      (if add then env.descendantWeightAt p it else -env.descendantWeightAt p it) else 0) ∧
    ChildMoved p p' it add := by
  obtain ⟨parentIters, hpar, h⟩ := bind_eq_some_iff.mp h
  obtain ⟨e, he, h⟩ := bind_eq_some_iff.mp h
  obtain ⟨honly, hdom, hparents, hchildren⟩ := foldl_updateChild_spec it add parentIters.elems p
  have hp : ∀ x, x ∈ parentIters.elems ↔ p.Parent x it := by
    intro x
    obtain ⟨l, hl, rfl⟩ := map_eq_some_iff.mp hpar
    rw [Parent, links, hl]
    rfl
  obtain ⟨hm, hl⟩ := modifyAll_spec (fun _ _ => updateDescendantState_eq_some) h
  have hw : env.descendantWeightAt p it = env.descendantWeight e := by
    rw [honly.mapTx] at he
    rw [MempoolEnv.descendantWeightAt, he, elim_some]
  refine ⟨(honly.moved.trans hm).congr (fun k => by simp) (fun k => ?_), ?_, ?_, ?_⟩
  · have hsign : ((if add then 1 else -1 : Int),
        (if add then 1 else -1) * env.getTxSize e, (if add then 1 else -1) * e.getModifiedFee) =
        if add then env.descendantWeightAt p it else -env.descendantWeightAt p it := by
      rw [hw]
      cases add <;> simp [MempoolEnv.descendantWeight]
    rw [Pi.add_apply, Pi.zero_apply, zero_add, hsign]
  · intro hsub k
    rw [hl, hdom]
    exact ⟨fun hk => hk.elim id fun hk => hsub k ((hp k).mp hk), .inl⟩
  · rw [parent_congr hl]
    funext x c
    rw [Parent, hparents]
    rfl
  · intro k x
    rw [links, hl]
    show x ∈ (links _ k).children ↔ _
    simp only [hchildren, hp]

theorem updateAncestorsForRemove_spec (hhash : HashesOk p) (hok : ParentsOk p)
    (h : env.updateAncestorsForRemove p r = some p') :
    Moved p p' 0 (descendantLoss env p r) ∧ ChildMoved p p' r false := by
  obtain ⟨e, he, h⟩ := bind_eq_some_iff.mp h
  obtain ⟨A, hA, h⟩ := bind_eq_some_iff.mp h
  obtain rfl : e.tx.hash = r := hhash r e he
  obtain ⟨A', hA', hiff⟩ := calculateMemPoolAncestors_spec hok (mem_mapTx_iff.mpr ⟨e, he⟩)
  obtain rfl : A = A' := Option.some.inj (hA.symm.trans hA')
  obtain ⟨hm, hc⟩ := updateAncestorsOf_spec h
  refine ⟨hm.congr (fun _ => rfl) (fun k => ?_), hc⟩
  simp only [descendantLoss, hiff]
  rfl

theorem foldlM_updateAncestorsForRemove (hhash : HashesOk pool) (hok : LinksOk pool)
    (h : l.foldlM env.updateAncestorsForRemove pool = some p') :
    Moved pool p' 0 (fun k => (l.map (descendantLoss env pool · k)).sum) ∧
      (∀ h, h ∈ p'.mapLinks ↔ h ∈ pool.mapLinks) ∧ p'.Parent = pool.Parent ∧
      ∀ x c, c ∈ (p'.links x).children ↔ pool.Parent x c ∧ c ∉ l := by
  obtain ⟨hm, -, hdom, hpar, hchild⟩ := foldlM_moved (f := 0)
    (P := fun seen p => (∃ a d, Moved pool p a d) ∧ (∀ h, h ∈ p.mapLinks ↔ h ∈ pool.mapLinks) ∧
      p.Parent = pool.Parent ∧
      ∀ x c, c ∈ (p.links x).children ↔ pool.Parent x c ∧ c ∉ seen) []
    (fun seen p r p' _ ⟨⟨a, d, hp⟩, hdom, hpar, hchild⟩ hr => by
      have hparents : ParentsOk p := by
        intro k hk
        rw [hdom, hpar]
        exact ⟨(hok.dom k).mpr (hp.mem.mp hk), fun q hq => hp.mem.mpr (hok.mem q k hq)⟩
      obtain ⟨hm, hc⟩ := updateAncestorsForRemove_spec (hp.hashesOk hhash) hparents hr
      have hloss : descendantLoss env p r = descendantLoss env pool r := by
        funext k
        rw [descendantLoss, descendantLoss, hp.descendantWeightAt, hpar]
      rw [hloss] at hm
      refine ⟨hm, ⟨_, _, hp.trans hm⟩, fun k => ?_, hc.parents.trans hpar, fun x c => ?_⟩
      · rw [hc.dom (fun x hx => ?_), hdom]
        rw [hpar] at hx
        rw [hdom, hok.dom]
        exact hok.mem x r hx
      · rw [hc.children, hpar, hchild, List.mem_cons]
        by_cases hcr : c = r
        · by_cases hx : pool.Parent x r <;> simp [hcr, hx]
        · simp [hcr])
    ⟨⟨0, 0, Moved.refl pool⟩, fun _ => Iff.rfl, rfl, fun x c => by simp [hok.symm]⟩ h
  refine ⟨hm.congr (fun k => by simp) (fun _ => rfl), hdom, hpar, fun x c => ?_⟩
  rw [hchild]
  simp

/-! ## Links of the children that stay -/

theorem foldlM_updateChildrenForRemoval
    (hdom : ∀ x c, c ∈ (pool.links x).children → c ∈ pool.mapLinks)
    (h : l.foldlM updateChildrenForRemoval pool = some p') :
    LinksOnly pool p' ∧ (∀ h, h ∈ p'.mapLinks ↔ h ∈ pool.mapLinks) ∧
      (∀ x, (p'.links x).children = (pool.links x).children) ∧
      ∀ x c, p'.Parent x c ↔ pool.Parent x c ∧ ¬ (x ∈ l ∧ c ∈ (pool.links x).children) := by
  induction l generalizing pool with
  | nil =>
    cases h
    exact ⟨LinksOnly.refl _, fun _ => Iff.rfl, fun _ => rfl, fun x c => by simp⟩
  | cons r l ih =>
    obtain ⟨p, hr, h⟩ := bind_eq_some_iff.mp h
    obtain ⟨s, hs, hr⟩ := bind_eq_some_iff.mp hr
    have hmem : ∀ c, c ∈ s.elems ↔ c ∈ (pool.links r).children := by
      intro c
      obtain ⟨t, ht, rfl⟩ := map_eq_some_iff.mp hs
      rw [links, ht]
      rfl
    obtain ⟨honly, hdom1, hchild1, hpar1⟩ := foldl_updateParent_spec r false s.elems pool
    rw [Option.some.inj hr] at honly hdom1 hchild1 hpar1
    have hdom1' : ∀ x, x ∈ p.mapLinks ↔ x ∈ pool.mapLinks := fun x =>
      (hdom1 x).trans ⟨fun hx => hx.elim id fun hx => hdom r x ((hmem x).mp hx), .inl⟩
    obtain ⟨honly2, hdom2, hchild2, hpar2⟩ := ih (fun x c hc => by
      rw [hchild1] at hc
      exact (hdom1' c).mpr (hdom x c hc)) h
    refine ⟨honly.trans honly2, fun x => (hdom2 x).trans (hdom1' x),
      fun x => (hchild2 x).trans (hchild1 x), fun x c => ?_⟩
    rw [hpar2, hchild1, Parent, hpar1, List.mem_cons, Parent]
    simp only [hmem]
    by_cases hx : x = r
    · by_cases hc : c ∈ (pool.links r).children <;> simp [hx, hc]
    · simp [hx]

/-! ## Taking the entries out -/

/-- The pool without the entries of `D`, where the totals of the others have
    moved by `a` and `d`. -/
structure Removed (env : MempoolEnv) (pool pool' : CTxMemPool) (D : SetEntries)
    (a : Uint256 → AncestorTotals) (d : Uint256 → DescendantTotals) : Prop where
  mem : ∀ r ∈ D, r ∈ pool.mapTx
  mapTx : ∀ h, pool'.mapTx.lookup h =
    if h ∈ D then none else (pool.mapTx.lookup h).map (adjust (a h) (d h))
  dom : ∀ h, h ∈ pool'.mapLinks ↔ h ∈ pool.mapLinks ∧ h ∉ D
  parent : ∀ p c, pool'.Parent p c ↔ pool.Parent p c ∧ p ∉ D ∧ c ∉ D
  children : ∀ p c, c ∈ (pool'.links p).children ↔ pool.Parent p c ∧ p ∉ D ∧ c ∉ D
  mapNextTx : ∀ o, pool'.mapNextTx.lookup o =
    if ∃ r ∈ D, ∃ e, pool.mapTx.lookup r = some e ∧ o ∈ e.tx.prevouts then none
    else pool.mapNextTx.lookup o
  mapDeltas : pool'.mapDeltas = pool.mapDeltas
  totalTxSize : pool'.totalTxSize = pool.totalTxSize - ∑ r ∈ D.toFinset, env.sizeAt pool r

theorem removeUnchecked_spec (h : env.removeUnchecked pool r = some p') :
    ∃ e, pool.mapTx.lookup r = some e ∧
      (∀ k, p'.mapTx.lookup k = if k = r then none else pool.mapTx.lookup k) ∧
      (∀ k, p'.mapLinks.lookup k = if k = r then none else pool.mapLinks.lookup k) ∧
      (∀ o, p'.mapNextTx.lookup o =
        if o ∈ e.tx.prevouts then none else pool.mapNextTx.lookup o) ∧
      p'.mapDeltas = pool.mapDeltas ∧ p'.totalTxSize = pool.totalTxSize - env.sizeAt pool r := by
  obtain ⟨e, he, h⟩ := bind_eq_some_iff.mp h
  cases h
  refine ⟨e, he, fun k => Maps.lookup_erase _ _ _, fun k => Maps.lookup_erase _ _ _,
    fun o => Maps.lookup_foldl_erase _ _ _, rfl, ?_⟩
  rw [MempoolEnv.sizeAt, he, elim_some]

theorem foldlM_removeUnchecked (hl : l.Nodup) (h : l.foldlM env.removeUnchecked pool = some p') :
    (∀ r ∈ l, r ∈ pool.mapTx) ∧
    (∀ k, p'.mapTx.lookup k = if k ∈ l then none else pool.mapTx.lookup k) ∧
      (∀ k, p'.mapLinks.lookup k = if k ∈ l then none else pool.mapLinks.lookup k) ∧
      (∀ o, p'.mapNextTx.lookup o =
        if ∃ r ∈ l, ∃ e, pool.mapTx.lookup r = some e ∧ o ∈ e.tx.prevouts then none
        else pool.mapNextTx.lookup o) ∧
      p'.mapDeltas = pool.mapDeltas ∧
      p'.totalTxSize = pool.totalTxSize - (l.map (env.sizeAt pool)).sum := by
  induction l generalizing pool with
  | nil =>
    cases h
    simp
  | cons r l ih =>
    obtain ⟨hr, hnd⟩ := List.nodup_cons.mp hl
    obtain ⟨p, hstep, h⟩ := bind_eq_some_iff.mp h
    obtain ⟨e, he, htx, hlinks, hnext, hdeltas, htotal⟩ := removeUnchecked_spec hstep
    obtain ⟨hmem2, htx2, hlinks2, hnext2, hdeltas2, htotal2⟩ := ih hnd h
    have hsame : ∀ k ∈ l, p.mapTx.lookup k = pool.mapTx.lookup k := by
      intro k hk
      have hne : k ≠ r := fun heq => hr (heq ▸ hk)
      rw [htx, if_neg hne]
    refine ⟨?_, fun k => ?_, fun k => ?_, fun o => ?_, hdeltas2.trans hdeltas, ?_⟩
    · intro k hk
      rcases List.mem_cons.mp hk with rfl | hk
      · exact mem_mapTx_iff.mpr ⟨e, he⟩
      · have := hmem2 k hk
        rwa [mem_mapTx_iff, hsame k hk, ← mem_mapTx_iff] at this
    · rw [htx2, htx]
      by_cases hk : k = r <;> simp [hk]
    · rw [hlinks2, hlinks]
      by_cases hk : k = r <;> simp [hk]
    · rw [hnext2, hnext]
      have hiff : (∃ k ∈ l, ∃ e, p.mapTx.lookup k = some e ∧ o ∈ e.tx.prevouts) ↔
          ∃ k ∈ l, ∃ e, pool.mapTx.lookup k = some e ∧ o ∈ e.tx.prevouts :=
        exists_congr fun k => and_congr_right fun hk => by rw [hsame k hk]
      simp only [hiff, List.exists_mem_cons_iff, he, Option.some.injEq, exists_eq_left']
      by_cases ho : o ∈ e.tx.prevouts <;> simp [ho]
    · rw [htotal2, htotal, List.map_cons, List.sum_cons]
      have hmap : l.map (env.sizeAt p) = l.map (env.sizeAt pool) :=
        List.map_congr_left fun k hk => by rw [MempoolEnv.sizeAt, MempoolEnv.sizeAt, hsame k hk]
      rw [hmap]
      omega

theorem removeStaged_spec (hhash : HashesOk pool) (hok : LinksOk pool) (hsig : SigOpsOk pool)
    {D : SetEntries} {updateDescendants : Bool}
    (h : env.removeStaged D updateDescendants pool = some pool') :
    Removed env pool pool' D
      (fun k => if updateDescendants then ∑ r ∈ D.toFinset, ancestorLoss env pool r k else 0)
      (fun k => ∑ r ∈ D.toFinset, descendantLoss env pool r k) := by
  -- the descendants' ancestor totals, the ancestors' totals and child links, the
  -- children's parent links, and then the entries themselves
  obtain ⟨p3, h, h4⟩ := bind_eq_some_iff.mp h
  obtain ⟨p1, h₁, h⟩ := bind_eq_some_iff.mp h
  obtain ⟨p2, h2, h3⟩ := bind_eq_some_iff.mp h
  have hdesc : Moved pool p1 (fun k => if updateDescendants then
      ∑ r ∈ D.toFinset, ancestorLoss env pool r k else 0) 0 ∧ p1.mapLinks = pool.mapLinks := by
    cases updateDescendants with
    | false =>
      cases h₁
      exact ⟨Moved.refl _, rfl⟩
    | true => exact foldlM_updateDescendantsForRemove hok hsig h₁
  obtain ⟨hm1, hl1⟩ := hdesc
  have hok1 := hm1.linksOk hl1 hok
  obtain ⟨hm2, hdom2, hpar2, hchild2⟩ :=
    foldlM_updateAncestorsForRemove (hm1.hashesOk hhash) hok1 h2
  rw [parent_congr hl1] at hpar2 hchild2
  -- the second pass reads links and sizes, which the first left alone
  have hloss : ∀ r k, descendantLoss env p1 r k = descendantLoss env pool r k := fun r k => by
    rw [descendantLoss, descendantLoss, hm1.descendantWeightAt, parent_congr hl1]
  obtain ⟨honly3, hdom3, hchild3, hpar3⟩ := foldlM_updateChildrenForRemoval (fun x c hc => by
    rw [hdom2, hl1, hok.dom]
    exact hok.mem_child ((hchild2 x c).mp hc).1) h3
  have hm : Moved pool p3 (fun k => if updateDescendants then
      ∑ r ∈ D.toFinset, ancestorLoss env pool r k else 0)
      (fun k => ∑ r ∈ D.toFinset, descendantLoss env pool r k) :=
    ((hm1.trans hm2).trans honly3.moved).congr (fun k => by simp) fun k => by
      simp [hloss, sum_elems]
  obtain ⟨hmem, htx, hlinks, hnext, hdeltas, htotal⟩ := foldlM_removeUnchecked D.nodup h4
  have hlinks' : ∀ k, pool'.links k = if k ∈ D then {} else p3.links k := by
    intro k
    rw [links, hlinks]
    by_cases hk : k ∈ D
    · simp [hk]
    · simp [hk, links]
  refine ⟨fun r hr => hm.mem.mp (hmem r hr), fun k => ?_, fun k => ?_, fun p c => ?_,
    fun p c => ?_, fun o => ?_, hdeltas.trans hm.mapDeltas, ?_⟩
  · rw [htx, hm.mapTx]
    rfl
  · rw [← AList.lookup_isSome, hlinks]
    by_cases hk : k ∈ D
    · simp [hk]
    · simp [hk, AList.lookup_isSome, hdom3, hdom2, hl1]
  · -- a removed child keeps its parent links until its own links go
    rw [Parent, hlinks']
    by_cases hc : c ∈ D
    · simp [hc]
    · rw [if_neg hc]
      show p3.Parent p c ↔ _
      rw [hpar3, hpar2, hchild2]
      by_cases hp : p ∈ D <;> simp [hp, hc]
  · rw [hlinks']
    by_cases hp : p ∈ D
    · simp [hp]
    · rw [if_neg hp, hchild3, hchild2]
      simp [hp]
  · rw [hnext, hm.mapNextTx]
    have hiff : (∃ r ∈ D.elems, ∃ e, p3.mapTx.lookup r = some e ∧ o ∈ e.tx.prevouts) ↔
        ∃ r ∈ D, ∃ e, pool.mapTx.lookup r = some e ∧ o ∈ e.tx.prevouts := by
      refine exists_congr fun r => and_congr_right fun _ => ?_
      rw [hm.mapTx]
      constructor
      · rintro ⟨e, he, ho⟩
        obtain ⟨e0, he0, rfl⟩ := map_eq_some_iff.mp he
        exact ⟨e0, he0, ho⟩
      · rintro ⟨e, he, ho⟩
        exact ⟨e.adjust _ _, by rw [he]; rfl, ho⟩
    simp only [hiff]
  · rw [htotal, hm.totalTxSize, sum_elems]
    congr 1
    refine Finset.sum_congr rfl fun r _ => ?_
    rw [MempoolEnv.sizeAt, MempoolEnv.sizeAt, hm.mapTx]
    cases pool.mapTx.lookup r <;> rfl

end

end Rcoin
