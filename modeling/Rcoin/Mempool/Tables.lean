/-
  What the steps of the pool's operations do to its tables: the totals of the
  entries move, links are added or cut, and the walks along the links return
  closures.  One lemma a step; later modules use these and unfold no loop.
-/
import Rcoin.Mempool.Pool
import Rcoin.Lib.Closure

namespace Rcoin

open Relation SortedSet Worklist

/-! ## The totals of an entry -/

/-- Count, size, modified fee and sigop cost, of a transaction with its ancestors. -/
abbrev AncestorTotals := Int × Int × Int × Int

/-- Count, size and modified fee, of a transaction with its descendants. -/
abbrev DescendantTotals := Int × Int × Int

namespace CTxMemPoolEntry

def ancestorTotals (e : CTxMemPoolEntry) : AncestorTotals :=
  (e.nCountWithAncestors, e.nSizeWithAncestors, e.nModFeesWithAncestors, e.nSigOpCostWithAncestors)

def descendantTotals (e : CTxMemPoolEntry) : DescendantTotals :=
  (e.nCountWithDescendants, e.nSizeWithDescendants, e.nModFeesWithDescendants)

/-- The entry with its totals moved by `a` and `d`. -/
def adjust (a : AncestorTotals) (d : DescendantTotals) (e : CTxMemPoolEntry) : CTxMemPoolEntry :=
  { e with
    nCountWithAncestors := e.nCountWithAncestors + a.1
    nSizeWithAncestors := e.nSizeWithAncestors + a.2.1
    nModFeesWithAncestors := e.nModFeesWithAncestors + a.2.2.1
    nSigOpCostWithAncestors := e.nSigOpCostWithAncestors + a.2.2.2
    nCountWithDescendants := e.nCountWithDescendants + d.1
    nSizeWithDescendants := e.nSizeWithDescendants + d.2.1
    nModFeesWithDescendants := e.nModFeesWithDescendants + d.2.2 }

variable (a a' : AncestorTotals) (d d' : DescendantTotals) (e : CTxMemPoolEntry)

@[simp] theorem tx_adjust : (e.adjust a d).tx = e.tx := rfl

@[simp] theorem ancestorTotals_adjust : (e.adjust a d).ancestorTotals = e.ancestorTotals + a := rfl

@[simp] theorem descendantTotals_adjust :
    (e.adjust a d).descendantTotals = e.descendantTotals + d := rfl

@[simp] theorem adjust_zero : e.adjust 0 0 = e := by
  simp [adjust]

@[simp] theorem adjust_adjust : (e.adjust a d).adjust a' d' = e.adjust (a + a') (d + d') := by
  simp [adjust, add_assoc]

variable {e} {e' : CTxMemPoolEntry} {size fee count sigOps : Int}

theorem updateDescendantState_eq_some (h : updateDescendantState size fee count e = some e') :
    e' = e.adjust 0 (count, size, fee) := by
  simp only [updateDescendantState] at h
  split at h
  · rw [← Option.some.inj h]
    simp [adjust]
  · cases h

theorem updateAncestorState_eq_some (h : updateAncestorState size fee count sigOps e = some e') :
    e' = e.adjust (count, size, fee, sigOps) 0 := by
  simp only [updateAncestorState] at h
  split at h
  · rw [← Option.some.inj h]
    simp [adjust]
  · cases h

end CTxMemPoolEntry

namespace MempoolEnv

variable (env : MempoolEnv)

/-- What a transaction adds to the totals of its descendants. -/
def ancestorWeight (e : CTxMemPoolEntry) : AncestorTotals :=
  (1, env.getTxSize e, e.getModifiedFee, e.sigOpCost)

/-- What a transaction adds to the totals of its ancestors. -/
def descendantWeight (e : CTxMemPoolEntry) : DescendantTotals :=
  (1, env.getTxSize e, e.getModifiedFee)

def ancestorWeightAt (pool : CTxMemPool) (h : Uint256) : AncestorTotals :=
  (pool.mapTx.lookup h).elim 0 env.ancestorWeight

def descendantWeightAt (pool : CTxMemPool) (h : Uint256) : DescendantTotals :=
  (pool.mapTx.lookup h).elim 0 env.descendantWeight

def sizeAt (pool : CTxMemPool) (h : Uint256) : Int := (pool.mapTx.lookup h).elim 0 env.getTxSize

end MempoolEnv

open MempoolEnv

namespace CTxMemPool

open CTxMemPoolEntry

/-- The hashes of the transactions in the pool. -/
def txids (pool : CTxMemPool) : Finset Uint256 := pool.mapTx.keys.toFinset

variable {pool pool' pool'' : CTxMemPool}

variable {h : Uint256}

theorem mem_txids : h ∈ pool.txids ↔ h ∈ pool.mapTx := by
  rw [txids, List.mem_toFinset, AList.mem_keys]

theorem mem_mapTx_iff : h ∈ pool.mapTx ↔ ∃ e, pool.mapTx.lookup h = some e := by
  rw [← AList.lookup_isSome, Option.isSome_iff_exists]

theorem card_txids : pool.txids.card = pool.mapTx.keys.length :=
  List.toFinset_card_of_nodup pool.mapTx.keys_nodup

/-! ## Moved totals -/

/-- Only the totals of entries have moved, and links may have changed. -/
structure Moved (pool pool' : CTxMemPool) (a : Uint256 → AncestorTotals)
    (d : Uint256 → DescendantTotals) : Prop where
  mapTx : ∀ h, pool'.mapTx.lookup h = (pool.mapTx.lookup h).map (adjust (a h) (d h))
  mapNextTx : pool'.mapNextTx = pool.mapNextTx
  mapDeltas : pool'.mapDeltas = pool.mapDeltas
  totalTxSize : pool'.totalTxSize = pool.totalTxSize

variable {a a' : Uint256 → AncestorTotals} {d d' : Uint256 → DescendantTotals}

theorem Moved.refl (pool : CTxMemPool) : Moved pool pool 0 0 :=
  ⟨fun h => by cases pool.mapTx.lookup h <;> simp, rfl, rfl, rfl⟩

theorem Moved.trans (h : Moved pool pool' a d) (h' : Moved pool' pool'' a' d') :
    Moved pool pool'' (a + a') (d + d') where
  mapTx k := by
    rw [h'.mapTx, h.mapTx]
    cases pool.mapTx.lookup k <;> simp
  mapNextTx := h'.mapNextTx.trans h.mapNextTx
  mapDeltas := h'.mapDeltas.trans h.mapDeltas
  totalTxSize := h'.totalTxSize.trans h.totalTxSize

theorem Moved.congr (h : Moved pool pool' a d) (ha : ∀ k, a k = a' k) (hd : ∀ k, d k = d' k) :
    Moved pool pool' a' d' := by
  rwa [funext ha, funext hd] at h

theorem Moved.mem (h : Moved pool pool' a d) {k : Uint256} :
    k ∈ pool'.mapTx ↔ k ∈ pool.mapTx := by
  rw [← AList.lookup_isSome, ← AList.lookup_isSome, h.mapTx, Option.isSome_map]

theorem Moved.txids (h : Moved pool pool' a d) : pool'.txids = pool.txids := by
  ext k
  rw [mem_txids, mem_txids, h.mem]

section

variable (env : MempoolEnv) (k : Uint256)

theorem Moved.ancestorWeightAt (h : Moved pool pool' a d) :
    env.ancestorWeightAt pool' k = env.ancestorWeightAt pool k := by
  rw [MempoolEnv.ancestorWeightAt, MempoolEnv.ancestorWeightAt, h.mapTx]
  cases pool.mapTx.lookup k <;> rfl

theorem Moved.descendantWeightAt (h : Moved pool pool' a d) :
    env.descendantWeightAt pool' k = env.descendantWeightAt pool k := by
  rw [MempoolEnv.descendantWeightAt, MempoolEnv.descendantWeightAt, h.mapTx]
  cases pool.mapTx.lookup k <;> rfl

end

variable {f : CTxMemPoolEntry → Option CTxMemPoolEntry}

theorem modifyEntry_tables {it : Uint256} (h : modifyEntry f pool it = some pool') :
    ∃ e e', pool.mapTx.lookup it = some e ∧ f e = some e' ∧
      (∀ k, pool'.mapTx.lookup k = if k = it then some e' else pool.mapTx.lookup k) ∧
      pool'.mapLinks = pool.mapLinks ∧ pool'.mapNextTx = pool.mapNextTx ∧
      pool'.mapDeltas = pool.mapDeltas ∧ pool'.totalTxSize = pool.totalTxSize := by
  unfold modifyEntry at h
  split at h
  · cases h
  next e he =>
    obtain ⟨e', hfe, rfl⟩ := Option.map_eq_some_iff.mp h
    exact ⟨e, e', he, hfe, fun k => Maps.lookup_insert _ _ _ _, rfl, rfl, rfl, rfl⟩

variable {vd : DescendantTotals} {va : AncestorTotals}

theorem modifyEntry_spec (hf : ∀ e e', f e = some e' → e' = e.adjust va vd) {it : Uint256}
    (h : modifyEntry f pool it = some pool') :
    Moved pool pool' (fun k => if k = it then va else 0) (fun k => if k = it then vd else 0) ∧
      pool'.mapLinks = pool.mapLinks := by
  obtain ⟨e, e', he, hfe, htx, hlinks, hnext, hdeltas, htotal⟩ := modifyEntry_tables h
  refine ⟨⟨fun k => ?_, hnext, hdeltas, htotal⟩, hlinks⟩
  rw [htx]
  by_cases hk : k = it
  · rw [if_pos hk, if_pos hk, if_pos hk, hk, he, hf e e' hfe, Option.map_some]
  · rw [if_neg hk, if_neg hk, if_neg hk]
    cases pool.mapTx.lookup k <;> simp

/-- A loop whose rounds move totals moves them by the sum over its rounds.  `P`
    is what the rounds keep, with the entries already seen. -/
theorem foldlM_moved {step : CTxMemPool → Uint256 → Option CTxMemPool}
    {f : Uint256 → Uint256 → AncestorTotals} {g : Uint256 → Uint256 → DescendantTotals}
    {P : List Uint256 → CTxMemPool → Prop} {l : List Uint256} (seen : List Uint256)
    (hstep : ∀ seen p r p', r ∈ l → P seen p → step p r = some p' →
      Moved p p' (f r) (g r) ∧ P (r :: seen) p')
    (hP : P seen pool) (h : l.foldlM step pool = some pool') :
    Moved pool pool' (fun k => (l.map (f · k)).sum) (fun k => (l.map (g · k)).sum) ∧
      P (l.reverse ++ seen) pool' := by
  induction l generalizing pool seen with
  | nil =>
    cases h
    exact ⟨Moved.refl _, hP⟩
  | cons r l ih =>
    obtain ⟨p, hr, h⟩ := Option.bind_eq_some_iff.mp h
    obtain ⟨hmoved, hPp⟩ := hstep seen pool r p List.mem_cons_self hP hr
    obtain ⟨hrest, hP'⟩ :=
      ih (r :: seen) (fun seen p r p' hr => hstep seen p r p' (List.mem_cons_of_mem _ hr)) hPp h
    refine ⟨(hmoved.trans hrest).congr (fun k => ?_) (fun k => ?_), ?_⟩
    · simp
    · simp
    · rwa [List.reverse_cons, List.append_assoc, List.singleton_append]

variable {s : SetEntries}

theorem modifyAll_spec (hf : ∀ e e', f e = some e' → e' = e.adjust va vd)
    (h : s.elems.foldlM (modifyEntry f) pool = some pool') :
    Moved pool pool' (fun k => if k ∈ s then va else 0) (fun k => if k ∈ s then vd else 0) ∧
      pool'.mapLinks = pool.mapLinks := by
  obtain ⟨hmoved, hlinks⟩ := foldlM_moved (P := fun _ p => p.mapLinks = pool.mapLinks) []
    (fun _ p r p' _ hp hr => by
      obtain ⟨hm, hl⟩ := modifyEntry_spec hf hr
      exact ⟨hm, hl.trans hp⟩) rfl h
  refine ⟨hmoved.congr (fun k => ?_) (fun k => ?_), hlinks⟩ <;>
  · rw [sum_elems, Finset.sum_ite_eq]
    rfl

/-! ## Links -/

theorem links_insert (pool : CTxMemPool) (it : Uint256) (l : TxLinks) (h : Uint256) :
    links { pool with mapLinks := pool.mapLinks.insert it l } h =
      if h = it then l else pool.links h := by
  unfold links
  rw [Maps.lookup_insert]
  split <;> rfl

/-- The tables other than the links are as before. -/
structure LinksOnly (pool pool' : CTxMemPool) : Prop where
  mapTx : pool'.mapTx = pool.mapTx
  mapNextTx : pool'.mapNextTx = pool.mapNextTx
  mapDeltas : pool'.mapDeltas = pool.mapDeltas
  totalTxSize : pool'.totalTxSize = pool.totalTxSize

theorem LinksOnly.refl (pool : CTxMemPool) : LinksOnly pool pool := ⟨rfl, rfl, rfl, rfl⟩

theorem LinksOnly.trans (h : LinksOnly pool pool') (h' : LinksOnly pool' pool'') :
    LinksOnly pool pool'' :=
  ⟨h'.mapTx.trans h.mapTx, h'.mapNextTx.trans h.mapNextTx, h'.mapDeltas.trans h.mapDeltas,
    h'.totalTxSize.trans h.totalTxSize⟩

theorem LinksOnly.moved (h : LinksOnly pool pool') : Moved pool pool' 0 0 :=
  ⟨fun k => by rw [h.mapTx]; cases pool.mapTx.lookup k <;> simp, h.mapNextTx, h.mapDeltas,
    h.totalTxSize⟩

variable (it : Uint256) (add : Bool) (l : List Uint256)

theorem mem_childrenAfter {x y : Uint256} : x ∈ (if add then s.insert y else s.erase y) ↔
      if x = y then add = true else x ∈ s := by
  cases add <;> by_cases h : x = y <;> simp [h]

theorem foldl_updateChild_spec (pool : CTxMemPool) :
    LinksOnly pool (l.foldl (fun p h => p.updateChild h it add) pool) ∧
    (∀ h, h ∈ (l.foldl (fun p h => p.updateChild h it add) pool).mapLinks ↔
      h ∈ pool.mapLinks ∨ h ∈ l) ∧
    (∀ h, ((l.foldl (fun p h => p.updateChild h it add) pool).links h).parents =
      (pool.links h).parents) ∧
    ∀ h x, x ∈ ((l.foldl (fun p h => p.updateChild h it add) pool).links h).children ↔
      if h ∈ l ∧ x = it then add = true else x ∈ (pool.links h).children := by
  induction l generalizing pool with
  | nil => exact ⟨LinksOnly.refl pool, by simp, fun _ => rfl, by simp⟩
  | cons b l ih =>
    obtain ⟨honly, hdom, hpar, hchild⟩ := ih (pool.updateChild b it add)
    have hlinks : ∀ h, (pool.updateChild b it add).links h = if h = b then
        { pool.links b with
          children := if add then (pool.links b).children.insert it
            else (pool.links b).children.erase it }
        else pool.links h := links_insert pool b _
    rw [List.foldl_cons]
    refine ⟨⟨honly.mapTx, honly.mapNextTx, honly.mapDeltas, honly.totalTxSize⟩, fun h => ?_,
      fun h => ?_, fun h x => ?_⟩
    · rw [hdom, List.mem_cons]
      show h ∈ pool.mapLinks.insert b _ ∨ h ∈ l ↔ _
      rw [AList.mem_insert]
      tauto
    · rw [hpar, hlinks]
      split
      next heq => rw [heq]
      next => rfl
    · rw [hchild, hlinks]
      by_cases hx : x = it
      · by_cases hb : h = b
        · simp [hx, hb, mem_childrenAfter]
        · simp [hx, hb]
      · by_cases hb : h = b
        · simp [hx, hb, mem_childrenAfter]
        · simp [hx, hb]

theorem foldl_updateParent_spec (pool : CTxMemPool) :
    LinksOnly pool (l.foldl (fun p h => p.updateParent h it add) pool) ∧
    (∀ h, h ∈ (l.foldl (fun p h => p.updateParent h it add) pool).mapLinks ↔
      h ∈ pool.mapLinks ∨ h ∈ l) ∧
    (∀ h, ((l.foldl (fun p h => p.updateParent h it add) pool).links h).children =
      (pool.links h).children) ∧
    ∀ h x, x ∈ ((l.foldl (fun p h => p.updateParent h it add) pool).links h).parents ↔
      if h ∈ l ∧ x = it then add = true else x ∈ (pool.links h).parents := by
  induction l generalizing pool with
  | nil => exact ⟨LinksOnly.refl pool, by simp, fun _ => rfl, by simp⟩
  | cons b l ih =>
    obtain ⟨honly, hdom, hchild, hpar⟩ := ih (pool.updateParent b it add)
    have hlinks : ∀ h, (pool.updateParent b it add).links h = if h = b then
        { pool.links b with
          parents := if add then (pool.links b).parents.insert it
            else (pool.links b).parents.erase it }
        else pool.links h := links_insert pool b _
    rw [List.foldl_cons]
    refine ⟨⟨honly.mapTx, honly.mapNextTx, honly.mapDeltas, honly.totalTxSize⟩, fun h => ?_,
      fun h => ?_, fun h x => ?_⟩
    · rw [hdom, List.mem_cons]
      show h ∈ pool.mapLinks.insert b _ ∨ h ∈ l ↔ _
      rw [AList.mem_insert]
      tauto
    · rw [hchild, hlinks]
      split
      next heq => rw [heq]
      next => rfl
    · rw [hpar, hlinks]
      by_cases hx : x = it
      · by_cases hb : h = b
        · simp [hx, hb, mem_childrenAfter]
        · simp [hx, hb]
      · by_cases hb : h = b
        · simp [hx, hb, mem_childrenAfter]
        · simp [hx, hb]

/-! ## Walks -/

/-- `p` is linked as a parent of `c`. -/
def Parent (pool : CTxMemPool) (p c : Uint256) : Prop := p ∈ (pool.links c).parents

/-- Each entry has links, and its linked parents are entries. -/
def ParentsOk (pool : CTxMemPool) : Prop :=
  ∀ h ∈ pool.mapTx, h ∈ pool.mapLinks ∧ ∀ p, pool.Parent p h → p ∈ pool.mapTx

/-- The links are those of one relation on the entries, kept from both sides. -/
structure LinksOk (pool : CTxMemPool) : Prop where
  dom : ∀ h, h ∈ pool.mapLinks ↔ h ∈ pool.mapTx
  symm : ∀ p c, c ∈ (pool.links p).children ↔ pool.Parent p c
  mem : ∀ p c, pool.Parent p c → p ∈ pool.mapTx

theorem links_of_not_mem (hh : h ∉ pool.mapLinks) : pool.links h = {} := by
  rw [links, AList.lookup_eq_none.mpr hh, Option.getD_none]

theorem LinksOk.parentsOk (h : LinksOk pool) : ParentsOk pool :=
  fun k hk => ⟨(h.dom k).mpr hk, fun p hp => h.mem p k hp⟩

variable {p c : Uint256}

theorem LinksOk.mem_child (h : LinksOk pool) (hp : pool.Parent p c) : c ∈ pool.mapTx := by
  by_contra hc
  rw [Parent, links_of_not_mem fun hm => hc ((h.dom c).mp hm)] at hp
  exact not_mem_empty _ hp

theorem LinksOk.not_reaches_of_not_mem (hok : LinksOk pool) {hash k : Uint256}
    (hmem : hash ∉ pool.mapTx) (hk : k ≠ hash) :
    ¬ ReflTransGen pool.Parent hash k ∧ ¬ ReflTransGen pool.Parent k hash := by
  constructor
  · intro hr
    rcases ReflTransGen.cases_head hr with heq | ⟨c, hc, -⟩
    · exact hk heq.symm
    · exact hmem (hok.mem hash c hc)
  · intro hr
    rcases ReflTransGen.cases_tail hr with heq | ⟨c, -, hc⟩
    · exact hk heq.symm
    · exact hmem (hok.mem_child hc)

theorem getMemPoolParents_eq (hh : h ∈ pool.mapLinks) :
    pool.getMemPoolParents h = some (pool.links h).parents := by
  obtain ⟨l, hl⟩ := Option.isSome_iff_exists.mp (AList.lookup_isSome.mpr hh)
  rw [getMemPoolParents, links, hl]
  rfl

theorem getMemPoolChildren_eq (hh : h ∈ pool.mapLinks) :
    pool.getMemPoolChildren h = some (pool.links h).children := by
  obtain ⟨l, hl⟩ := Option.isSome_iff_exists.mp (AList.lookup_isSome.mpr hh)
  rw [getMemPoolChildren, links, hl]
  rfl

theorem succ_getMemPoolParents : Succ pool.getMemPoolParents c p ↔ pool.Parent p c := by
  by_cases hc : c ∈ pool.mapLinks
  · simp [Succ, getMemPoolParents_eq hc, Parent]
  · simp [Succ, getMemPoolParents, AList.lookup_eq_none.mpr hc, Parent,
      links_of_not_mem hc]

theorem succ_getMemPoolChildren :
    Succ pool.getMemPoolChildren p c ↔ c ∈ (pool.links p).children := by
  by_cases hp : p ∈ pool.mapLinks
  · simp [Succ, getMemPoolChildren_eq hp]
  · simp [Succ, getMemPoolChildren, AList.lookup_eq_none.mpr hp, links_of_not_mem hp]

theorem calculateMemPoolAncestors_spec (hok : ParentsOk pool) {entry : CTxMemPoolEntry}
    (hmem : entry.tx.hash ∈ pool.mapTx) :
    ∃ A, pool.calculateMemPoolAncestors entry false = some A ∧
      ∀ x, x ∈ A ↔ TransGen pool.Parent x entry.tx.hash := by
  obtain ⟨hlink, hparents⟩ := hok _ hmem
  have hnext : ∀ x ∈ pool.txids, ∃ s, pool.getMemPoolParents x = some s ∧ ∀ c ∈ s, c ∈ pool.txids :=
    fun x hx => ⟨_, getMemPoolParents_eq (hok x (mem_txids.mp hx)).1,
      fun c hc => mem_txids.mpr ((hok x (mem_txids.mp hx)).2 c hc)⟩
  obtain ⟨A, hA, hiff⟩ := collect_spec hnext (pool.links entry.tx.hash).parents ∅
    (fun x hx => ⟨mem_txids.mpr (hparents x hx), not_mem_empty x⟩)
    (fun x hx => absurd hx (not_mem_empty x)) (le_of_eq card_txids)
  refine ⟨A, ?_, fun x => (hiff x).trans ?_⟩
  · simp only [calculateMemPoolAncestors, getMemPoolParents_eq hlink]
    exact hA
  · have hswap : Succ pool.getMemPoolParents = Function.swap pool.Parent :=
      funext fun _ => funext fun _ => propext succ_getMemPoolParents
    rw [hswap, TransGen.tail'_iff]
    constructor
    · rintro (h | ⟨p, hp, h⟩)
      · exact absurd h (not_mem_empty x)
      · exact ⟨p, reflTransGen_swap.mp h, hp⟩
    · rintro ⟨p, h, hp⟩
      exact .inr ⟨p, hp, reflTransGen_swap.mpr h⟩

theorem calculateDescendants_spec (hok : LinksOk pool) {it : Uint256} (hit : it ∈ pool.mapTx)
    {D : SetEntries} (hD : ∀ x ∈ D, ∀ c, pool.Parent x c → c ∈ D) :
    ∃ D', pool.calculateDescendants it D = some D' ∧
      ∀ x, x ∈ D' ↔ x ∈ D ∨ ReflTransGen pool.Parent it x := by
  have hnext : ∀ x ∈ pool.txids, ∃ s, pool.getMemPoolChildren x = some s ∧
      ∀ c ∈ s, c ∈ pool.txids :=
    fun x hx => ⟨_, getMemPoolChildren_eq ((hok.dom x).mpr (mem_txids.mp hx)),
      fun c hc => mem_txids.mpr (hok.mem_child ((hok.symm x c).mp hc))⟩
  have hsucc : Succ pool.getMemPoolChildren = pool.Parent :=
    funext fun x => funext fun c => propext (succ_getMemPoolChildren.trans (hok.symm x c))
  have hclosed : ∀ x ∈ D, ∀ c, Succ pool.getMemPoolChildren x c → c ∈ D := by
    rw [hsucc]
    exact hD
  by_cases hin : it ∈ D
  · obtain ⟨D', hD', hiff⟩ := collect_spec hnext ∅ D
      (fun x hx => absurd hx (not_mem_empty x))
      (fun x hx c hc => .inl (hclosed x hx c hc)) (le_of_eq card_txids)
    refine ⟨D', ?_, fun x => (hiff x).trans ⟨?_, ?_⟩⟩
    · simp only [calculateDescendants, if_pos hin]
      exact hD'
    · rintro (h | ⟨a, ha, -⟩)
      · exact .inl h
      · exact absurd ha (not_mem_empty a)
    · rintro (h | h)
      · exact .inl h
      · left
        induction h with
        | refl => exact hin
        | tail _ hc ih => exact hD _ ih _ hc
  · obtain ⟨D', hD', hiff⟩ := collect_spec hnext (ofList [it]) D
      (fun x hx => by
        rw [mem_ofList, List.mem_singleton] at hx
        exact hx ▸ ⟨mem_txids.mpr hit, hin⟩)
      (fun x hx c hc => .inl (hclosed x hx c hc)) (le_of_eq card_txids)
    refine ⟨D', ?_, fun x => (hiff x).trans ?_⟩
    · simp only [calculateDescendants, if_neg hin]
      exact hD'
    · rw [hsucc]
      simp [mem_ofList]

theorem calculateAllDescendants_spec (hok : LinksOk pool) (hs : ∀ x ∈ s, x ∈ pool.mapTx) :
    ∃ D, pool.calculateAllDescendants s = some D ∧
      ∀ x, x ∈ D ↔ ∃ r ∈ s, ReflTransGen pool.Parent r x := by
  suffices h : ∀ (l : List Uint256) (D : SetEntries), (∀ x ∈ l, x ∈ pool.mapTx) →
      (∀ x ∈ D, ∀ c, pool.Parent x c → c ∈ D) →
      ∃ D', l.foldlM (fun D it => pool.calculateDescendants it D) D = some D' ∧
        ∀ x, x ∈ D' ↔ x ∈ D ∨ ∃ r ∈ l, ReflTransGen pool.Parent r x by
    obtain ⟨D, hD, hiff⟩ := h s.elems ∅ hs fun x hx => absurd hx (not_mem_empty x)
    exact ⟨D, hD, fun x => (hiff x).trans (by simp)⟩
  intro l
  induction l with
  | nil => exact fun D _ _ => ⟨D, rfl, by simp⟩
  | cons r l ih =>
    intro D hl hD
    obtain ⟨D1, hD1, hiff1⟩ := calculateDescendants_spec hok (hl r List.mem_cons_self) hD
    have hclosed : ∀ x ∈ D1, ∀ c, pool.Parent x c → c ∈ D1 := by
      intro x hx c hc
      rcases (hiff1 x).mp hx with h | h
      · exact (hiff1 c).mpr (.inl (hD x h c hc))
      · exact (hiff1 c).mpr (.inr (h.tail hc))
    obtain ⟨D', hD', hiff⟩ := ih D1 (fun x hx => hl x (List.mem_cons_of_mem _ hx)) hclosed
    refine ⟨D', ?_, fun x => (hiff x).trans ?_⟩
    · rw [List.foldlM_cons, hD1]
      exact hD'
    · rw [hiff1]
      simp [or_assoc]

end CTxMemPool

end Rcoin
