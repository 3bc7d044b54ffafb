/-
  What one iteration of the package selection can do.  A package is put into the block in an
  order in which parents come first, and each descendant outside it gets a modified entry, or
  has it changed, once for every member of the package that is an ancestor of its.

  Source: src/miner.{h,cpp}.
-/
import Rcoin.Mempool.Run
import Rcoin.Miner.Assembler

namespace Rcoin

open Relation CTxMemPool Closure SortedSet

/-! ## Totals -/

/-- Size, modified fee and sigop cost of a package. -/
abbrev PackageTotals := Int × Int × Int

/-- What a transaction of the pool adds to the totals of a package. -/
def MempoolEnv.packageWeightAt (env : MempoolEnv) (pool : CTxMemPool) (a : Uint256) :
    PackageTotals := (env.ancestorWeightAt pool a).2

namespace CTxMemPool

variable (pool : CTxMemPool)

/-- The totals the pool keeps for an entry with its ancestors. -/
def packageTotalsAt (a : Uint256) : PackageTotals :=
  (pool.mapTx.lookup a).elim 0 fun e => e.ancestorTotals.2

def feeDeltaAt (a : Uint256) : Int := (pool.mapTx.lookup a).elim 0 (·.feeDelta)

open Classical in
/-- The members of `A` that reach `d`, from the least one on. -/
noncomputable def ancestorsIn (A : SetEntries) (d : Uint256) : List Uint256 :=
  A.elems.filter fun a => ReflTransGen pool.Parent a d

variable {pool}

theorem LinksOk.mem_of_reaches (hok : LinksOk pool) {a x : Uint256} (ha : a ∈ pool.mapTx)
    (h : ReflTransGen pool.Parent a x) : x ∈ pool.mapTx := by
  rcases ReflTransGen.cases_tail h with rfl | ⟨b, -, hb⟩
  · exact ha
  · exact hok.mem_child hb

theorem mem_ancestorsIn {A : SetEntries} {a d : Uint256} :
    a ∈ pool.ancestorsIn A d ↔ a ∈ A ∧ ReflTransGen pool.Parent a d := by
  simp [ancestorsIn]

end CTxMemPool

/-- The totals of an entry with those of its ancestors that are not in the block. -/
noncomputable def MempoolEnv.remaining (env : MempoolEnv) (pool : CTxMemPool) (inBlock : SetEntries)
    (x : Uint256) : PackageTotals :=
  ∑ a ∈ (reaching pool.Parent pool.txids x).filter (· ∉ inBlock), env.packageWeightAt pool a

namespace CTxMemPoolModifiedEntry

def totals (m : CTxMemPoolModifiedEntry) : PackageTotals :=
  (m.nSizeWithAncestors, m.nModFeesWithAncestors, m.nSigOpCostWithAncestors)

/-- What is left of a descendant's modified entry, if it has one, once `it` is in the block. -/
def touch (env : MempoolEnv) (it desc : CTxMemPoolEntry) :
    Option CTxMemPoolModifiedEntry → CTxMemPoolModifiedEntry
  | none => create env it desc
  | some m => updateForParentInclusion env it m

variable (env : MempoolEnv) (it desc : CTxMemPoolEntry)

@[simp] theorem totals_create :
    (create env it desc).totals = desc.ancestorTotals.2 - (env.ancestorWeight it).2 := rfl

/-- The fee that is taken off is not the modified one, which was counted. -/
@[simp] theorem totals_updateForParentInclusion (m : CTxMemPoolModifiedEntry) :
    (updateForParentInclusion env it m).totals =
      m.totals - (env.ancestorWeight it).2 + (0, it.feeDelta, 0) := by
  simp [totals, updateForParentInclusion, MempoolEnv.ancestorWeight, CTxMemPoolEntry.getModifiedFee]
  omega

end CTxMemPoolModifiedEntry

open CTxMemPoolModifiedEntry

/-! ## The walk over the descendants of a package -/

section

variable {env : AssemblerEnv} {pool : CTxMemPool} {map : ModifiedSet} {A : SetEntries}
  {d : Uint256} {e : CTxMemPoolEntry}

/-- What becomes of the modified entry at `d`, if it has one, when the ancestor `a` enters the
    block. -/
def touchAt (env : MempoolEnv) (pool : CTxMemPool) (d : Uint256)
    (m : Option CTxMemPoolModifiedEntry) (a : Uint256) : Option CTxMemPoolModifiedEntry :=
  match pool.mapTx.lookup a, pool.mapTx.lookup d with
  | some it, some desc => some (touch env it desc m)
  | _, _ => m

/-- The same for several ancestors, one after the other. -/
def touchAll (env : MempoolEnv) (pool : CTxMemPool) (d : Uint256) (l : List Uint256)
    (m : Option CTxMemPoolModifiedEntry) : Option CTxMemPoolModifiedEntry :=
  l.foldl (touchAt env pool d) m

theorem touchAt_eq {env : MempoolEnv} {a : Uint256} {it desc : CTxMemPoolEntry}
    (ha : pool.mapTx.lookup a = some it) (hd : pool.mapTx.lookup d = some desc)
    (m : Option CTxMemPoolModifiedEntry) :
    touchAt env pool d m a = some (touch env it desc m) := by
  simp only [touchAt, ha, hd]

@[simp] theorem touchAll_nil (env : MempoolEnv) (m : Option CTxMemPoolModifiedEntry) :
    touchAll env pool d [] m = m := rfl

@[simp] theorem touchAll_cons (env : MempoolEnv) (a : Uint256) (l : List Uint256)
    (m : Option CTxMemPoolModifiedEntry) :
    touchAll env pool d (a :: l) m = touchAll env pool d l (touchAt env pool d m a) := rfl

theorem updateDescendant_spec (env : AssemblerEnv) (map : ModifiedSet) {a : Uint256} {it : CTxMemPoolEntry}
    (ha : pool.mapTx.lookup a = some it) (hd : d ∈ pool.mapTx) :
    ∃ map', env.updateDescendant pool it map d = some map' ∧ ∀ x, map'.lookup x =
      if x = d then touchAt env.toMempoolEnv pool x (map.lookup x) a else map.lookup x := by
  obtain ⟨desc, hdesc⟩ := mem_mapTx_iff.mp hd
  have hnew : ∀ m : CTxMemPoolModifiedEntry,
      touchAt env.toMempoolEnv pool d (map.lookup d) a = some m → ∀ x,
        (map.insert d m).lookup x =
          if x = d then touchAt env.toMempoolEnv pool x (map.lookup x) a else map.lookup x := by
    intro m hm x
    rw [Maps.lookup_insert]
    by_cases hx : x = d
    · rw [if_pos hx, if_pos hx, hx, hm]
    · rw [if_neg hx, if_neg hx]
  rw [AssemblerEnv.updateDescendant]
  cases hm : map.lookup d with
  | none =>
    refine ⟨_, by rw [hdesc]; rfl, hnew _ ?_⟩
    rw [hm]
    exact touchAt_eq ha hdesc _
  | some m =>
    refine ⟨_, rfl, hnew _ ?_⟩
    rw [hm]
    exact touchAt_eq ha hdesc _

theorem foldlM_updateDescendant (env : AssemblerEnv) (map : ModifiedSet) {a : Uint256}
    {it : CTxMemPoolEntry} {l : List Uint256} (ha : pool.mapTx.lookup a = some it) (hnd : l.Nodup)
    (hl : ∀ x ∈ l, x ∈ pool.mapTx) :
    ∃ map', l.foldlM (env.updateDescendant pool it) map = some map' ∧ ∀ x, map'.lookup x =
      if x ∈ l then touchAt env.toMempoolEnv pool x (map.lookup x) a else map.lookup x := by
  induction l generalizing map with
  | nil => exact ⟨map, rfl, fun x => by simp⟩
  | cons y l ih =>
    obtain ⟨hy, hnd⟩ := List.nodup_cons.mp hnd
    obtain ⟨map1, h1, hlookup1⟩ := updateDescendant_spec env map ha
      (hl y List.mem_cons_self)
    obtain ⟨map', h', hlookup⟩ := ih map1 hnd fun x hx => hl x (List.mem_cons_of_mem _ hx)
    refine ⟨map', ?_, fun x => ?_⟩
    · rw [List.foldlM_cons, h1]
      exact h'
    · rw [hlookup, hlookup1]
      by_cases hxy : x = y
      · simp [hxy, hy]
      · simp [hxy]

variable (hok : LinksOk pool)

include hok

open Classical in
theorem foldlM_addedPackage (env : AssemblerEnv) (A : SetEntries) (l : List Uint256) (n : Nat)
    (map : ModifiedSet) (hl : ∀ a ∈ l, a ∈ pool.mapTx) :
    ∃ n' map', l.foldlM (fun (nDescendantsUpdated, mapModifiedTx) it => do
        let entry ← pool.mapTx.lookup it
        let descendants ← pool.calculateDescendants it ∅
        let descendants := descendants.elems.filter (· ∉ A)
        let mapModifiedTx ← descendants.foldlM (env.updateDescendant pool entry) mapModifiedTx
        return (nDescendantsUpdated + descendants.length, mapModifiedTx)) (n, map) =
      some (n', map') ∧ ∀ x, map'.lookup x = if x ∈ A then map.lookup x
        else touchAll env.toMempoolEnv pool x
          (l.filter fun a => ReflTransGen pool.Parent a x) (map.lookup x) := by
  induction l generalizing n map with
  | nil => exact ⟨n, map, rfl, fun x => by simp⟩
  | cons a l ih =>
    have ha : a ∈ pool.mapTx := hl a List.mem_cons_self
    obtain ⟨it, hit⟩ := mem_mapTx_iff.mp ha
    obtain ⟨D, hD, hmem⟩ := calculateDescendants_spec hok ha (D := ∅)
      fun x hx => absurd hx (not_mem_empty x)
    have hDpool : ∀ x ∈ D.elems.filter (· ∉ A), x ∈ pool.mapTx := by
      intro x hx
      rcases (hmem x).mp (List.mem_of_mem_filter hx) with h | h
      · exact absurd h (not_mem_empty x)
      · exact hok.mem_of_reaches ha h
    obtain ⟨map1, h1, hlookup1⟩ := foldlM_updateDescendant env map hit
      (D.nodup.filter _) hDpool
    obtain ⟨n', map', h', hlookup⟩ := ih (n + (D.elems.filter (· ∉ A)).length) map1
      fun x hx => hl x (List.mem_cons_of_mem _ hx)
    refine ⟨n', map', ?_, fun x => ?_⟩
    · rw [List.foldlM_cons]
      simp only [hit, hD, Option.bind_eq_bind, Option.bind_some, h1]
      exact h'
    · rw [hlookup, hlookup1]
      by_cases hxA : x ∈ A
      · simp [hxA]
      · by_cases hreach : ReflTransGen pool.Parent a x
        · simp [hxA, hmem, hreach]
        · simp [hxA, hmem, hreach]

theorem updatePackagesForAdded_spec (env : AssemblerEnv) (map : ModifiedSet)
    (hA : ∀ a ∈ A, a ∈ pool.mapTx) :
    ∃ n map', env.updatePackagesForAdded pool A map = some (n, map') ∧ ∀ x, map'.lookup x =
      if x ∈ A then map.lookup x
      else touchAll env.toMempoolEnv pool x (pool.ancestorsIn A x) (map.lookup x) :=
  foldlM_addedPackage hok env A A.elems 0 map hA

omit hok

/-! ### The totals that are left -/

section

variable (env : MempoolEnv) {l : List Uint256}

theorem touchAll_some (m : CTxMemPoolModifiedEntry) (hd : d ∈ pool.mapTx) (hl : ∀ a ∈ l, a ∈ pool.mapTx) :
    ∃ m', touchAll env pool d l (some m) = some m' ∧
      m'.totals = m.totals - (l.map (env.packageWeightAt pool)).sum +
        (0, (l.map pool.feeDeltaAt).sum, 0) := by
  obtain ⟨ed, hed⟩ := mem_mapTx_iff.mp hd
  induction l generalizing m with
  | nil => exact ⟨m, rfl, by simp [← Prod.zero_eq_mk]⟩
  | cons a l ih =>
    obtain ⟨ea, hea⟩ := mem_mapTx_iff.mp (hl a List.mem_cons_self)
    obtain ⟨m', hm', htotals⟩ := ih (updateForParentInclusion env ea m)
      fun x hx => hl x (List.mem_cons_of_mem _ hx)
    refine ⟨m', ?_, ?_⟩
    · rw [touchAll_cons, touchAt_eq hea hed]
      exact hm'
    · have hsplit : ((0, pool.feeDeltaAt a + (l.map pool.feeDeltaAt).sum, 0) : PackageTotals) =
          (0, ea.feeDelta, 0) + (0, (l.map pool.feeDeltaAt).sum, 0) := by
        simp [feeDeltaAt, hea]
      have hweight : env.packageWeightAt pool a = (env.ancestorWeight ea).2 := by
        simp [MempoolEnv.packageWeightAt, MempoolEnv.ancestorWeightAt, hea]
      rw [htotals, totals_updateForParentInclusion, List.map_cons, List.sum_cons, List.map_cons,
        List.sum_cons, hsplit, hweight]
      abel

theorem touchAll_none (hd : d ∈ pool.mapTx) (hl : ∀ a ∈ l, a ∈ pool.mapTx) (hne : l ≠ []) :
    ∃ m', touchAll env pool d l none = some m' ∧
      m'.totals = pool.packageTotalsAt d - (l.map (env.packageWeightAt pool)).sum +
        (0, (l.tail.map pool.feeDeltaAt).sum, 0) := by
  obtain ⟨ed, hed⟩ := mem_mapTx_iff.mp hd
  obtain ⟨a, l, rfl⟩ := List.exists_cons_of_ne_nil hne
  obtain ⟨ea, hea⟩ := mem_mapTx_iff.mp (hl a List.mem_cons_self)
  obtain ⟨m', hm', htotals⟩ := touchAll_some env (create env ea ed) hd
    fun x hx => hl x (List.mem_cons_of_mem _ hx)
  refine ⟨m', ?_, ?_⟩
  · rw [touchAll_cons, touchAt_eq hea hed]
    exact hm'
  · have hweight : env.packageWeightAt pool a = (env.ancestorWeight ea).2 := by
      simp [MempoolEnv.packageWeightAt, MempoolEnv.ancestorWeightAt, hea]
    have hkept : pool.packageTotalsAt d = ed.ancestorTotals.2 := by
      simp [packageTotalsAt, hed]
    rw [htotals, totals_create, List.map_cons, List.sum_cons, List.tail_cons, hweight, hkept]
    abel

theorem touchAll_ne_none (hd : d ∈ pool.mapTx) (hl : ∀ a ∈ l, a ∈ pool.mapTx)
    {m : Option CTxMemPoolModifiedEntry} : touchAll env pool d l m ≠ none ↔ l ≠ [] ∨ m ≠ none := by
  cases m with
  | some m =>
    obtain ⟨m', hm', -⟩ := touchAll_some env m hd hl
    simp [hm']
  | none =>
    by_cases hne : l = []
    · simp [hne]
    · obtain ⟨m', hm', -⟩ := touchAll_none env hd hl hne
      simp [hm', hne]

end

/-! ## What is not in the block -/

section

variable (env : MempoolEnv) {B B' : SetEntries} {x : Uint256}

theorem remaining_added (hB : ∀ a, a ∈ B' ↔ a ∈ B ∨ a ∈ A) (hdisj : ∀ a ∈ A, a ∉ B)
    (hA : ∀ a ∈ A, a ∈ pool.mapTx) :
    env.remaining pool B' x =
      env.remaining pool B x - ((pool.ancestorsIn A x).map (env.packageWeightAt pool)).sum := by
  classical
  have hsum : ((pool.ancestorsIn A x).map (env.packageWeightAt pool)).sum =
      ∑ a ∈ (A.toFinset.filter fun a => ReflTransGen pool.Parent a x), env.packageWeightAt pool a :=
    rfl
  have hpart : (reaching pool.Parent pool.txids x).filter (· ∉ B) =
      (reaching pool.Parent pool.txids x).filter (· ∉ B') ∪
        A.toFinset.filter fun a => ReflTransGen pool.Parent a x := by
    ext a
    simp only [Finset.mem_filter, Finset.mem_union, mem_reaching, mem_toFinset, hB, mem_txids]
    by_cases ha : a ∈ A
    · simp [ha, hdisj a ha, hA a ha]
    · simp [ha]
  have hd : Disjoint ((reaching pool.Parent pool.txids x).filter (· ∉ B'))
      (A.toFinset.filter fun a => ReflTransGen pool.Parent a x) := by
    rw [Finset.disjoint_left]
    intro a ha ha'
    rw [Finset.mem_filter, hB] at ha
    exact ha.2 (.inr (Finset.mem_filter.mp ha').1)
  rw [MempoolEnv.remaining, MempoolEnv.remaining, hpart, Finset.sum_union hd, hsum]
  abel

theorem remaining_untouched (htal : Tallied env pool) (hx : x ∈ pool.mapTx)
    (hB : ∀ a ∈ B, ¬ ReflTransGen pool.Parent a x) :
    env.remaining pool B x = pool.packageTotalsAt x := by
  obtain ⟨e, he⟩ := mem_mapTx_iff.mp hx
  have hall : (reaching pool.Parent pool.txids x).filter (· ∉ B) =
      reaching pool.Parent pool.txids x :=
    Finset.filter_true_of_mem fun a ha hmem => hB a hmem (mem_reaching.mp ha).2
  rw [MempoolEnv.remaining, hall, packageTotalsAt, he, Option.elim_some, htal.ancestors x e he,
    total, Prod.snd_sum]
  rfl

end

end

end Rcoin
