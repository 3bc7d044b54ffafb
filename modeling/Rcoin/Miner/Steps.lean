/-
  The iterations of the package selection: which entry one evaluates, and what it does with the
  package.  The invariants of later modules are read off from this and unfold no step.

  Source: addPackageTxs in src/miner.cpp.
-/
import Rcoin.Miner.Packages

namespace Rcoin

open Relation CTxMemPool Closure SortedSet

/-! ## The order of a package -/

section

variable {env : MempoolEnv} {pool : CTxMemPool}

def CTxMemPool.countAt (pool : CTxMemPool) (it : Uint256) : Int :=
  (pool.mapTx.lookup it).elim 0 (·.nCountWithAncestors)

theorem ancestorCountLe_iff {a b : Uint256} :
    ancestorCountLe pool a b ↔
      pool.countAt a < pool.countAt b ∨ pool.countAt a = pool.countAt b ∧ a ≤ b := by
  show (if pool.countAt a ≠ pool.countAt b then pool.countAt a < pool.countAt b else a ≤ b) ↔ _
  split
  next h => simp [h]
  next h => simp [not_not.mp h]

instance : Std.Total (ancestorCountLe pool) where
  total a b := by
    rw [ancestorCountLe_iff, ancestorCountLe_iff]
    rcases lt_trichotomy (pool.countAt a) (pool.countAt b) with h | h | h
    · exact .inl (.inl h)
    · rcases le_total a b with hab | hba
      · exact .inl (.inr ⟨h, hab⟩)
      · exact .inr (.inr ⟨h.symm, hba⟩)
    · exact .inr (.inl h)

instance : IsTrans Uint256 (ancestorCountLe pool) where
  trans a b c hab hbc := by
    rw [ancestorCountLe_iff] at *
    rcases hab with hab | ⟨hab, hle⟩
    · rcases hbc with hbc | ⟨hbc, -⟩
      · exact .inl (hab.trans hbc)
      · exact .inl (hbc ▸ hab)
    · rcases hbc with hbc | ⟨hbc, hle'⟩
      · exact .inl (hab ▸ hbc)
      · exact .inr ⟨hab.trans hbc, hle.trans hle'⟩

@[simp] theorem mem_sortForBlock {package : SetEntries} {x : Uint256} :
    x ∈ sortForBlock pool package ↔ x ∈ package :=
  List.mem_insertionSort _

theorem nodup_sortForBlock (package : SetEntries) : (sortForBlock pool package).Nodup :=
  (List.perm_insertionSort _ _).nodup_iff.mpr package.nodup

theorem countAt_lt (htal : Tallied env pool) {a b : Uint256} (h : TransGen pool.Parent a b) :
    pool.countAt a < pool.countAt b := by
  have hcount : ∀ x ∈ pool.mapTx,
      pool.countAt x = ((reaching pool.Parent pool.txids x).card : Int) := by
    intro x hx
    obtain ⟨e, he⟩ := mem_mapTx_iff.mp hx
    have hone : ∀ a ∈ reaching pool.Parent pool.txids x, (env.ancestorWeightAt pool a).1 = 1 := by
      intro a ha
      obtain ⟨ea, hea⟩ := mem_mapTx_iff.mp (mem_txids.mp (mem_reaching.mp ha).1)
      simp [MempoolEnv.ancestorWeightAt, hea, MempoolEnv.ancestorWeight]
    have htotal := congrArg Prod.fst (htal.ancestors x e he)
    rw [total, Prod.fst_sum, Finset.sum_congr rfl hone] at htotal
    simpa [countAt, he, CTxMemPoolEntry.ancestorTotals] using htotal
  have hb : b ∈ pool.mapTx := by
    obtain ⟨c, -, hc⟩ := TransGen.tail'_iff.mp h
    exact htal.links.mem_child hc
  have ha : a ∈ pool.mapTx := by
    obtain ⟨c, hc, -⟩ := TransGen.head'_iff.mp h
    exact htal.links.mem a c hc
  rw [hcount a ha, hcount b hb, Int.ofNat_lt]
  refine Finset.card_lt_card ⟨fun x hx => ?_, fun hsub => ?_⟩
  · obtain ⟨hmem, hreach⟩ := mem_reaching.mp hx
    exact mem_reaching.mpr ⟨hmem, hreach.trans h.to_reflTransGen⟩
  · -- the transaction itself is not one of its ancestors' ancestors
    have hself : b ∈ reaching pool.Parent pool.txids b := mem_reaching.mpr ⟨mem_txids.mpr hb, .refl⟩
    exact htal.acyclic a (h.trans_left (mem_reaching.mp (hsub hself)).2)

theorem sortForBlock_pairwise (htal : Tallied env pool) (package : SetEntries) :
    (sortForBlock pool package).Pairwise fun a b => ¬ TransGen pool.Parent b a := by
  refine (List.pairwise_insertionSort (ancestorCountLe pool) package.elems).imp ?_
  intro a b hab hba
  have hlt := countAt_lt htal hba
  rcases ancestorCountLe_iff.mp hab with h | ⟨h, -⟩
  · omega
  · omega

/-! ## The transactions of a block -/

/-- The entries at some iterators. -/
def CTxMemPool.entriesAt (pool : CTxMemPool) (order : List Uint256) : List CTxMemPoolEntry :=
  order.filterMap pool.mapTx.lookup

/-- A block to which the entries of a list were added, in this order. -/
structure Extended (pool : CTxMemPool) (block block' : BlockAssembler) (order : List Uint256) :
    Prop where
  vtx : block'.vtx = block.vtx ++ (pool.entriesAt order).map (·.tx)
  vTxFees : block'.vTxFees = block.vTxFees ++ (pool.entriesAt order).map (·.nFee)
  vTxSigOpsCost : block'.vTxSigOpsCost = block.vTxSigOpsCost ++ (pool.entriesAt order).map (·.sigOpCost)
  nBlockWeight : block'.nBlockWeight = block.nBlockWeight + ((pool.entriesAt order).map (·.nTxWeight)).sum
  nBlockTx : block'.nBlockTx = block.nBlockTx + (pool.entriesAt order).length
  nBlockSigOpsCost : block'.nBlockSigOpsCost =
    block.nBlockSigOpsCost + ((pool.entriesAt order).map (·.sigOpCost)).sum
  nFees : block'.nFees = block.nFees + ((pool.entriesAt order).map (·.nFee)).sum
  inBlock : ∀ x, x ∈ block'.inBlock ↔ x ∈ block.inBlock ∨ x ∈ order

variable {block block' block'' : BlockAssembler} {order order' : List Uint256}

theorem entriesAt_append (pool : CTxMemPool) (order order' : List Uint256) :
    pool.entriesAt (order ++ order') = pool.entriesAt order ++ pool.entriesAt order' :=
  List.filterMap_append

theorem Extended.refl (block : BlockAssembler) : Extended pool block block [] := by
  constructor <;> simp [entriesAt]

theorem Extended.trans (h : Extended pool block block' order)
    (h' : Extended pool block' block'' order') : Extended pool block block'' (order ++ order') := by
  constructor
  · rw [h'.vtx, h.vtx, entriesAt_append, List.map_append, List.append_assoc]
  · rw [h'.vTxFees, h.vTxFees, entriesAt_append, List.map_append, List.append_assoc]
  · rw [h'.vTxSigOpsCost, h.vTxSigOpsCost, entriesAt_append, List.map_append, List.append_assoc]
  · rw [h'.nBlockWeight, h.nBlockWeight, entriesAt_append, List.map_append, List.sum_append, add_assoc]
  · rw [h'.nBlockTx, h.nBlockTx, entriesAt_append, List.length_append, add_assoc]
  · rw [h'.nBlockSigOpsCost, h.nBlockSigOpsCost, entriesAt_append, List.map_append, List.sum_append,
      add_assoc]
  · rw [h'.nFees, h.nFees, entriesAt_append, List.map_append, List.sum_append, add_assoc]
  · intro x
    rw [h'.inBlock, h.inBlock, List.mem_append, or_assoc]

theorem addToBlock_spec (block : BlockAssembler) {x : Uint256} (hx : x ∈ pool.mapTx) :
    ∃ block', block.addToBlock pool x = some block' ∧ Extended pool block block' [x] := by
  obtain ⟨e, he⟩ := mem_mapTx_iff.mp hx
  refine ⟨_, by rw [BlockAssembler.addToBlock, he]; rfl, ?_⟩
  constructor <;> simp [entriesAt, he, or_comm]

theorem foldlM_addToBlock (block : BlockAssembler) (h : ∀ x ∈ order, x ∈ pool.mapTx) :
    ∃ block', order.foldlM (BlockAssembler.addToBlock pool) block = some block' ∧
      Extended pool block block' order := by
  induction order generalizing block with
  | nil => exact ⟨block, rfl, .refl block⟩
  | cons x order ih =>
    obtain ⟨b, hb, hone⟩ := addToBlock_spec block (h x List.mem_cons_self)
    obtain ⟨block', h', hrest⟩ := ih b fun y hy => h y (List.mem_cons_of_mem _ hy)
    refine ⟨block', ?_, hone.trans hrest⟩
    rw [List.foldlM_cons, hb]
    exact h'

theorem sum_entriesAt {M : Type} [AddCommMonoid M] (f : CTxMemPoolEntry → M)
    (order : List Uint256) :
    ((pool.entriesAt order).map f).sum =
      (order.map fun x => (pool.mapTx.lookup x).elim 0 f).sum := by
  induction order with
  | nil => rfl
  | cons x order ih =>
    rw [← List.singleton_append, entriesAt_append, List.map_append, List.sum_append, ih]
    cases he : pool.mapTx.lookup x <;> simp [entriesAt, he]

end

/-! ## The entry that is evaluated -/

section

variable {env : AssemblerEnv} {pool : CTxMemPool} {s : PackageState}

open PackageState

/-- What an iteration has to do, by what there is. -/
inductive PackageTurnOf (env : AssemblerEnv) (pool : CTxMemPool) (s : PackageState) : PackageTurn → Prop
  | exhausted (hmi : s.mi = []) (hm : s.mapModifiedTx.entries = []) : PackageTurnOf env pool s .exhausted
  | skip {it : Uint256} {rest : List Uint256} (hmi : s.mi = it :: rest)
      (hskip : s.skipMapTxEntry it = true) : PackageTurnOf env pool s (.skip rest)
  | mapTx {it : Uint256} {rest : List Uint256} {e : CTxMemPoolEntry} (hmi : s.mi = it :: rest)
      (he : pool.mapTx.lookup it = some e) (hskip : s.skipMapTxEntry it = false) :
      PackageTurnOf env pool s (.evaluate (fromMapTx it e) rest)
  | modified {it : Uint256} {m : CTxMemPoolModifiedEntry} (hm : s.mapModifiedTx.lookup it = some m) :
      PackageTurnOf env pool s (.evaluate (fromModified ⟨it, m⟩) s.mi)

theorem modifiedBegin_eq_none {map : ModifiedSet} (h : env.modifiedBegin pool map = none) :
    map.entries = [] := by
  unfold AssemblerEnv.modifiedBegin at h
  cases hentries : map.entries with
  | nil => rfl
  | cons m rest =>
    rw [hentries] at h
    cases h

theorem lookup_modifiedBegin {map : ModifiedSet} {modit : Sigma fun _ : Uint256 => CTxMemPoolModifiedEntry}
    (h : env.modifiedBegin pool map = some modit) : map.lookup modit.1 = some modit.2 := by
  rw [Maps.lookup_eq_some_iff_mem]
  unfold AssemblerEnv.modifiedBegin at h
  cases hentries : map.entries with
  | nil =>
    rw [hentries] at h
    cases h
  | cons m rest =>
    rw [hentries] at h
    -- the best one so far is the first one or one of those seen
    suffices hfold : ∀ (l : List (Sigma fun _ : Uint256 => CTxMemPoolModifiedEntry)) best,
        l.foldl (env.better pool) best = best ∨ l.foldl (env.better pool) best ∈ l by
      obtain rfl := Option.some.inj h
      rcases hfold rest m with heq | hmem
      · simp [heq]
      · exact List.mem_cons_of_mem _ hmem
    intro l
    induction l with
    | nil => exact fun best => .inl rfl
    | cons y l ih =>
      intro best
      rw [List.foldl_cons]
      rcases ih (env.better pool best y) with heq | hmem
      · rw [heq, AssemblerEnv.better]
        split
        · exact .inr List.mem_cons_self
        · exact .inl rfl
      · exact .inr (List.mem_cons_of_mem _ hmem)

theorem turn_spec (env : AssemblerEnv) (hmi : ∀ x ∈ s.mi, x ∈ pool.mapTx) :
    ∃ t, s.turn env pool = some t ∧ PackageTurnOf env pool s t := by
  rw [turn]
  cases hs : s.mi with
  | nil =>
    cases hm : env.modifiedBegin pool s.mapModifiedTx with
    | none => exact ⟨_, rfl, .exhausted hs (modifiedBegin_eq_none hm)⟩
    | some modit => exact ⟨_, rfl, hs ▸ .modified (lookup_modifiedBegin hm)⟩
  | cons it rest =>
    obtain ⟨e, he⟩ := mem_mapTx_iff.mp (hmi it (hs ▸ List.mem_cons_self))
    refine ⟨_, by dsimp only; rw [he]; rfl, ?_⟩
    split
    next hskip => exact .skip hs hskip
    next hskip =>
      have hnot : s.skipMapTxEntry it = false := by simpa using hskip
      split
      · exact .mapTx hs he hnot
      next modit hm =>
        dsimp only
        split
        · exact hs ▸ .modified (lookup_modifiedBegin hm)
        · exact .mapTx hs he hnot

/-! ## What an iteration does -/

/-- What the iterations rely on.  The block has, with a transaction, all its ancestors; and what
    has an ancestor in the block is there too, or has a modified entry, or has failed. -/
structure SelectionOk (pool : CTxMemPool) (s : PackageState) : Prop where
  mi : ∀ x ∈ s.mi, x ∈ pool.mapTx
  modified : ∀ x ∈ s.mapModifiedTx, x ∈ pool.mapTx ∧ x ∉ s.block.inBlock
  inBlock : ∀ x ∈ s.block.inBlock, x ∈ pool.mapTx
  closed : ∀ a x, ReflTransGen pool.Parent a x → x ∈ s.block.inBlock → a ∈ s.block.inBlock
  stale : ∀ a ∈ s.block.inBlock, ∀ x, ReflTransGen pool.Parent a x →
    x ∈ s.block.inBlock ∨ x ∈ s.mapModifiedTx ∨ x ∈ s.failedTx

/-- The package `A` of the chosen entry, and the state in which it has been added. -/
structure PackageAdded (env : AssemblerEnv) (pool : CTxMemPool) (s : PackageState) (c : PackageChoice)
    (mi : List Uint256) (A : SetEntries) (s' : PackageState) : Prop where
  package : ∀ x, x ∈ A ↔ ReflTransGen pool.Parent x c.iter ∧ x ∉ s.block.inBlock
  verdict : s.verdict env pool c = some (.add A)
  fits : s.block.testPackage env c.packageSize c.packageSigOpsCost = true
  ok : testPackageTransactions env pool A = true
  block : Extended pool s.block s'.block (sortForBlock pool A)
  mapModifiedTx : ∀ x, s'.mapModifiedTx.lookup x = if x ∈ A then none
    else touchAll env.toMempoolEnv pool x (pool.ancestorsIn A x) (s.mapModifiedTx.lookup x)
  mi : s'.mi = mi
  failedTx : s'.failedTx = s.failedTx

/-- What one iteration can come to. -/
inductive Moves (env : AssemblerEnv) (pool : CTxMemPool) (s : PackageState) : Iteration → Prop
  | stop {s' : PackageState} (hblock : s'.block = s.block) : Moves env pool s (.stop s')
  | skip {it : Uint256} {rest : List Uint256} (hmi : s.mi = it :: rest)
      (hskip : s.skipMapTxEntry it = true) : Moves env pool s (.next { s with mi := rest })
  | fail {c : PackageChoice} {mi : List Uint256} (n : Nat)
      (hturn : s.turn env pool = some (.evaluate c mi)) :
      Moves env pool s (.next { { s with mi := mi }.fail c with nConsecutiveFailed := n })
  | add {c : PackageChoice} {mi : List Uint256} {A : SetEntries} {s' : PackageState}
      (hturn : s.turn env pool = some (.evaluate c mi)) (h : PackageAdded env pool s c mi A s') :
      Moves env pool s (.next s')

/-- A failure takes at most a modified entry away. -/
@[simp] theorem block_fail (s : PackageState) (c : PackageChoice) : (s.fail c).block = s.block := by
  rw [fail]
  split <;> rfl

theorem lookup_fail {c : PackageChoice} {mi : List Uint256} {n : Nat} {x : Uint256}
    {m : CTxMemPoolModifiedEntry}
    (h : { { s with mi := mi }.fail c with nConsecutiveFailed := n }.mapModifiedTx.lookup x = some m) :
    s.mapModifiedTx.lookup x = some m := by
  simp only [fail] at h
  split at h
  · rw [Maps.lookup_erase] at h
    split at h
    · cases h
    · exact h
  · exact h

theorem SelectionOk.evaluated (h : SelectionOk pool s) {c : PackageChoice} {mi : List Uint256}
    (hturn : s.turn env pool = some (.evaluate c mi)) :
    c.iter ∈ pool.mapTx ∧ c.iter ∉ s.block.inBlock := by
  obtain ⟨t, ht, hof⟩ := turn_spec env h.mi
  obtain rfl := Option.some.inj (ht.symm.trans hturn)
  cases hof with
  | mapTx hmi he hskip =>
    refine ⟨mem_mapTx_iff.mpr ⟨_, he⟩, fun hmem => ?_⟩
    simp only [skipMapTxEntry, Bool.or_eq_false_iff, decide_eq_false_iff_not] at hskip
    exact hskip.1.2 hmem
  | modified hm => exact h.modified _ (AList.lookup_isSome.mp (by simp [fromModified, hm]))

variable (hhash : HashesOk pool) (htal : Tallied env.toMempoolEnv pool)

include htal

theorem addPackage_spec {c : PackageChoice} (mi : List Uint256) {A : SetEntries}
    (hA : ∀ x, x ∈ A ↔ ReflTransGen pool.Parent x c.iter ∧ x ∉ s.block.inBlock)
    (hiter : c.iter ∈ pool.mapTx) (hv : s.verdict env pool c = some (.add A))
    (hfits : s.block.testPackage env c.packageSize c.packageSigOpsCost = true)
    (hok : testPackageTransactions env pool A = true) :
    ∃ s', { s with mi := mi }.addPackage env pool A = some s' ∧ PackageAdded env pool s c mi A s' := by
  have hmem : ∀ x ∈ A, x ∈ pool.mapTx := by
    intro x hx
    rcases ReflTransGen.cases_head ((hA x).mp hx).1 with heq | ⟨b, hb, -⟩
    · exact heq ▸ hiter
    · exact htal.links.mem x b hb
  obtain ⟨block, hblock, hext⟩ := foldlM_addToBlock s.block
    fun x (hx : x ∈ sortForBlock pool A) => hmem x (mem_sortForBlock.mp hx)
  obtain ⟨n, map', hmap, hlookup⟩ := updatePackagesForAdded_spec htal.links env
    ((sortForBlock pool A).foldl (fun m it => m.erase it) s.mapModifiedTx) hmem
  refine ⟨{ s with
    mi := mi
    block := block
    mapModifiedTx := map'
    nConsecutiveFailed := 0
    nPackagesSelected := s.nPackagesSelected + 1
    nDescendantsUpdated := s.nDescendantsUpdated + n }, ?_, hA, hv, hfits, hok, hext,
      fun x => ?_, rfl, rfl⟩
  · simp only [addPackage, Option.bind_eq_bind, hblock, hmap, Option.bind_some]
    rfl
  · refine (hlookup x).trans ?_
    rw [Maps.lookup_foldl_erase]
    by_cases hx : x ∈ A
    · simp [hx]
    · simp [hx]

include hhash

theorem verdict_spec {c : PackageChoice} (hiter : c.iter ∈ pool.mapTx)
    (hnot : c.iter ∉ s.block.inBlock) :
    ∃ A, (∀ x, x ∈ A ↔ ReflTransGen pool.Parent x c.iter ∧ x ∉ s.block.inBlock) ∧
      s.verdict env pool c = some (
        if c.packageFees < env.blockMinFeeRate.getFee c.packageSize then .lowFee
        else if s.block.testPackage env c.packageSize c.packageSigOpsCost = false then .full
        else if testPackageTransactions env pool A = false then .notFinal
        else .add A) := by
  obtain ⟨e, he⟩ := mem_mapTx_iff.mp hiter
  have hhash_e := hhash _ _ he
  have hmem_e : e.tx.hash ∈ pool.mapTx := hhash_e.symm ▸ hiter
  obtain ⟨A, hA, hAmem⟩ := calculateMemPoolAncestors_spec htal.links.parentsOk hmem_e
  refine ⟨(s.block.onlyUnconfirmed A).insert c.iter, fun x => ?_, ?_⟩
  · rw [mem_insert, BlockAssembler.onlyUnconfirmed, mem_filter, hAmem, hhash_e,
      reflTransGen_iff_eq_or_transGen, decide_eq_true_iff]
    by_cases hx : x = c.iter
    · simp [hx, hnot]
    · simp [hx, Ne.symm hx]
  · simp only [verdict, he, hA, Option.bind_eq_bind, Option.bind_some, Bool.not_eq_true']
    split
    · rfl
    · split
      · rfl
      · split <;> rfl

omit hhash htal in
theorem judge_eq {c : PackageChoice} (hnot : c.iter ∉ s.block.inBlock) :
    ∀ v, s.verdict env pool c = some v → s.judge env pool c = match v with
      | .lowFee => some (.stop s)
      | .full =>
        let s := { s.fail c with nConsecutiveFailed := (s.fail c).nConsecutiveFailed + 1 }
        some (if s.givesUp env then .stop s else .next s)
      | .notFinal => some (.next (s.fail c))
      | .add ancestors => (s.addPackage env pool ancestors).map .next := by
  intro v hv
  simp only [judge, hnot, not_false_eq_true, guard_true, Option.bind_eq_bind, hv]
  cases v <;> rfl

theorem step_add (h : SelectionOk pool s) {c : PackageChoice} {mi : List Uint256} {A : SetEntries}
    (hturn : s.turn env pool = some (.evaluate c mi)) (hv : s.verdict env pool c = some (.add A)) :
    ∃ s', s.step env pool = some (.next s') ∧ PackageAdded env pool s c mi A s' := by
  obtain ⟨hiter, hnot⟩ := h.evaluated hturn
  obtain ⟨B, hB, hv'⟩ := verdict_spec (s := s) hhash htal hiter hnot
  have hcases := Option.some.inj (hv.symm.trans hv')
  split at hcases
  · cases hcases
  split at hcases
  · cases hcases
  next hfits =>
    split at hcases
    · cases hcases
    next hok =>
      obtain rfl := PackageVerdict.add.inj hcases
      obtain ⟨s', hs', hadded⟩ := addPackage_spec htal mi hB hiter hv
        (Bool.not_eq_false _ ▸ hfits) (Bool.not_eq_false _ ▸ hok)
      refine ⟨s', ?_, hadded⟩
      have hnot1 : c.iter ∉ { s with mi := mi }.block.inBlock := hnot
      have hv1 : { s with mi := mi }.verdict env pool c = some (.add A) := hv
      rw [step, hturn]
      dsimp only
      rw [judge_eq hnot1 _ hv1]
      exact (congrArg (Option.map Iteration.next) hs').trans rfl

theorem step_spec (h : SelectionOk pool s) : ∃ r, s.step env pool = some r ∧ Moves env pool s r := by
  obtain ⟨t, ht, hof⟩ := turn_spec env h.mi
  cases t with
  | exhausted => exact ⟨.stop s, by rw [step, ht], .stop rfl⟩
  | skip mi =>
    cases hof with
    | skip hmi hskip => exact ⟨.next { s with mi := mi }, by rw [step, ht], .skip hmi hskip⟩
  | evaluate c mi =>
    obtain ⟨hiter, hnot⟩ := h.evaluated ht
    obtain ⟨A, -, hv⟩ := verdict_spec (s := s) hhash htal hiter hnot
    by_cases hadd : s.verdict env pool c = some (.add A)
    · obtain ⟨s', hs', hadded⟩ := step_add hhash htal h ht hadd
      exact ⟨_, hs', .add ht hadded⟩
    · rw [step, ht]
      dsimp only
      generalize hs1 : { s with mi := mi } = s1
      have hblock : s1.block = s.block := by rw [← hs1]
      have hverdict : s1.verdict env pool c = s.verdict env pool c := by rw [← hs1]; rfl
      have hfail : (s1.fail c).block = s.block := by rw [block_fail, hblock]
      rw [judge_eq (hblock ▸ hnot) _ (hverdict.trans hv)]
      split
      · exact ⟨_, rfl, .stop hblock⟩
      · refine ⟨_, rfl, ?_⟩
        split
        · exact .stop hfail
        · exact hs1 ▸ .fail _ ht
      · exact ⟨_, rfl, hs1 ▸ .fail (s1.fail c).nConsecutiveFailed ht⟩
      next B hB =>
        -- the only package that can be added is the one above
        rw [hB] at hv
        split at hB
        · cases hB
        split at hB
        · cases hB
        split at hB
        · cases hB
        · obtain rfl := PackageVerdict.add.inj hB
          exact absurd hv hadd

end

end Rcoin
