/-
  The block the package selection leaves: every transaction is there once and after its ancestors,
  and is final; weight, sigop cost and fees add up, and the first two are below their limits.

  A package is judged by its virtual size, which is never less than what is left of it.  So the
  weights fit, even where the fees by which the package was chosen are not the true ones.
-/
import Rcoin.Miner.Selection

namespace Rcoin

open Relation CTxMemPool Closure SortedSet PackageState

/-- `nTxWeight` is a `size_t`. -/
def WeightsOk (pool : CTxMemPool) : Prop :=
  ∀ h e, pool.mapTx.lookup h = some e → 0 ≤ e.nTxWeight

/-! ## Sizes and weights -/

section

variable {env : MempoolEnv} {e : CTxMemPoolEntry}

theorem getTxSize_nonneg (h : 0 ≤ e.nTxWeight) : 0 ≤ env.getTxSize e := by
  have hmax := le_max_left e.nTxWeight (e.sigOpCost * env.nBytesPerSigOp)
  unfold MempoolEnv.getTxSize MempoolEnv.getVirtualTransactionSize WITNESS_SCALE_FACTOR
  exact Int.tdiv_nonneg (by omega) (by omega)

theorem nTxWeight_le (h : 0 ≤ e.nTxWeight) :
    e.nTxWeight ≤ WITNESS_SCALE_FACTOR * env.getTxSize e := by
  have hmax := le_max_left e.nTxWeight (e.sigOpCost * env.nBytesPerSigOp)
  unfold MempoolEnv.getTxSize MempoolEnv.getVirtualTransactionSize WITNESS_SCALE_FACTOR
  rw [Int.tdiv_eq_ediv_of_nonneg (by omega)]
  omega

/-- Neither size nor sigop cost of `p` is more than that of `q`. -/
def PackageTotals.Within (p q : PackageTotals) : Prop := p.1 ≤ q.1 ∧ p.2.2 ≤ q.2.2

variable {pool : CTxMemPool} {B : SetEntries} {x : Uint256}

theorem packageWeightAt_nonneg (hweights : WeightsOk pool) (hsig : SigOpsOk pool) (a : Uint256) :
    0 ≤ (env.packageWeightAt pool a).1 ∧ 0 ≤ (env.packageWeightAt pool a).2.2 := by
  unfold MempoolEnv.packageWeightAt MempoolEnv.ancestorWeightAt
  cases he : pool.mapTx.lookup a with
  | none => exact ⟨le_refl _, le_refl _⟩
  | some e => exact ⟨getTxSize_nonneg (hweights a e he), (hsig a e he).1⟩

theorem remaining_within (htal : Tallied env pool) (hweights : WeightsOk pool) (hsig : SigOpsOk pool)
    (hx : x ∈ pool.mapTx) :
    (env.remaining pool B x).Within (pool.packageTotalsAt x) := by
  have hall : pool.packageTotalsAt x =
      ∑ a ∈ reaching pool.Parent pool.txids x, env.packageWeightAt pool a := by
    have hempty := remaining_untouched env (B := ∅) htal hx
      fun a ha => absurd ha (not_mem_empty a)
    rw [← hempty, MempoolEnv.remaining, Finset.filter_true_of_mem fun a _ => not_mem_empty a]
  rw [hall, MempoolEnv.remaining, PackageTotals.Within, Prod.fst_sum, Prod.fst_sum, Prod.snd_sum,
    Prod.snd_sum, Prod.snd_sum, Prod.snd_sum]
  constructor
  · exact Finset.sum_le_sum_of_subset_of_nonneg (Finset.filter_subset _ _)
      fun a _ _ => (packageWeightAt_nonneg hweights hsig a).1
  · exact Finset.sum_le_sum_of_subset_of_nonneg (Finset.filter_subset _ _)
      fun a _ _ => (packageWeightAt_nonneg hweights hsig a).2

end

section

variable {env : AssemblerEnv} {pool : CTxMemPool} {s s' : PackageState} {c : PackageChoice}
  {mi : List Uint256} {A : SetEntries}

/-! ## Nothing is judged too small -/

/-- No modified entry has less size or sigop cost than what is left of its package. -/
def NotUnder (env : MempoolEnv) (pool : CTxMemPool) (s : PackageState) : Prop :=
  ∀ x m, s.mapModifiedTx.lookup x = some m →
    (env.remaining pool s.block.inBlock x).Within m.totals

variable (hst : Stored env.toMempoolEnv pool) (hweights : WeightsOk pool)

include hst hweights

theorem NotUnder.totalsAt (h : NotUnder env.toMempoolEnv pool s) {x : Uint256} (hx : x ∈ pool.mapTx) :
    (env.remaining pool s.block.inBlock x).Within (s.totalsAt pool x) := by
  rw [PackageState.totalsAt]
  cases hm : s.mapModifiedTx.lookup x with
  | none => exact remaining_within hst.tallied hweights hst.sigOps hx
  | some m => exact h x m hm

theorem NotUnder.next (hok : SelectionOk pool s) (h : NotUnder env.toMempoolEnv pool s)
    (hmoves : Moves env pool s (.next s')) : NotUnder env.toMempoolEnv pool s' := by
  have hok' := hok.next hst.tallied hmoves
  cases hmoves with
  | skip => exact h
  | fail n hturn =>
    intro x m hm
    rw [block_fail]
    exact h x m (lookup_fail hm)
  | add hturn hadded =>
    intro x m hm
    have hx : x ∈ pool.mapTx :=
      (hok'.modified x (mem_mapModifiedTx_iff.mpr (by rw [hm]; exact Option.some_ne_none m))).1
    have hbefore := h.totalsAt hst hweights hx
    rw [hadded.totals hst.tallied (hok.evaluated hturn).1 hx hm]
    simp only [PackageTotals.Within, Prod.fst_sub, Prod.fst_add, Prod.snd_sub, Prod.snd_add] at *
    omega

/-! ## Filling -/

omit hst hweights in
theorem PackageAdded.remaining_eq (htal : Tallied env.toMempoolEnv pool)
    (h : PackageAdded env pool s c mi A s') (hiter : c.iter ∈ pool.mapTx) :
    env.remaining pool s.block.inBlock c.iter =
      ((sortForBlock pool A).map (env.packageWeightAt pool)).sum := by
  have hperm := ((List.perm_insertionSort (ancestorCountLe pool) A.elems).map
    (env.packageWeightAt pool)).sum_eq
  have hset : (reaching pool.Parent pool.txids c.iter).filter (· ∉ s.block.inBlock) = A.toFinset := by
    ext x
    rw [Finset.mem_filter, mem_reaching, mem_toFinset, h.package, mem_txids]
    constructor
    · exact fun hx => ⟨hx.1.2, hx.2⟩
    · exact fun hx => ⟨⟨h.mem_mapTx htal hiter ((h.package x).mpr hx), hx.1⟩, hx.2⟩
  rw [MempoolEnv.remaining, hset]
  exact hperm.symm

omit hst in
theorem sum_nTxWeight_le (env : MempoolEnv) (order : List Uint256) :
    ((pool.entriesAt order).map (·.nTxWeight)).sum ≤
      WITNESS_SCALE_FACTOR * (order.map (env.packageWeightAt pool)).sum.1 := by
  rw [sum_entriesAt]
  induction order with
  | nil => simp
  | cons x order ih =>
    have hx : (pool.mapTx.lookup x).elim 0 (·.nTxWeight) ≤
        WITNESS_SCALE_FACTOR * (env.packageWeightAt pool x).1 := by
      unfold MempoolEnv.packageWeightAt MempoolEnv.ancestorWeightAt
      cases he : pool.mapTx.lookup x with
      | none => simp
      | some e => exact nTxWeight_le (hweights x e he)
    rw [List.map_cons, List.sum_cons, List.map_cons, List.sum_cons, Prod.fst_add, mul_add]
    omega

omit hst hweights in
theorem sum_sigOpCost_eq (env : MempoolEnv) (pool : CTxMemPool) (order : List Uint256) :
    ((pool.entriesAt order).map (·.sigOpCost)).sum =
      (order.map (env.packageWeightAt pool)).sum.2.2 := by
  rw [sum_entriesAt]
  induction order with
  | nil => simp
  | cons x order ih =>
    have hx : (pool.mapTx.lookup x).elim 0 (·.sigOpCost) = (env.packageWeightAt pool x).2.2 := by
      unfold MempoolEnv.packageWeightAt MempoolEnv.ancestorWeightAt
      cases pool.mapTx.lookup x <;> rfl
    rw [List.map_cons, List.sum_cons, List.map_cons, List.sum_cons, Prod.snd_add, Prod.snd_add, hx, ih]

omit hst hweights in
theorem testPackage_eq_true {block : BlockAssembler} {packageSize packageSigOpsCost : Int} :
    block.testPackage env packageSize packageSigOpsCost = true ↔
      block.nBlockWeight + WITNESS_SCALE_FACTOR * packageSize < env.nBlockMaxWeight ∧
        block.nBlockSigOpsCost + packageSigOpsCost < MAX_BLOCK_SIGOPS_COST := by
  unfold BlockAssembler.testPackage
  split
  next h => simp [not_lt.mpr h]
  next h =>
    rw [not_le] at h
    split
    next h' => simp [not_lt.mpr h']
    next h' => simp [h, not_le.mp h']

/-- The block, by the transactions it has. -/
structure Filled (env : AssemblerEnv) (pool : CTxMemPool) (block : BlockAssembler)
    (order : List Uint256) : Prop where
  extended : Extended pool .resetBlock block order
  nodup : order.Nodup
  mem : ∀ x ∈ order, x ∈ pool.mapTx
  first : order.Pairwise fun a b => ¬ TransGen pool.Parent b a
  ok : ∀ x ∈ order, ∀ e, pool.mapTx.lookup x = some e →
    isFinalTx e.tx env.nHeight env.nLockTimeCutoff = true ∧
      (env.fIncludeWitness = true ∨ e.tx.hasWitness = false)
  weight : order ≠ [] → block.nBlockWeight < env.nBlockMaxWeight
  sigOps : block.nBlockSigOpsCost < MAX_BLOCK_SIGOPS_COST

variable {order : List Uint256}

omit hst hweights in
theorem Filled.inBlock {block : BlockAssembler} (h : Filled env pool block order) {x : Uint256} :
    x ∈ block.inBlock ↔ x ∈ order := by
  rw [h.extended.inBlock, BlockAssembler.resetBlock, or_iff_right (not_mem_empty x)]

theorem Filled.add (hok : SelectionOk pool s) (hunder : NotUnder env.toMempoolEnv pool s)
    (h : Filled env pool s.block order) (hturn : s.turn env pool = some (.evaluate c mi))
    (hadded : PackageAdded env pool s c mi A s') :
    Filled env pool s'.block (order ++ sortForBlock pool A) := by
  have htal := hst.tallied
  obtain ⟨hiter, -⟩ := hok.evaluated hturn
  have hmem := fun x (hx : x ∈ A) => hadded.mem_mapTx htal hiter hx
  have hnew : ∀ x ∈ A, x ∉ order := fun x hx hin =>
    ((hadded.package x).mp hx).2 (h.inBlock.mpr hin)
  -- what the package adds is within what it was judged by
  have hjudged := hunder.totalsAt hst hweights hiter
  obtain ⟨t, ht, hof⟩ := turn_spec env hok.mi
  obtain rfl := Option.some.inj (ht.symm.trans hturn)
  rw [← judged_totals hof, hadded.remaining_eq htal hiter] at hjudged
  obtain ⟨hsize, hsigOps⟩ := hjudged
  have hweightSum := sum_nTxWeight_le hweights env.toMempoolEnv (sortForBlock pool A)
  have hsigSum := sum_sigOpCost_eq env.toMempoolEnv pool (sortForBlock pool A)
  obtain ⟨hfits, hfits'⟩ := testPackage_eq_true.mp hadded.fits
  have hscale : WITNESS_SCALE_FACTOR * ((sortForBlock pool A).map (env.packageWeightAt pool)).sum.1 ≤
      WITNESS_SCALE_FACTOR * c.packageSize := Int.mul_le_mul_of_nonneg_left hsize (by decide)
  constructor
  · exact h.extended.trans hadded.block
  · exact h.nodup.append (nodup_sortForBlock A) fun x hx hxA => hnew x (mem_sortForBlock.mp hxA) hx
  · intro x hx
    rcases List.mem_append.mp hx with hx | hx
    · exact h.mem x hx
    · exact hmem x (mem_sortForBlock.mp hx)
  · rw [List.pairwise_append]
    refine ⟨h.first, sortForBlock_pairwise htal A, fun a ha b hb hba => ?_⟩
    -- the ancestors of what is in the block were there before
    have hb' := hok.closed b a hba.to_reflTransGen (h.inBlock.mpr ha)
    exact hnew b (mem_sortForBlock.mp hb) (h.inBlock.mp hb')
  · intro x hx e he
    rcases List.mem_append.mp hx with hx | hx
    · exact h.ok x hx e he
    · have hall := List.all_eq_true.mp hadded.ok x (mem_sortForBlock.mp hx)
      simpa [he] using hall
  · intro _
    rw [hadded.block.nBlockWeight]
    omega
  · have hle : ((sortForBlock pool A).map (env.packageWeightAt pool)).sum.2.2 ≤
        c.packageSigOpsCost := hsigOps
    rw [hadded.block.nBlockSigOpsCost, hsigSum]
    omega

omit hst hweights in
theorem Filled.start : Filled env pool .resetBlock [] where
  extended := .refl _
  nodup := .nil
  mem x hx := absurd hx List.not_mem_nil
  first := .nil
  ok x hx := absurd hx List.not_mem_nil
  weight h := absurd rfl h
  sigOps := by decide

theorem SelectionReached.filled (h : SelectionReached env pool s) :
    SelectionOk pool s ∧ NotUnder env.toMempoolEnv pool s ∧ ∃ order, Filled env pool s.block order := by
  induction h with
  | start => exact ⟨.start env pool, (fun x m hm => by cases hm), [], .start⟩
  | @next s s' _ hstep ih =>
    obtain ⟨hok, hunder, order, hfilled⟩ := ih
    obtain ⟨r, hr, hmoves⟩ := step_spec hst.hashes hst.tallied hok
    obtain rfl := Option.some.inj (hr.symm.trans hstep)
    refine ⟨hok.next hst.tallied hmoves, hunder.next hst hweights hok hmoves, ?_⟩
    cases hmoves with
    | skip => exact ⟨order, hfilled⟩
    | fail n hturn =>
      refine ⟨order, ?_⟩
      rw [block_fail]
      exact hfilled
    | add hturn hadded => exact ⟨_, hfilled.add hst hweights hok hunder hturn hadded⟩

theorem SelectionReached.mem_vtx (h : SelectionReached env pool s) {x : Uint256} {e : CTxMemPoolEntry}
    (he : pool.mapTx.lookup x = some e) (hx : x ∈ s.block.inBlock) : e.tx ∈ s.block.vtx := by
  obtain ⟨-, -, order, hfilled⟩ := h.filled hst hweights
  rw [hfilled.extended.vtx]
  refine List.mem_append_right _ (List.mem_map_of_mem ?_)
  exact List.mem_filterMap.mpr ⟨x, hfilled.inBlock.mp hx, he⟩

end

/-! ## The template -/

def BlockAssembler.txids (block : BlockAssembler) : List Uint256 := block.vtx.map (·.hash)

/-- What a block template has to be. -/
structure TemplateOk (env : AssemblerEnv) (pool : CTxMemPool) (block : BlockAssembler) : Prop where
  vtx : block.vtx = (pool.entriesAt block.txids).map (·.tx)
  nodup : block.txids.Nodup
  ancestorsFirst : ∀ before x after, block.txids = before ++ x :: after →
    ∀ a, TransGen pool.SpendsFrom a x → a ∈ before
  final : ∀ tx ∈ block.vtx, isFinalTx tx env.nHeight env.nLockTimeCutoff = true
  nBlockWeight : block.nBlockWeight = 4000 + ((pool.entriesAt block.txids).map (·.nTxWeight)).sum
  belowMaxWeight : ∀ n, 0 < n → n ≤ block.vtx.length →
    4000 + (((pool.entriesAt block.txids).take n).map (·.nTxWeight)).sum < env.nBlockMaxWeight
  nBlockSigOpsCost : block.nBlockSigOpsCost =
    400 + ((pool.entriesAt block.txids).map (·.sigOpCost)).sum
  belowMaxSigOps : ∀ n,
    400 + (((pool.entriesAt block.txids).take n).map (·.sigOpCost)).sum < MAX_BLOCK_SIGOPS_COST
  nFees : block.nFees = ((pool.entriesAt block.txids).map (·.nFee)).sum

section

variable {env : AssemblerEnv} {pool : CTxMemPool} {block : BlockAssembler} {order : List Uint256}

theorem mem_entriesAt {e : CTxMemPoolEntry} (h : e ∈ pool.entriesAt order) :
    ∃ x ∈ order, pool.mapTx.lookup x = some e :=
  List.mem_filterMap.mp h

theorem hashes_entriesAt (hhash : HashesOk pool) (h : ∀ x ∈ order, x ∈ pool.mapTx) :
    (pool.entriesAt order).map (·.tx.hash) = order := by
  induction order with
  | nil => rfl
  | cons x order ih =>
    obtain ⟨e, he⟩ := mem_mapTx_iff.mp (h x List.mem_cons_self)
    rw [← List.singleton_append, entriesAt_append, List.map_append,
      ih fun y hy => h y (List.mem_cons_of_mem _ hy)]
    simp [entriesAt, he, hhash x e he]

theorem sum_take_le {f : CTxMemPoolEntry → Int} {l : List CTxMemPoolEntry} (h : ∀ e ∈ l, 0 ≤ f e)
    (n : Nat) : ((l.take n).map f).sum ≤ (l.map f).sum := by
  have hrest : 0 ≤ ((l.drop n).map f).sum := by
    apply List.sum_nonneg
    intro y hy
    obtain ⟨e, he, rfl⟩ := List.mem_map.mp hy
    exact h e (List.mem_of_mem_drop he)
  have hsplit : (l.map f).sum = ((l.take n).map f).sum + ((l.drop n).map f).sum := by
    rw [← List.sum_append, ← List.map_append, List.take_append_drop]
  omega

theorem Filled.templateOk (hgood : Good env.toMempoolEnv pool) (hweights : WeightsOk pool)
    (hclosed : ∀ a x, ReflTransGen pool.Parent a x → x ∈ order → a ∈ order)
    (h : Filled env pool block order) : TemplateOk env pool block := by
  have hvtx : block.vtx = (pool.entriesAt order).map (·.tx) := by
    rw [h.extended.vtx, BlockAssembler.resetBlock, List.nil_append]
  have htxids : block.txids = order := by
    rw [BlockAssembler.txids, hvtx, List.map_map]
    exact hashes_entriesAt hgood.stored.hashes h.mem
  have hparent : pool.Parent = pool.SpendsFrom :=
    funext fun p => funext fun c => propext (hgood.links p c)
  have hweight := h.extended.nBlockWeight
  have hsigOps := h.extended.nBlockSigOpsCost
  have hfees := h.extended.nFees
  simp only [BlockAssembler.resetBlock, zero_add] at hweight hsigOps hfees
  constructor
  · rw [htxids, hvtx]
  · rw [htxids]
    exact h.nodup
  · intro before x after hsplit a hreach
    rw [← hparent] at hreach
    rw [htxids] at hsplit
    -- an ancestor of `x` is in the block, and not behind `x`
    have hin := hclosed a x hreach.to_reflTransGen (hsplit ▸ List.mem_append_right _ List.mem_cons_self)
    have hfirst := h.first
    rw [hsplit, List.mem_append, List.mem_cons] at hin
    rw [hsplit, List.pairwise_append, List.pairwise_cons] at hfirst
    rcases hin with hin | rfl | hin
    · exact hin
    · exact absurd hreach (hgood.stored.tallied.acyclic a)
    · exact absurd hreach (hfirst.2.1.1 a hin)
  · intro tx htx
    rw [hvtx] at htx
    obtain ⟨e, he, rfl⟩ := List.mem_map.mp htx
    obtain ⟨x, hx, hlookup⟩ := mem_entriesAt he
    exact (h.ok x hx e hlookup).1
  · rw [htxids]
    exact hweight
  · intro n hn hle
    have hne : order ≠ [] := by
      rintro rfl
      rw [hvtx] at hle
      exact absurd hle (by simpa [entriesAt] using hn.ne')
    have htake := sum_take_le (l := pool.entriesAt order) (f := (·.nTxWeight)) (fun e he => by
      obtain ⟨x, -, hx⟩ := mem_entriesAt he
      exact hweights x e hx) n
    have hbelow := h.weight hne
    rw [htxids]
    omega
  · rw [htxids]
    exact hsigOps
  · intro n
    have htake := sum_take_le (l := pool.entriesAt order) (f := (·.sigOpCost)) (fun e he => by
      obtain ⟨x, -, hx⟩ := mem_entriesAt he
      exact (hgood.stored.sigOps x e hx).1) n
    have hbelow := h.sigOps
    rw [htxids]
    omega
  · rw [htxids]
    exact hfees

theorem addPackageTxs_templateOk (hgood : Good env.toMempoolEnv pool) (hweights : WeightsOk pool)
    {fuel : Nat} {s : PackageState} (h : env.addPackageTxs pool fuel = some s) :
    TemplateOk env pool s.block := by
  have hst := hgood.stored
  obtain ⟨s1, hreached, hblock, -⟩ := packageLoop_block hst.tallied hst.hashes
    (.start : SelectionReached env pool _) h
  obtain ⟨hok, -, order, hfilled⟩ := hreached.filled hst hweights
  rw [hblock]
  exact hfilled.templateOk hgood hweights fun a x hreach hx =>
    hfilled.inBlock.mp (hok.closed a x hreach (hfilled.inBlock.mpr hx))

/-- The package selection ends, and leaves a block that is in order.  Nothing that is in the block
    is evaluated again, which is what the loop asserts. -/
theorem addPackageTxs_correct (env : AssemblerEnv) (pool : CTxMemPool)
    (hgood : Good env.toMempoolEnv pool) (hweights : WeightsOk pool) :
    (∃ n s, (∀ fuel, n ≤ fuel → env.addPackageTxs pool fuel = some s) ∧
        TemplateOk env pool s.block) ∧
      ∀ s c mi, SelectionReached env pool s → s.turn env pool = some (.evaluate c mi) →
        c.iter ∉ s.block.inBlock := by
  have hst := hgood.stored
  constructor
  · obtain ⟨n, s, hloop⟩ := packageLoop_ends hst.tallied hst.hashes
      (.start : SelectionReached env pool _)
    exact ⟨n, s, hloop, addPackageTxs_templateOk hgood hweights (hloop n (le_refl n))⟩
  · intro s c mi hreached hturn
    exact ((hreached.selectionOk hst.tallied hst.hashes).evaluated hturn).2

end

/-! ### A pool of three -/

namespace SampleTemplate

open CTxMemPoolEntry

def grandchild : CTransaction := { hash := 3, vin := [⟨⟨2, 0⟩, [], 0, []⟩], vout := [⟨3, []⟩] }

def env : AssemblerEnv where
  toMempoolEnv := SamplePool.env
  nBlockMaxWeight := 2000000
  blockMinFeeRate := ⟨100⟩
  fIncludeWitness := false
  nHeight := 1
  nLockTimeCutoff := 0

/-- A chain of three transactions. -/
def pool : CTxMemPool :=
  (SamplePool.env.addUnchecked 3 (CTxMemPoolEntry.new SamplePool.env grandchild 5 2 12) (ofList [1, 2])
    (SamplePool.after 2)).getD (SamplePool.after 2)

theorem mem_parents {c : Uint256} {e : CTxMemPoolEntry}
    (he : (SamplePool.after 2).mapTx.lookup c = some e) : c = 2 ∨ c = 1 := by
  have hc : c ∈ (SamplePool.after 2).mapTx.keys := AList.mem_keys.mpr (mem_mapTx_iff.mpr ⟨e, he⟩)
  simpa using (show c ∈ [2, 1] from hc)

theorem legal_grandchild : AddLegal (SamplePool.after 2) grandchild 12 (ofList [1, 2]) where
  new := by decide
  notOwnParent := by decide
  noChildren c e he := by
    obtain rfl | rfl := mem_parents he
    · cases he
      decide
    · cases he
      decide
  noConflict := by decide
  sigOps := by decide
  ancestors a := by
    have hspends : ∀ p c, (SamplePool.after 2).SpendsFrom p c → p = 1 ∧ c = 2 := by
      rintro p c ⟨hp, e, he, hin⟩
      obtain rfl | rfl := mem_parents he
      · cases he
        exact ⟨List.mem_singleton.mp hin, rfl⟩
      · cases he
        obtain rfl : p = 100 := List.mem_singleton.mp hin
        exact absurd hp (by decide)
    rw [mem_ofList]
    constructor
    · intro ha
      obtain rfl | rfl : a = 1 ∨ a = 2 := by simpa using ha
      · exact ⟨2, .single ⟨by decide, _, rfl, by decide⟩, by decide, by decide⟩
      · exact ⟨2, .refl, by decide, by decide⟩
    · rintro ⟨p, hreach, -, hin⟩
      obtain rfl : p = 2 := List.mem_singleton.mp hin
      rcases ReflTransGen.cases_tail hreach with rfl | ⟨c, hac, hc⟩
      · decide
      · obtain ⟨rfl, -⟩ := hspends c 2 hc
        rcases ReflTransGen.cases_tail hac with rfl | ⟨b, -, hb⟩
        · decide
        · exact absurd (hspends b 1 hb).2 (by decide)

theorem good_pool : Good env.toMempoolEnv pool := by
  have hlegal : SamplePool.env.LegalRun (empty ∅) (SamplePool.ops.take 2) :=
    MempoolEnv.legalRun_cons (SamplePool.after 1) rfl SamplePool.legal_parent <|
      MempoolEnv.legalRun_cons (SamplePool.after 2) rfl SamplePool.legal_child trivial
  have hafter : Good env.toMempoolEnv (SamplePool.after 2) := run_good (good_empty ∅) hlegal rfl
  have hadd : MempoolEnv.Legal (SamplePool.after 2)
      (.addUnchecked grandchild 5 2 12 (ofList [1, 2])) := legal_grandchild
  exact step_good hafter hadd rfl

theorem weightsOk_pool : WeightsOk pool := by
  have hall : ∀ p ∈ pool.mapTx.entries, 0 ≤ p.2.nTxWeight := by decide
  exact fun h e he => hall ⟨h, e⟩ (Maps.lookup_eq_some_iff_mem.mp he)

-- the last one pays too little
example : (env.addPackageTxs pool 10).map (·.block.txids) = some [1, 2] := by decide

end SampleTemplate

open SampleTemplate in
theorem addPackageTxs_correct_sample :
    (∃ n s, (∀ fuel, n ≤ fuel → env.addPackageTxs pool fuel = some s) ∧
        TemplateOk env pool s.block) ∧
      ∀ s c mi, SelectionReached env pool s → s.turn env pool = some (.evaluate c mi) →
        c.iter ∉ s.block.inBlock :=
  addPackageTxs_correct env pool good_pool weightsOk_pool

end Rcoin
