/-
  Whether the totals by which a package is judged are those of its transactions that are not in
  the block.  They are as long as every package that was added left the right totals behind, and
  two things can go wrong there.  `update_for_parent_inclusion` takes off the plain fee where the
  modified one was counted; and a modified entry that was erased when it failed is made again from
  the totals the pool keeps, with ancestors that are in the block already.

  Source: UpdatePackagesForAdded and addPackageTxs in src/miner.cpp.
-/
import Rcoin.Miner.Filling

namespace Rcoin

open Relation CTxMemPool CTxMemPoolEntry Closure SortedSet PackageState

section

variable {env : AssemblerEnv} {pool : CTxMemPool} {s s' : PackageState} {c : PackageChoice}
  {mi : List Uint256} {A : SetEntries}

/-- The package `A` may go in: its descendants are left without fee deltas of its members, and
    none of them has failed and has no modified entry. -/
def PackageState.AddsExactly (pool : CTxMemPool) (s : PackageState) (A : SetEntries) : Prop :=
  ∀ x ∈ pool.mapTx, x ∉ A → (∃ a ∈ A, ReflTransGen pool.Parent a x) →
    s.overcharge pool A x = 0 ∧ (x ∈ s.failedTx → x ∈ s.mapModifiedTx)

/-- The next iteration adds no package, or one that may go in. -/
def PackageState.StepsExactly (env : AssemblerEnv) (pool : CTxMemPool) (s : PackageState) : Prop :=
  ∀ c mi A, s.turn env pool = some (.evaluate c mi) → s.verdict env pool c = some (.add A) →
    s.AddsExactly pool A

/-- The states at the head of the loop, when every package so far might go in. -/
inductive SelectionReachedExactly (env : AssemblerEnv) (pool : CTxMemPool) : PackageState → Prop
  | start : SelectionReachedExactly env pool (PackageState.start env pool)
  | next {s s' : PackageState} (h : SelectionReachedExactly env pool s)
      (hexact : s.StepsExactly env pool) (hstep : s.step env pool = some (.next s')) :
      SelectionReachedExactly env pool s'

theorem SelectionReachedExactly.reached (h : SelectionReachedExactly env pool s) :
    SelectionReached env pool s := by
  induction h with
  | start => exact .start
  | next _ _ hstep ih => exact ih.next hstep

/-- The totals of every modified entry are what is left of its package. -/
def ModifiedExact (env : MempoolEnv) (pool : CTxMemPool) (s : PackageState) : Prop :=
  ∀ x m, s.mapModifiedTx.lookup x = some m → m.totals = env.remaining pool s.block.inBlock x

variable (htal : Tallied env.toMempoolEnv pool) (hok : SelectionOk pool s)
  (hexact : ModifiedExact env.toMempoolEnv pool s)

include htal hok hexact

theorem ModifiedExact.totalsAt {x : Uint256} (hx : x ∈ pool.mapTx) (hnot : x ∉ s.block.inBlock)
    (hfailed : x ∈ s.failedTx → x ∈ s.mapModifiedTx) :
    s.totalsAt pool x = env.remaining pool s.block.inBlock x := by
  rw [PackageState.totalsAt]
  cases hm : s.mapModifiedTx.lookup x with
  | some m => exact hexact x m hm
  | none =>
    have hunmodified : x ∉ s.mapModifiedTx := fun hin => mem_mapModifiedTx_iff.mp hin hm
    refine (remaining_untouched _ htal hx fun a ha hreach => ?_).symm
    rcases hok.stale a ha x hreach with hin | hin | hin
    · exact hnot hin
    · exact hunmodified hin
    · exact hunmodified (hfailed hin)

theorem ModifiedExact.add (hturn : s.turn env pool = some (.evaluate c mi))
    (hadds : s.AddsExactly pool A) (hadded : PackageAdded env pool s c mi A s') :
    ModifiedExact env.toMempoolEnv pool s' := by
  obtain ⟨hiter, -⟩ := hok.evaluated hturn
  intro x m hm
  have hin : x ∈ s'.mapModifiedTx := mem_mapModifiedTx_iff.mpr (by simp [hm])
  obtain ⟨hx, hnot'⟩ := (hadded.selectionOk hok htal hturn).modified x hin
  obtain ⟨hxA, hwas⟩ := (hadded.mem_mapModifiedTx htal hiter).mp hin
  have hnot : x ∉ s.block.inBlock := fun h => hnot' (hadded.mem_inBlock.mpr (.inl h))
  -- a descendant of the package is left without a fee delta, another entry is not touched
  have hcharge : s.overcharge pool A x = 0 ∧ (x ∈ s.failedTx → x ∈ s.mapModifiedTx) := by
    by_cases hreach : ∃ a ∈ A, ReflTransGen pool.Parent a x
    · exact hadds x hx hxA hreach
    · have hnil : pool.ancestorsIn A x = [] := by
        rw [List.eq_nil_iff_forall_not_mem]
        exact fun a ha => hreach ⟨a, mem_ancestorsIn.mp ha⟩
      exact ⟨by simp [overcharge, hnil], fun _ => hwas.resolve_right hreach⟩
  rw [hadded.totals htal hiter hx hm, hcharge.1, hexact.totalsAt htal hok hx hnot hcharge.2,
    ← Prod.zero_eq_mk, ← Prod.zero_eq_mk]
  abel

theorem ModifiedExact.next (hsteps : s.StepsExactly env pool)
    (hmoves : Moves env pool s (.next s')) : ModifiedExact env.toMempoolEnv pool s' := by
  cases hmoves with
  | skip => exact hexact
  | fail n hturn =>
    intro x m hm
    rw [block_fail]
    exact hexact x m (lookup_fail hm)
  | add hturn hadded => exact hexact.add htal hok hturn (hsteps _ _ _ hturn hadded.verdict) hadded

omit hok hexact

theorem SelectionReachedExactly.modifiedExact (hhash : HashesOk pool)
    (h : SelectionReachedExactly env pool s) : ModifiedExact env.toMempoolEnv pool s := by
  induction h with
  | start => exact fun x m hm => by cases hm
  | next h hsteps hstep ih =>
    have hok := h.reached.selectionOk htal hhash
    obtain ⟨r, hr, hmoves⟩ := step_spec hhash htal hok
    obtain rfl := Option.some.inj (hr.symm.trans hstep)
    exact ih.next htal hok hsteps hmoves

omit htal

/-- In such a run every package is judged by the totals of what is left of it. -/
theorem judged_totals_exact (hgood : Good env.toMempoolEnv pool)
    (hreached : SelectionReachedExactly env pool s)
    (hturn : s.turn env pool = some (.evaluate c mi)) :
    c.totals = env.remaining pool s.block.inBlock c.iter := by
  have hst := hgood.stored
  have hok := hreached.reached.selectionOk hst.tallied hst.hashes
  have hexact := hreached.modifiedExact hst.tallied hst.hashes
  obtain ⟨hiter, hnot⟩ := hok.evaluated hturn
  obtain ⟨t, ht, hof⟩ := turn_spec env hok.mi
  obtain rfl := Option.some.inj (ht.symm.trans hturn)
  rw [judged_totals hof]
  apply hexact.totalsAt hst.tallied hok hiter hnot
  -- an entry that failed is not taken from the index again
  intro hfailed
  cases hof with
  | mapTx hmi he hskip =>
    simp only [skipMapTxEntry, Bool.or_eq_false_iff, decide_eq_false_iff_not] at hskip
    exact absurd hfailed hskip.2
  | modified hm => exact mem_mapModifiedTx_iff.mpr (by simp [fromModified, hm])

end

/-! ### Three in a chain -/

namespace SampleTemplate

/-- The state after some iterations. -/
def stateAfter (pool : CTxMemPool) : Nat → PackageState
  | 0 => PackageState.start env pool
  | n + 1 =>
    match (stateAfter pool n).step env pool with
    | some (.next s) => s
    | _ => stateAfter pool n

/-- The same chain, with a fee delta for the one in the middle. -/
def prioritised : CTxMemPool := (pool.prioritiseTransaction 2 7).getD pool

theorem good_prioritised : Good env.toMempoolEnv prioritised := by
  have hlegal : MempoolEnv.Legal pool (.prioritiseTransaction 2 7) := trivial
  exact step_good good_pool hlegal rfl

/-- The last one, judged with these fees. -/
def last (packageFees : Int) : PackageChoice where
  iter := 3
  fUsingModified := true
  packageSize := 100
  packageFees := packageFees
  packageSigOpsCost := 12

theorem reachedExactly : SelectionReachedExactly env pool (stateAfter pool 3) := by
  have hadds : ∀ s : PackageState, s.failedTx = ∅ → s.StepsExactly env pool := by
    intro s hs c mi A _ _ x _ _ _
    have hzero : pool.feeDeltaAt = fun _ => 0 := by
      have hall : ∀ p ∈ pool.mapTx.entries, p.2.feeDelta = 0 := by decide
      funext a
      unfold CTxMemPool.feeDeltaAt
      cases he : pool.mapTx.lookup a with
      | none => rfl
      | some e => exact hall ⟨a, e⟩ (Maps.lookup_eq_some_iff_mem.mp he)
    refine ⟨?_, fun hin => absurd (hs ▸ hin) (not_mem_empty x)⟩
    simp [overcharge, hzero]
  exact ((SelectionReachedExactly.start.next (hadds _ rfl) rfl).next (hadds _ rfl) rfl).next
    (hadds _ rfl) rfl

end SampleTemplate

open SampleTemplate

/-- The third one, when the others are in the block. -/
theorem judged_totals_exact_sample :
    (last 5).totals = env.remaining pool (stateAfter pool 3).block.inBlock 3 :=
  judged_totals_exact good_pool reachedExactly rfl

/-- With the fee delta it is judged by seven more than it pays. -/
theorem judged_totals_not_exact : ¬ ∀ (env : AssemblerEnv) (pool : CTxMemPool) (s : PackageState)
    (c : PackageChoice) (mi : List Uint256), Good env.toMempoolEnv pool →
      SelectionReached env pool s → s.turn env pool = some (.evaluate c mi) →
        c.totals = env.remaining pool s.block.inBlock c.iter := by
  intro h
  have hreached : SelectionReached env prioritised (stateAfter prioritised 3) :=
    ((SelectionReached.start.next rfl).next rfl).next rfl
  have hjudged : (last 12).totals =
      env.remaining prioritised (stateAfter prioritised 3).block.inBlock 3 :=
    h env prioritised _ (last 12) [] good_prioritised hreached rfl
  have halone : (reaching prioritised.Parent prioritised.txids 3).filter
      (· ∉ (stateAfter prioritised 3).block.inBlock) = {3} := by
    ext a
    rw [Finset.mem_filter, mem_reaching, Finset.mem_singleton]
    constructor
    · rintro ⟨⟨ha, -⟩, hnot⟩
      have hothers : ∀ a ∈ prioritised.txids,
          a ∉ (stateAfter prioritised 3).block.inBlock → a = 3 := by decide
      exact hothers a ha hnot
    · rintro rfl
      exact ⟨⟨by decide, .refl⟩, by decide⟩
  rw [MempoolEnv.remaining, halone, Finset.sum_singleton] at hjudged
  exact absurd hjudged (by decide)

end Rcoin
