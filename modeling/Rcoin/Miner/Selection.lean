/-
  The package selection as a whole.  It ends; and the block it leaves has every transaction once
  and after its ancestors, is filled below its limits, and adds up.

  Source: addPackageTxs in src/miner.cpp.
-/
import Rcoin.Miner.Steps

namespace Rcoin

open Relation CTxMemPool Closure SortedSet PackageState

section

variable {env : AssemblerEnv} {pool : CTxMemPool} {s s' : PackageState} {c : PackageChoice}
  {mi : List Uint256} {A : SetEntries}

/-! ## What is judged -/

namespace PackageState

/-- The totals of an entry as an iteration would judge them. -/
def totalsAt (pool : CTxMemPool) (s : PackageState) (x : Uint256) : PackageTotals :=
  (s.mapModifiedTx.lookup x).elim (pool.packageTotalsAt x) CTxMemPoolModifiedEntry.totals

/-- The fee deltas that are left in the totals of `x` when the members of `A` go in: those of all
    its ancestors in `A` when it has a modified entry, and of all but the first when it has none. -/
noncomputable def overcharge (pool : CTxMemPool) (s : PackageState) (A : SetEntries) (x : Uint256) :
    Int :=
  let l := pool.ancestorsIn A x
  ((if x ∈ s.mapModifiedTx then l else l.tail).map pool.feeDeltaAt).sum

end PackageState

def PackageChoice.totals (c : PackageChoice) : PackageTotals :=
  (c.packageSize, c.packageFees, c.packageSigOpsCost)

theorem judged_totals (hturn : PackageTurnOf env pool s (.evaluate c mi)) :
    c.totals = s.totalsAt pool c.iter := by
  cases hturn with
  | @mapTx it _ _ hmi he hskip =>
    have hnot : s.mapModifiedTx.lookup it = none := by
      simp only [skipMapTxEntry, Bool.or_eq_false_iff, decide_eq_false_iff_not] at hskip
      exact AList.lookup_eq_none.mpr hskip.1.1
    simp [totalsAt, fromMapTx, hnot, packageTotalsAt, he, PackageChoice.totals,
      CTxMemPoolEntry.ancestorTotals]
  | modified hm =>
    simp [totalsAt, fromModified, hm, PackageChoice.totals, CTxMemPoolModifiedEntry.totals]

theorem mem_mapModifiedTx_iff {x : Uint256} :
    x ∈ s.mapModifiedTx ↔ s.mapModifiedTx.lookup x ≠ none := by
  rw [ne_eq, AList.lookup_eq_none, not_not]

/-! ## What an added package changes -/

variable (hok : SelectionOk pool s) (htal : Tallied env.toMempoolEnv pool)

section

variable (h : PackageAdded env pool s c mi A s') (hiter : c.iter ∈ pool.mapTx)

include htal h hiter

theorem PackageAdded.mem_mapTx {x : Uint256} (hx : x ∈ A) : x ∈ pool.mapTx := by
  rcases ReflTransGen.cases_head ((h.package x).mp hx).1 with heq | ⟨b, hb, -⟩
  · exact heq ▸ hiter
  · exact htal.links.mem x b hb

theorem PackageAdded.ancestorsIn_mem {x a : Uint256} (ha : a ∈ pool.ancestorsIn A x) :
    a ∈ pool.mapTx :=
  h.mem_mapTx htal hiter (mem_ancestorsIn.mp ha).1

omit htal hiter in
theorem PackageAdded.mem_inBlock {x : Uint256} :
    x ∈ s'.block.inBlock ↔ x ∈ s.block.inBlock ∨ x ∈ A := by
  rw [h.block.inBlock, mem_sortForBlock]

theorem PackageAdded.mem_mapModifiedTx {x : Uint256} :
    x ∈ s'.mapModifiedTx ↔ x ∉ A ∧ (x ∈ s.mapModifiedTx ∨ ∃ a ∈ A, ReflTransGen pool.Parent a x) := by
  rw [mem_mapModifiedTx_iff, h.mapModifiedTx, mem_mapModifiedTx_iff]
  by_cases hx : x ∈ A
  · simp [hx]
  · rw [if_neg hx]
    by_cases hl : pool.ancestorsIn A x = []
    · have hnone : ¬ ∃ a ∈ A, ReflTransGen pool.Parent a x := by
        rintro ⟨a, ha, hreach⟩
        have hmem := mem_ancestorsIn.mpr ⟨ha, hreach⟩
        rw [hl] at hmem
        cases hmem
      simp [hl, hx, hnone]
    · obtain ⟨a, ha⟩ := List.exists_mem_of_ne_nil _ hl
      have hpool : x ∈ pool.mapTx :=
        htal.links.mem_of_reaches (h.ancestorsIn_mem htal hiter ha) (mem_ancestorsIn.mp ha).2
      rw [touchAll_ne_none env.toMempoolEnv hpool fun b hb => h.ancestorsIn_mem htal hiter hb]
      exact iff_of_true (.inl hl) ⟨hx, .inr ⟨a, mem_ancestorsIn.mp ha⟩⟩

theorem PackageAdded.totals {x : Uint256} (hx : x ∈ pool.mapTx) {m : CTxMemPoolModifiedEntry}
    (hm : s'.mapModifiedTx.lookup x = some m) :
    m.totals = s.totalsAt pool x + (0, s.overcharge pool A x, 0) +
      env.remaining pool s'.block.inBlock x - env.remaining pool s.block.inBlock x := by
  have hnotA : x ∉ A := ((h.mem_mapModifiedTx htal hiter).mp
    (mem_mapModifiedTx_iff.mpr (by rw [hm]; exact Option.some_ne_none m))).1
  have hremaining := remaining_added env.toMempoolEnv (x := x)
    (fun a => h.mem_inBlock (x := a)) (fun a ha => ((h.package a).mp ha).2)
    fun a ha => h.mem_mapTx htal hiter ha
  have hl : ∀ a ∈ pool.ancestorsIn A x, a ∈ pool.mapTx := fun a ha => h.ancestorsIn_mem htal hiter ha
  rw [h.mapModifiedTx, if_neg hnotA] at hm
  cases hlookup : s.mapModifiedTx.lookup x with
  | some m0 =>
    have hmem : x ∈ s.mapModifiedTx := mem_mapModifiedTx_iff.mpr (by simp [hlookup])
    obtain ⟨m', hm', htotals⟩ := touchAll_some env.toMempoolEnv m0 hx hl
    rw [hlookup, hm'] at hm
    obtain rfl := Option.some.inj hm
    rw [htotals, hremaining, totalsAt, overcharge, hlookup, Option.elim_some, if_pos hmem]
    abel
  | none =>
    have hmem : x ∉ s.mapModifiedTx := fun hin => mem_mapModifiedTx_iff.mp hin hlookup
    have hne : pool.ancestorsIn A x ≠ [] := by
      intro hnil
      rw [hnil, hlookup, touchAll_nil] at hm
      cases hm
    obtain ⟨m', hm', htotals⟩ := touchAll_none env.toMempoolEnv hx hl hne
    rw [hlookup, hm'] at hm
    obtain rfl := Option.some.inj hm
    rw [htotals, hremaining, totalsAt, overcharge, hlookup, Option.elim_none, if_neg hmem]
    abel

end

/-! ## What every iteration keeps -/

include hok in
theorem mem_mapTx_of_turn (hturn : s.turn env pool = some (.evaluate c mi)) :
    ∀ x ∈ mi, x ∈ pool.mapTx := by
  obtain ⟨t, ht, hof⟩ := turn_spec env hok.mi
  obtain rfl := Option.some.inj (ht.symm.trans hturn)
  cases hof with
  | mapTx hmi he hskip => exact fun x hx => hok.mi x (hmi ▸ List.mem_cons_of_mem _ hx)
  | modified hm => exact hok.mi

include hok htal in
theorem PackageAdded.selectionOk (hturn : s.turn env pool = some (.evaluate c mi))
    (h : PackageAdded env pool s c mi A s') : SelectionOk pool s' := by
  obtain ⟨hiter, -⟩ := hok.evaluated hturn
  have hmap := fun x => h.mem_mapModifiedTx htal hiter (x := x)
  have hblock := fun x => h.mem_inBlock (x := x)
  have hA : ∀ x ∈ A, x ∉ s.block.inBlock := fun x hx => ((h.package x).mp hx).2
  constructor
  · rw [h.mi]
    exact mem_mapTx_of_turn hok hturn
  · intro x hx
    obtain ⟨hxA, hold | ⟨a, ha, hreach⟩⟩ := (hmap x).mp hx
    · refine ⟨(hok.modified x hold).1, fun hin => ?_⟩
      exact ((hblock x).mp hin).elim (hok.modified x hold).2 hxA
    · refine ⟨htal.links.mem_of_reaches (h.mem_mapTx htal hiter ha) hreach, fun hin => ?_⟩
      -- else the member of the package would have been in the block before
      exact ((hblock x).mp hin).elim (fun hin => hA a ha (hok.closed a x hreach hin)) hxA
  · intro x hx
    exact ((hblock x).mp hx).elim (hok.inBlock x) (h.mem_mapTx htal hiter)
  · intro a x hreach hx
    rw [hblock] at hx ⊢
    rcases hx with hx | hx
    · exact .inl (hok.closed a x hreach hx)
    · by_cases ha : a ∈ s.block.inBlock
      · exact .inl ha
      · exact .inr ((h.package a).mpr ⟨hreach.trans ((h.package x).mp hx).1, ha⟩)
  · intro a ha x hreach
    rw [hblock, hmap, h.failedTx]
    by_cases hxA : x ∈ A
    · exact .inl (.inr hxA)
    · rcases (hblock a).mp ha with ha | ha
      · rcases hok.stale a ha x hreach with hx | hx | hx
        · exact .inl (.inl hx)
        · exact .inr (.inl ⟨hxA, .inl hx⟩)
        · exact .inr (.inr hx)
      · exact .inr (.inl ⟨hxA, .inr ⟨a, ha, hreach⟩⟩)

include hok in
theorem SelectionOk.fail (n : Nat) (hturn : s.turn env pool = some (.evaluate c mi)) :
    SelectionOk pool { { s with mi := mi }.fail c with nConsecutiveFailed := n } := by
  have hmi := mem_mapTx_of_turn hok hturn
  rw [PackageState.fail]
  split
  · refine ⟨hmi, fun x hx => hok.modified x (AList.mem_erase.mp hx).2, hok.inBlock, hok.closed,
      fun a ha x hreach => ?_⟩
    rcases hok.stale a ha x hreach with hx | hx | hx
    · exact .inl hx
    · by_cases heq : x = c.iter
      · exact .inr (.inr (mem_insert.mpr (.inl heq)))
      · exact .inr (.inl (AList.mem_erase.mpr ⟨heq, hx⟩))
    · exact .inr (.inr (mem_insert.mpr (.inr hx)))
  · exact ⟨hmi, hok.modified, hok.inBlock, hok.closed, hok.stale⟩

include hok htal in
theorem SelectionOk.next (hmoves : Moves env pool s (.next s')) : SelectionOk pool s' := by
  cases hmoves with
  | skip hmi hskip =>
    exact ⟨fun x hx => hok.mi x (hmi ▸ List.mem_cons_of_mem _ hx), hok.modified, hok.inBlock,
      hok.closed, hok.stale⟩
  | fail n hturn => exact hok.fail n hturn
  | add hturn h => exact h.selectionOk hok htal hturn

theorem SelectionOk.start (env : AssemblerEnv) (pool : CTxMemPool) :
    SelectionOk pool (PackageState.start env pool) where
  mi _ hx := AList.mem_keys.mp ((List.mem_insertionSort _).mp hx)
  modified _ hx := absurd hx (AList.notMem_empty _)
  inBlock _ hx := absurd hx (not_mem_empty _)
  closed _ _ _ hx := absurd hx (not_mem_empty _)
  stale _ ha := absurd ha (not_mem_empty _)

/-! ## The end -/

/-- The states at the head of the loop. -/
inductive SelectionReached (env : AssemblerEnv) (pool : CTxMemPool) : PackageState → Prop
  | start : SelectionReached env pool (PackageState.start env pool)
  | next {s s' : PackageState} (h : SelectionReached env pool s)
      (hstep : s.step env pool = some (.next s')) : SelectionReached env pool s'

variable (hhash : HashesOk pool)

include hhash htal

omit hok in
theorem SelectionReached.selectionOk (h : SelectionReached env pool s) : SelectionOk pool s := by
  induction h with
  | start => exact .start env pool
  | next _ hstep ih =>
    obtain ⟨r, hr, hmoves⟩ := step_spec hhash htal ih
    obtain rfl := Option.some.inj (hr.symm.trans hstep)
    exact ih.next htal hmoves

omit hhash htal in
theorem Moves.decreases (hok : SelectionOk pool s) (hmoves : Moves env pool s (.next s')) :
    (pool.txids \ s'.block.inBlock.toFinset).card < (pool.txids \ s.block.inBlock.toFinset).card ∨
      s'.block = s.block ∧ s'.mi.length + s'.mapModifiedTx.keys.length <
        s.mi.length + s.mapModifiedTx.keys.length := by
  cases hmoves with
  | skip hmi hskip => exact .inr ⟨rfl, by simp [hmi]⟩
  | fail n hturn =>
    obtain ⟨t, ht, hof⟩ := turn_spec env hok.mi
    obtain rfl := Option.some.inj (ht.symm.trans hturn)
    right
    cases hof with
    | mapTx hmi he hskip => exact ⟨rfl, by simp [PackageState.fail, fromMapTx, hmi]⟩
    | @modified it m hm =>
      refine ⟨rfl, ?_⟩
      have hlen := (Maps.perm_cons_erase hm).length_eq
      have hkeys : ∀ map : ModifiedSet, map.keys.length = map.entries.length := fun map =>
        List.length_map _
      simp only [PackageState.fail, fromModified, if_true, hkeys]
      simp only [List.length_cons] at hlen
      omega
  | @add c mi A _ hturn h =>
    obtain ⟨hiter, hnot⟩ := hok.evaluated hturn
    left
    have hself : c.iter ∈ A := (h.package _).mpr ⟨.refl, hnot⟩
    refine Finset.card_lt_card ⟨fun x hx => ?_, fun hsub => ?_⟩
    · rw [Finset.mem_sdiff, mem_toFinset, h.mem_inBlock] at hx
      rw [Finset.mem_sdiff, mem_toFinset]
      exact ⟨hx.1, fun hin => hx.2 (.inl hin)⟩
    · have hin := hsub (Finset.mem_sdiff.mpr ⟨mem_txids.mpr hiter, hnot⟩)
      rw [Finset.mem_sdiff, mem_toFinset, h.mem_inBlock] at hin
      exact hin.2 (.inr hself)

theorem packageLoop_ends (h : SelectionReached env pool s) :
    ∃ n s', ∀ fuel, n ≤ fuel → env.packageLoop pool fuel s = some s' := by
  -- by how many transactions are not in the block, and by how much there is to evaluate
  induction hm : toLex ((pool.txids \ s.block.inBlock.toFinset).card,
      s.mi.length + s.mapModifiedTx.keys.length) using WellFoundedLT.induction generalizing s with
  | ind measure ih =>
    have hok := h.selectionOk htal hhash
    obtain ⟨r, hr, hmoves⟩ := step_spec hhash htal hok
    cases r with
    | stop s' =>
      refine ⟨1, s', fun fuel hfuel => ?_⟩
      obtain ⟨n, rfl⟩ := Nat.exists_eq_add_of_le' hfuel
      rw [AssemblerEnv.packageLoop, hr]
    | next s' =>
      have hlt : toLex ((pool.txids \ s'.block.inBlock.toFinset).card,
          s'.mi.length + s'.mapModifiedTx.keys.length) < measure := by
        rw [← hm, Prod.Lex.toLex_lt_toLex]
        rcases hmoves.decreases hok with hlt | ⟨heq, hlt⟩
        · exact .inl hlt
        · exact .inr ⟨by rw [heq], hlt⟩
      obtain ⟨n, s'', hloop⟩ := ih _ hlt (h.next hr) rfl
      refine ⟨n + 1, s'', fun fuel hfuel => ?_⟩
      obtain ⟨fuel, rfl⟩ := Nat.exists_eq_add_of_le' (le_trans (Nat.le_add_left 1 n) hfuel)
      rw [AssemblerEnv.packageLoop, hr]
      exact hloop fuel (by omega)

theorem packageLoop_block (h : SelectionReached env pool s) {fuel : Nat}
    (hloop : env.packageLoop pool fuel s = some s') :
    ∃ s1, SelectionReached env pool s1 ∧ s'.block = s1.block ∧
      ∀ x ∈ s.block.inBlock, x ∈ s1.block.inBlock := by
  induction fuel generalizing s with
  | zero => cases hloop
  | succ fuel ih =>
    have hok := h.selectionOk htal hhash
    obtain ⟨r, hr, hmoves⟩ := step_spec hhash htal hok
    rw [AssemblerEnv.packageLoop, hr] at hloop
    cases hmoves with
    | stop hblock =>
      obtain rfl := Option.some.inj hloop
      exact ⟨s, h, hblock, fun _ hx => hx⟩
    | skip =>
      obtain ⟨s1, hs1, hblock, hkept⟩ := ih (h.next hr) hloop
      exact ⟨s1, hs1, hblock, hkept⟩
    | fail =>
      obtain ⟨s1, hs1, hblock, hkept⟩ := ih (h.next hr) hloop
      rw [block_fail] at hkept
      exact ⟨s1, hs1, hblock, hkept⟩
    | add hturn hadded =>
      obtain ⟨s1, hs1, hblock, hkept⟩ := ih (h.next hr) hloop
      exact ⟨s1, hs1, hblock, fun x hx => hkept x ((hadded.mem_inBlock).mpr (.inl hx))⟩

end

end Rcoin
