/-
  The pool and the assembler together: runs in which transactions come and go and blocks are
  assembled from the pool, with any settings, and connected.

  Source: addPackageTxs in src/miner.cpp, removeForBlock in src/txmempool.cpp.
-/
import Rcoin.Miner.Filling

namespace Rcoin

open CTxMemPool List SortedSet

/-- The pools that calls and connected blocks make of an empty one. -/
inductive Mining (env : MempoolEnv) : CTxMemPool → Prop where
  | start (mapDeltas : AList fun _ : Uint256 => Int) : Mining env (empty mapDeltas)
  | op {pool pool' : CTxMemPool} {op : MempoolOp} (before : Mining env pool)
      (legal : MempoolEnv.Legal pool op) (step : env.step pool op = some pool') : Mining env pool'
  | mine {pool pool' : CTxMemPool} {settings : AssemblerEnv} {fuel : Nat} {s : PackageState}
      (before : Mining env pool) (same : settings.toMempoolEnv = env) (weights : WeightsOk pool)
      (assembled : settings.addPackageTxs pool fuel = some s)
      (connected : env.removeForBlock s.block.vtx pool = some pool') : Mining env pool'

section

variable {env : MempoolEnv} {pool : CTxMemPool}

/-- A block in which ancestors come first can be removed from the pool. -/
theorem TemplateOk.blockLegal {settings : AssemblerEnv} {block : BlockAssembler}
    (h : TemplateOk settings pool block) : BlockLegal pool block.vtx := by
  intro before tx after heq p hp
  have htxids : block.txids = before.map (·.hash) ++ tx.hash :: after.map (·.hash) := by
    rw [BlockAssembler.txids, heq, map_append, map_cons]
  exact mem_map.mp (h.ancestorsFirst _ _ _ htxids p (.single hp))

theorem Mining.good (h : Mining env pool) : Good env pool := by
  induction h with
  | start mapDeltas => exact good_empty mapDeltas
  | op _ legal step ih => exact step_good ih legal step
  | mine _ same weights assembled connected ih =>
    subst same
    exact (removeForBlock_good ih (addPackageTxs_templateOk ih weights assembled).blockLegal
      connected).1

/-- At every point of a run the pool is consistent, and with any settings a block is assembled
    that is in order and can be connected; nothing of it is left in the pool then. -/
theorem Mining.correct (h : Mining env pool) :
    Consistent env pool ∧ ∀ settings : AssemblerEnv, settings.toMempoolEnv = env → WeightsOk pool →
      ∃ n s, (∀ fuel, n ≤ fuel → settings.addPackageTxs pool fuel = some s) ∧
        TemplateOk settings pool s.block ∧ BlockLegal pool s.block.vtx ∧
        ∀ pool', env.removeForBlock s.block.vtx pool = some pool' →
          Mining env pool' ∧ ∀ tx ∈ s.block.vtx, tx.hash ∉ pool'.mapTx := by
  have hgood := h.good
  have hst := hgood.stored
  refine ⟨hst.consistent hgood.links, fun settings same hweights => ?_⟩
  subst same
  obtain ⟨n, s, hloop⟩ := packageLoop_ends hst.tallied hst.hashes
    (.start : SelectionReached settings pool _)
  have hok := addPackageTxs_templateOk hgood hweights (hloop n (le_refl n))
  refine ⟨n, s, hloop, hok, hok.blockLegal, fun pool' hr => ?_⟩
  have hgone := (removeForBlock_good hgood hok.blockLegal hr).2.1
  exact ⟨h.mine rfl hweights (hloop n (le_refl n)) hr, hgone⟩

end

namespace SampleTemplate

theorem mining : Mining env.toMempoolEnv pool := by
  have hone : Mining env.toMempoolEnv (SamplePool.after 1) :=
    .op (.start ∅) (show MempoolEnv.Legal _ (.addUnchecked SamplePool.parent 10 0 4 ∅) from
      SamplePool.legal_parent) rfl
  have htwo : Mining env.toMempoolEnv (SamplePool.after 2) :=
    .op hone (show MempoolEnv.Legal _ (.addUnchecked SamplePool.child 20 1 8 (ofList [1])) from
      SamplePool.legal_child) rfl
  exact .op htwo (show MempoolEnv.Legal _ (.addUnchecked grandchild 5 2 12 (ofList [1, 2])) from
    legal_grandchild) rfl

end SampleTemplate

open SampleTemplate in
theorem Mining.correct_sample : Consistent env.toMempoolEnv pool ∧
    ∃ n s, (∀ fuel, n ≤ fuel → env.addPackageTxs pool fuel = some s) ∧
      TemplateOk env pool s.block ∧ BlockLegal pool s.block.vtx ∧
      ∀ pool', env.toMempoolEnv.removeForBlock s.block.vtx pool = some pool' →
        Mining env.toMempoolEnv pool' ∧ ∀ tx ∈ s.block.vtx, tx.hash ∉ pool'.mapTx :=
  ⟨(Mining.correct mining).1, (Mining.correct mining).2 env rfl weightsOk_pool⟩

end Rcoin
