/-
  Which blocks to ask a peer for: the missing ones between the last block it has in common with
  us and the best one it is known to have.

  Source: FindNextBlocksToDownload in src/net_processing.cpp.  As a result, `none` is the use of
  a null pointer; an `int` wraps.
-/
import Rcoin.Chain.Locator
import Rcoin.Net.BlocksInFlight

namespace Rcoin

open AList Forest List Option

def BLOCK_DOWNLOAD_WINDOW : Nat := 1024

def isWitnessEnabled (_pindexPrev : Option Uint256) : Bool := true

/-- What a `CNodeState` says of the blocks that the peer has. -/
structure CNodeBlocks where
  pindexBestKnownBlock : Option Uint256
  hashLastUnknownBlock : Uint256
  pindexLastCommonBlock : Option Uint256
  fHaveWitness : Bool

/-- The variables of a search. -/
structure Fetch where
  pindexLastCommonBlock : Uint256
  vBlocks : List Uint256
  waitingfor : NodeId
  nodeStaller : NodeId

/-- What a search reads of the node. -/
structure DownloadView where
  mapBlockIndex : BlockMap
  chainActive : CChain
  nMinimumChainWork : Nat
  mapBlocksInFlight : AList fun _ : Uint256 => NodeId × ListIterator

namespace DownloadView

section

variable (d : DownloadView)

def nChainWork (pindex : Uint256) : Nat := (d.mapBlockIndex.lookup pindex).elim 0 (·.nChainWork)

def processBlockAvailability (state : CNodeBlocks) : CNodeBlocks :=
  if state.hashLastUnknownBlock = 0 then state
  else match d.mapBlockIndex.lookup state.hashLastUnknownBlock with
    | none => state
    | some e =>
      if e.nChainWork > 0 then
        { state with
          hashLastUnknownBlock := 0
          pindexBestKnownBlock :=
            if ∀ best, state.pindexBestKnownBlock = some best → e.nChainWork ≥ d.nChainWork best
            then some state.hashLastUnknownBlock else state.pindexBestKnownBlock }
      else state

/-- What `pindexLastCommonBlock` is set to before the search. -/
def lastCommonBlock (state : CNodeBlocks) (best : Uint256) : Option Uint256 := do
  let guess ← state.pindexLastCommonBlock <|>
    d.chainActive.atHeight (min (d.mapBlockIndex.nHeight best) d.chainActive.height)
  (d.mapBlockIndex.lastCommonAncestor guess best).join

variable (nodeid : NodeId) (count : Nat) (fHaveWitness : Bool)

/-- One block of `vToFetch`; with `true` the function returns. -/
def visit (nWindowEnd : Int) (pindex : Uint256) (f : Fetch) : Option (Bool × Fetch) := do
  let e ← d.mapBlockIndex.lookup pindex
  if !e.isValid BLOCK_VALID_TREE then return (true, f)
  else if !fHaveWitness && isWitnessEnabled e.pprev then return (true, f)
  else if e.nStatus.haveData || d.chainActive.contains d.mapBlockIndex pindex then
    return (false, if e.nChainTx ≠ 0 then { f with pindexLastCommonBlock := pindex } else f)
  else match d.mapBlocksInFlight.lookup e.hash with
    | none =>
      if (e.nHeight : Int) > nWindowEnd then
        return (true, if f.vBlocks.length = 0 ∧ f.waitingfor ≠ nodeid
          then { f with nodeStaller := f.waitingfor } else f)
      else
        return (f.vBlocks.length + 1 == count, { f with vBlocks := f.vBlocks ++ [pindex] })
    | some (first, _) =>
      return (false, if f.waitingfor = -1 then { f with waitingfor := first } else f)

def visitAll (nWindowEnd : Int) : List Uint256 → Fetch → Option (Bool × Fetch)
  | [], f => some (false, f)
  | pindex :: vToFetch, f => do
    match ← d.visit nodeid count fHaveWitness nWindowEnd pindex f with
    | (true, f) => some (true, f)
    | (false, f) => visitAll nWindowEnd vToFetch f

/-- The loop that fills `vToFetch` from its end. -/
def fillBack : Nat → Uint256 → List Uint256 → Option (List Uint256)
  | 0, _, vToFetch => some vToFetch
  | i + 1, pindex, vToFetch => do
    let prev ← d.mapBlockIndex.pprev pindex
    fillBack i prev (prev :: vToFetch)

def nToFetch (nMaxHeight : Int) (pindexWalk : Uint256) (f : Fetch) : Int :=
  min (nMaxHeight - d.mapBlockIndex.nHeight pindexWalk)
    (max (((count : Int) - f.vBlocks.length).bmod (2 ^ 32)) 128)

/-- The outer loop; each round goes up by one at least. -/
def fetchLoop (best : Uint256) (nWindowEnd nMaxHeight : Int) :
    Nat → Uint256 → Fetch → Option Fetch
  | fuel, pindexWalk, f =>
    if (d.mapBlockIndex.nHeight pindexWalk : Int) < nMaxHeight then
      match fuel with
      | 0 => none
      | fuel + 1 => do
        let n := d.nToFetch count nMaxHeight pindexWalk f
        let pindexWalk ←
          ← d.mapBlockIndex.getAncestor best (d.mapBlockIndex.nHeight pindexWalk + n)
        let vToFetch ← d.fillBack (n.toNat - 1) pindexWalk [pindexWalk]
        match ← d.visitAll nodeid count fHaveWitness nWindowEnd vToFetch f with
        | (true, f) => some f
        | (false, f) => fetchLoop best nWindowEnd nMaxHeight fuel pindexWalk f
    else some f

def findNextBlocksToDownload (vBlocks : List Uint256) (nodeStaller : NodeId)
    (state : CNodeBlocks) : Option (CNodeBlocks × List Uint256 × NodeId) := do
  if count = 0 then return (state, vBlocks, nodeStaller)
  let state := d.processBlockAvailability state
  match state.pindexBestKnownBlock with
  | none => return (state, vBlocks, nodeStaller)
  | some best =>
    let tip ← d.chainActive.tip
    if d.nChainWork best < d.nChainWork tip ∨ d.nChainWork best < d.nMinimumChainWork then
      return (state, vBlocks, nodeStaller)
    let last ← d.lastCommonBlock state best
    if last = best then
      return ({ state with pindexLastCommonBlock := some last }, vBlocks, nodeStaller)
    let nWindowEnd := Int.bmod (d.mapBlockIndex.nHeight last + BLOCK_DOWNLOAD_WINDOW) (2 ^ 32)
    let nMaxHeight := min (d.mapBlockIndex.nHeight best : Int) ((nWindowEnd + 1).bmod (2 ^ 32))
    let f ← d.fetchLoop nodeid count state.fHaveWitness best nWindowEnd nMaxHeight
      (d.mapBlockIndex.nHeight best) last ⟨last, vBlocks, -1, nodeStaller⟩
    return ({ state with pindexLastCommonBlock := some f.pindexLastCommonBlock }, f.vBlocks,
      f.nodeStaller)

/-- Neither stored, nor in the active chain, nor in flight. -/
def missing (pindex : Uint256) : Bool :=
  (d.mapBlockIndex.lookup pindex).any fun e => !e.nStatus.haveData &&
    !d.chainActive.contains d.mapBlockIndex pindex && (d.mapBlocksInFlight.lookup e.hash).isNone

end

/-! ## The search along the branch -/

section

variable {d : DownloadView} {best : Uint256}

/-- The blocks of the branch of `best` at their heights. -/
structure Branch (d : DownloadView) (best : Uint256) (block : Nat → Uint256) : Prop where
  get : ∀ j ≤ d.mapBlockIndex.nHeight best,
    d.mapBlockIndex.getAncestor best j = some (some (block j))
  height : ∀ j ≤ d.mapBlockIndex.nHeight best, d.mapBlockIndex.nHeight (block j) = j
  mem : ∀ j ≤ d.mapBlockIndex.nHeight best, block j ∈ d.mapBlockIndex
  prev : ∀ j < d.mapBlockIndex.nHeight best,
    d.mapBlockIndex.pprev (block (j + 1)) = some (block j)

theorem not_contains_of_missing {p : Uint256} (h : d.missing p = true) :
    d.chainActive.contains d.mapBlockIndex p = false := by
  obtain ⟨e, -, he⟩ := (Option.any_eq_true _ _).mp h
  rw [Bool.and_eq_true, Bool.and_eq_true] at he
  simpa using he.1.2

variable {block : Nat → Uint256}

theorem Branch.fillBack (h : Branch d best block) (lo n : Nat)
    (hn : lo + n ≤ d.mapBlockIndex.nHeight best) (vToFetch : List Uint256) :
    d.fillBack n (block (lo + n)) vToFetch = some ((range' lo n).map block ++ vToFetch) := by
  induction n generalizing vToFetch with
  | zero => rfl
  | succ n ih =>
    rw [DownloadView.fillBack, ← add_assoc, h.prev _ (by omega), bind_eq_bind,
      bind_some, ih (by omega), range'_1_concat, map_append, append_assoc]
    rfl

variable (nodeid : NodeId) (count : Nat) (fHaveWitness : Bool) (nWindowEnd : Int)

theorem visitAll_append (xs ys : List Uint256) (f : Fetch) :
    d.visitAll nodeid count fHaveWitness nWindowEnd (xs ++ ys) f =
      (d.visitAll nodeid count fHaveWitness nWindowEnd xs f).bind fun r =>
        if r.1 then some r else d.visitAll nodeid count fHaveWitness nWindowEnd ys r.2 := by
  induction xs generalizing f with
  | nil => rfl
  | cons x xs ih =>
    rw [cons_append, visitAll, visitAll]
    cases hv : d.visit nodeid count fHaveWitness nWindowEnd x f with
    | none => rfl
    | some r =>
      obtain ⟨stop, f'⟩ := r
      cases stop with
      | true => rfl
      | false => exact ih f'

theorem Branch.fetchLoop (h : Branch d best block) {nMaxHeight : Int}
    (hmax : nMaxHeight ≤ d.mapBlockIndex.nHeight best) (lo fuel : Nat)
    (hlo : lo ≤ d.mapBlockIndex.nHeight best) (hfuel : nMaxHeight ≤ lo + fuel) (f : Fetch) :
    d.fetchLoop nodeid count fHaveWitness best nWindowEnd nMaxHeight fuel (block lo) f =
      (d.visitAll nodeid count fHaveWitness nWindowEnd
        ((range' (lo + 1) (nMaxHeight - lo).toNat).map block) f).map Prod.snd := by
  induction fuel generalizing lo f with
  | zero =>
    rw [DownloadView.fetchLoop, h.height lo hlo, if_neg (by omega),
      Int.toNat_of_nonpos (by omega)]
    rfl
  | succ fuel ih =>
    rw [DownloadView.fetchLoop, h.height lo hlo]
    split
    next hless =>
      obtain ⟨n, hn⟩ : ∃ n : Nat, d.nToFetch count nMaxHeight (block lo) f = (n + 1 : Nat) := by
        refine ⟨(d.nToFetch count nMaxHeight (block lo) f).toNat - 1, ?_⟩
        rw [nToFetch, h.height lo hlo]
        omega
      -- a batch of `n + 1` blocks, filled in from its end
      have hle : lo + (n + 1) ≤ nMaxHeight := by
        rw [nToFetch, h.height lo hlo] at hn
        omega
      have hsplit : (nMaxHeight - lo).toNat =
          (n + 1) + (nMaxHeight - (lo + n + 1 : Nat)).toNat := by omega
      have hget := h.get (lo + n + 1) (by omega)
      have hfill := h.fillBack (lo + 1) n (by omega) [block (lo + n + 1)]
      have hbatch : (range' (lo + 1) n).map block ++ [block (lo + n + 1)] =
          (range' (lo + 1) (n + 1)).map block := by
        rw [range'_1_concat, map_append, add_right_comm lo 1 n]
        rfl
      rw [hbatch, add_right_comm lo 1 n] at hfill
      rw [hsplit, ← range'_append_1, map_append, visitAll_append, hn]
      dsimp only
      rw [← Int.natCast_add, ← Nat.add_assoc, hget, Int.toNat_natCast, Nat.add_sub_cancel]
      simp only [bind_eq_bind, bind_some, hfill]
      cases hvisit : d.visitAll nodeid count fHaveWitness nWindowEnd
        ((range' (lo + 1) (n + 1)).map block) f with
      | none => rfl
      | some r =>
        obtain ⟨stop, f'⟩ := r
        cases stop with
        | true => rfl
        | false =>
          have hrest := ih (lo + n + 1) (by omega) (by omega) f'
          rw [add_right_comm lo 1 (n + 1)]
          exact hrest
    next hmore =>
      rw [Int.toNat_of_nonpos (by omega)]
      rfl

variable {count}

theorem visit_spec {pindex : Uint256} (hmem : pindex ∈ d.mapBlockIndex) (f : Fetch)
    (hcount : f.vBlocks.length < count) :
    ∃ stop f', d.visit nodeid count fHaveWitness nWindowEnd pindex f = some (stop, f') ∧
      f'.vBlocks.length ≤ count ∧ (stop = false → f'.vBlocks.length < count) ∧
      ((stop = true ∧ f'.vBlocks = f.vBlocks ∧
          f'.pindexLastCommonBlock = f.pindexLastCommonBlock) ∨
        (f'.vBlocks = f.vBlocks ++ [pindex].filter d.missing ∧
          (f'.pindexLastCommonBlock = f.pindexLastCommonBlock ∨
            f'.pindexLastCommonBlock = pindex) ∧
          (d.missing pindex = true → (d.mapBlockIndex.nHeight pindex : Int) ≤ nWindowEnd))) := by
  obtain ⟨e, he⟩ := isSome_iff_exists.mp (lookup_isSome.mpr hmem)
  have hmissing : d.missing pindex = (!e.nStatus.haveData &&
      !d.chainActive.contains d.mapBlockIndex pindex &&
      (d.mapBlocksInFlight.lookup e.hash).isNone) := by
    rw [missing, he, any_some]
  have hheight := BlockMap.nHeight_of_lookup he
  simp only [visit, he, bind_eq_bind, bind_some, filter_singleton, hmissing,
    hheight]
  split
  · exact ⟨true, f, rfl, hcount.le, nofun, .inl ⟨rfl, rfl, rfl⟩⟩
  split
  · exact ⟨true, f, rfl, hcount.le, nofun, .inl ⟨rfl, rfl, rfl⟩⟩
  split
  next hhave =>
    -- on disk or in the chain: at most the last common block moves
    have hnone : (!e.nStatus.haveData &&
        !d.chainActive.contains d.mapBlockIndex pindex) = false := by
      rw [← Bool.not_or, hhave, Bool.not_true]
    rw [hnone, Bool.false_and, cond_false, append_nil]
    refine ⟨false, _, rfl, ?_⟩
    split
    · exact ⟨hcount.le, fun _ => hcount, .inr ⟨rfl, .inr rfl, nofun⟩⟩
    · exact ⟨hcount.le, fun _ => hcount, .inr ⟨rfl, .inl rfl, nofun⟩⟩
  next hnot =>
    have hboth : (!e.nStatus.haveData &&
        !d.chainActive.contains d.mapBlockIndex pindex) = true := by
      rw [← Bool.not_or, Bool.eq_false_of_not_eq_true hnot, Bool.not_false]
    rw [hboth, Bool.true_and]
    cases hflight : d.mapBlocksInFlight.lookup e.hash with
    | none =>
      dsimp only
      split
      next habove =>
        -- beyond the window, where only the staller is noted
        refine ⟨true, _, rfl, ?_⟩
        split <;> exact ⟨hcount.le, nofun, .inl ⟨rfl, rfl, rfl⟩⟩
      next hin =>
        refine ⟨_, _, rfl, ?_, ?_, .inr ⟨rfl, .inl rfl, fun _ => not_lt.mp hin⟩⟩
        · rw [length_append]
          exact hcount
        · intro hgo
          have hne := ne_of_beq_false hgo
          rw [length_append, length_singleton]
          omega
    | some x =>
      rw [isNone_some, cond_false, append_nil]
      refine ⟨false, _, rfl, ?_⟩
      split <;> exact ⟨hcount.le, fun _ => hcount, .inr ⟨rfl, .inl rfl, nofun⟩⟩

theorem visitAll_spec {ps : List Uint256} (hmem : ∀ p ∈ ps, p ∈ d.mapBlockIndex) (f : Fetch)
    (hcount : f.vBlocks.length < count) :
    ∃ stop f' passed rest, d.visitAll nodeid count fHaveWitness nWindowEnd ps f = some (stop, f') ∧
      ps = passed ++ rest ∧ f'.vBlocks = f.vBlocks ++ passed.filter d.missing ∧
      f'.vBlocks.length ≤ count ∧
      (f'.pindexLastCommonBlock = f.pindexLastCommonBlock ∨ f'.pindexLastCommonBlock ∈ passed) ∧
      ∀ p ∈ passed, d.missing p = true → (d.mapBlockIndex.nHeight p : Int) ≤ nWindowEnd := by
  induction ps generalizing f with
  | nil =>
    exact ⟨false, f, [], [], rfl, rfl, (append_nil _).symm, hcount.le, .inl rfl, nofun⟩
  | cons p ps ih =>
    obtain ⟨stop, f1, hvisit, hle, hless, hcase⟩ := visit_spec nodeid fHaveWitness
      nWindowEnd (hmem p mem_cons_self) f hcount
    rw [visitAll, hvisit]
    rcases hcase with ⟨rfl, hblocks, hlast⟩ | ⟨hblocks, hlast, hheight⟩
    · exact ⟨true, f1, [], p :: ps, rfl, rfl, by rw [hblocks]; exact (append_nil _).symm, hle,
        .inl hlast, nofun⟩
    cases stop with
    | true =>
      refine ⟨true, f1, [p], ps, rfl, rfl, hblocks, hle, ?_, ?_⟩
      · rwa [mem_singleton]
      · rwa [forall_mem_singleton]
    | false =>
      obtain ⟨stop, f', passed, rest, hrun, rfl, hblocks', hle', hlast', hheight'⟩ :=
        ih (fun q hq => hmem q (mem_cons_of_mem _ hq)) f1 (hless rfl)
      refine ⟨stop, f', p :: passed, rest, hrun, rfl, ?_, hle', ?_, ?_⟩
      · rw [hblocks', hblocks, append_assoc, ← filter_append]
        rfl
      · rcases hlast' with heq | hin
        · rw [heq]
          exact hlast.imp_right fun h => mem_cons.mpr (.inl h)
        · exact .inr (mem_cons_of_mem _ hin)
      · exact forall_mem_cons.mpr ⟨hheight, hheight'⟩

end

end DownloadView

/-! ## What is asked for -/

theorem bmod_le {x : Int} (h : -2 ^ 31 ≤ x) : x.bmod (2 ^ 32) ≤ x := by
  by_cases hx : x < 2 ^ 31
  · rw [Int.bmod_eq_of_le (by omega) (by omega)]
  · have hlt := Int.bmod_lt (x := x) (m := 2 ^ 32) (by decide)
    omega

namespace BlockTree

open DownloadView

variable {t : BlockTree} {d : DownloadView} {best start tip : Uint256}

/-- What a search from `start` towards `best` gives.  It may leave out what is missing below
    `start` itself, but only when that one is not in the active chain. -/
structure NextBlocks (t : BlockTree) (d : DownloadView) (count : Nat)
    (best start last : Uint256) (vBlocks : List Uint256) : Prop where
  length : vBlocks.length ≤ count
  ascending : vBlocks.Pairwise fun a b => t.forest.height a < t.forest.height b
  between : ∀ p ∈ vBlocks, t.forest.IsAncestor start p ∧ t.forest.IsAncestor p best ∧
    t.forest.height p ≤ t.forest.height start + BLOCK_DOWNLOAD_WINDOW
  missing : ∀ p ∈ vBlocks, d.missing p = true
  complete : ∀ b ∈ vBlocks, ∀ p, t.forest.IsAncestor p best →
    t.forest.height p < t.forest.height b → d.missing p = true → p ∈ vBlocks ∨
      (t.forest.IsAncestor p start ∧ d.chainActive.contains t.map start = false)
  lastAbove : t.forest.IsAncestor start last
  lastBelow : t.forest.IsAncestor last best

theorem exists_branch (hd : d.mapBlockIndex = t.map) (hbest : best ∈ t.map) :
    ∃ block, DownloadView.Branch d best block ∧ (∀ j ≤ t.forest.height best,
      t.forest.IsAncestor (block j) best ∧ t.forest.height (block j) = j) ∧
      ∀ p, t.forest.IsAncestor p best → block (t.forest.height p) = p := by
  have hat : ∀ j ≤ t.forest.height best, t.forest.ancestorAt j best =
      some ((t.forest.ancestorAt j best).getD 0) := by
    intro j hj
    obtain ⟨a, ha, -⟩ := t.forest.exists_ancestorAt hj
    rw [ha, getD_some]
  have hheight := fun j hj => (t.forest.height_ancestorAt (hat j hj)).1
  refine ⟨fun j => (t.forest.ancestorAt j best).getD 0, ⟨?_, ?_, ?_, ?_⟩,
    fun j hj => ⟨isAncestor_of_ancestorAt (hat j hj), hheight j hj⟩, fun p hp => ?_⟩
  · intro j hj
    rw [hd] at hj ⊢
    rw [t.getAncestor_eq hbest, if_neg (by omega), Int.toNat_natCast]
    exact congrArg some (hat j hj)
  · intro j hj
    rw [hd] at hj ⊢
    exact hheight j hj
  · intro j hj
    rw [hd] at hj ⊢
    exact t.mem_of_isAncestor hbest (isAncestor_of_ancestorAt (hat j hj))
  · intro j hj
    rw [hd] at hj ⊢
    obtain ⟨p, hp, -, hpj⟩ := t.exists_parent (hheight (j + 1) hj)
    have hanc := (isAncestor_parent hp).trans (isAncestor_of_ancestorAt (hat _ hj))
    rw [isAncestor_iff, hpj] at hanc
    rw [hanc]
    exact hp
  · exact congrArg (Option.getD · 0) (isAncestor_iff.mp hp)

theorem nextBlocks_of_fetchLoop (hd : d.mapBlockIndex = t.map)
    (hc : ActiveChain t d.chainActive tip) (hbest : best ∈ t.map)
    (hstart : t.forest.IsAncestor start best) {count : Nat} (hcount : 0 < count)
    (nodeid nodeStaller : NodeId) (fHaveWitness : Bool) {nWindowEnd nMaxHeight : Int}
    (hmax : nMaxHeight ≤ t.forest.height best)
    (hwindow : nWindowEnd ≤ t.forest.height start + BLOCK_DOWNLOAD_WINDOW) :
    ∃ f, d.fetchLoop nodeid count fHaveWitness best nWindowEnd nMaxHeight
        (d.mapBlockIndex.nHeight best) start ⟨start, [], -1, nodeStaller⟩ = some f ∧
      NextBlocks t d count best start f.pindexLastCommonBlock f.vBlocks := by
  obtain ⟨block, hbranch, hblock, hof⟩ := exists_branch hd hbest
  have hlo := hstart.height_le
  have hheightBest : d.mapBlockIndex.nHeight best = t.forest.height best := by
    rw [hd]
    rfl
  have hrounds := hbranch.fetchLoop nodeid count fHaveWitness nWindowEnd (hheightBest ▸ hmax)
    (t.forest.height start) (d.mapBlockIndex.nHeight best) (by omega) (by omega)
    ⟨start, [], -1, nodeStaller⟩
  rw [hof start hstart] at hrounds
  have hmem : ∀ p ∈ (range' (t.forest.height start + 1)
      (nMaxHeight - t.forest.height start).toNat).map block, p ∈ d.mapBlockIndex := by
    intro p hp
    obtain ⟨j, hj, rfl⟩ := mem_map.mp hp
    rw [mem_range'_1] at hj
    exact hbranch.mem j (by omega)
  obtain ⟨stop, f, passed, rest, hrun, hsplit, hblocks, hle, hlast, hheights⟩ :=
    visitAll_spec nodeid fHaveWitness nWindowEnd hmem ⟨start, [], -1, nodeStaller⟩ hcount
  obtain ⟨js, js', hjs, rfl, -⟩ := map_eq_append_iff.mp hsplit
  obtain ⟨k, hk, rfl, -⟩ := range'_eq_append_iff.mp hjs
  have hpassed : ∀ p ∈ (range' (t.forest.height start + 1) k).map block,
      t.forest.IsAncestor p best ∧ t.forest.height start < t.forest.height p ∧
        t.forest.height p ≤ t.forest.height start + k := by
    intro p hp
    obtain ⟨j, hj, rfl⟩ := mem_map.mp hp
    rw [mem_range'_1] at hj
    obtain ⟨hanc, hheight⟩ := hblock j (by omega)
    exact ⟨hanc, by omega, by omega⟩
  have habove : ∀ p ∈ (range' (t.forest.height start + 1) k).map block,
      t.forest.IsAncestor start p := fun p hp =>
    hstart.of_height_le (hpassed p hp).1 (hpassed p hp).2.1.le
  rw [nil_append] at hblocks
  refine ⟨f, by rw [hrounds, hrun, map_some], hle, ?_, fun p hp => ?_, fun p hp => ?_,
    fun b hb p hp hless hmissing => ?_, ?_, ?_⟩
  · rw [hblocks]
    refine List.Pairwise.filter _ (pairwise_map.mpr ?_)
    refine Pairwise.imp_of_mem (fun {i j} hi hj hij => ?_) pairwise_lt_range'
    rw [mem_range'_1] at hi hj
    rw [(hblock i (by omega)).2, (hblock j (by omega)).2]
    exact hij
  · rw [hblocks, mem_filter] at hp
    have hin := hheights p hp.1 hp.2
    rw [hd] at hin
    have hin : (t.forest.height p : Int) ≤ nWindowEnd := hin
    exact ⟨habove p hp.1, (hpassed p hp.1).1, by omega⟩
  · rw [hblocks, mem_filter] at hp
    exact hp.2
  · rw [hblocks, mem_filter] at hb ⊢
    by_cases hhigh : t.forest.height start < t.forest.height p
    · have hb' := (hpassed b hb.1).2.2
      refine .inl ⟨mem_map.mpr ⟨t.forest.height p, ?_, hof p hp⟩, hmissing⟩
      rw [mem_range'_1]
      omega
    · refine .inr ⟨hp.of_height_le hstart (Nat.le_of_not_lt hhigh), ?_⟩
      -- below a block of the active chain nothing is missing
      rw [← Bool.not_eq_true, hc.contains_iff]
      intro hstartTip
      have hbelow := hp.of_height_le hstart (Nat.le_of_not_lt hhigh)
      have hin := hc.contains_iff.mpr (hbelow.trans hstartTip)
      rw [← hd, not_contains_of_missing hmissing] at hin
      cases hin
  · rcases hlast with heq | hin
    · rw [heq]
      exact .refl _
    · exact habove _ hin
  · rcases hlast with heq | hin
    · rw [heq]
      exact hstart
    · exact (hpassed _ hin).1

variable {state : CNodeBlocks}

theorem lastCommonBlock_spec (hd : d.mapBlockIndex = t.map) (hc : ActiveChain t d.chainActive tip)
    (hbest : best ∈ t.map) (hlast : ∀ p, state.pindexLastCommonBlock = some p → p ∈ t.map) :
    ∃ start, d.lastCommonBlock state best = some start ∧ t.forest.IsAncestor start best := by
  have hguess : ∃ guess ∈ t.map, (state.pindexLastCommonBlock <|>
      d.chainActive.atHeight (min (t.map.nHeight best) d.chainActive.height)) = some guess := by
    cases hl : state.pindexLastCommonBlock with
    | some p => exact ⟨p, hlast p hl, rfl⟩
    | none =>
      obtain ⟨a, ha, -⟩ := t.forest.exists_ancestorAt
        (min_le_right (t.map.nHeight best) (t.forest.height tip))
      refine ⟨a, t.mem_of_isAncestor hc.mem (isAncestor_of_ancestorAt ha), ?_⟩
      have hmin : min (t.map.nHeight best : Int) (t.forest.height tip) =
          (min (t.map.nHeight best) (t.forest.height tip) : Nat) := by omega
      rw [hc.height_eq, hmin, hc.atHeight_eq, ha]
      rfl
  obtain ⟨guess, hmem, heq⟩ := hguess
  obtain ⟨f, hf, hfork⟩ := t.lastCommonAncestor_spec hmem hbest
  refine ⟨f, ?_, hfork.right⟩
  rw [lastCommonBlock, hd, heq]
  exact congrArg join hf

theorem processBlockAvailability_last (state : CNodeBlocks) :
    (d.processBlockAvailability state).pindexLastCommonBlock = state.pindexLastCommonBlock := by
  rw [processBlockAvailability]
  split
  · rfl
  split
  · rfl
  · split <;> rfl

theorem processBlockAvailability_mem (hd : d.mapBlockIndex = t.map)
    (hbest : ∀ p, state.pindexBestKnownBlock = some p → p ∈ t.map) :
    ∀ p, (d.processBlockAvailability state).pindexBestKnownBlock = some p → p ∈ t.map := by
  intro p hp
  rw [processBlockAvailability] at hp
  split at hp
  · exact hbest p hp
  split at hp
  · exact hbest p hp
  next e he =>
    split at hp
    · dsimp only at hp
      split at hp
      · cases hp
        rw [← hd]
        exact lookup_isSome.mp (by rw [he]; rfl)
      · exact hbest p hp
    · exact hbest p hp

end BlockTree

/-- A peer that has as much work as the tip and the minimum is asked for the lowest missing blocks
    of its branch, from the last common block on; another one for none. -/
theorem findNextBlocksToDownload_spec (t : BlockTree) (earlier : List (Option t.Block))
    (tip : t.Block) (nMinimumChainWork : Nat)
    (mapBlocksInFlight : AList fun _ : Uint256 => NodeId × ListIterator)
    (nodeid nodeStaller : NodeId) (count : Nat) (hcount : 0 < count) (best last : Option t.Block)
    (hashLastUnknownBlock : Uint256) (fHaveWitness : Bool) :
    let d : DownloadView :=
      ⟨t.map, t.chain (earlier ++ [some tip]), nMinimumChainWork, mapBlocksInFlight⟩
    let state := d.processBlockAvailability
      ⟨best.map Subtype.val, hashLastUnknownBlock, last.map Subtype.val, fHaveWitness⟩
    ∃ state' vBlocks nodeStaller', d.findNextBlocksToDownload nodeid count [] nodeStaller
        ⟨best.map Subtype.val, hashLastUnknownBlock, last.map Subtype.val, fHaveWitness⟩ =
          some (state', vBlocks, nodeStaller') ∧
      state'.pindexBestKnownBlock = state.pindexBestKnownBlock ∧
      ((vBlocks = [] ∧ ∀ best, state.pindexBestKnownBlock = some best →
          d.nChainWork best < d.nChainWork tip.1 ∨ d.nChainWork best < nMinimumChainWork) ∨
        ∃ best start last, state.pindexBestKnownBlock = some best ∧
          d.lastCommonBlock state best = some start ∧ state'.pindexLastCommonBlock = some last ∧
          t.NextBlocks d count best start last vBlocks) := by
  intro d state
  have hc : ActiveChain t d.chainActive tip.1 := t.chain_spec earlier tip
  have hmem : ∀ p, state.pindexBestKnownBlock = some p → p ∈ t.map := by
    refine BlockTree.processBlockAvailability_mem (d := d) rfl fun p hp => ?_
    obtain ⟨x, -, rfl⟩ := Option.map_eq_some_iff.mp hp
    exact x.2
  have hlast : ∀ p, state.pindexLastCommonBlock = some p → p ∈ t.map := by
    intro p hp
    rw [BlockTree.processBlockAvailability_last] at hp
    obtain ⟨x, -, rfl⟩ := Option.map_eq_some_iff.mp hp
    exact x.2
  have hstate : d.processBlockAvailability ⟨best.map Subtype.val, hashLastUnknownBlock,
    last.map Subtype.val, fHaveWitness⟩ = state := rfl
  rw [DownloadView.findNextBlocksToDownload, if_neg (Nat.ne_of_gt hcount), hstate]
  cases hb : state.pindexBestKnownBlock with
  | none =>
    simp only [hb]
    exact ⟨state, [], nodeStaller, rfl, hb, .inl ⟨rfl, nofun⟩⟩
  | some best =>
    simp only [hb, hc.tip_eq, bind_eq_bind, bind_some]
    split
    next hwork =>
      -- nothing of interest at this peer
      refine ⟨state, [], nodeStaller, rfl, hb, .inl ⟨rfl, fun best' hbest' => ?_⟩⟩
      cases hbest'
      exact hwork
    next hwork =>
      obtain ⟨start, hstart, hanc⟩ := BlockTree.lastCommonBlock_spec (d := d) rfl hc (hmem best hb)
        hlast
      rw [hstart]
      simp only [bind_some]
      split
      next heq =>
        -- all its blocks are taken for ours
        subst heq
        refine ⟨_, [], nodeStaller, rfl, rfl, .inr ⟨start, start, start, rfl, hstart, rfl, ?_⟩⟩
        exact ⟨Nat.zero_le _, .nil, nofun, nofun, nofun, .refl _, .refl _⟩
      next hne =>
        have hwindow : Int.bmod (t.map.nHeight start + BLOCK_DOWNLOAD_WINDOW) (2 ^ 32) ≤
            t.forest.height start + BLOCK_DOWNLOAD_WINDOW := bmod_le (by omega)
        obtain ⟨f, hf, hnext⟩ := BlockTree.nextBlocks_of_fetchLoop (d := d) rfl hc (hmem best hb)
          hanc hcount nodeid nodeStaller state.fHaveWitness (Int.min_le_left _ ((Int.bmod
            (t.map.nHeight start + BLOCK_DOWNLOAD_WINDOW) (2 ^ 32) + 1).bmod (2 ^ 32))) hwindow
        refine ⟨_, f.vBlocks, f.nodeStaller, congrArg (Option.bind · _) hf, rfl,
          .inr ⟨best, start, f.pindexLastCommonBlock, rfl, hstart, rfl, hnext⟩⟩

/-- The active chain ends with 10; neither 8 nor 9 has data. -/
def forkView : DownloadView := ⟨forkTree.map, forkTree.chain [some ⟨10, by decide⟩], 0, ∅⟩

theorem findNextBlocksToDownload_fork :
    ∃ state', forkView.findNextBlocksToDownload 3 16 [] (-1) ⟨some 9, 0, none, true⟩ =
      some (state', [8, 9], -1) := by
  obtain ⟨state', vBlocks, nodeStaller', hrun, -⟩ := findNextBlocksToDownload_spec forkTree []
    ⟨10, by decide⟩ 0 ∅ 3 (-1) 16 (by decide) (some ⟨9, by decide⟩) none 0 true
  have heval : forkView.findNextBlocksToDownload 3 16 [] (-1) ⟨some 9, 0, none, true⟩ =
      some (⟨some 9, 0, some 7, true⟩, [8, 9], -1) := rfl
  cases heval.symm.trans hrun
  exact ⟨_, hrun⟩

/-- Nothing invalid or in flight stops the search, but it begins above the last common block,
    which is itself missing. -/
theorem findNextBlocksToDownload_omits :
    forkView.findNextBlocksToDownload 3 16 [] (-1) ⟨some 9, 0, some 8, true⟩ =
        some (⟨some 9, 0, some 8, true⟩, [9], -1) ∧
      forkView.missing 8 = true ∧ forkTree.forest.IsAncestor 8 9 ∧
      forkTree.forest.height 8 < forkTree.forest.height 9 := by
  have hparent : forkTree.forest.parent 9 = some 8 := rfl
  refine ⟨rfl, rfl, isAncestor_parent hparent, ?_⟩
  exact Nat.lt_of_succ_le (forkTree.forest.height_parent hparent).ge

end Rcoin
