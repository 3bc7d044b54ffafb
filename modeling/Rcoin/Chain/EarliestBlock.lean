/-
  `FindEarliestAtLeast`: a binary search along the active chain by the maximum of the
  block times so far, which `AddToBlockIndex` keeps in each entry.  The times themselves
  go up and down along a chain; their maximum so far does not, so that the search is right.

  Source: CChain in src/chain.{h,cpp}, CChainState::AddToBlockIndex in src/validation.cpp.
-/
import Rcoin.Chain.Arrival
import Rcoin.Chain.Locator
import Rcoin.Lib.LowerBound

namespace Rcoin

open BlockMap Forest AList List Option ChainState CChain LowerBound

def CBlockIndexEntry.getBlockTimeMax (e : CBlockIndexEntry) : Int := e.nTimeMax

namespace CChain

/-- `FindEarliestAtLeast`; the inner `none` is the null pointer, the outer one its use. -/
def findEarliestAtLeast (m : BlockMap) (c : CChain) (nTime : Int) : Option (Option Uint256) := do
  let lower ← lowerBound (fun i => do
    let pBlock ← c.getD i none
    let e ← m.lookup pBlock
    return decide (e.getBlockTimeMax < nTime)) c.length
  if lower = c.length then some none else some (c.getD lower none)

end CChain

/-! ## Runs -/

/-- The block index and the active chain, as headers come, other fields of the entries are
    written, and the chain is set to blocks of the index. -/
inductive ChainIndexed : BlockMap → CChain → Prop
  | start : ChainIndexed ∅ []
  | addToBlockIndex {s s' : ChainState} {c : CChain} {block : CBlockHeader} {k : Uint256}
      (reached : ChainIndexed s.mapBlockIndex c) (added : s.addToBlockIndex block = some (k, s')) :
      ChainIndexed s'.mapBlockIndex c
  | other {m m' : BlockMap} {c : CChain} (reached : ChainIndexed m c)
      (same : ∀ k, (m'.lookup k).map headerFields = (m.lookup k).map headerFields) : ChainIndexed m' c
  | setTip {m : BlockMap} {c : CChain} {tip : Option Uint256} (reached : ChainIndexed m c)
      (known : ∀ k, tip = some k → k ∈ m) : ChainIndexed m (c.setTip m tip)

/-- The chain is empty, or ends at a block of the index above all its ancestors. -/
def EndsAtBlock {m : BlockMap} (h : m.TreeOk) (c : CChain) : Prop :=
  c = [] ∨ ∃ tip ∈ m, c.length = h.forest.height tip + 1 ∧
    ∀ j ≤ h.forest.height tip, c.getD j none = h.forest.ancestorAt j tip

/-- What holds of the index and the chain at any time. -/
structure ChainIndexedOk (m : BlockMap) (c : CChain) : Prop where
  tree : m.TreeOk
  derived : ∀ k e, m.lookup k = some e → EntryDerived m tree e
  chain : EndsAtBlock tree c

section

variable {m m' : BlockMap} {c : CChain}

theorem EndsAtBlock.closed {h : m.TreeOk} (hc : EndsAtBlock h c) : c.Closed h := by
  rcases hc with rfl | ⟨tip, -, hlen, hblock⟩
  · exact fun _ _ hx => nomatch hx
  · exact closed_of_ancestors hlen hblock

theorem EndsAtBlock.setTip {h : m.TreeOk} (hc : EndsAtBlock h c) {tip : Option Uint256}
    (htip : ∀ k, tip = some k → k ∈ m) : EndsAtBlock h (c.setTip m tip) := by
  cases tip with
  | none => exact .inl rfl
  | some k => exact .inr ⟨k, htip k rfl, setTip_ancestors h hc.closed k⟩

theorem ChainIndexedOk.start : ChainIndexedOk ∅ [] := ⟨TreeOk.empty, nofun, .inl rfl⟩

theorem ChainIndexedOk.add (h : ChainIndexedOk m c) {block : CBlockHeader} {e : CBlockIndexEntry}
    (hnew : block.hash ∉ m) (hentry : newEntry m block = some e) :
    ChainIndexedOk (insert block.hash e m) c := by
  have hskip : SkipOk m h.tree := fun k e skip he hs => by rw [← (h.derived k e he).skip, hs]
  obtain ⟨e', hentry', hhash, -, hparent, hroot, hderived, -⟩ :=
    newEntry_derived h.tree hskip block
  obtain rfl := some.inj (hentry'.symm.trans hentry)
  have hpm : ∀ p, e'.pprev = some p → p ∈ m := by
    intro p hp
    obtain ⟨q, hq, -⟩ := hparent p hp
    exact lookup_isSome.mp (by rw [hq]; rfl)
  have htree := h.tree.insert hnew hhash hparent hroot
  refine ⟨htree, fun k e he => derived_insert h.derived htree hnew hpm hderived he, ?_⟩
  rcases h.chain with rfl | ⟨tip, htip, hlen, hblock⟩
  · exact .inl rfl
  · have hne : tip ≠ block.hash := fun heq => hnew (heq ▸ htip)
    have hheight : htree.forest.height tip = h.tree.forest.height tip :=
      h.tree.height_insert htree hne
    refine .inr ⟨tip, (mem_insert _).mpr (.inr htip), hheight ▸ hlen, fun j hj => ?_⟩
    rw [h.tree.ancestorAt_insert htree hnew htip, hblock j (hheight ▸ hj)]

theorem ChainIndexedOk.other (h : ChainIndexedOk m c)
    (hsame : ∀ k, (m'.lookup k).map headerFields = (m.lookup k).map headerFields) :
    ChainIndexedOk m' c := by
  have hblocks : m.SameBlocks m' := by
    intro x
    have hx := congrArg (Option.map fun t => t.1) (hsame x)
    rw [Option.map_map, Option.map_map] at hx
    exact hx.symm
  have htree := hblocks.treeOk h.tree
  have hforest := hblocks.forest_eq h.tree htree
  refine ⟨htree, fun k e he => EntryDerived.of_headerFields hsame h.derived htree he, ?_⟩
  rcases h.chain with rfl | ⟨tip, htip, hlen, hblock⟩
  · exact .inl rfl
  · exact .inr ⟨tip, hblocks.mem_iff.mp htip, hforest ▸ hlen, hforest ▸ hblock⟩

theorem ChainIndexed.ok (h : ChainIndexed m c) : ChainIndexedOk m c := by
  induction h with
  | start => exact .start
  | @addToBlockIndex s s' c block k _ added ih =>
    rw [ChainState.addToBlockIndex] at added
    split at added
    next =>
      cases added
      exact ih
    next hnew =>
      obtain ⟨e, hentry, hadded⟩ := bind_eq_some_iff.mp added
      cases hadded
      exact ih.add hnew hentry
  | other _ same ih => exact ih.other same
  | setTip _ known ih => exact ⟨ih.tree, ih.derived, ih.chain.setTip known⟩

end

/-! ## The times along the chain -/

namespace CChain

/-- The header time of the block at a height. -/
def timeAt (m : BlockMap) (c : CChain) (j : Nat) : Nat := (c.getD j none).elim 0 (m.read (·.nTime))

def timeMaxAt (m : BlockMap) (c : CChain) (j : Nat) : Nat :=
  (c.getD j none).elim 0 (m.read (·.nTimeMax))

end CChain

section

variable {m : BlockMap} {c : CChain} {j : Nat}

theorem EndsAtBlock.exists_entry {h : m.TreeOk} (hc : EndsAtBlock h c) (hj : j < c.length) :
    ∃ k e, c.getD j none = some k ∧ m.lookup k = some e ∧
      e.pprev = if j = 0 then none else c.getD (j - 1) none := by
  rcases hc with rfl | ⟨tip, htip, hlen, hblock⟩
  · exact absurd hj (Nat.not_lt_zero j)
  obtain ⟨k, hk, hheight⟩ := h.forest.exists_ancestorAt (k := tip) (h := j) (by omega)
  obtain ⟨n, hn⟩ := isAncestor_of_ancestorAt hk
  obtain ⟨e, he⟩ := isSome_iff_exists.mp (lookup_isSome.mpr (h.mem_of_up htip hn))
  have hpprev : h.forest.parent k = e.pprev := pprev_of_lookup he
  refine ⟨k, e, (hblock j (by omega)).trans hk, he, ?_⟩
  rw [← hpprev]
  split
  next hzero =>
    cases hp : h.forest.parent k with
    | none => rfl
    | some p =>
      have := h.forest.height_parent hp
      omega
  next hpos =>
    obtain ⟨p, hp, -, hpn⟩ := h.exists_parent (k := k) (n := j - 1) (by omega)
    rw [hp, hblock (j - 1) (by omega), h.forest.ancestorAt_trans hk (Nat.sub_le j 1),
      h.forest.ancestorAt_parent hp (by omega), h.forest.ancestorAt_eq_self hpn]

theorem ChainIndexedOk.timeMaxAt_step (h : ChainIndexedOk m c) (hj : j < c.length) :
    c.timeMaxAt m j = max (if j = 0 then 0 else c.timeMaxAt m (j - 1)) (c.timeAt m j) := by
  obtain ⟨k, e, hk, he, hpprev⟩ := h.chain.exists_entry hj
  rw [timeMaxAt, timeAt, hk, elim_some, elim_some, read_of_lookup he, read_of_lookup he,
    (h.derived k e he).timeMax, readPrev, hpprev]
  by_cases hzero : j = 0
  · rw [if_pos hzero, if_pos hzero, elim_none]
  · rw [if_neg hzero, if_neg hzero, timeMaxAt]

theorem ChainIndexedOk.isGreatest_timeMaxAt (h : ChainIndexedOk m c) (hj : j < c.length) :
    IsGreatest (Set.image (c.timeAt m) (Set.Iic j)) (c.timeMaxAt m j) := by
  induction j with
  | zero =>
    have hstep := h.timeMaxAt_step hj
    rw [if_pos rfl, Nat.zero_max] at hstep
    rw [hstep]
    refine ⟨⟨0, Set.mem_Iic.mpr le_rfl, rfl⟩, ?_⟩
    rintro x ⟨i, hi, rfl⟩
    rw [Nat.le_zero.mp (Set.mem_Iic.mp hi)]
  | succ j ih =>
    obtain ⟨hattained, hupper⟩ := ih (by omega)
    have hstep := h.timeMaxAt_step hj
    rw [if_neg (Nat.succ_ne_zero j), Nat.add_sub_cancel] at hstep
    rw [hstep]
    constructor
    · rcases max_cases (c.timeMaxAt m j) (c.timeAt m (j + 1)) with ⟨heq, -⟩ | ⟨heq, -⟩
      · obtain ⟨i, hi, hval⟩ := hattained
        exact ⟨i, Set.mem_Iic.mpr (by have := Set.mem_Iic.mp hi; omega), hval.trans heq.symm⟩
      · exact ⟨j + 1, Set.mem_Iic.mpr le_rfl, heq.symm⟩
    · rintro x ⟨i, hi, rfl⟩
      rcases Nat.lt_or_eq_of_le (Set.mem_Iic.mp hi) with hlt | rfl
      · exact le_max_of_le_left (hupper ⟨i, Set.mem_Iic.mpr (by omega), rfl⟩)
      · exact le_max_right _ _

theorem ChainIndexedOk.timeMaxAt_mono (h : ChainIndexedOk m c) {i : Nat} (hij : i ≤ j)
    (hj : j < c.length) : c.timeMaxAt m i ≤ c.timeMaxAt m j := by
  obtain ⟨x, hx, hval⟩ := (h.isGreatest_timeMaxAt (lt_of_le_of_lt hij hj)).1
  rw [← hval]
  exact (h.isGreatest_timeMaxAt hj).2 ⟨x, Set.mem_Iic.mpr (le_trans (Set.mem_Iic.mp hx) hij), rfl⟩

theorem ChainIndexedOk.findEarliestAtLeast_spec (h : ChainIndexedOk m c) (nTime : Int) :
    ∃ r, c.findEarliestAtLeast m nTime = some (c.getD r none) ∧ r ≤ c.length ∧
      (∀ i < r, (c.timeMaxAt m i : Int) < nTime) ∧
      ∀ i, r ≤ i → i < c.length → nTime ≤ c.timeMaxAt m i := by
  let p : Nat → Bool := fun i => decide ((c.timeMaxAt m i : Int) < nTime)
  have hanti : ∀ i j, i ≤ j → j < c.length → p j = true → p i = true := by
    intro i j hij hj hp
    have hmono := h.timeMaxAt_mono hij hj
    have hlt := of_decide_eq_true hp
    exact decide_eq_true (by omega)
  have htest : ∀ i < c.length, (do
      let pBlock ← c.getD i none
      let e ← m.lookup pBlock
      return decide (e.getBlockTimeMax < nTime) : Option Bool) = some (p i) := by
    intro i hi
    obtain ⟨k, e, hk, he, -⟩ := h.chain.exists_entry hi
    have hmax : c.timeMaxAt m i = e.nTimeMax := by
      rw [timeMaxAt, hk, elim_some, read_of_lookup he]
    rw [hk, bind_eq_bind, bind_some, he, bind_eq_bind, bind_some, Option.pure_def,
      CBlockIndexEntry.getBlockTimeMax, ← hmax]
  obtain ⟨r, hr, hparts⟩ := lowerBound_spec hanti htest
  refine ⟨r, ?_, hparts.upper, fun i hi => of_decide_eq_true (hparts.holds i (Nat.zero_le i) hi),
    fun i hri hi => ?_⟩
  · rw [findEarliestAtLeast, hr, bind_eq_bind, bind_some]
    split
    next heq => rw [heq, getD_eq_default _ _ le_rfl]
    next => rfl
  · have := of_decide_eq_false (hparts.fails i hri hi)
    omega

/-- Whatever headers have come and whatever tips the chain has been set to, the block found
    is the lowest one whose maximum so far is not below the time, and there is none
    exactly when there is no such block.  The maximum is that of the header times up to the
    block, so that no block below the one found has a header time that is not below. -/
theorem findEarliestAtLeast_eq (h : ChainIndexed m c) (nTime : Int) :
    ∃ r, c.findEarliestAtLeast m nTime = some r ∧
      (r = none ↔ ∀ j < c.length, (c.timeMaxAt m j : Int) < nTime) ∧
      (∀ k, r = some k → ∃ j < c.length, c.getD j none = some k ∧ nTime ≤ c.timeMaxAt m j ∧
        ∀ i < j, (c.timeMaxAt m i : Int) < nTime ∧ (c.timeAt m i : Int) < nTime) ∧
      ∀ j < c.length, (∃ k ∈ m, c.getD j none = some k) ∧
        IsGreatest (Set.image (c.timeAt m) (Set.Iic j)) (c.timeMaxAt m j) := by
  have hok := h.ok
  obtain ⟨r, hr, hle, hbelow, habove⟩ := hok.findEarliestAtLeast_spec nTime
  refine ⟨_, hr, ⟨fun hnone j hj => ?_, fun hall => ?_⟩, fun k hk => ?_, fun j hj => ?_⟩
  · by_cases hlt : j < r
    · exact hbelow j hlt
    · -- below the end there is a block at each height
      obtain ⟨k, e, hk, -, -⟩ := hok.chain.exists_entry (j := r) (by omega)
      rw [hk] at hnone
      exact nomatch hnone
  · by_cases hend : r = c.length
    · rw [hend, getD_eq_default _ _ le_rfl]
    · have hge := habove r le_rfl (by omega)
      have hlt := hall r (by omega)
      omega
  · have hlt : r < c.length := by
      by_contra hge
      rw [getD_eq_default _ _ (by omega)] at hk
      exact nomatch hk
    refine ⟨r, hlt, hk, habove r le_rfl hlt, fun i hi => ⟨hbelow i hi, ?_⟩⟩
    have hmax := hbelow i hi
    have htime := (hok.isGreatest_timeMaxAt (j := i) (by omega)).2 ⟨i, Set.mem_Iic.mpr le_rfl, rfl⟩
    omega
  · obtain ⟨k, e, hk, he, -⟩ := hok.chain.exists_entry hj
    exact ⟨⟨k, lookup_isSome.mp (by rw [he]; rfl), hk⟩, hok.isGreatest_timeMaxAt hj⟩

/-- A genesis block and a block above it with a lower time. -/
def twoHeaders : List CBlockHeader :=
  [{ hash := 7, hashPrevBlock := 0, nTime := 50, nBits := 0x207fffff },
    { hash := 8, hashPrevBlock := 7, nTime := 30, nBits := 0x207fffff }]

def twoBlocks : BlockMap :=
  (ArrivalOp.run {} (twoHeaders.map .addToBlockIndex)).elim ∅ (·.mapBlockIndex)

theorem chainIndexed_addHeaders {s : ChainState} (h : ChainIndexed s.mapBlockIndex c)
    (headers : List CBlockHeader) :
    ChainIndexed ((ArrivalOp.run s (headers.map .addToBlockIndex)).elim ∅ (·.mapBlockIndex))
      (if (ArrivalOp.run s (headers.map .addToBlockIndex)).isSome then c else []) := by
  induction headers generalizing s with
  | nil => exact h
  | cons block headers ih =>
    rw [map_cons, ArrivalOp.run, foldlM_cons, ArrivalOp.apply]
    cases hadd : s.addToBlockIndex block with
    | none => exact .start
    | some added => exact ih (.addToBlockIndex h hadd)

theorem findEarliestAtLeast_two_blocks :
    ∃ r, (setTip twoBlocks [] (some 8)).findEarliestAtLeast twoBlocks 40 = some r ∧ r = some 7 := by
  have h : ChainIndexed twoBlocks (setTip twoBlocks [] (some 8)) := by
    refine .setTip ?_ fun k hk => ?_
    · have := chainIndexed_addHeaders (s := {}) .start twoHeaders
      rwa [ite_self] at this
    · rw [← some.inj hk]
      decide +kernel
  have hfound : (setTip twoBlocks [] (some 8)).findEarliestAtLeast twoBlocks 40 =
      some (some 7) := by
    decide +kernel
  obtain ⟨r, hr, -⟩ := findEarliestAtLeast_eq h 40
  exact ⟨r, hr, some.inj (hr.symm.trans hfound)⟩

end

end Rcoin
