/-
  The trees of blocks that come about when headers are accepted: no block is as early as the
  median time before it, so that median times do not decrease along a chain.

  Source: ContextualCheckBlockHeader and AcceptBlockHeader in src/validation.cpp.
-/
import Rcoin.Chain.FailedBlocks

namespace Rcoin

open BlockMap AList CBlockIndexEntry Option

/-! ## The rules for a header -/

def MAX_FUTURE_BLOCK_TIME : Int := 2 * 60 * 60

/-- What accepting a header asks elsewhere: the genesis block, `CheckBlockHeader`, the bits that
    `GetNextWorkRequired` wants, and the height of the last checkpoint in the index, if
    checkpoints are enabled. -/
structure HeaderRules where
  hashGenesisBlock : Uint256
  checkBlockHeader : CBlockHeader → Bool
  getNextWorkRequired : BlockMap → Uint256 → CBlockHeader → Nat
  getLastCheckpoint : BlockMap → Option Nat

/-- `ContextualCheckBlockHeader`: the reject reason, if there is one. -/
def contextualCheckBlockHeader (rules : HeaderRules) (m : BlockMap) (nAdjustedTime : Int)
    (block : CBlockHeader) (pindexPrev : Uint256) : Option String :=
  let nHeight := m.nHeight pindexPrev + 1
  -- Check proof of work
  if block.nBits ≠ rules.getNextWorkRequired m pindexPrev block then some "bad-diffbits"
  -- Don't accept any forks from the main chain prior to last checkpoint.
  else if (rules.getLastCheckpoint m).any (nHeight < ·) then some "bad-fork-prior-to-checkpoint"
  -- Check timestamp against prev
  else if block.nTime ≤ m.getMedianTimePast pindexPrev then some "time-too-old"
  -- Check timestamp
  else if block.nTime > nAdjustedTime + MAX_FUTURE_BLOCK_TIME then some "time-too-new"
  else none

/-- What `AcceptBlockHeader` asks about a header, with a given index and at a given time. -/
def HeaderRules.env (rules : HeaderRules) (m : BlockMap) (nAdjustedTime : Int) :
    ChainState.HeaderEnv where
  hashGenesisBlock := rules.hashGenesisBlock
  checkBlockHeader := rules.checkBlockHeader
  contextualCheckBlockHeader block pindexPrev :=
    (contextualCheckBlockHeader rules m nAdjustedTime block pindexPrev).isNone

variable {block : CBlockHeader} {rules : HeaderRules} {m : BlockMap}

theorem HeaderRules.env_time {nAdjustedTime : Int} {pindexPrev : Uint256}
    (h : (rules.env m nAdjustedTime).contextualCheckBlockHeader block pindexPrev = true) :
    m.getMedianTimePast pindexPrev < block.nTime := by
  simp only [HeaderRules.env, contextualCheckBlockHeader] at h
  by_contra hle
  rw [if_pos (Int.not_lt.mp hle)] at h
  split at h
  · simp at h
  · split at h
    · simp at h
    · simp at h

/-! ## Times in a tree -/

namespace BlockMap

variable {m' : BlockMap} {k x : Uint256} {e : CBlockIndexEntry}

/-- Two states of the index with the same blocks at the same places and of the same times. -/
def SameTimes (m m' : BlockMap) : Prop :=
  ∀ k, (m.lookup k).map (fun e => (e.toCBlockIndex, e.pskip, e.nTime)) =
    (m'.lookup k).map fun e => (e.toCBlockIndex, e.pskip, e.nTime)

theorem SameTimes.symm (h : SameTimes m m') : SameTimes m' m := fun k => (h k).symm

theorem SameTimes.sameTree (h : SameTimes m m') : SameTree m m' := by
  intro k
  have hk := congrArg (Option.map fun t => (t.1, t.2.1)) (h k)
  rwa [Option.map_map, Option.map_map] at hk

theorem StatusOnly.sameTimes (h : StatusOnly m m') : SameTimes m m' := by
  intro k
  have hk := congrArg (Option.map fun e => (e.toCBlockIndex, e.pskip, e.nTime)) (h k)
  rwa [Option.map_map, Option.map_map] at hk

theorem SameTimes.exists_entry (h : SameTimes m m') (he : m.lookup k = some e) :
    ∃ e', m'.lookup k = some e' ∧ e'.toCBlockIndex = e.toCBlockIndex ∧ e'.nTime = e.nTime := by
  have hk := h k
  rw [he, map_some] at hk
  obtain ⟨e', he', heq⟩ := map_eq_some_iff.mp hk.symm
  exact ⟨e', he', congrArg Prod.fst heq, congrArg (fun t => t.2.2) heq⟩

end BlockMap

/-! ## Growing trees -/

namespace BlockMap

variable {m' m'' : BlockMap} {k x : Uint256} {e : CBlockIndexEntry}

/-- Every block is still there, in its place and with its time. -/
def Grown (m m' : BlockMap) : Prop :=
  ∀ k e, m.lookup k = some e → ∃ e', m'.lookup k = some e' ∧ e'.toCBlockIndex = e.toCBlockIndex ∧
    e'.nTime = e.nTime

theorem Grown.refl (m : BlockMap) : Grown m m := fun _ e he => ⟨e, he, rfl, rfl⟩

theorem Grown.trans (h : Grown m m') (h' : Grown m' m'') : Grown m m'' := by
  intro k e he
  obtain ⟨e', he', hblock, htime⟩ := h k e he
  obtain ⟨e'', he'', hblock', htime'⟩ := h' k e' he'
  exact ⟨e'', he'', hblock'.trans hblock, htime'.trans htime⟩

theorem SameTimes.grown (h : SameTimes m m') : Grown m m' := fun _ _ he => h.exists_entry he

theorem grown_insert (hk : k ∉ m) : Grown m (insert k e m) := by
  intro x ex hex
  have hne : x ≠ k := by
    rintro rfl
    exact hk (lookup_isSome.mp (by rw [hex]; rfl))
  exact ⟨ex, by rw [Maps.lookup_insert, if_neg hne, hex], rfl, rfl⟩

variable (h : Grown m m')
include h

theorem Grown.mem (hk : k ∈ m) : k ∈ m' := by
  obtain ⟨e, he⟩ := isSome_iff_exists.mp (lookup_isSome.mpr hk)
  obtain ⟨e', he', -⟩ := h k e he
  exact lookup_isSome.mp (by rw [he']; rfl)

theorem Grown.pprev_eq (hk : k ∈ m) : m'.pprev k = m.pprev k := by
  obtain ⟨e, he⟩ := isSome_iff_exists.mp (lookup_isSome.mpr hk)
  obtain ⟨e', he', hblock, -⟩ := h k e he
  rw [pprev_of_lookup he, pprev_of_lookup he', congrArg CBlockIndex.pprev hblock]

theorem Grown.nHeight_eq (hk : k ∈ m) : m'.nHeight k = m.nHeight k := by
  obtain ⟨e, he⟩ := isSome_iff_exists.mp (lookup_isSome.mpr hk)
  obtain ⟨e', he', hblock, -⟩ := h k e he
  rw [nHeight_of_lookup he, nHeight_of_lookup he', congrArg CBlockIndex.nHeight hblock]

theorem Grown.up_eq (hm : m.TreeOk) (hm' : m'.TreeOk) (hk : k ∈ m) (n : Nat) :
    hm'.forest.up n k = hm.forest.up n k := by
  induction n generalizing k with
  | zero => rfl
  | succ n ih =>
    have hparent : hm'.forest.parent k = hm.forest.parent k := h.pprev_eq hk
    rw [Forest.up, Forest.up, hparent]
    cases hp : hm.forest.parent k with
    | none => rfl
    | some p => exact ih (hm.mem_of_parent hp).2

theorem Grown.ancestorAt_eq (hm : m.TreeOk) (hm' : m'.TreeOk) (hk : k ∈ m) (j : Nat) :
    hm'.forest.ancestorAt j k = hm.forest.ancestorAt j k := by
  have hheight : hm'.forest.height k = hm.forest.height k := h.nHeight_eq hk
  rw [Forest.ancestorAt, Forest.ancestorAt, hheight, h.up_eq hm hm' hk]

theorem Grown.lastTimes_eq (hm : m.TreeOk) (hk : k ∈ m) (n : Nat) :
    m'.lastTimes n (some k) = m.lastTimes n (some k) := by
  induction n generalizing k with
  | zero => rfl
  | succ n ih =>
    obtain ⟨e, he⟩ := isSome_iff_exists.mp (lookup_isSome.mpr hk)
    obtain ⟨e', he', hblock, htime⟩ := h k e he
    rw [lastTimes, lastTimes, he, he']
    simp only [getBlockTime, htime, congrArg CBlockIndex.pprev hblock]
    cases hp : e.pprev with
    | none => cases n <;> rfl
    | some p =>
      obtain ⟨q, hq, -⟩ := hm.parent k e p he hp
      rw [ih (lookup_isSome.mp (by rw [hq]; rfl))]

theorem Grown.getMedianTimePast_eq (hm : m.TreeOk) (hk : k ∈ m) :
    m'.getMedianTimePast k = m.getMedianTimePast k := by
  rw [getMedianTimePast, getMedianTimePast, h.lastTimes_eq hm hk]

omit h in
theorem SameTimes.timesOk (h : SameTimes m m') (hm : m.TreeOk) (ht : m.TimesOk) :
    m'.TimesOk := by
  intro k e' p he' hp
  obtain ⟨e, he, hblock, htime⟩ := h.symm.exists_entry he'
  have hep : e.pprev = some p := (congrArg CBlockIndex.pprev hblock).trans hp
  obtain ⟨q, hq, -⟩ := hm.parent k e p he hep
  rw [h.grown.getMedianTimePast_eq hm (lookup_isSome.mp (by rw [hq]; rfl)),
    getBlockTime, ← htime]
  exact ht k e p he hep

omit h in
theorem TreeOk.timesOk_insert (h : m.TreeOk) (ht : m.TimesOk) (hk : k ∉ m)
    (hparent : ∀ p, e.pprev = some p → p ∈ m ∧ m.getMedianTimePast p < e.getBlockTime) :
    TimesOk (AList.insert k e m) := by
  have hgrown : m.Grown (AList.insert k e m) := grown_insert hk
  intro k' e' p he' hp
  rw [Maps.lookup_insert] at he'
  split at he'
  next =>
    obtain rfl := some.inj he'
    obtain ⟨hmem, hlt⟩ := hparent p hp
    rwa [hgrown.getMedianTimePast_eq h hmem]
  next =>
    obtain ⟨e'', he'', -⟩ := h.parent k' e' p he' hp
    rw [hgrown.getMedianTimePast_eq h (lookup_isSome.mp (by rw [he'']; rfl))]
    exact ht k' e' p he' hp

end BlockMap

/-! ## Accepted headers -/

namespace ChainState

variable {s s' : ChainState}

theorem acceptBlockHeader_cases {env : HeaderEnv} {r : Except String Uint256}
    (h : acceptBlockHeader env s block = some (r, s')) :
    s.mapBlockIndex.StatusOnly s'.mapBlockIndex ∨
    (∃ k, s.addToBlockIndex block = some (k, s')) ∧ (block.hash = env.hashGenesisBlock ∨
      block.hash ∉ s.mapBlockIndex ∧ block.hashPrevBlock ∈ s.mapBlockIndex ∧
        env.contextualCheckBlockHeader block block.hashPrevBlock = true) := by
  have hstay : ∀ x : Except String Uint256, some (x, s) = some (r, s') →
      s.mapBlockIndex.StatusOnly s'.mapBlockIndex := by
    intro x hx
    obtain rfl : s = s' := congrArg Prod.snd (some.inj hx)
    exact StatusOnly.refl _
  -- the two ways in which the function ends without a failed ancestor
  have hadd : (s.addToBlockIndex block >>= fun x => some (.ok x.1, x.2)) = some (r, s') →
      ∃ k, s.addToBlockIndex block = some (k, s') := by
    intro hx
    obtain ⟨⟨k, s1⟩, hk, heq⟩ := bind_eq_some_iff.mp hx
    obtain rfl : s1 = s' := congrArg Prod.snd (some.inj heq)
    exact ⟨k, hk⟩
  rw [acceptBlockHeader] at h
  split at h
  next hgenesis => exact .inr ⟨hadd h, .inl hgenesis⟩
  next =>
    split at h
    next =>
      split at h
      · exact .inl (hstay _ h)
      · exact .inl (hstay _ h)
    -- not known yet: the checks that do not depend on the tree come first
    next hself =>
      split at h
      · exact .inl (hstay _ h)
      · split at h
        next => exact .inl (hstay _ h)
        next prev hprev =>
          have hmem : block.hashPrevBlock ∈ s.mapBlockIndex :=
            lookup_isSome.mp (by rw [hprev]; rfl)
          have hnew : block.hash ∉ s.mapBlockIndex := lookup_eq_none.mp hself
          split at h
          · exact .inl (hstay _ h)
          · split at h
            · exact .inl (hstay _ h)
            next hcontext =>
              have hcontext : env.contextualCheckBlockHeader block block.hashPrevBlock = true := by
                simpa using hcontext
              split at h
              · exact .inr ⟨hadd h, .inr ⟨hnew, hmem, hcontext⟩⟩
              · obtain ⟨failed, -, h⟩ := bind_eq_some_iff.mp h
                cases failed with
                | none => exact .inr ⟨hadd h, .inr ⟨hnew, hmem, hcontext⟩⟩
                -- the parent descends from a failed block, and the path to it is marked
                | some failedit =>
                  obtain ⟨path, -, h⟩ := bind_eq_some_iff.mp h
                  cases h
                  exact .inl (statusOnly_updateAll setFailedChild_status)

end ChainState

open ChainState

/-- Trees above one genesis block in which skip pointers and times are right. -/
structure AcceptedTree (hashGenesisBlock : Uint256) (m : BlockMap) : Prop where
  tree : m.TreeOk
  skip : SkipOk m tree
  times : m.TimesOk
  root : ∀ k ∈ m, m.pprev k = none → k = hashGenesisBlock

/-- What changes the index: accepting a header, and anything that leaves the blocks at their
    places and their times alone. -/
inductive TreeStep (rules : HeaderRules) : ChainState → ChainState → Prop
  | acceptBlockHeader {s s' : ChainState} (nAdjustedTime : Int) (block : CBlockHeader)
      (r : Except String Uint256) (accepted : acceptBlockHeader
        (rules.env s.mapBlockIndex nAdjustedTime) s block = some (r, s')) : TreeStep rules s s'
  | other {s s' : ChainState} (same : s.mapBlockIndex.SameTimes s'.mapBlockIndex) :
      TreeStep rules s s'

theorem ChainState.addToBlockIndex_grown {s s' : ChainState} {k : Uint256}
    (h : s.addToBlockIndex block = some (k, s')) : s.mapBlockIndex.Grown s'.mapBlockIndex := by
  rw [addToBlockIndex] at h
  split at h
  next =>
    cases h
    exact Grown.refl _
  next hnew =>
    obtain ⟨e, -, h⟩ := bind_eq_some_iff.mp h
    cases h
    exact grown_insert hnew

theorem TreeStep.grown {s s' : ChainState} (h : TreeStep rules s s') :
    s.mapBlockIndex.Grown s'.mapBlockIndex := by
  cases h with
  | acceptBlockHeader nAdjustedTime block r accepted =>
    rcases acceptBlockHeader_cases accepted with hstatus | ⟨⟨k, hk⟩, -⟩
    · exact hstatus.sameTimes.grown
    · exact addToBlockIndex_grown hk
  | other same => exact same.grown

/-- The states that are reached after the genesis block has been loaded. -/
inductive TreeReached (rules : HeaderRules) : ChainState → Prop
  | loadGenesisBlock {s : ChainState} {block : CBlockHeader} {k : Uint256}
      (genesis : block.hash = rules.hashGenesisBlock)
      (added : addToBlockIndex {} block = some (k, s)) : TreeReached rules s
  | step {s s' : ChainState} (reached : TreeReached rules s) (step : TreeStep rules s s') :
      TreeReached rules s'

namespace TreeReached

variable {s s' : ChainState}

variable {hashGenesisBlock : Uint256}

theorem acceptedTree_insert {e : CBlockIndexEntry} (h : AcceptedTree hashGenesisBlock m)
    (hnew : block.hash ∉ m) (hentry : newEntry m block = some e)
    (hparent : block.hash = hashGenesisBlock ∨ block.hashPrevBlock ∈ m)
    (htime : block.hashPrevBlock ∈ m → m.getMedianTimePast block.hashPrevBlock < block.nTime) :
    AcceptedTree hashGenesisBlock (insert block.hash e m) := by
  obtain ⟨e', hentry', hhash, hbelow, hroot, hskip⟩ := newEntry_spec h.tree h.skip block
  obtain rfl := some.inj (hentry'.symm.trans hentry)
  obtain ⟨hnTime, hprev⟩ := newEntry_header hentry
  have hmem : ∀ p, e'.pprev = some p → p ∈ m := by
    intro p hp
    obtain ⟨q, hq, -⟩ := hbelow p hp
    exact lookup_isSome.mp (by rw [hq]; rfl)
  have htree := h.tree.insert hnew hhash hbelow hroot
  refine ⟨htree, SkipOk.insert h.skip htree hnew hmem fun skip hs => hskip.symm.trans hs, ?_, ?_⟩
  · refine h.tree.timesOk_insert h.times hnew fun p hp => ⟨hmem p hp, ?_⟩
    obtain ⟨-, -, rfl⟩ := map_eq_some_iff.mp (hprev.symm.trans hp)
    rw [getBlockTime, hnTime]
    exact htime (hmem _ hp)
  · intro k hk hnone
    rw [pprev, Maps.lookup_insert] at hnone
    split at hnone
    -- the new block has no parent only where it is the genesis block
    next heq =>
      rw [heq]
      refine hparent.resolve_right fun hin => ?_
      obtain ⟨prev, hlookup⟩ := isSome_iff_exists.mp (lookup_isSome.mpr hin)
      rw [bind_some, hprev, hlookup] at hnone
      cases hnone
    next hne => exact h.root k ((mem_insert _).mp hk |>.resolve_left hne) hnone

theorem acceptedTree_add {k : Uint256} (h : AcceptedTree hashGenesisBlock s.mapBlockIndex)
    (hres : s.addToBlockIndex block = some (k, s'))
    (hwhy : block.hash = hashGenesisBlock ∨ block.hashPrevBlock ∈ s.mapBlockIndex)
    (htime : block.hash ∉ s.mapBlockIndex → block.hashPrevBlock ∈ s.mapBlockIndex →
      s.mapBlockIndex.getMedianTimePast block.hashPrevBlock < block.nTime) :
    AcceptedTree hashGenesisBlock s'.mapBlockIndex ∧ block.hash ∈ s'.mapBlockIndex := by
  rw [addToBlockIndex] at hres
  split at hres
  next hmem =>
    cases hres
    exact ⟨h, hmem⟩
  next hnew =>
    obtain ⟨e, hentry, hres⟩ := bind_eq_some_iff.mp hres
    cases hres
    exact ⟨acceptedTree_insert h hnew hentry hwhy (htime hnew), (mem_insert _).mpr (.inl rfl)⟩

theorem AcceptedTree.sameTimes {m' : BlockMap} (h : AcceptedTree hashGenesisBlock m)
    (hsame : m.SameTimes m') : AcceptedTree hashGenesisBlock m' := by
  have htree := hsame.sameTree.treeOk h.tree
  refine ⟨htree, hsame.sameTree.skipOk h.tree htree h.skip, hsame.timesOk h.tree h.times, ?_⟩
  intro k hk hnone
  exact h.root k (hsame.sameTree.mem_iff.mpr hk) ((hsame.sameTree.pprev_eq k).trans hnone)

theorem acceptedTree (h : TreeReached rules s) :
    AcceptedTree rules.hashGenesisBlock s.mapBlockIndex ∧
      rules.hashGenesisBlock ∈ s.mapBlockIndex := by
  induction h with
  | loadGenesisBlock genesis added =>
    have hempty : AcceptedTree rules.hashGenesisBlock ({} : ChainState).mapBlockIndex :=
      ⟨TreeOk.empty, nofun, nofun, fun k hk => absurd hk (notMem_empty k)⟩
    obtain ⟨htree, hmem⟩ := acceptedTree_add hempty added (.inl genesis)
      fun _ hp => absurd hp (notMem_empty _)
    exact ⟨htree, genesis ▸ hmem⟩
  | step _ step ih =>
    obtain ⟨htree, hgenesis⟩ := ih
    refine ⟨?_, step.grown.mem hgenesis⟩
    cases step with
    | other same => exact AcceptedTree.sameTimes htree same
    | acceptBlockHeader nAdjustedTime block r accepted =>
      rcases acceptBlockHeader_cases accepted with hstatus | ⟨⟨k, hk⟩, hwhy⟩
      · exact AcceptedTree.sameTimes htree hstatus.sameTimes
      · refine (acceptedTree_add htree hk (hwhy.imp_right fun hin => hin.2.1) ?_).1
        intro hnew _
        -- the genesis block is there, so that this is another one, and it has been checked
        rcases hwhy with hself | ⟨-, -, hcheck⟩
        · exact absurd (hself ▸ hgenesis) hnew
        · exact HeaderRules.env_time hcheck

theorem later (h : TreeReached rules s) (hsteps : Relation.ReflTransGen (TreeStep rules) s s') :
    TreeReached rules s' ∧ s.mapBlockIndex.Grown s'.mapBlockIndex := by
  induction hsteps with
  | refl => exact ⟨h, Grown.refl _⟩
  | tail _ hstep ih => exact ⟨ih.1.step hstep, ih.2.trans hstep.grown⟩

end TreeReached

end Rcoin
