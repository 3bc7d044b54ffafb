/-
  The state of a soft-fork deployment (BIP 9): computed period by period along a
  chain, and by `GetStateFor` with a cache shared by all branches.

  Source: src/versionbits.{h,cpp}.  `none` as a result stands for the use of a
  null pointer or a failed `assert`.
-/
import Rcoin.Chain.BlockIndex

namespace Rcoin

open AList BlockMap List Nat Option

inductive ThresholdState where
  | defined
  | started
  | lockedIn
  | active
  | failed
  deriving DecidableEq, Repr

/-- `AbstractThresholdConditionChecker`, with its parameters. -/
structure ThresholdConditionChecker where
  condition : CBlockIndexEntry → Bool
  beginTime : Int
  endTime : Int
  period : Nat
  threshold : Int

/-- The states of periods, under the last block before each. -/
abbrev ThresholdConditionCache := AList fun _ : Option Uint256 => ThresholdState

def ALWAYS_ACTIVE : Int := -1

namespace ThresholdConditionChecker

/-! ## The state machine -/

/-- The state after a period in `state`, whose last block has the median time `mtp`,
    and in which `count` blocks signalled. -/
def transition (c : ThresholdConditionChecker) (state : ThresholdState) (mtp : Int) (count : Nat) :
    ThresholdState :=
  match state with
  | .defined => if mtp ≥ c.endTime then .failed else if mtp ≥ c.beginTime then .started else .defined
  | .started =>
    if mtp ≥ c.endTime then .failed else if (count : Int) ≥ c.threshold then .lockedIn else .started
  | .lockedIn => .active
  | .active => .active
  | .failed => .failed

section Abstract

variable {K : Type*} (c : ThresholdConditionChecker) (F : Forest K) (mtp : K → Int)
  (signals : K → Bool)

/-- How many of `n` blocks up to `b` signal. -/
def signalCount (n : Nat) (b : K) : Nat := (List.range n).countP fun i => (F.up i b).any signals

/-- The state after `n` periods of the chain that ends in `p`. -/
def stateAfter (p : K) : Nat → ThresholdState
  | 0 => .defined
  | n + 1 =>
    match F.ancestorAt (c.period * (n + 1) - 1) p with
    | none => stateAfter p n
    | some b => c.transition (stateAfter p n) (mtp b) (signalCount F signals c.period b)

/-- The state of the block after `p`; `none` is the block before genesis. -/
def bip9State (p : Option K) : ThresholdState :=
  if c.beginTime = ALWAYS_ACTIVE then .active
  else p.elim .defined fun p => stateAfter c F mtp signals p ((F.height p + 1) / c.period)

/-- The block before height `h` on the chain that ends in `p`. -/
def blockBefore (p : Option K) (h : Nat) : Option K :=
  if h = 0 then none else p.bind (F.ancestorAt (h - 1))

/-- The state of the block at height `h` of the chain that ends in `p` and its
    next block. -/
def stateAtHeight (p : Option K) (h : Nat) : ThresholdState :=
  bip9State c F mtp signals (blockBefore F p h)

end Abstract

/-! ## `GetStateFor` -/

variable (c : ThresholdConditionChecker) (m : BlockMap)

/-- The last block of the period before that of the block after `pindexPrev`. -/
def periodParent : Option Uint256 → Option (Option Uint256)
  | none => some none
  | some pindexPrev => do
    let e ← m.lookup pindexPrev
    m.getAncestor pindexPrev (e.nHeight - ((e.nHeight + 1) % c.period : Nat))

/-- The walk back to a period whose state is known.  It returns its key, the blocks
    to compute (the next one first) and the cache. -/
def walkBack : Nat → Option Uint256 → List Uint256 → ThresholdConditionCache →
    Option (Option Uint256 × List Uint256 × ThresholdConditionCache)
  | 0, _, _, _ => none
  | fuel + 1, pindexPrev, vToCompute, cache =>
    if pindexPrev ∈ cache then some (pindexPrev, vToCompute, cache)
    else
      match pindexPrev with
      | none => some (none, vToCompute, cache.insert none .defined)
      | some pindex =>
        if m.getMedianTimePast pindex < c.beginTime then
          some (some pindex, vToCompute, cache.insert (some pindex) .defined)
        else do
          let e ← m.lookup pindex
          let prev ← m.getAncestor pindex (e.nHeight - c.period)
          walkBack fuel prev (pindex :: vToCompute) cache

/-- The counting loop. -/
def countSignals : Nat → Option Uint256 → Nat → Option Nat
  | 0, _, nCount => some nCount
  | n + 1, pindexCount, nCount => do
    let pindex ← pindexCount
    let e ← m.lookup pindex
    countSignals n e.pprev (if c.condition e then nCount + 1 else nCount)

def nextState (state : ThresholdState) (pindexPrev : Uint256) : Option ThresholdState :=
  let mtp := m.getMedianTimePast pindexPrev
  match state with
  | .defined =>
    some (if mtp ≥ c.endTime then .failed else if mtp ≥ c.beginTime then .started else .defined)
  | .started =>
    if mtp ≥ c.endTime then some .failed
    else do
      let count ← c.countSignals m c.period (some pindexPrev) 0
      some (if (count : Int) ≥ c.threshold then .lockedIn else .started)
  | .lockedIn => some .active
  | .failed => some .failed
  | .active => some .active

def walkForward : List Uint256 → ThresholdState → ThresholdConditionCache →
    Option (ThresholdState × ThresholdConditionCache)
  | [], state, cache => some (state, cache)
  | pindexPrev :: vToCompute, state, cache => do
    let stateNext ← c.nextState m state pindexPrev
    walkForward vToCompute stateNext (cache.insert (some pindexPrev) stateNext)

/-- `GetStateFor`.  Each round of the walk back goes down at least one block, so
    that the height gives enough of them. -/
def getStateFor (pindexPrev : Option Uint256) (cache : ThresholdConditionCache) :
    Option (ThresholdState × ThresholdConditionCache) :=
  if c.beginTime = ALWAYS_ACTIVE then some (.active, cache)
  else do
    let start ← c.periodParent m pindexPrev
    let known ← c.walkBack m (start.elim 0 m.nHeight + 2) start [] cache
    let state ← known.2.2.lookup known.1
    c.walkForward m known.2.1 state known.2.2

/-! ## `GetStateSinceHeightFor` -/

/-- The loop back over the periods with the same state. -/
def sinceLoop (initialState : ThresholdState) : Nat → Uint256 → Option Uint256 →
    ThresholdConditionCache → Option (Uint256 × ThresholdConditionCache)
  | 0, _, _, _ => none
  | fuel + 1, pindexPrev, previousPeriodParent, cache =>
    match previousPeriodParent with
    | none => some (pindexPrev, cache)
    | some parent => do
      let found ← c.getStateFor m (some parent) cache
      if found.1 = initialState then
        let e ← m.lookup parent
        let previous ← m.getAncestor parent (e.nHeight - c.period)
        sinceLoop initialState fuel parent previous found.2
      else some (pindexPrev, found.2)

def getStateSinceHeightFor (pindexPrev : Option Uint256) (cache : ThresholdConditionCache) :
    Option (Int × ThresholdConditionCache) :=
  if c.beginTime = ALWAYS_ACTIVE then some (0, cache)
  else do
    let initial ← c.getStateFor m pindexPrev cache
    if initial.1 = .defined then some (0, initial.2)
    else
      let start ← c.periodParent m pindexPrev
      let pindexPrev ← start
      let e ← m.lookup pindexPrev
      let previousPeriodParent ← m.getAncestor pindexPrev (e.nHeight - c.period)
      let found ← c.sinceLoop m initial.1 (e.nHeight + 1) pindexPrev previousPeriodParent initial.2
      let last ← m.lookup found.1
      some (last.nHeight + 1, found.2)

/-- The cache after calls of `GetStateFor`, one after the other. -/
def fillCache (calls : List (Option Uint256)) : Option ThresholdConditionCache :=
  calls.foldlM (fun cache p => (c.getStateFor m p cache).map Prod.snd) ∅

/-! ## The state machine along one chain -/

section Abstract

variable {K : Type*} {c : ThresholdConditionChecker} {F : Forest K} {mtp : K → Int}
  {signals : K → Bool} {p a b : K} {h n k : Nat}

/-- The last block of the `n`-th period of the chain; `none` for `n = 0`. -/
def boundary (c : ThresholdConditionChecker) (F : Forest K) (p : K) (n : Nat) : Option K :=
  if n = 0 then none else F.ancestorAt (c.period * n - 1) p

theorem exists_boundary (hc : 0 < c.period) (hn : c.period * (n + 1) ≤ F.height p + 1) :
    ∃ b, F.ancestorAt (c.period * (n + 1) - 1) p = some b ∧
      F.height b + 1 = c.period * (n + 1) := by
  obtain ⟨b, hb, hh⟩ := F.exists_ancestorAt (k := p) (h := c.period * (n + 1) - 1) (by omega)
  have hpos : 0 < c.period * (n + 1) := Nat.mul_pos hc (Nat.succ_pos n)
  exact ⟨b, hb, by omega⟩

theorem stateAfter_succ (hb : F.ancestorAt (c.period * (n + 1) - 1) p = some b) :
    stateAfter c F mtp signals p (n + 1) =
      c.transition (stateAfter c F mtp signals p n) (mtp b) (signalCount F signals c.period b) := by
  rw [stateAfter, hb]

theorem stateAfter_congr (ha : F.ancestorAt h p = some a) (hn : c.period * n ≤ h + 1) :
    stateAfter c F mtp signals a n = stateAfter c F mtp signals p n := by
  induction n with
  | zero => rfl
  | succ n ih =>
    have hle : c.period * n ≤ c.period * (n + 1) := mul_le_mul_left _ (le_succ n)
    rw [stateAfter, stateAfter, ih (by omega), F.ancestorAt_trans ha (by omega)]

variable {s : ThresholdState}

theorem stateAfter_terminal (hs : s = .active ∨ s = .failed)
    (hn : stateAfter c F mtp signals p n = s) (hk : n ≤ k) :
    stateAfter c F mtp signals p k = s := by
  induction hk with
  | refl => exact hn
  | step _ ih =>
    rw [stateAfter]
    split
    next => exact ih
    next =>
      rw [ih]
      rcases hs with rfl | rfl <;> rfl

theorem stateAfter_of_before (hle : c.beginTime ≤ c.endTime)
    (hmono : ∀ {a k}, F.IsAncestor a k → mtp a ≤ mtp k)
    (hb : boundary c F p n = some b) (hbefore : mtp b < c.beginTime) :
    stateAfter c F mtp signals p n = .defined := by
  rw [boundary] at hb
  split at hb
  next => cases hb
  next hn =>
    suffices hall : ∀ k ≤ n, stateAfter c F mtp signals p k = .defined from hall n (le_refl n)
    intro k hk
    induction k with
    | zero => rfl
    | succ k ih =>
      rw [stateAfter]
      split
      next => exact ih (by omega)
      next b' hb' =>
        have hmul : c.period * (k + 1) ≤ c.period * n := mul_le_mul_left _ hk
        have hanc : F.IsAncestor b' b := by
          rw [F.ancestorAt_trans hb (by omega)] at hb'
          exact ⟨_, F.up_of_ancestorAt hb'⟩
        have hmtp := hmono hanc
        rw [ih (by omega)]
        simp only [transition]
        rw [if_neg (by omega), if_neg (by omega)]

theorem stateAfter_defined_of_le (hk : stateAfter c F mtp signals p k = .defined) (hn : n ≤ k) :
    stateAfter c F mtp signals p n = .defined := by
  induction hn with
  | refl => exact hk
  | step _ ih =>
    rw [stateAfter] at hk
    split at hk
    next => exact ih hk
    next =>
      refine ih ?_
      generalize stateAfter c F mtp signals p _ = s at hk ⊢
      cases s with
      | defined => rfl
      | started =>
        simp only [transition] at hk
        split at hk
        · cases hk
        · split at hk <;> cases hk
      | lockedIn => cases hk
      | active => cases hk
      | failed => cases hk

theorem bip9State_none (hact : c.beginTime ≠ ALWAYS_ACTIVE) :
    bip9State c F mtp signals none = .defined := by
  rw [bip9State, if_neg hact, elim_none]

theorem bip9State_some (hact : c.beginTime ≠ ALWAYS_ACTIVE) :
    bip9State c F mtp signals (some p) =
      stateAfter c F mtp signals p ((F.height p + 1) / c.period) := by
  rw [bip9State, if_neg hact, elim_some]

theorem bip9State_boundary (hc : 0 < c.period) (hact : c.beginTime ≠ ALWAYS_ACTIVE)
    (hn : c.period * n ≤ F.height p + 1) :
    bip9State c F mtp signals (boundary c F p n) = stateAfter c F mtp signals p n := by
  cases n with
  | zero =>
    rw [boundary, if_pos rfl, bip9State_none hact]
    rfl
  | succ n =>
    obtain ⟨b, hb, hh⟩ := exists_boundary hc hn
    rw [boundary, if_neg (succ_ne_zero n), hb, bip9State_some hact, hh,
      Nat.mul_div_cancel_left _ hc]
    exact stateAfter_congr hb (by omega)

theorem stateAtHeight_eq (hact : c.beginTime ≠ ALWAYS_ACTIVE) (hh : h ≤ F.height p + 1) :
    stateAtHeight c F mtp signals (some p) h = stateAfter c F mtp signals p (h / c.period) := by
  rw [stateAtHeight, blockBefore]
  cases h with
  | zero =>
    rw [if_pos rfl, bip9State_none hact, Nat.zero_div]
    rfl
  | succ i =>
    obtain ⟨a, ha, hai⟩ := F.exists_ancestorAt (k := p) (h := i) (by omega)
    rw [if_neg (Nat.succ_ne_zero i), Option.bind_some, Nat.add_sub_cancel, ha, bip9State_some hact,
      hai]
    exact stateAfter_congr ha (mul_div_le _ _)

theorem signalCount_succ (hp : F.parent b = some p) :
    signalCount F signals (n + 1) b = signalCount F signals n p + if signals b then 1 else 0 := by
  rw [signalCount, range_succ_eq_map, countP_cons, countP_map, signalCount]
  congr 1
  refine countP_congr fun i _ => ?_
  rw [Function.comp_apply, F.up_succ_of_parent hp]

end Abstract

/-! ## The walks compute it -/

section

variable {c : ThresholdConditionChecker} {m : BlockMap} (h : m.TreeOk)

/-- Whether a block signals. -/
def signalsAt (c : ThresholdConditionChecker) (m : BlockMap) (k : Uint256) : Bool :=
  (m.lookup k).any c.condition

/-- The state of the block after `p`, without a cache. -/
def stateOf (c : ThresholdConditionChecker) (h : m.TreeOk) (p : Option Uint256) : ThresholdState :=
  bip9State c h.forest m.getMedianTimePast (c.signalsAt m) p

/-- What holds of the checker and the index while `GetStateFor` runs. -/
structure Setting (c : ThresholdConditionChecker) (h : m.TreeOk) : Prop where
  period : 0 < c.period
  skip : SkipOk m h
  times : m.TimesOk
  order : c.beginTime ≤ c.endTime
  notAlways : c.beginTime ≠ ALWAYS_ACTIVE

/-- Each entry of the cache is the state it stands for. -/
def CacheOk (c : ThresholdConditionChecker) (h : m.TreeOk) (cache : ThresholdConditionCache) :
    Prop := ∀ k s, cache.lookup k = some s → s = c.stateOf h k

variable {h} {p : Uint256} {n : Nat} {cache : ThresholdConditionCache}

theorem CacheOk.insert (hcache : CacheOk c h cache) {k : Option Uint256} (hs : s = c.stateOf h k)
    : CacheOk c h (cache.insert k s) := by
  intro k' s' hl
  rw [Maps.lookup_insert] at hl
  split at hl
  next heq => rw [← some.inj hl, heq, hs]
  next => exact hcache k' s' hl

variable {b : Uint256}

theorem countSignals_spec (hb : b ∈ m) {count : Nat} (hn : n ≤ h.forest.height b + 1)
    : c.countSignals m n (some b) count =
      some (count + signalCount h.forest (c.signalsAt m) n b) := by
  induction n generalizing b count with
  | zero => rfl
  | succ n ih =>
    obtain ⟨e, he⟩ := isSome_iff_exists.mp (lookup_isSome.mpr hb)
    have hsignal : c.signalsAt m b = c.condition e := by
      rw [signalsAt, he, any_some]
    have hparent : h.forest.parent b = e.pprev := pprev_of_lookup he
    simp only [countSignals, he, bind_eq_bind, bind_some]
    cases hp : e.pprev with
    | none =>
      -- the genesis block is the last to count
      have hroot := h.forest.height_root (hparent.trans hp)
      obtain rfl : n = 0 := by omega
      have hone : signalCount h.forest (c.signalsAt m) (0 + 1) b =
          if c.signalsAt m b then 1 else 0 := by
        rw [signalCount, range_succ_eq_map, countP_cons, range_zero, map_nil,
          countP_nil, zero_add]
        rfl
      rw [hone, hsignal, countSignals]
      cases c.condition e <;> rfl
    | some q =>
      rw [hp] at hparent
      have hh := h.forest.height_parent hparent
      rw [ih (h.mem_of_parent hparent).2 (by omega), signalCount_succ hparent, hsignal]
      cases c.condition e with
      | true =>
        simp only [if_true]
        rw [add_right_comm, add_assoc]
      | false => rfl

theorem nextState_spec (hp : p ∈ m) (hb : h.forest.ancestorAt (c.period * (n + 1) - 1) p = some b) :
    c.nextState m (stateAfter c h.forest m.getMedianTimePast (c.signalsAt m) p n) b =
      some (stateAfter c h.forest m.getMedianTimePast (c.signalsAt m) p (n + 1)) := by
  have hbm := h.mem_of_up hp (h.forest.up_of_ancestorAt hb)
  have hbh := (h.forest.height_ancestorAt hb).1
  have hle : c.period ≤ c.period * (n + 1) := Nat.le_mul_of_pos_right _ (Nat.succ_pos n)
  rw [stateAfter_succ hb]
  generalize stateAfter c h.forest m.getMedianTimePast (c.signalsAt m) p n = s
  cases s with
  | started =>
    simp only [nextState, transition]
    rw [countSignals_spec hbm (h := h) (by omega), zero_add]
    split
    · rfl
    · rfl
  | defined => rfl
  | lockedIn => rfl
  | active => rfl
  | failed => rfl

theorem getAncestor_boundary (hset : Setting c h) (hp : p ∈ m) {e : CBlockIndexEntry}
    (hb : h.forest.ancestorAt (c.period * (n + 1) - 1) p = some b) (he : m.lookup b = some e) :
    m.getAncestor b ((e.nHeight : Int) - c.period) = some (boundary c h.forest p n) := by
  have hbm := h.mem_of_up hp (h.forest.up_of_ancestorAt hb)
  have hbh : h.forest.height b = c.period * (n + 1) - 1 := (h.forest.height_ancestorAt hb).1
  have heh : h.forest.height b = e.nHeight := nHeight_of_lookup he
  have hperiod := hset.period
  have hmul : c.period * (n + 1) = c.period * n + c.period := mul_succ _ _
  rw [getAncestor_eq h hset.skip hbm, boundary]
  by_cases hzero : n = 0
  · rw [if_pos hzero, if_pos]
    subst hzero
    omega
  · have hpos : 0 < c.period * n := Nat.mul_pos hperiod (Nat.pos_of_ne_zero hzero)
    have htoNat : ((e.nHeight : Int) - c.period).toNat = c.period * n - 1 := by omega
    rw [if_neg (by omega), if_neg hzero, htoNat, h.forest.ancestorAt_trans hb (by omega)]

/-- The blocks still to compute: the last ones of the periods after the `n`-th. -/
def Pending (c : ThresholdConditionChecker) (h : m.TreeOk) (p : Uint256) : Nat → List Uint256 → Prop
  | _, [] => True
  | n, b :: rest =>
    h.forest.ancestorAt (c.period * (n + 1) - 1) p = some b ∧ Pending c h p (n + 1) rest

variable {v : List Uint256}

theorem walkForward_spec (hset : Setting c h) (hp : p ∈ m) (hv : Pending c h p n v)
    (hn : c.period * (n + v.length) ≤ h.forest.height p + 1) (hcache : CacheOk c h cache) :
    ∃ cache', c.walkForward m v (stateAfter c h.forest m.getMedianTimePast (c.signalsAt m) p n)
        cache = some (stateAfter c h.forest m.getMedianTimePast (c.signalsAt m) p (n + v.length),
          cache') ∧ CacheOk c h cache' := by
  induction v generalizing n cache with
  | nil => exact ⟨cache, rfl, hcache⟩
  | cons b v ih =>
    obtain ⟨hb, hv⟩ := hv
    have hlen : n + (b :: v).length = n + 1 + v.length := by
      rw [length_cons]
      omega
    rw [hlen] at hn ⊢
    have hle : c.period * (n + 1) ≤ c.period * (n + 1 + v.length) :=
      mul_le_mul_left _ (le_add_right _ _)
    simp only [walkForward, nextState_spec hp hb, bind_eq_bind, bind_some]
    refine ih hv hn (hcache.insert ?_)
    have hbound : boundary c h.forest p (n + 1) = some b := by
      rw [boundary, if_neg (succ_ne_zero n), hb]
    rw [stateOf, ← hbound]
    exact (bip9State_boundary hset.period hset.notAlways (by omega)).symm

theorem walkBack_none (hact : c.beginTime ≠ ALWAYS_ACTIVE) (fuel : Nat) (v : List Uint256)
    (hcache : CacheOk c h cache) : ∃ cache', c.walkBack m (fuel + 1) none v cache =
      some (none, v, cache') ∧ CacheOk c h cache' ∧ cache'.lookup none = some .defined := by
  have hstate : c.stateOf h none = .defined := bip9State_none hact
  rw [walkBack]
  by_cases hmem : none ∈ cache
  · obtain ⟨s, hs⟩ := isSome_iff_exists.mp (lookup_isSome.mpr hmem)
    rw [if_pos hmem]
    exact ⟨cache, rfl, hcache, by rw [hs, hcache _ s hs, hstate]⟩
  · rw [if_neg hmem]
    exact ⟨_, rfl, hcache.insert hstate.symm, lookup_insert _⟩

theorem walkBack_spec (hset : Setting c h) (hp : p ∈ m) {fuel : Nat} (hv : Pending c h p n v)
    (hn : c.period * n ≤ h.forest.height p + 1) (hfuel : n < fuel) (hcache : CacheOk c h cache) :
    ∃ n' v' cache', c.walkBack m fuel (boundary c h.forest p n) v cache =
        some (boundary c h.forest p n', v', cache') ∧ n' ≤ n ∧ n' + v'.length = n + v.length ∧
      Pending c h p n' v' ∧ CacheOk c h cache' ∧ cache'.lookup (boundary c h.forest p n') =
        some (stateAfter c h.forest m.getMedianTimePast (c.signalsAt m) p n') := by
  induction fuel generalizing n v with
  | zero => cases hfuel
  | succ fuel ih =>
    cases n with
    | zero =>
      obtain ⟨cache', hres, hcache', hl⟩ := walkBack_none hset.notAlways fuel v hcache
      exact ⟨0, v, cache', hres, le_refl 0, rfl, hv, hcache', hl⟩
    | succ n =>
      obtain ⟨b, hb, hbh⟩ := exists_boundary hset.period hn
      have hbound : boundary c h.forest p (n + 1) = some b := by
        rw [boundary, if_neg (succ_ne_zero n), hb]
      have hstate : c.stateOf h (some b) =
          stateAfter c h.forest m.getMedianTimePast (c.signalsAt m) p (n + 1) := by
        rw [← hbound]
        exact bip9State_boundary hset.period hset.notAlways hn
      have hbm := h.mem_of_up hp (h.forest.up_of_ancestorAt hb)
      rw [hbound, walkBack]
      by_cases hmem : some b ∈ cache
      · obtain ⟨s, hs⟩ := isSome_iff_exists.mp (lookup_isSome.mpr hmem)
        rw [if_pos hmem]
        refine ⟨n + 1, v, cache, by rw [hbound], le_refl _, rfl, hv, hcache, ?_⟩
        rw [hbound, hs, hcache _ s hs, hstate]
      · rw [if_neg hmem]
        by_cases hbefore : m.getMedianTimePast b < c.beginTime
        -- the shortcut of the begin time, right as median times rise
        · have hdefined : stateAfter c h.forest m.getMedianTimePast (c.signalsAt m) p (n + 1) =
              .defined := stateAfter_of_before hset.order
            (fun ha => getMedianTimePast_mono h hset.times ha) hbound hbefore
          simp only [if_pos hbefore]
          refine ⟨n + 1, v, cache.insert (some b) .defined, by rw [hbound], le_refl _, rfl, hv,
            hcache.insert (by rw [hstate, hdefined]), ?_⟩
          rw [hbound, lookup_insert, hdefined]
        · obtain ⟨e, he⟩ := isSome_iff_exists.mp (lookup_isSome.mpr hbm)
          have hprev := getAncestor_boundary hset hp hb he
          have hmul : c.period * (n + 1) = c.period * n + c.period := mul_succ _ _
          simp only [if_neg hbefore, he, hprev, bind_eq_bind, bind_some]
          obtain ⟨n', v', cache', hres, hle, hlen, hrest⟩ := ih (n := n) (v := b :: v) ⟨hb, hv⟩
            (by omega) (by omega)
          refine ⟨n', v', cache', hres, by omega, ?_, hrest⟩
          rw [hlen, length_cons]
          omega

theorem periodParent_spec (hset : Setting c h) (hp : p ∈ m) :
    c.periodParent m (some p) =
      some (boundary c h.forest p ((h.forest.height p + 1) / c.period)) := by
  obtain ⟨e, he⟩ := isSome_iff_exists.mp (lookup_isSome.mpr hp)
  have heh : h.forest.height p = e.nHeight := nHeight_of_lookup he
  have hdiv := div_add_mod (h.forest.height p + 1) c.period
  have hmod := mod_lt (h.forest.height p + 1) hset.period
  simp only [periodParent, he, bind_eq_bind, bind_some]
  rw [getAncestor_eq h hset.skip hp, boundary, ← heh]
  generalize (h.forest.height p + 1) % c.period = r at hdiv hmod ⊢
  generalize (h.forest.height p + 1) / c.period = n at hdiv ⊢
  by_cases hzero : n = 0
  · subst hzero
    rw [if_pos (by omega), if_pos rfl]
  · have hpos : 0 < c.period * n := Nat.mul_pos hset.period (Nat.pos_of_ne_zero hzero)
    have htoNat : ((h.forest.height p : Int) - (r : Nat)).toNat = c.period * n - 1 := by omega
    rw [if_neg (by omega), if_neg hzero, htoNat]

/-- The blocks a caller may ask about: those of the index, and none. -/
def Known (m : BlockMap) (p : Option Uint256) : Prop := ∀ k, p = some k → k ∈ m

theorem getStateFor_spec (hset : Setting c h) {p : Option Uint256} (hp : Known m p)
    (hcache : CacheOk c h cache) :
    ∃ cache', c.getStateFor m p cache = some (c.stateOf h p, cache') ∧ CacheOk c h cache' := by
  rw [getStateFor, if_neg hset.notAlways]
  cases p with
  | none =>
    obtain ⟨cache', hres, hcache', hl⟩ := walkBack_none hset.notAlways 1 [] hcache
    have hstate : c.stateOf h none = .defined := bip9State_none hset.notAlways
    simp only [periodParent, bind_eq_bind, bind_some, elim_none]
    rw [hres]
    simp only [bind_some, hl, walkForward, hstate]
    exact ⟨cache', rfl, hcache'⟩
  | some p =>
    have hpm := hp p rfl
    have hle : c.period * ((h.forest.height p + 1) / c.period) ≤ h.forest.height p + 1 :=
      mul_div_le _ _
    have hstate : c.stateOf h (some p) = stateAfter c h.forest m.getMedianTimePast (c.signalsAt m) p
        ((h.forest.height p + 1) / c.period) := bip9State_some hset.notAlways
    simp only [periodParent_spec hset hpm, bind_eq_bind, bind_some, hstate]
    generalize (h.forest.height p + 1) / c.period = n at hle ⊢
    have hfuel : n < (boundary c h.forest p n).elim 0 m.nHeight + 2 := by
      cases n with
      | zero => omega
      | succ n =>
        obtain ⟨b, hb, hbh⟩ := exists_boundary hset.period hle
        have hn : n + 1 ≤ c.period * (n + 1) := Nat.le_mul_of_pos_left _ hset.period
        have hbh' : m.nHeight b + 1 = c.period * (n + 1) := hbh
        rw [boundary, if_neg (succ_ne_zero n), hb, elim_some]
        omega
    obtain ⟨n', v, cache', hback, hle', hlen, hv, hcache', hl⟩ :=
      walkBack_spec hset hpm (v := []) trivial hle hfuel hcache
    obtain ⟨cache'', hforward, hcache''⟩ :=
      walkForward_spec hset hpm hv (by rw [hlen]; exact hle) hcache'
    simp only [hback, hl, bind_some]
    rw [hforward, hlen]
    exact ⟨cache'', rfl, hcache''⟩

theorem fillCache_spec (hset : Setting c h) {calls : List (Option Uint256)}
    (hcalls : ∀ p ∈ calls, Known m p) :
    ∃ cache, c.fillCache m calls = some cache ∧ CacheOk c h cache := by
  have hempty : CacheOk c h ∅ := fun k s hl => by cases hl
  rw [fillCache]
  generalize (∅ : ThresholdConditionCache) = cache at hempty ⊢
  induction calls generalizing cache with
  | nil => exact ⟨cache, rfl, hempty⟩
  | cons p calls ih =>
    obtain ⟨cache', hget, hcache'⟩ := getStateFor_spec hset (hcalls p mem_cons_self) hempty
    rw [foldlM_cons, hget]
    exact ih (fun q hq => hcalls q (mem_cons_of_mem _ hq)) cache' hcache'

theorem sinceLoop_spec (hset : Setting c h) (hp : p ∈ m) (hs : s ≠ .defined) {fuel : Nat}
    (hb : h.forest.ancestorAt (c.period * (n + 1) - 1) p = some b)
    (hn : c.period * (n + 1) ≤ h.forest.height p + 1) (hfuel : n < fuel)
    (hsame : stateAfter c h.forest m.getMedianTimePast (c.signalsAt m) p (n + 1) = s)
    (hcache : CacheOk c h cache) :
    ∃ n' b' cache', c.sinceLoop m s fuel b (boundary c h.forest p n) cache = some (b', cache') ∧
      h.forest.ancestorAt (c.period * (n' + 1) - 1) p = some b' ∧ n' ≤ n ∧
      (∀ i, n' < i → i ≤ n + 1 →
        stateAfter c h.forest m.getMedianTimePast (c.signalsAt m) p i = s) ∧
      stateAfter c h.forest m.getMedianTimePast (c.signalsAt m) p n' ≠ s := by
  induction fuel generalizing n b cache with
  | zero => cases hfuel
  | succ fuel ih =>
    have hhere : ∀ i, n < i → i ≤ n + 1 →
        stateAfter c h.forest m.getMedianTimePast (c.signalsAt m) p i = s := by
      intro i hi hi'
      obtain rfl : i = n + 1 := by omega
      exact hsame
    cases n with
    | zero => exact ⟨0, b, cache, rfl, hb, le_refl 0, hhere, fun h0 => hs h0.symm⟩
    | succ n =>
      have hmul : c.period * (n + 1 + 1) = c.period * (n + 1) + c.period := mul_succ _ _
      obtain ⟨a, ha, hah⟩ := exists_boundary (F := h.forest) (p := p) (n := n) hset.period (by omega)
      have hbound : boundary c h.forest p (n + 1) = some a := by
        rw [boundary, if_neg (succ_ne_zero n), ha]
      have ham := h.mem_of_up hp (h.forest.up_of_ancestorAt ha)
      have hstate : c.stateOf h (some a) =
          stateAfter c h.forest m.getMedianTimePast (c.signalsAt m) p (n + 1) := by
        rw [← hbound]
        exact bip9State_boundary hset.period hset.notAlways (by omega)
      have hknown : Known m (some a) := fun k hk => by rwa [← some.inj hk]
      obtain ⟨cache', hget, hcache'⟩ := getStateFor_spec hset hknown hcache
      rw [hbound, sinceLoop]
      simp only [hget, hstate, bind_eq_bind, bind_some]
      -- the period before has the same state, or the run starts here
      by_cases heq : stateAfter c h.forest m.getMedianTimePast (c.signalsAt m) p (n + 1) = s
      · obtain ⟨e, he⟩ := isSome_iff_exists.mp (lookup_isSome.mpr ham)
        have hprev := getAncestor_boundary hset hp ha he
        rw [if_pos heq, he]
        simp only [hprev, bind_some]
        obtain ⟨n', b', cache'', hres, hb', hle, hrun, hdiff⟩ :=
          ih ha (by omega) (by omega) heq hcache'
        refine ⟨n', b', cache'', hres, hb', by omega, ?_, hdiff⟩
        intro i hi hi'
        by_cases hlast : i ≤ n + 1
        · exact hrun i hi hlast
        · exact hhere i (by omega) hi'
      · rw [if_neg heq]
        exact ⟨n + 1, b, cache', rfl, hb, le_refl _, hhere, heq⟩

/-- The height of the block after `p`. -/
def nextHeight (m : BlockMap) (p : Option Uint256) : Nat := p.elim 0 fun k => m.nHeight k + 1

/-- `height` is the first of the run of heights, up to that of the block after `p`,
    with its state. -/
structure FirstOfRun (c : ThresholdConditionChecker) (h : m.TreeOk) (p : Option Uint256)
    (height : Nat) : Prop where
  le : height ≤ nextHeight m p
  same : ∀ i, height ≤ i → i ≤ nextHeight m p → c.stateOf h (blockBefore h.forest p i) = c.stateOf h p
  first : ∀ i, height = i + 1 → c.stateOf h (blockBefore h.forest p i) ≠ c.stateOf h p

variable {i : Nat}

theorem stateOf_blockBefore (hset : Setting c h) (hi : i ≤ nextHeight m (some p)) :
    c.stateOf h (blockBefore h.forest (some p) i) =
      stateAfter c h.forest m.getMedianTimePast (c.signalsAt m) p (i / c.period) :=
  stateAtHeight_eq hset.notAlways hi

theorem getStateSinceHeightFor_spec (hset : Setting c h) {p : Option Uint256} (hp : Known m p)
    (hcache : CacheOk c h cache) : ∃ (height : Nat) (cache' : ThresholdConditionCache),
      c.getStateSinceHeightFor m p cache = some ((height : Int), cache') ∧
        FirstOfRun c h p height := by
  obtain ⟨cache0, hget, hcache0⟩ := getStateFor_spec hset hp hcache
  rw [getStateSinceHeightFor, if_neg hset.notAlways]
  simp only [hget, bind_eq_bind, bind_some]
  cases p with
  | none =>
    have hstate : c.stateOf h none = .defined := bip9State_none hset.notAlways
    rw [if_pos hstate]
    refine ⟨0, cache0, rfl, zero_le _, ?_, fun i hi => by omega⟩
    intro i _ hi
    obtain rfl : i = 0 := le_zero.mp hi
    rfl
  | some p =>
    have hpm := hp p rfl
    have hperiod := hset.period
    have hle : c.period * ((h.forest.height p + 1) / c.period) ≤ h.forest.height p + 1 :=
      mul_div_le _ _
    have hstate : c.stateOf h (some p) = stateAfter c h.forest m.getMedianTimePast (c.signalsAt m) p
        ((h.forest.height p + 1) / c.period) := bip9State_some hset.notAlways
    -- no period leads back to DEFINED, so the whole chain below has that state
    by_cases hdefined : c.stateOf h (some p) = .defined
    · rw [if_pos hdefined]
      refine ⟨0, cache0, rfl, zero_le _, ?_, fun i hi => by omega⟩
      intro i _ hi
      rw [stateOf_blockBefore hset hi, hdefined]
      exact stateAfter_defined_of_le (hstate.symm.trans hdefined) (Nat.div_le_div_right hi)
    · rw [if_neg hdefined]
      simp only [periodParent_spec hset hpm, bind_some]
      cases hn : (h.forest.height p + 1) / c.period with
      | zero =>
        rw [hn] at hstate
        exact absurd hstate hdefined
      | succ n =>
        rw [hn] at hle hstate
        obtain ⟨b, hb, hbh⟩ := exists_boundary hperiod hle
        have hbm := h.mem_of_up hpm (h.forest.up_of_ancestorAt hb)
        obtain ⟨e, he⟩ := isSome_iff_exists.mp (lookup_isSome.mpr hbm)
        have heh : h.forest.height b = e.nHeight := nHeight_of_lookup he
        have hn' : n + 1 ≤ c.period * (n + 1) := Nat.le_mul_of_pos_left _ hperiod
        have hfuel : n < e.nHeight + 1 := by omega
        obtain ⟨k, b', cache', hres, hb', hk, hrun, hdiff⟩ :=
          sinceLoop_spec hset hpm hdefined hb hle hfuel hstate.symm hcache0
        have hkle : c.period * (k + 1) ≤ c.period * (n + 1) :=
          mul_le_mul_left _ (succ_le_succ hk)
        -- the loop ends at the last block b' of period k, and answers one height more
        have hpos : 0 < c.period * (k + 1) := Nat.mul_pos hperiod (Nat.succ_pos k)
        have hb'm := h.mem_of_up hpm (h.forest.up_of_ancestorAt hb')
        obtain ⟨e', he'⟩ := isSome_iff_exists.mp (lookup_isSome.mpr hb'm)
        have heh' : h.forest.height b' = e'.nHeight := nHeight_of_lookup he'
        have hb'h := (h.forest.height_ancestorAt hb').1
        have hbound : boundary c h.forest p (n + 1) = some b := by
          rw [boundary, if_neg (succ_ne_zero n), hb]
        simp only [hbound, he, getAncestor_boundary hset hpm hb he, hres, he', bind_some]
        refine ⟨c.period * (k + 1), cache', ?_, ?_, ?_, ?_⟩
        · congr 2
          omega
        · exact hkle.trans hle
        · intro i hi hi'
          rw [stateOf_blockBefore hset hi']
          have hlow : k + 1 ≤ i / c.period := (le_div_iff_mul_le hperiod).mpr (by
            rw [mul_comm]
            exact hi)
          have hhigh : i / c.period ≤ n + 1 := by
            rw [← hn]
            exact Nat.div_le_div_right hi'
          exact hrun _ hlow hhigh
        · intro i hi
          -- a height right below the answer lies in the period before, where the state differs
          have hdiv : i / c.period = k := by
            have hmul : c.period * (k + 1) = c.period * k + c.period := mul_succ _ _
            obtain rfl : i = c.period * k + (c.period - 1) := by omega
            rw [mul_add_div hperiod, div_eq_of_lt (by omega), add_zero]
          have hi' : i ≤ nextHeight m (some p) := le_trans (by omega) (hkle.trans hle)
          rw [stateOf_blockBefore hset hi', hdiv]
          exact hdiff

theorem stateOf_always (halways : c.beginTime = ALWAYS_ACTIVE) (p : Option Uint256) :
    c.stateOf h p = .active := by
  rw [stateOf, bip9State, if_pos halways]

theorem known_blockBefore {p : Option Uint256} (hp : Known m p) (i : Nat) :
    Known m (blockBefore h.forest p i) := by
  intro k hk
  rw [blockBefore] at hk
  split at hk
  · cases hk
  · obtain ⟨q, hq, ha⟩ := bind_eq_some_iff.mp hk
    exact h.mem_of_up (hp q hq) (h.forest.up_of_ancestorAt ha)

theorem stateOf_eq_of_period (hset : Setting c h) {p : Option Uint256} {j : Nat}
    (hi : i ≤ nextHeight m p) (hj : j ≤ nextHeight m p) (hij : i / c.period = j / c.period) :
    c.stateOf h (blockBefore h.forest p i) = c.stateOf h (blockBefore h.forest p j) := by
  cases p with
  | none =>
    obtain rfl : i = 0 := le_zero.mp hi
    obtain rfl : j = 0 := le_zero.mp hj
    rfl
  | some p => rw [stateOf_blockBefore hset hi, stateOf_blockBefore hset hj, hij]

theorem stateOf_terminal (hset : Setting c h) {p : Option Uint256} {j : Nat} (hij : i ≤ j)
    (hj : j ≤ nextHeight m p) (hs : s = .active ∨ s = .failed)
    (hi : c.stateOf h (blockBefore h.forest p i) = s) :
    c.stateOf h (blockBefore h.forest p j) = s := by
  cases p with
  | none =>
    obtain rfl : j = 0 := le_zero.mp hj
    obtain rfl : i = 0 := le_zero.mp hij
    exact hi
  | some p =>
    rw [stateOf_blockBefore hset (hij.trans hj)] at hi
    rw [stateOf_blockBefore hset hj]
    exact stateAfter_terminal hs hi (Nat.div_le_div_right hij)

/-- What `GetStateFor` answers with a cache. -/
def answer (c : ThresholdConditionChecker) (m : BlockMap) (cache : ThresholdConditionCache)
    (p : Option Uint256) : Option ThresholdState := (c.getStateFor m p cache).map Prod.fst

theorem answer_eq (hset : Setting c h) (hcache : CacheOk c h cache) {p : Option Uint256}
    (hp : Known m p) : c.answer m cache p = some (c.stateOf h p) := by
  obtain ⟨cache', hget, -⟩ := getStateFor_spec hset hp hcache
  rw [answer, hget]
  rfl

theorem answer_always (halways : c.beginTime = ALWAYS_ACTIVE) (p : Option Uint256) :
    c.answer m cache p = some .active := by
  rw [answer, getStateFor, if_pos halways]
  rfl

theorem fillCache_always (halways : c.beginTime = ALWAYS_ACTIVE) (calls : List (Option Uint256)) :
    c.fillCache m calls = some ∅ := by
  rw [fillCache]
  induction calls with
  | nil => rfl
  | cons p calls ih =>
    rw [foldlM_cons, getStateFor, if_pos halways]
    exact ih

theorem FirstOfRun.zero_of_always (halways : c.beginTime = ALWAYS_ACTIVE) (p : Option Uint256) :
    FirstOfRun c h p 0 where
  le := zero_le _
  same i _ _ := by rw [stateOf_always halways, stateOf_always halways]
  first i hi := absurd hi (succ_ne_zero i).symm

end

/-- Whatever was asked before, `GetStateFor` gives the state computed period by period;
    it is the same within a period, and active and failed are final.
    `GetStateSinceHeightFor` gives the start of the run. -/
theorem getStateFor_bip9 (c : ThresholdConditionChecker) {m : BlockMap} (h : m.TreeOk)
    (hskip : SkipOk m h) (htimes : m.TimesOk) (hperiod : 0 < c.period)
    (horder : c.beginTime ≤ c.endTime) (calls : List (Option Uint256))
    (hcalls : ∀ p ∈ calls, Known m p) :
    ∃ cache, c.fillCache m calls = some cache ∧ ∀ p, Known m p →
      c.answer m cache p = some (c.stateOf h p) ∧
      (∀ i j, i ≤ nextHeight m p → j ≤ nextHeight m p → i / c.period = j / c.period →
        c.answer m cache (blockBefore h.forest p i) =
          c.answer m cache (blockBefore h.forest p j)) ∧
      (∀ i j s, i ≤ j → j ≤ nextHeight m p → s = .active ∨ s = .failed →
        c.answer m cache (blockBefore h.forest p i) = some s →
          c.answer m cache (blockBefore h.forest p j) = some s) ∧
      ∃ height : Nat, (c.getStateSinceHeightFor m p cache).map Prod.fst = some (height : Int) ∧
        FirstOfRun c h p height := by
  by_cases halways : c.beginTime = ALWAYS_ACTIVE
  · refine ⟨∅, fillCache_always halways calls, fun p _ => ⟨?_, ?_, ?_, 0, ?_, ?_⟩⟩
    · rw [answer_always halways, stateOf_always halways]
    · intro i j _ _ _
      rw [answer_always halways, answer_always halways]
    · intro i j s _ _ _ hs
      rwa [answer_always halways] at hs ⊢
    · rw [getStateSinceHeightFor, if_pos halways]
      rfl
    · exact FirstOfRun.zero_of_always halways p
  · have hset : Setting c h := ⟨hperiod, hskip, htimes, horder, halways⟩
    obtain ⟨cache, hfill, hcache⟩ := fillCache_spec hset hcalls
    refine ⟨cache, hfill, fun p hp => ⟨answer_eq hset hcache hp, ?_, ?_, ?_⟩⟩
    · intro i j hi hj hij
      rw [answer_eq hset hcache (known_blockBefore hp i),
        answer_eq hset hcache (known_blockBefore hp j), stateOf_eq_of_period hset hi hj hij]
    · intro i j s hij hj hs hi
      rw [answer_eq hset hcache (known_blockBefore hp i)] at hi
      rw [answer_eq hset hcache (known_blockBefore hp j),
        stateOf_terminal hset hij hj hs (some.inj hi)]
    · obtain ⟨height, cache', hsince, hfirst⟩ := getStateSinceHeightFor_spec hset hp hcache
      exact ⟨height, by rw [hsince]; rfl, hfirst⟩

section Samples

/-- A block that is its own number of steps above the genesis block. -/
def sampleEntry (height nTime : Nat) : CBlockIndexEntry :=
  { hash := height + 1, nHeight := height, nVersion := 1, nTime := nTime, nBits := 0,
    pprev := if height = 0 then none else some height }

/-- The genesis block. -/
def sampleRoot : BlockMap := insert 1 (sampleEntry 0 50) ∅

theorem sampleRoot_treeOk : sampleRoot.TreeOk :=
  TreeOk.empty.insert (by decide) rfl (fun p hp => by cases hp) fun _ => rfl

/-- Three blocks, of which only the first has a late time. -/
def sampleBackwards : BlockMap :=
  insert 3 (sampleEntry 2 0) (insert 2 (sampleEntry 1 0)
    (insert 1 (sampleEntry 0 100) ∅))

theorem sampleBackwards_treeOk : sampleBackwards.TreeOk := by
  have hfirst : TreeOk (insert 1 (sampleEntry 0 100) ∅) :=
    TreeOk.empty.insert (by decide) rfl (fun p hp => by cases hp) fun _ => rfl
  have hsecond := hfirst.insert (k := 2) (e := sampleEntry 1 0) (by decide) rfl
    (fun p hp => by cases hp; exact ⟨_, rfl, rfl⟩) fun hp => by cases hp
  exact hsecond.insert (by decide) rfl
    (fun p hp => by cases hp; exact ⟨_, rfl, rfl⟩) fun hp => by cases hp

def sampleChecker (beginTime endTime : Int) : ThresholdConditionChecker :=
  { condition := fun _ => true, beginTime := beginTime, endTime := endTime, period := 1,
    threshold := 1 }

/-- A deployment that ends before it begins has failed at once, and the shortcut for
    blocks before the begin time says that it is still defined.  So it does on a chain whose
    median time falls back before the begin time. -/
theorem getStateFor_not_bip9 :
    (sampleChecker 100 10).answer sampleRoot ∅ (some 1) = some .defined ∧
      (sampleChecker 100 10).stateOf sampleRoot_treeOk (some 1) = .failed ∧
      (sampleChecker 100 1000).answer sampleBackwards ∅ (some 3) = some .defined ∧
      (sampleChecker 100 1000).stateOf sampleBackwards_treeOk (some 3) = .active := by
  decide

/-- Three blocks with rising times. -/
def sampleRising : BlockMap :=
  insert 3 (sampleEntry 2 300) (insert 2 (sampleEntry 1 200)
    (insert 1 (sampleEntry 0 100) ∅))

theorem sampleRising_treeOk : sampleRising.TreeOk := by
  have hfirst : TreeOk (insert 1 (sampleEntry 0 100) ∅) :=
    TreeOk.empty.insert (by decide) rfl (fun p hp => by cases hp) fun _ => rfl
  have hsecond := hfirst.insert (k := 2) (e := sampleEntry 1 200) (by decide) rfl
    (fun p hp => by cases hp; exact ⟨_, rfl, rfl⟩) fun hp => by cases hp
  exact hsecond.insert (by decide) rfl
    (fun p hp => by cases hp; exact ⟨_, rfl, rfl⟩) fun hp => by cases hp

theorem sampleRising_entry {k : Uint256} {e : CBlockIndexEntry}
    (h : sampleRising.lookup k = some e) :
    e = sampleEntry 0 100 ∨ e = sampleEntry 1 200 ∨ e = sampleEntry 2 300 := by
  simp only [sampleRising, Maps.lookup_insert] at h
  split at h
  · exact .inr (.inr (some.inj h).symm)
  split at h
  · exact .inr (.inl (some.inj h).symm)
  split at h
  · exact .inl (some.inj h).symm
  · cases h

/-- With a period of one block the deployment starts, is locked in and is active; the
    states of the first and the third block are asked for before. -/
theorem getStateFor_bip9_sample :
    ∃ cache, (sampleChecker 10 1000).fillCache sampleRising [some 1, some 3] = some cache ∧
      (sampleChecker 10 1000).answer sampleRising cache (some 1) = some .started ∧
      (sampleChecker 10 1000).answer sampleRising cache (some 2) = some .lockedIn ∧
      (sampleChecker 10 1000).answer sampleRising cache (some 3) = some .active := by
  have hskip : SkipOk sampleRising sampleRising_treeOk := by
    intro k e skip he hs
    obtain rfl | rfl | rfl := sampleRising_entry he <;> cases hs
  have htimes : sampleRising.TimesOk := by
    intro k e p he hp
    obtain rfl | rfl | rfl := sampleRising_entry he <;> cases hp <;> decide
  have hknown : ∀ k ∈ [1, 2, 3], Known sampleRising (some k) := by
    intro k hk q hq
    cases hq
    revert k
    decide
  obtain ⟨cache, hfill, hall⟩ := getStateFor_bip9 (sampleChecker 10 1000) sampleRising_treeOk
    hskip htimes (by decide) (by decide) [some 1, some 3] (fun p hp => by
      obtain ⟨k, hk, rfl⟩ : ∃ k ∈ [1, 2, 3], some k = p := by
        revert p
        decide
      exact hknown k hk)
  refine ⟨cache, hfill, (hall _ (hknown 1 (by decide))).1.trans ?_,
    (hall _ (hknown 2 (by decide))).1.trans ?_, (hall _ (hknown 3 (by decide))).1.trans ?_⟩
  · decide
  · decide
  · decide

end Samples

end ThresholdConditionChecker

end Rcoin
