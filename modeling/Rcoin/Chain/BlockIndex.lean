/-
  The block index: a map from hashes to entries, which point to their parent and,
  for fast walks, to one ancestor further back.

  Source: CBlockIndex in src/chain.{h,cpp}.  A `CBlockIndex*` is the hash of its
  block; `none` stands for the null pointer, and as a result for the use of one.
-/
import Rcoin.Primitives
import Rcoin.Lib.Forest
import Rcoin.Lib.Maps

namespace Rcoin

open List Option

/-! ## Entries -/

/-- `nStatus`: the validity level (`BLOCK_VALID_MASK`) and the flags. -/
structure BlockStatus where
  valid : Nat := 0
  haveData : Bool := false
  haveUndo : Bool := false
  failedValid : Bool := false
  failedChild : Bool := false
  deriving DecidableEq, Repr

def BLOCK_VALID_TREE : Nat := 2

def BLOCK_VALID_TRANSACTIONS : Nat := 3

def BLOCK_VALID_SCRIPTS : Nat := 5

/-- `nStatus & BLOCK_FAILED_MASK`. -/
def BlockStatus.failed (s : BlockStatus) : Bool := s.failedValid || s.failedChild

/-- The header of a block, with its hash. -/
structure CBlockHeader where
  hash : Uint256
  hashPrevBlock : Uint256
  hashMerkleRoot : Uint256 := 0
  nVersion : Int := 1
  nTime : Nat
  nBits : Nat
  deriving DecidableEq, Repr

/-- The further fields of a `CBlockIndex`. -/
structure CBlockIndexEntry extends CBlockIndex where
  pskip : Option Uint256 := none
  nChainWork : Nat := 0
  nTx : Nat := 0
  nChainTx : Nat := 0
  nStatus : BlockStatus := {}
  nVersion : Int
  nTime : Nat
  nBits : Nat
  nSequenceId : Int := 0
  nTimeMax : Nat := 0
  deriving DecidableEq, Repr

abbrev BlockMap := AList fun _ : Uint256 => CBlockIndexEntry

namespace CBlockIndexEntry

def getBlockTime (e : CBlockIndexEntry) : Int := e.nTime

def isValid (e : CBlockIndexEntry) (nUpTo : Nat) : Bool :=
  !e.nStatus.failed && decide (nUpTo ≤ e.nStatus.valid)

def raiseValidity (nUpTo : Nat) (e : CBlockIndexEntry) : CBlockIndexEntry :=
  if e.nStatus.failed then e
  else if e.nStatus.valid < nUpTo then { e with nStatus := { e.nStatus with valid := nUpTo } } else e

end CBlockIndexEntry

/-! ## Walks -/

def invertLowestOne (n : Nat) : Nat := n &&& (n - 1)

def getSkipHeight (height : Nat) : Nat :=
  if height < 2 then 0
  else if height % 2 = 1 then invertLowestOne (invertLowestOne (height - 1)) + 1
  else invertLowestOne height

namespace BlockMap

/-- The loop of `GetAncestor`; the height goes down in each round, so that as many
    rounds as the height of the start are enough. -/
def ancestorWalk (m : BlockMap) (height : Nat) : Nat → Uint256 → Nat → Option Uint256
  | 0, pindexWalk, heightWalk => if heightWalk ≤ height then some pindexWalk else none
  | fuel + 1, pindexWalk, heightWalk =>
    if heightWalk ≤ height then some pindexWalk
    else do
      let e ← m.lookup pindexWalk
      let heightSkip := getSkipHeight heightWalk
      let heightSkipPrev := getSkipHeight (heightWalk - 1)
      match e.pskip with
      | some skip =>
        if heightSkip = height ∨ (heightSkip > height ∧
            ¬ (heightSkipPrev + 2 < heightSkip ∧ heightSkipPrev ≥ height)) then
          ancestorWalk m height fuel skip heightSkip
        else
          let prev ← e.pprev
          ancestorWalk m height fuel prev (heightWalk - 1)
      | none =>
        let prev ← e.pprev
        ancestorWalk m height fuel prev (heightWalk - 1)

/-- `GetAncestor`; the inner `none` is the null pointer, returned for a height that
    is negative or above the block. -/
def getAncestor (m : BlockMap) (pindex : Uint256) (height : Int) : Option (Option Uint256) := do
  let e ← m.lookup pindex
  if height > e.nHeight ∨ height < 0 then some none
  else (ancestorWalk m height.toNat e.nHeight pindex e.nHeight).map some

/-- The times of a block and of the blocks before it, at most `n`. -/
def lastTimes (m : BlockMap) : Nat → Option Uint256 → List Int
  | 0, _ => []
  | _ + 1, none => []
  | n + 1, some pindex =>
    match m.lookup pindex with
    | none => []
    | some e => e.getBlockTime :: lastTimes m n e.pprev

def nMedianTimeSpan : Nat := 11

/-- The middle element of the sorted times. -/
def median (times : List Int) : Int := (times.insertionSort (· ≤ ·)).getD (times.length / 2) 0

def getMedianTimePast (m : BlockMap) (pindex : Uint256) : Int :=
  median (m.lastTimes nMedianTimeSpan (some pindex))

/-! ## The tree -/

def pprev (m : BlockMap) (k : Uint256) : Option Uint256 := (m.lookup k).bind fun e => e.pprev

def nHeight (m : BlockMap) (k : Uint256) : Nat := (m.lookup k).elim 0 fun e => e.nHeight

/-- Parents are in the index, one below their children; blocks without a parent are
    at height 0.  Skip pointers go to the ancestor at the skip height. -/
structure TreeOk (m : BlockMap) : Prop where
  hash : ∀ k e, m.lookup k = some e → e.hash = k
  parent : ∀ k e p, m.lookup k = some e → e.pprev = some p →
    ∃ e', m.lookup p = some e' ∧ e.nHeight = e'.nHeight + 1
  root : ∀ k e, m.lookup k = some e → e.pprev = none → e.nHeight = 0

variable {m : BlockMap} {k a p : Uint256} {e : CBlockIndexEntry}

theorem pprev_of_lookup (he : m.lookup k = some e) : m.pprev k = e.pprev := by
  rw [pprev, he, bind_some]

theorem nHeight_of_lookup (he : m.lookup k = some e) : m.nHeight k = e.nHeight := by
  rw [nHeight, he, elim_some]

/-- The index as a forest. -/
def TreeOk.forest (h : TreeOk m) : Forest Uint256 where
  parent := m.pprev
  height := m.nHeight
  height_parent {k p} hp := by
    obtain ⟨e, he, hep⟩ := bind_eq_some_iff.mp hp
    obtain ⟨e', he', hh⟩ := h.parent k e p he hep
    rw [nHeight_of_lookup he, nHeight_of_lookup he', hh]
  height_root {k} hp := by
    cases he : m.lookup k with
    | none => rw [nHeight, he, elim_none]
    | some e =>
      rw [nHeight_of_lookup he]
      exact h.root k e he (by rw [← pprev_of_lookup he, hp])

/-- A skip pointer that is set goes to the ancestor of the parent at the skip height. -/
def SkipOk (m : BlockMap) (h : TreeOk m) : Prop :=
  ∀ k e skip, m.lookup k = some e → e.pskip = some skip →
    e.pprev.bind (fun p => h.forest.ancestorAt (getSkipHeight e.nHeight) p) = some skip

end BlockMap

theorem invertLowestOne_le (n : Nat) : invertLowestOne n ≤ n - 1 := Nat.and_le_right

theorem getSkipHeight_lt {height : Nat} (h : 0 < height) : getSkipHeight height < height := by
  unfold getSkipHeight
  have hfirst := invertLowestOne_le height
  have hsecond := invertLowestOne_le (height - 1)
  have hthird := invertLowestOne_le (invertLowestOne (height - 1))
  split
  · exact h
  · split <;> omega

namespace BlockMap

variable {m : BlockMap}

theorem TreeOk.empty : TreeOk ∅ where
  hash _ _ hl := by cases hl
  parent _ _ _ hl := by cases hl
  root _ _ hl := by cases hl

variable {k : Uint256}

theorem TreeOk.insert (h : TreeOk m) {e : CBlockIndexEntry} (hk : k ∉ m) (hhash : e.hash = k)
    (hparent : ∀ p, e.pprev = some p → ∃ e', m.lookup p = some e' ∧ e.nHeight = e'.nHeight + 1)
    (hroot : e.pprev = none → e.nHeight = 0) : TreeOk (AList.insert k e m) where
  hash k' e' hl := by
    rw [Maps.lookup_insert] at hl
    split at hl
    next heq => rw [← Option.some.inj hl, hhash, heq]
    next => exact h.hash k' e' hl
  parent k' e' p hl hp := by
    have hkeep : ∀ q e'', m.lookup q = some e'' → (AList.insert k e m).lookup q = some e'' := by
      intro q e'' hq
      have hne : q ≠ k := by
        rintro rfl
        exact hk (AList.lookup_isSome.mp (by rw [hq]; rfl))
      rw [Maps.lookup_insert, if_neg hne, hq]
    rw [Maps.lookup_insert] at hl
    split at hl
    next =>
      obtain rfl := Option.some.inj hl
      obtain ⟨e'', he'', hh⟩ := hparent p hp
      exact ⟨e'', hkeep p e'' he'', hh⟩
    next =>
      obtain ⟨e'', he'', hh⟩ := h.parent k' e' p hl hp
      exact ⟨e'', hkeep p e'' he'', hh⟩
  root k' e' hl hp := by
    rw [Maps.lookup_insert] at hl
    split at hl
    next =>
      obtain rfl := Option.some.inj hl
      exact hroot hp
    next => exact h.root k' e' hl hp

variable {p : Uint256}

theorem TreeOk.mem_of_parent (h : TreeOk m) (hp : h.forest.parent k = some p) : k ∈ m ∧ p ∈ m := by
  obtain ⟨e, he, hep⟩ := bind_eq_some_iff.mp hp
  obtain ⟨e', he', -⟩ := h.parent k e p he hep
  exact ⟨AList.lookup_isSome.mp (by rw [he]; rfl), AList.lookup_isSome.mp (by rw [he']; rfl)⟩

theorem TreeOk.mem_of_up (h : TreeOk m) {n : Nat} {a : Uint256} (hk : k ∈ m)
    (ha : h.forest.up n k = some a) : a ∈ m := by
  induction n generalizing k with
  | zero => rwa [← Option.some.inj ha]
  | succ n ih =>
    obtain ⟨p, hp, ha⟩ := bind_eq_some_iff.mp ha
    exact ih (h.mem_of_parent hp).2 ha

theorem ancestorWalk_spec (h : TreeOk m) (hskip : SkipOk m h) {height fuel heightWalk : Nat}
    (hk : k ∈ m) (hheight : h.forest.height k = heightWalk) (hle : height ≤ heightWalk)
    (hfuel : heightWalk - height ≤ fuel) :
    m.ancestorWalk height fuel k heightWalk = h.forest.ancestorAt height k := by
  induction fuel generalizing k heightWalk with
  | zero =>
    rw [ancestorWalk, if_pos (by omega)]
    exact (h.forest.ancestorAt_eq_self (by omega)).symm
  | succ fuel ih =>
    rw [ancestorWalk]
    by_cases hge : heightWalk ≤ height
    · rw [if_pos hge]
      exact (h.forest.ancestorAt_eq_self (by omega)).symm
    · rw [if_neg hge]
      obtain ⟨e, he⟩ := isSome_iff_exists.mp (AList.lookup_isSome.mpr hk)
      have heh : h.forest.height k = e.nHeight := nHeight_of_lookup he
      have hparent : h.forest.parent k = e.pprev := pprev_of_lookup he
      cases hp : e.pprev with
      | none =>
        have := h.forest.height_root (hparent.trans hp)
        omega
      | some p =>
        rw [hp] at hparent
        have hpm := (h.mem_of_parent hparent).2
        have hph := h.forest.height_parent hparent
        -- one step up, to the parent
        have hparentStep : m.ancestorWalk height fuel p (heightWalk - 1) =
            h.forest.ancestorAt height k := by
          rw [ih hpm (by omega) (by omega) (by omega),
            h.forest.ancestorAt_parent hparent (by omega)]
        simp only [he, hp, bind_eq_bind, bind_some]
        cases hs : e.pskip with
        | none => exact hparentStep
        | some skip =>
          simp only
          split
          next hcond =>
            have hskipAt : h.forest.ancestorAt (getSkipHeight heightWalk) p = some skip := by
              have := hskip k e skip he hs
              rwa [hp, bind_some, ← heh, hheight] at this
            obtain ⟨hskipHeight, -⟩ := h.forest.height_ancestorAt hskipAt
            have hskipMem := h.mem_of_up hpm (h.forest.up_of_ancestorAt hskipAt)
            have hpos : 0 < heightWalk := by omega
            have hlt := getSkipHeight_lt hpos
            rw [ih hskipMem hskipHeight (by omega) (by omega),
              h.forest.ancestorAt_parent hparent (by omega),
              h.forest.ancestorAt_trans hskipAt (by omega)]
          next => exact hparentStep

theorem getAncestor_eq (h : TreeOk m) (hskip : SkipOk m h) (hk : k ∈ m) (height : Int)
    : m.getAncestor k height =
      some (if height < 0 then none else h.forest.ancestorAt height.toNat k) := by
  obtain ⟨e, he⟩ := isSome_iff_exists.mp (AList.lookup_isSome.mpr hk)
  have heh : h.forest.height k = e.nHeight := nHeight_of_lookup he
  simp only [getAncestor, he, bind_eq_bind, bind_some]
  by_cases hneg : height < 0
  · rw [if_pos (Or.inr hneg), if_pos hneg]
  · rw [if_neg hneg]
    by_cases habove : height > e.nHeight
    · rw [if_pos (Or.inl habove), Forest.ancestorAt, if_neg (by omega)]
    · rw [if_neg (by omega), ← heh, ancestorWalk_spec h hskip hk rfl (by omega) (by omega)]
      obtain ⟨a, ha, -⟩ := h.forest.exists_ancestorAt (k := k) (h := height.toNat) (by omega)
      rw [ha]
      rfl

/-! ## Median times -/

variable {l : List Int}

theorem le_getD_iff (hl : l.Pairwise (· ≤ ·)) {i : Nat} (hi : i < l.length) (t : Int)
    : t ≤ l.getD i 0 ↔ l.length ≤ l.countP (t ≤ ·) + i := by
  induction l generalizing i with
  | nil => cases hi
  | cons a l ih =>
    obtain ⟨ha, hl⟩ := pairwise_cons.mp hl
    have hall : t ≤ a → l.countP (t ≤ ·) = l.length := by
      intro hta
      refine countP_eq_length.mpr fun b hb => ?_
      exact decide_eq_true (hta.trans (ha b hb))
    have hle : l.countP (t ≤ ·) ≤ l.length := countP_le_length
    rw [length_cons, countP_cons]
    cases i with
    | zero =>
      rw [getD_cons_zero]
      by_cases hta : t ≤ a
      · have := hall hta
        simp [hta, this]
      · simp only [hta, decide_false, Bool.false_eq_true, if_false, false_iff]
        omega
    | succ i =>
      rw [getD_cons_succ, ih hl (by simpa using hi)]
      by_cases hta : t ≤ a
      · have := hall hta
        simp only [hta, decide_true, if_true]
        omega
      · simp only [hta, decide_false, Bool.false_eq_true, if_false]
        omega

theorem le_median_iff (hl : l ≠ []) (t : Int) :
    t ≤ median l ↔ l.length ≤ l.countP (t ≤ ·) + l.length / 2 := by
  have hlen : (l.insertionSort (· ≤ ·)).length = l.length := length_insertionSort _ _
  have hpos := length_pos_iff.mpr hl
  rw [median, le_getD_iff (pairwise_insertionSort _ _) (by omega), hlen,
    (perm_insertionSort _ l).countP_eq]

theorem median_le_median_cons (hl : l ≠ []) {n : Nat} (hn : l.length ≤ n + 1) {x : Int}
    (hx : median l < x) : median l ≤ median (x :: l.take n) := by
  have hmedian := (le_median_iff hl (median l)).mp (le_refl _)
  rw [le_median_iff (cons_ne_nil _ _), length_cons, length_take, countP_cons,
    if_pos (decide_eq_true hx.le)]
  have hsplit : l.countP (median l ≤ ·) =
      (l.take n).countP (median l ≤ ·) + (l.drop n).countP (median l ≤ ·) := by
    rw [← countP_append, take_append_drop]
  have hdrop : (l.drop n).countP (median l ≤ ·) ≤ l.length - n :=
    le_trans countP_le_length (le_of_eq length_drop)
  omega

theorem length_lastTimes_le (n : Nat) (k : Option Uint256) : (m.lastTimes n k).length ≤ n := by
  induction n generalizing k with
  | zero => exact Nat.le_refl _
  | succ n ih =>
    cases k with
    | none => exact Nat.zero_le _
    | some k =>
      rw [lastTimes]
      split
      · exact Nat.zero_le _
      next e _ =>
        rw [length_cons]
        exact Nat.succ_le_succ (ih e.pprev)

theorem take_lastTimes (n : Nat) (k : Option Uint256) :
    (m.lastTimes (n + 1) k).take n = m.lastTimes n k := by
  induction n generalizing k with
  | zero => rfl
  | succ n ih =>
    cases k with
    | none => rfl
    | some k =>
      rw [lastTimes, lastTimes]
      cases m.lookup k with
      | none => rfl
      | some e => exact congrArg (e.getBlockTime :: ·) (ih e.pprev)

/-- Each block is later than the median time before it, as
    `ContextualCheckBlockHeader` asks ("time-too-old"). -/
def TimesOk (m : BlockMap) : Prop :=
  ∀ k e p, m.lookup k = some e → e.pprev = some p → m.getMedianTimePast p < e.getBlockTime

theorem getMedianTimePast_mono_parent (h : TreeOk m) (ht : TimesOk m)
    (hp : h.forest.parent k = some p) : m.getMedianTimePast p ≤ m.getMedianTimePast k := by
  obtain ⟨e, he, hep⟩ := bind_eq_some_iff.mp hp
  obtain ⟨e', he', -⟩ := h.parent k e p he hep
  have hlast : m.lastTimes nMedianTimeSpan (some k) =
      e.getBlockTime :: (m.lastTimes nMedianTimeSpan (some p)).take 10 := by
    rw [nMedianTimeSpan, take_lastTimes, lastTimes, he]
    simp only [hep]
  have hne : m.lastTimes nMedianTimeSpan (some p) ≠ [] := by
    rw [nMedianTimeSpan, lastTimes, he']
    exact cons_ne_nil _ _
  unfold getMedianTimePast
  rw [hlast]
  exact median_le_median_cons hne (length_lastTimes_le _ _) (ht k e p he hep)

theorem getMedianTimePast_mono (h : TreeOk m) (ht : TimesOk m) {a : Uint256}
    (ha : h.forest.IsAncestor a k) : m.getMedianTimePast a ≤ m.getMedianTimePast k := by
  obtain ⟨n, hn⟩ := ha
  induction n generalizing k with
  | zero => rw [Option.some.inj hn]
  | succ n ih =>
    obtain ⟨p, hp, hn⟩ := bind_eq_some_iff.mp hn
    exact (ih hn).trans (getMedianTimePast_mono_parent h ht hp)

end BlockMap

end Rcoin
