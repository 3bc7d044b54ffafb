/-
  The lock points that are kept with a transaction of the pool: when a check with them gives
  what a check of all inputs gives, after other blocks have become the active chain.

  Source: TestLockPointValidity and CheckSequenceLocks in src/validation.cpp,
  CCoinsViewMemPool in src/txmempool.cpp.  The pointer to the block after the tip, a local
  object, is a key that no block has.  As a result `none` stands for a failed `assert` or the
  use of a null pointer.
-/
import Rcoin.Chain.Duplicates
import Rcoin.Chain.Locator
import Rcoin.Chain.SequenceLocks
import Rcoin.Mempool.Invariant

namespace Rcoin

open BlockMap Fallible AList Forest List Option

/-! ## The functions -/

/-- What was computed of the sequence locks, and for which block. -/
structure LockPoints where
  height : Int := 0
  time : Int := 0
  maxInputBlock : Option Uint256 := none
  deriving DecidableEq, Repr

def MEMPOOL_HEIGHT : Nat := 0x7FFFFFFF

/-- `CCoinsViewMemPool::GetCoin`; `base` is what the view below returns. -/
def CTxMemPool.getCoin (mempool : CTxMemPool) (base : COutPoint → Option Coin)
    (outpoint : COutPoint) : Option Coin :=
  match mempool.mapTx.lookup outpoint.hash with
  | some e =>
    e.tx.vout[outpoint.n]?.map fun txout =>
      { out := txout, nHeight := MEMPOOL_HEIGHT, fCoinBase := false }
  | none => base outpoint

def testLockPointValidity (m : BlockMap) (chainActive : CChain) (lp : LockPoints) : Bool :=
  match lp.maxInputBlock with
  -- Check whether chainActive is an extension of the block at which the LockPoints
  -- calculation was valid.
  | some block => chainActive.contains m block
  -- If there are no relative lock times, the LockPoints don't depend on the chain
  | none => true

/-- Assume all mempool transaction confirm in the next block. -/
def inputHeight (tipHeight : Nat) (coin : Coin) : Int :=
  if coin.nHeight = MEMPOOL_HEIGHT then tipHeight + 1 else coin.nHeight

/-- `prevheights`; `none` if an input is missing. -/
def inputHeights (getCoin : COutPoint → Option Coin) (tipHeight : Nat) (vin : List CTxIn) :
    Option (List Int) :=
  vin.mapM fun txin => (getCoin txin.prevout).map (inputHeight tipHeight)

/-- A round of the loop for `maxInputHeight`.  Can ignore mempool inputs since we'll fail if they
    had non-zero locks. -/
def laterInput (tipHeight : Nat) (maxInputHeight height : Int) : Int :=
  if height ≠ (tipHeight : Int) + 1 then max maxInputHeight height else maxInputHeight

def maxInputHeight (tipHeight : Nat) (prevheights : List Int) : Int :=
  prevheights.foldl (laterInput tipHeight) 0

namespace BlockMap

/-- A key that no block has. -/
def newKey (m : BlockMap) : Uint256 := m.keys.foldr (fun k n => max (k + 1) n) 0

/-- The block after the tip, as `CheckSequenceLocks` makes it up. -/
def nextIndex (m : BlockMap) (tip : Uint256) : CBlockIndexEntry :=
  { hash := m.newKey, pprev := some tip, nHeight := m.nHeight tip + 1, nVersion := 0, nTime := 0,
    nBits := 0 }

def withNext (m : BlockMap) (tip : Uint256) : BlockMap := m.insert m.newKey (m.nextIndex tip)

/-- `CheckSequenceLocks`: whether the locks allow the next block, and the lock points. -/
def checkSequenceLocks (m : BlockMap) (chainActive : CChain) (getCoin : COutPoint → Option Coin)
    (tx : CTransaction) (flags : Nat) (lp : Option LockPoints) (useExistingLockPoints : Bool) :
    Option (Bool × Option LockPoints) := do
  let tip ← chainActive.tip
  let index := m.newKey
  if useExistingLockPoints then
    let existing ← lp
    let r ← (m.withNext tip).evaluateSequenceLocks index (existing.height, existing.time)
    some (r, lp)
  else
    match inputHeights getCoin (m.nHeight tip) tx.vin with
    -- "Missing input"
    | none => some (false, lp)
    | some prevheights =>
      let (prevheights, lockPair) ←
        (m.withNext tip).calculateSequenceLocks tx flags prevheights index
      let maxInputBlock ← m.getAncestor tip (maxInputHeight (m.nHeight tip) prevheights)
      let r ← (m.withNext tip).evaluateSequenceLocks index lockPair
      some (r, lp.map fun _ => { height := lockPair.1, time := lockPair.2, maxInputBlock })

end BlockMap

/-! ## The block after the tip -/

namespace BlockMap

variable {m : BlockMap} {tip : Uint256} {nHeight nTime : Int}

theorem newKey_not_mem (m : BlockMap) : m.newKey ∉ m := by
  have hlt : ∀ (l : List Uint256), ∀ k ∈ l, k < l.foldr (fun k n => max (k + 1) n) 0 := by
    intro l
    induction l with
    | nil => exact fun _ hk => nomatch hk
    | cons a l ih =>
      intro k hk
      rcases mem_cons.mp hk with rfl | hk
      · exact Nat.lt_of_lt_of_le (Nat.lt_succ_self k) (Nat.le_max_left _ _)
      · exact lt_of_lt_of_le (ih k hk) (le_max_right _ _)
  intro hmem
  exact lt_irrefl _ (hlt m.keys m.newKey (AList.mem_keys.mp hmem))

section

variable (h : m.TreeOk) (htip : tip ∈ m)
include h htip

theorem TreeOk.withNext : (m.withNext tip).TreeOk := by
  refine h.insert m.newKey_not_mem rfl (fun p hp => ?_) (fun hp => nomatch hp)
  obtain ⟨e, he⟩ := isSome_iff_exists.mp (lookup_isSome.mpr htip)
  have hpt : tip = p := some.inj hp
  refine ⟨e, hpt ▸ he, ?_⟩
  rw [nextIndex, nHeight_of_lookup he]

theorem SkipOk.withNext (hskip : SkipOk m h) :
    SkipOk (m.withNext tip) (h.withNext htip) := by
  refine SkipOk.insert hskip (h.withNext htip) m.newKey_not_mem (fun p hp => ?_)
    (fun _ hs => nomatch hs)
  rwa [← some.inj hp]

omit h htip in
theorem pprev_withNext : (m.withNext tip).pprev m.newKey = some tip := by
  rw [pprev, withNext, lookup_insert]
  rfl

omit h htip in
theorem nHeight_withNext : (m.withNext tip).nHeight m.newKey = m.nHeight tip + 1 := by
  rw [nHeight, withNext, lookup_insert]
  rfl

theorem getMedianTimePast_withNext :
    (m.withNext tip).getMedianTimePast tip = m.getMedianTimePast tip :=
  (grown_insert m.newKey_not_mem).getMedianTimePast_eq h htip

theorem lockMet_withNext {txin : CTxIn} {prevHeight : Int}
    (hle : prevHeight ≤ m.nHeight tip + 1) :
    (m.withNext tip).LockMet m.newKey nHeight nTime txin prevHeight ↔
      m.LockMet tip nHeight nTime txin prevHeight := by
  have hgrown : m.Grown (m.withNext tip) := grown_insert m.newKey_not_mem
  have hj : (prevHeight - 1).toNat ≤ h.forest.height tip := by
    show (prevHeight - 1).toNat ≤ m.nHeight tip
    omega
  have hj' : (prevHeight - 1).toNat ≤ (h.withNext htip).forest.height tip := by
    have heq : (h.withNext htip).forest.height tip = h.forest.height tip := hgrown.nHeight_eq htip
    omega
  have hchain : (m.withNext tip).chainBlock m.newKey (prevHeight - 1).toNat =
      m.chainBlock tip (prevHeight - 1).toNat := by
    rw [chainBlock_eq (h.withNext htip), chainBlock_eq h,
      (h.withNext htip).forest.ancestorAt_parent pprev_withNext hj',
      hgrown.ancestorAt_eq h (h.withNext htip) htip]
  have htime : ∀ a, m.chainBlock tip (prevHeight - 1).toNat = some a →
      (m.withNext tip).getMedianTimePast a = m.getMedianTimePast a := by
    intro a ha
    rw [chainBlock_eq h] at ha
    exact hgrown.getMedianTimePast_eq h (h.mem_of_up htip (h.forest.up_of_ancestorAt ha))
  rw [LockMet, LockMet, hchain]
  refine or_congr_right ?_
  split
  · refine exists_congr fun a => and_congr_right fun ha => ?_
    rw [htime a ha]
  · exact Iff.rfl

end

end BlockMap

/-! ## What a check computes -/

/-- The height that an input is given. -/
def heightOf (getCoin : COutPoint → Option Coin) (tipHeight : Nat) (txin : CTxIn) : Int :=
  (getCoin txin.prevout).elim 0 (inputHeight tipHeight)

/-- All inputs allow a height and a time, measured from the tip. -/
def LocksMet (m : BlockMap) (getCoin : COutPoint → Option Coin) (tip : Uint256)
    (tx : CTransaction) (nHeight nTime : Int) : Prop :=
  ∀ txin ∈ tx.vin, m.LockMet tip nHeight nTime txin (heightOf getCoin (m.nHeight tip) txin)

/-- No coin is higher than the tip, except those of the pool. -/
def CoinsBelow (getCoin : COutPoint → Option Coin) (tipHeight : Nat) (tx : CTransaction) : Prop :=
  ∀ txin ∈ tx.vin, ∃ coin, getCoin txin.prevout = some coin ∧
    (coin.nHeight ≠ MEMPOOL_HEIGHT → coin.nHeight ≤ tipHeight)

section

variable {getCoin : COutPoint → Option Coin} {tipHeight : Nat} {tx : CTransaction}

theorem CoinsBelow.heightOf_le (h : CoinsBelow getCoin tipHeight tx) {txin : CTxIn}
    (htxin : txin ∈ tx.vin) : heightOf getCoin tipHeight txin ≤ tipHeight + 1 := by
  obtain ⟨coin, hcoin, hle⟩ := h txin htxin
  rw [heightOf, hcoin, elim_some, inputHeight]
  split
  · exact le_rfl
  next hne =>
    omega

variable {vin : List CTxIn}

theorem inputHeights_eq (h : ∀ txin ∈ vin, ∃ coin, getCoin txin.prevout = some coin) :
    inputHeights getCoin tipHeight vin = some (vin.map (heightOf getCoin tipHeight)) := by
  induction vin with
  | nil => rfl
  | cons txin vin ih =>
    obtain ⟨⟨coin, hcoin⟩, hrest⟩ := forall_mem_cons.mp h
    have hrest := ih hrest
    rw [inputHeights] at hrest
    rw [inputHeights, mapM_cons, hrest, map_cons]
    simp [heightOf, hcoin]

variable {prevheights : List Int}

theorem inputHeights_isSome (h : inputHeights getCoin tipHeight vin = some prevheights) :
    ∀ txin ∈ vin, ∃ coin, getCoin txin.prevout = some coin := by
  induction vin generalizing prevheights with
  | nil => exact fun _ htxin => nomatch htxin
  | cons txin vin ih =>
    rw [inputHeights, mapM_cons] at h
    obtain ⟨height, hheight, h⟩ := bind_eq_some_iff.mp h
    obtain ⟨rest, hrest, -⟩ := bind_eq_some_iff.mp h
    obtain ⟨coin, hcoin, -⟩ := map_eq_some_iff.mp hheight
    exact forall_mem_cons.mpr ⟨⟨coin, hcoin⟩, ih hrest⟩

theorem BlockMap.lockInputs_heights {m : BlockMap} {block : Uint256} {l : List (CTxIn × Int)}
    {lockPair : LockPair} {r : List Int × LockPair} (h : m.lockInputs block l lockPair = some r) :
    r.1 = l.map fun x => if x.1.nSequence.toNat.testBit 31 = true then 0 else x.2 := by
  induction l generalizing lockPair r with
  | nil =>
    obtain rfl := some.inj h
    rfl
  | cons x l ih =>
    obtain ⟨txin, height⟩ := x
    obtain ⟨r1, hr1, h⟩ := bind_eq_some_iff.mp h
    obtain ⟨r2, hr2, h⟩ := bind_eq_some_iff.mp h
    obtain rfl := some.inj h
    rw [map_cons, ← ih hr2]
    rw [lockInput] at hr1
    by_cases hdisable : txin.nSequence.toNat.testBit 31 = true
    · rw [if_pos (CTxIn.disable_iff.mpr hdisable)] at hr1
      rw [← some.inj hr1, if_pos hdisable]
    · rw [if_neg (mt CTxIn.disable_iff.mp hdisable)] at hr1
      rw [if_neg hdisable]
      split at hr1
      · obtain ⟨_, -, hr1⟩ := bind_eq_some_iff.mp hr1
        obtain ⟨_, -, hr1⟩ := bind_eq_some_iff.mp hr1
        rw [← some.inj hr1]
      · rw [← some.inj hr1]

theorem maxInputHeight_spec (h : ∀ height ∈ prevheights, height ≤ (tipHeight : Int) + 1) :
    0 ≤ maxInputHeight tipHeight prevheights ∧
      maxInputHeight tipHeight prevheights ≤ tipHeight ∧
      ∀ height ∈ prevheights, height ≤ tipHeight →
        height ≤ maxInputHeight tipHeight prevheights := by
  have hloop : ∀ (l : List Int) (acc : Int), (∀ height ∈ l, height ≤ (tipHeight : Int) + 1) →
      acc ≤ tipHeight → acc ≤ l.foldl (laterInput tipHeight) acc ∧
        l.foldl (laterInput tipHeight) acc ≤ tipHeight ∧
        ∀ height ∈ l, height ≤ tipHeight → height ≤ l.foldl (laterInput tipHeight) acc := by
    intro l
    induction l with
    | nil => exact fun acc _ hle => ⟨le_rfl, hle, fun _ hmem => nomatch hmem⟩
    | cons x l ih =>
      intro acc hl hle
      obtain ⟨hx, hl⟩ := forall_mem_cons.mp hl
      have hstep : acc ≤ laterInput tipHeight acc x ∧ laterInput tipHeight acc x ≤ tipHeight ∧
          (x ≤ tipHeight → x ≤ laterInput tipHeight acc x) := by
        rw [laterInput]
        split <;> omega
      obtain ⟨hacc, hmax, hall⟩ := ih (laterInput tipHeight acc x) hl hstep.2.1
      exact ⟨hstep.1.trans hacc, hmax,
        forall_mem_cons.mpr ⟨fun hle => (hstep.2.2 hle).trans hacc, hall⟩⟩
  exact hloop prevheights 0 h (Int.natCast_nonneg _)

end

section

variable {t : BlockTree} {c : CChain} {tip : Uint256} {getCoin : COutPoint → Option Coin}
  {tx : CTransaction}

theorem BlockTree.evaluate_next (t : BlockTree) (htip : tip ∈ t.map) (lockPair : LockPair) :
    ∃ r, (t.map.withNext tip).evaluateSequenceLocks t.map.newKey lockPair = some r ∧
      (r = true ↔
        PairMet (t.map.nHeight tip + 1) (t.map.getMedianTimePast tip) lockPair) := by
  have hprev : (t.map.withNext tip).pprev t.map.newKey = some tip := pprev_withNext
  obtain ⟨r, hr⟩ := isSome_iff_exists.mp (evaluateSequenceLocks_isSome hprev lockPair)
  refine ⟨r, hr, ?_⟩
  have hiff := evaluateSequenceLocks_iff hprev lockPair
  rw [hr, Option.some.injEq, nHeight_withNext, getMedianTimePast_withNext t.tree htip,
    Nat.cast_add, Nat.cast_one] at hiff
  exact hiff

theorem ActiveChain.check_existing (h : ActiveChain t c tip) (flags : Nat) (lp : LockPoints) :
    ∃ r, t.map.checkSequenceLocks c getCoin tx flags (some lp) true = some (r, some lp) ∧
      (r = true ↔ PairMet (t.map.nHeight tip + 1) (t.map.getMedianTimePast tip)
        (lp.height, lp.time)) := by
  obtain ⟨r, hr, hiff⟩ := t.evaluate_next h.mem (lp.height, lp.time)
  refine ⟨r, ?_, hiff⟩
  simp only [checkSequenceLocks, h.tip_eq, if_true, bind_eq_bind, bind_some, hr]

theorem ActiveChain.check_inputs (h : ActiveChain t c tip) {flags : Nat}
    {lp lp' : Option LockPoints}
    (hcheck : t.map.checkSequenceLocks c getCoin tx flags lp false = some (true, lp')) :
    ∀ txin ∈ tx.vin, ∃ coin, getCoin txin.prevout = some coin := by
  cases hinputs : inputHeights getCoin (t.map.nHeight tip) tx.vin with
  | some prevheights => exact inputHeights_isSome hinputs
  | none => simp [checkSequenceLocks, h.tip_eq, hinputs] at hcheck

/-- What is stored when the locks are computed: a pair that allows a height and a time exactly
    when the inputs do, and a block not below those with locked inputs. -/
structure LockPoints.Computed (t : BlockTree) (getCoin : COutPoint → Option Coin) (tip : Uint256)
    (tx : CTransaction) (flags : Nat) (lp : LockPoints) : Prop where
  pair : ∀ nHeight nTime : Int, 0 ≤ nHeight → 0 ≤ nTime →
    (PairMet nHeight nTime (lp.height, lp.time) ↔
      (enforceBIP68 tx flags = true → LocksMet t.map getCoin tip tx nHeight nTime))
  block : ∃ (maxHeight : Nat) (b : Uint256), lp.maxInputBlock = some b ∧
    t.forest.ancestorAt maxHeight tip = some b ∧ (enforceBIP68 tx flags = true →
      ∀ txin ∈ tx.vin, txin.nSequence.toNat.testBit 31 = false →
        heightOf getCoin (t.map.nHeight tip) txin ≤ t.map.nHeight tip →
        heightOf getCoin (t.map.nHeight tip) txin ≤ maxHeight)

theorem ActiveChain.check_recompute (h : ActiveChain t c tip)
    (hcoins : CoinsBelow getCoin (t.map.nHeight tip) tx) (flags : Nat) (lp : Option LockPoints) :
    ∃ r lock, t.map.checkSequenceLocks c getCoin tx flags lp false =
        some (r, lp.map fun _ => lock) ∧
      LockPoints.Computed t getCoin tip tx flags lock ∧
      (r = true ↔ (enforceBIP68 tx flags = true → LocksMet t.map getCoin tip tx
        (t.map.nHeight tip + 1) (t.map.getMedianTimePast tip))) := by
  set n := t.map.nHeight tip with hn
  set heights := tx.vin.map (heightOf getCoin n) with hheights
  have hlen : heights.length = tx.vin.length := length_map _
  have hle : ∀ height ∈ heights, height ≤ (n : Int) + 1 := by
    intro height hmem
    obtain ⟨txin, htxin, rfl⟩ := mem_map.mp hmem
    exact hcoins.heightOf_le htxin
  have htree := t.tree.withNext h.mem
  have hskip := SkipOk.withNext t.tree h.mem t.skip
  have hkey : t.map.newKey ∈ t.map.withNext tip := (mem_insert _).mpr (.inl rfl)
  have hnext : (t.map.withNext tip).nHeight t.map.newKey = n + 1 := nHeight_withNext
  have hpairs : tx.vin.zip heights = tx.vin.map fun txin => (txin, heightOf getCoin n txin) := by
    have := zip_map' (f := id) (g := heightOf getCoin n) (l := tx.vin)
    rwa [List.map_id] at this
  -- measured from the tip
  have hzip : ∀ nHeight nTime : Int, (∀ x ∈ tx.vin.zip heights,
      (t.map.withNext tip).LockMet t.map.newKey nHeight nTime x.1 x.2) ↔
      LocksMet t.map getCoin tip tx nHeight nTime := by
    intro nHeight nTime
    rw [hpairs, List.forall_mem_map]
    exact forall₂_congr fun txin htxin =>
      lockMet_withNext t.tree h.mem (hcoins.heightOf_le htxin)
  obtain ⟨computed, hcomputed⟩ := calculateSequenceLocks_isSome htree hskip hkey tx flags hlen
    fun height hmem => by
      have := hle height hmem
      omega
  have hpair : ∀ nHeight nTime : Int, 0 ≤ nHeight → 0 ≤ nTime →
      (PairMet nHeight nTime computed.2 ↔
        (enforceBIP68 tx flags = true → LocksMet t.map getCoin tip tx nHeight nTime)) := by
    intro nHeight nTime hheight htime
    have hiff := calculateSequenceLocks_iff htree hskip hkey tx flags heights hheight htime
    simp only [hcomputed, some.injEq, exists_eq_left', hlen, true_and] at hiff
    rw [hiff, hzip]
  -- what is left of the heights, and the highest one
  have hleft : (∀ height ∈ computed.1, height ≤ (n : Int) + 1) ∧ (enforceBIP68 tx flags = true →
      ∀ txin ∈ tx.vin, txin.nSequence.toNat.testBit 31 = false →
        heightOf getCoin n txin ∈ computed.1) := by
    rw [calculateSequenceLocks, if_neg (not_not.mpr hlen)] at hcomputed
    split at hcomputed
    next =>
      rw [lockInputs_heights hcomputed]
      refine ⟨fun height hmem => ?_, fun _ txin htxin henabled => ?_⟩
      · obtain ⟨x, hx, rfl⟩ := mem_map.mp hmem
        split
        · omega
        · exact hle x.2 (of_mem_zip hx).2
      · refine mem_map.mpr ⟨(txin, heightOf getCoin n txin), ?_, by simp [henabled]⟩
        rw [hpairs]
        exact mem_map_of_mem htxin
    next hno =>
      rw [← some.inj hcomputed]
      exact ⟨hle, fun henforce => absurd henforce hno⟩
  obtain ⟨hmax0, hmaxn, hmax⟩ := maxInputHeight_spec hleft.1
  set maxHeight := maxInputHeight n computed.1 with hmaxHeight
  obtain ⟨b, hget, hat, -⟩ := t.getAncestor_some h.mem (j := maxHeight.toNat) (by
    show maxHeight.toNat ≤ n
    omega)
  rw [Int.toNat_of_nonneg hmax0] at hget
  obtain ⟨r, hr, hiff⟩ := t.evaluate_next h.mem computed.2
  refine ⟨r, ⟨computed.2.1, computed.2.2, some b⟩, ?_,
    ⟨hpair, maxHeight.toNat, b, rfl, hat, ?_⟩, ?_⟩
  · have hinputs : inputHeights getCoin n tx.vin = some heights :=
      inputHeights_eq fun txin htxin => (hcoins txin htxin).imp fun _ hcoin => hcoin.1
    simp only [checkSequenceLocks, h.tip_eq, Bool.false_eq_true, if_false, bind_eq_bind,
      bind_some, ← hn, hinputs, hcomputed, ← hmaxHeight, hget, hr]
  · intro henforce txin htxin henabled hle
    rw [← hn] at hle ⊢
    have := hmax _ (hleft.2 henforce txin htxin henabled) hle
    omega
  · rw [hiff]
    exact hpair _ _ (by omega) (getMedianTimePast_nonneg _ _)

end

/-! ## A node at two times -/

/-- The tree that accepted headers make. -/
def TreeReached.blockTree {rules : HeaderRules} {s : ChainState} (h : TreeReached rules s) :
    BlockTree :=
  ⟨s.mapBlockIndex, h.acceptedTree.1.tree, h.acceptedTree.1.skip, rules.hashGenesisBlock,
    h.acceptedTree.1.root⟩

/-- The state of a node between two calls: the index, the active chain that `SetTip` has made,
    and the coins that connecting and disconnecting blocks have left; `blockOf` is the block
    that a hash stands for. -/
structure NodeState (rules : HeaderRules) (env : ValidationEnv) (cenv : ContextualEnv)
    (T : Set CTransaction) (blockOf : Uint256 → CBlock) where
  index : ChainState
  reached : TreeReached rules index
  view : CCoinsViewCache
  tip : ConnectedBlock
  below : List ConnectedBlock
  run : ChainView env (fun pindex block => BlockAccepted cenv T pindex block ∧
      (index.mapBlockIndex.lookup pindex.hash).map (·.toCBlockIndex) = some pindex ∧
      blockOf pindex.hash = block) view (tip :: below)
  chainActive : CChain
  active : ActiveChain reached.blockTree chainActive tip.pindex.hash
  mempool : CTxMemPool

/-- What `CTxMemPool::check` asserts of the pool and its inputs: each is an output of the pool or
    an unspent coin, which is mature when it is a coinbase's, and no transaction depends on
    itself; no coinbase is in the pool. -/
structure CTxMemPool.Checked (mempool : CTxMemPool) (T : Set CTransaction)
    (base : COutPoint → Option Coin) (spendheight : Nat) : Prop where
  entry : ∀ k e, mempool.mapTx.lookup k = some e →
    e.tx.hash = k ∧ e.tx ∈ T ∧ e.tx.isCoinBase = false
  inputs : ∀ k e, mempool.mapTx.lookup k = some e → ∀ o ∈ e.tx.prevouts,
    ∃ coin, mempool.getCoin base o = some coin
  mature : ∀ k e, mempool.mapTx.lookup k = some e → ∀ o ∈ e.tx.prevouts,
    ∀ coin, mempool.getCoin base o = some coin → coin.fCoinBase = true →
      COINBASE_MATURITY ≤ (spendheight : Int) - coin.nHeight
  acyclic : ∀ k, ¬ Relation.TransGen mempool.SpendsFrom k k

variable {base : COutPoint → Option Coin} {T : Set CTransaction} {k : Uint256}

/-- A transaction of the pool is not in the chain: its inputs would be spent, so they would be
    outputs of the pool that are in the chain as well. -/
theorem CTxMemPool.Checked.unconfirmed {mempool : CTxMemPool} (hT : HashInjOn T)
    {chain : List ConnectedBlock} {spendheight : Nat} (h : mempool.Checked T base spendheight)
    (hchain : ChainCoins T chain base)
    (hk : k ∈ mempool.mapTx) {x : Nat × CTransaction} (hx : x ∈ chainHistory chain) :
    x.2.hash ≠ k := by
  intro hhash
  have hrec := hchain.history
  -- by descent along the inputs: one step leads from such a transaction to another
  refine Closure.no_backward_closed (S := mempool.txids) h.acyclic
    (B := fun k => k ∈ mempool.mapTx ∧ ∃ x ∈ chainHistory chain, x.2.hash = k)
    (fun k hk => List.mem_toFinset.mpr (AList.mem_keys.mp hk.1)) ?_ k ⟨hk, x, hx, hhash⟩
  rintro k ⟨hk, x, hx, hhash⟩
  obtain ⟨e, he⟩ := isSome_iff_exists.mp (lookup_isSome.mpr hk)
  obtain ⟨hkey, hmem, hcb⟩ := h.entry k e he
  have hacc := hrec.accepted x hx
  have heq : x.2.hash = e.tx.hash := hhash.trans hkey.symm
  have hcbx : x.2.isCoinBase = false := (hT.isCoinBase_eq hacc.mem hmem heq).trans hcb
  have hprevouts := hT.prevouts_eq hacc.mem hmem heq
  obtain ⟨o, ho⟩ := exists_mem_of_ne_nil _ (hacc.inputs hcbx)
  -- the chain has spent the input, so it is an output of the pool
  obtain ⟨hgone, y, hy, hyhash⟩ := hrec.spent x hx hcbx o ho
  rw [hprevouts] at ho
  obtain ⟨coin, hcoin⟩ := h.inputs k e he o ho
  have hpool : o.hash ∈ mempool.mapTx := by
    rw [CTxMemPool.getCoin] at hcoin
    split at hcoin
    next e' he' => exact lookup_isSome.mp (by rw [he']; rfl)
    next =>
      rw [hgone] at hcoin
      nomatch hcoin
  exact ⟨o.hash, ⟨hpool, y, hy, hyhash⟩, hpool, e, he, List.mem_map_of_mem ho⟩

theorem ChainCoins.descends {chain : List ConnectedBlock} {m : COutPoint → Option Coin}
    (h : ChainCoins T chain m) (F : Forest Uint256)
    (hparent : ∀ b ∈ chain, F.parent b.pindex.hash = b.pindex.pprev) {tip : ConnectedBlock}
    (htip : chain.head? = some tip) :
    (∀ b ∈ chain, F.IsAncestor b.pindex.hash tip.pindex.hash) ∧
      ∀ j ≤ tip.pindex.nHeight, ∃ b ∈ chain, b.pindex.nHeight = j := by
  induction h generalizing tip with
  | nil => nomatch htip
  | @cons chain b _ _ _ _ _ ext _ _ _ _ _ ih =>
    obtain rfl := some.inj htip
    obtain ⟨hb, hbelow⟩ := forall_mem_cons.mp hparent
    cases hhead : chain.head? with
    | none =>
      obtain rfl := head?_eq_none_iff.mp hhead
      obtain ⟨h0, -⟩ := ext
      refine ⟨forall_mem_singleton.mpr (.refl F), fun j hj => ⟨b, mem_cons_self, ?_⟩⟩
      omega
    | some p =>
      rw [hhead] at ext
      obtain ⟨hheight, hprev⟩ := ext
      obtain ⟨hanc, hall⟩ := ih hbelow hhead
      have hstep : F.IsAncestor p.pindex.hash b.pindex.hash :=
        isAncestor_parent (hb.trans hprev)
      refine ⟨forall_mem_cons.mpr ⟨.refl F, fun x hx => (hanc x hx).trans hstep⟩, ?_⟩
      intro j hj
      -- the tip has the greatest height, the rest of the chain all below
      by_cases htop : j = b.pindex.nHeight
      · exact ⟨b, mem_cons_self, htop.symm⟩
      · obtain ⟨x, hx, hxj⟩ := hall j (by omega)
        exact ⟨x, mem_cons_of_mem _ hx, hxj⟩

namespace NodeState

variable {rules : HeaderRules} {env : ValidationEnv} {cenv : ContextualEnv}
  {blockOf : Uint256 → CBlock}

def tree (s : NodeState rules env cenv T blockOf) : BlockTree := s.reached.blockTree

/-- `chainActive.Tip()`. -/
def tipHash (s : NodeState rules env cenv T blockOf) : Uint256 := s.tip.pindex.hash

/-- The coins of `viewMemPool`. -/
def getCoin (s : NodeState rules env cenv T blockOf) : COutPoint → Option Coin :=
  s.mempool.getCoin s.view.coinAt

/-- `CheckSequenceLocks` in the state. -/
def checkSequenceLocks (s : NodeState rules env cenv T blockOf) (tx : CTransaction) (flags : Nat)
    (lp : Option LockPoints) (useExistingLockPoints : Bool) : Option (Bool × Option LockPoints) :=
  s.index.mapBlockIndex.checkSequenceLocks s.chainActive s.getCoin tx flags lp
    useExistingLockPoints

/-- For the block after the tip. -/
def PoolChecked (s : NodeState rules env cenv T blockOf) : Prop :=
  s.mempool.Checked T s.view.coinAt (s.tip.pindex.nHeight + 1)

def testLockPointValidity (s : NodeState rules env cenv T blockOf) (lp : LockPoints) : Bool :=
  Rcoin.testLockPointValidity s.index.mapBlockIndex s.chainActive lp

variable (s : NodeState rules env cenv T blockOf)

theorem chainCoins (hT : HashInjOn T) : ChainCoins T (s.tip :: s.below) s.view.coinAt :=
  ((s.run.mono fun _ _ h => h.1).chainCoins hT).2

theorem inIndex : ∀ b ∈ s.tip :: s.below, ∃ e, s.tree.map.lookup b.pindex.hash = some e ∧
    e.toCBlockIndex = b.pindex := by
  intro b hb
  exact map_eq_some_iff.mp (s.run.accepted b hb).2.1

variable {b : ConnectedBlock}

theorem height_eq (hb : b ∈ s.tip :: s.below) :
    s.tree.forest.height b.pindex.hash = b.pindex.nHeight := by
  obtain ⟨e, he, hblock⟩ := s.inIndex b hb
  show s.tree.map.nHeight b.pindex.hash = b.pindex.nHeight
  rw [nHeight_of_lookup he, ← hblock]

theorem parent_eq (hb : b ∈ s.tip :: s.below) :
    s.tree.forest.parent b.pindex.hash = b.pindex.pprev := by
  obtain ⟨e, he, hblock⟩ := s.inIndex b hb
  show s.tree.map.pprev b.pindex.hash = b.pindex.pprev
  rw [pprev_of_lookup he, ← hblock]

theorem ancestorAt_iff (hT : HashInjOn T) {j : Nat} :
    s.tree.forest.ancestorAt j s.tipHash = some k ↔
      ∃ b ∈ s.tip :: s.below, b.pindex.nHeight = j ∧ b.pindex.hash = k := by
  obtain ⟨hanc, hall⟩ := (s.chainCoins hT).descends s.tree.forest (fun b hb => s.parent_eq hb) rfl
  have hat : ∀ b ∈ s.tip :: s.below,
      s.tree.forest.ancestorAt b.pindex.nHeight s.tipHash = some b.pindex.hash := by
    intro b hb
    rw [← s.height_eq hb]
    exact isAncestor_iff.mp (hanc b hb)
  constructor
  · intro hk
    have hj := (s.tree.forest.height_ancestorAt hk).2
    have htip : s.tree.forest.height s.tipHash = s.tip.pindex.nHeight :=
      s.height_eq mem_cons_self
    obtain ⟨b, hb, rfl⟩ := hall j (by omega)
    exact ⟨b, hb, rfl, some.inj ((hat b hb).symm.trans hk)⟩
  · rintro ⟨b, hb, rfl, rfl⟩
    exact hat b hb

theorem coin_created (hT : HashInjOn T) {o : COutPoint} {coin : Coin}
    (hcoin : s.getCoin o = some coin) (hne : coin.nHeight ≠ MEMPOOL_HEIGHT) :
    s.view.coinAt o = some coin ∧ ∃ b ∈ s.tip :: s.below, b.pindex.nHeight = coin.nHeight ∧
      ∃ tx ∈ b.block.vtx, tx.hash = o.hash := by
  have hbase : s.view.coinAt o = some coin := by
    rw [getCoin, CTxMemPool.getCoin] at hcoin
    split at hcoin
    next =>
      obtain ⟨_, -, rfl⟩ := map_eq_some_iff.mp hcoin
      exact absurd rfl hne
    next => exact hcoin
  obtain ⟨tx, htx, hhash⟩ := (s.chainCoins hT).coin_recorded hbase
  obtain ⟨b, hb, hheight, htxb⟩ := mem_chainHistory.mp htx
  exact ⟨hbase, b, hb, hheight.symm, tx, htxb, hhash⟩

theorem coinsBelow (hT : HashInjOn T) {tx : CTransaction}
    (hall : ∀ txin ∈ tx.vin, ∃ coin, s.getCoin txin.prevout = some coin) :
    CoinsBelow s.getCoin (s.tree.map.nHeight s.tipHash) tx := by
  intro txin htxin
  obtain ⟨coin, hcoin⟩ := hall txin htxin
  refine ⟨coin, hcoin, fun hne => ?_⟩
  obtain ⟨-, b, hb, hheight, -⟩ := s.coin_created hT hcoin hne
  have hat := (s.ancestorAt_iff hT).mpr ⟨b, hb, rfl, rfl⟩
  have hle : b.pindex.nHeight ≤ s.tree.map.nHeight s.tipHash :=
    (s.tree.forest.height_ancestorAt hat).2
  omega

end NodeState

open NodeState

section

variable {rules : HeaderRules} {env : ValidationEnv} {cenv : ContextualEnv}
  {blockOf : Uint256 → CBlock} {s1 s2 : NodeState rules env cenv T blockOf} {tx : CTransaction}
  {txin : CTxIn} {flags : Nat} {lp : LockPoints} {nHeight nTime : Int}

/-- The input is an output of the pool. -/
def NodeState.Unconfirmed (s : NodeState rules env cenv T blockOf) (txin : CTxIn) : Prop :=
  ∃ coin, s.getCoin txin.prevout = some coin ∧ coin.nHeight = MEMPOOL_HEIGHT

/-- The tip is not lower than it was, or its median time not earlier. -/
def LockKept (s1 s2 : NodeState rules env cenv T blockOf) (txin : CTxIn) : Prop :=
  if txin.nSequence.toNat.testBit 22 = true then
    s1.tree.map.getMedianTimePast s1.tipHash ≤ s2.tree.map.getMedianTimePast s2.tipHash
  else s1.tree.map.nHeight s1.tipHash ≤ s2.tree.map.nHeight s2.tipHash

theorem NodeState.ancestorAt_same (hgrown : s1.tree.map.Grown s2.tree.map)
    {maxHeight : Nat} {b : Uint256} (hb : s1.tree.forest.ancestorAt maxHeight s1.tipHash = some b)
    (hanc : s2.tree.forest.IsAncestor b s2.tipHash) {j : Nat} (hj : j ≤ maxHeight) :
    s2.tree.forest.ancestorAt j s2.tipHash = s1.tree.forest.ancestorAt j s1.tipHash := by
  have hbmem : b ∈ s1.tree.map :=
    s1.tree.mem_of_isAncestor s1.active.mem (isAncestor_of_ancestorAt hb)
  have hheight : s2.tree.forest.height b = s1.tree.forest.height b := hgrown.nHeight_eq hbmem
  have hmax := (s1.tree.forest.height_ancestorAt hb).1
  have hsame : s2.tree.forest.ancestorAt j b = s1.tree.forest.ancestorAt j b :=
    hgrown.ancestorAt_eq s1.tree.tree s2.tree.tree hbmem j
  rw [s1.tree.forest.ancestorAt_trans hb hj, ← hsame]
  exact s2.tree.forest.ancestorAt_trans (isAncestor_iff.mp hanc) (by omega)

theorem NodeState.coin_same (hT : HashInjOn T) (hpool : s2.PoolChecked)
    {o : COutPoint} {coin1 coin2 : Coin} (hcoin1 : s1.getCoin o = some coin1)
    (hne : coin1.nHeight ≠ MEMPOOL_HEIGHT) (hcoin2 : s2.getCoin o = some coin2)
    (hsame : s2.tree.forest.ancestorAt coin1.nHeight s2.tipHash =
      s1.tree.forest.ancestorAt coin1.nHeight s1.tipHash) :
    coin2.nHeight = coin1.nHeight := by
  obtain ⟨-, b1, hb1, hheight1, tx1, htx1, hhash1⟩ := s1.coin_created hT hcoin1 hne
  have hat1 := (s1.ancestorAt_iff hT).mpr ⟨b1, hb1, hheight1, rfl⟩
  obtain ⟨b2, hb2, hheight2, hhash⟩ := (s2.ancestorAt_iff hT).mp (hsame.trans hat1)
  have hblock : b2.block = b1.block := by
    rw [← (s2.run.accepted b2 hb2).2.2, ← (s1.run.accepted b1 hb1).2.2, hhash]
  have hmem : (coin1.nHeight, tx1) ∈ chainHistory (s2.tip :: s2.below) :=
    mem_chainHistory.mpr ⟨b2, hb2, hheight2.symm, hblock ▸ htx1⟩
  -- it is in the chain, so it is not in the pool
  have hnot : o.hash ∉ s2.mempool.mapTx := by
    intro hin
    exact hpool.unconfirmed hT (s2.chainCoins hT) hin hmem hhash1
  have hbase : s2.view.coinAt o = some coin2 := by
    rw [getCoin, CTxMemPool.getCoin, lookup_eq_none.mpr hnot] at hcoin2
    exact hcoin2
  obtain ⟨tx2, htx2, hhash2⟩ := (s2.chainCoins hT).coin_recorded hbase
  have heq := ((s2.chainCoins hT).distinctIds hT).eq htx2 hmem (hhash2.trans hhash1.symm)
  exact congrArg Prod.fst heq

theorem heightOf_of_ne {getCoin : COutPoint → Option Coin} {tipHeight : Nat} {coin : Coin}
    (hcoin : getCoin txin.prevout = some coin) (hne : coin.nHeight ≠ MEMPOOL_HEIGHT) :
    heightOf getCoin tipHeight txin = coin.nHeight := by
  rw [heightOf, hcoin, elim_some, inputHeight, if_neg hne]

theorem NodeState.lockMet_same (hgrown : s1.tree.map.Grown s2.tree.map) {height : Nat}
    (hsame : ∀ j ≤ height, s2.tree.forest.ancestorAt j s2.tipHash =
      s1.tree.forest.ancestorAt j s1.tipHash) :
    s2.tree.map.LockMet s2.tipHash nHeight nTime txin height ↔
      s1.tree.map.LockMet s1.tipHash nHeight nTime txin height := by
  have hchain : s2.tree.map.chainBlock s2.tipHash ((height : Int) - 1).toNat =
      s1.tree.map.chainBlock s1.tipHash ((height : Int) - 1).toNat := by
    rw [chainBlock_eq s2.tree.tree, chainBlock_eq s1.tree.tree]
    exact hsame _ (by omega)
  rw [LockMet, LockMet, hchain]
  refine or_congr_right ?_
  split
  · refine exists_congr fun a => and_congr_right fun ha => ?_
    rw [chainBlock_eq s1.tree.tree] at ha
    have hmem := s1.tree.mem_of_isAncestor s1.active.mem (isAncestor_of_ancestorAt ha)
    rw [hgrown.getMedianTimePast_eq s1.tree.tree hmem]
  · exact Iff.rfl

variable (s2) in
/-- An unconfirmed input whose lock allowed the next block has a lock of nothing, which asks
    of a later tip not to be lower, or earlier, than the one it was computed at. -/
theorem NodeState.lockMet_unconfirmed (henabled : txin.nSequence.toNat.testBit 31 = false)
    (hmet : s1.tree.map.LockMet s1.tipHash (s1.tree.map.nHeight s1.tipHash + 1)
      (s1.tree.map.getMedianTimePast s1.tipHash) txin (s1.tree.map.nHeight s1.tipHash + 1)) :
    txin.lockValue = 0 ∧
      (s1.tree.map.LockMet s1.tipHash (s2.tree.map.nHeight s2.tipHash + 1)
        (s2.tree.map.getMedianTimePast s2.tipHash) txin (s1.tree.map.nHeight s1.tipHash + 1) ↔
        LockKept s1 s2 txin) := by
  have htip : s1.tree.map.chainBlock s1.tipHash
      ((s1.tree.map.nHeight s1.tipHash : Int) + 1 - 1).toNat = some s1.tipHash := by
    rw [chainBlock_eq s1.tree.tree, Int.add_sub_cancel, Int.toNat_natCast]
    exact s1.tree.forest.ancestorAt_self
  rw [LockMet, htip] at hmet ⊢
  rw [LockKept]
  simp only [henabled, Bool.false_eq_true, false_or, some.injEq, exists_eq_left'] at hmet ⊢
  split at hmet
  next htype =>
    have hzero : txin.lockValue = 0 := by omega
    rw [if_pos htype, if_pos htype]
    exact ⟨hzero, by omega⟩
  next htype =>
    have hzero : txin.lockValue = 0 := by omega
    rw [if_neg htype, if_neg htype]
    exact ⟨hzero, by omega⟩

theorem NodeState.lockMet_zero (s : NodeState rules env cenv T blockOf)
    (hzero : txin.lockValue = 0) {height : Int}
    (hheight : height ≤ s.tree.map.nHeight s.tipHash + 1) :
    s.tree.map.LockMet s.tipHash (s.tree.map.nHeight s.tipHash + 1)
      (s.tree.map.getMedianTimePast s.tipHash) txin height := by
  refine .inr ?_
  split
  · obtain ⟨a, ha, -⟩ := s.tree.forest.exists_ancestorAt (k := s.tipHash)
      (h := (height - 1).toNat) (by
        show (height - 1).toNat ≤ s.tree.map.nHeight s.tipHash
        omega)
    refine ⟨a, (chainBlock_eq s.tree.tree _ _).trans ha, ?_⟩
    have hmono := getMedianTimePast_mono s.tree.tree s.reached.acceptedTree.1.times
      (isAncestor_of_ancestorAt ha)
    omega
  · omega

/-- The lock of an input, measured in one state, allows the block after the tip of another. -/
def NodeState.LockMet (s s' : NodeState rules env cenv T blockOf) (txin : CTxIn) : Prop :=
  s.tree.map.LockMet s.tipHash (s'.tree.map.nHeight s'.tipHash + 1)
    (s'.tree.map.getMedianTimePast s'.tipHash) txin
    (heightOf s.getCoin (s.tree.map.nHeight s.tipHash) txin)

/-- An input that was confirmed allows the block after the new tip. -/
def ConfirmedMet (s1 s2 : NodeState rules env cenv T blockOf) (txin : CTxIn) : Prop :=
  ∀ coin, s1.getCoin txin.prevout = some coin → coin.nHeight ≠ MEMPOOL_HEIGHT →
    s2.tree.map.LockMet s2.tipHash (s2.tree.map.nHeight s2.tipHash + 1)
      (s2.tree.map.getMedianTimePast s2.tipHash) txin coin.nHeight

theorem NodeState.locks_compare (hT : HashInjOn T)
    (hpool : s2.PoolChecked) (hgrown : s1.tree.map.Grown s2.tree.map)
    {coin1 coin2 : Coin} (hcoin1 : s1.getCoin txin.prevout = some coin1)
    (hcoin2 : s2.getCoin txin.prevout = some coin2)
    (hle2 : heightOf s2.getCoin (s2.tree.map.nHeight s2.tipHash) txin ≤
      s2.tree.map.nHeight s2.tipHash + 1)
    (hmet : s1.LockMet s1 txin)
    (hsame : txin.nSequence.toNat.testBit 31 = false → coin1.nHeight ≠ MEMPOOL_HEIGHT →
      ∀ j ≤ coin1.nHeight, s2.tree.forest.ancestorAt j s2.tipHash =
        s1.tree.forest.ancestorAt j s1.tipHash) :
    (s1.LockMet s2 txin ↔ ConfirmedMet s1 s2 txin ∧
      (txin.nSequence.toNat.testBit 31 = false → s1.Unconfirmed txin → LockKept s1 s2 txin)) ∧
    (s2.LockMet s2 txin ↔ ConfirmedMet s1 s2 txin) := by
  rw [LockMet] at hmet ⊢
  rw [LockMet]
  simp only [ConfirmedMet, Unconfirmed, hcoin1, Option.some.injEq, forall_eq',
    exists_eq_left']
  -- without a lock there is nothing to measure
  by_cases hdisable : txin.nSequence.toNat.testBit 31 = true
  · simp [BlockMap.LockMet, hdisable]
  have henabled : txin.nSequence.toNat.testBit 31 = false := Bool.eq_false_iff.mpr hdisable
  by_cases hne : coin1.nHeight = MEMPOOL_HEIGHT
  · -- unconfirmed: the lock is nothing, and is measured from the old tip
    have hheight : heightOf s1.getCoin (s1.tree.map.nHeight s1.tipHash) txin =
        s1.tree.map.nHeight s1.tipHash + 1 := by
      rw [heightOf, hcoin1, elim_some, inputHeight, if_pos hne]
    rw [hheight] at hmet ⊢
    obtain ⟨hzero, hkept⟩ := lockMet_unconfirmed s2 henabled hmet
    rw [hkept]
    simp [hne, henabled, s2.lockMet_zero hzero hle2]
  · -- confirmed: the block with the coin is still in the chain
    have hchain := hsame henabled hne
    have hheight : coin2.nHeight = coin1.nHeight :=
      coin_same hT hpool hcoin1 hne hcoin2 (hchain _ le_rfl)
    rw [heightOf_of_ne hcoin1 hne, heightOf_of_ne hcoin2 (hheight ▸ hne), hheight,
      ← lockMet_same hgrown hchain]
    simp [hne]

/-- A check with stored lock points says the same as a check of all inputs, unless an input
    that was unconfirmed has a lock of nothing, the tip has become lower, or earlier, and the
    confirmed inputs allow the next block.  It never allows more. -/
theorem lockPoints_exact (hT : HashInjOn T) (s1 s2 : NodeState rules env cenv T blockOf)
    (hlater : Relation.ReflTransGen (TreeStep rules) s1.index s2.index)
    (hpool : s2.PoolChecked) (tx : CTransaction)
    (htx : ∃ e, s2.mempool.mapTx.lookup tx.hash = some e ∧ e.tx = tx) (flags : Nat)
    (lp0 : Option LockPoints) (lp : LockPoints)
    (hstored : s1.checkSequenceLocks tx flags lp0 false = some (true, some lp))
    (hvalid : s2.testLockPointValidity lp = true) :
    ∃ cached recomputed lp',
      s2.checkSequenceLocks tx flags (some lp) true = some (cached, some lp) ∧
      s2.checkSequenceLocks tx flags (some lp) false = some (recomputed, lp') ∧
      (cached = true → recomputed = true) ∧
      (cached = recomputed ↔ (enforceBIP68 tx flags = true →
        (∀ txin ∈ tx.vin, ConfirmedMet s1 s2 txin) →
        ∀ txin ∈ tx.vin, txin.nSequence.toNat.testBit 31 = false → s1.Unconfirmed txin →
          LockKept s1 s2 txin)) := by
  have hgrown : s1.tree.map.Grown s2.tree.map := (s1.reached.later hlater).2
  -- both checks find all inputs
  have hinputs1 := s1.active.check_inputs hstored
  have hinputs2 : ∀ txin ∈ tx.vin, ∃ coin, s2.getCoin txin.prevout = some coin := by
    obtain ⟨e, he, rfl⟩ := htx
    exact fun txin htxin => hpool.inputs _ e he _ (List.mem_map_of_mem htxin)
  have hcoins1 := s1.coinsBelow hT hinputs1
  have hcoins2 := s2.coinsBelow hT hinputs2
  obtain ⟨r, lock, hcheck, hcomputed, hr⟩ := s1.active.check_recompute hcoins1 flags lp0
  obtain ⟨rfl, hlock⟩ := Prod.mk.inj (Option.some.inj (hcheck.symm.trans hstored))
  obtain ⟨-, -, rfl⟩ := map_eq_some_iff.mp hlock
  have hmet1 := hr.mp rfl
  obtain ⟨cached, hcached, hcachedIff⟩ : ∃ r,
      s2.checkSequenceLocks tx flags (some lock) true = some (r, some lock) ∧
        (r = true ↔ PairMet (s2.tree.map.nHeight s2.tipHash + 1)
          (s2.tree.map.getMedianTimePast s2.tipHash) (lock.height, lock.time)) :=
    s2.active.check_existing flags lock
  obtain ⟨recomputed, lock', hrecomputed, -, hrecomputedIff⟩ :=
    s2.active.check_recompute hcoins2 flags (some lock)
  refine ⟨cached, recomputed, _, hcached, hrecomputed, ?_⟩
  rw [hcomputed.pair _ _ (by omega) (getMedianTimePast_nonneg _ _)] at hcachedIff
  obtain ⟨maxHeight, b, hb, hat, hmax⟩ := hcomputed.block
  have hanc : s2.tree.forest.IsAncestor b s2.tipHash := by
    have hvalid' : s2.chainActive.contains s2.tree.map b = true := by
      rw [NodeState.testLockPointValidity, testLockPointValidity, hb] at hvalid
      exact hvalid
    exact s2.active.contains_iff.mp hvalid'
  -- input by input
  have hcompare : enforceBIP68 tx flags = true → ∀ txin ∈ tx.vin,
      (s1.LockMet s2 txin ↔ ConfirmedMet s1 s2 txin ∧
        (txin.nSequence.toNat.testBit 31 = false → s1.Unconfirmed txin → LockKept s1 s2 txin)) ∧
      (s2.LockMet s2 txin ↔ ConfirmedMet s1 s2 txin) := by
    intro henforce txin htxin
    obtain ⟨coin1, hcoin1, hle1⟩ := hcoins1 txin htxin
    obtain ⟨coin2, hcoin2⟩ := hinputs2 txin htxin
    refine locks_compare hT hpool hgrown hcoin1 hcoin2 (hcoins2.heightOf_le htxin)
      (hmet1 henforce txin htxin) fun henabled hne j hj => ?_
    have hheight : heightOf s1.getCoin (s1.tree.map.nHeight s1.tipHash) txin = coin1.nHeight :=
      heightOf_of_ne hcoin1 hne
    have hlow : (coin1.nHeight : Int) ≤ s1.tree.map.nHeight s1.tipHash →
        (coin1.nHeight : Int) ≤ maxHeight := by
      rw [← hheight]
      exact hmax henforce txin htxin henabled
    have hle : coin1.nHeight ≤ s1.tree.map.nHeight s1.tipHash := hle1 hne
    exact ancestorAt_same hgrown hat hanc (by omega)
  -- the stored locks ask for both, the new ones for what the confirmed inputs ask
  have hboth : cached = true ↔
      (enforceBIP68 tx flags = true → ∀ txin ∈ tx.vin, ConfirmedMet s1 s2 txin) ∧
      (enforceBIP68 tx flags = true → ∀ txin ∈ tx.vin,
        txin.nSequence.toNat.testBit 31 = false → s1.Unconfirmed txin → LockKept s1 s2 txin) := by
    rw [← imp_and, hcachedIff]
    refine imp_congr_right fun henforce => ?_
    rw [← forall₂_and]
    exact forall₂_congr fun txin htxin => (hcompare henforce txin htxin).1
  have hconfirmed : recomputed = true ↔
      (enforceBIP68 tx flags = true → ∀ txin ∈ tx.vin, ConfirmedMet s1 s2 txin) :=
    hrecomputedIff.trans (imp_congr_right fun henforce => forall₂_congr fun txin htxin =>
      (hcompare henforce txin htxin).2)
  refine ⟨fun h => hconfirmed.mpr (hboth.mp h).1, ?_⟩
  rw [Bool.eq_iff_iff, hboth, hconfirmed, and_iff_left_iff_imp]
  exact ⟨fun h henforce hmet => h (fun _ => hmet) henforce,
    fun h hmet henforce => h henforce (hmet henforce)⟩

end

/-! ## A zero lock after a reorganisation -/

section Samples

namespace LockSample

open HeightSample

def rules : HeaderRules :=
  { hashGenesisBlock := 1000, checkBlockHeader := fun _ => true,
    getNextWorkRequired := fun _ _ block => block.nBits, getLastCheckpoint := fun _ => none }

def header (n : Nat) : CBlockHeader :=
  { hash := 1000 + n, hashPrevBlock := if n = 0 then 0 else 999 + n, nTime := n + 1, nBits := 0 }

/-- The headers up to height `n`. -/
def headers : Nat → Option ChainState
  | 0 => do
    let (_, s) ← ChainState.addToBlockIndex {} (header 0)
    some s
  | n + 1 => do
    let s ← headers n
    let (_, s) ← ChainState.acceptBlockHeader (rules.env s.mapBlockIndex 0) s (header (n + 1))
    some s

theorem headers_reached {n : Nat} {s : ChainState} (h : headers n = some s) :
    TreeReached rules s := by
  induction n generalizing s with
  | zero =>
    rw [headers] at h
    obtain ⟨⟨k, s'⟩, hadd, h⟩ := bind_eq_some_iff.mp h
    obtain rfl := Option.some.inj h
    exact .loadGenesisBlock rfl hadd
  | succ n ih =>
    rw [headers] at h
    obtain ⟨s0, hs0, h⟩ := bind_eq_some_iff.mp h
    obtain ⟨⟨r, s'⟩, haccept, h⟩ := bind_eq_some_iff.mp h
    obtain rfl := Option.some.inj h
    exact .step (ih hs0) (.acceptBlockHeader 0 (header (n + 1)) r haccept)

def parent : CTransaction :=
  { hash := 500, vin := [{ prevout := ⟨1, 0⟩ }], vout := [payAnyone 1] }

/-- Its input is locked, but for no time. -/
def child : CTransaction :=
  { hash := 501, vin := [{ prevout := ⟨500, 0⟩, nSequence := 0 }], vout := [] }

def entry (tx : CTransaction) : CTxMemPoolEntry where
  tx := tx
  nFee := 0
  nTxWeight := 0
  nTime := 0
  sigOpCost := 0
  feeDelta := 0
  nCountWithDescendants := 0
  nSizeWithDescendants := 0
  nModFeesWithDescendants := 0
  nCountWithAncestors := 0
  nSizeWithAncestors := 0
  nModFeesWithAncestors := 0
  nSigOpCostWithAncestors := 0

def pool : CTxMemPool :=
  { CTxMemPool.empty ∅ with
    mapTx := (AList.insert 501 (entry child) ∅).insert 500 (entry parent) }

/-- The coinbases of 102 blocks, and the two transactions. -/
def txs : Set CTransaction := fun tx => (∃ n < 102, (block n).vtx = [tx]) ∨ tx = parent ∨ tx = child

theorem hash_of_vtx {n : Nat} {tx : CTransaction} (h : (block n).vtx = [tx]) :
    tx.hash = n + 1 := by
  obtain rfl := List.singleton_inj.mp h
  rfl

theorem txs_injective : HashInjOn txs := by
  rintro tx (⟨n, hn, htx⟩ | rfl | rfl) tx' (⟨n', hn', htx'⟩ | rfl | rfl) h
  · rw [hash_of_vtx htx, hash_of_vtx htx'] at h
    obtain rfl : n = n' := Nat.succ.inj h
    exact congrArg CTransaction.withoutWitness (List.singleton_inj.mp (htx.symm.trans htx'))
  · exact absurd ((hash_of_vtx htx).symm.trans h) (show n + 1 ≠ 500 by omega)
  · exact absurd ((hash_of_vtx htx).symm.trans h) (show n + 1 ≠ 501 by omega)
  · exact absurd ((hash_of_vtx htx').symm.trans h.symm) (show n' + 1 ≠ 500 by omega)
  · rfl
  · cases h
  · exact absurd ((hash_of_vtx htx').symm.trans h.symm) (show n' + 1 ≠ 501 by omega)
  · cases h
  · rfl

theorem accepted {n : Nat} (hn : n < 102) : BlockAccepted lenientContext txs (pindex n) (block n) := by
  have hheight : ∀ n < 102, contextualCheckBlock lenientContext (block n) n = .ok ⟨⟩ := by decide
  refine ⟨?_, hheight n hn, fun tx htx => .inl ⟨n, hn, ?_⟩⟩
  · show n ≤ INT_MAX
    rw [INT_MAX]
    omega
  · obtain rfl := mem_singleton.mp htx
    rfl

def blockOf (hash : Uint256) : CBlock := block (hash - 1000)

def Accepted (s : ChainState) (pindex : CBlockIndex) (block : CBlock) : Prop :=
  BlockAccepted lenientContext txs pindex block ∧
    (s.mapBlockIndex.lookup pindex.hash).map (·.toCBlockIndex) = some pindex ∧
    blockOf pindex.hash = block

/-- The blocks up to height `n`, connected. -/
def connectBlocks : Nat → Except ValidationError (CCoinsViewCache × List ConnectedBlock)
  | 0 => do
    let (view, blockundo) ←
      connectBlock lenientEnv (block 0) (pindex 0) (CCoinsViewCache.new (.db .empty)) false
    return (view, [⟨block 0, pindex 0, blockundo⟩])
  | n + 1 => do
    let (view, chain) ← connectBlocks n
    let (view, blockundo) ← connectBlock lenientEnv (block (n + 1)) (pindex (n + 1)) view false
    return (view, ⟨block (n + 1), pindex (n + 1), blockundo⟩ :: chain)

variable {s : ChainState}

theorem connectBlocks_view (haccepted : ∀ n < 102, Accepted s (pindex n) (block n)) {n : Nat}
    (hn : n < 102) {view : CCoinsViewCache} {chain : List ConnectedBlock}
    (h : connectBlocks n = .ok (view, chain)) :
    ChainView lenientEnv (Accepted s) view chain ∧
      ∃ blockundo below, chain = ⟨block n, pindex n, blockundo⟩ :: below := by
  induction n generalizing view chain with
  | zero =>
    obtain ⟨⟨view0, blockundo⟩, hconn, h⟩ := bind_eq_ok.mp h
    cases pure_eq_ok.mp h
    exact ⟨.connect .start ⟨rfl, rfl⟩ (haccepted 0 hn) hconn, blockundo, [], rfl⟩
  | succ n ih =>
    obtain ⟨⟨view0, chain0⟩, hbelow, h⟩ := bind_eq_ok.mp h
    obtain ⟨⟨view1, blockundo⟩, hconn, h⟩ := bind_eq_ok.mp h
    cases pure_eq_ok.mp h
    obtain ⟨hview, _, _, rfl⟩ := ih (by omega) hbelow
    have hprev : (pindex (n + 1)).pprev = some (pindex n).hash := by
      show some (999 + (n + 1)) = some (1000 + n)
      rw [← Nat.add_assoc, Nat.add_right_comm]
    exact ⟨.connect hview ⟨rfl, hprev⟩ (haccepted (n + 1) hn) hconn, blockundo, _, rfl⟩

/-- Block 101 is connected, and disconnected again. -/
def reorganisation : Except ValidationError (CCoinsViewCache × List ConnectedBlock ×
    CCoinsViewCache) := do
  let (view, chain) ← connectBlocks 101
  match chain with
  | [] => .error (.coins (.assertFailed "connected"))
  | tip :: _ =>
    match disconnectBlock tip.block tip.pindex view (some tip.blockundo) with
    | .ok (.ok, view') => .ok (view, chain, view')
    | _ => .error (.coins (.assertFailed "disconnected"))

/-- The output that `parent` spends. -/
def genesisCoin : Coin := { out := payAnyone GENESIS_MONEY, nHeight := 0, fCoinBase := true }

theorem views (haccepted : ∀ n < 102, Accepted s (pindex n) (block n)) :
    ∃ view1 blockundo1 tip0 below view2, tip0.pindex = pindex 100 ∧
      ChainView lenientEnv (Accepted s) view1 (⟨block 101, pindex 101, blockundo1⟩ :: tip0 :: below) ∧
      ChainView lenientEnv (Accepted s) view2 (tip0 :: below) ∧
      view2.coinAt ⟨1, 0⟩ = some genesisCoin := by
  obtain ⟨⟨view1, chain, view2⟩, hrun, hcheck⟩ := exists_of_okAnd (x := reorganisation)
    (p := fun r => r.2.2.coinAt ⟨1, 0⟩ = some genesisCoin ∧
      (r.2.1.map fun b => b.pindex)[1]? = some (pindex 100)) (by decide +kernel)
  obtain ⟨hcoin, hsecond⟩ := of_decide_eq_true hcheck
  obtain ⟨⟨view, chain'⟩, hconn, hrun⟩ := bind_eq_ok.mp hrun
  obtain ⟨hview, blockundo1, below, rfl⟩ := connectBlocks_view haccepted (by decide) hconn
  simp only at hrun
  split at hrun
  next view' hdisc =>
    obtain ⟨rfl, rfl, rfl⟩ : view = view1 ∧ _ = chain ∧ view' = view2 := by simpa using hrun
    cases below with
    | nil => nomatch hsecond
    | cons tip0 below =>
      exact ⟨view, blockundo1, tip0, below, view', Option.some.inj hsecond, hview,
        .disconnect hview hdisc, hcoin⟩
  next => nomatch hrun

theorem pool_checked (hbase : base ⟨1, 0⟩ = some genesisCoin) : pool.Checked txs base 101 := by
  have hentries : ∀ k e, pool.mapTx.lookup k = some e →
      k = 500 ∧ e = entry parent ∨ k = 501 ∧ e = entry child := by
    intro k e he
    have hmem := mem_lookup_iff.mp he
    simpa [pool, CTxMemPool.empty] using hmem
  refine ⟨fun k e he => ?_, fun k e he o ho => ?_, fun k e he o ho coin hcoin hcb => ?_,
    fun k hk => ?_⟩
  · rcases hentries k e he with ⟨rfl, rfl⟩ | ⟨rfl, rfl⟩
    · exact ⟨rfl, .inr (.inl rfl), rfl⟩
    · exact ⟨rfl, .inr (.inr rfl), rfl⟩
  · rcases hentries k e he with ⟨rfl, rfl⟩ | ⟨rfl, rfl⟩
    · obtain rfl := mem_singleton.mp ho
      exact ⟨_, hbase⟩
    · obtain rfl := mem_singleton.mp ho
      exact ⟨_, rfl⟩
  · rcases hentries k e he with ⟨rfl, rfl⟩ | ⟨rfl, rfl⟩
    · obtain rfl := mem_singleton.mp ho
      obtain rfl := Option.some.inj (hbase.symm.trans hcoin)
      decide
    · obtain rfl := mem_singleton.mp ho
      cases hcoin
      nomatch hcb
  · -- a spender has a greater hash
    have hlt : ∀ p c, pool.SpendsFrom p c → p < c := by
      rintro p c ⟨hp, e, he, hmem⟩
      rcases hentries c e he with ⟨rfl, rfl⟩ | ⟨rfl, rfl⟩
      · obtain rfl := mem_singleton.mp hmem
        exact absurd hp (by decide)
      · obtain rfl := mem_singleton.mp hmem
        decide
    have hless : ∀ c, Relation.TransGen pool.SpendsFrom k c → k < c := by
      intro c hc
      induction hc with
      | single h => exact hlt _ _ h
      | tail _ h ih => exact ih.trans (hlt _ _ h)
    exact Nat.lt_irrefl k (hless k hk)

theorem check_child (m : BlockMap) (c : CChain) (base base' : COutPoint → Option Coin)
    (lp : Option LockPoints) (useExistingLockPoints : Bool) :
    m.checkSequenceLocks c (pool.getCoin base) child 1 lp useExistingLockPoints =
      m.checkSequenceLocks c (pool.getCoin base') child 1 lp useExistingLockPoints := rfl

abbrev Node := NodeState rules lenientEnv lenientContext txs blockOf

/-- What is stored when block 101 is the tip. -/
def stored : LockPoints := { height := 101, time := -1, maxInputBlock := some 1000 }

/-- The chain with block 101, and the one without. -/
def chain (m : BlockMap) (hasLast : Bool) : CChain :=
  CChain.afterTips m (if hasLast then [some 1100, some 1101] else [some 1100, some 1101, some 1100])

def check (s : ChainState) (hasLast : Bool) (lp : LockPoints) (useExistingLockPoints : Bool) :
    Option (Bool × Option LockPoints) :=
  s.mapBlockIndex.checkSequenceLocks (chain s.mapBlockIndex hasLast) (pool.getCoin fun _ => none)
    child 1 (some lp) useExistingLockPoints

theorem headers_checks : ∃ s, TreeReached rules s ∧
    (∀ n < 102, (s.mapBlockIndex.lookup (pindex n).hash).map (·.toCBlockIndex) = some (pindex n)) ∧
    check s true {} false = some (true, some stored) ∧
    testLockPointValidity s.mapBlockIndex (chain s.mapBlockIndex false) stored = true ∧
    check s false stored true = some (false, some stored) ∧
    (check s false stored false).map Prod.fst = some true := by
  have hcomp : (headers 101).map (fun s => decide (
      (∀ n < 102, (s.mapBlockIndex.lookup (pindex n).hash).map (·.toCBlockIndex) =
        some (pindex n)) ∧
      check s true {} false = some (true, some stored) ∧
      testLockPointValidity s.mapBlockIndex (chain s.mapBlockIndex false) stored = true ∧
      check s false stored true = some (false, some stored) ∧
      (check s false stored false).map Prod.fst = some true)) = some true := by decide +kernel
  obtain ⟨s, hs, hfields⟩ := map_eq_some_iff.mp hcomp
  exact ⟨s, headers_reached hs, of_decide_eq_true hfields⟩

theorem exists_node (hreached : TreeReached rules s)
    (hindex : ∀ n < 102,
      (s.mapBlockIndex.lookup (pindex n).hash).map (·.toCBlockIndex) = some (pindex n))
    (hasLast : Bool) :
    ∃ node : Node, node.index = s ∧ node.mempool = pool ∧
      node.chainActive = chain s.mapBlockIndex hasLast ∧
      (hasLast = false →
        node.view.coinAt ⟨1, 0⟩ = some genesisCoin ∧ node.tip.pindex = pindex 100) := by
  have haccepted : ∀ n < 102, Accepted s (pindex n) (block n) := fun n hn =>
    ⟨accepted hn, hindex n hn, congrArg block (Nat.add_sub_cancel_left ..)⟩
  obtain ⟨view1, blockundo1, tip0, below, view2, htip, hview1, hview2, hcoin⟩ := views haccepted
  have hmem : ∀ p, p = 1100 ∨ p = 1101 → p ∈ hreached.blockTree.map := by
    rintro p (rfl | rfl)
    · obtain ⟨e, he, -⟩ := map_eq_some_iff.mp (hindex 100 (by decide))
      exact lookup_isSome.mp (isSome_of_eq_some he)
    · obtain ⟨e, he, -⟩ := map_eq_some_iff.mp (hindex 101 (by decide))
      exact lookup_isSome.mp (isSome_of_eq_some he)
  cases hasLast with
  | true =>
    have hactive : ActiveChain hreached.blockTree (chain s.mapBlockIndex true) 1101 :=
      CChain.afterTips_spec (t := hreached.blockTree)
        (fun p hp => hmem p (by simpa using hp)) (by simp)
    exact ⟨⟨s, hreached, view1, _, _, hview1, _, hactive, pool⟩, rfl, rfl, rfl,
      fun h => nomatch h⟩
  | false =>
    have hall : ∀ p, some p ∈ [some 1100, some 1101, some 1100] → p ∈ hreached.blockTree.map := by
      intro p hp
      refine hmem p ?_
      rcases mem_cons.mp hp with h | h
      · exact .inl (some.inj h)
      · simpa [or_comm] using h
    have hactive : ActiveChain hreached.blockTree (chain s.mapBlockIndex false) tip0.pindex.hash := by
      rw [htip]
      change ActiveChain hreached.blockTree (chain s.mapBlockIndex false) 1100
      exact CChain.afterTips_spec (t := hreached.blockTree) hall (by simp)
    exact ⟨⟨s, hreached, view2, _, _, hview2, _, hactive, pool⟩, rfl, rfl, rfl,
      fun _ => ⟨hcoin, htip⟩⟩

theorem nodes : ∃ s1 s2 : Node,
    s1.index = s2.index ∧ s2.PoolChecked ∧
    s2.mempool.mapTx.lookup child.hash = some (entry child) ∧
    s1.checkSequenceLocks child 1 (some {}) false = some (true, some stored) ∧
    s2.testLockPointValidity stored = true ∧
    s2.checkSequenceLocks child 1 (some stored) true = some (false, some stored) ∧
    ∃ lp', s2.checkSequenceLocks child 1 (some stored) false = some (true, lp') := by
  obtain ⟨s, hreached, hindex, hstore, hvalid, hcached, hrecomputed⟩ := headers_checks
  obtain ⟨s1, hindex1, hpool1, hchain1, -⟩ := exists_node hreached hindex true
  obtain ⟨s2, hindex2, hpool2, hchain2, hlast⟩ := exists_node hreached hindex false
  have hcheck1 : ∀ lp useExistingLockPoints,
      s1.checkSequenceLocks child 1 (some lp) useExistingLockPoints =
        check s true lp useExistingLockPoints := by
    intro lp useExistingLockPoints
    rw [NodeState.checkSequenceLocks, NodeState.getCoin, hindex1, hpool1, hchain1, check]
    exact check_child s.mapBlockIndex _ s1.view.coinAt _ (some lp) useExistingLockPoints
  have hcheck2 : ∀ lp useExistingLockPoints,
      s2.checkSequenceLocks child 1 (some lp) useExistingLockPoints =
        check s false lp useExistingLockPoints := by
    intro lp useExistingLockPoints
    rw [NodeState.checkSequenceLocks, NodeState.getCoin, hindex2, hpool2, hchain2, check]
    exact check_child s.mapBlockIndex _ s2.view.coinAt _ (some lp) useExistingLockPoints
  obtain ⟨⟨r, lp'⟩, hrecomputed, rfl⟩ := map_eq_some_iff.mp hrecomputed
  refine ⟨s1, s2, hindex1.trans hindex2.symm, ?_, ?_, (hcheck1 _ _).trans hstore, ?_,
    (hcheck2 _ _).trans hcached, lp', (hcheck2 _ _).trans hrecomputed⟩
  · obtain ⟨hcoin, htip⟩ := hlast rfl
    rw [NodeState.PoolChecked, hpool2, htip]
    exact pool_checked hcoin
  · rw [hpool2]
    rfl
  · rw [NodeState.testLockPointValidity, hindex2, hchain2]
    exact hvalid

end LockSample

open LockSample in
/-- The child of a transaction of the pool may be in the next block, and still may after the
    tip is disconnected; the lock points that were stored with it say that it may not. -/
theorem lockPoints_differ : ¬ ∀ (s1 s2 : Node) (tx : CTransaction) (lp : LockPoints),
    Relation.ReflTransGen (TreeStep LockSample.rules) s1.index s2.index →
    s2.PoolChecked →
    (∃ e, s2.mempool.mapTx.lookup tx.hash = some e ∧ e.tx = tx) →
    s1.checkSequenceLocks tx 1 (some {}) false = some (true, some lp) →
    s2.testLockPointValidity lp = true →
    (s2.checkSequenceLocks tx 1 (some lp) true).map Prod.fst =
      (s2.checkSequenceLocks tx 1 (some lp) false).map Prod.fst := by
  intro hsame
  obtain ⟨s1, s2, hindex, hpool, htx, hstored, hvalid, hcached, lp', hrecomputed⟩ := nodes
  have h := hsame s1 s2 child stored (hindex ▸ .refl) hpool ⟨_, htx, rfl⟩ hstored hvalid
  rw [hcached, hrecomputed] at h
  nomatch h

open LockSample in
/-- In these states the input is an output of the pool, and the tip is lower than it was. -/
theorem lockPoints_exact_sample : ∃ s1 s2 : Node, ∃ txin ∈ child.vin,
    s1.Unconfirmed txin ∧ ¬ LockKept s1 s2 txin := by
  obtain ⟨s1, s2, hindex, hpool, htx, hstored, hvalid, hcached, lp', hrecomputed⟩ := nodes
  obtain ⟨cached, recomputed, lp'', hcached', hrecomputed', -, hiff⟩ :=
    lockPoints_exact txs_injective s1 s2 (hindex ▸ .refl) hpool child ⟨_, htx, rfl⟩ 1 _ stored
      hstored hvalid
  have hc : cached = false :=
    (Prod.mk.inj (Option.some.inj (hcached'.symm.trans hcached))).1
  have hr : recomputed = true :=
    (Prod.mk.inj (Option.some.inj (hrecomputed'.symm.trans hrecomputed))).1
  by_contra hkept
  have heq := hiff.mpr fun _ _ txin htxin _ hunconfirmed => by
    by_contra hnot
    exact hkept ⟨s1, s2, txin, htxin, hunconfirmed, hnot⟩
  rw [hc, hr] at heq
  nomatch heq

end Samples

end Rcoin
