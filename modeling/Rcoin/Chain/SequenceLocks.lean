/-
  Relative lock times: the last height and the last time at which a transaction is not yet
  valid, and that they say the same as the locks of its inputs one by one.

  Source: src/consensus/tx_verify.cpp.  Heights and times are unbounded.  As a result `none`
  stands for a failed `assert` or the use of a null pointer.
-/
import Rcoin.Chain.HeaderTimes
import Rcoin.Chain.SkipList

namespace Rcoin

open BlockMap Option Forest

/-! ## The functions -/

namespace CTxIn

def SEQUENCE_LOCKTIME_DISABLE_FLAG : UInt32 := (1 : UInt32) <<< 31

def SEQUENCE_LOCKTIME_TYPE_FLAG : UInt32 := (1 : UInt32) <<< 22

def SEQUENCE_LOCKTIME_MASK : UInt32 := 0x0000ffff

def SEQUENCE_LOCKTIME_GRANULARITY : UInt32 := 9

end CTxIn

open CTxIn

def LOCKTIME_VERIFY_SEQUENCE : Nat := 1 <<< 0

/-- The last invalid height and the last invalid time, -1 for none. -/
abbrev LockPair := Int × Int

namespace BlockMap

/-- A round of the loop of `CalculateSequenceLocks`: the height that is left for the input, and
    the pair. -/
def lockInput (m : BlockMap) (block : Uint256) (txin : CTxIn) (nCoinHeight : Int)
    (lockPair : LockPair) : Option (Int × LockPair) :=
  if txin.nSequence &&& SEQUENCE_LOCKTIME_DISABLE_FLAG ≠ 0 then
    -- The height of this input is not relevant for sequence locks
    some (0, lockPair)
  else if txin.nSequence &&& SEQUENCE_LOCKTIME_TYPE_FLAG ≠ 0 then do
    let ancestor ← m.getAncestor block (max (nCoinHeight - 1) 0)
    let pindex ← ancestor
    let nCoinTime := m.getMedianTimePast pindex
    let nSeconds := (txin.nSequence &&& SEQUENCE_LOCKTIME_MASK) <<<
      SEQUENCE_LOCKTIME_GRANULARITY
    some (nCoinHeight, lockPair.1, max lockPair.2 (nCoinTime + nSeconds.toNat - 1))
  else
    let nBlocks := txin.nSequence &&& SEQUENCE_LOCKTIME_MASK
    some (nCoinHeight, max lockPair.1 (nCoinHeight + nBlocks.toNat - 1), lockPair.2)

/-- The loop. -/
def lockInputs (m : BlockMap) (block : Uint256) :
    List (CTxIn × Int) → LockPair → Option (List Int × LockPair)
  | [], lockPair => some ([], lockPair)
  | (txin, nCoinHeight) :: rest, lockPair => do
    let (nCoinHeight, lockPair) ← m.lockInput block txin nCoinHeight lockPair
    let (prevHeights, lockPair) ← m.lockInputs block rest lockPair
    some (nCoinHeight :: prevHeights, lockPair)

/-- `fEnforceBIP68`; the version is cast to an unsigned integer. -/
def enforceBIP68 (tx : CTransaction) (flags : Nat) : Bool :=
  decide (2 ≤ tx.nVersion % 2 ^ 32) && decide (flags &&& LOCKTIME_VERIFY_SEQUENCE ≠ 0)

/-- `CalculateSequenceLocks`, with what it leaves in `prevHeights`. -/
def calculateSequenceLocks (m : BlockMap) (tx : CTransaction) (flags : Nat)
    (prevHeights : List Int) (block : Uint256) : Option (List Int × LockPair) :=
  if prevHeights.length ≠ tx.vin.length then none
  else if enforceBIP68 tx flags then m.lockInputs block (tx.vin.zip prevHeights) (-1, -1)
  else some (prevHeights, -1, -1)

def evaluateSequenceLocks (m : BlockMap) (block : Uint256) (lockPair : LockPair) :
    Option Bool := do
  let e ← m.lookup block
  let pprev ← e.pprev
  let nBlockTime := m.getMedianTimePast pprev
  some !(decide (lockPair.1 ≥ e.nHeight) || decide (lockPair.2 ≥ nBlockTime))

def sequenceLocks (m : BlockMap) (tx : CTransaction) (flags : Nat) (prevHeights : List Int)
    (block : Uint256) : Option Bool := do
  let (_, lockPair) ← m.calculateSequenceLocks tx flags prevHeights block
  m.evaluateSequenceLocks block lockPair

end BlockMap

/-! ## The locks of the inputs -/

variable {txin : CTxIn}

namespace CTxIn

theorem and_two_pow_ne_zero {x mask : UInt32} {i : Nat} (hmask : mask.toNat = 2 ^ i) :
    x &&& mask ≠ 0 ↔ x.toNat.testBit i = true := by
  rw [Ne, ← UInt32.toNat_inj, UInt32.toNat_and, hmask, Nat.and_two_pow]
  cases x.toNat.testBit i <;> simp

theorem disable_iff : txin.nSequence &&& SEQUENCE_LOCKTIME_DISABLE_FLAG ≠ 0 ↔
    txin.nSequence.toNat.testBit 31 = true := and_two_pow_ne_zero rfl

theorem type_iff : txin.nSequence &&& SEQUENCE_LOCKTIME_TYPE_FLAG ≠ 0 ↔
    txin.nSequence.toNat.testBit 22 = true := and_two_pow_ne_zero rfl

/-- The lower 16 bits of the sequence number. -/
def lockValue (txin : CTxIn) : Nat := txin.nSequence.toNat % 2 ^ 16

theorem lockValue_eq (txin : CTxIn) :
    (txin.nSequence &&& SEQUENCE_LOCKTIME_MASK).toNat = txin.lockValue := by
  rw [UInt32.toNat_and, lockValue, ← Nat.and_two_pow_sub_one_eq_mod]
  rfl

theorem lockSeconds_eq (txin : CTxIn) :
    ((txin.nSequence &&& SEQUENCE_LOCKTIME_MASK) <<< SEQUENCE_LOCKTIME_GRANULARITY).toNat =
      txin.lockValue * 512 := by
  have hlt : txin.lockValue < 2 ^ 16 := Nat.mod_lt _ (Nat.two_pow_pos 16)
  rw [UInt32.toNat_shiftLeft, lockValue_eq, Nat.shiftLeft_eq]
  have hnine : 2 ^ (SEQUENCE_LOCKTIME_GRANULARITY.toNat % 32) = 512 := rfl
  rw [hnine, Nat.mod_eq_of_lt (by omega)]

end CTxIn

namespace BlockMap

variable {m m' : BlockMap} {block p : Uint256}

/-- The block at a height of the chain that ends with a block. -/
def chainBlock (m : BlockMap) (block : Uint256) (height : Nat) : Option Uint256 :=
  if height ≤ m.nHeight block then m.back (m.nHeight block - height) block else none

variable (h : m.TreeOk)

theorem chainBlock_eq (block : Uint256) (height : Nat) :
    m.chainBlock block height = h.forest.ancestorAt height block := by
  have hheight : h.forest.height block = m.nHeight block := rfl
  rw [chainBlock, ancestorAt, hheight, h.up_forest]

/-- The condition of an input that was confirmed at a height: as many blocks later, or as much
    time from the median time before the input's block on. -/
def LockMet (m : BlockMap) (block : Uint256) (nHeight nTime : Int) (txin : CTxIn)
    (prevHeight : Int) : Prop :=
  txin.nSequence.toNat.testBit 31 = true ∨
  if txin.nSequence.toNat.testBit 22 = true then
    ∃ a, m.chainBlock block (prevHeight - 1).toNat = some a ∧
      m.getMedianTimePast a + txin.lockValue * 512 ≤ nTime
  else prevHeight + txin.lockValue ≤ nHeight

/-- A pair that allows a height and a time. -/
def PairMet (nHeight nTime : Int) (lockPair : LockPair) : Prop :=
  lockPair.1 < nHeight ∧ lockPair.2 < nTime

variable {nHeight nTime : Int}

theorem lockInput_spec (hskip : SkipOk m h) (hblock : block ∈ m) (txin : CTxIn) (prevHeight : Int)
    (lockPair : LockPair) :
    (∃ r, m.lockInput block txin prevHeight lockPair = some r ∧ PairMet nHeight nTime r.2) ↔
      PairMet nHeight nTime lockPair ∧ m.LockMet block nHeight nTime txin prevHeight := by
  rw [lockInput, LockMet]
  by_cases hdisable : txin.nSequence.toNat.testBit 31 = true
  · rw [if_pos (disable_iff.mpr hdisable)]
    simp [hdisable]
  rw [if_neg (mt disable_iff.mp hdisable)]
  -- a lock in seconds counts from the median time of the block before the output's, one in blocks
  -- from the output's height
  by_cases htype : txin.nSequence.toNat.testBit 22 = true
  · have hmax : max (prevHeight - 1) 0 = ((prevHeight - 1).toNat : Int) := by omega
    rw [if_pos (type_iff.mpr htype), hmax, getAncestor_eq h hskip hblock,
      if_neg (by omega), Int.toNat_natCast, ← chainBlock_eq h]
    simp only [lockSeconds_eq, hdisable, htype, Bool.false_eq_true, if_true, false_or,
      bind_eq_bind, bind_some]
    cases hat : m.chainBlock block (prevHeight - 1).toNat with
    | none => simp
    | some a =>
      simp only [bind_some, some.injEq, exists_eq_left', PairMet]
      constructor
      · rintro ⟨hheight, htime⟩
        exact ⟨⟨hheight, by omega⟩, by omega⟩
      · rintro ⟨⟨hheight, htime⟩, hlock⟩
        exact ⟨hheight, by omega⟩
  · rw [if_neg (mt type_iff.mp htype)]
    simp only [lockValue_eq, hdisable, htype, Bool.false_eq_true, if_false, false_or,
      some.injEq, exists_eq_left', PairMet]
    constructor
    · rintro ⟨hheight, htime⟩
      exact ⟨⟨by omega, htime⟩, by omega⟩
    · rintro ⟨⟨hheight, htime⟩, hlock⟩
      exact ⟨by omega, htime⟩

theorem lockInputs_spec (hskip : SkipOk m h) (hblock : block ∈ m) (l : List (CTxIn × Int))
    (lockPair : LockPair) :
    (∃ r, m.lockInputs block l lockPair = some r ∧ PairMet nHeight nTime r.2) ↔
      PairMet nHeight nTime lockPair ∧ ∀ x ∈ l, m.LockMet block nHeight nTime x.1 x.2 := by
  induction l generalizing lockPair with
  | nil => simp [lockInputs]
  | cons x l ih =>
    rw [List.forall_mem_cons, ← and_assoc, ← lockInput_spec h hskip hblock]
    simp only [lockInputs, bind_eq_bind, bind_eq_some_iff]
    constructor
    · rintro ⟨r, ⟨r1, hr1, r2, hr2, hr⟩, hmet⟩
      obtain rfl := some.inj hr
      obtain ⟨hmet1, hall⟩ := (ih r1.2).mp ⟨r2, hr2, hmet⟩
      exact ⟨⟨r1, hr1, hmet1⟩, hall⟩
    · rintro ⟨⟨r1, hr1, hmet1⟩, hall⟩
      obtain ⟨r2, hr2, hmet⟩ := (ih r1.2).mpr ⟨hmet1, hall⟩
      exact ⟨_, ⟨r1, hr1, r2, hr2, rfl⟩, hmet⟩

theorem getMedianTimePast_nonneg (m : BlockMap) (k : Uint256) : 0 ≤ m.getMedianTimePast k := by
  have hall : ∀ (n : Nat) (k : Option Uint256), ∀ t ∈ m.lastTimes n k, 0 ≤ t := by
    intro n
    induction n with
    | zero =>
      intro k t ht
      cases ht
    | succ n ih =>
      intro k t ht
      cases k with
      | none => cases ht
      | some k =>
        rw [lastTimes] at ht
        split at ht
        · cases ht
        next e _ =>
          rcases List.mem_cons.mp ht with rfl | ht
          · exact Int.natCast_nonneg _
          · exact ih _ t ht
  rw [getMedianTimePast]
  by_cases hnil : m.lastTimes nMedianTimeSpan (some k) = []
  · rw [hnil]
    exact le_rfl
  · rw [le_median_iff hnil]
    have hcount : (m.lastTimes nMedianTimeSpan (some k)).countP (0 ≤ ·) =
        (m.lastTimes nMedianTimeSpan (some k)).length :=
      List.countP_eq_length.mpr fun t ht => decide_eq_true (hall _ _ t ht)
    omega

theorem evaluateSequenceLocks_iff (hp : m.pprev block = some p) (lockPair : LockPair) :
    m.evaluateSequenceLocks block lockPair = some true ↔
      PairMet (m.nHeight block) (m.getMedianTimePast p) lockPair := by
  obtain ⟨e, he, hep⟩ := bind_eq_some_iff.mp hp
  simp only [evaluateSequenceLocks, he, hep, bind_eq_bind, bind_some,
    some.injEq, PairMet, nHeight_of_lookup he]
  simp

theorem calculateSequenceLocks_iff (hskip : SkipOk m h) (hblock : block ∈ m) (tx : CTransaction)
    (flags : Nat) (prevHeights : List Int) (hheight : 0 ≤ nHeight) (htime : 0 ≤ nTime) :
    (∃ r, m.calculateSequenceLocks tx flags prevHeights block = some r ∧
        PairMet nHeight nTime r.2) ↔
      prevHeights.length = tx.vin.length ∧ (enforceBIP68 tx flags = true →
        ∀ x ∈ tx.vin.zip prevHeights, m.LockMet block nHeight nTime x.1 x.2) := by
  have hstart : PairMet nHeight nTime (-1, -1) := ⟨by simp only; omega, by simp only; omega⟩
  rw [calculateSequenceLocks]
  by_cases hlen : prevHeights.length = tx.vin.length
  · rw [if_neg (not_not.mpr hlen)]
    by_cases henforce : enforceBIP68 tx flags = true
    · rw [if_pos henforce, lockInputs_spec h hskip hblock]
      simp only [hlen, henforce, hstart, true_and, forall_const]
    · rw [if_neg henforce]
      simp [hlen, henforce, hstart]
  · rw [if_pos hlen]
    simp [hlen]

theorem calculateSequenceLocks_isSome (hskip : SkipOk m h) (hblock : block ∈ m) (tx : CTransaction)
    (flags : Nat) {prevHeights : List Int} (hlen : prevHeights.length = tx.vin.length)
    (hheights : ∀ height ∈ prevHeights, height ≤ m.nHeight block + 1) :
    ∃ r, m.calculateSequenceLocks tx flags prevHeights block = some r := by
  have hinput : ∀ (txin : CTxIn) (height : Int) (lockPair : LockPair),
      height ≤ m.nHeight block + 1 → ∃ r, m.lockInput block txin height lockPair = some r := by
    intro txin height lockPair hle
    rw [lockInput]
    split
    · exact ⟨_, rfl⟩
    · split
      · have hmax : max (height - 1) 0 = ((height - 1).toNat : Int) := by omega
        have hat : (height - 1).toNat ≤ h.forest.height block := by
          show (height - 1).toNat ≤ m.nHeight block
          omega
        obtain ⟨a, ha, -⟩ := h.forest.exists_ancestorAt hat
        rw [hmax, getAncestor_eq h hskip hblock, if_neg (by omega), Int.toNat_natCast, ha]
        exact ⟨_, rfl⟩
      · exact ⟨_, rfl⟩
  -- one input after the other
  have hinputs : ∀ (l : List (CTxIn × Int)) (lockPair : LockPair),
      (∀ x ∈ l, x.2 ≤ m.nHeight block + 1) → ∃ r, m.lockInputs block l lockPair = some r := by
    intro l
    induction l with
    | nil => exact fun lockPair _ => ⟨_, rfl⟩
    | cons x l ih =>
      intro lockPair hl
      obtain ⟨hx, hl⟩ := List.forall_mem_cons.mp hl
      obtain ⟨r, hr⟩ := hinput x.1 x.2 lockPair hx
      obtain ⟨r', hr'⟩ := ih r.2 hl
      simp [lockInputs, hr, hr']
  rw [calculateSequenceLocks, if_neg (not_not.mpr hlen)]
  split
  · exact hinputs (tx.vin.zip prevHeights) (-1, -1) fun x hx => hheights x.2 (List.of_mem_zip hx).2
  · exact ⟨_, rfl⟩

theorem evaluateSequenceLocks_isSome (hp : m.pprev block = some p) (lockPair : LockPair) :
    (m.evaluateSequenceLocks block lockPair).isSome = true := by
  obtain ⟨e, he, hep⟩ := bind_eq_some_iff.mp hp
  simp [evaluateSequenceLocks, he, hep]

theorem sequenceLocks_iff (hskip : SkipOk m h) (hp : m.pprev block = some p) (tx : CTransaction)
    (flags : Nat) (prevHeights : List Int) :
    m.sequenceLocks tx flags prevHeights block = some true ↔
      prevHeights.length = tx.vin.length ∧ (enforceBIP68 tx flags = true →
        ∀ x ∈ tx.vin.zip prevHeights,
          m.LockMet block (m.nHeight block) (m.getMedianTimePast p) x.1 x.2) := by
  have hblock : block ∈ m := (h.mem_of_parent (k := block) hp).1
  rw [← calculateSequenceLocks_iff h hskip hblock tx flags prevHeights (Int.natCast_nonneg _)
    (getMedianTimePast_nonneg m p), sequenceLocks, bind_eq_bind, bind_eq_some_iff]
  simp only [evaluateSequenceLocks_iff hp]

/-! ## Later blocks -/

theorem Grown.lockMet (hgrown : m.Grown m') (h : m.TreeOk) (h' : m'.TreeOk) {block' : Uint256}
    (hblock : block ∈ m) (hanc : h'.forest.IsAncestor block block') {nHeight' nTime' : Int}
    (hheight : nHeight ≤ nHeight') (htime : nTime ≤ nTime') {prevHeight : Int}
    (hmet : m.LockMet block nHeight nTime txin prevHeight) :
    m'.LockMet block' nHeight' nTime' txin prevHeight := by
  refine hmet.imp_right fun hmet => ?_
  by_cases htype : txin.nSequence.toNat.testBit 22 = true
  · rw [if_pos htype] at hmet ⊢
    obtain ⟨a, ha, hlock⟩ := hmet
    rw [chainBlock_eq h] at ha
    have hamem := h.mem_of_up hblock (h.forest.up_of_ancestorAt ha)
    refine ⟨a, ?_, ?_⟩
    · have ha' := (hgrown.ancestorAt_eq h h' hblock _).trans ha
      have hj := (h'.forest.height_ancestorAt ha').2
      rw [chainBlock_eq h', h'.forest.ancestorAt_trans (isAncestor_iff.mp hanc) hj, ha']
    · rw [hgrown.getMedianTimePast_eq h hamem]
      omega
  · rw [if_neg htype] at hmet ⊢
    omega

end BlockMap

/-- `SequenceLocks` is true exactly when the condition of every input is met, and in a later
    state it is true of the block and of every block above it. -/
theorem sequenceLocks_exact (rules : HeaderRules) (s : ChainState) (hs : TreeReached rules s)
    (tx : CTransaction) (flags : Nat) (prevHeights : List Int) (block p : Uint256)
    (hp : s.mapBlockIndex.pprev block = some p) (hlen : prevHeights.length = tx.vin.length) :
    (s.mapBlockIndex.sequenceLocks tx flags prevHeights block = some true ↔
      (2 ≤ tx.nVersion % 2 ^ 32 ∧ flags.testBit 0 = true →
        ∀ x ∈ tx.vin.zip prevHeights, s.mapBlockIndex.LockMet block
          (s.mapBlockIndex.nHeight block) (s.mapBlockIndex.getMedianTimePast p) x.1 x.2)) ∧
    ((∀ height ∈ prevHeights, height ≤ s.mapBlockIndex.nHeight block + 1) →
      (s.mapBlockIndex.sequenceLocks tx flags prevHeights block).isSome = true) ∧
    (s.mapBlockIndex.sequenceLocks tx flags prevHeights block = some true →
      ∀ s' block' n, Relation.ReflTransGen (TreeStep rules) s s' →
        s'.mapBlockIndex.back n block' = some block →
        s'.mapBlockIndex.sequenceLocks tx flags prevHeights block' = some true) := by
  have htree := hs.acceptedTree.1
  have hmem := htree.tree.mem_of_parent (k := block) hp
  have henforce : enforceBIP68 tx flags = true ↔
      2 ≤ tx.nVersion % 2 ^ 32 ∧ flags.testBit 0 = true := by
    rw [enforceBIP68, LOCKTIME_VERIFY_SEQUENCE, Nat.one_shiftLeft, Nat.and_two_pow]
    cases flags.testBit 0 <;> simp
  have hiff := sequenceLocks_iff htree.tree htree.skip hp tx flags prevHeights
  rw [henforce] at hiff
  refine ⟨by rw [hiff, and_iff_right hlen], fun hheights => ?_, ?_⟩
  · obtain ⟨r, hr⟩ :=
      calculateSequenceLocks_isSome htree.tree htree.skip hmem.1 tx flags hlen hheights
    rw [sequenceLocks, hr]
    exact evaluateSequenceLocks_isSome hp r.2
  intro htrue s' block' n hsteps hback
  obtain ⟨hs', hgrown⟩ := hs.later hsteps
  have htree' := hs'.acceptedTree.1
  have hanc : htree'.tree.forest.IsAncestor block block' :=
    ⟨n, (htree'.tree.up_forest n block').trans hback⟩
  have hparent : htree'.tree.forest.parent block = some p := (hgrown.pprev_eq hmem.1).trans hp
  obtain ⟨p', hp'⟩ : ∃ p', s'.mapBlockIndex.pprev block' = some p' := by
    cases hp' : s'.mapBlockIndex.pprev block' with
    | some p' => exact ⟨p', rfl⟩
    | none =>
      -- the block itself has a parent
      obtain rfl := (isAncestor_root (F := htree'.tree.forest) hp').mp hanc
      rw [hgrown.pprev_eq hmem.1, hp] at hp'
      nomatch hp'
  -- the parent of an ancestor is an ancestor of the parent
  have hpanc : htree'.tree.forest.IsAncestor p p' := by
    rcases (isAncestor_iff_parent hp').mp hanc with rfl | hanc
    · rw [some.inj (hparent.symm.trans hp')]
      exact .refl _
    · exact (isAncestor_parent hparent).trans hanc
  have hheight : s.mapBlockIndex.nHeight block ≤ s'.mapBlockIndex.nHeight block' := by
    rw [← hgrown.nHeight_eq hmem.1]
    exact hanc.height_le
  have htime : s.mapBlockIndex.getMedianTimePast p ≤ s'.mapBlockIndex.getMedianTimePast p' := by
    rw [← hgrown.getMedianTimePast_eq htree.tree hmem.2]
    exact getMedianTimePast_mono htree'.tree htree'.times hpanc
  rw [sequenceLocks_iff htree'.tree htree'.skip hp', henforce]
  obtain ⟨-, hall⟩ := hiff.mp htrue
  exact ⟨hlen, fun he x hx => hgrown.lockMet htree.tree htree'.tree hmem.1 hanc (by omega) htime
    (hall he x hx)⟩

section Samples

def sampleRules : HeaderRules :=
  { hashGenesisBlock := 1, checkBlockHeader := fun _ => true,
    getNextWorkRequired := fun _ _ block => block.nBits, getLastCheckpoint := fun _ => none }

def sampleHeader₁ : CBlockHeader := { hash := 1, hashPrevBlock := 0, nTime := 100, nBits := 0 }

def sampleHeader₂ : CBlockHeader := { hash := 2, hashPrevBlock := 1, nTime := 200, nBits := 0 }

/-- The genesis block is loaded, and the header of a block after it accepted. -/
def sampleHeaders : Option ChainState := do
  let (_, s) ← ChainState.addToBlockIndex {} sampleHeader₁
  let (_, s) ← ChainState.acceptBlockHeader (sampleRules.env s.mapBlockIndex 0) s sampleHeader₂
  some s

/-- An output of the genesis block is spent one block later, as its lock allows. -/
def sampleLocked : CTransaction :=
  { hash := 9, vin := [{ prevout := ⟨8, 0⟩, nSequence := 1 }], vout := [] }

theorem sequenceLocks_exact_sample : ∃ s, TreeReached sampleRules s ∧
    s.mapBlockIndex.sequenceLocks sampleLocked 1 [0] 2 = some true := by
  have hblock : sampleHeaders.map (fun s => (s.mapBlockIndex.pprev 2, s.mapBlockIndex.nHeight 2)) =
      some (some 1, 1) := by decide
  obtain ⟨s, hs, hfields⟩ := map_eq_some_iff.mp hblock
  obtain ⟨hp, hheight⟩ := Prod.mk.inj hfields
  rw [sampleHeaders] at hs
  obtain ⟨⟨k, s1⟩, hadd, hs⟩ := bind_eq_some_iff.mp hs
  obtain ⟨⟨r, s2⟩, haccept, hs⟩ := bind_eq_some_iff.mp hs
  obtain rfl := some.inj hs
  have hreached : TreeReached sampleRules s2 :=
    .step (.loadGenesisBlock rfl hadd) (.acceptBlockHeader 0 sampleHeader₂ r haccept)
  refine ⟨s2, hreached,
    (sequenceLocks_exact sampleRules s2 hreached sampleLocked 1 [0] 2 1 hp rfl).1.mpr ?_⟩
  rintro - x hx
  obtain rfl := List.mem_singleton.mp hx
  refine .inr ?_
  rw [if_neg (by decide), hheight]
  decide

end Samples

end Rcoin
