/-
  The lossy set of src/cuckoocache.h, for any elements and any hash functions.

  The discard flags are packed into bytes as in the source: an access outside of their
  memory is a fault.  `size` is fixed once `setup` has run; `depthLimit`, which the
  source rounds from a floating-point logarithm, is an argument of `setup`.

  Over every sequence of calls an element is in one slot at most, and that is one of
  its eight; an insert removes at most one element; what is found was inserted; and
  ageing gives up a slot only after an epoch of inserts.  The flags have room for all
  slots up to a size of `2 ^ 32 - 8`.
-/
import Rcoin.Primitives

namespace Rcoin

/-- `std::max<uint32_t>(2, new_size)`. -/
def CuckooCache.setupSize (newSize : Nat) : Nat := max 2 newSize

instance (newSize : Nat) : NeZero (CuckooCache.setupSize newSize) :=
  ⟨by have := Nat.le_max_left 2 newSize; unfold CuckooCache.setupSize; omega⟩

namespace Cuckoo

/-- An access outside of the memory of the flags. -/
inductive Fault where
  | outOfBounds
  deriving DecidableEq, Repr

/-- `bit_packed_atomic_flags`: the bits of its bytes, the low bit of a byte first. -/
structure BitPackedAtomicFlags where
  mem : List Bool
  deriving DecidableEq, Repr

namespace BitPackedAtomicFlags

/-- `(size + 7) / 8` bytes of ones; the sum has 32 bits. -/
def ofSize (size : Nat) : BitPackedAtomicFlags :=
  ⟨List.replicate (8 * ((size + 7) % 2 ^ 32 / 8)) true⟩

def store (flags : BitPackedAtomicFlags) (s : Nat) (bit : Bool) :
    Except Fault BitPackedAtomicFlags :=
  if s < flags.mem.length then .ok ⟨flags.mem.set s bit⟩ else .error .outOfBounds

def bitSet (flags : BitPackedAtomicFlags) (s : Nat) : Except Fault BitPackedAtomicFlags :=
  flags.store s true

def bitUnset (flags : BitPackedAtomicFlags) (s : Nat) : Except Fault BitPackedAtomicFlags :=
  flags.store s false

def bitIsSet (flags : BitPackedAtomicFlags) (s : Nat) : Except Fault Bool :=
  match flags.mem[s]? with
  | some bit => .ok bit
  | none => .error .outOfBounds

end BitPackedAtomicFlags

structure Cache (Element : Type) (size : Nat) where
  table : Vector Element size
  /-- Set where the element may be overwritten. -/
  collectionFlags : BitPackedAtomicFlags
  /-- Set where the element is of the newest epoch. -/
  epochFlags : Vector Bool size
  epochHeuristicCounter : Nat
  epochSize : Nat
  depthLimit : Nat

/-- The hash functions, one for each `hash_select`. -/
abbrev Hash (Element : Type) := Fin 8 → Element → UInt32

namespace Cache

variable {Element : Type}

/-- `size` is at least 2; the slots hold default elements, which may be overwritten. -/
def setup (Element : Type) [Inhabited Element] (newSize depthLimit : Nat) :
    Cache Element (CuckooCache.setupSize newSize) :=
  let epochSize := max 1 (45 * CuckooCache.setupSize newSize % 2 ^ 32 / 100)
  { table := Vector.replicate _ default
    collectionFlags := .ofSize (CuckooCache.setupSize newSize)
    epochFlags := Vector.replicate _ false
    -- initially set to wait for a whole epoch
    epochHeuristicCounter := epochSize
    epochSize
    depthLimit }

variable {size : Nat}

def allowErase (c : Cache Element size) (n : Fin size) : Except Fault (Cache Element size) := do
  let flags ← c.collectionFlags.bitSet n
  .ok { c with collectionFlags := flags }

def pleaseKeep (c : Cache Element size) (n : Fin size) : Except Fault (Cache Element size) := do
  let flags ← c.collectionFlags.bitUnset n
  .ok { c with collectionFlags := flags }

def setEpochFlag (c : Cache Element size) (n : Fin size) (epoch : Bool) : Cache Element size :=
  { c with epochFlags := c.epochFlags.set n epoch }

def setTable (c : Cache Element size) (n : Fin size) (e : Element) : Cache Element size :=
  { c with table := c.table.set n e }

/-- The elements of the latest epoch which have not been erased. -/
def epochUnusedCount (c : Cache Element size) : List (Fin size) → Except Fault Nat
  | [] => .ok 0
  | i :: is =>
    if c.epochFlags[i] then do
      let erased ← c.collectionFlags.bitIsSet i
      let count ← c.epochUnusedCount is
      .ok (if erased then count else count + 1)
    else c.epochUnusedCount is

/-- The old epoch may be erased, the current one becomes the old one. -/
def ageEpochs (c : Cache Element size) : List (Fin size) → Except Fault (Cache Element size)
  | [] => .ok c
  | i :: is =>
    if c.epochFlags[i] then (c.setEpochFlag i false).ageEpochs is
    else do
      let c ← c.allowErase i
      c.ageEpochs is

def epochCheck (c : Cache Element size) : Except Fault (Cache Element size) :=
  if c.epochHeuristicCounter ≠ 0 then
    .ok { c with epochHeuristicCounter := c.epochHeuristicCounter - 1 }
  else do
    let count ← c.epochUnusedCount (List.finRange size)
    if count ≥ c.epochSize then
      let c ← c.ageEpochs (List.finRange size)
      .ok { c with epochHeuristicCounter := c.epochSize }
    else
      .ok { c with
        epochHeuristicCounter := max 1 (max (c.epochSize / 16) (c.epochSize - count)) }

/-- The first of the slots whose element may be overwritten. -/
def firstDiscardable (c : Cache Element size) : List (Fin size) → Except Fault (Option (Fin size))
  | [] => .ok none
  | loc :: locs => do
    let discardable ← c.collectionFlags.bitIsSet loc
    if discardable then .ok (some loc) else c.firstDiscardable locs

variable [NeZero size] (hash : Hash Element)

/-- The eight slots of an element. -/
def computeHashes (size : Nat) [NeZero size] (hash : Hash Element) (e : Element) :
    Vector (Fin size) 8 :=
  Vector.ofFn fun hashSelect => ⟨(hash hashSelect e).toNat * size / 2 ^ 32, by
    have hsize : 0 < size := Nat.pos_of_ne_zero (NeZero.ne size)
    rw [Nat.div_lt_iff_lt_mul (by omega), Nat.mul_comm size]
    exact Nat.mul_lt_mul_of_pos_right (hash hashSelect e).toNat_lt hsize⟩

/-- The loop of `insert`, with `depth` rounds to go. What it returns besides the cache
    is the element it is left with. -/
def insertLoop : Nat → Cache Element size → Element → Option (Fin size) → Bool →
    Except Fault (Cache Element size × Option Element)
  | 0, c, e, _, _ => .ok (c, some e)
  | depth + 1, c, e, lastLoc, lastEpoch => do
    let locs := computeHashes size hash e
    -- first try to insert to an empty slot, if one exists
    match ← c.firstDiscardable locs.toList with
    | some loc =>
      let c ← (c.setTable loc e).pleaseKeep loc
      .ok (c.setEpochFlag loc lastEpoch, none)
    | none =>
      -- swap with the element after the slot that was last evicted from
      let found := locs.toList.findIdx fun loc => some loc == lastLoc
      let loc := locs[(1 + found) % 8]
      insertLoop depth ((c.setTable loc e).setEpochFlag loc lastEpoch) c.table[loc] (some loc)
        c.epochFlags[loc]

variable [DecidableEq Element]

/-- The first of its slots an element is in. -/
def slotOf (c : Cache Element size) (e : Element) : Option (Fin size) :=
  (computeHashes size hash e).toList.find? fun loc => c.table[loc] == e

def insert (c : Cache Element size) (e : Element) :
    Except Fault (Cache Element size × Option Element) := do
  let c ← c.epochCheck
  match c.slotOf hash e with
  | some loc =>
    let c ← c.pleaseKeep loc
    .ok (c.setEpochFlag loc true, none)
  | none => c.insertLoop hash c.depthLimit e none true

def contains (c : Cache Element size) (e : Element) (erase : Bool) :
    Except Fault (Bool × Cache Element size) :=
  match c.slotOf hash e with
  | some loc => if erase then do
      let c ← c.allowErase loc
      .ok (true, c)
    else .ok (true, c)
  | none => .ok (false, c)

/-- The calls on a cache. -/
inductive Call (Element : Type) where
  | insert (e : Element)
  | contains (e : Element) (erase : Bool)

def Call.element : Call Element → Element
  | .insert e => e
  | .contains e _ => e

def call (c : Cache Element size) : Call Element → Except Fault (Cache Element size)
  | .insert e => do
    let (c, _) ← c.insert hash e
    .ok c
  | .contains e erase => do
    let (_, c) ← c.contains hash e erase
    .ok c

def run : Cache Element size → List (Call Element) → Except Fault (Cache Element size)
  | c, [] => .ok c
  | c, first :: calls => do
    let c ← c.call hash first
    c.run calls

end Cache

end Cuckoo

end Rcoin

namespace Rcoin

theorem slot_set {α : Type} {size : Nat} (v : Vector α size) (i j : Fin size) (x : α) :
    (v.set i x)[j] = if j = i then x else v[j] := by
  rw [Fin.getElem_fin, Vector.getElem_set]
  by_cases h : j = i
  · rw [if_pos h, if_pos (congrArg Fin.val h.symm)]
  · rw [if_neg h, if_neg fun hval => h (Fin.ext hval.symm)]
    rfl

open CuckooCache List Vector

namespace Cuckoo

/-! ## Flags -/

namespace BitPackedAtomicFlags

variable {flags : BitPackedAtomicFlags} {s : Nat}

def isSet (flags : BitPackedAtomicFlags) (s : Nat) : Bool := flags.mem.getD s false

theorem bitIsSet_of_lt (h : s < flags.mem.length) : flags.bitIsSet s = .ok (flags.isSet s) := by
  rw [bitIsSet, isSet, getD_eq_getElem?_getD, List.getElem?_eq_getElem h]
  rfl

theorem store_of_lt (h : s < flags.mem.length) (bit : Bool) :
    flags.store s bit = .ok ⟨flags.mem.set s bit⟩ := if_pos h

theorem isSet_set (h : s < flags.mem.length) (bit : Bool) (t : Nat) :
    (⟨flags.mem.set s bit⟩ : BitPackedAtomicFlags).isSet t =
      if t = s then bit else flags.isSet t := by
  rw [isSet, isSet, getD_eq_getElem?_getD, getD_eq_getElem?_getD, List.getElem?_set]
  by_cases heq : s = t
  · subst heq
    rw [if_pos rfl, if_pos rfl, if_pos h]
    rfl
  · rw [if_neg heq, if_neg (Ne.symm heq)]

variable {size : Nat}

theorem length_ofSize (h : size + 7 < 2 ^ 32) : size ≤ (ofSize size).mem.length := by
  rw [ofSize, length_replicate, Nat.mod_eq_of_lt h]
  omega

theorem ofSize_overflow (h : size < 2 ^ 32) (h' : 2 ^ 32 ≤ size + 7) : (ofSize size).mem = [] := by
  have hzero : 8 * ((size + 7) % 2 ^ 32 / 8) = 0 := by omega
  rw [ofSize, hzero]
  rfl

end BitPackedAtomicFlags

open BitPackedAtomicFlags

/-! ## The cache, where its flags have room for all slots -/

namespace Cache

variable {Element : Type} {size : Nat} {c : Cache Element size}

def discardable (c : Cache Element size) (i : Fin size) : Bool := c.collectionFlags.isSet i

def Covers (c : Cache Element size) : Prop := size ≤ c.collectionFlags.mem.length

/-- The cache with the flag of a slot set to `bit`. -/
def setFlag (c : Cache Element size) (n : Fin size) (bit : Bool) : Cache Element size :=
  { c with collectionFlags := ⟨c.collectionFlags.mem.set n bit⟩ }

variable (h : c.Covers)

include h

theorem Covers.setFlag (n : Fin size) (bit : Bool) : (c.setFlag n bit).Covers := by
  show size ≤ (c.collectionFlags.mem.set n bit).length
  rw [length_set]
  exact h

theorem discardable_setFlag (n i : Fin size) (bit : Bool) :
    (c.setFlag n bit).discardable i = if i = n then bit else c.discardable i := by
  unfold discardable setFlag
  rw [isSet_set (lt_of_lt_of_le n.isLt h)]
  by_cases heq : i = n
  · rw [if_pos heq, if_pos (congrArg Fin.val heq)]
  · rw [if_neg heq, if_neg fun hval => heq (Fin.ext hval)]

theorem allowErase_ok (n : Fin size) : c.allowErase n = .ok (c.setFlag n true) := by
  rw [allowErase, bitSet,
    store_of_lt (lt_of_lt_of_le n.isLt h)]
  rfl

theorem pleaseKeep_ok (n : Fin size) : c.pleaseKeep n = .ok (c.setFlag n false) := by
  rw [pleaseKeep, bitUnset,
    store_of_lt (lt_of_lt_of_le n.isLt h)]
  rfl

theorem firstDiscardable_ok (locs : List (Fin size)) :
    c.firstDiscardable locs = .ok (locs.find? c.discardable) := by
  induction locs with
  | nil => rfl
  | cons loc locs ih =>
    rw [firstDiscardable, bitIsSet_of_lt (lt_of_lt_of_le loc.isLt h),
      find?_cons, ih]
    show (if c.discardable loc = true then _ else _) = _
    cases c.discardable loc with
    | true => rfl
    | false => rfl

theorem epochUnusedCount_ok (is : List (Fin size)) :
    ∃ count, c.epochUnusedCount is = .ok count := by
  induction is with
  | nil => exact ⟨0, rfl⟩
  | cons i is ih =>
    obtain ⟨count, hcount⟩ := ih
    rw [epochUnusedCount, hcount,
      bitIsSet_of_lt (lt_of_lt_of_le i.isLt h)]
    split
    · exact ⟨_, rfl⟩
    · exact ⟨count, rfl⟩

omit h

/-- The two caches differ in their flags and their counter only. -/
structure SameTable (c c' : Cache Element size) : Prop where
  covers : c'.collectionFlags.mem.length = c.collectionFlags.mem.length
  table : c'.table = c.table
  epochSize : c'.epochSize = c.epochSize
  depthLimit : c'.depthLimit = c.depthLimit

variable {c' : Cache Element size}

theorem SameTable.trans {c'' : Cache Element size} (h : SameTable c c') (h' : SameTable c' c'')
    : SameTable c c'' where
  covers := h'.covers.trans h.covers
  table := h'.table.trans h.table
  epochSize := h'.epochSize.trans h.epochSize
  depthLimit := h'.depthLimit.trans h.depthLimit

theorem ageEpochs_ok (h : c.Covers) {is : List (Fin size)} (hnodup : is.Nodup) :
    ∃ c', c.ageEpochs is = .ok c' ∧ SameTable c c' ∧
      (∀ i, c'.epochFlags[i] = (c.epochFlags[i] && !decide (i ∈ is))) ∧
      ∀ i, c'.discardable i = (c.discardable i || (decide (i ∈ is) && !c.epochFlags[i])) := by
  induction is generalizing c with
  | nil =>
    refine ⟨c, rfl, ⟨rfl, rfl, rfl, rfl⟩, fun i => ?_, fun i => ?_⟩
    · simp
    · simp
  | cons n is ih =>
    obtain ⟨hn, hnodup⟩ := nodup_cons.mp hnodup
    rw [ageEpochs]
    cases hflag : c.epochFlags[n] with
    | true =>
      have hcovers : (c.setEpochFlag n false).Covers := h
      obtain ⟨c', hage, hsame, hepoch, hdisc⟩ := ih hcovers hnodup
      refine ⟨c', hage, ⟨hsame.covers, hsame.table, hsame.epochSize, hsame.depthLimit⟩,
        fun i => ?_, fun i => ?_⟩
      · rw [hepoch i]
        show ((c.epochFlags.set n false)[i] && _) = _
        rw [slot_set]
        by_cases hi : i = n
        · simp [hi]
        · simp [hi]
      · rw [hdisc i]
        show (c.discardable i || (decide (i ∈ is) && !(c.epochFlags.set n false)[i])) = _
        rw [slot_set]
        by_cases hi : i = n
        · rw [hi, hflag]
          simp [hn]
        · simp [hi]
    | false =>
      obtain ⟨c', hage, hsame, hepoch, hdisc⟩ := ih (h.setFlag n true) hnodup
      rw [if_neg Bool.false_ne_true, allowErase_ok h]
      have hfirst : SameTable c (c.setFlag n true) := ⟨length_set, rfl, rfl, rfl⟩
      refine ⟨c', hage, hfirst.trans hsame, fun i => ?_, fun i => ?_⟩
      · rw [hepoch i]
        show (c.epochFlags[i] && _) = _
        by_cases hi : i = n
        · rw [hi, hflag]
          rfl
        · simp [hi]
      · rw [hdisc i, discardable_setFlag h]
        show (_ || (decide (i ∈ is) && !c.epochFlags[i])) = _
        by_cases hi : i = n
        · rw [hi, hflag]
          simp
        · simp [hi]

/-- What the check before an insert does to the flags and the counter. -/
inductive EpochStep (c c' : Cache Element size) : Prop where
  /-- No scan is due. -/
  | tick (hcounter : c'.epochHeuristicCounter + 1 = c.epochHeuristicCounter)
      (hepoch : c'.epochFlags = c.epochFlags) (hflags : c'.collectionFlags = c.collectionFlags)
  /-- The epoch is not full. -/
  | scan (hcounter : c.epochHeuristicCounter = 0)
      (hepoch : c'.epochFlags = c.epochFlags) (hflags : c'.collectionFlags = c.collectionFlags)
  | age (hcounter : c.epochHeuristicCounter = 0)
      (hcounter' : c'.epochHeuristicCounter = c.epochSize)
      (hepoch : ∀ i : Fin size, c'.epochFlags[i] = false)
      (hdisc : ∀ i, c'.discardable i = (c.discardable i || !c.epochFlags[i]))

theorem epochCheck_ok (h : c.Covers) :
    ∃ c', c.epochCheck = .ok c' ∧ SameTable c c' ∧ EpochStep c c' := by
  unfold epochCheck
  by_cases hcounter : c.epochHeuristicCounter = 0
  · obtain ⟨count, hcount⟩ := epochUnusedCount_ok h (finRange size)
    rw [if_neg (not_not.mpr hcounter), hcount]
    obtain ⟨c', hage, hsame, hepoch, hdisc⟩ := ageEpochs_ok h (nodup_finRange size)
    show ∃ c', (if count ≥ c.epochSize then _ else _) = _ ∧ _
    by_cases hfull : count ≥ c.epochSize
    · rw [if_pos hfull, hage]
      refine ⟨_, rfl, ⟨hsame.covers, hsame.table, hsame.epochSize, hsame.depthLimit⟩,
        .age hcounter hsame.epochSize (fun i => ?_) fun i => ?_⟩
      · have hi := hepoch i
        rw [decide_eq_true (mem_finRange i), Bool.not_true, Bool.and_false] at hi
        exact hi
      · have hi := hdisc i
        rw [decide_eq_true (mem_finRange i), Bool.true_and] at hi
        exact hi
    · rw [if_neg hfull]
      exact ⟨_, rfl, ⟨rfl, rfl, rfl, rfl⟩, .scan hcounter rfl rfl⟩
  · rw [if_pos hcounter]
    exact ⟨_, rfl, ⟨rfl, rfl, rfl, rfl⟩, .tick (Nat.succ_pred hcounter) rfl rfl⟩

/-! ## The invariant -/

section

variable [DecidableEq Element] [Inhabited Element]

/-- How many elements were inserted after the last time `x` was; the last insert comes
    first. -/
def insertsSince (inserted : List Element) (x : Element) : Nat :=
  (inserted.takeWhile (· ≠ x)).length

variable {e : Element}

omit [Inhabited Element] in
theorem insertsSince_cons_of_ne {inserted : List Element} {x : Element} (h : x ≠ e) :
    insertsSince (e :: inserted) x = insertsSince inserted x + 1 := by
  rw [insertsSince, takeWhile_cons_of_pos (by simpa using h.symm), length_cons,
    insertsSince]

/-- The set that the table stands for. -/
def elements (c : Cache Element size) : Set Element :=
  {x | x ≠ default ∧ ∃ i : Fin size, c.table[i] = x}

variable [NeZero size] {hash : Hash Element} {inserted : List Element} {age : Nat}

/-- What holds of the slots, where the last ageing was `age` inserts ago. -/
structure Sound (hash : Hash Element) (inserted : List Element) (age : Nat)
    (c : Cache Element size) : Prop where
  covers : c.Covers
  slot : ∀ i : Fin size, c.table[i] ≠ default → i ∈ computeHashes size hash c.table[i]
  once : ∀ i j : Fin size, c.table[i] ≠ default → c.table[j] = c.table[i] → j = i
  known : ∀ i : Fin size, c.table[i] ≠ default → c.table[i] ∈ inserted
  empty : ∀ i : Fin size, c.table[i] = default → c.discardable i = true
  old : ∀ i : Fin size, c.table[i] ≠ default → c.epochFlags[i] = false →
    age ≤ insertsSince inserted c.table[i]

omit [DecidableEq Element] [Inhabited Element] [NeZero size] in
theorem setTable_getElem (c : Cache Element size) (n i : Fin size) (e : Element) :
    (c.setTable n e).table[i] = if i = n then e else c.table[i] := slot_set c.table n i e

theorem Sound.place (h : Sound hash inserted age c) (he : e ≠ default)
    (hnew : ∀ i : Fin size, c.table[i] ≠ e) (hin : e ∈ inserted) {epoch : Bool}
    (hold : epoch = false → age ≤ insertsSince inserted e) {loc : Fin size}
    (hloc : loc ∈ computeHashes size hash e) :
    Sound hash inserted age ((c.setTable loc e).setEpochFlag loc epoch) := by
  obtain ⟨c', hc'⟩ : ∃ c', (c.setTable loc e).setEpochFlag loc epoch = c' := ⟨_, rfl⟩
  have htable : ∀ i : Fin size, c'.table[i] = if i = loc then e else c.table[i] := by
    rw [← hc']
    exact fun i => setTable_getElem c loc i e
  have hepoch : ∀ i : Fin size, c'.epochFlags[i] = if i = loc then epoch else c.epochFlags[i] := by
    rw [← hc']
    exact fun i => slot_set c.epochFlags loc i epoch
  have hdisc : ∀ i, c'.discardable i = c.discardable i := by
    rw [← hc']
    exact fun _ => rfl
  rw [hc']
  constructor
  case covers =>
    rw [← hc']
    exact h.covers
  case slot =>
    intro i
    rw [htable]
    split
    next hi => exact fun _ => hi ▸ hloc
    next => exact h.slot i
  case once =>
    intro i j
    rw [htable, htable]
    split
    next hi =>
      split
      next hj => exact fun _ _ => hj.trans hi.symm
      next => exact fun _ heq => absurd heq (hnew j)
    next =>
      split
      next => exact fun _ heq => absurd heq.symm (hnew i)
      next => exact h.once i j
  case known =>
    intro i
    rw [htable]
    split
    next => exact fun _ => hin
    next => exact h.known i
  case empty =>
    intro i
    rw [htable, hdisc]
    split
    next => exact fun hdefault => absurd hdefault he
    next => exact h.empty i
  case old =>
    intro i
    rw [htable, hepoch]
    split
    next => exact fun _ => hold
    next => exact h.old i

theorem Sound.elements_place (h : Sound hash inserted age c) (he : e ≠ default)
    (hnew : ∀ i : Fin size, c.table[i] ≠ e) (loc : Fin size) :
    (c.setTable loc e).elements = (c.elements ∪ {e}) \ {c.table[loc]} := by
  ext x
  constructor
  · rintro ⟨hx, i, hi⟩
    rw [setTable_getElem] at hi
    split at hi
    next => exact ⟨.inr hi.symm, fun heq => hnew loc (heq.symm.trans hi.symm)⟩
    next hne =>
      refine ⟨.inl ⟨hx, i, hi⟩, fun heq => hne (h.once loc i ?_ (hi.trans heq))⟩
      rw [← show x = c.table[loc] from heq]
      exact hx
  · rintro ⟨⟨hx, i, hi⟩ | hx, hne⟩
    · refine ⟨hx, i, ?_⟩
      rw [setTable_getElem, if_neg fun heq => hne (by rw [← hi, heq]; rfl), hi]
    · refine ⟨by rw [show x = e from hx]; exact he, loc, ?_⟩
      rw [setTable_getElem, if_pos rfl, show x = e from hx]

theorem Sound.setFlag (h : Sound hash inserted age c) (loc : Fin size) (bit : Bool)
    (hbit : c.table[loc] = default → bit = true) :
    Sound hash inserted age (c.setFlag loc bit) where
  covers := h.covers.setFlag loc bit
  slot := h.slot
  once := h.once
  known := h.known
  empty := by
    intro i hi
    rw [discardable_setFlag h.covers]
    split
    next heq => exact hbit (heq ▸ hi)
    next => exact h.empty i hi
  old := h.old

/-- What an insert may remove: what is in a slot that may be overwritten, or what the
    insert is left with. -/
def Removes (c : Cache Element size) (left : Option Element) (x : Element) : Prop :=
  (left = none ∧ ∃ loc : Fin size, c.discardable loc = true ∧ c.table[loc] = x) ∨ left = some x

theorem Sound.insertLoop (depth : Nat) (h : Sound hash inserted age c) (he : e ≠ default)
    (hnew : ∀ i : Fin size, c.table[i] ≠ e) (hin : e ∈ inserted) (lastLoc : Option (Fin size))
    {lastEpoch : Bool} (hold : lastEpoch = false → age ≤ insertsSince inserted e) :
    ∃ c' left x, c.insertLoop hash depth e lastLoc lastEpoch = .ok (c', left) ∧
      Sound hash inserted age c' ∧ c'.epochHeuristicCounter = c.epochHeuristicCounter ∧
      c'.epochSize = c.epochSize ∧ Removes c left x ∧
      c'.elements = (c.elements ∪ {e}) \ {x} := by
  induction depth generalizing c e lastLoc lastEpoch with
  | zero =>
    refine ⟨c, some e, e, rfl, h, rfl, rfl, .inr rfl, ?_⟩
    have hnot : e ∉ c.elements := fun ⟨_, i, hi⟩ => hnew i hi
    rw [Set.union_singleton, Set.insert_sdiff_self_of_notMem hnot]
  | succ depth ih =>
    rw [Cache.insertLoop, firstDiscardable_ok h.covers]
    cases hfind : (computeHashes size hash e).toList.find? c.discardable with
    | some loc =>
      have hloc : loc ∈ computeHashes size hash e :=
        mem_toList_iff.mp (mem_of_find?_eq_some hfind)
      have hkeep : (c.setTable loc e).pleaseKeep loc =
          .ok ((c.setTable loc e).setFlag loc false) :=
        pleaseKeep_ok (c := c.setTable loc e) h.covers loc
      have hplaced := (h.place he hnew hin hold hloc).setFlag loc false (by
        intro hdefault
        rw [show ((c.setTable loc e).setEpochFlag loc lastEpoch).table[loc] = e by
          exact (setTable_getElem c loc loc e).trans (if_pos rfl)] at hdefault
        exact absurd hdefault he)
      refine ⟨((c.setTable loc e).setFlag loc false).setEpochFlag loc lastEpoch, none,
        c.table[loc], ?_, hplaced, rfl, rfl, .inl ⟨rfl, loc, find?_some hfind, rfl⟩,
        h.elements_place he hnew loc⟩
      show (do
        let c ← (c.setTable loc e).pleaseKeep loc
        .ok (c.setEpochFlag loc lastEpoch, none)) = _
      rw [hkeep]
      rfl
    | none =>
      obtain ⟨loc, hloceq⟩ : ∃ loc, (computeHashes size hash e)[(1 + (computeHashes size hash
        e).toList.findIdx fun loc => some loc == lastLoc) % 8] = loc := ⟨_, rfl⟩
      have hloc : loc ∈ computeHashes size hash e := hloceq ▸ getElem_mem _
      have hkept : c.discardable loc = false := by
        have hnone := find?_eq_none.mp hfind loc (mem_toList_iff.mpr hloc)
        exact Bool.eq_false_iff.mpr hnone
      -- the slot is in use, so its element goes on
      have hused : c.table[loc] ≠ default := by
        intro hdefault
        rw [h.empty loc hdefault] at hkept
        cases hkept
      have hplaced := h.place he hnew hin hold hloc
      have htable := fun i => setTable_getElem c loc i e
      obtain ⟨c', left, x, hloop, hsound, hcounter, hepochSize, hremoves, helements⟩ :=
        ih hplaced hused (fun i hi => by
          change (c.setTable loc e).table[i] = c.table[loc] at hi
          rw [htable] at hi
          split at hi
          next => exact hnew loc hi.symm
          next hne => exact hne (h.once loc i hused hi)) (h.known loc hused) (some loc)
          (h.old loc hused)
      refine ⟨c', left, x, ?_, hsound, hcounter, hepochSize, ?_, ?_⟩
      · subst hloceq
        exact hloop
      · rcases hremoves with ⟨hleft, loc', hdisc, hx⟩ | hleft
        · refine .inl ⟨hleft, loc', hdisc, ?_⟩
          change (c.setTable loc e).table[loc'] = x at hx
          rw [htable] at hx
          split at hx
          next heq =>
            rw [heq] at hdisc
            exact absurd (hkept.symm.trans hdisc) Bool.false_ne_true
          next => exact hx
        · exact .inr hleft
      · have hmem : c.table[loc] ∈ c.elements ∪ {e} := .inl ⟨hused, loc, rfl⟩
        rw [helements]
        show ((c.setTable loc e).elements ∪ _) \ _ = _
        rw [h.elements_place he hnew loc, Set.sdiff_union_self, Set.union_eq_left.mpr
          (Set.singleton_subset_iff.mpr hmem)]

/-- Between two calls the counter covers what an epoch still needs. -/
def Inv (hash : Hash Element) (inserted : List Element) (c : Cache Element size) : Prop :=
  ∃ age, Sound hash inserted age c ∧ c.epochSize ≤ age + c.epochHeuristicCounter

theorem inv_setup (hash : Hash Element) {newSize : Nat} (depthLimit : Nat)
    (h : setupSize newSize + 7 < 2 ^ 32) :
    Inv hash [] (setup Element newSize depthLimit) := by
  have hempty : ∀ i : Fin (setupSize newSize),
      (setup Element newSize depthLimit).table[i] = default := fun i => Vector.getElem_replicate _
  have hcovers : (setup Element newSize depthLimit).Covers :=
    length_ofSize h
  refine ⟨0, ⟨hcovers, fun i hi => absurd (hempty i) hi, fun i _ hi => absurd (hempty i) hi,
    fun i hi => absurd (hempty i) hi, fun i _ => ?_, fun i hi => absurd (hempty i) hi⟩, ?_⟩
  · have hlt : i.val < (setup Element newSize depthLimit).collectionFlags.mem.length :=
      lt_of_lt_of_le i.isLt hcovers
    rw [discardable, isSet, getD_eq_getElem?_getD,
      List.getElem?_eq_getElem hlt]
    exact List.getElem_replicate _
  · rw [Nat.zero_add]
    exact le_refl _

theorem Inv.ageing (h : Inv hash inserted c) (hstep : EpochStep c c') {i : Fin size}
    (hi : c.discardable i = false) (hi' : c'.discardable i = true) :
    c.table[i] ∈ inserted ∧ c.epochSize ≤ insertsSince inserted c.table[i] := by
  obtain ⟨age, hsound, hage⟩ := h
  have hused : c.table[i] ≠ default := by
    intro hdefault
    rw [hsound.empty i hdefault] at hi
    cases hi
  cases hstep with
  | tick _ _ hflags =>
    rw [discardable, hflags] at hi'
    exact absurd (hi.symm.trans hi') Bool.false_ne_true
  | scan _ _ hflags =>
    rw [discardable, hflags] at hi'
    exact absurd (hi.symm.trans hi') Bool.false_ne_true
  | age hcounter _ _ hdisc =>
    rw [hdisc i, hi, Bool.false_or, Bool.not_eq_true'] at hi'
    have hold := hsound.old i hused hi'
    rw [hcounter, Nat.add_zero] at hage
    exact ⟨hsound.known i hused, le_trans hage hold⟩

theorem Inv.epochStep (h : Inv hash inserted c) (hsame : SameTable c c') (hstep : EpochStep c c')
    (e : Element) : (∀ i, c.discardable i = true → c'.discardable i = true) ∧
      ∃ age, c'.epochSize ≤ age + c'.epochHeuristicCounter ∧
        ∀ i : Fin size, c'.table[i] ≠ default → c'.table[i] ≠ e → c'.epochFlags[i] = false →
          age ≤ insertsSince (e :: inserted) c'.table[i] := by
  obtain ⟨age, hsound, hage⟩ := h
  rw [hsame.table, hsame.epochSize]
  have holder : c'.epochFlags = c.epochFlags → ∀ i : Fin size, c.table[i] ≠ default →
      c.table[i] ≠ e → c'.epochFlags[i] = false →
        age + 1 ≤ insertsSince (e :: inserted) c.table[i] := by
    intro hepoch i hi hne hflag
    rw [hepoch] at hflag
    rw [insertsSince_cons_of_ne hne]
    exact Nat.succ_le_succ (hsound.old i hi hflag)
  cases hstep with
  | tick hcounter hepoch hflags =>
    refine ⟨fun i hi => ?_, age + 1, by omega, holder hepoch⟩
    rw [discardable, hflags]
    exact hi
  | scan hcounter hepoch hflags =>
    refine ⟨fun i hi => ?_, age + 1, by omega, holder hepoch⟩
    rw [discardable, hflags]
    exact hi
  | age hcounter hcounter' hepoch hdisc =>
    refine ⟨fun i hi => ?_, 0, by omega, fun _ _ _ _ => Nat.zero_le _⟩
    rw [hdisc i, hi, Bool.true_or]

omit [Inhabited Element] in
theorem slotOf_eq_some {loc : Fin size} (h : c.slotOf hash e = some loc) : c.table[loc] = e := by
  have hfound := find?_some (p := fun loc => c.table[loc] == e) h
  exact beq_iff_eq.mp hfound

theorem Sound.ne_of_slotOf (h : Sound hash inserted age c) (he : e ≠ default)
    (hnone : c.slotOf hash e = none) (i : Fin size) : c.table[i] ≠ e := by
  intro hi
  have hslot := h.slot i (hi ▸ he)
  rw [hi] at hslot
  exact find?_eq_none.mp hnone i (mem_toList_iff.mpr hslot) (beq_iff_eq.mpr hi)

theorem Sound.isSome_slotOf (h : Sound hash inserted age c) (he : e ≠ default) :
    (c.slotOf hash e).isSome = true ↔ e ∈ c.elements := by
  constructor
  · intro hsome
    obtain ⟨loc, hloc⟩ := Option.isSome_iff_exists.mp hsome
    exact ⟨he, loc, slotOf_eq_some hloc⟩
  · rintro ⟨-, i, hi⟩
    cases hnone : c.slotOf hash e with
    | none => exact absurd hi (h.ne_of_slotOf he hnone i)
    | some loc => rfl

omit [DecidableEq Element] [NeZero size] in
theorem SameTable.elements_eq (h : SameTable c c') :
    c'.elements = c.elements := by rw [elements, elements, h.table]

theorem Inv.insert (h : Inv hash inserted c) (he : e ≠ default) :
    ∃ c1 c' left, c.epochCheck = .ok c1 ∧ c.insert hash e = .ok (c', left) ∧
      Inv hash (e :: inserted) c' ∧ (c'.elements = c.elements ∪ {e} ∨
        ∃ x, Removes c1 left x ∧ c'.elements = (c.elements ∪ {e}) \ {x}) := by
  have hcovers : c.Covers := h.choose_spec.1.covers
  obtain ⟨c1, hcheck, hsame, hstep⟩ := epochCheck_ok hcovers
  obtain ⟨hdisc, age', hage', hold'⟩ := h.epochStep hsame hstep e
  obtain ⟨age, hsound, -⟩ := h
  have hcovers1 : c1.Covers := by
    rw [Covers, hsame.covers]
    exact hcovers
  have hempty : ∀ i : Fin size, c1.table[i] = default → c1.discardable i = true := by
    rw [hsame.table]
    exact fun i hi => hdisc i (hsound.empty i hi)
  have hslot : ∀ i : Fin size, c1.table[i] ≠ default →
      i ∈ computeHashes size hash c1.table[i] := by
    rw [hsame.table]
    exact hsound.slot
  have honce : ∀ i j : Fin size, c1.table[i] ≠ default → c1.table[j] = c1.table[i] → j = i := by
    rw [hsame.table]
    exact hsound.once
  have hknown : ∀ i : Fin size, c1.table[i] ≠ default → c1.table[i] ∈ e :: inserted := by
    rw [hsame.table]
    exact fun i hi => mem_cons_of_mem _ (hsound.known i hi)
  have hslotOf : c1.slotOf hash e = c.slotOf hash e := by rw [slotOf, hsame.table]; rfl
  rw [← hsame.elements_eq, Cache.insert, hcheck]
  show ∃ c1' c' left, _ ∧ (match c1.slotOf hash e with
    | some loc => do
      let c ← c1.pleaseKeep loc
      .ok (c.setEpochFlag loc true, none)
    | none => c1.insertLoop hash c1.depthLimit e none true) = _ ∧ _
  cases hfind : c1.slotOf hash e with
  | some loc =>
    -- the element is in its slot, where it is kept and made new
    have hloc := slotOf_eq_some hfind
    dsimp only
    rw [pleaseKeep_ok hcovers1]
    refine ⟨c1, (c1.setFlag loc false).setEpochFlag loc true, none, rfl, rfl,
      ⟨age', ⟨hcovers1.setFlag loc false, hslot, honce, hknown, fun i hi => ?_, ?_⟩, hage'⟩,
      .inl ?_⟩
    · have hne : i ≠ loc := fun heq => he (hloc.symm.trans (heq ▸ hi))
      exact (discardable_setFlag hcovers1 loc i false).trans ((if_neg hne).trans (hempty i hi))
    · intro i hi hflag
      change (c1.epochFlags.set loc true)[i] = false at hflag
      rw [slot_set] at hflag
      split at hflag
      next => cases hflag
      next hne =>
        have hother : c1.table[i] ≠ e := fun heq =>
          hne (honce loc i (by rw [hloc]; exact he) (heq.trans hloc.symm))
        exact hold' i hi hother hflag
    · have hmem : e ∈ c1.elements := ⟨he, loc, hloc⟩
      exact (Set.union_eq_left.mpr (Set.singleton_subset_iff.mpr hmem)).symm
  | none =>
    -- it is not there: the loop places it, and one element may fall out
    have hnew : ∀ i : Fin size, c1.table[i] ≠ e := by
      rw [hsame.table]
      exact hsound.ne_of_slotOf he (hslotOf.symm.trans hfind)
    have hsound1 : Sound hash (e :: inserted) age' c1 :=
      ⟨hcovers1, hslot, honce, hknown, hempty, fun i hi => hold' i hi (hnew i)⟩
    have hnewest : true = false → age' ≤ insertsSince (e :: inserted) e := fun h => by cases h
    obtain ⟨c', left, x, hloop, hsound', hcounter, hepochSize, hremoves, helements⟩ :=
      hsound1.insertLoop c1.depthLimit he hnew mem_cons_self none hnewest
    refine ⟨c1, c', left, rfl, hloop, ⟨age', hsound', ?_⟩, .inr ⟨x, hremoves, helements⟩⟩
    rw [hcounter, hepochSize]
    exact hage'

theorem Inv.contains (h : Inv hash inserted c) (he : e ≠ default) (erase : Bool) :
    ∃ found c', c.contains hash e erase = .ok (found, c') ∧ Inv hash inserted c' ∧
      (found = true ↔ e ∈ c.elements) ∧ c'.elements = c.elements := by
  obtain ⟨age, hsound, hage⟩ := h
  have hiff := hsound.isSome_slotOf he
  unfold Cache.contains
  cases hfind : c.slotOf hash e with
  | none =>
    rw [hfind] at hiff
    exact ⟨false, c, rfl, ⟨age, hsound, hage⟩, hiff, rfl⟩
  | some loc =>
    rw [hfind] at hiff
    cases erase with
    | false => exact ⟨true, c, rfl, ⟨age, hsound, hage⟩, hiff, rfl⟩
    | true =>
      dsimp only
      rw [if_pos rfl, allowErase_ok hsound.covers]
      exact ⟨true, _, rfl, ⟨age, hsound.setFlag loc true fun _ => rfl, hage⟩, hiff, rfl⟩

/-! ## Runs -/

/-- The elements that the calls insert, the last one first. -/
def insertedIn : List Element → List (Call Element) → List Element
  | inserted, [] => inserted
  | inserted, .insert e :: calls => insertedIn (e :: inserted) calls
  | inserted, .contains _ _ :: calls => insertedIn inserted calls

theorem Inv.run (h : Inv hash inserted c) {calls : List (Call Element)}
    (hcalls : ∀ call ∈ calls, call.element ≠ default) :
    ∃ c', c.run hash calls = .ok c' ∧ Inv hash (insertedIn inserted calls) c' := by
  induction calls generalizing c inserted with
  | nil => exact ⟨c, rfl, h⟩
  | cons call calls ih =>
    obtain ⟨hcall, hrest⟩ := forall_mem_cons.mp hcalls
    cases call with
    | insert e =>
      obtain ⟨c1, c2, left, -, hinsert, hinv, -⟩ := h.insert (e := e) hcall
      obtain ⟨c', hrun, hinv'⟩ := ih hinv hrest
      refine ⟨c', ?_, hinv'⟩
      rw [Cache.run, Cache.call, hinsert]
      exact hrun
    | contains e erase =>
      obtain ⟨found, c2, hcontains, hinv, -, -⟩ := h.contains (e := e) hcall erase
      obtain ⟨c', hrun, hinv'⟩ := ih hinv hrest
      refine ⟨c', ?_, hinv'⟩
      rw [Cache.run, Cache.call, hcontains]
      exact hrun

/-- What a cache promises after the calls that inserted these elements. -/
structure LossySet (hash : Hash Element) (inserted : List Element) (c : Cache Element size) :
    Prop where
  /-- An element is in one of its slots. -/
  slot : ∀ i : Fin size, c.table[i] ≠ default → i ∈ computeHashes size hash c.table[i]
  /-- It is in no other slot. -/
  once : ∀ i j : Fin size, c.table[i] ≠ default → c.table[j] = c.table[i] → j = i
  /-- An insert removes at most one element: one whose slot may be overwritten when the
      epochs were checked, or the one the insert is left with. -/
  insert : ∀ e, e ≠ default → ∃ c1 c' left, c.epochCheck = .ok c1 ∧
    c.insert hash e = .ok (c', left) ∧ (c'.elements = c.elements ∪ {e} ∨
      ∃ x, Removes c1 left x ∧ c'.elements = (c.elements ∪ {e}) \ {x})
  /-- What is found was inserted. -/
  contains : ∀ e, e ≠ default → ∀ erase, ∃ found c',
    c.contains hash e erase = .ok (found, c') ∧ (found = true → e ∈ inserted)
  /-- Ageing gives up the slots of elements which an epoch of inserts came after. -/
  ageing : ∀ c1, c.epochCheck = .ok c1 → ∀ i, c.discardable i = false →
    c1.discardable i = true →
    c.table[i] ∈ inserted ∧ c.epochSize ≤ insertsSince inserted c.table[i]

theorem Inv.lossySet (h : Inv hash inserted c) : LossySet hash inserted c := by
  have hinv := h
  obtain ⟨age, hsound, -⟩ := h
  refine ⟨hsound.slot, hsound.once, fun e he => ?_, fun e he erase => ?_, fun c1 hcheck i => ?_⟩
  · obtain ⟨c1, c', left, hcheck, hinsert, -, helements⟩ := hinv.insert he
    exact ⟨c1, c', left, hcheck, hinsert, helements⟩
  · obtain ⟨found, c', hcontains, -, hfound, -⟩ := hinv.contains he erase
    refine ⟨found, c', hcontains, fun htrue => ?_⟩
    obtain ⟨-, i, hi⟩ := hfound.mp htrue
    exact hi ▸ hsound.known i (hi ▸ he)
  · obtain ⟨c', hcheck', -, hstep⟩ := epochCheck_ok hsound.covers
    rw [hcheck] at hcheck'
    cases hcheck'
    exact hinv.ageing hstep

theorem insert_setup_overflow (hash : Hash Element) {newSize depthLimit : Nat}
    (hsize : setupSize newSize < 2 ^ 32)
    (hover : 2 ^ 32 ≤ setupSize newSize + 7) (hdepth : 0 < depthLimit)
    (he : e ≠ default) :
    (setup Element newSize depthLimit).insert hash e = .error .outOfBounds := by
  obtain ⟨c, hc⟩ : ∃ c, setup Element newSize depthLimit = c := ⟨_, rfl⟩
  have hcounter : c.epochHeuristicCounter ≠ 0 := by
    have hone := le_max_left 1 (45 * setupSize newSize % 2 ^ 32 / 100)
    rw [← hc]
    exact ne_of_gt hone
  have htable : ∀ i : Fin (setupSize newSize), c.table[i] = default := by
    rw [← hc]
    exact fun i => Vector.getElem_replicate _
  obtain ⟨c1, hc1⟩ : ∃ c1 : Cache Element (setupSize newSize),
      { c with epochHeuristicCounter := c.epochHeuristicCounter - 1 } = c1 := ⟨_, rfl⟩
  have hcheck : c.epochCheck = .ok c1 := by rw [epochCheck, if_pos hcounter, hc1]
  have hmem : c1.collectionFlags.mem = [] := by
    rw [← hc1, ← hc]
    exact ofSize_overflow hsize hover
  have hslot : c1.slotOf hash e = none := by
    refine find?_eq_none.mpr fun loc _ hloc => he ?_
    rw [← beq_iff_eq.mp hloc, ← hc1, htable loc]
  obtain ⟨depth, hdepth⟩ : ∃ depth, c1.depthLimit = depth + 1 := by
    rw [← hc1, ← hc]
    exact Nat.exists_eq_succ_of_ne_zero (Nat.ne_of_gt hdepth)
  have hfault : c1.firstDiscardable
      (computeHashes (setupSize newSize) hash e).toList = .error .outOfBounds := by
    obtain ⟨loc, locs, hlocs⟩ : ∃ loc locs,
        (computeHashes (setupSize newSize) hash e).toList = loc :: locs := by
      refine exists_cons_of_length_pos ?_
      exact Nat.succ_pos 7
    rw [hlocs, firstDiscardable, bitIsSet, hmem]
    rfl
  rw [hc, Cache.insert, hcheck]
  dsimp only [bind, Except.bind]
  rw [hslot]
  rw [hdepth, Cache.insertLoop, hfault]
  rfl

/-- A cache of 32-bit size keeps its promises over every sequence of calls exactly if
    the number of its flags does not wrap around. -/
theorem run_lossySet_iff (hash : Hash Element) {newSize depthLimit : Nat} (hsize : newSize < 2 ^ 32)
    (hdepth : 0 < depthLimit) {x : Element} (hx : x ≠ default) :
    (∀ calls : List (Call Element), (∀ call ∈ calls, call.element ≠ default) →
      ∃ c, (setup Element newSize depthLimit).run hash calls = .ok c ∧
        LossySet hash (insertedIn [] calls) c) ↔
      setupSize newSize + 7 < 2 ^ 32 := by
  have hsetup : setupSize newSize < 2 ^ 32 := Nat.max_lt.mpr ⟨by decide, hsize⟩
  constructor
  · intro hall
    by_contra hover
    obtain ⟨c, hrun, -⟩ := hall [.insert x] (by
      intro call hcall
      rw [mem_singleton.mp hcall]
      exact hx)
    rw [Cache.run, Cache.call,
      insert_setup_overflow hash hsetup (not_lt.mp hover) hdepth hx] at hrun
    cases hrun
  · intro hroom calls hcalls
    obtain ⟨c, hrun, hinv⟩ := (inv_setup hash depthLimit hroom).run hcalls
    exact ⟨c, hrun, hinv.lossySet⟩

/-- The least size whose flags wrap around. -/
theorem not_lossySet_overflow :
    ¬ ∀ newSize < 2 ^ 32, ∀ calls : List (Call Nat), (∀ call ∈ calls, call.element ≠ default) →
      ∃ c, (setup Nat newSize 32).run (fun _ _ => 0) calls = .ok c ∧
        LossySet (fun _ _ => 0) (insertedIn [] calls) c := by
  intro hall
  obtain ⟨c, hrun, -⟩ := hall (2 ^ 32 - 7) (by decide) [.insert 1] (by
    intro call hcall
    rw [List.mem_singleton.mp hcall]
    exact Nat.one_ne_zero)
  have hsetup : setupSize (2 ^ 32 - 7) = 2 ^ 32 - 7 := Nat.max_eq_right (by decide)
  rw [Cache.run, Cache.call, insert_setup_overflow _ (by rw [hsetup]; decide) (by omega)
    (by decide) Nat.one_ne_zero] at hrun
  cases hrun

/-- Two slots, an element that moves another one, and one that is not there. -/
theorem run_lossySet_two : ∃ c, (setup Nat 2 1).run (fun i e => UInt32.ofNat (i.val * e))
      [.insert 1, .insert 2, .contains 1 true, .insert 3] = .ok c ∧
    LossySet (fun i e => UInt32.ofNat (i.val * e)) [3, 2, 1] c :=
  (run_lossySet_iff _ (by decide) (by decide) Nat.one_ne_zero).mpr (by decide)
    [.insert 1, .insert 2, .contains 1 true, .insert 3] (by decide)

end

end Cache

open Cache

end Cuckoo

end Rcoin
