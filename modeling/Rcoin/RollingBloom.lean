/-
  `CRollingBloomFilter` (src/bloom.cpp): two bits for each position of the filter tell
  the generation of the last key there, and a generation number that is used again is
  wiped first.  Where the size of the filter does not overflow, each of the last
  `nElements` keys is contained, whatever the hash function is.

  The floating-point expressions of the constructor are parameters.
-/
import Mathlib

namespace Rcoin

open BitVec List Nat

/-- What has no result: a signed product or a conversion from a floating-point number
    that is out of range, and a remainder by zero. -/
inductive BloomFault where
  | signedOverflow
  | conversion
  | divisionByZero
  deriving DecidableEq, Repr

/-- What the floating-point expressions of the constructor come to for one `fpRate`. -/
structure FpRate where
  /-- `(int)round(logFpRate / log(0.5))`. -/
  optimalHashFuncs : Int
  /-- `ceil(-1.0 * nHashFuncs * nMaxElements / log(1.0 - exp(logFpRate / nHashFuncs)))`. -/
  filterBits : Nat → Nat → Nat
  filterBits_zero : ∀ nHashFuncs, filterBits nHashFuncs 0 = 0

/-- Three generations, two bits a position. -/
structure CRollingBloomFilter where
  nEntriesPerGeneration : Nat
  nEntriesThisGeneration : Nat
  nGeneration : Nat
  /-- For position `P` the bits `P & 63` of `data[(P >> 6) * 2]` and
      `data[(P >> 6) * 2 + 1]`. -/
  data : List (BitVec 64)
  nTweak : UInt32
  nHashFuncs : Nat
  deriving DecidableEq, Repr

namespace CRollingBloomFilter

def hashFuncs (rate : FpRate) : Nat := (max 1 (min rate.optimalHashFuncs 50)).toNat

/-- `(nElements + 1) / 2`; the sum has 32 bits. -/
def entriesPerGeneration (nElements : Nat) : Nat := (nElements + 1) % 2 ^ 32 / 2

/-- The constructor, with the tweak that `reset` draws. -/
def new (nElements : Nat) (rate : FpRate) (nTweak : UInt32) :
    Except BloomFault CRollingBloomFilter :=
  let nEntriesPerGeneration := entriesPerGeneration nElements
  -- a product of two `int`s
  if 2 ^ 31 ≤ nEntriesPerGeneration * 3 then .error .signedOverflow
  else
    let nMaxElements := nEntriesPerGeneration * 3
    let nFilterBits := rate.filterBits (hashFuncs rate) nMaxElements
    if 2 ^ 32 ≤ nFilterBits then .error .conversion
    else .ok {
      nEntriesPerGeneration
      nEntriesThisGeneration := 0
      nGeneration := 1
      data := List.replicate (((nFilterBits + 63) % 2 ^ 32 / 64) <<< 1) 0
      nTweak
      nHashFuncs := hashFuncs rate }

/-- The loop over the pairs of words: both bits are cleared where they are those of the
    masks. -/
def wipe (nGenerationMask1 nGenerationMask2 : BitVec 64) : List (BitVec 64) → List (BitVec 64)
  | p1 :: p2 :: data =>
    let mask := (p1 ^^^ nGenerationMask1) ||| (p2 ^^^ nGenerationMask2)
    (p1 &&& mask) :: (p2 &&& mask) :: wipe nGenerationMask1 nGenerationMask2 data
  | data => data

/-- What an insert begins with. -/
def startGeneration (f : CRollingBloomFilter) : CRollingBloomFilter :=
  if f.nEntriesThisGeneration = f.nEntriesPerGeneration then
    let nGeneration := if f.nGeneration + 1 = 4 then 1 else f.nGeneration + 1
    let nGenerationMask1 := 0#64 - BitVec.ofNat 64 (nGeneration % 2)
    let nGenerationMask2 := 0#64 - BitVec.ofNat 64 (nGeneration / 2)
    -- wipe old entries that used this generation number
    { f with
      nEntriesThisGeneration := 0
      nGeneration
      data := wipe nGenerationMask1 nGenerationMask2 f.data }
  else f

section

variable (murmurHash3 : UInt32 → List UInt8 → UInt32)

def rollingBloomHash (nHashNum : Nat) (nTweak : UInt32) (vDataToHash : List UInt8) : UInt32 :=
  murmurHash3 (UInt32.ofNat nHashNum * 0xFBA4C795 + nTweak) vDataToHash

/-- `h & 0x3F` and `(h >> 6) % data.size()`. -/
def position (f : CRollingBloomFilter) (n : Nat) (vKey : List UInt8) :
    Except BloomFault (Nat × Nat) :=
  let h := (rollingBloomHash murmurHash3 n f.nTweak vKey).toNat
  if f.data.length = 0 then .error .divisionByZero
  else .ok (h % 64, h / 64 % f.data.length)

/-- `pos & ~1` and `pos | 1`: the lowest bit of `pos` is ignored. -/
def evenPos (pos : Nat) : Nat := pos / 2 * 2

def oddPos (pos : Nat) : Nat := pos / 2 * 2 + 1

/-- `(w & ~(1 << bit)) | (value << bit)`. -/
def writeBit (w : BitVec 64) (bit value : Nat) : BitVec 64 :=
  (w &&& ~~~(1#64 <<< bit)) ||| (BitVec.ofNat 64 value <<< bit)

/-- The two bits of a position get the number of the generation. -/
def write (data : List (BitVec 64)) (nGeneration bit pos : Nat) : List (BitVec 64) :=
  let data := data.set (evenPos pos)
    (writeBit (data.getD (evenPos pos) 0) bit (nGeneration % 2))
  data.set (oddPos pos) (writeBit (data.getD (oddPos pos) 0) bit (nGeneration / 2))

/-- The loop of `insert` over these hash numbers. -/
def insertLoop (vKey : List UInt8) : CRollingBloomFilter → List Nat →
    Except BloomFault CRollingBloomFilter
  | f, [] => .ok f
  | f, n :: ns => do
    let (bit, pos) ← f.position murmurHash3 n vKey
    insertLoop vKey { f with data := write f.data f.nGeneration bit pos } ns

def insert (f : CRollingBloomFilter) (vKey : List UInt8) : Except BloomFault CRollingBloomFilter :=
  let f := f.startGeneration
  insertLoop murmurHash3 vKey { f with nEntriesThisGeneration := f.nEntriesThisGeneration + 1 }
    (List.range f.nHashFuncs)

/-- The loop of `contains` over these hash numbers. -/
def containsLoop (f : CRollingBloomFilter) (vKey : List UInt8) : List Nat → Except BloomFault Bool
  | [] => .ok true
  | n :: ns => do
    let (bit, pos) ← f.position murmurHash3 n vKey
    -- neither of the two bits is set
    if !((f.data.getD (evenPos pos) 0 ||| f.data.getD (oddPos pos) 0).getLsbD bit) then .ok false
    else f.containsLoop vKey ns

def contains (f : CRollingBloomFilter) (vKey : List UInt8) : Except BloomFault Bool :=
  f.containsLoop murmurHash3 vKey (List.range f.nHashFuncs)

def insertAll : CRollingBloomFilter → List (List UInt8) → Except BloomFault CRollingBloomFilter
  | f, [] => .ok f
  | f, vKey :: vKeys => do
    let f ← f.insert murmurHash3 vKey
    f.insertAll vKeys

end

/-! ## Cells -/

/-- The number that the bits of two words stand for. -/
def cellOf (w1 w2 : BitVec 64) (bit : Nat) : Nat :=
  (w1.getLsbD bit).toNat + 2 * (w2.getLsbD bit).toNat

/-- The generation that a position of the filter is in; zero if it is unset. -/
def cell (data : List (BitVec 64)) (slot bit : Nat) : Nat :=
  cellOf (data.getD (2 * slot) 0) (data.getD (2 * slot + 1) 0) bit

variable {bit : Nat}

variable {value : Nat}

theorem getLsbD_bit (hvalue : value < 2) (hbit : bit < 64) (j : Nat) :
    (BitVec.ofNat 64 value <<< bit).getLsbD j = (decide (j = bit) && value == 1) := by
  rw [getLsbD_shiftLeft, getLsbD_ofNat]
  rcases Nat.lt_trichotomy j bit with hlt | rfl | hlt
  · have hne : ¬ j = bit := by omega
    simp [hlt, hne]
  · rcases (by omega : value = 0 ∨ value = 1) with rfl | rfl
    · simp
    · simp [hbit]
  · have hne : ¬ j = bit := by omega
    obtain ⟨k, hk⟩ : ∃ k, j - bit = k + 1 := ⟨j - bit - 1, by omega⟩
    rcases (by omega : value = 0 ∨ value = 1) with rfl | rfl
    · simp
    · rw [hk, testBit_succ]
      simp [hne]

theorem getLsbD_writeBit {w : BitVec 64} (hbit : bit < 64) (hvalue : value < 2) (j : Nat)
    : (writeBit w bit value).getLsbD j = if j = bit then value == 1 else w.getLsbD j := by
  have hmask : (1#64 <<< bit).getLsbD j = decide (j = bit) := by
    have hone := getLsbD_bit one_lt_two hbit j
    rw [beq_self_eq_true, Bool.and_true] at hone
    exact hone
  rw [writeBit, getLsbD_or, getLsbD_and, getLsbD_not, hmask,
    getLsbD_bit hvalue hbit]
  by_cases hj : j = bit
  · simp [hj]
  · by_cases hlt : j < 64
    · simp [hj, hlt]
    · simp [hj, getLsbD_of_ge w j (by omega)]

variable {g : Nat}

theorem toNat_bits (hg : g < 4) : (g % 2 == 1).toNat + 2 * (g / 2 == 1).toNat = g := by
  interval_cases g <;> rfl

theorem cellOf_writeBit (w1 w2 : BitVec 64) (hg : g < 4) (hbit : bit < 64) (j : Nat)
    : cellOf (writeBit w1 bit (g % 2)) (writeBit w2 bit (g / 2)) j =
      if j = bit then g else cellOf w1 w2 j := by
  rw [cellOf, getLsbD_writeBit hbit (by omega), getLsbD_writeBit hbit (by omega)]
  split
  next => exact toNat_bits hg
  next => rfl

variable {j : Nat}

theorem getLsbD_generationMask (hvalue : value < 2) (hj : j < 64) :
    (0#64 - BitVec.ofNat 64 value).getLsbD j = (value == 1) := by
  rcases (by omega : value = 0 ∨ value = 1) with rfl | rfl
  · rw [BitVec.sub_zero, getLsbD_zero]
    rfl
  · rw [show 0#64 - BitVec.ofNat 64 1 = allOnes 64 by decide, getLsbD_allOnes,
      decide_eq_true hj]
    rfl

theorem cellOf_wipe (p1 p2 : BitVec 64) (hg : g < 4) (hj : j < 64) :
    let mask := (p1 ^^^ (0#64 - BitVec.ofNat 64 (g % 2))) |||
      (p2 ^^^ (0#64 - BitVec.ofNat 64 (g / 2)))
    cellOf (p1 &&& mask) (p2 &&& mask) j =
      if cellOf p1 p2 j = g then 0 else cellOf p1 p2 j := by
  dsimp only
  rw [cellOf, cellOf, getLsbD_and, getLsbD_and, getLsbD_or,
    getLsbD_xor, getLsbD_xor, getLsbD_generationMask (by omega) hj,
    getLsbD_generationMask (by omega) hj]
  generalize p1.getLsbD j = b1
  generalize p2.getLsbD j = b2
  interval_cases g <;> cases b1 <;> cases b2 <;> rfl

variable {data : List (BitVec 64)}

theorem cell_wipe (hg : g < 4) (heven : data.length % 2 = 0) (slot : Nat) (hj : j < 64) :
    cell (wipe (0#64 - BitVec.ofNat 64 (g % 2)) (0#64 - BitVec.ofNat 64 (g / 2)) data) slot j =
      if cell data slot j = g then 0 else cell data slot j := by
  induction slot generalizing data with
  | zero =>
    match data, heven with
    | [], _ =>
      have hzero : cell [] 0 j = 0 := by simp [cell, cellOf]
      rw [wipe, hzero]
      · exact (ite_self 0).symm
      · exact fun _ _ _ h => by cases h
    | p1 :: p2 :: data, _ => exact cellOf_wipe p1 p2 hg hj
  | succ slot ih =>
    match data, heven with
    | [], _ =>
      have hzero : cell [] (slot + 1) j = 0 := by simp [cell, cellOf]
      rw [wipe, hzero]
      · exact (ite_self 0).symm
      · exact fun _ _ _ h => by cases h
    | p1 :: p2 :: data, heven =>
      rw [length_cons, length_cons] at heven
      have hrest : data.length % 2 = 0 := by omega
      exact ih hrest

theorem length_wipe (m1 m2 : BitVec 64) (data : List (BitVec 64)) :
    (wipe m1 m2 data).length = data.length := by
  fun_induction wipe m1 m2 data with
  | case1 p1 p2 data mask ih => rw [length_cons, length_cons, ih, length_cons,
      length_cons]
  | case2 => rfl

theorem length_write (data : List (BitVec 64)) (g bit pos : Nat) :
    (write data g bit pos).length = data.length := by
  rw [write, length_set, length_set]

theorem getD_set (data : List (BitVec 64)) {i : Nat} (hi : i < data.length) (w : BitVec 64)
    (j : Nat) : (data.set i w).getD j 0 = if j = i then w else data.getD j 0 := by
  rw [getD_eq_getElem?_getD, getElem?_set, getD_eq_getElem?_getD]
  by_cases h : i = j
  · rw [if_pos h, if_pos h.symm, if_pos hi]
    rfl
  · rw [if_neg h, if_neg (Ne.symm h)]

theorem cell_write (heven : data.length % 2 = 0) {pos : Nat} (hg : g < 4) (hbit : bit < 64)
    (hpos : pos < data.length) (slot j : Nat) : cell (write data g bit pos) slot j =
      if slot = pos / 2 ∧ j = bit then g else cell data slot j := by
  have heven' : evenPos pos < data.length := by
    unfold evenPos
    omega
  have hodd : oddPos pos < (data.set (evenPos pos)
      (writeBit (data.getD (evenPos pos) 0) bit (g % 2))).length := by
    rw [length_set, oddPos]
    omega
  have hne : oddPos pos ≠ evenPos pos := by
    unfold oddPos evenPos
    omega
  rw [cell, write, getD_set _ hodd, getD_set _ hodd, getD_set _ heven', getD_set _ heven',
    getD_set _ heven', if_neg hne]
  by_cases hslot : slot = pos / 2
  · have h1 : 2 * slot = evenPos pos := by
      unfold evenPos
      omega
    have h2 : 2 * slot + 1 = oddPos pos := by
      unfold oddPos
      omega
    rw [cell, h2, h1, if_neg (Ne.symm hne), if_pos rfl, if_pos rfl, cellOf_writeBit _ _ hg hbit]
    by_cases hj : j = bit
    · rw [if_pos hj, if_pos ⟨hslot, hj⟩]
    · rw [if_neg hj, if_neg fun h => hj h.2]
  · have h1 : 2 * slot ≠ evenPos pos := by
      unfold evenPos
      omega
    have h2 : 2 * slot + 1 ≠ oddPos pos := by
      unfold oddPos
      omega
    have h3 : 2 * slot ≠ oddPos pos := by
      unfold oddPos
      omega
    have h4 : 2 * slot + 1 ≠ evenPos pos := by
      unfold evenPos
      omega
    rw [if_neg h3, if_neg h1, if_neg h2, if_neg h4, if_neg fun h => hslot h.1, cell]

/-! ## Generations -/

/-- A position that was set at most `a` generations before `g`. -/
def Young (g a x : Nat) : Prop := 1 ≤ x ∧ x ≤ 3 ∧ (g + 3 - x) % 3 ≤ a

theorem young_self (hg : 1 ≤ g ∧ g ≤ 3) (a : Nat) : Young g a g := by
  refine ⟨hg.1, hg.2, ?_⟩
  omega

theorem Young.next {a x : Nat} (hg : 1 ≤ g ∧ g ≤ 3) (ha : a < 2) (h : Young g a x) :
    x ≠ (if g + 1 = 4 then 1 else g + 1) ∧ Young (if g + 1 = 4 then 1 else g + 1) (a + 1) x := by
  obtain ⟨hlow, hhigh, hage⟩ := h
  unfold Young
  split <;> omega

section

variable (murmurHash3 : UInt32 → List UInt8 → UInt32)

/-- The bit and the position that a hash gives. -/
def home (nTweak : UInt32) (size n : Nat) (vKey : List UInt8) : Nat × Nat :=
  ((rollingBloomHash murmurHash3 n nTweak vKey).toNat % 64,
    (rollingBloomHash murmurHash3 n nTweak vKey).toNat / 64 % size)

/-- The generation that a key has at its `n`-th position. -/
def keyCell (f : CRollingBloomFilter) (n : Nat) (vKey : List UInt8) : Nat :=
  cell f.data ((home murmurHash3 f.nTweak f.data.length n vKey).2 / 2)
    (home murmurHash3 f.nTweak f.data.length n vKey).1

/-- What holds of a filter after the keys of a list, the last one first: the keys of this
    generation and of the `a` ones before have been written since. -/
structure Recent (keys : List (List UInt8)) (f : CRollingBloomFilter) : Prop where
  even : f.data.length % 2 = 0
  nonempty : 0 < f.data.length
  generation : 1 ≤ f.nGeneration ∧ f.nGeneration ≤ 3
  entries : f.nEntriesThisGeneration ≤ f.nEntriesPerGeneration
  young : ∀ a < 3, ∀ vKey ∈ keys.take (f.nEntriesThisGeneration + a * f.nEntriesPerGeneration),
    ∀ n < f.nHashFuncs, Young f.nGeneration a (f.keyCell murmurHash3 n vKey)

end

variable {murmurHash3 : UInt32 → List UInt8 → UInt32} {f : CRollingBloomFilter}
  {keys : List (List UInt8)}

theorem position_ok (h : 0 < f.data.length) (n : Nat) (vKey : List UInt8) :
    f.position murmurHash3 n vKey = .ok (home murmurHash3 f.nTweak f.data.length n vKey) :=
  if_neg (ne_of_gt h)

/-- Only the counters, the generation and the words of a filter change. -/
structure SameShape (f f' : CRollingBloomFilter) : Prop where
  nEntriesPerGeneration : f'.nEntriesPerGeneration = f.nEntriesPerGeneration
  nTweak : f'.nTweak = f.nTweak
  nHashFuncs : f'.nHashFuncs = f.nHashFuncs
  size : f'.data.length = f.data.length

theorem SameShape.trans {f' f'' : CRollingBloomFilter} (h : SameShape f f')
    (h' : SameShape f' f'') : SameShape f f'' where
  nEntriesPerGeneration := h'.nEntriesPerGeneration.trans h.nEntriesPerGeneration
  nTweak := h'.nTweak.trans h.nTweak
  nHashFuncs := h'.nHashFuncs.trans h.nHashFuncs
  size := h'.size.trans h.size

theorem startGeneration_sameShape (f : CRollingBloomFilter) : SameShape f f.startGeneration := by
  unfold startGeneration
  split
  next => exact ⟨rfl, rfl, rfl, length_wipe ..⟩
  next => exact ⟨rfl, rfl, rfl, rfl⟩

theorem Recent.startGeneration (h : Recent murmurHash3 keys f)
    (hentries : 0 < f.nEntriesPerGeneration) :
    Recent murmurHash3 keys f.startGeneration ∧
      f.startGeneration.nEntriesThisGeneration < f.startGeneration.nEntriesPerGeneration := by
  unfold CRollingBloomFilter.startGeneration
  by_cases hfull : f.nEntriesThisGeneration = f.nEntriesPerGeneration
  · rw [if_pos hfull]
    obtain ⟨g, hg⟩ : ∃ g, (if f.nGeneration + 1 = 4 then 1 else f.nGeneration + 1) = g := ⟨_, rfl⟩
    have hbounds : 1 ≤ g ∧ g ≤ 3 := by
      have hold := h.generation
      rw [← hg]
      split <;> omega
    rw [hg]
    refine ⟨⟨?_, ?_, hbounds, zero_le _, fun a ha vKey hmem n hn => ?_⟩, hentries⟩
    · rw [length_wipe]
      exact h.even
    · rw [length_wipe]
      exact h.nonempty
    · cases a with
      | zero =>
        rw [Nat.zero_mul, Nat.add_zero, take_zero] at hmem
        cases hmem
      | succ a =>
        -- the keys were one generation younger
        have hcount : 0 + (a + 1) * f.nEntriesPerGeneration =
            f.nEntriesThisGeneration + a * f.nEntriesPerGeneration := by
          rw [hfull, Nat.succ_mul]
          omega
        rw [hcount] at hmem
        have hyoung := h.young a (by omega) vKey hmem n hn
        have hnext := Young.next h.generation (by omega) hyoung
        rw [hg] at hnext
        have hbit : (home murmurHash3 f.nTweak f.data.length n vKey).1 < 64 :=
          mod_lt _ (by decide)
        unfold keyCell
        rw [length_wipe, cell_wipe (by omega) h.even _ hbit]
        split
        next hwiped => exact absurd hwiped hnext.1
        next => exact hnext.2
  · rw [if_neg hfull]
    exact ⟨h, lt_of_le_of_ne h.entries hfull⟩

theorem insertLoop_ok (vKey : List UInt8) (heven : f.data.length % 2 = 0)
    (hnonempty : 0 < f.data.length) (hg : f.nGeneration < 4) (ns : List Nat) :
    ∃ data, insertLoop murmurHash3 vKey f ns = .ok { f with data := data } ∧
      data.length = f.data.length ∧
      (∀ slot j, cell data slot j = f.nGeneration ∨ cell data slot j = cell f.data slot j) ∧
      ∀ n ∈ ns, cell data ((home murmurHash3 f.nTweak f.data.length n vKey).2 / 2)
        (home murmurHash3 f.nTweak f.data.length n vKey).1 = f.nGeneration := by
  induction ns generalizing f with
  | nil => exact ⟨f.data, rfl, rfl, fun _ _ => .inr rfl, fun n hn => by cases hn⟩
  | cons n ns ih =>
    obtain ⟨bit, hbit⟩ : ∃ bit, (home murmurHash3 f.nTweak f.data.length n vKey).1 = bit :=
      ⟨_, rfl⟩
    obtain ⟨pos, hpos⟩ : ∃ pos, (home murmurHash3 f.nTweak f.data.length n vKey).2 = pos :=
      ⟨_, rfl⟩
    have hbitlt : bit < 64 := hbit ▸ mod_lt _ (by decide)
    have hposlt : pos < f.data.length := hpos ▸ mod_lt _ hnonempty
    have hlen := length_write f.data f.nGeneration bit pos
    have hcell := cell_write heven hg hbitlt hposlt
    obtain ⟨data, hloop, hsize, hothers, hkey⟩ :=
      ih (f := { f with data := write f.data f.nGeneration bit pos }) (by rw [hlen]; exact heven)
        (by rw [hlen]; exact hnonempty) hg
    rw [hlen] at hsize hkey
    refine ⟨data, ?_, hsize, fun slot j => ?_, fun m hm => ?_⟩
    · have hhome : home murmurHash3 f.nTweak f.data.length n vKey = (bit, pos) :=
        Prod.ext hbit hpos
      rw [insertLoop, position_ok hnonempty, hhome]
      exact hloop
    · rcases hothers slot j with hsame | hsame
      · exact .inl hsame
      · rw [hsame, hcell]
        split
        next => exact .inl rfl
        next => exact .inr rfl
    · rcases mem_cons.mp hm with rfl | hm
      · rw [hbit, hpos]
        rcases hothers (pos / 2) bit with hsame | hsame
        · exact hsame
        · rw [hsame, hcell, if_pos ⟨rfl, rfl⟩]
      · exact hkey m hm

theorem Recent.insert (h : Recent murmurHash3 keys f) (hentries : 0 < f.nEntriesPerGeneration)
    (vKey : List UInt8) :
    ∃ f', f.insert murmurHash3 vKey = .ok f' ∧ Recent murmurHash3 (vKey :: keys) f' ∧
      SameShape f f' := by
  obtain ⟨hstart, hroom⟩ := h.startGeneration hentries
  have hshape := startGeneration_sameShape f
  rw [CRollingBloomFilter.insert]
  generalize f.startGeneration = f1 at hstart hroom hshape
  obtain ⟨f2, hf2⟩ : ∃ f2 : CRollingBloomFilter,
      { f1 with nEntriesThisGeneration := f1.nEntriesThisGeneration + 1 } = f2 := ⟨_, rfl⟩
  have hdata : f2.data = f1.data := by rw [← hf2]
  have hgen : f2.nGeneration = f1.nGeneration := by rw [← hf2]
  have htweak : f2.nTweak = f1.nTweak := by rw [← hf2]
  obtain ⟨data, hloop, hsize, hothers, hkey⟩ := insertLoop_ok (f := f2) vKey
    (by rw [hdata]; exact hstart.even) (by rw [hdata]; exact hstart.nonempty)
    (by rw [hgen]; exact lt_succ_of_le hstart.generation.2) (List.range f1.nHashFuncs)
  rw [hdata, hgen] at hothers
  rw [hdata, htweak, hgen] at hkey
  rw [hdata] at hsize
  rw [hf2]
  refine ⟨_, hloop, ?_, hshape.trans ⟨by rw [← hf2], htweak, by rw [← hf2], hsize⟩⟩
  rw [← hf2]
  refine ⟨by rw [hsize]; exact hstart.even, by rw [hsize]; exact hstart.nonempty,
    hstart.generation, hroom, fun a ha key hmem n hn => ?_⟩
  have hcell : keyCell murmurHash3 { f1 with
      nEntriesThisGeneration := f1.nEntriesThisGeneration + 1
      data := data } n key = cell data ((home murmurHash3 f1.nTweak f1.data.length n key).2 / 2)
        (home murmurHash3 f1.nTweak f1.data.length n key).1 := by
    rw [keyCell]
    rw [hsize]
  rw [hcell]
  rw [add_right_comm, take_succ_cons] at hmem
  -- the new key, and one whose cells it may have overwritten
  rcases mem_cons.mp hmem with rfl | hmem
  · rw [hkey n (mem_range.mpr hn)]
    exact young_self hstart.generation a
  · rcases hothers ((home murmurHash3 f1.nTweak f1.data.length n key).2 / 2)
      (home murmurHash3 f1.nTweak f1.data.length n key).1 with hsame | hsame
    · rw [hsame]
      exact young_self hstart.generation a
    · rw [hsame]
      exact hstart.young a ha key hmem n hn

theorem Recent.insertAll (h : Recent murmurHash3 keys f) (hentries : 0 < f.nEntriesPerGeneration)
    (vKeys : List (List UInt8)) :
    ∃ f', f.insertAll murmurHash3 vKeys = .ok f' ∧
      Recent murmurHash3 (vKeys.reverse ++ keys) f' ∧ SameShape f f' := by
  induction vKeys generalizing f keys with
  | nil => exact ⟨f, rfl, h, rfl, rfl, rfl, rfl⟩
  | cons vKey vKeys ih =>
    obtain ⟨f1, hinsert, hrecent, hshape⟩ := h.insert hentries vKey
    obtain ⟨f', hall, hrecent', hshape'⟩ :=
      ih hrecent (by rw [hshape.nEntriesPerGeneration]; exact hentries)
    refine ⟨f', ?_, ?_, hshape.trans hshape'⟩
    · rw [CRollingBloomFilter.insertAll, hinsert]
      exact hall
    · rw [reverse_cons, List.append_assoc]
      exact hrecent'

theorem getLsbD_or_of_cell {pos : Nat} (h : 1 ≤ cell data (pos / 2) bit) :
    (data.getD (evenPos pos) 0 ||| data.getD (oddPos pos) 0).getLsbD bit = true := by
  rw [cell, mul_comm] at h
  rw [getLsbD_or, evenPos, oddPos]
  by_contra hzero
  obtain ⟨h1, h2⟩ := Bool.or_eq_false_iff.mp (Bool.not_eq_true _ ▸ hzero)
  rw [cellOf, h1, h2] at h
  exact absurd h (by decide)

variable {vKey : List UInt8}

theorem containsLoop_ok (hnonempty : 0 < f.data.length) {ns : List Nat}
    (h : ∀ n ∈ ns, 1 ≤ f.keyCell murmurHash3 n vKey) :
    f.containsLoop murmurHash3 vKey ns = .ok true := by
  induction ns with
  | nil => rfl
  | cons n ns ih =>
    obtain ⟨hn, hns⟩ := forall_mem_cons.mp h
    rw [containsLoop, position_ok hnonempty]
    unfold keyCell at hn
    generalize home murmurHash3 f.nTweak f.data.length n vKey = p at hn
    obtain ⟨bit, pos⟩ := p
    show (if (!(f.data.getD (evenPos pos) 0 ||| f.data.getD (oddPos pos) 0).getLsbD bit) = true then
      _ else _) = _
    rw [getLsbD_or_of_cell hn, Bool.not_true, if_neg Bool.false_ne_true]
    exact ih hns

theorem Recent.contains (h : Recent murmurHash3 keys f)
    (hkey : vKey ∈ keys.take (f.nEntriesThisGeneration + 2 * f.nEntriesPerGeneration)) :
    f.contains murmurHash3 vKey = .ok true :=
  containsLoop_ok h.nonempty fun n hn =>
    (h.young 2 (by decide) vKey hkey n (mem_range.mp hn)).1

/-! ## The last keys -/

/-- The size of the filter overflows nowhere, and it is not zero. -/
def Fits (nElements : Nat) (rate : FpRate) : Prop :=
  entriesPerGeneration nElements * 3 < 2 ^ 31 ∧
    0 < rate.filterBits (hashFuncs rate) (entriesPerGeneration nElements * 3) ∧
    rate.filterBits (hashFuncs rate) (entriesPerGeneration nElements * 3) + 63 < 2 ^ 32

/-- Each of the last `nElements` keys is contained after every sequence of inserts. -/
def ContainsRecent (murmurHash3 : UInt32 → List UInt8 → UInt32) (nElements : Nat) (rate : FpRate)
    (nTweak : UInt32) : Prop :=
  ∀ vKeys : List (List UInt8), ∃ f f', new nElements rate nTweak = .ok f ∧
    f.insertAll murmurHash3 vKeys = .ok f' ∧
    ∀ vKey ∈ vKeys.reverse.take nElements, f'.contains murmurHash3 vKey = .ok true

theorem shiftLeft_one (n : Nat) : n <<< 1 = 2 * n := by
  rw [Nat.shiftLeft_eq, Nat.pow_one, Nat.mul_comm]

variable {nElements : Nat} {rate : FpRate}

theorem containsRecent_of_fits (nTweak : UInt32) (hmax : nElements < 2 ^ 32)
    (h : Fits nElements rate) : ContainsRecent murmurHash3 nElements rate nTweak := by
  obtain ⟨hentries, hbits, hroom⟩ := h
  intro vKeys
  have hpos : 0 < entriesPerGeneration nElements := by
    by_contra hzero
    rw [Nat.eq_zero_of_not_pos hzero, Nat.zero_mul, rate.filterBits_zero] at hbits
    exact absurd hbits (lt_irrefl 0)
  have hhalf : nElements ≤ 2 * entriesPerGeneration nElements := by
    unfold entriesPerGeneration at hpos ⊢
    omega
  obtain ⟨f, hf⟩ : ∃ f, new nElements rate nTweak = .ok f := by
    rw [new]
    rw [if_neg (not_le.mpr hentries), if_neg (by omega)]
    exact ⟨_, rfl⟩
  have hnew := hf
  rw [new] at hnew
  rw [if_neg (not_le.mpr hentries), if_neg (by omega)] at hnew
  have hperGeneration : f.nEntriesPerGeneration = entriesPerGeneration nElements := by
    cases hnew
    rfl
  have hrecent : Recent murmurHash3 [] f := by
    cases hnew
    refine ⟨?_, ?_, ⟨le_refl 1, show 1 ≤ 3 by decide⟩, zero_le _, fun a _ vKey hmem => ?_⟩
    · rw [length_replicate, shiftLeft_one, mul_mod_right]
    · rw [length_replicate, shiftLeft_one, mod_eq_of_lt hroom]
      omega
    · rw [take_nil] at hmem
      cases hmem
  obtain ⟨f', hall, hrecent', hshape⟩ :=
    hrecent.insertAll (by rw [hperGeneration]; exact hpos) vKeys
  rw [append_nil] at hrecent'
  refine ⟨f, f', hf, hall, fun vKey hkey => hrecent'.contains ?_⟩
  rw [hshape.nEntriesPerGeneration, hperGeneration]
  exact take_subset_take_left _ (by omega) hkey

variable {nTweak : UInt32}

theorem insert_empty (hnew : new nElements rate nTweak = .ok f) (hempty : f.data = [])
    (vKey : List UInt8) : f.insert murmurHash3 vKey = .error .divisionByZero := by
  have hfuncs : 0 < f.nHashFuncs := by
    rw [new] at hnew
    dsimp only at hnew
    split at hnew
    next => cases hnew
    next =>
      split at hnew
      next => cases hnew
      next =>
        cases hnew
        show 0 < (max 1 (min rate.optimalHashFuncs 50)).toNat
        omega
  have hshape := startGeneration_sameShape f
  obtain ⟨n, hn⟩ := exists_eq_succ_of_ne_zero (ne_of_gt hfuncs)
  rw [CRollingBloomFilter.insert, hshape.nHashFuncs, hn, range_succ_eq_map, insertLoop, position]
  rw [if_pos (by rw [hshape.size, hempty]; rfl)]
  rfl

theorem fits_of_containsRecent (h : ContainsRecent murmurHash3 nElements rate nTweak) :
    Fits nElements rate := by
  obtain ⟨f, f', hnew, hall, -⟩ := h [[]]
  have hnonempty : f.data ≠ [] := by
    intro hempty
    rw [CRollingBloomFilter.insertAll, insert_empty hnew hempty] at hall
    cases hall
  rw [new] at hnew
  dsimp only at hnew
  split at hnew
  next => cases hnew
  next hentries =>
    split at hnew
    next => cases hnew
    next hbits =>
      cases hnew
      have hlen := length_pos_iff.mpr hnonempty
      rw [length_replicate, shiftLeft_one] at hlen
      exact ⟨by omega, by omega, by omega⟩

/-- The last `nElements` keys are contained, for every hash function and every tweak,
    exactly if the size of the filter fits. -/
theorem containsRecent_iff (murmurHash3 : UInt32 → List UInt8 → UInt32) {nElements : Nat}
    (hmax : nElements < 2 ^ 32) (rate : FpRate) (nTweak : UInt32) :
    ContainsRecent murmurHash3 nElements rate nTweak ↔ Fits nElements rate :=
  ⟨fits_of_containsRecent, containsRecent_of_fits nTweak hmax⟩

/-- A rate of one half: one hash function, and `log(1 - 0.5)` with six digits. -/
def half : FpRate where
  optimalHashFuncs := 1
  filterBits nHashFuncs nMaxElements := (nHashFuncs * nMaxElements * 1000000 + 693146) / 693147
  filterBits_zero nHashFuncs := by rw [Nat.mul_zero, Nat.zero_mul]

theorem containsRecent_three :
    ContainsRecent (fun seed key => seed + UInt32.ofNat key.length) 3 half 5 :=
  (containsRecent_iff _ (by decide) half 5).mpr ⟨by decide, by decide, by decide⟩

/-- The number of entries wraps around to zero, and so does the filter. -/
theorem not_containsRecent_overflow :
    ¬ ∀ nElements, 1 ≤ nElements → nElements < 2 ^ 32 →
      ContainsRecent (fun seed _ => seed) nElements half 0 := by
  intro hall
  obtain ⟨-, hbits, -⟩ := fits_of_containsRecent (hall (2 ^ 32 - 1) (by decide) (by decide))
  exact absurd hbits (by decide)

end CRollingBloomFilter

end Rcoin
