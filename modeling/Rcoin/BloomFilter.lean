/-
  `CBloomFilter` (src/bloom.cpp) as a peer sends it, whatever the hash function is.
-/
import Rcoin.Lib.Checked
import Rcoin.RollingBloom
import Rcoin.Script.Standard
import Rcoin.Serialize

namespace Rcoin

open List

/-! ## The filter -/

/-- A filter as a `filterload` message gives it. -/
structure CBloomFilter where
  vData : List UInt8
  isFull : Bool
  isEmpty : Bool
  nHashFuncs : Nat
  nTweak : UInt32
  nFlags : UInt8
  deriving DecidableEq

namespace CBloomFilter

open Checked (bind_of_ok)

def MAX_BLOOM_FILTER_SIZE : Nat := 36000
def MAX_HASH_FUNCS : Nat := 50
def BLOOM_UPDATE_ALL : UInt8 := 1
def BLOOM_UPDATE_P2PUBKEY_ONLY : UInt8 := 2
def BLOOM_UPDATE_MASK : UInt8 := 3

def isWithinSizeConstraints (f : CBloomFilter) : Bool :=
  decide (f.vData.length ≤ MAX_BLOOM_FILTER_SIZE ∧ f.nHashFuncs ≤ MAX_HASH_FUNCS)

def updateEmptyFull (f : CBloomFilter) : CBloomFilter :=
  { f with isFull := f.vData.all (· == 0xff), isEmpty := f.vData.all (· == 0) }

/-- What a `filterload` message leaves, if it is not too large. -/
def filterLoad (vData : List UInt8) (nHashFuncs : UInt32) (nTweak : UInt32) (nFlags : UInt8) :
    Option CBloomFilter :=
  let filter : CBloomFilter := ⟨vData, true, false, nHashFuncs.toNat, nTweak, nFlags⟩
  if filter.isWithinSizeConstraints then some filter.updateEmptyFull else none

/-- `vData[nIndex >> 3] & (1 << (7 & nIndex))`. -/
def bit (vData : List UInt8) (nIndex : Nat) : Bool :=
  vData.getD (nIndex / 8) 0 &&& 1 <<< UInt8.ofNat (nIndex % 8) != 0

def setBit (vData : List UInt8) (nIndex : Nat) : List UInt8 :=
  vData.set (nIndex / 8) (vData.getD (nIndex / 8) 0 ||| 1 <<< UInt8.ofNat (nIndex % 8))

/-- The data that `GetOp` yields, up to the end or to where it fails. -/
def dataElements (pc : CScript) : List Valtype :=
  match h : getOp pc with
  | none => []
  | some (_, data, rest) =>
    have := getOp_length h
    data :: dataElements rest
termination_by pc.length

section

variable (murmurHash3 : UInt32 → List UInt8 → UInt32)

def hash (f : CBloomFilter) (nHashNum : Nat) (vDataToHash : List UInt8) : Except BloomFault Nat :=
  if f.vData.length * 8 = 0 then .error .divisionByZero
  else .ok ((murmurHash3 (UInt32.ofNat nHashNum * 0xFBA4C795 + f.nTweak) vDataToHash).toNat %
    (f.vData.length * 8))

/-- The loop of `insert` over these hash numbers. -/
def insertLoop (vKey : List UInt8) : CBloomFilter → List Nat → Except BloomFault CBloomFilter
  | f, [] => .ok f
  | f, i :: is => do
    let nIndex ← f.hash murmurHash3 i vKey
    insertLoop vKey { f with vData := setBit f.vData nIndex } is

def insert (f : CBloomFilter) (vKey : List UInt8) : Except BloomFault CBloomFilter :=
  if f.isFull then .ok f
  else do
    let f ← insertLoop murmurHash3 vKey f (List.range f.nHashFuncs)
    return { f with isEmpty := false }

/-- The loop of `contains` over these hash numbers. -/
def containsLoop (f : CBloomFilter) (vKey : List UInt8) : List Nat → Except BloomFault Bool
  | [] => .ok true
  | i :: is => do
    let nIndex ← f.hash murmurHash3 i vKey
    if !bit f.vData nIndex then .ok false else f.containsLoop vKey is

def contains (f : CBloomFilter) (vKey : List UInt8) : Except BloomFault Bool :=
  if f.isFull then .ok true
  else if f.isEmpty then .ok false
  else f.containsLoop murmurHash3 vKey (List.range f.nHashFuncs)

/-- Whether one of the data elements matches, up to the first that does. -/
def matchLoop (f : CBloomFilter) : List Valtype → Except BloomFault Bool
  | [] => .ok false
  | data :: rest =>
    if data.length = 0 then matchLoop f rest
    else do if ← f.contains murmurHash3 data then .ok true else matchLoop f rest

/-- What a match in output `i` does to the filter. -/
def update (f : CBloomFilter) (hash : Uint256) (i : Nat) (scriptPubKey : CScript) :
    Except BloomFault CBloomFilter :=
  if f.nFlags &&& BLOOM_UPDATE_MASK = BLOOM_UPDATE_ALL then
    f.insert murmurHash3 (COutPoint.serialize ⟨hash, i⟩)
  else if f.nFlags &&& BLOOM_UPDATE_MASK = BLOOM_UPDATE_P2PUBKEY_ONLY then
    let (solved, type, _) := solver scriptPubKey .nonstandard
    if solved ∧ (type = .pubkey ∨ type = .multisig) then
      f.insert murmurHash3 (COutPoint.serialize ⟨hash, i⟩)
    else .ok f
  else .ok f

/-- The loop over the outputs from number `i` on; the state is `fFound` and the filter. -/
def outLoop (hash : Uint256) : Nat → List CTxOut → Bool × CBloomFilter →
    Except BloomFault (Bool × CBloomFilter)
  | _, [], s => .ok s
  | i, txout :: vout, s => do
    if ← s.2.matchLoop murmurHash3 (dataElements txout.scriptPubKey) then
      outLoop hash (i + 1) vout (true, ← s.2.update murmurHash3 hash i txout.scriptPubKey)
    else outLoop hash (i + 1) vout s

def inLoop (f : CBloomFilter) : List CTxIn → Except BloomFault Bool
  | [] => .ok false
  | txin :: vin => do
    if ← f.contains murmurHash3 txin.prevout.serialize then .ok true
    else if ← f.matchLoop murmurHash3 (dataElements txin.scriptSig) then .ok true
    else inLoop f vin

def isRelevantAndUpdate (f : CBloomFilter) (tx : CTransaction) :
    Except BloomFault (Bool × CBloomFilter) :=
  if f.isFull then .ok (true, f)
  else if f.isEmpty then .ok (false, f)
  else do
    let fFound ← f.contains murmurHash3 (leBytes 32 tx.hash)
    let (fFound, f) ← outLoop murmurHash3 tx.hash 0 tx.vout (fFound, f)
    if fFound then return (true, f)
    return (← f.inLoop murmurHash3 tx.vin, f)

end

/-! ## Bits -/

theorem mask_ne_zero : ∀ k < 8, (1 : UInt8) <<< UInt8.ofNat k ≠ 0 := by decide

theorem or_and_distrib (a b c : UInt8) : (a ||| b) &&& c = a &&& c ||| b &&& c :=
  UInt8.toBitVec_inj.mp (BitVec.and_or_distrib_right)

variable {vData : List UInt8}

theorem bit_setBit {nIndex : Nat} (h : nIndex < vData.length * 8) :
    bit (setBit vData nIndex) nIndex = true ∧
      ∀ i, bit vData i = true → bit (setBit vData nIndex) i = true := by
  have hlt : nIndex / 8 < vData.length := by omega
  have hself : (vData.set (nIndex / 8) (vData.getD (nIndex / 8) 0 |||
      1 <<< UInt8.ofNat (nIndex % 8))).getD (nIndex / 8) 0 =
        vData.getD (nIndex / 8) 0 ||| 1 <<< UInt8.ofNat (nIndex % 8) := by
    rw [getD_eq_getElem?_getD, getElem?_set_self hlt, Option.getD_some]
  simp only [bit, setBit, bne_iff_ne, ne_eq]
  refine ⟨?_, fun i hi => ?_⟩
  · rw [hself, or_and_distrib, UInt8.and_self, UInt8.or_eq_zero_iff]
    exact fun hzero => mask_ne_zero _ (Nat.mod_lt _ (by decide)) hzero.2
  · by_cases heq : nIndex / 8 = i / 8
    · rw [← heq] at hi ⊢
      rw [hself, or_and_distrib, UInt8.or_eq_zero_iff]
      exact fun hzero => hi hzero.1
    · rwa [getD_eq_getElem?_getD, getElem?_set_ne heq, ← getD_eq_getElem?_getD]

/-! ## Insertion -/

/-- A filter without data is full, so that no number is divided by its size. -/
def Good (f : CBloomFilter) : Prop := f.vData = [] → f.isFull = true

/-- Nothing is taken from a filter. -/
structure Extends (f f' : CBloomFilter) : Prop where
  length : f'.vData.length = f.vData.length
  isFull : f'.isFull = f.isFull
  isEmpty : f'.isEmpty = true → f.isEmpty = true
  nHashFuncs : f'.nHashFuncs = f.nHashFuncs
  nTweak : f'.nTweak = f.nTweak
  nFlags : f'.nFlags = f.nFlags
  bits : ∀ i, bit f.vData i = true → bit f'.vData i = true

theorem Extends.refl (f : CBloomFilter) : Extends f f := ⟨rfl, rfl, id, rfl, rfl, rfl, fun _ => id⟩

theorem Extends.trans {f g h : CBloomFilter} (hfg : Extends f g) (hgh : Extends g h) :
    Extends f h :=
  ⟨hgh.length.trans hfg.length, hgh.isFull.trans hfg.isFull, hfg.isEmpty ∘ hgh.isEmpty,
    hgh.nHashFuncs.trans hfg.nHashFuncs, hgh.nTweak.trans hfg.nTweak,
    hgh.nFlags.trans hfg.nFlags, fun i => hgh.bits i ∘ hfg.bits i⟩

variable {f' : CBloomFilter}

theorem Extends.good {f : CBloomFilter} (h : Extends f f') (hf : Good f) : Good f' := by
  intro hnil
  have hlen := h.length
  rw [hnil] at hlen
  rw [h.isFull]
  exact hf (eq_nil_of_length_eq_zero hlen.symm)

section

variable (H : UInt32 → List UInt8 → UInt32) {f : CBloomFilter}

/-- Where a key goes. -/
def index (f : CBloomFilter) (vKey : List UInt8) (i : Nat) : Nat :=
  (H (UInt32.ofNat i * 0xFBA4C795 + f.nTweak) vKey).toNat % (f.vData.length * 8)

theorem Extends.index (h : Extends f f') (vKey : List UInt8) (i : Nat) :
    index H f' vKey i = index H f vKey i := by
  rw [CBloomFilter.index, CBloomFilter.index, h.nTweak, h.length]

theorem hash_ok (h : f.vData ≠ []) (vKey : List UInt8) (i : Nat) :
    f.hash H i vKey = .ok (index H f vKey i) ∧
      index H f vKey i < f.vData.length * 8 := by
  have hpos := length_pos_of_ne_nil h
  exact ⟨if_neg (by omega), Nat.mod_lt _ (by omega)⟩

theorem insertLoop_ok (h : f.vData ≠ []) (vKey : List UInt8) (is : List Nat) :
    ∃ f', insertLoop H vKey f is = .ok f' ∧ Extends f f' ∧
      ∀ i ∈ is, bit f'.vData (index H f vKey i) = true := by
  induction is generalizing f with
  | nil => exact ⟨f, rfl, Extends.refl f, forall_mem_nil _⟩
  | cons i is ih =>
    obtain ⟨hhash, hlt⟩ := hash_ok H h vKey i
    obtain ⟨hself, hbits⟩ := bit_setBit hlt
    have hstep : Extends f { f with vData := setBit f.vData (index H f vKey i) } :=
      ⟨length_set, rfl, id, rfl, rfl, rfl, hbits⟩
    have hne : setBit f.vData (index H f vKey i) ≠ [] :=
      ne_nil_of_length_pos (by rw [setBit, length_set]; exact length_pos_of_ne_nil h)
    obtain ⟨f', hloop, hext, hall⟩ := ih (f := { f with
      vData := setBit f.vData (index H f vKey i) }) hne
    refine ⟨f', ?_, hstep.trans hext, forall_mem_cons.mpr ⟨hext.bits _ hself, fun j hj => ?_⟩⟩
    · rw [insertLoop, hhash]
      exact hloop
    · rw [← hstep.index]
      exact hall j hj

theorem containsLoop_ok (h : f.vData ≠ []) (vKey : List UInt8) (is : List Nat) :
    f.containsLoop H vKey is =
      .ok (is.all fun i => bit f.vData (index H f vKey i)) := by
  induction is with
  | nil => rfl
  | cons i is ih =>
    rw [containsLoop, (hash_ok H h vKey i).1, all_cons, ih]
    change (if !bit f.vData (index H f vKey i) then _ else _) = _
    cases bit f.vData (index H f vKey i) <;> rfl

theorem contains_of_all (hne : f.vData ≠ []) (hempty : f.isEmpty = false) {vKey : List UInt8}
    (hall : ∀ i ∈ List.range f.nHashFuncs, bit f.vData (index H f vKey i) = true) :
    f.contains H vKey = .ok true := by
  rw [contains, hempty, containsLoop_ok H hne, List.all_eq_true.mpr hall]
  exact ite_self _

theorem contains_ok (hf : Good f) (vKey : List UInt8) :
    ∃ b, f.contains H vKey = .ok b ∧
      ∀ f', Extends f f' → b = true → f'.contains H vKey = .ok true := by
  by_cases hfull : f.isFull = true
  · exact ⟨true, if_pos hfull, fun f' h _ => if_pos (h.isFull.trans hfull)⟩
  have hne : f.vData ≠ [] := mt hf hfull
  rw [contains, if_neg hfull]
  by_cases hempty : f.isEmpty = true
  · exact ⟨false, if_pos hempty, nofun⟩
  · rw [if_neg hempty, containsLoop_ok H hne]
    refine ⟨_, rfl, fun f' h hall => ?_⟩
    have hne' : f'.vData ≠ [] := by
      rw [← length_pos_iff, h.length]
      exact length_pos_of_ne_nil hne
    refine contains_of_all H hne' (Bool.not_eq_true _ ▸ mt h.isEmpty hempty) fun i hi => ?_
    rw [h.nHashFuncs] at hi
    rw [h.index]
    exact h.bits _ (List.all_eq_true.mp hall i hi)

theorem insert_ok (hf : Good f) (vKey : List UInt8) :
    ∃ f', f.insert H vKey = .ok f' ∧ Extends f f' ∧
      f'.contains H vKey = .ok true := by
  by_cases hfull : f.isFull = true
  · exact ⟨f, if_pos hfull, Extends.refl f, if_pos hfull⟩
  have hne : f.vData ≠ [] := mt hf hfull
  obtain ⟨f', hloop, h, hall⟩ := insertLoop_ok H hne vKey
    (List.range f.nHashFuncs)
  have hne' : f'.vData ≠ [] := by
    rw [← length_pos_iff, h.length]
    exact length_pos_of_ne_nil hne
  have hset : Extends f { f' with isEmpty := false } :=
    ⟨h.length, h.isFull, nofun, h.nHashFuncs, h.nTweak, h.nFlags, h.bits⟩
  refine ⟨{ f' with isEmpty := false }, ?_, hset, ?_⟩
  · rw [insert, if_neg hfull, hloop]
    rfl
  · refine contains_of_all H (f := { f' with isEmpty := false }) hne' rfl fun i hi => ?_
    rw [hset.nHashFuncs] at hi
    rw [hset.index]
    exact hall i hi

/-! ## Relevance -/

def Matches (f : CBloomFilter) (script : CScript) : Prop :=
  ∃ data ∈ dataElements script, data ≠ [] ∧ f.contains H data = .ok true

theorem matchLoop_ok (hf : Good f) (l : List Valtype) :
    ∃ b, f.matchLoop H l = .ok b ∧
      ((∃ data ∈ l, data ≠ [] ∧ f.contains H data = .ok true) → b = true) := by
  induction l with
  | nil => exact ⟨false, rfl, by simp⟩
  | cons data l ih =>
    obtain ⟨b, hb, hmatch⟩ := ih
    rw [matchLoop]
    split
    next hnil =>
      refine ⟨b, hb, ?_⟩
      rintro ⟨d, hd, hne, hc⟩
      rcases mem_cons.mp hd with rfl | hd
      · exact absurd (eq_nil_of_length_eq_zero hnil) hne
      · exact hmatch ⟨d, hd, hne, hc⟩
    next =>
      obtain ⟨c, hc, -⟩ := contains_ok H hf data
      rw [hc]
      cases c with
      | true => exact ⟨true, rfl, fun _ => rfl⟩
      | false =>
        refine ⟨b, hb, ?_⟩
        rintro ⟨d, hd, hne, hd'⟩
        rcases mem_cons.mp hd with rfl | hd
        · cases hc.symm.trans hd'
        · exact hmatch ⟨d, hd, hne, hd'⟩

theorem update_ok (hf : Good f) (hash : Uint256) (i : Nat) (script : CScript) :
    ∃ f', f.update H hash i script = .ok f' ∧ Extends f f' ∧
      (f.nFlags &&& BLOOM_UPDATE_MASK = BLOOM_UPDATE_ALL →
        f'.contains H (COutPoint.serialize ⟨hash, i⟩) = .ok true) := by
  obtain ⟨f', hinsert, hext, hcontains⟩ := insert_ok H hf
    (COutPoint.serialize ⟨hash, i⟩)
  rw [update]
  split
  · exact ⟨f', hinsert, hext, fun _ => hcontains⟩
  next hall =>
    split
    · dsimp only
      split
      · exact ⟨f', hinsert, hext, fun h => absurd h hall⟩
      · exact ⟨f, rfl, Extends.refl f, fun h => absurd h hall⟩
    · exact ⟨f, rfl, Extends.refl f, fun h => absurd h hall⟩

theorem outLoop_ok (hash : Uint256) (i : Nat) (vout : List CTxOut) {s : Bool × CBloomFilter}
    (hs : Good s.2) : ∃ s', outLoop H hash i vout s = .ok s' ∧ Extends s.2 s'.2 ∧
      (s.1 = true → s'.1 = true) := by
  induction vout generalizing i s with
  | nil => exact ⟨s, rfl, Extends.refl _, id⟩
  | cons txout vout ih =>
    obtain ⟨b, hb, -⟩ := matchLoop_ok H hs
      (dataElements txout.scriptPubKey)
    rw [outLoop, bind_of_ok hb]
    cases b with
    | true =>
      obtain ⟨f', hupdate, hext, -⟩ := update_ok H hs hash i
        txout.scriptPubKey
      obtain ⟨s', hs', hext', hfound⟩ := ih (i + 1) (s := (true, f')) (hext.good hs)
      exact ⟨s', (bind_of_ok hupdate _).trans hs', hext.trans hext', fun _ => hfound rfl⟩
    | false => exact ih (i + 1) hs

theorem outLoop_match {hash : Uint256} {before : List CTxOut} (after : List CTxOut)
    {txout : CTxOut} {s t : Bool × CBloomFilter} {i : Nat} (hs : Good s.2)
    (hflags : s.2.nFlags &&& BLOOM_UPDATE_MASK = BLOOM_UPDATE_ALL)
    (hbefore : outLoop H hash i before s = .ok t)
    (hmatch : Matches H t.2 txout.scriptPubKey) :
    ∃ s', outLoop H hash i (before ++ txout :: after) s = .ok s' ∧ Extends s.2 s'.2 ∧
      s'.1 = true ∧
      s'.2.contains H (COutPoint.serialize ⟨hash, i + before.length⟩) = .ok true := by
  induction before generalizing i s with
  | nil =>
    cases hbefore
    obtain ⟨b, hb, htrue⟩ := matchLoop_ok H hs
      (dataElements txout.scriptPubKey)
    obtain rfl := htrue hmatch
    obtain ⟨f', hupdate, hext, hcontains⟩ := update_ok H hs hash i
      txout.scriptPubKey
    obtain ⟨s', hs', hext', hfound⟩ := outLoop_ok H hash (i + 1) after
      (s := (true, f')) (hext.good hs)
    refine ⟨s', ?_, hext.trans hext', hfound rfl, ?_⟩
    · rw [nil_append, outLoop, bind_of_ok hb]
      exact (bind_of_ok hupdate _).trans hs'
    · obtain ⟨c, hc, hstays⟩ := contains_ok H (hext.good hs)
        (COutPoint.serialize ⟨hash, i⟩)
      rw [hcontains hflags] at hc
      cases hc
      exact hstays _ hext' rfl
  | cons o before ih =>
    obtain ⟨b, hb, -⟩ := matchLoop_ok H hs (dataElements o.scriptPubKey)
    rw [outLoop, bind_of_ok hb] at hbefore
    rw [List.cons_append, outLoop, bind_of_ok hb, length_cons, Nat.add_comm before.length,
      ← Nat.add_assoc]
    cases b with
    | true =>
      obtain ⟨f', hupdate, hext, -⟩ := update_ok H hs hash i
        o.scriptPubKey
      obtain ⟨s', hs', hext', hrest⟩ := ih (s := (true, f')) (hext.good hs)
        (by rw [hext.nFlags]; exact hflags) ((bind_of_ok hupdate _).symm.trans hbefore)
      exact ⟨s', (bind_of_ok hupdate _).trans hs', hext.trans hext', hrest⟩
    | false => exact ih hs hflags hbefore

theorem outLoop_empty (hfull : f.isFull ≠ true) (hempty : f.isEmpty = true) (hash : Uint256)
    (c : Bool) (i : Nat) (vout : List CTxOut) :
    outLoop H hash i vout (c, f) = .ok (c, f) := by
  have hmatch : ∀ l, f.matchLoop H l = .ok false := by
    intro l
    induction l with
    | nil => rfl
    | cons data l ih =>
      rw [matchLoop, ih, contains, if_neg hfull, if_pos hempty]
      exact ite_self _
  induction vout generalizing i with
  | nil => rfl
  | cons txout vout ih =>
    rw [outLoop, bind_of_ok (hmatch _)]
    exact ih (i + 1)

theorem inLoop_ok (hf : Good f) (vin : List CTxIn) :
    ∃ b, f.inLoop H vin = .ok b ∧
      ((∃ txin ∈ vin, f.contains H txin.prevout.serialize = .ok true) → b = true) := by
  induction vin with
  | nil => exact ⟨false, rfl, by simp⟩
  | cons txin vin ih =>
    obtain ⟨b, hb, hin⟩ := ih
    obtain ⟨c, hc, -⟩ := contains_ok H hf txin.prevout.serialize
    obtain ⟨d, hd, -⟩ := matchLoop_ok H hf (dataElements txin.scriptSig)
    rw [inLoop, bind_of_ok hc]
    cases c with
    | true => exact ⟨true, rfl, fun _ => rfl⟩
    | false =>
      cases d with
      | true => exact ⟨true, bind_of_ok hd _, fun _ => rfl⟩
      | false =>
        refine ⟨b, (bind_of_ok hd _).trans hb, ?_⟩
        rintro ⟨i, hi, hi'⟩
        rcases mem_cons.mp hi with rfl | hi
        · cases hc.symm.trans hi'
        · exact hin ⟨i, hi, hi'⟩

theorem isRelevantAndUpdate_ok (hf : Good f) (tx : CTransaction) :
    ∃ b f', f.isRelevantAndUpdate H tx = .ok (b, f') ∧ Extends f f' ∧
      ((∃ txin ∈ tx.vin, f.contains H txin.prevout.serialize = .ok true) → b = true) := by
  by_cases hfull : f.isFull = true
  · exact ⟨true, f, if_pos hfull, Extends.refl f, fun _ => rfl⟩
  by_cases hempty : f.isEmpty = true
  · refine ⟨false, f, by rw [isRelevantAndUpdate, if_neg hfull, if_pos hempty], Extends.refl f, ?_⟩
    rintro ⟨txin, -, hc⟩
    rw [contains, if_neg hfull, if_pos hempty] at hc
    cases hc
  obtain ⟨c, hc, -⟩ := contains_ok H hf (leBytes 32 tx.hash)
  obtain ⟨⟨found, f'⟩, hout, hext, -⟩ := outLoop_ok H tx.hash 0 tx.vout
    (s := (c, f)) hf
  obtain ⟨b, hb, hin⟩ := inLoop_ok H (hext.good hf) tx.vin
  rw [isRelevantAndUpdate, if_neg hfull, if_neg hempty, bind_of_ok hc, bind_of_ok hout]
  cases found with
  | true => exact ⟨true, f', rfl, hext, fun _ => rfl⟩
  | false =>
    refine ⟨b, f', bind_of_ok hb _, hext, ?_⟩
    rintro ⟨txin, hmem, hspent⟩
    obtain ⟨d, hd, hstays⟩ := contains_ok H hf txin.prevout.serialize
    rw [hspent] at hd
    cases hd
    exact hin ⟨txin, hmem, hstays f' hext rfl⟩

/-! ## Runs -/

/-- What any calls make of a filter. -/
inductive Later (H : UInt32 → List UInt8 → UInt32) (f : CBloomFilter) :
    CBloomFilter → Prop
  | refl : Later H f f
  | insert {g h : CBloomFilter} {vKey} : Later H f g →
    g.insert H vKey = .ok h → Later H f h
  | isRelevantAndUpdate {g h : CBloomFilter} {tx b} : Later H f g →
    g.isRelevantAndUpdate H tx = .ok (b, h) → Later H f h

variable {H} in
theorem Later.extends (h : Later H f f') (hf : Good f) : Extends f f' := by
  induction h with
  | refl => exact Extends.refl f
  | insert _ hstep ih =>
    obtain ⟨g, hg, hext, -⟩ := insert_ok H (ih.good hf) _
    cases hg.symm.trans hstep
    exact ih.trans hext
  | isRelevantAndUpdate _ hstep ih =>
    obtain ⟨b, g, hg, hext, -⟩ := isRelevantAndUpdate_ok H (ih.good hf) _
    cases hg.symm.trans hstep
    exact ih.trans hext

theorem filterLoad_good {nHashFuncs nTweak : UInt32} {nFlags : UInt8}
    (h : filterLoad vData nHashFuncs nTweak nFlags = some f) : Good f := by
  rw [filterLoad] at h
  split at h
  · cases h
    intro hnil
    rw [updateEmptyFull] at hnil ⊢
    subst hnil
    rfl
  · cases h

/-- Of a filter that was received and used in any way: no number is divided by zero, what is
    inserted is contained from then on, and who spends a matched output is relevant. -/
theorem bloom_spec {vData : List UInt8} {nHashFuncs nTweak : UInt32} {nFlags : UInt8}
    {f0 : CBloomFilter} (h0 : filterLoad vData nHashFuncs nTweak nFlags = some f0)
    (h : Later H f0 f) :
    (∀ vKey, ∃ b, f.contains H vKey = .ok b) ∧
    (∀ vKey, ∃ f', f.insert H vKey = .ok f' ∧
      ∀ f'', Later H f' f'' → f''.contains H vKey = .ok true) ∧
    ∀ tx, ∃ b f', f.isRelevantAndUpdate H tx = .ok (b, f') ∧
      (nFlags &&& BLOOM_UPDATE_MASK = BLOOM_UPDATE_ALL → ∀ before txout after c g,
        tx.vout = before ++ txout :: after → f.contains H (leBytes 32 tx.hash) = .ok c →
        outLoop H tx.hash 0 before (c, f) = .ok g →
        Matches H g.2 txout.scriptPubKey →
        ∀ f'', Later H f' f'' → ∀ spending : CTransaction,
          ⟨tx.hash, before.length⟩ ∈ spending.prevouts →
          ∃ f3, f''.isRelevantAndUpdate H spending = .ok (true, f3)) := by
  have hf0 := filterLoad_good h0
  have hf := (h.extends hf0).good hf0
  have hflags : f.nFlags = nFlags := by
    rw [(h.extends hf0).nFlags]
    rw [filterLoad] at h0
    split at h0 <;> cases h0
    rfl
  refine ⟨fun vKey => ?_, fun vKey => ?_, fun tx => ?_⟩
  · obtain ⟨b, hb, -⟩ := contains_ok H hf vKey
    exact ⟨b, hb⟩
  · obtain ⟨f', hinsert, hext, hcontains⟩ := insert_ok H hf vKey
    refine ⟨f', hinsert, fun f'' hlater => ?_⟩
    obtain ⟨b, hb, hstays⟩ := contains_ok H (hext.good hf) vKey
    rw [hcontains] at hb
    cases hb
    exact hstays f'' (hlater.extends (hext.good hf)) rfl
  obtain ⟨b, f', htx, hext, -⟩ := isRelevantAndUpdate_ok H hf tx
  refine ⟨b, f', htx, fun hall before txout after c g hvout hc hbefore hmatch f'' hlater spending
    hspends => ?_⟩
  have hlater' := hlater.extends (hext.good hf)
  have hf'' := hlater'.good (hext.good hf)
  by_cases hfull : f.isFull = true
  · exact ⟨f'', if_pos (by rw [hlater'.isFull, hext.isFull, hfull])⟩
  have hempty : f.isEmpty ≠ true := by
    intro hempty
    cases (outLoop_empty H hfull hempty tx.hash c 0 before).symm.trans hbefore
    obtain ⟨data, -, -, hdata⟩ := hmatch
    rw [contains, if_neg hfull, if_pos hempty] at hdata
    cases hdata
  obtain ⟨⟨found, g'⟩, hout, -, hfound, hcontains⟩ := outLoop_match H after hf
    (hflags ▸ hall) hbefore hmatch
  obtain rfl : found = true := hfound
  rw [Nat.zero_add] at hcontains
  rw [isRelevantAndUpdate, if_neg hfull, if_neg hempty, bind_of_ok hc, hvout,
    bind_of_ok hout] at htx
  cases htx
  obtain ⟨d, hd, hstays⟩ := contains_ok H (hext.good hf)
    (COutPoint.serialize ⟨tx.hash, before.length⟩)
  rw [hcontains] at hd
  cases hd
  obtain ⟨txin, hmem, hprevout⟩ := List.mem_map.mp hspends
  obtain ⟨b', f3, hspending, -, hrelevant⟩ := isRelevantAndUpdate_ok H hf'' spending
  obtain rfl := hrelevant ⟨txin, hmem, by rw [hprevout]; exact hstays f'' hlater' rfl⟩
  exact ⟨f3, hspending⟩

/-! A wallet loads a filter and inserts its key; a payment to the key is relevant, and so is
whoever spends the payment. -/

def sampleHash (nHashNum : UInt32) (data : List UInt8) : UInt32 :=
  data.foldl (fun h b => h * 31 + b.toUInt32) (nHashNum + 7)

def sampleKey : List UInt8 := [1, 2, 3]

def payment : CTransaction :=
  { hash := 77, vin := [], vout := [⟨5 * COIN, [0x03, 1, 2, 3]⟩] }

def spending : CTransaction :=
  { hash := 78, vin := [{ prevout := ⟨77, 0⟩ }], vout := [] }

def loaded : CBloomFilter := ⟨[0, 0, 0, 0, 0, 0, 0, 0], false, true, 3, 0, 1⟩

theorem bloom_spec_sample : ∃ f, loaded.insert sampleHash sampleKey = .ok f ∧
    f.contains sampleHash sampleKey = .ok true ∧
    ∃ b f', f.isRelevantAndUpdate sampleHash payment = .ok (b, f') ∧
      ∃ f3, f'.isRelevantAndUpdate sampleHash spending = .ok (true, f3) := by
  have hload : filterLoad [0, 0, 0, 0, 0, 0, 0, 0] 3 0 1 = some loaded := by decide
  obtain ⟨-, hinsert, -⟩ := bloom_spec sampleHash hload .refl
  obtain ⟨f, hf, hkey⟩ := hinsert sampleKey
  have hlater : Later sampleHash loaded f := .insert .refl hf
  obtain ⟨hanswers, -, hrelevant⟩ := bloom_spec sampleHash hload hlater
  obtain ⟨b, f', hupdate, hspender⟩ := hrelevant payment
  obtain ⟨c, hc⟩ := hanswers (leBytes 32 payment.hash)
  have hpush : sampleKey ∈ dataElements [0x03, 1, 2, 3] := by
    rw [dataElements]
    exact List.mem_cons_self
  have hmatch : Matches sampleHash f [0x03, 1, 2, 3] :=
    ⟨sampleKey, hpush, by decide, hkey f .refl⟩
  exact ⟨f, hf, hkey f .refl, b, f', hupdate,
    hspender rfl [] _ [] c (c, f) rfl hc rfl hmatch f' .refl spending (by decide)⟩

end

end CBloomFilter

end Rcoin
