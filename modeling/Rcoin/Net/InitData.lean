/-
  `InitData` (src/blockencodings.cpp) with every access of a vector checked, the
  null pointers of the extra transactions, and a bound on the search for a free
  position: what it can fail at, and the positions it files short ids under.
-/
import Rcoin.Lib.Gaps
import Rcoin.Net.BlockEncodings

namespace Rcoin

open Fallible Gaps List

/-! ## `InitData`, step by step -/

/-- What a run can end in besides a return. -/
inductive InitFault where
  /-- A vector is read or written outside its size. -/
  | outOfBounds
  | nullDereference
  | assertFailed
  /-- The search for a free position took more passes than it was given. -/
  | unfinished
  deriving DecidableEq, Repr

def readAt {α : Type} (v : List α) (i : Nat) : Except InitFault α :=
  match v[i]? with
  | some a => .ok a
  | none => .error .outOfBounds

def writeAt {α : Type} (v : List α) (i : Nat) (a : α) : Except InitFault (List α) :=
  if i < v.length then .ok (v.set i a) else .error .outOfBounds

/-- The loop over the prefilled transactions, `i` of them done; `false` is
    `READ_STATUS_INVALID`. -/
def prefillRun (nShort : Nat) : Nat → Int → List PrefilledTransaction →
    List (Option CTransaction) → Except InitFault (Bool × List (Option CTransaction))
  | _, _, [], txn_available => .ok (true, txn_available)
  | i, lastprefilledindex, p :: rest, txn_available =>
    if p.tx.isNull then .ok (false, txn_available)
    else
      let lastprefilledindex := lastprefilledindex + (p.index.toNat + 1)
      if lastprefilledindex > 65535 then .ok (false, txn_available)
      else if lastprefilledindex.toNat > nShort + i then .ok (false, txn_available)
      else do
        let txn_available ← writeAt txn_available lastprefilledindex.toNat (some p.tx)
        prefillRun nShort (i + 1) lastprefilledindex rest txn_available

/-- `while (txn_available[i + index_offset]) index_offset++;`, for at most a number of
    passes. -/
def skipRun (txn_available : List (Option CTransaction)) (i : Nat) :
    Nat → UInt16 → Except InitFault UInt16
  | 0, _ => .error .unfinished
  | passes + 1, index_offset => do
    let slot ← readAt txn_available (i + index_offset.toNat)
    if slot.isSome then skipRun txn_available i passes (index_offset + 1) else return index_offset

/-- The assignments to `shorttxids`, in order. -/
abbrev Assignments := List (UInt64 × UInt16)

/-- The map they make. -/
def shortIDMap (assigned : Assignments) : ShortIDMap :=
  assigned.foldl (fun m (id, p) => m.insert id p) ∅

/-- The loop over the short ids from index `i` on; `false` is `READ_STATUS_FAILED`. -/
def indexRun (env : CompactEnv) (passes : Nat) (txn_available : List (Option CTransaction)) :
    Nat → UInt16 → List UInt64 → Assignments → Except InitFault (Bool × Assignments)
  | _, _, [], assigned => .ok (true, assigned)
  | i, index_offset, id :: rest, assigned => do
    let index_offset ← skipRun txn_available i passes index_offset
    let assigned := assigned ++ [(id, UInt16.ofNat (i + index_offset.toNat))]
    if env.bucketSize (assigned.map Prod.fst) id > 12 then return (false, assigned)
    indexRun env passes txn_available (i + 1) index_offset rest assigned

/-- The body of the loop over the mempool. -/
def scanPoolTxRun (slot : Option UInt16) (tx : CTransaction) (s : ScanState) :
    Except InitFault ScanState :=
  match slot with
  | none => .ok s
  | some p => do
    let have_txn ← readAt s.have_txn p.toNat
    if !have_txn then
      let txn_available ← writeAt s.txn_available p.toNat (some tx)
      let have_txn ← writeAt s.have_txn p.toNat true
      return { s with
        txn_available := txn_available
        have_txn := have_txn
        mempool_count := s.mempool_count + 1 }
    let available ← readAt s.txn_available p.toNat
    if available.isNone then return s
    let txn_available ← writeAt s.txn_available p.toNat none
    return { s with txn_available := txn_available, mempool_count := s.mempool_count - 1 }

/-- The loop over `vTxHashes`. -/
def scanPoolRun (env : CompactEnv) (c : CBlockHeaderAndShortTxIDs) (shorttxids : ShortIDMap) :
    List (Uint256 × CTransaction) → ScanState → Except InitFault ScanState
  | [], s => .ok s
  | (hash, tx) :: rest, s => do
    let s ← scanPoolTxRun (shorttxids.lookup (c.getShortID env hash)) tx s
    if s.mempool_count == UInt64.ofNat shorttxids.keys.length then return s
    scanPoolRun env c shorttxids rest s

/-- `tx->GetWitnessHash()`. -/
def witnessHashAt (env : CompactEnv) : Option CTransaction → Except InitFault Uint256
  | some tx => .ok (env.getWitnessHash tx)
  | none => .error .nullDereference

/-- The body of the loop over the extra transactions. -/
def scanExtraTxRun (env : CompactEnv) (slot : Option UInt16) (tx : Option CTransaction)
    (s : ScanState) : Except InitFault ScanState :=
  match slot with
  | none => .ok s
  | some p => do
    let have_txn ← readAt s.have_txn p.toNat
    if !have_txn then
      let txn_available ← writeAt s.txn_available p.toNat tx
      let have_txn ← writeAt s.have_txn p.toNat true
      return {
        txn_available := txn_available
        have_txn := have_txn
        mempool_count := s.mempool_count + 1
        extra_count := s.extra_count + 1 }
    let available ← readAt s.txn_available p.toNat
    if available.isNone then return s
    let availableHash ← witnessHashAt env available
    let hash ← witnessHashAt env tx
    -- the same transaction twice is no collision
    if availableHash == hash then return s
    let txn_available ← writeAt s.txn_available p.toNat none
    return { s with
      txn_available := txn_available
      mempool_count := s.mempool_count - 1
      extra_count := s.extra_count - 1 }

/-- The loop over `extra_txn`. -/
def scanExtraRun (env : CompactEnv) (c : CBlockHeaderAndShortTxIDs) (shorttxids : ShortIDMap) :
    List (Uint256 × Option CTransaction) → ScanState → Except InitFault ScanState
  | [], s => .ok s
  | (hash, tx) :: rest, s => do
    let s ← scanExtraTxRun env (shorttxids.lookup (c.getShortID env hash)) tx s
    if s.mempool_count == UInt64.ofNat shorttxids.keys.length then return s
    scanExtraRun env c shorttxids rest s

/-- What a run returns, and the assignments to `shorttxids` it made. -/
structure InitRun where
  status : ReadStatus
  block : PartiallyDownloadedBlock
  assigned : Assignments := []

/-- Behind the loop over the short ids: the scans of the mempool and of the extra
    transactions. -/
def PartiallyDownloadedBlock.scanRun (env : CompactEnv) (b : PartiallyDownloadedBlock)
    (cmpctblock : CBlockHeaderAndShortTxIDs) (vTxHashes : List (Uint256 × CTransaction))
    (extra_txn : List (Uint256 × Option CTransaction)) (assigned : Assignments) :
    Except InitFault InitRun := do
  let shorttxids := shortIDMap assigned
  if shorttxids.keys.length ≠ cmpctblock.shorttxids.length then
    return { status := .failed, block := b, assigned := assigned }
  let s ← scanPoolRun env cmpctblock shorttxids vTxHashes
    { txn_available := b.txn_available
      have_txn := List.replicate b.txn_available.length false
      mempool_count := b.mempool_count
      extra_count := b.extra_count }
  let s ← scanExtraRun env cmpctblock shorttxids extra_txn s
  let b := { b with
    txn_available := s.txn_available
    mempool_count := s.mempool_count
    extra_count := s.extra_count }
  return { status := .ok, block := b, assigned := assigned }

/-- `InitData`, with the `vTxHashes` of the mempool; no search for a free position
    takes more than `passes` passes. -/
def PartiallyDownloadedBlock.initDataRun (passes : Nat) (env : CompactEnv)
    (b : PartiallyDownloadedBlock) (cmpctblock : CBlockHeaderAndShortTxIDs)
    (vTxHashes : List (Uint256 × CTransaction))
    (extra_txn : List (Uint256 × Option CTransaction)) : Except InitFault InitRun := do
  if cmpctblock.header.isNull ||
      (cmpctblock.shorttxids.isEmpty && cmpctblock.prefilledtxn.isEmpty) then
    return { status := .invalid, block := b }
  let size := cmpctblock.shorttxids.length + cmpctblock.prefilledtxn.length
  if size > MAX_BLOCK_WEIGHT / MIN_SERIALIZABLE_TRANSACTION_WEIGHT then
    return { status := .invalid, block := b }
  failIf (!(b.header.isNull && b.txn_available.isEmpty)) .assertFailed
  let (valid, txn_available) ← prefillRun cmpctblock.shorttxids.length 0 (-1)
    cmpctblock.prefilledtxn (List.replicate size none)
  let b := { b with header := cmpctblock.header, txn_available := txn_available }
  if !valid then return { status := .invalid, block := b }
  let b := { b with prefilled_count := UInt64.ofNat cmpctblock.prefilledtxn.length }
  let (even, assigned) ← indexRun env passes txn_available 0 0 cmpctblock.shorttxids []
  if !even then return { status := .failed, block := b, assigned := assigned }
  b.scanRun env cmpctblock vTxHashes extra_txn assigned

/-! ## Accesses -/

variable {i : Nat}

variable {α : Type} {v : List α}

theorem readAt_eq_ok {a : α} : readAt v i = .ok a ↔ v[i]? = some a := by
  unfold readAt
  cases v[i]? with
  | none => exact ⟨fun h => (nomatch h), fun h => (nomatch h)⟩
  | some b => exact ⟨fun h => congrArg some (Except.ok.inj h), fun h => by cases h; rfl⟩

theorem writeAt_of_lt (h : i < v.length) (a : α) : writeAt v i a = .ok (v.set i a) := if_pos h

theorem isAvailable_set {txn_available : List (Option CTransaction)} {q : Nat}
    (hq : q < txn_available.length) (tx : CTransaction) (p : Nat) :
    isAvailable (txn_available.set q (some tx)) p = true ↔
      isAvailable txn_available p = true ∨ p = q := by
  unfold isAvailable
  by_cases hp : p = q
  · subst hp
    rw [getElem?_set_self hq]
    simp
  · rw [getElem?_set_ne (Ne.symm hp)]
    simp [hp]

/-! ## Prefilled transactions -/

/-- Positions in the block of prefilled transactions, the first of them at `next` or
    behind it. -/
def prefilledPositions : Nat → List PrefilledTransaction → List Nat
  | _, [] => []
  | next, p :: rest =>
    (next + p.index.toNat) :: prefilledPositions (next + p.index.toNat + 1) rest

@[simp] theorem length_prefilledPositions (next : Nat) (txs : List PrefilledTransaction) :
    (prefilledPositions next txs).length = txs.length := by
  induction txs generalizing next with
  | nil => rfl
  | cons p rest ih => rw [prefilledPositions, length_cons, length_cons, ih]

variable {txs : List PrefilledTransaction}

variable {next : Nat}

theorem le_of_mem_prefilledPositions {q : Nat} (h : q ∈ prefilledPositions next txs)
    : next ≤ q := by
  induction txs generalizing next with
  | nil => cases h
  | cons p rest ih =>
    rcases mem_cons.mp h with rfl | h
    · exact Nat.le_add_right ..
    · have := ih h
      omega

theorem nodup_prefilledPositions (next : Nat) (txs : List PrefilledTransaction) :
    (prefilledPositions next txs).Nodup := by
  induction txs generalizing next with
  | nil => exact nodup_nil
  | cons p rest ih =>
    refine nodup_cons.mpr ⟨fun h => ?_, ih _⟩
    have := le_of_mem_prefilledPositions h
    omega

/-- What the loop over the prefilled transactions asks, from the `i`-th on: none is
    null, each has a 16-bit position, and the positions before it can be filled. -/
structure PrefillsFit (nShort i next : Nat) (txs : List PrefilledTransaction) : Prop where
  notNull : ∀ p ∈ txs, p.tx.isNull = false
  position : ∀ k q, (prefilledPositions next txs)[k]? = some q → q ≤ 65535 ∧ q ≤ nShort + (i + k)

variable {nShort : Nat}

theorem prefillsFit_cons {p : PrefilledTransaction} {rest : List PrefilledTransaction} :
    PrefillsFit nShort i next (p :: rest) ↔ p.tx.isNull = false ∧
      (next + p.index.toNat ≤ 65535 ∧ next + p.index.toNat ≤ nShort + i) ∧
        PrefillsFit nShort (i + 1) (next + p.index.toNat + 1) rest := by
  constructor
  · rintro ⟨hnull, hpos⟩
    refine ⟨hnull p (mem_cons_self ..), hpos 0 _ rfl, ?_, fun k q hk => ?_⟩
    · exact fun p' hp' => hnull p' (mem_cons_of_mem _ hp')
    · have := hpos (k + 1) q hk
      omega
  · rintro ⟨hp, hfirst, hnull, hpos⟩
    refine ⟨fun p' hp' => ?_, fun k q hk => ?_⟩
    · rcases mem_cons.mp hp' with rfl | hp'
      · exact hp
      · exact hnull p' hp'
    · cases k with
      | zero =>
        cases hk
        exact hfirst
      | succ k =>
        have := hpos k q hk
        omega

theorem prefillRun_spec {txn_available : List (Option CTransaction)}
    (hlen : txn_available.length = nShort + (i + txs.length)) :
    ∃ valid filled, prefillRun nShort i ((next : Int) - 1) txs txn_available = .ok (valid, filled) ∧
      (valid = true ↔ PrefillsFit nShort i next txs) ∧
      (valid = true → filled.length = txn_available.length ∧
        ∀ p, isAvailable filled p = true ↔
          isAvailable txn_available p = true ∨ p ∈ prefilledPositions next txs) := by
  induction txs generalizing i next txn_available with
  | nil =>
    refine ⟨true, txn_available, rfl, ?_, fun _ => ⟨rfl, fun p => ?_⟩⟩
    · exact iff_of_true rfl ⟨fun p hp => (nomatch hp), fun k q hk => (nomatch hk)⟩
    · simp [prefilledPositions]
  | cons p rest ih =>
    rw [length_cons] at hlen
    have hlast : (next : Int) - 1 + (p.index.toNat + 1) = ((next + p.index.toNat : Nat) : Int) := by
      omega
    rw [prefillRun, prefillsFit_cons]
    simp only [hlast, Int.toNat_natCast]
    split
    · next hnull => exact ⟨false, _, rfl, by simp [hnull], fun h => (nomatch h)⟩
    next hnull =>
    split
    · next hbig => exact ⟨false, _, rfl, by simp; omega, fun h => (nomatch h)⟩
    next hbig =>
    split
    · next hfar => exact ⟨false, _, rfl, by simp; omega, fun h => (nomatch h)⟩
    next hfar =>
    have hlt : next + p.index.toNat < txn_available.length := by omega
    rw [writeAt_of_lt hlt]
    obtain ⟨valid, filled, hrun, hvalid, hfilled⟩ :=
      @ih (i + 1) (next + p.index.toNat + 1)
        (txn_available.set (next + p.index.toNat) (some p.tx)) (by rw [length_set]; omega)
    have hnext : ((next + p.index.toNat + 1 : Nat) : Int) - 1 = (next + p.index.toNat : Nat) := by
      omega
    rw [hnext] at hrun
    refine ⟨valid, filled, hrun, ?_, fun h => ?_⟩
    · rw [hvalid]
      have hnull' : p.tx.isNull = false := by simpa using hnull
      have hpos : next + p.index.toNat ≤ 65535 ∧ next + p.index.toNat ≤ nShort + i := by omega
      exact ⟨fun h => ⟨hnull', hpos, h⟩, fun h => h.2.2⟩
    · obtain ⟨hflen, hav⟩ := hfilled h
      rw [length_set] at hflen
      refine ⟨hflen, fun q => ?_⟩
      rw [hav, isAvailable_set hlt, prefilledPositions, mem_cons, or_assoc]

/-! ## Short ids -/

/-- The positions at which there is a transaction. -/
structure Occupied (txn_available : List (Option CTransaction)) (taken : List Nat) : Prop where
  iff_mem : ∀ p, isAvailable txn_available p = true ↔ p ∈ taken

variable {taken : List Nat}

theorem Occupied.readAt {txn_available : List (Option CTransaction)}
    (h : Occupied txn_available taken) {p : Nat} (hp : p < txn_available.length) :
    ∃ slot, readAt txn_available p = .ok slot ∧ (slot.isSome = true ↔ p ∈ taken) := by
  refine ⟨txn_available[p], readAt_eq_ok.mpr (getElem?_eq_getElem hp), ?_⟩
  rw [← h.iff_mem, isAvailable, getElem?_eq_getElem hp]
  rfl

variable {passes : Nat} {index_offset : UInt16}

theorem skipRun_of_gap {txn_available : List (Option CTransaction)}
    (h : Occupied txn_available taken) {g : Nat} (hle : i + index_offset.toNat ≤ g)
    (hlt : g < txn_available.length) (hfar : g - i ≤ 65535)
    (htaken : ∀ p, i + index_offset.toNat ≤ p → p < g → p ∈ taken) (hgap : g ∉ taken)
    (hpasses : g < i + index_offset.toNat + passes) :
    skipRun txn_available i passes index_offset = .ok (UInt16.ofNat (g - i)) := by
  induction passes generalizing index_offset with
  | zero => omega
  | succ passes ih =>
    obtain ⟨slot, hread, hslot⟩ := h.readAt (p := i + index_offset.toNat) (by omega)
    rw [skipRun, hread]
    show (if slot.isSome = true then skipRun txn_available i passes (index_offset + 1)
      else .ok index_offset) = _
    by_cases hg : i + index_offset.toNat = g
    · rw [if_neg (fun hs => hgap (hg ▸ hslot.mp hs))]
      have hoff : g - i = index_offset.toNat := by omega
      rw [hoff, UInt16.ofNat_toNat]
    · have hmem := htaken (i + index_offset.toNat) (Nat.le_refl _) (by omega)
      have hnext : (index_offset + 1).toNat = index_offset.toNat + 1 := by
        rw [UInt16.toNat_add]
        exact Nat.mod_eq_of_lt (by show _ + 1 < 65536; omega)
      rw [if_pos (hslot.mpr hmem)]
      refine ih ?_ ?_ ?_
      · omega
      · exact fun p hp => htaken p (by omega)
      · omega

theorem skipRun_endless {txn_available : List (Option CTransaction)}
    (h : Occupied txn_available taken) (hlen : 65536 ≤ txn_available.length)
    (hall : ∀ p < 65536, p ∈ taken) (passes : Nat) (index_offset : UInt16) :
    skipRun txn_available 0 passes index_offset = .error .unfinished := by
  induction passes generalizing index_offset with
  | zero => rfl
  | succ passes ih =>
    have hoff : 0 + index_offset.toNat < 65536 := by
      have := index_offset.toNat_lt
      omega
    obtain ⟨slot, hread, hslot⟩ := h.readAt (p := 0 + index_offset.toNat) (by omega)
    rw [skipRun, hread]
    show (if slot.isSome = true then skipRun txn_available 0 passes (index_offset + 1)
      else .ok index_offset) = _
    rw [if_pos (hslot.mpr (hall _ hoff)), ih]

/-- The short ids from index `i` on, filed under the low bits of the free positions. -/
noncomputable def filed (taken : List Nat) : Nat → List UInt64 → Assignments
  | _, [] => []
  | i, id :: rest => (id, UInt16.ofNat (gap taken i)) :: filed taken (i + 1) rest

/-- The search comes to the short id at index `j`: no bucket was too full before. -/
def Reached (env : CompactEnv) (inserted ids : List UInt64) (j : Nat) : Prop :=
  ∀ k id, k < j → ids[k]? = some id → env.bucketSize (inserted ++ ids.take (k + 1)) id ≤ 12

theorem filed_map_fst (taken : List Nat) (i : Nat) (ids : List UInt64) :
    (filed taken i ids).map Prod.fst = ids := by
  induction ids generalizing i with
  | nil => rfl
  | cons id rest ih => rw [filed, map_cons, ih]

theorem filed_getElem? (taken : List Nat) (i : Nat) (ids : List UInt64) (k : Nat) :
    (filed taken i ids)[k]? = ids[k]?.map fun id => (id, UInt16.ofNat (gap taken (i + k))) := by
  induction ids generalizing i k with
  | nil => rfl
  | cons id rest ih =>
    cases k with
    | zero => rfl
    | succ k =>
      rw [filed, getElem?_cons_succ, ih, getElem?_cons_succ]
      have hidx : i + 1 + k = i + (k + 1) := by omega
      rw [hidx]

variable {env : CompactEnv} {ids : List UInt64}

theorem reached_cons {inserted : List UInt64} {id : UInt64} {j : Nat} :
    Reached env inserted (id :: ids) (j + 1) ↔
      env.bucketSize (inserted ++ [id]) id ≤ 12 ∧ Reached env (inserted ++ [id]) ids j := by
  constructor
  · intro h
    refine ⟨h 0 id (Nat.succ_pos j) rfl, fun k id' hk hid => ?_⟩
    have := h (k + 1) id' (Nat.succ_lt_succ hk) hid
    rwa [take_succ_cons, append_cons] at this
  · rintro ⟨hfirst, hrest⟩ k id' hk hid
    cases k with
    | zero =>
      cases hid
      exact hfirst
    | succ k =>
      have := hrest k id' (Nat.lt_of_succ_lt_succ hk) hid
      rwa [take_succ_cons, append_cons]

variable {assigned : Assignments}

theorem indexRun_spec {txn_available : List (Option CTransaction)}
    (h : Occupied txn_available taken)
    (hlt : ∀ k < i + ids.length, gap taken k < txn_available.length)
    (htaken : ids ≠ [] → taken.length ≤ 65535) (hpasses : txn_available.length < passes)
    (hbehind : i + index_offset.toNat ≤ gap taken i)
    (hbetween : ∀ p, i + index_offset.toNat ≤ p → p < gap taken i → p ∈ taken) :
    ∃ even k, indexRun env passes txn_available i index_offset ids assigned =
        .ok (even, assigned ++ filed taken i (ids.take k)) ∧ k ≤ ids.length ∧
      (∀ j < ids.length, j < k ↔ Reached env (assigned.map Prod.fst) ids j) ∧
      (even = true ↔ Reached env (assigned.map Prod.fst) ids ids.length) ∧
      (even = true → k = ids.length) := by
  induction ids generalizing i index_offset assigned with
  | nil =>
    refine ⟨true, 0, ?_, Nat.le_refl _, fun j hj => (nomatch hj), ?_, fun _ => rfl⟩
    · rw [indexRun, take_zero, filed, append_nil]
    · exact iff_of_true rfl fun k id hk => (nomatch hk)
  | cons id rest ih =>
    rw [length_cons] at hlt
    have hgap := hlt i (by omega)
    have htaken := htaken (cons_ne_nil _ _)
    have hle := gap_le taken i
    have hskip := skipRun_of_gap h hbehind hgap (by omega) hbetween (gap_notMem taken i)
      (by omega : gap taken i < i + index_offset.toNat + passes)
    have hoff : (UInt16.ofNat (gap taken i - i)).toNat = gap taken i - i :=
      UInt16.toNat_ofNat_of_lt' (by show _ < 65536; omega)
    have hpos : i + (gap taken i - i) = gap taken i := by omega
    have hids : (assigned ++ [(id, UInt16.ofNat (gap taken i))]).map Prod.fst =
        assigned.map Prod.fst ++ [id] := by
      rw [map_append]
      rfl
    rw [indexRun, hskip]
    simp only [bind, Except.bind, hoff, hpos, hids]
    split
    · next hfull =>
      -- the loop stops behind this short id
      have hno : ∀ j, ¬Reached env (assigned.map Prod.fst) (id :: rest) (j + 1) :=
        fun j hj => absurd (reached_cons.mp hj).1 (by omega)
      refine ⟨false, 1, rfl, by simp, fun j hj => ?_, ?_, fun hf => (nomatch hf)⟩
      · cases j with
        | zero => exact iff_of_true (Nat.zero_lt_one) fun k id' hk => (nomatch hk)
        | succ j => exact iff_of_false (by omega) (hno j)
      · exact iff_of_false Bool.false_ne_true (hno _)
    · next hroom =>
      have hstep : gap taken i < gap taken (i + 1) := gap_strictMono taken (Nat.lt_add_one i)
      obtain ⟨even, k, hrun, hk, hreach, heven, hall⟩ :=
        @ih (i + 1) (UInt16.ofNat (gap taken i - i))
          (assigned ++ [(id, UInt16.ofNat (gap taken i))])
          (fun k hk => hlt k (by omega)) (fun _ => htaken) (by omega)
          (fun p hp hpg => mem_of_between (by omega : gap taken i < p) hpg)
      rw [hids] at hreach heven
      have hbucket : env.bucketSize (assigned.map Prod.fst ++ [id]) id ≤ 12 := by omega
      refine ⟨even, k + 1, ?_, by simpa using hk, fun j hj => ?_, ?_, fun he => ?_⟩
      · rw [hrun, take_succ_cons, filed, append_assoc]
        rfl
      · cases j with
        | zero => exact iff_of_true (Nat.succ_pos k) fun k id' hk => (nomatch hk)
        | succ j =>
          rw [reached_cons, ← hreach j (by simpa using hj)]
          exact ⟨fun hlt => ⟨hbucket, by omega⟩, fun hr => by omega⟩
      · rw [heven, length_cons, reached_cons]
        exact ⟨fun hr => ⟨hbucket, hr⟩, fun hr => hr.2⟩
      · rw [hall he, length_cons]

/-! ## More passes -/

variable {r : UInt16} {passes' : Nat}

theorem skipRun_mono {txn_available : List (Option CTransaction)}
    (h : skipRun txn_available i passes index_offset = .ok r) (hle : passes ≤ passes')
    : skipRun txn_available i passes' index_offset = .ok r := by
  induction passes generalizing index_offset passes' with
  | zero => cases h
  | succ passes ih =>
    obtain ⟨passes', rfl⟩ := Nat.exists_eq_add_one.mpr (by omega : 0 < passes')
    obtain ⟨slot, hread, h⟩ := bind_eq_ok.mp h
    refine bind_eq_ok.mpr ⟨slot, hread, ?_⟩
    split at h
    · next htaken =>
      rw [if_pos htaken]
      exact ih h (by omega)
    · next hfree =>
      rw [if_neg hfree]
      exact h

theorem indexRun_mono {txn_available : List (Option CTransaction)} {r : Bool × Assignments}
    (h : indexRun env passes txn_available i index_offset ids assigned = .ok r)
    (hle : passes ≤ passes') :
    indexRun env passes' txn_available i index_offset ids assigned = .ok r := by
  induction ids generalizing i index_offset assigned with
  | nil => exact h
  | cons id rest ih =>
    obtain ⟨off, hskip, h⟩ := bind_eq_ok.mp h
    refine bind_eq_ok.mpr ⟨off, skipRun_mono hskip hle, ?_⟩
    simp only at h ⊢
    split at h
    · next hfull =>
      rw [if_pos hfull]
      exact h
    · next hroom =>
      rw [if_neg hroom]
      exact ih h

end Rcoin
