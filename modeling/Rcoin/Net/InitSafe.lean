/-
  When `InitData` (src/blockencodings.cpp) returns, stays within its vectors,
  dereferences no null pointer and files every short id under its position.
-/
import Rcoin.Net.InitScan

namespace Rcoin

open Fallible Gaps List PartiallyDownloadedBlock CBlockHeaderAndShortTxIDs Slot

/-! ## The matches of a short id -/

variable {E : List (Uint256 × Option CTransaction)}

section

variable (env : CompactEnv) (c : CBlockHeaderAndShortTxIDs)

/-- The transactions of the mempool that match a short id. -/
def poolMatches (P : List (Uint256 × CTransaction)) (id : UInt64) : List CTransaction :=
  (P.filter fun x => c.getShortID env x.1 == id).map Prod.snd

/-- The extra transactions that match a short id. -/
def extraMatches (E : List (Uint256 × Option CTransaction)) (id : UInt64) :
    List (Option CTransaction) :=
  (E.filter fun x => c.getShortID env x.1 == id).map Prod.snd

/-- All matches, in the order in which they are seen. -/
def allMatches (P : List (Uint256 × CTransaction)) (E : List (Uint256 × Option CTransaction))
    (id : UInt64) : List (Option CTransaction) :=
  (poolMatches env c P id).map some ++ extraMatches env c E id

/-- A transaction is kept for a short id: it is the first match, it is the only one of
    the mempool if it is one of the mempool, and all other matches have its witness
    hash. -/
def HoldsTx (P : List (Uint256 × CTransaction)) (E : List (Uint256 × Option CTransaction))
    (id : UInt64) : Prop :=
  (poolMatches env c P id).length ≤ 1 ∧ ∃ tx rest, allMatches env c P E id = some tx :: rest ∧
    ∀ other ∈ rest, other.map env.getWitnessHash = some (env.getWitnessHash tx)

/-- It is counted: a transaction is kept, or the first match is a null pointer. -/
def Counts (P : List (Uint256 × CTransaction)) (E : List (Uint256 × Option CTransaction))
    (id : UInt64) : Prop :=
  HoldsTx env c P E id ∨ ∃ rest, allMatches env c P E id = none :: rest

/-- The slots after a part of the mempool and a part of the extra transactions. -/
def slotsAfter (P : List (Uint256 × CTransaction)) (E : List (Uint256 × Option CTransaction)) :
    UInt64 → Slot :=
  E.foldl (extraSlots env c) (P.foldl (poolSlots env c) fun _ => .untouched)

variable {env c}

theorem foldl_poolSlots (P : List (Uint256 × CTransaction)) (slots : UInt64 → Slot) (id : UInt64) :
    P.foldl (poolSlots env c) slots id =
      (poolMatches env c P id).foldl (fun slot tx => slot.fromPool tx) (slots id) := by
  induction P generalizing slots with
  | nil => rfl
  | cons x P ih =>
    rw [foldl_cons, ih, poolMatches, poolMatches]
    by_cases hx : c.getShortID env x.1 = id
    · subst hx
      rw [filter_cons_of_pos (by simp), map_cons, foldl_cons, poolSlots,
        Function.update_self]
    · rw [filter_cons_of_neg (by simpa using hx), poolSlots,
        Function.update_of_ne (Ne.symm hx)]

theorem foldl_extraSlots (E : List (Uint256 × Option CTransaction)) (slots : UInt64 → Slot)
    (id : UInt64) :
    E.foldl (extraSlots env c) slots id =
      (extraMatches env c E id).foldl (fun slot tx => slot.fromExtra env tx) (slots id) := by
  induction E generalizing slots with
  | nil => rfl
  | cons x E ih =>
    rw [foldl_cons, ih, extraMatches, extraMatches]
    by_cases hx : c.getShortID env x.1 = id
    · subst hx
      rw [filter_cons_of_pos (by simp), map_cons, foldl_cons, extraSlots,
        Function.update_self]
    · rw [filter_cons_of_neg (by simpa using hx), extraSlots,
        Function.update_of_ne (Ne.symm hx)]

theorem foldl_fromPool_collided (l : List CTransaction) :
    l.foldl (fun slot tx => slot.fromPool tx) collided = .collided := by
  induction l with
  | nil => rfl
  | cons tx l ih => exact ih

theorem foldl_fromExtra_collided (l : List (Option CTransaction)) :
    l.foldl (fun slot tx => slot.fromExtra env tx) collided = .collided := by
  induction l with
  | nil => rfl
  | cons tx l ih => exact ih

theorem foldl_fromExtra_empty (l : List (Option CTransaction)) :
    l.foldl (fun slot tx => slot.fromExtra env tx) empty = .empty := by
  induction l with
  | nil => rfl
  | cons tx l ih => exact ih

variable (env) in
theorem foldl_fromExtra_holds (tx : CTransaction) (l : List (Option CTransaction)) :
    ((∀ other ∈ l, other.map env.getWitnessHash = some (env.getWitnessHash tx)) ∧
        l.foldl (fun slot other => slot.fromExtra env other) (holds tx) = .holds tx) ∨
      (¬(∀ other ∈ l, other.map env.getWitnessHash = some (env.getWitnessHash tx)) ∧
        l.foldl (fun slot other => slot.fromExtra env other) (holds tx) = .collided) := by
  induction l with
  | nil => exact .inl ⟨fun other hother => (nomatch hother), rfl⟩
  | cons other l ih =>
    rw [forall_mem_cons, foldl_cons]
    by_cases hother : other.map env.getWitnessHash = some (env.getWitnessHash tx)
    · have hstep : (holds tx).fromExtra env other = .holds tx := if_pos hother
      rw [hstep]
      rcases ih with ⟨hall, heq⟩ | ⟨hnot, heq⟩
      · exact .inl ⟨⟨hother, hall⟩, heq⟩
      · exact .inr ⟨fun h => hnot h.2, heq⟩
    · have hstep : (holds tx).fromExtra env other = .collided := if_neg hother
      rw [hstep]
      exact .inr ⟨fun h => hother h.1, foldl_fromExtra_collided l⟩

variable (env c) in
theorem slotsAfter_cases (P : List (Uint256 × CTransaction))
    (E : List (Uint256 × Option CTransaction)) (id : UInt64) :
    (HoldsTx env c P E id ∧ ∃ tx, slotsAfter env c P E id = .holds tx) ∨
      (¬HoldsTx env c P E id ∧ (∃ rest, allMatches env c P E id = none :: rest) ∧
        slotsAfter env c P E id = .empty) ∨
      (¬Counts env c P E id ∧
        (slotsAfter env c P E id = .untouched ∨ slotsAfter env c P E id = .collided)) := by
  rw [Counts, HoldsTx, slotsAfter, foldl_extraSlots, foldl_poolSlots, allMatches]
  generalize poolMatches env c P id = pool
  generalize extraMatches env c E id = extra
  match pool with
  -- two from the pool collide
  | tx :: tx' :: pool =>
    refine .inr (.inr ⟨?_, .inr ?_⟩)
    · rintro (⟨hlen, -⟩ | ⟨rest, hnone⟩)
      · simp at hlen
      · cases hnone
    · show extra.foldl _ (pool.foldl _ collided) = _
      rw [foldl_fromPool_collided, foldl_fromExtra_collided]
  | [tx] =>
    rcases foldl_fromExtra_holds env tx extra with ⟨hall, heq⟩ | ⟨hnot, heq⟩
    · exact .inl ⟨⟨le_refl 1, tx, extra, rfl, hall⟩, tx, heq⟩
    · refine .inr (.inr ⟨?_, .inr heq⟩)
      rintro (⟨-, tx', rest, hcons, hall⟩ | ⟨rest, hnone⟩)
      · cases hcons
        exact hnot hall
      · cases hnone
  | [] =>
    match extra with
    | [] =>
      refine .inr (.inr ⟨?_, .inl rfl⟩)
      rintro (⟨-, tx', rest, hcons, -⟩ | ⟨rest, hnone⟩)
      · cases hcons
      · cases hnone
    | none :: extra =>
      refine .inr (.inl ⟨?_, ⟨extra, rfl⟩, foldl_fromExtra_empty extra⟩)
      rintro ⟨-, tx', rest, hcons, -⟩
      cases hcons
    | some tx :: extra =>
      rcases foldl_fromExtra_holds env tx extra with ⟨hall, heq⟩ | ⟨hnot, heq⟩
      · exact .inl ⟨⟨Nat.zero_le 1, tx, extra, rfl, hall⟩, tx, heq⟩
      · refine .inr (.inr ⟨?_, .inr heq⟩)
        rintro (⟨-, tx', rest, hcons, hall⟩ | ⟨rest, hnone⟩)
        · cases hcons
          exact hnot hall
        · cases hnone

variable {P : List (Uint256 × CTransaction)} {id : UInt64}

theorem slotsAfter_holds_iff :
    (∃ tx, slotsAfter env c P E id = .holds tx) ↔ HoldsTx env c P E id := by
  rcases slotsAfter_cases env c P E id with
    ⟨h, hslot⟩ | ⟨hno, -, hslot⟩ | ⟨hno, hslot | hslot⟩
  · exact iff_of_true hslot h
  all_goals
    rw [hslot]
    refine iff_of_false (fun ⟨tx, htx⟩ => (nomatch htx)) ?_
  · exact hno
  · exact fun h => hno (.inl h)
  · exact fun h => hno (.inl h)

theorem slotsAfter_counted_iff :
    (slotsAfter env c P E id).counted = true ↔ Counts env c P E id := by
  rcases slotsAfter_cases env c P E id with
    ⟨h, tx, hslot⟩ | ⟨-, hnone, hslot⟩ | ⟨hno, hslot | hslot⟩
  · rw [hslot]
    exact iff_of_true rfl (.inl h)
  · rw [hslot]
    exact iff_of_true rfl (.inr hnone)
  · rw [hslot]
    exact iff_of_false Bool.false_ne_true hno
  · rw [hslot]
    exact iff_of_false Bool.false_ne_true hno

end

/-! ## The map of short ids -/

theorem keys_foldl_insert (assigned : Assignments) (m : ShortIDMap) :
    (assigned.foldl (fun m (id, p) => m.insert id p) m).keys.toFinset =
      m.keys.toFinset ∪ (assigned.map Prod.fst).toFinset := by
  induction assigned generalizing m with
  | nil => simp
  | cons a assigned ih =>
    rw [foldl_cons, ih, List.map_cons, toFinset_cons]
    ext i
    simp only [Finset.mem_union, List.mem_toFinset, Finset.mem_insert, ← AList.mem_keys,
      AList.mem_insert]
    tauto

variable {assigned : Assignments}

theorem lookup_foldl_insert (hnd : (assigned.map Prod.fst).Nodup) (m : ShortIDMap) (id : UInt64)
    (p : UInt16) :
    (assigned.foldl (fun m (id, p) => m.insert id p) m).lookup id = some p ↔
      (id, p) ∈ assigned ∨ id ∉ assigned.map Prod.fst ∧ m.lookup id = some p := by
  induction assigned generalizing m with
  | nil => simp
  | cons a assigned ih =>
    obtain ⟨i, q⟩ := a
    obtain ⟨hnot, hnd⟩ := nodup_cons.mp hnd
    rw [foldl_cons, ih hnd, Maps.lookup_insert, List.map_cons, List.mem_cons, List.mem_cons]
    by_cases hid : id = i
    · subst hid
      have hno : ∀ q', (id, q') ∉ assigned :=
        fun q' hq' => hnot (List.mem_map.mpr ⟨_, hq', rfl⟩)
      simp [hno, hnot, eq_comm]
    · simp [hid]

theorem keys_shortIDMap_length (assigned : Assignments) :
    (shortIDMap assigned).keys.length = assigned.length ↔ (assigned.map Prod.fst).Nodup := by
  have hkeys : (shortIDMap assigned).keys.toFinset = (assigned.map Prod.fst).toFinset := by
    rw [shortIDMap, keys_foldl_insert, AList.keys_empty]
    simp
  have hcard := toFinset_card_of_nodup (AList.keys_nodup (shortIDMap assigned))
  rw [hkeys, List.card_toFinset] at hcard
  rw [← hcard]
  have hlen : assigned.length = (assigned.map Prod.fst).length := length_map .. |>.symm
  rw [hlen]
  constructor
  · intro h
    have heq := (dedup_sublist (assigned.map Prod.fst)).eq_of_length h
    exact List.dedup_eq_self.mp heq
  · intro hnd
    rw [hnd.dedup]

/-! ## `InitData` -/

section

variable (env : CompactEnv) (c : CBlockHeaderAndShortTxIDs)
  (vTxHashes : List (Uint256 × CTransaction))
  (extra_txn : List (Uint256 × Option CTransaction))

/-- The positions of the prefilled transactions. -/
def CBlockHeaderAndShortTxIDs.taken : List Nat := prefilledPositions 0 c.prefilledtxn

/-- With some number of passes `InitData` returns, without a fault, and it has filed
    short ids in order, each under the position that many free positions lie before:
    all of them where it returns `READ_STATUS_OK`. -/
def InitDataSafe : Prop :=
  ∃ passes r, initDataRun passes env {} c vTxHashes extra_txn = .ok r ∧
    (∀ (i : Nat) (id : UInt64) (p : UInt16), r.assigned[i]? = some (id, p) →
      c.shorttxids[i]? = some id ∧ p.toNat = gap c.taken i) ∧
    (r.status = .ok → r.assigned.map Prod.fst = c.shorttxids)

/-- `InitData` gets past the prefill loop. -/
structure PastPrefill : Prop where
  notNull : c.header.isNull = false
  notEmpty : (c.shorttxids.isEmpty && c.prefilledtxn.isEmpty) = false
  weight : c.shorttxids.length + c.prefilledtxn.length ≤
    MAX_BLOCK_WEIGHT / MIN_SERIALIZABLE_TRANSACTION_WEIGHT
  fit : PrefillsFit c.shorttxids.length 0 0 c.prefilledtxn

/-- Every short id that the loop comes to, and the prefilled transactions, fit into
    2^16 positions. -/
def PositionsFit : Prop :=
  ∀ i < c.shorttxids.length, Reached env [] c.shorttxids i → i + c.prefilledtxn.length < 65536

/-- The loop over the short ids comes to its end, and they differ. -/
def AllFiled : Prop :=
  Reached env [] c.shorttxids c.shorttxids.length ∧ c.shorttxids.Nodup

/-- Every short id counts. -/
def AllCount (P : List (Uint256 × CTransaction)) (E : List (Uint256 × Option CTransaction)) :
    Prop :=
  ∀ id ∈ c.shorttxids, Counts env c P E id

/-- The part of the mempool that is looked at. -/
structure PoolPart (P : List (Uint256 × CTransaction)) : Prop where
  isPrefix : P <+: vTxHashes
  before : ∀ P', P' <+: P → P' ≠ [] → P' ≠ P → ¬AllCount env c P' []
  stops : P = vTxHashes ∨ P ≠ [] ∧ AllCount env c P []

/-- No null pointer among the extra transactions that are looked at has a listed short
    id for which a transaction is kept. -/
def NullSafe : Prop :=
  ∀ P E hash, PoolPart env c vTxHashes P → E ++ [(hash, none)] <+: extra_txn →
    (∀ E', E' <+: E → E' ≠ [] → ¬AllCount env c P E') →
    c.getShortID env hash ∈ c.shorttxids → ¬HoldsTx env c P E (c.getShortID env hash)

variable {env c vTxHashes extra_txn}

theorem allCounted_iff : AllCounted c.shorttxids (slotsAfter env c P E) ↔ AllCount env c P E :=
  forall₂_congr fun _ _ => slotsAfter_counted_iff

theorem poolPart_iff : PoolPart env c vTxHashes P ↔
      Examined env c c.shorttxids (fun _ => .untouched) P vTxHashes := by
  have hcount : ∀ P', AllCounted c.shorttxids (P'.foldl (poolSlots env c) fun _ => .untouched) ↔
      AllCount env c P' [] := fun P' => allCounted_iff (P := P') (E := [])
  constructor
  · intro h
    refine ⟨h.isPrefix, fun P' hpre hnil hne => ?_, ?_⟩
    · rw [hcount]
      exact h.before P' hpre hnil hne
    · rw [hcount]
      exact h.stops
  · intro h
    refine ⟨h.isPrefix, fun P' hpre hnil hne => ?_, ?_⟩
    · rw [← hcount]
      exact h.before P' hpre hnil hne
    · rw [← hcount]
      exact h.stops

theorem nullSafe_iff (hP : PoolPart env c vTxHashes P) : NullSafe env c vTxHashes extra_txn ↔
      ExtraSafe env c c.shorttxids (slotsAfter env c P []) extra_txn := by
  have hafter : ∀ E, E.foldl (extraSlots env c) (slotsAfter env c P []) = slotsAfter env c P E :=
    fun E => rfl
  constructor
  · rintro h E ⟨hash, tx⟩ hpre hbefore ⟨rfl, hid, hheld⟩
    refine h P E hash hP hpre (fun E' hE' hnil => ?_) hid (slotsAfter_holds_iff.mp hheld)
    rw [← allCounted_iff]
    exact hbefore E' hE' hnil
  · intro h Q E hash hQ hpre hbefore hid hheld
    obtain rfl := (poolPart_iff.mp hP).eq (poolPart_iff.mp hQ)
    refine h E (hash, none) hpre (fun E' hE' hnil => ?_) ⟨rfl, hid, ?_⟩
    · rw [hafter, allCounted_iff]
      exact hbefore E' hE' hnil
    · rw [hafter]
      exact slotsAfter_holds_iff.mpr hheld

/-! ### Past the prefill loop -/

theorem PastPrefill.taken_lt (h : PastPrefill c) {p : Nat} (hp : p ∈ c.taken) :
    p < 65536 ∧ p < c.shorttxids.length + c.prefilledtxn.length := by
  obtain ⟨k, hk⟩ := mem_iff_getElem?.mp hp
  have hpos := h.fit.position k p hk
  have hklt := (List.getElem?_eq_some_iff.mp hk).1
  rw [taken, length_prefilledPositions] at hklt
  omega

theorem CBlockHeaderAndShortTxIDs.length_taken : c.taken.length = c.prefilledtxn.length :=
  length_prefilledPositions ..

theorem CBlockHeaderAndShortTxIDs.nodup_taken : c.taken.Nodup := nodup_prefilledPositions ..

variable {k : Nat}

theorem PastPrefill.gap_lt_size (h : PastPrefill c) (hk : k < c.shorttxids.length) :
    gap c.taken k < c.shorttxids.length + c.prefilledtxn.length := by
  refine (gap_lt_iff c.nodup_taken fun p hp => (h.taken_lt hp).2).mpr ?_
  rw [c.length_taken]
  omega

theorem PastPrefill.gap_lt_iff (h : PastPrefill c) :
    gap c.taken k < 65536 ↔ k + c.prefilledtxn.length < 65536 := by
  rw [Gaps.gap_lt_iff c.nodup_taken fun p hp => (h.taken_lt hp).1, c.length_taken]

variable (env vTxHashes extra_txn) in
theorem PastPrefill.initDataRun (h : PastPrefill c) : ∃ filled : List (Option CTransaction),
    Occupied filled c.taken ∧
    filled.length = c.shorttxids.length + c.prefilledtxn.length ∧
    ∀ passes, initDataRun passes env {} c vTxHashes extra_txn =
      (indexRun env passes filled 0 0 c.shorttxids [] >>= fun (even, assigned) =>
        let b : PartiallyDownloadedBlock := {
          header := c.header
          txn_available := filled
          prefilled_count := UInt64.ofNat c.prefilledtxn.length }
        if !even then .ok { status := .failed, block := b, assigned := assigned }
        else b.scanRun env c vTxHashes extra_txn assigned) := by
  obtain ⟨valid, filled, hrun, hvalid, hfilled⟩ :=
    @prefillRun_spec 0 c.prefilledtxn 0 c.shorttxids.length
      (replicate (c.shorttxids.length + c.prefilledtxn.length) none) (by simp)
  obtain rfl := hvalid.mpr h.fit
  obtain ⟨hlen, hav⟩ := hfilled rfl
  rw [length_replicate] at hlen
  refine ⟨filled, ⟨fun p => ?_⟩, hlen, fun passes => ?_⟩
  · have hnone : isAvailable (replicate (c.shorttxids.length + c.prefilledtxn.length)
        (none : Option CTransaction)) p = false := by
      unfold isAvailable
      rw [getElem?_replicate]
      split <;> rfl
    rw [hav p, hnone]
    simp [taken]
  · have hminus : ((0 : Nat) : Int) - 1 = -1 := rfl
    rw [hminus] at hrun
    have hguard : ¬(c.header.isNull || c.shorttxids.isEmpty && c.prefilledtxn.isEmpty) = true := by
      rw [h.notNull, h.notEmpty]
      decide
    rw [PartiallyDownloadedBlock.initDataRun, if_neg hguard]
    simp only [if_neg (not_lt.mpr h.weight), hrun]
    rfl

variable (env vTxHashes extra_txn) in
theorem initDataRun_of_not_past (h : ¬PastPrefill c) (passes : Nat) : ∃ b,
    initDataRun passes env {} c vTxHashes extra_txn =
      .ok { status := .invalid, block := b } := by
  rw [initDataRun]
  by_cases hguard : (c.header.isNull || c.shorttxids.isEmpty && c.prefilledtxn.isEmpty) = true
  · exact ⟨_, if_pos hguard⟩
  rw [if_neg hguard]
  by_cases hweight : c.shorttxids.length + c.prefilledtxn.length >
      MAX_BLOCK_WEIGHT / MIN_SERIALIZABLE_TRANSACTION_WEIGHT
  · exact ⟨_, if_pos hweight⟩
  obtain ⟨valid, filled, hrun, hvalid, -⟩ :=
    @prefillRun_spec 0 c.prefilledtxn 0 c.shorttxids.length
      (List.replicate (c.shorttxids.length + c.prefilledtxn.length) none) (by simp)
  have hminus : ((0 : Nat) : Int) - 1 = -1 := rfl
  rw [hminus] at hrun
  rw [Bool.not_eq_true, Bool.or_eq_false_iff] at hguard
  have hfalse : valid = false := by
    rw [← Bool.not_eq_true, hvalid]
    exact fun hfit => h ⟨hguard.1, hguard.2, Nat.not_lt.mp hweight, hfit⟩
  subst hfalse
  simp only [if_neg hweight, hrun]
  exact ⟨_, rfl⟩

variable {b : PartiallyDownloadedBlock}

theorem scanRun_assigned {r : InitRun} (h : b.scanRun env c vTxHashes extra_txn assigned = .ok r) :
    r.assigned = assigned := by
  unfold scanRun at h
  simp only at h
  split at h
  · cases h
    rfl
  · obtain ⟨s, -, h⟩ := bind_eq_ok.mp h
    obtain ⟨s', -, h⟩ := bind_eq_ok.mp h
    cases h
    rfl

theorem filed_positions_iff (taken : List Nat) {ids : List UInt64} (hk : k ≤ ids.length) :
    (∀ (i : Nat) (id : UInt64) (p : UInt16), (filed taken 0 (ids.take k))[i]? = some (id, p) →
      ids[i]? = some id ∧ p.toNat = gap taken i) ↔ ∀ i < k, gap taken i < 65536 := by
  constructor
  · intro h i hi
    have hget : (filed taken 0 (ids.take k))[i]? =
        some (ids[i], UInt16.ofNat (gap taken i)) := by
      rw [filed_getElem?, getElem?_take_of_lt hi, getElem?_eq_getElem (by omega),
        Option.map_some, zero_add]
    rw [← (h i _ _ hget).2]
    exact UInt16.toNat_lt _
  · intro h i id p hget
    rw [filed_getElem?, Option.map_eq_some_iff] at hget
    obtain ⟨id', hid, heq⟩ := hget
    cases heq
    rw [getElem?_take] at hid
    split at hid
    · next hi =>
      rw [zero_add]
      exact ⟨hid, UInt16.toNat_ofNat_of_lt' (h i hi)⟩
    · cases hid

theorem PastPrefill.layout (h : PastPrefill c) (hnd : c.shorttxids.Nodup)
    (hfit : ∀ i < c.shorttxids.length, gap c.taken i < 65536) :
    Layout c.shorttxids (shortIDMap (filed c.taken 0 c.shorttxids))
      (c.shorttxids.length + c.prefilledtxn.length) fun k => UInt16.ofNat (gap c.taken k) := by
  have hfst := filed_map_fst c.taken 0 c.shorttxids
  have hnat : ∀ k < c.shorttxids.length, (UInt16.ofNat (gap c.taken k)).toNat = gap c.taken k :=
    fun k hk => UInt16.toNat_ofNat_of_lt' (hfit k hk)
  refine ⟨fun id p => ?_, hnd, ?_, ?_, fun k hk => ?_, fun j k hj hk heq => ?_⟩
  · have hnd' : ((filed c.taken 0 c.shorttxids).map Prod.fst).Nodup := by
      rw [hfst]
      exact hnd
    rw [shortIDMap, lookup_foldl_insert hnd']
    simp only [AList.lookup_empty, reduceCtorEq, and_false, or_false]
    rw [mem_iff_getElem?]
    refine exists_congr fun k => ?_
    rw [filed_getElem?, Option.map_eq_some_iff, zero_add]
    constructor
    · rintro ⟨id', hid, heq⟩
      cases heq
      exact ⟨hid, rfl⟩
    · rintro ⟨hid, rfl⟩
      exact ⟨id, hid, rfl⟩
  · have hweight := h.weight
    have hmax : MAX_BLOCK_WEIGHT / MIN_SERIALIZABLE_TRANSACTION_WEIGHT < 2 ^ 64 := by decide
    omega
  · have hlen : (filed c.taken 0 c.shorttxids).length = c.shorttxids.length := by
      rw [← length_map Prod.fst, hfst]
    rw [← hlen, keys_shortIDMap_length, hfst]
    exact hnd
  · rw [hnat k hk]
    exact h.gap_lt_size hk
  · refine (gap_strictMono c.taken).injective ?_
    rw [← hnat j hj, ← hnat k hk, heq]

variable {filled : List (Option CTransaction)}

theorem PastPrefill.scanned (h : PastPrefill c) (hocc : Occupied filled c.taken)
    (hlen : filled.length = c.shorttxids.length + c.prefilledtxn.length)
    (hfit : ∀ i < c.shorttxids.length, gap c.taken i < 65536) :
    Scanned c.shorttxids (c.shorttxids.length + c.prefilledtxn.length)
      (fun k => UInt16.ofNat (gap c.taken k)) (fun _ => .untouched)
      { txn_available := filled, have_txn := List.replicate filled.length false,
        mempool_count := 0, extra_count := 0 } := by
  have hnat : ∀ k < c.shorttxids.length, (UInt16.ofNat (gap c.taken k)).toNat = gap c.taken k :=
    fun k hk => UInt16.toNat_ofNat_of_lt' (hfit k hk)
  refine ⟨hlen, by rw [length_replicate, hlen], fun k id hk => ?_, fun k id hk => ?_, ?_⟩
  all_goals try have hklt := (List.getElem?_eq_some_iff.mp hk).1
  · have hgap := h.gap_lt_size hklt
    rw [hnat k hklt]
    exact getElem?_replicate_of_lt (by omega)
  · have hgap := h.gap_lt_size hklt
    rw [hnat k hklt]
    obtain ⟨slot, hread, hslot⟩ := hocc.readAt (by omega : gap c.taken k < filled.length)
    rw [readAt_eq_ok.mp hread]
    have hnone : slot = none := by
      rw [← Option.not_isSome_iff_eq_none, hslot]
      exact gap_notMem _ _
    rw [hnone]
    rfl
  · exact (countP_eq_zero.mpr fun id hid => Bool.false_ne_true).symm

variable (env vTxHashes extra_txn) in
theorem PastPrefill.scanRun_iff (h : PastPrefill c) (hocc : Occupied filled c.taken)
    (hlen : filled.length = c.shorttxids.length + c.prefilledtxn.length)
    (hfit : ∀ i < c.shorttxids.length, gap c.taken i < 65536)
    (hb : b.txn_available = filled ∧ b.mempool_count = 0 ∧ b.extra_count = 0) :
    (∃ r, b.scanRun env c vTxHashes extra_txn (filed c.taken 0 c.shorttxids) = .ok r) ↔
      (c.shorttxids.Nodup → NullSafe env c vTxHashes extra_txn) := by
  have hfst := filed_map_fst c.taken 0 c.shorttxids
  have hflen : (filed c.taken 0 c.shorttxids).length = c.shorttxids.length := by
    rw [← length_map Prod.fst, hfst]
  have hkeys := keys_shortIDMap_length (filed c.taken 0 c.shorttxids)
  rw [hflen, hfst] at hkeys
  obtain ⟨htxn, hmem, hextra⟩ := hb
  unfold scanRun
  simp only [htxn, hmem, hextra]
  by_cases hnd : c.shorttxids.Nodup
  · rw [if_neg (not_not.mpr (hkeys.mpr hnd))]
    have hlay := h.layout hnd hfit
    obtain ⟨P, s, hP, hpool, hs⟩ := scanPoolRun_spec hlay (h.scanned hocc hlen hfit) vTxHashes
    rw [hpool]
    obtain ⟨hok, herr⟩ := scanExtraRun_spec hlay hs extra_txn
    have hiff : NullSafe env c vTxHashes extra_txn ↔ _ := nullSafe_iff (poolPart_iff.mpr hP)
    constructor
    · rintro ⟨r, hr⟩ -
      rw [hiff]
      by_contra hno
      obtain ⟨s1, hs1, hr⟩ := bind_eq_ok.mp hr
      cases hs1
      obtain ⟨s', hs', -⟩ := bind_eq_ok.mp hr
      rw [herr hno] at hs'
      cases hs'
    · intro hsafe
      obtain ⟨s', hs'⟩ := hok (hiff.mp (hsafe hnd))
      exact ⟨_, bind_eq_ok.mpr ⟨s, rfl, bind_eq_ok.mpr ⟨s', hs', rfl⟩⟩⟩
  · rw [if_pos fun heq => hnd (hkeys.mp heq)]
    exact iff_of_true ⟨_, rfl⟩ fun hnd' => absurd hnd' hnd

theorem PastPrefill.endless (h : PastPrefill c) (hocc : Occupied filled c.taken)
    (hlen : filled.length = c.shorttxids.length + c.prefilledtxn.length)
    (hfull : c.prefilledtxn.length = 65536) (hids : c.shorttxids ≠ []) (passes : Nat) :
    indexRun env passes filled 0 0 c.shorttxids [] = .error .unfinished := by
  obtain ⟨id, rest, hcons⟩ := exists_cons_of_ne_nil hids
  have hall : ∀ p < 65536, p ∈ c.taken := fun p hp =>
    mem_of_length_eq c.nodup_taken (fun q hq => (h.taken_lt hq).1)
      (by rw [c.length_taken, hfull]) hp
  have hskip := skipRun_endless hocc (by omega) hall passes 0
  rw [hcons, indexRun, hskip]
  rfl

variable (env) in
theorem PastPrefill.indexed (h : PastPrefill c) (hocc : Occupied filled c.taken)
    (hlen : filled.length = c.shorttxids.length + c.prefilledtxn.length)
    (htaken : c.shorttxids ≠ [] → c.taken.length ≤ 65535) :
    ∃ even k, (∃ passes, indexRun env passes filled 0 0 c.shorttxids [] =
        .ok (even, filed c.taken 0 (c.shorttxids.take k))) ∧
      (∀ passes q, indexRun env passes filled 0 0 c.shorttxids [] = .ok q →
        q = (even, filed c.taken 0 (c.shorttxids.take k))) ∧
      k ≤ c.shorttxids.length ∧ (PositionsFit env c ↔ ∀ i < k, gap c.taken i < 65536) ∧
      (even = true ↔ Reached env [] c.shorttxids c.shorttxids.length) ∧
      (even = true → k = c.shorttxids.length) := by
  have hlt : ∀ k < 0 + c.shorttxids.length, gap c.taken k < filled.length := by
    intro k hk
    rw [hlen]
    exact h.gap_lt_size (by omega)
  obtain ⟨even, k, hindex, hk, hreach, heven, hall⟩ :=
    @indexRun_spec 0 c.taken (filled.length + 1) 0 env c.shorttxids [] filled hocc hlt htaken
      (Nat.lt_succ_self _) (Nat.zero_le _) fun p _ hp => mem_of_lt_gap_zero hp
  refine ⟨even, k, ⟨_, hindex⟩, fun passes q hq => ?_, hk, ?_, heven, hall⟩
  · have hmore := indexRun_mono hq (le_max_left passes (filled.length + 1))
    rw [indexRun_mono hindex (le_max_right passes (filled.length + 1))] at hmore
    exact (Except.ok.inj hmore).symm
  · constructor
    · intro hfit i hi
      exact h.gap_lt_iff.mpr (hfit i (by omega) ((hreach i (by omega)).mp hi))
    · intro hgap i hi hr
      exact h.gap_lt_iff.mp (hgap i ((hreach i hi).mpr hr))

variable (env c vTxHashes extra_txn) in
/-- `InitData` returns, stays within its vectors, dereferences no null pointer and files
    the short ids under their positions, exactly where it stops in the prefill loop, or
    the positions fit into 16 bits and no null pointer meets a transaction that is kept
    for its short id. -/
theorem initDataSafe_iff : InitDataSafe env c vTxHashes extra_txn ↔
    (PastPrefill c → PositionsFit env c ∧ (AllFiled env c → NullSafe env c vTxHashes extra_txn)) := by
  by_cases hpast : PastPrefill c
  swap
  · obtain ⟨b, hrun⟩ := initDataRun_of_not_past env vTxHashes extra_txn hpast 0
    refine iff_of_true ⟨0, _, hrun, fun i id p hget => ?_, fun hok => (nomatch hok)⟩
      fun hp => absurd hp hpast
    cases hget
  rw [forall_prop_of_true hpast]
  obtain ⟨filled, hocc, hlen, hrun⟩ := hpast.initDataRun env vTxHashes extra_txn
  by_cases hfull : c.shorttxids ≠ [] ∧ 65535 < c.prefilledtxn.length
  · -- the search for a free position does not end
    have hle : c.taken.length ≤ 65536 :=
      length_le_of_lt c.nodup_taken fun p hp => (hpast.taken_lt hp).1
    rw [c.length_taken] at hle
    refine iff_of_false ?_ ?_
    · rintro ⟨passes, r, hr, -⟩
      rw [hrun, hpast.endless hocc hlen (by omega) hfull.1] at hr
      cases hr
    · rintro ⟨hfit, -⟩
      have := hfit 0 (length_pos_iff.mpr hfull.1) fun k id hk => (nomatch hk)
      omega
  have htaken : c.shorttxids ≠ [] → c.taken.length ≤ 65535 := by
    intro hids
    rw [c.length_taken]
    exact not_lt.mp fun h => hfull ⟨hids, h⟩
  obtain ⟨even, k, ⟨passes, hindex⟩, hsame, hk, hfit, heven, hall⟩ :=
    hpast.indexed env hocc hlen htaken
  have hpositions := filed_positions_iff c.taken hk
  cases even with
  | false =>
    -- a bucket was too full
    have hnot : ¬AllFiled env c := fun hf => Bool.false_ne_true (heven.mpr hf.1)
    rw [iff_true_intro (fun hf => absurd hf hnot : AllFiled env c → _), and_true, hfit]
    constructor
    · rintro ⟨passes', r, hr, hmap, -⟩
      rw [hrun] at hr
      obtain ⟨q, hq, hr⟩ := bind_eq_ok.mp hr
      obtain rfl := hsame passes' q hq
      cases hr
      exact hpositions.mp hmap
    · intro hgap
      refine ⟨passes, _, by rw [hrun, hindex]; rfl, hpositions.mpr hgap, fun hok => ?_⟩
      cases hok
  | true =>
    obtain rfl := hall rfl
    rw [take_length] at hindex hsame hpositions
    have hreached := heven.mp rfl
    have hscan : ∀ hgap : ∀ i < c.shorttxids.length, gap c.taken i < 65536, _ :=
      fun hgap => hpast.scanRun_iff env vTxHashes extra_txn hocc hlen hgap (b := {
          header := c.header
          txn_available := filled
          prefilled_count := UInt64.ofNat c.prefilledtxn.length }) ⟨rfl, rfl, rfl⟩
    constructor
    · rintro ⟨passes', r, hr, hmap, -⟩
      rw [hrun] at hr
      obtain ⟨q, hq, hr⟩ := bind_eq_ok.mp hr
      obtain rfl := hsame passes' q hq
      have hassigned := scanRun_assigned hr
      rw [hassigned] at hmap
      have hgap := hpositions.mp hmap
      exact ⟨hfit.mpr hgap, fun hf => (hscan hgap).mp ⟨r, hr⟩ hf.2⟩
    · rintro ⟨hpos, hnull⟩
      have hgap := hfit.mp hpos
      obtain ⟨r, hr⟩ := (hscan hgap).mpr fun hnd => hnull ⟨hreached, hnd⟩
      have hassigned := scanRun_assigned hr
      refine ⟨passes, r, by rw [hrun, hindex]; exact hr, ?_, fun _ => ?_⟩
      · rw [hassigned]
        exact hpositions.mpr hgap
      · rw [hassigned, filed_map_fst]

end

namespace InitSample

/-- Hashes stand for themselves, and no bucket is too full. -/
def env : CompactEnv where
  shortTxIDSelector := fun _ _ => (0, 0)
  sipHashUint256 := fun _ _ val => UInt64.ofNat val
  getWitnessHash := CTransaction.hash
  bucketSize := fun _ _ => 1
  validation := lenientEnv

/-- A coinbase, and a short id that the zero hash has too. -/
def cmpctblock : CBlockHeaderAndShortTxIDs where
  header := { hash := 1, hashPrevBlock := 0, nTime := 1, nBits := 0x207fffff }
  nonce := 0
  shorttxids := [0]
  prefilledtxn := [⟨0, { hash := 5, vin := [{ prevout := ⟨0, COutPoint.nullIndex⟩ }], vout := [] }⟩]

/-- A transaction of the mempool that has it as well. -/
def tx : CTransaction := { hash := 2 ^ 48, vin := [{ prevout := ⟨3, 0⟩ }], vout := [] }

/-- An empty entry of the ring buffer is dereferenced. -/
theorem not_initDataSafe : ¬InitDataSafe env cmpctblock [(env.getWitnessHash tx, tx)] [(0, none)] := by
  have hnull : ∀ passes, initDataRun (passes + 2) env {} cmpctblock
      [(env.getWitnessHash tx, tx)] [(0, none)] = .error .nullDereference := fun passes => rfl
  rintro ⟨passes, r, hr, -⟩
  match passes with
  | 0 => cases hr
  | 1 => cases hr
  | passes + 2 =>
    rw [hnull passes] at hr
    cases hr

end InitSample

end Rcoin
