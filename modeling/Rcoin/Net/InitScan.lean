/-
  The scans of `InitData` (src/blockencodings.cpp), one short id at a time: what the
  matches of a short id leave in its slot, and when an extra transaction that is a
  null pointer is dereferenced.
-/
import Rcoin.Net.InitData

namespace Rcoin

open Fallible Function List

/-! ## The slot of one short id -/

/-- What has been filed under a short id. -/
inductive Slot where
  | untouched
  /-- A null pointer was filed first. -/
  | empty
  | holds (tx : CTransaction)
  /-- Different transactions match: it is requested. -/
  | collided

namespace Slot

def haveTxn : Slot → Bool
  | untouched => false
  | _ => true

def available : Slot → Option CTransaction
  | holds tx => some tx
  | _ => none

/-- It counts in `mempool_count`. -/
def counted : Slot → Bool
  | empty => true
  | holds _ => true
  | _ => false

/-- A transaction of the mempool matches. -/
def fromPool (tx : CTransaction) : Slot → Slot
  | untouched => holds tx
  | holds _ => collided
  | slot => slot

/-- An extra transaction matches; a null pointer on a transaction does not get this
    far. -/
def fromExtra (env : CompactEnv) (tx : Option CTransaction) : Slot → Slot
  | untouched => tx.elim empty holds
  | holds available =>
    if tx.map env.getWitnessHash = some (env.getWitnessHash available) then holds available
    else collided
  | slot => slot

end Slot

section

variable (env : CompactEnv) (c : CBlockHeaderAndShortTxIDs)

/-- The slots after one more transaction of the mempool. -/
def poolSlots (slots : UInt64 → Slot) (x : Uint256 × CTransaction) : UInt64 → Slot :=
  Function.update slots (c.getShortID env x.1) ((slots (c.getShortID env x.1)).fromPool x.2)

/-- The slots after one more extra transaction. -/
def extraSlots (slots : UInt64 → Slot) (x : Uint256 × Option CTransaction) : UInt64 → Slot :=
  Function.update slots (c.getShortID env x.1) ((slots (c.getShortID env x.1)).fromExtra env x.2)

end

/-! ## The state of a scan -/

theorem set_of_getElem? {α : Type} {v : List α} {i : Nat} {a : α} (h : v[i]? = some a) :
    v.set i a = v := by
  obtain ⟨hi, rfl⟩ := List.getElem?_eq_some_iff.mp h
  exact set_getElem_self hi

/-- Short ids filed at different positions. -/
structure Layout (ids : List UInt64) (m : ShortIDMap) (size : Nat) (pos : Nat → UInt16) : Prop where
  lookup : ∀ id p, m.lookup id = some p ↔ ∃ k, ids[k]? = some id ∧ p = pos k
  nodup : ids.Nodup
  short : ids.length < 2 ^ 64
  keys : m.keys.length = ids.length
  lt_size : ∀ k < ids.length, (pos k).toNat < size
  inj : ∀ j k, j < ids.length → k < ids.length → pos j = pos k → j = k

/-- The vectors hold the slots of the short ids, and `mempool_count` counts them. -/
structure Scanned (ids : List UInt64) (size : Nat) (pos : Nat → UInt16) (slots : UInt64 → Slot)
    (s : ScanState) : Prop where
  length_txn : s.txn_available.length = size
  length_have : s.have_txn.length = size
  have_txn : ∀ k id, ids[k]? = some id → s.have_txn[(pos k).toNat]? = some (slots id).haveTxn
  txn_available : ∀ k id, ids[k]? = some id →
    s.txn_available[(pos k).toNat]? = some (slots id).available
  mempool_count : s.mempool_count.toNat = ids.countP fun id => (slots id).counted

variable {id : UInt64}

theorem countP_update {ids : List UInt64} (hnd : ids.Nodup) (hid : id ∈ ids) (slots : UInt64 → Slot)
    (slot : Slot) :
    (ids.countP fun i => (Function.update slots id slot i).counted) + (slots id).counted.toNat =
      (ids.countP fun i => (slots i).counted) + slot.counted.toNat := by
  induction ids with
  | nil => cases hid
  | cons a ids ih =>
    obtain ⟨hnot, hnd⟩ := nodup_cons.mp hnd
    rw [countP_cons, countP_cons]
    rcases mem_cons.mp hid with rfl | hid
    · have hrest : (ids.countP fun i => (Function.update slots id slot i).counted) =
          ids.countP fun i => (slots i).counted := by
        refine countP_congr fun i hi => ?_
        have hne : i ≠ id := fun heq => hnot (heq ▸ hi)
        rw [update_of_ne hne]
      rw [hrest, update_self]
      cases slot.counted <;> cases (slots id).counted <;> simp
    · have hne : a ≠ id := fun heq => hnot (heq ▸ hid)
      rw [update_of_ne hne]
      have := ih hnd hid
      omega

section

variable {ids : List UInt64} {m : ShortIDMap} {size : Nat} {pos : Nat → UInt16}
  {slots : UInt64 → Slot} {s : ScanState}

variable {k : Nat}

theorem Scanned.have_at (h : Scanned ids size pos slots s) (hk : ids[k]? = some id)
    : readAt s.have_txn (pos k).toNat = .ok (slots id).haveTxn :=
  readAt_eq_ok.mpr (h.have_txn k id hk)

theorem Scanned.available_at (h : Scanned ids size pos slots s) (hk : ids[k]? = some id)
    : readAt s.txn_available (pos k).toNat = .ok (slots id).available :=
  readAt_eq_ok.mpr (h.txn_available k id hk)

theorem Scanned.update (hl : Layout ids m size pos) (h : Scanned ids size pos slots s)
    (hk : ids[k]? = some id) (slot : Slot) {s' : ScanState}
    (htxn : s'.txn_available = s.txn_available.set (pos k).toNat slot.available)
    (hhave : s'.have_txn = s.have_txn.set (pos k).toNat slot.haveTxn)
    (hcount : s'.mempool_count.toNat + (slots id).counted.toNat =
      s.mempool_count.toNat + slot.counted.toNat) :
    Scanned ids size pos (Function.update slots id slot) s' := by
  have hklt : k < ids.length := (List.getElem?_eq_some_iff.mp hk).1
  have hid : id ∈ ids := mem_of_getElem? hk
  have hpos := hl.lt_size k hklt
  -- the other short ids stand at other positions
  have hother : ∀ j i, ids[j]? = some i → i ≠ id → (pos k).toNat ≠ (pos j).toNat := by
    intro j i hj hne heq
    have hjlt : j < ids.length := (List.getElem?_eq_some_iff.mp hj).1
    obtain rfl := hl.inj k j hklt hjlt (UInt16.toNat_inj.mp heq)
    exact hne (Option.some.inj (hj.symm.trans hk))
  have hsame : ∀ j, ids[j]? = some id → j = k := by
    intro j hj
    exact (getElem?_inj (List.getElem?_eq_some_iff.mp hj).1 hl.nodup).mp (hj.trans hk.symm)
  refine ⟨?_, ?_, fun j i hj => ?_, fun j i hj => ?_, ?_⟩
  · rw [htxn, length_set, h.length_txn]
  · rw [hhave, length_set, h.length_have]
  · rw [hhave]
    by_cases hi : i = id
    · subst hi
      obtain rfl := hsame j hj
      rw [getElem?_set_self (by rw [h.length_have]; exact hpos), update_self]
    · rw [getElem?_set_ne (hother j i hj hi), h.have_txn j i hj, update_of_ne hi]
  · rw [htxn]
    by_cases hi : i = id
    · subst hi
      obtain rfl := hsame j hj
      rw [getElem?_set_self (by rw [h.length_txn]; exact hpos), update_self]
    · rw [getElem?_set_ne (hother j i hj hi), h.txn_available j i hj,
        update_of_ne hi]
  · have hupdate := countP_update hl.nodup hid slots slot
    have hbefore := h.mempool_count
    omega

theorem Scanned.of_not_listed (h : Scanned ids size pos slots s) (hid : id ∉ ids) (slot : Slot)
    : Scanned ids size pos (Function.update slots id slot) s := by
  have hsame : ∀ i ∈ ids, Function.update slots id slot i = slots i :=
    fun i hi => update_of_ne (fun heq : i = id => hid (heq ▸ hi)) ..
  refine ⟨h.length_txn, h.length_have, fun k i hk => ?_, fun k i hk => ?_, ?_⟩
  · rw [hsame i (mem_of_getElem? hk)]
    exact h.have_txn k i hk
  · rw [hsame i (mem_of_getElem? hk)]
    exact h.txn_available k i hk
  · rw [h.mempool_count]
    exact countP_congr fun i hi => by rw [hsame i hi]

theorem Scanned.count_eq_iff (hl : Layout ids m size pos) (h : Scanned ids size pos slots s) :
    (s.mempool_count == UInt64.ofNat m.keys.length) = true ↔
      ∀ id ∈ ids, (slots id).counted = true := by
  have hlen : (UInt64.ofNat m.keys.length).toNat = ids.length := by
    rw [hl.keys]
    exact UInt64.toNat_ofNat_of_lt' hl.short
  rw [beq_iff_eq, ← UInt64.toNat_inj, h.mempool_count, hlen, countP_eq_length]

/-! ## One transaction -/

theorem Layout.lookup_cases (hl : Layout ids m size pos) (id : UInt64) :
    (id ∉ ids ∧ m.lookup id = none) ∨ ∃ k, ids[k]? = some id ∧ m.lookup id = some (pos k) := by
  cases hlook : m.lookup id with
  | none =>
    refine .inl ⟨fun hid => ?_, rfl⟩
    obtain ⟨k, hk⟩ := mem_iff_getElem?.mp hid
    have := (hl.lookup id (pos k)).mpr ⟨k, hk, rfl⟩
    rw [hlook] at this
    cases this
  | some p =>
    obtain ⟨k, hk, rfl⟩ := (hl.lookup id p).mp hlook
    exact .inr ⟨k, hk, rfl⟩

theorem Scanned.count_add_one (hl : Layout ids m size pos) (h : Scanned ids size pos slots s)
    (hid : id ∈ ids) (hnot : (slots id).counted = false) :
    (s.mempool_count + 1).toNat = s.mempool_count.toNat + 1 := by
  have hlt : (ids.countP fun i => (slots i).counted) ≠ ids.length := by
    intro hall
    have := countP_eq_length.mp hall id hid
    rw [hnot] at this
    cases this
  have hle := countP_le_length (p := fun i => (slots i).counted) (l := ids)
  have hshort := hl.short
  have hcount := h.mempool_count
  rw [UInt64.toNat_add]
  exact Nat.mod_eq_of_lt (by show _ + 1 < 2 ^ 64; omega)

theorem Scanned.count_sub_one (h : Scanned ids size pos slots s) (hid : id ∈ ids)
    (hcounted : (slots id).counted = true) :
    (s.mempool_count - 1).toNat = s.mempool_count.toNat - 1 ∧ 0 < s.mempool_count.toNat := by
  have hpos : 0 < ids.countP fun i => (slots i).counted := countP_pos_iff.mpr ⟨id, hid, hcounted⟩
  rw [← h.mempool_count] at hpos
  exact ⟨UInt64.toNat_sub_of_le _ _ (UInt64.le_iff_toNat_le.mpr hpos), hpos⟩

variable {env : CompactEnv} {c : CBlockHeaderAndShortTxIDs}

variable (env c) in
theorem scanPoolTxRun_spec (hl : Layout ids m size pos) (h : Scanned ids size pos slots s)
    (x : Uint256 × CTransaction) :
    ∃ s', scanPoolTxRun (m.lookup (c.getShortID env x.1)) x.2 s = .ok s' ∧
      Scanned ids size pos (poolSlots env c slots x) s' := by
  obtain ⟨id, hid⟩ : ∃ id, id = c.getShortID env x.1 := ⟨_, rfl⟩
  rw [poolSlots, ← hid]
  rcases hl.lookup_cases id with ⟨hnot, hlook⟩ | ⟨k, hk, hlook⟩
  · rw [hlook]
    exact ⟨s, rfl, h.of_not_listed hnot _⟩
  have hlt := hl.lt_size k (List.getElem?_eq_some_iff.mp hk).1
  have hwtxn : (pos k).toNat < s.txn_available.length := by rw [h.length_txn]; exact hlt
  have hwhave : (pos k).toNat < s.have_txn.length := by rw [h.length_have]; exact hlt
  have hmem := mem_of_getElem? hk
  have hhave := h.have_at hk
  have havail := h.available_at hk
  rw [hlook]
  simp only [scanPoolTxRun, hhave, havail, writeAt_of_lt hwtxn, writeAt_of_lt hwhave]
  cases hslot : slots id with
  | untouched =>
    refine ⟨_, rfl, h.update hl hk _ rfl rfl ?_⟩
    rw [h.count_add_one hl hmem (by rw [hslot]; rfl), hslot]
    rfl
  | empty =>
    refine ⟨s, rfl, ?_⟩
    show Scanned ids size pos (Function.update slots id .empty) s
    rw [← hslot, update_eq_self]
    exact h
  | collided =>
    refine ⟨s, rfl, ?_⟩
    show Scanned ids size pos (Function.update slots id .collided) s
    rw [← hslot, update_eq_self]
    exact h
  | holds tx =>
    obtain ⟨hsub, hpos⟩ := h.count_sub_one hmem (by rw [hslot]; rfl)
    refine ⟨_, rfl, h.update hl hk .collided rfl ?_ ?_⟩
    · -- `have_txn` was set before
      have hset := h.have_txn k id hk
      rw [hslot] at hset
      exact (set_of_getElem? hset).symm
    · rw [hsub, hslot]
      show _ - 1 + 1 = _ + 0
      omega

/-- An extra transaction is dereferenced where it is a null pointer and its slot holds
    a transaction. -/
def Dereferenced (ids : List UInt64) (slots : UInt64 → Slot) (id : UInt64)
    (tx : Option CTransaction) : Prop :=
  tx = none ∧ id ∈ ids ∧ ∃ held, slots id = .holds held

theorem scanExtraTxRun_spec (hl : Layout ids m size pos) (h : Scanned ids size pos slots s)
    (x : Uint256 × Option CTransaction)
    (hsafe : ¬Dereferenced ids slots (c.getShortID env x.1) x.2) :
    ∃ s', scanExtraTxRun env (m.lookup (c.getShortID env x.1)) x.2 s = .ok s' ∧
      Scanned ids size pos (extraSlots env c slots x) s' := by
  obtain ⟨hash, tx⟩ := x
  obtain ⟨id, hid⟩ : ∃ id, id = c.getShortID env hash := ⟨_, rfl⟩
  rw [extraSlots, ← hid]
  rw [← hid] at hsafe
  rcases hl.lookup_cases id with ⟨hnot, hlook⟩ | ⟨k, hk, hlook⟩
  · rw [hlook]
    exact ⟨s, rfl, h.of_not_listed hnot _⟩
  have hlt := hl.lt_size k (List.getElem?_eq_some_iff.mp hk).1
  have hwtxn : (pos k).toNat < s.txn_available.length := by rw [h.length_txn]; exact hlt
  have hwhave : (pos k).toNat < s.have_txn.length := by rw [h.length_have]; exact hlt
  have hmem := mem_of_getElem? hk
  have hhave := h.have_at hk
  have havail := h.available_at hk
  rw [hlook]
  simp only [scanExtraTxRun, hhave, havail, writeAt_of_lt hwtxn, writeAt_of_lt hwhave]
  cases hslot : slots id with
  | untouched =>
    have hadd := h.count_add_one hl hmem (by rw [hslot]; rfl)
    cases tx with
    | none => exact ⟨_, rfl, h.update hl hk .empty rfl rfl (by rw [hadd, hslot]; rfl)⟩
    | some tx => exact ⟨_, rfl, h.update hl hk (.holds tx) rfl rfl (by rw [hadd, hslot]; rfl)⟩
  | empty =>
    refine ⟨s, rfl, ?_⟩
    show Scanned ids size pos (Function.update slots id .empty) s
    rw [← hslot, update_eq_self]
    exact h
  | collided =>
    refine ⟨s, rfl, ?_⟩
    show Scanned ids size pos (Function.update slots id .collided) s
    rw [← hslot, update_eq_self]
    exact h
  | holds held =>
    cases tx with
    -- the null pointer would be dereferenced here
    | none => exact absurd ⟨rfl, hmem, held, hslot⟩ hsafe
    | some tx =>
      -- the same transaction twice is no collision
      by_cases hsame : env.getWitnessHash held = env.getWitnessHash tx
      · have hbeq : (env.getWitnessHash held == env.getWitnessHash tx) = true := by simpa using hsame
        refine ⟨s, ?_, ?_⟩
        · show (if (env.getWitnessHash held == env.getWitnessHash tx) = true then _ else _) = _
          rw [if_pos hbeq]
          rfl
        · have hkept : (Slot.holds held).fromExtra env (some tx) = .holds held :=
            if_pos (congrArg some hsame.symm)
          rw [hkept, ← hslot, update_eq_self]
          exact h
      · have hbeq : ¬(env.getWitnessHash held == env.getWitnessHash tx) = true := by simpa using hsame
        have hlost : (Slot.holds held).fromExtra env (some tx) = .collided :=
          if_neg fun heq => hsame (Option.some.inj heq).symm
        obtain ⟨hsub, hpos⟩ := h.count_sub_one hmem (by rw [hslot]; rfl)
        rw [hlost]
        refine ⟨{ s with
          txn_available := s.txn_available.set (pos k).toNat none
          mempool_count := s.mempool_count - 1
          extra_count := s.extra_count - 1 }, ?_, h.update hl hk .collided rfl ?_ ?_⟩
        · show (if (env.getWitnessHash held == env.getWitnessHash tx) = true then _ else _) = _
          rw [if_neg hbeq]
          rfl
        · -- `have_txn` was set before
          have hset := h.have_txn k id hk
          rw [hslot] at hset
          exact (set_of_getElem? hset).symm
        · rw [hslot]
          show (s.mempool_count - 1).toNat + 1 = _ + 0
          omega

theorem scanExtraTxRun_null (hl : Layout ids m size pos) (h : Scanned ids size pos slots s)
    (x : Uint256 × Option CTransaction)
    (hnull : Dereferenced ids slots (c.getShortID env x.1) x.2) :
    scanExtraTxRun env (m.lookup (c.getShortID env x.1)) x.2 s = .error .nullDereference := by
  obtain ⟨htx, hid, held, hslot⟩ := hnull
  rcases hl.lookup_cases (c.getShortID env x.1) with ⟨hnot, -⟩ | ⟨k, hk, hlook⟩
  · exact absurd hid hnot
  have hhave := h.have_at hk
  have havail := h.available_at hk
  rw [hslot] at hhave havail
  rw [hlook, htx]
  simp only [scanExtraTxRun, hhave, havail]
  rfl

/-! ## A whole scan -/

/-- Every slot counts, and the loops end. -/
def AllCounted (ids : List UInt64) (slots : UInt64 → Slot) : Prop :=
  ∀ id ∈ ids, (slots id).counted = true

/-- The part of the mempool that is looked at: up to the first transaction behind which
    every slot counts. -/
structure Examined (env : CompactEnv) (c : CBlockHeaderAndShortTxIDs) (ids : List UInt64)
    (slots : UInt64 → Slot) (P pool : List (Uint256 × CTransaction)) : Prop where
  isPrefix : P <+: pool
  before : ∀ P', P' <+: P → P' ≠ [] → P' ≠ P → ¬AllCounted ids (P'.foldl (poolSlots env c) slots)
  stops : P = pool ∨ P ≠ [] ∧ AllCounted ids (P.foldl (poolSlots env c) slots)

theorem Examined.eq {P Q pool : List (Uint256 × CTransaction)}
    (hP : Examined env c ids slots P pool) (hQ : Examined env c ids slots Q pool) : P = Q := by
  -- a part inside the other one would have ended the scan
  have hcompare : ∀ {P Q}, Examined env c ids slots P pool → Examined env c ids slots Q pool →
      P <+: Q → P = Q := by
    intro P Q hP hQ hpre
    by_contra hne
    rcases hP.stops with rfl | ⟨hnil, hall⟩
    · exact hne (hpre.eq_of_length_le hQ.isPrefix.length_le)
    · exact hQ.before P hpre hnil hne hall
  rcases prefix_or_prefix_of_prefix hP.isPrefix hQ.isPrefix with h | h
  · exact hcompare hP hQ h
  · exact (hcompare hQ hP h).symm

theorem Examined.cons {x : Uint256 × CTransaction} {P pool : List (Uint256 × CTransaction)}
    (hgo : ¬AllCounted ids (poolSlots env c slots x))
    (h : Examined env c ids (poolSlots env c slots x) P pool) :
    Examined env c ids slots (x :: P) (x :: pool) := by
  refine ⟨(prefix_cons_inj x).mpr h.isPrefix, fun P' hpre hnil hne => ?_, ?_⟩
  · obtain ⟨y, P', rfl⟩ := exists_cons_of_ne_nil hnil
    obtain ⟨rfl, hrest⟩ := cons_prefix_cons.mp hpre
    by_cases hP' : P' = []
    · rw [hP']
      exact hgo
    · exact h.before P' hrest hP' fun heq => hne (by rw [heq])
  · rcases h.stops with rfl | ⟨hnil, hall⟩
    · exact .inl rfl
    · exact .inr ⟨cons_ne_nil _ _, hall⟩

theorem scanPoolRun_spec (hl : Layout ids m size pos) (h : Scanned ids size pos slots s)
    (pool : List (Uint256 × CTransaction)) :
    ∃ P s', Examined env c ids slots P pool ∧ scanPoolRun env c m pool s = .ok s' ∧
      Scanned ids size pos (P.foldl (poolSlots env c) slots) s' := by
  induction pool generalizing slots s with
  | nil =>
    refine ⟨[], s, ⟨prefix_rfl, fun P' hpre hnil => ?_, .inl rfl⟩, rfl, h⟩
    exact absurd (prefix_nil.mp hpre) hnil
  | cons x rest ih =>
    obtain ⟨s1, hstep, h1⟩ := scanPoolTxRun_spec env c hl h x
    have hrun : scanPoolRun env c m (x :: rest) s =
        if (s1.mempool_count == UInt64.ofNat m.keys.length) = true then .ok s1
        else scanPoolRun env c m rest s1 := by
      rw [scanPoolRun, hstep]
      rfl
    rw [hrun]
    by_cases hall : AllCounted ids (poolSlots env c slots x)
    · refine ⟨[x], s1, ⟨⟨rest, rfl⟩, fun P' hpre hnil hne => ?_, ?_⟩, ?_, h1⟩
      · obtain ⟨y, P', rfl⟩ := exists_cons_of_ne_nil hnil
        obtain ⟨rfl, hrest⟩ := cons_prefix_cons.mp hpre
        exact absurd (by rw [prefix_nil.mp hrest]) hne
      · exact .inr ⟨cons_ne_nil _ _, hall⟩
      · exact if_pos ((h1.count_eq_iff hl).mpr hall)
    · obtain ⟨P, s', hP, hloop, hs'⟩ := ih h1
      refine ⟨x :: P, s', hP.cons hall, ?_, hs'⟩
      rw [if_neg fun hend => hall ((h1.count_eq_iff hl).mp hend), hloop]

/-- No extra transaction that is looked at is dereferenced as a null pointer. -/
def ExtraSafe (env : CompactEnv) (c : CBlockHeaderAndShortTxIDs) (ids : List UInt64)
    (slots : UInt64 → Slot) (extra_txn : List (Uint256 × Option CTransaction)) : Prop :=
  ∀ E x, E ++ [x] <+: extra_txn →
    (∀ E', E' <+: E → E' ≠ [] → ¬AllCounted ids (E'.foldl (extraSlots env c) slots)) →
    ¬Dereferenced ids (E.foldl (extraSlots env c) slots) (c.getShortID env x.1) x.2

theorem extraSafe_nil : ExtraSafe env c ids slots [] := by
  intro E x hpre
  exact absurd (prefix_nil.mp hpre) (by simp)

theorem extraSafe_cons {x : Uint256 × Option CTransaction}
    {rest : List (Uint256 × Option CTransaction)} :
    ExtraSafe env c ids slots (x :: rest) ↔
      ¬Dereferenced ids slots (c.getShortID env x.1) x.2 ∧
        (¬AllCounted ids (extraSlots env c slots x) →
          ExtraSafe env c ids (extraSlots env c slots x) rest) := by
  constructor
  · intro h
    refine ⟨h [] x ⟨rest, rfl⟩ ?_, fun hgo E y hpre hbefore => ?_⟩
    · exact fun E' hpre hnil => absurd (prefix_nil.mp hpre) hnil
    · refine h (x :: E) y ((prefix_cons_inj x).mpr hpre) fun E' hE' hnil => ?_
      obtain ⟨z, E', rfl⟩ := exists_cons_of_ne_nil hnil
      obtain ⟨rfl, hrest⟩ := cons_prefix_cons.mp hE'
      by_cases hempty : E' = []
      · rw [hempty]
        exact hgo
      · exact hbefore E' hrest hempty
  · rintro ⟨hfirst, hrest⟩ E y hpre hbefore
    cases E with
    | nil =>
      obtain ⟨rfl, -⟩ := cons_prefix_cons.mp hpre
      exact hfirst
    | cons z E =>
      obtain ⟨rfl, htail⟩ := cons_prefix_cons.mp hpre
      have hgo : ¬AllCounted ids (extraSlots env c slots z) :=
        hbefore [z] ⟨E, rfl⟩ (cons_ne_nil _ _)
      refine hrest hgo E y htail fun E' hE' hnil => ?_
      exact hbefore (z :: E') ((prefix_cons_inj z).mpr hE') (cons_ne_nil _ _)

theorem scanExtraRun_spec (hl : Layout ids m size pos) (h : Scanned ids size pos slots s)
    (extra_txn : List (Uint256 × Option CTransaction)) :
    (ExtraSafe env c ids slots extra_txn → ∃ s', scanExtraRun env c m extra_txn s = .ok s') ∧
      (¬ExtraSafe env c ids slots extra_txn →
        scanExtraRun env c m extra_txn s = .error .nullDereference) := by
  induction extra_txn generalizing slots s with
  | nil => exact ⟨fun _ => ⟨s, rfl⟩, fun hno => absurd extraSafe_nil hno⟩
  | cons x rest ih =>
    rw [extraSafe_cons]
    by_cases hnull : Dereferenced ids slots (c.getShortID env x.1) x.2
    · refine ⟨fun hsafe => absurd hnull hsafe.1, fun _ => ?_⟩
      rw [scanExtraRun, scanExtraTxRun_null hl h x hnull]
      rfl
    obtain ⟨s1, hstep, h1⟩ := scanExtraTxRun_spec hl h x hnull
    have hrun : scanExtraRun env c m (x :: rest) s =
        if (s1.mempool_count == UInt64.ofNat m.keys.length) = true then .ok s1
        else scanExtraRun env c m rest s1 := by
      rw [scanExtraRun, hstep]
      rfl
    rw [hrun]
    by_cases hall : AllCounted ids (extraSlots env c slots x)
    · rw [if_pos ((h1.count_eq_iff hl).mpr hall)]
      exact ⟨fun _ => ⟨s1, rfl⟩, fun hno => absurd ⟨hnull, fun hgo => absurd hall hgo⟩ hno⟩
    · rw [if_neg fun hend => hall ((h1.count_eq_iff hl).mp hend)]
      obtain ⟨hok, herr⟩ := ih h1
      exact ⟨fun hsafe => hok (hsafe.2 hall),
        fun hno => herr fun hrest => hno ⟨hnull, fun _ => hrest⟩⟩

end

end Rcoin
