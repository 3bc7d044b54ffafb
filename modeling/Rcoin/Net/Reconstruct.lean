/-
  A block that is sent as short ids and put together again.  Positions are kept
  in 16 bits, so a transaction at position 65536 or beyond is filed under
  another position; as long as none of those is found, every transaction that
  is found stands at its own position, and the missing ones complete the block.
-/
import Rcoin.Net.BlockEncodings

namespace Rcoin

open CBlockHeaderAndShortTxIDs List PartiallyDownloadedBlock

/-! ## What is assumed -/

section

variable (env : CompactEnv) (nonce : UInt64) (header : CBlockHeader) (vtx : List CTransaction)
  (fUseWTXID : Bool)

/-- The short id under which a transaction of the block is listed. -/
def listedID (tx : CTransaction) : UInt64 := shortID env header nonce (listedHash env fUseWTXID tx)

/-- A block that can be sent: its header and its coinbase are not null, it has
    as many transactions as the weight limit admits, their short ids differ, and
    no bucket gets too many of them. -/
structure Sendable : Prop where
  notNull : header.isNull = false
  coinbase : ∃ cb rest, vtx = cb :: rest ∧ cb.isNull = false
  weight : vtx.length ≤ MAX_BLOCK_WEIGHT / MIN_SERIALIZABLE_TRANSACTION_WEIGHT
  distinct : (vtx.map (listedID env nonce header fUseWTXID)).Nodup
  buckets : ∀ ids id, ids <+: vtx.tail.map (listedID env nonce header fUseWTXID) →
    env.bucketSize ids id ≤ 12

/-- A transaction that is looked at: filed under its witness hash, whose short id
    belongs to no other transaction of the block. -/
def Involved (hash : Uint256) (tx : CTransaction) : Prop :=
  hash = env.getWitnessHash tx ∧
    ∀ t ∈ vtx, shortID env header nonce hash = listedID env nonce header fUseWTXID t → tx = t

/-- An extra transaction; an empty place of the list matches nothing. -/
def InvolvedExtra (hash : Uint256) : Option CTransaction → Prop
  | some tx => Involved env nonce header vtx fUseWTXID hash tx
  | none => ∀ t ∈ vtx, shortID env header nonce hash ≠ listedID env nonce header fUseWTXID t

/-- The block's transactions at the unavailable positions, in order. -/
def missingTxs : List (Option CTransaction) → List CTransaction → List CTransaction
  | none :: rest, tx :: vtx => tx :: missingTxs rest vtx
  | some _ :: rest, _ :: vtx => missingTxs rest vtx
  | _, _ => []

/-- Every transaction that is available is the block's own at its position. -/
def Own (txn_available : List (Option CTransaction)) : Prop :=
  txn_available.length = vtx.length ∧
    ∀ (i : Nat) (tx : CTransaction), txn_available[i]? = some (some tx) → vtx[i]? = some tx

/-- The block comes out of `InitData` and `FillBlock` as it went in. -/
def Reconstructs (vTxHashes : List (Uint256 × CTransaction))
    (extra_txn : List (Uint256 × Option CTransaction)) : Prop :=
  ∃ b : PartiallyDownloadedBlock,
    initData env {} (.ofBlock env nonce header vtx fUseWTXID) vTxHashes
      extra_txn = .ok (.ok, b) ∧
    Own vtx b.txn_available ∧
    ∃ b', b.fillBlock env (missingTxs b.txn_available vtx) =
      .ok (checkBlockStatus env (header.toBlock vtx), some (header.toBlock vtx), b')

/-- A transaction at position 65536 or beyond, looked at under the short id that
    it is listed with. -/
def Wrapped (hash : Uint256) (tx : CTransaction) : Prop :=
  shortID env header nonce hash = listedID env nonce header fUseWTXID tx ∧
    ∃ i, 65536 ≤ i ∧ vtx[i]? = some tx

/-- No transaction from position 65536 on is listed under the short id of its
    witness hash. -/
def NoneWrapped : Prop :=
  ∀ tx, ¬ Wrapped env nonce header vtx fUseWTXID (env.getWitnessHash tx) tx

end

/-! ## `FillBlock` -/

variable {tx : CTransaction} {vtx : List CTransaction} {a : Option CTransaction}

theorem Own.tail {rest : List (Option CTransaction)} (h : Own (tx :: vtx) (a :: rest)) :
    Own vtx rest :=
  ⟨Nat.succ.inj h.1, fun i t hi => h.2 (i + 1) t hi⟩

variable {txn_available : List (Option CTransaction)}

theorem fillLoop_missing (h : Own vtx txn_available) :
    fillLoop txn_available (missingTxs txn_available vtx) = some (vtx, []) := by
  induction txn_available generalizing vtx with
  | nil =>
    have hnil : vtx = [] := length_eq_zero_iff.mp h.1.symm
    subst hnil
    rfl
  | cons a rest ih =>
    cases vtx with
    | nil => cases h.1
    | cons tx vtx =>
      have hrest := ih h.tail
      cases a with
      | none =>
        rw [missingTxs, fillLoop, hrest]
        rfl
      | some t =>
        have ht : tx = t := Option.some.inj (h.2 0 t rfl)
        rw [missingTxs, fillLoop, hrest, ht]
        rfl

theorem fillBlock_missing {env : CompactEnv} {b : PartiallyDownloadedBlock}
    (hheader : b.header.isNull = false) (h : Own vtx b.txn_available) :
    ∃ b', b.fillBlock env (missingTxs b.txn_available vtx) =
      .ok (checkBlockStatus env (b.header.toBlock vtx), some (b.header.toBlock vtx), b') := by
  unfold fillBlock
  rw [hheader, fillLoop_missing h]
  exact ⟨_, rfl⟩

/-! ## The map of short ids -/

/-- The positions before anything is found: the coinbase alone. -/
def prefilled (cb : CTransaction) (n : Nat) : List (Option CTransaction) :=
  some cb :: replicate n none

theorem prefillLoop_coinbase {cb : CTransaction} (hcb : cb.isNull = false) (n : Nat) :
    prefillLoop n 0 (-1) [⟨0, cb⟩] (replicate (n + 1) none) = some (prefilled cb n) := by
  rw [prefillLoop, hcb, replicate_succ]
  rfl

theorem isAvailable_prefilled (cb : CTransaction) (n i : Nat) :
    isAvailable (prefilled cb n) (i + 1) = false := by
  unfold isAvailable prefilled
  rw [getElem?_cons_succ, getElem?_replicate]
  split <;> rfl

theorem skipAvailable_prefilled (cb : CTransaction) (n i : Nat) {index_offset : UInt16}
    (h : index_offset = 1 ∨ i = 0 ∧ index_offset = 0) :
    skipAvailable (prefilled cb n) i 65536 index_offset = 1 := by
  have hstop : ∀ steps, skipAvailable (prefilled cb n) i (steps + 1) 1 = 1 := by
    intro steps
    rw [skipAvailable]
    have hat : i + (1 : UInt16).toNat = i + 1 := rfl
    rw [hat, isAvailable_prefilled, if_neg Bool.false_ne_true]
  rcases h with rfl | ⟨rfl, rfl⟩
  · exact hstop 65535
  · have hzero : isAvailable (prefilled cb n) (0 + (0 : UInt16).toNat) = true := rfl
    exact hstop 65534

/-- The short id at index `k` is filed under the low bits of its position,
    `k + 1`.  By induction on the ids that are left, `i` of them done. -/
theorem indexLoop_prefilled {env : CompactEnv} {cb : CTransaction} {n i : Nat}
    {index_offset : UInt16} (hoff : index_offset = 1 ∨ i = 0 ∧ index_offset = 0)
    {ids inserted : List UInt64} (hnd : ids.Nodup) {m : ShortIDMap} (hm : ∀ id ∈ ids, id ∉ m)
    (hbuckets : ∀ ids' id, ids' <+: inserted ++ ids → env.bucketSize ids' id ≤ 12) :
    ∃ m', indexLoop env (prefilled cb n) i index_offset ids inserted m = some m' ∧
      m'.keys.length = m.keys.length + ids.length ∧
      ∀ id p, m'.lookup id = some p ↔
        (∃ k, ids[k]? = some id ∧ p = UInt16.ofNat (i + k + 1)) ∨
          id ∉ ids ∧ m.lookup id = some p := by
  induction ids generalizing i index_offset inserted m with
  | nil =>
    refine ⟨m, rfl, rfl, fun id p => ⟨fun h => .inr ⟨not_mem_nil, h⟩, ?_⟩⟩
    rintro (⟨k, hk, -⟩ | ⟨-, h⟩)
    · cases hk
    · exact h
  | cons id0 ids ih =>
    obtain ⟨hnot, hnd⟩ := nodup_cons.mp hnd
    have hprefix : inserted ++ [id0] <+: inserted ++ id0 :: ids :=
      ⟨ids, (append_cons inserted id0 ids).symm⟩
    have hbucket := hbuckets _ id0 hprefix
    have hpos : i + (1 : UInt16).toNat = i + 1 := rfl
    unfold indexLoop
    simp only [skipAvailable_prefilled cb n i hoff, if_neg (Nat.not_lt.mpr hbucket), hpos]
    have hm' : ∀ id ∈ ids, id ∉ m.insert id0 (UInt16.ofNat (i + 1)) := by
      intro id hid hmem
      rcases (AList.mem_insert m).mp hmem with rfl | hmem
      · exact hnot hid
      · exact hm id (mem_cons_of_mem _ hid) hmem
    have hbuckets' : ∀ ids' id, ids' <+: (inserted ++ [id0]) ++ ids → env.bucketSize ids' id ≤ 12 := by
      intro ids' id hids
      rw [← append_cons] at hids
      exact hbuckets ids' id hids
    have hone : (1 : UInt16) = 1 ∨ i + 1 = 0 ∧ (1 : UInt16) = 0 := .inl rfl
    obtain ⟨m', hloop, hkeys, hlookup⟩ := ih hone hnd hm' hbuckets'
    refine ⟨m', hloop, ?_, fun id p => ?_⟩
    · have hfresh : (m.insert id0 (UInt16.ofNat (i + 1))).keys.length = m.keys.length + 1 := by
        rw [AList.keys_insert, length_cons, erase_of_not_mem (hm id0 (mem_cons_self ..))]
      rw [hkeys, hfresh, length_cons]
      omega
    · rw [hlookup, Maps.lookup_insert]
      constructor
      -- an id that comes later is not id0, as the ids differ
      · rintro (⟨k, hk, hp⟩ | ⟨hid, hp⟩)
        · refine .inl ⟨k + 1, hk, ?_⟩
          rw [hp]
          congr 1
          omega
        · split at hp
          · rename_i heq
            exact .inl ⟨0, by rw [heq]; rfl, (Option.some.inj hp).symm⟩
          · rename_i hne
            exact .inr ⟨fun hmem => (mem_cons.mp hmem).elim hne hid, hp⟩
      · rintro (⟨k, hk, hp⟩ | ⟨hid, hp⟩)
        · cases k with
          | zero =>
            have heq : id0 = id := Option.some.inj hk
            refine .inr ⟨heq ▸ hnot, ?_⟩
            rw [if_pos heq.symm, hp]
          | succ k =>
            refine .inl ⟨k, hk, ?_⟩
            rw [hp]
            congr 1
            omega
        · refine .inr ⟨fun hmem => hid (mem_cons_of_mem _ hmem), ?_⟩
          have hne : id ≠ id0 := fun heq => hid (heq ▸ mem_cons_self ..)
          rw [if_neg hne]
          exact hp

/-! ## The scan -/

theorem Own.set (h : Own vtx txn_available) {p : Nat} (ha : ∀ tx, a = some tx → vtx[p]? = some tx) :
    Own vtx (txn_available.set p a) := by
  refine ⟨(length_set ..).trans h.1, fun i tx hi => ?_⟩
  rw [getElem?_set] at hi
  split at hi
  · rename_i hpi
    split at hi
    · rw [← hpi]
      exact ha tx (Option.some.inj hi)
    · cases hi
  · exact h.2 i tx hi

variable {s : ScanState} {slot : Option UInt16}

theorem scanPoolTx_own (hslot : ∀ p, slot = some p → vtx[p.toNat]? = some tx)
    (h : Own vtx s.txn_available)
    : Own vtx (scanPoolTx slot tx s).txn_available := by
  unfold scanPoolTx
  split
  · exact h
  · rename_i p
    split
    · exact h.set fun t ht => Option.some.inj ht ▸ hslot p rfl
    · split
      · exact h.set fun t ht => (nomatch ht)
      · exact h

variable {c : CBlockHeaderAndShortTxIDs} {vTxHashes : List (Uint256 × CTransaction)}

theorem scanPool_own {env : CompactEnv} {m : ShortIDMap}
    (hslot : ∀ x ∈ vTxHashes, ∀ p, m.lookup (c.getShortID env x.1) = some p →
      vtx[p.toNat]? = some x.2) (h : Own vtx s.txn_available) :
    Own vtx (scanPool env c m vTxHashes s).txn_available := by
  induction vTxHashes generalizing s with
  | nil => exact h
  | cons x rest ih =>
    have hx := scanPoolTx_own (hslot x (mem_cons_self ..)) h
    unfold scanPool
    simp only
    split
    · exact hx
    · exact ih (fun y hy => hslot y (mem_cons_of_mem _ hy)) hx

theorem scanExtraTx_own {env : CompactEnv} {tx : Option CTransaction}
    (hslot : ∀ p, slot = some p → ∃ t, tx = some t ∧ vtx[p.toNat]? = some t)
    (h : Own vtx s.txn_available) :
    ∃ s', scanExtraTx env slot tx s = .ok s' ∧ Own vtx s'.txn_available := by
  unfold scanExtraTx
  split
  · exact ⟨s, rfl, h⟩
  rename_i p
  obtain ⟨t, rfl, ht⟩ := hslot p rfl
  split
  · exact ⟨_, rfl, h.set fun t' ht' => Option.some.inj ht' ▸ ht⟩
  split
  · exact ⟨s, rfl, h⟩
  · rename_i hnull
    cases hnull
  · split
    · exact ⟨_, rfl, h.set fun t' ht' => (nomatch ht')⟩
    · exact ⟨s, rfl, h⟩

variable {extra_txn : List (Uint256 × Option CTransaction)}

theorem scanExtra_own {env : CompactEnv} {m : ShortIDMap}
    (hslot : ∀ x ∈ extra_txn, ∀ p, m.lookup (c.getShortID env x.1) = some p →
      ∃ t, x.2 = some t ∧ vtx[p.toNat]? = some t) (h : Own vtx s.txn_available) :
    ∃ s', scanExtra env c m extra_txn s = .ok s' ∧ Own vtx s'.txn_available := by
  induction extra_txn generalizing s with
  | nil => exact ⟨s, rfl, h⟩
  | cons x rest ih =>
    have hx : ∃ s1, scanExtraTx env (m.lookup (c.getShortID env x.1)) x.2 s = .ok s1 ∧
        Own vtx s1.txn_available := scanExtraTx_own (hslot x (mem_cons_self ..)) h
    obtain ⟨s1, hs1, h1⟩ := hx
    unfold scanExtra
    rw [hs1]
    show ∃ s', (if s1.mempool_count == UInt64.ofNat m.keys.length then .ok s1
      else scanExtra env c m rest s1) = .ok s' ∧ _
    split
    · exact ⟨s1, rfl, h1⟩
    · exact ih (fun y hy => hslot y (mem_cons_of_mem _ hy)) h1

/-! ## `InitData` -/

section

variable {env : CompactEnv} {nonce : UInt64} {header : CBlockHeader} {fUseWTXID : Bool}

/-- The map that `InitData` makes of the short ids of a block: a listed id is
    filed under the low bits of its position. -/
structure PositionMap (env : CompactEnv) (nonce : UInt64) (header : CBlockHeader)
    (vtx : List CTransaction) (fUseWTXID : Bool) (m : ShortIDMap) : Prop where
  position : ∀ id p, m.lookup id = some p → ∃ i tx, vtx[i]? = some tx ∧
    listedID env nonce header fUseWTXID tx = id ∧ p = UInt16.ofNat i
  listed : ∀ i tx, vtx[i + 1]? = some tx →
    m.lookup (listedID env nonce header fUseWTXID tx) = some (UInt16.ofNat (i + 1))

theorem Sendable.initData (h : Sendable env nonce header vtx fUseWTXID) :
    ∃ m cb, PositionMap env nonce header vtx fUseWTXID m ∧ vtx.head? = some cb ∧
      ∀ vTxHashes extra_txn,
        initData env {} (.ofBlock env nonce header vtx fUseWTXID)
            vTxHashes extra_txn =
          (scanExtra env (.ofBlock env nonce header vtx fUseWTXID) m extra_txn
            (scanPool env (.ofBlock env nonce header vtx fUseWTXID) m vTxHashes
              { txn_available := prefilled cb vtx.tail.length
                have_txn := List.replicate vtx.length false
                mempool_count := 0
                extra_count := 0 })).bind fun s =>
            .ok (.ok, { header := header, txn_available := s.txn_available, prefilled_count := 1,
                        mempool_count := s.mempool_count, extra_count := s.extra_count }) := by
  obtain ⟨cb, rest, rfl, hcb⟩ := h.coinbase
  have hdistinct : (rest.map (listedID env nonce header fUseWTXID)).Nodup := by
    have hall := h.distinct
    rw [map_cons, nodup_cons] at hall
    exact hall.2
  have hzero : (0 : UInt16) = 1 ∨ (0 : Nat) = 0 ∧ (0 : UInt16) = 0 := .inr ⟨rfl, rfl⟩
  -- the coinbase is prefilled, the rest is found by short ids
  have hindex := @indexLoop_prefilled env cb rest.length 0 0 hzero _ [] hdistinct ∅
    (fun id _ => AList.notMem_empty id) h.buckets
  obtain ⟨m, hloop, hkeys, hlookup⟩ := hindex
  refine ⟨m, cb, ⟨fun id p hp => ?_, fun i tx hi => ?_⟩, rfl, fun vTxHashes extra_txn => ?_⟩
  · rcases (hlookup id p).mp hp with ⟨k, hk, hpos⟩ | ⟨-, hnone⟩
    · rw [getElem?_map] at hk
      obtain ⟨tx, htx, hid⟩ := Option.map_eq_some_iff.mp hk
      refine ⟨k + 1, tx, htx, hid, ?_⟩
      rw [hpos, Nat.zero_add]
    · rw [AList.lookup_empty] at hnone
      cases hnone
  · refine (hlookup _ _).mpr (.inl ⟨i, ?_, by rw [Nat.zero_add]⟩)
    have hi' : rest[i]? = some tx := hi
    rw [getElem?_map, hi']
    rfl
  · have hlen : (rest.map (listedID env nonce header fUseWTXID)).length = rest.length :=
      length_map _
    have hmap : rest.map (fun tx => shortID env header nonce (listedHash env fUseWTXID tx)) =
        rest.map (listedID env nonce header fUseWTXID) := rfl
    have hweight : ¬ rest.length + 1 > MAX_BLOCK_WEIGHT / MIN_SERIALIZABLE_TRANSACTION_WEIGHT :=
      Nat.not_lt.mpr h.weight
    have hkeys' : m.keys.length = rest.length := by
      rw [hkeys, hlen]
      exact Nat.zero_add _
    have hnew : ¬ (!(CBlockHeader.null.isNull && ([] : List (Option CTransaction)).isEmpty)) =
        true := by decide
    unfold initData
    simp only [ofBlock, tail_cons, head?_cons,
      Option.toList_some, map_cons, map_nil, hmap, hlen, length_cons,
      length_nil, Nat.zero_add, h.notNull, isEmpty_cons, Bool.and_false, Bool.or_false,
      Bool.false_eq_true, if_false, if_neg hweight, if_neg hnew, prefillLoop_coinbase hcb, hloop,
      hkeys', ne_eq, not_true_eq_false]
    rfl

theorem PositionMap.own {m : ShortIDMap} (hm : PositionMap env nonce header vtx fUseWTXID m)
    {hash : Uint256} (hinv : Involved env nonce header vtx fUseWTXID hash tx)
    (hlow : ¬ Wrapped env nonce header vtx fUseWTXID hash tx) {p : UInt16}
    (hp : m.lookup (shortID env header nonce hash) = some p) : vtx[p.toNat]? = some tx := by
  obtain ⟨i, t, hi, hid, rfl⟩ := hm.position _ p hp
  have htx : tx = t := hinv.2 t (mem_of_getElem? hi) hid.symm
  subst htx
  have hsmall : i < 65536 := Nat.not_le.mp fun hge => hlow ⟨hid.symm, i, hge, hi⟩
  rw [UInt16.toNat_ofNat', Nat.mod_eq_of_lt hsmall]
  exact hi

end

/-! ## Reconstruction -/

section

variable {env : CompactEnv} {nonce : UInt64} {header : CBlockHeader} {fUseWTXID : Bool}

theorem own_prefilled {cb : CTransaction} (hcb : vtx.head? = some cb) :
    Own vtx (prefilled cb vtx.tail.length) := by
  cases vtx with
  | nil => cases hcb
  | cons t rest =>
    have ht : t = cb := Option.some.inj hcb
    refine ⟨?_, fun i tx hi => ?_⟩
    · unfold prefilled
      rw [length_cons, length_replicate]
      rfl
    · unfold prefilled at hi
      cases i with
      | zero => rw [getElem?_cons_zero, ht]; exact Option.some.inj hi
      | succ i =>
        rw [getElem?_cons_succ, getElem?_replicate] at hi
        split at hi <;> cases hi

theorem Sendable.reconstructs (h : Sendable env nonce header vtx fUseWTXID)
    (hpool : ∀ x ∈ vTxHashes, Involved env nonce header vtx fUseWTXID x.1 x.2 ∧
      ¬ Wrapped env nonce header vtx fUseWTXID x.1 x.2)
    (hextra : ∀ x ∈ extra_txn, InvolvedExtra env nonce header vtx fUseWTXID x.1 x.2 ∧
      ∀ tx, x.2 = some tx → ¬ Wrapped env nonce header vtx fUseWTXID x.1 tx) :
    Reconstructs env nonce header vtx fUseWTXID vTxHashes extra_txn := by
  obtain ⟨m, cb, hm, hcb, hinit⟩ := h.initData
  have hslot : ∀ x ∈ vTxHashes, ∀ p, m.lookup (shortID env header nonce x.1) = some p →
      vtx[p.toNat]? = some x.2 :=
    fun x hx p hp => hm.own (hpool x hx).1 (hpool x hx).2 hp
  have hslot' : ∀ x ∈ extra_txn, ∀ p, m.lookup (shortID env header nonce x.1) = some p →
      ∃ t, x.2 = some t ∧ vtx[p.toNat]? = some t := by
    rintro ⟨hash, a⟩ hx p hp
    obtain ⟨hinv, hlow⟩ := hextra _ hx
    cases a with
    | none =>
      obtain ⟨i, t, hi, hid, -⟩ := hm.position _ p hp
      exact absurd hid.symm (hinv t (mem_of_getElem? hi))
    | some t => exact ⟨t, rfl, hm.own hinv (hlow t rfl) hp⟩
  let c := ofBlock env nonce header vtx fUseWTXID
  let s0 : ScanState :=
    { txn_available := prefilled cb vtx.tail.length
      have_txn := List.replicate vtx.length false
      mempool_count := 0
      extra_count := 0 }
  have hpoolOwn : Own vtx (scanPool env c m vTxHashes s0).txn_available :=
    scanPool_own hslot (own_prefilled hcb)
  have hextraOwn : ∃ s, scanExtra env c m extra_txn (scanPool env c m vTxHashes s0) = .ok s ∧
      Own vtx s.txn_available := scanExtra_own hslot' hpoolOwn
  obtain ⟨s, hs, hown⟩ := hextraOwn
  have hresult := hinit vTxHashes extra_txn
  rw [hs] at hresult
  exact ⟨_, hresult, hown, fillBlock_missing h.notNull hown⟩

theorem Sendable.involved (h : Sendable env nonce header vtx fUseWTXID) (htx : tx ∈ vtx)
    (hid : shortID env header nonce (env.getWitnessHash tx) =
      listedID env nonce header fUseWTXID tx) :
    Involved env nonce header vtx fUseWTXID (env.getWitnessHash tx) tx := by
  refine ⟨rfl, fun t ht hsame => ?_⟩
  exact inj_on_of_nodup_map h.distinct htx ht (hid.symm.trans hsame)

theorem scanPool_single {m : ShortIDMap} {hash : Uint256} (tx : CTransaction) {p : UInt16}
    (hp : m.lookup (c.getShortID env hash) = some p)
    (hhave : s.have_txn.getD p.toNat false = false) :
    (scanPool env c m [(hash, tx)] s).txn_available = s.txn_available.set p.toNat (some tx) := by
  unfold scanPool
  simp only [hp]
  have htx : (scanPoolTx (some p) tx s).txn_available =
      s.txn_available.set p.toNat (some tx) := by
    unfold scanPoolTx
    simp only [hhave, Bool.not_false, if_true]
  split
  · exact htx
  · exact htx

theorem Sendable.not_reconstructs (h : Sendable env nonce header vtx fUseWTXID)
    (hwrapped : Wrapped env nonce header vtx fUseWTXID (env.getWitnessHash tx) tx) :
    ¬ Reconstructs env nonce header vtx fUseWTXID [(env.getWitnessHash tx, tx)] [] := by
  obtain ⟨hid, i, hge, hi⟩ := hwrapped
  obtain ⟨m, cb, hm, hcb, hinit⟩ := h.initData
  let c := ofBlock env nonce header vtx fUseWTXID
  let p := UInt16.ofNat i
  have hlookup : m.lookup (c.getShortID env (env.getWitnessHash tx)) = some p := by
    have hi' : vtx[i - 1 + 1]? = some tx := by
      rw [Nat.sub_add_cancel (by omega)]
      exact hi
    have hlisted := hm.listed (i - 1) tx hi'
    rw [Nat.sub_add_cancel (by omega), ← hid] at hlisted
    exact hlisted
  have hp : p.toNat = i % 65536 := UInt16.toNat_ofNat'
  have hhave : (List.replicate vtx.length false).getD p.toNat false = false := by
    rw [getD_eq_getElem?_getD, getElem?_replicate]
    split <;> rfl
  rintro ⟨b, hb, hown, -⟩
  rw [hinit] at hb
  have hscan := scanPool_single (c := c) tx hlookup
    (s := { txn_available := prefilled cb vtx.tail.length
            have_txn := List.replicate vtx.length false
            mempool_count := 0
            extra_count := 0 }) hhave
  have hbtx : b.txn_available = (prefilled cb vtx.tail.length).set p.toNat (some tx) := by
    rw [← hscan]
    exact (congrArg (fun r => r.2.txn_available) (Except.ok.inj hb)).symm
  have hlen : (prefilled cb vtx.tail.length).length = vtx.length := (own_prefilled hcb).1
  have hilt : i < vtx.length := (List.getElem?_eq_some_iff.mp hi).1
  have hplt : p.toNat < (prefilled cb vtx.tail.length).length := by omega
  have hat : vtx[p.toNat]? = some tx := by
    apply hown.2
    rw [hbtx, getElem?_set_self hplt]
  -- the transaction stands at one position only
  have hnodup : vtx.Nodup := Nodup.of_map _ h.distinct
  have hsame : p.toNat = i :=
    (getElem?_inj (List.getElem?_eq_some_iff.mp hat).1 hnodup).mp (hat.trans hi.symm)
  omega

/-- A compact block that can be sent is put together from what is looked at,
    unless that holds a transaction of the block from position 65536 on; so it
    always is if and only if there is no such transaction to be found, which, with
    the ids of witness hashes, means at most 65536 transactions. -/
theorem Sendable.reconstructs_iff (h : Sendable env nonce header vtx fUseWTXID) :
    (∀ vTxHashes extra_txn,
      (∀ x ∈ vTxHashes, Involved env nonce header vtx fUseWTXID x.1 x.2 ∧
        ¬ Wrapped env nonce header vtx fUseWTXID x.1 x.2) →
      (∀ x ∈ extra_txn, InvolvedExtra env nonce header vtx fUseWTXID x.1 x.2 ∧
        ∀ tx, x.2 = some tx → ¬ Wrapped env nonce header vtx fUseWTXID x.1 tx) →
      Reconstructs env nonce header vtx fUseWTXID vTxHashes extra_txn) ∧
    ((∀ vTxHashes extra_txn,
      (∀ x ∈ vTxHashes, Involved env nonce header vtx fUseWTXID x.1 x.2) →
      (∀ x ∈ extra_txn, InvolvedExtra env nonce header vtx fUseWTXID x.1 x.2) →
      Reconstructs env nonce header vtx fUseWTXID vTxHashes extra_txn) ↔
      NoneWrapped env nonce header vtx fUseWTXID) ∧
    (fUseWTXID = true → (NoneWrapped env nonce header vtx fUseWTXID ↔ vtx.length ≤ 65536)) := by
  refine ⟨fun _ _ hpool hextra => h.reconstructs hpool hextra, ⟨?_, ?_⟩, ?_⟩
  · intro hall tx hwrapped
    obtain ⟨hid, i, -, hi⟩ := id hwrapped
    have hinv := h.involved (mem_of_getElem? hi) hid
    refine h.not_reconstructs hwrapped (hall _ _ (fun x hx => ?_) fun x hx => (nomatch hx))
    rw [mem_singleton.mp hx]
    exact hinv
  · intro hnone vTxHashes extra_txn hpool hextra
    have hlow : ∀ hash tx, Involved env nonce header vtx fUseWTXID hash tx →
        ¬ Wrapped env nonce header vtx fUseWTXID hash tx := by
      intro hash tx hinv
      rw [hinv.1]
      exact hnone tx
    refine h.reconstructs (fun x hx => ⟨hpool x hx, hlow _ _ (hpool x hx)⟩)
      fun x hx => ⟨hextra x hx, fun tx htx => ?_⟩
    have hx' := hextra x hx
    rw [htx] at hx'
    exact hlow _ _ hx'
  · rintro rfl
    constructor
    · intro hnone
      by_contra hlen
      have hlt : 65536 < vtx.length := not_le.mp hlen
      exact hnone vtx[65536] ⟨rfl, 65536, le_refl _, getElem?_eq_getElem hlt⟩
    · rintro hlen tx ⟨-, i, hge, hi⟩
      have hlt := (List.getElem?_eq_some_iff.mp hi).1
      omega

end

/-! ## A block of any length -/

namespace CompactSample

/-- Short ids count up, and no two of them share a bucket. -/
def env : CompactEnv where
  shortTxIDSelector := fun _ _ => (0, 0)
  sipHashUint256 := fun _ _ val => UInt64.ofNat val
  getWitnessHash := CTransaction.hash
  bucketSize := fun _ _ => 1
  validation := lenientEnv

def header : CBlockHeader :=
  { hash := 1, hashPrevBlock := 0, nTime := 1, nBits := 0x207fffff }

/-- The transaction at a position; the first one is the coinbase. -/
def txAt (i : Nat) : CTransaction where
  hash := i + 1
  vin := [{ prevout := ⟨i, if i = 0 then COutPoint.nullIndex else 0⟩, scriptSig := [1, 1] }]
  vout := [{ nValue := 1, scriptPubKey := [] }]

def txs (n : Nat) : List CTransaction := (range n).map txAt

theorem listedID_txAt (fUseWTXID : Bool) {i : Nat} (hi : i < 800000) :
    (listedID env 0 header fUseWTXID (txAt i)).toNat = i + 1 := by
  have hhash : listedHash env fUseWTXID (txAt i) = i + 1 := by
    cases fUseWTXID <;> rfl
  have hmask : (0xffffffffffff : UInt64).toNat = 2 ^ 48 - 1 := rfl
  unfold listedID shortID
  rw [hhash]
  show (UInt64.ofNat (i + 1) &&& 0xffffffffffff).toNat = i + 1
  rw [UInt64.toNat_and, hmask, Nat.and_two_pow_sub_one_eq_mod, UInt64.toNat_ofNat']
  omega

theorem sendable (fUseWTXID : Bool) {n : Nat} (hpos : 0 < n) (hn : n ≤ 800000) :
    Sendable env 0 header (txs n) fUseWTXID where
  notNull := by decide
  coinbase := by
    obtain ⟨k, rfl⟩ : ∃ k, n = k + 1 := ⟨n - 1, by omega⟩
    refine ⟨txAt 0, (List.range k).map (txAt ∘ Nat.succ), ?_, rfl⟩
    rw [txs, range_succ_eq_map, map_cons, List.map_map]
  weight := by
    rw [txs, length_map, length_range]
    exact hn
  distinct := by
    rw [txs, List.map_map]
    refine Nodup.map_on (fun i hi j hj hij => ?_) nodup_range
    have hij' := congrArg UInt64.toNat hij
    have hi' : i < 800000 := Nat.lt_of_lt_of_le (mem_range.mp hi) hn
    have hj' : j < 800000 := Nat.lt_of_lt_of_le (mem_range.mp hj) hn
    simp only [Function.comp_apply, listedID_txAt fUseWTXID hi', listedID_txAt fUseWTXID hj'] at hij'
    omega
  buckets := fun _ _ _ => Nat.le_add_left 1 11

theorem txs_at {n i : Nat} (hi : i < n) : (txs n)[i]? = some (txAt i) := by
  rw [txs, getElem?_map, getElem?_range hi]
  rfl

/-- With 65537 transactions and the last of them in the mempool, the coinbase is
    replaced by it. -/
theorem not_always_reconstructs :
    ¬ ∀ (env : CompactEnv) (nonce : UInt64) (header : CBlockHeader) (vtx : List CTransaction)
        (fUseWTXID : Bool), Sendable env nonce header vtx fUseWTXID →
      ∀ vTxHashes extra_txn,
        (∀ x ∈ vTxHashes, Involved env nonce header vtx fUseWTXID x.1 x.2) →
        (∀ x ∈ extra_txn, InvolvedExtra env nonce header vtx fUseWTXID x.1 x.2) →
        Reconstructs env nonce header vtx fUseWTXID vTxHashes extra_txn := by
  intro hall
  have hsend : Sendable env 0 header (txs 65537) true := sendable true (by decide) (by decide)
  have hat : (txs 65537)[65536]? = some (txAt 65536) := txs_at (by decide)
  have hinv := hsend.involved (mem_of_getElem? hat) rfl
  refine hsend.not_reconstructs ⟨rfl, 65536, le_refl _, hat⟩
    (hall env 0 header _ true hsend _ _ (fun x hx => ?_) fun x hx => (nomatch hx))
  rw [mem_singleton.mp hx]
  exact hinv

theorem two_reconstructs :
    Sendable env 0 header (txs 2) true ∧
      Reconstructs env 0 header (txs 2) true [((txAt 1).hash, txAt 1)] [] := by
  have hsend : Sendable env 0 header (txs 2) true := sendable true (by decide) (by decide)
  obtain ⟨-, ⟨-, hall⟩, hlen⟩ := hsend.reconstructs_iff
  have hnone : NoneWrapped env 0 header (txs 2) true := (hlen rfl).mpr (by decide)
  have hat : (txs 2)[1]? = some (txAt 1) := txs_at (by decide)
  refine ⟨hsend, hall hnone _ _ (fun x hx => ?_) fun x hx => (nomatch hx)⟩
  rw [mem_singleton.mp hx]
  exact hsend.involved (mem_of_getElem? hat) rfl

end CompactSample

end Rcoin
