/-
  `BatchWrite` and `Flush`: moving the dirty entries of a cache into its
  parent applies exactly the writes that made the cache's own map differ from
  the parent's, so a flush changes nothing a reader above can see.
-/
import Rcoin.Coins.Coherence

namespace Rcoin

open Maps CCoinsView List

/-- A key and a cache entry, as `cacheCoins` lists them. -/
abbrev CoinsMapItem := Sigma fun _ : COutPoint => CCoinsCacheEntry

/-- The writes a list of entries stands for: those of its dirty entries. -/
def dirtyWrites (entries : List CoinsMapItem) : List (Write COutPoint Coin) :=
  entries.filterMap fun x => if x.2.dirty then some (x.1, x.2.coin.unspent?) else none

@[simp] theorem dirtyWrites_nil : dirtyWrites [] = [] := rfl

variable {o : COutPoint} {e : CCoinsCacheEntry}

theorem dirtyWrites_cons_dirty (h : e.dirty = true) (rest : List CoinsMapItem) :
    dirtyWrites (⟨o, e⟩ :: rest) = (o, e.coin.unspent?) :: dirtyWrites rest := by
  simp [dirtyWrites, h]

theorem dirtyWrites_cons_clean (h : e.dirty = false) (rest : List CoinsMapItem)
    : dirtyWrites (⟨o, e⟩ :: rest) = dirtyWrites rest := by
  simp [dirtyWrites, h]

theorem dirtyWrites_cons (x : CoinsMapItem) (rest : List CoinsMapItem) :
    dirtyWrites (x :: rest) = dirtyWrites [x] ++ dirtyWrites rest := by
  rw [dirtyWrites, dirtyWrites, dirtyWrites, ← filterMap_append]; rfl

variable {entries : List CoinsMapItem} {w : Write COutPoint Coin}

theorem mem_dirtyWrites : w ∈ dirtyWrites entries ↔
      ∃ e, (⟨w.1, e⟩ : CoinsMapItem) ∈ entries ∧ e.dirty = true ∧ w.2 = e.coin.unspent? := by
  simp only [dirtyWrites, mem_filterMap]
  constructor
  · rintro ⟨⟨o, e⟩, hmem, hw⟩
    by_cases hd : e.dirty = true
    · rw [if_pos hd] at hw
      cases hw
      exact ⟨e, hmem, hd, rfl⟩
    · rw [if_neg hd] at hw; cases hw
  · rintro ⟨e, hmem, hd, hw⟩
    refine ⟨⟨w.1, e⟩, hmem, ?_⟩
    rw [if_pos hd, ← hw]

theorem key_mem_of_mem_dirtyWrites (h : w ∈ dirtyWrites entries)
    : w.1 ∈ entries.keys := by
  obtain ⟨e, he, -⟩ := mem_dirtyWrites.mp h
  exact List.mem_keys.mpr ⟨e, he⟩

theorem writes_dirtyWrites_of_mem (hnd : entries.NodupKeys) (m : COutPoint → Option Coin)
    (hmem : (⟨o, e⟩ : CoinsMapItem) ∈ entries) (hd : e.dirty = true) :
    writes m (dirtyWrites entries) o = e.coin.unspent? := by
  induction entries generalizing m with
  | nil => cases hmem
  | cons x rest ih =>
    obtain ⟨o', e'⟩ := x
    obtain ⟨hno, hrest⟩ := nodupKeys_cons.mp hnd
    rcases mem_cons.mp hmem with heq | hmem'
    · cases heq
      rw [dirtyWrites_cons_dirty hd, writes_cons, writes_of_forall_ne, write_apply, if_pos rfl]
      intro w hw hwo
      exact hno (hwo ▸ key_mem_of_mem_dirtyWrites hw)
    · by_cases hd' : e'.dirty = true
      · rw [dirtyWrites_cons_dirty hd', writes_cons]
        exact ih hrest _ hmem'
      · rw [dirtyWrites_cons_clean (by simpa using hd')]
        exact ih hrest _ hmem'

variable {m : CCoinsMap}

variable {h : Uint256} {base : CCoinsView}

theorem CCoinsView.coinAt_cache_eq_writes (hv : (cache h m base).Coherent) :
    (cache h m base).coinAt = writes base.coinAt (dirtyWrites m.entries) := by
  funext o
  by_cases hd : ∃ e, m.lookup o = some e ∧ e.dirty = true
  · obtain ⟨e, he, hd⟩ := hd
    rw [coinAt_cache_of_lookup he,
      writes_dirtyWrites_of_mem m.nodupKeys _ (lookup_eq_some_iff_mem.mp he) hd]
  · rw [writes_of_forall_ne]
    · cases he : m.lookup o with
      | none => exact coinAt_cache_of_not_mem he
      | some e =>
        have hcl : e.dirty = false := by
          cases hdd : e.dirty
          · rfl
          · exact absurd ⟨e, he, hdd⟩ hd
        rw [coinAt_cache_of_lookup he, (hv.2 o e he).clean hcl]
    · rintro w hw rfl
      obtain ⟨e, he, hdd, -⟩ := mem_dirtyWrites.mp hw
      exact hd ⟨e, lookup_eq_some_iff_mem.mpr he, hdd⟩

/-! ## The loop of a cache's `BatchWrite` -/

theorem CCoinsViewCache.batchWriteEntry_spec (hv : (cache h m base).Coherent)
    (he : e.Ok ((cache h m base).coinAt o)) :
    ∃ m', batchWriteEntry m o e = .ok m' ∧ (cache h m' base).Coherent ∧
      (cache h m' base).coinAt =
        writes (cache h m base).coinAt (dirtyWrites [⟨o, e⟩]) := by
  unfold batchWriteEntry
  by_cases hd : e.dirty = true
  swap
  · have hd' : e.dirty = false := by simpa using hd
    rw [if_neg hd, dirtyWrites_cons_clean hd']
    exact ⟨m, rfl, hv, rfl⟩
  rw [if_pos hd, dirtyWrites_cons_dirty hd, dirtyWrites_nil, writes_cons, writes_nil]
  cases hus : m.lookup o with
  | none =>
    -- the parent has no entry: what it shows there comes from below
    have hat : (cache h m base).coinAt o = base.coinAt o :=
      coinAt_cache_of_not_mem hus
    by_cases hfs : (e.fresh && e.coin.isSpent) = true
    · simp only [hfs, if_true]
      obtain ⟨hf, hs⟩ := Bool.and_eq_true_iff.mp hfs
      refine ⟨m, rfl, hv, ?_⟩
      rw [Coin.unspent?_of_isSpent hs]
      exact (write_eq_self (he.fresh hf)).symm
    · simp only [hfs, Bool.false_eq_true, if_false]
      refine ⟨_, rfl, hv.insert ⟨fun hn => (by cases hn), fun hf => ?_⟩, coinAt_cache_insert ..⟩
      rw [← hat]
      exact he.fresh hf
  | some itUs =>
    have hat : (cache h m base).coinAt o = itUs.coin.unspent? :=
      coinAt_cache_of_lookup hus
    have hthrow : (e.fresh && !itUs.coin.isSpent) = false := by
      cases hf : e.fresh with
      | false => rfl
      | true =>
        have hn := he.fresh hf
        rw [hat] at hn
        rw [Coin.unspent?_eq_none_iff.mp hn]
        rfl
    simp only [hthrow, Bool.false_eq_true, if_false]
    by_cases hes : (itUs.fresh && e.coin.isSpent) = true
    · simp only [hes, if_true]
      obtain ⟨hf, hs⟩ := Bool.and_eq_true_iff.mp hes
      refine ⟨_, rfl, hv.erase o, ?_⟩
      rw [coinAt_cache_erase, (hv.2 o itUs hus).fresh hf, Coin.unspent?_of_isSpent hs]
    · simp only [hes, Bool.false_eq_true, if_false]
      exact ⟨_, rfl, hv.insert ⟨fun hn => (by cases hn), (hv.2 o itUs hus).fresh⟩,
        coinAt_cache_insert ..⟩

/-- The whole loop, by induction on the entries; the keys are distinct, so an
    entry's promise about the parent's map survives the entries before it. -/
theorem CCoinsViewCache.batchWriteLoop_spec (entries : List CoinsMapItem) (hnd : entries.NodupKeys)
    (hv : (cache h m base).Coherent)
    (he : ∀ x ∈ entries, x.2.Ok ((cache h m base).coinAt x.1)) :
    ∃ m', batchWriteLoop m entries = .ok m' ∧ (cache h m' base).Coherent ∧
      (cache h m' base).coinAt =
        writes (cache h m base).coinAt (dirtyWrites entries) := by
  induction entries generalizing m with
  | nil => exact ⟨m, rfl, hv, rfl⟩
  | cons x rest ih =>
    obtain ⟨o, e⟩ := x
    obtain ⟨hno, hrest⟩ := nodupKeys_cons.mp hnd
    obtain ⟨m1, hm1, hv1, hat1⟩ := batchWriteEntry_spec hv (he ⟨o, e⟩ (mem_cons_self ..))
    have he1 : ∀ x ∈ rest, x.2.Ok ((cache h m1 base).coinAt x.1) := by
      intro x hx
      rw [hat1, writes_of_forall_ne]
      · exact he x (mem_cons_of_mem _ hx)
      · intro w hw hwx
        have hwo : w.1 = o := by simpa using key_mem_of_mem_dirtyWrites hw
        have hxo : x.1 = o := hwx.symm.trans hwo
        have hk : x.1 ∈ rest.keys := mem_keys_of_mem hx
        exact hno (hxo ▸ hk)
    obtain ⟨m', hm', hv', hat'⟩ := ih hrest hv1 he1
    refine ⟨m', ?_, hv', ?_⟩
    · simp only [batchWriteLoop, hm1, hm']
    · rw [hat', hat1, ← writes_append, ← dirtyWrites_cons]

/-! ## The database's `BatchWrite` -/

namespace CCoinsViewDB

/-- The coin records, as a map. -/
def coinAt (d : CCoinsViewDB) : COutPoint → Option Coin := d.coins.lookup

/-- The coin write an operation makes, if it is about a coin. -/
def opWrite : BatchOp → Option (Write COutPoint Coin)
  | .writeCoin o coin => some (o, some coin)
  | .eraseCoin o => some (o, none)
  | _ => none

variable (d : CCoinsViewDB)

theorem coinAt_applyOp (op : BatchOp) :
    (d.applyOp op).coinAt = writes d.coinAt (opWrite op).toList := by
  cases op with
  | writeCoin o coin =>
    funext o'
    show (d.coins.insert o coin).lookup o' = write d.coinAt (o, some coin) o'
    rw [Maps.lookup_insert, write_apply]; rfl
  | eraseCoin o =>
    funext o'
    show (d.coins.erase o).lookup o' = write d.coinAt (o, none) o'
    rw [Maps.lookup_erase, write_apply]; rfl
  | writeBestBlock hash => rfl
  | eraseBestBlock => rfl
  | writeHeadBlocks hashes => rfl
  | eraseHeadBlocks => rfl

theorem coinAt_writeBatch (batch : List BatchOp) :
    (d.writeBatch batch).coinAt = writes d.coinAt (batch.filterMap opWrite) := by
  induction batch generalizing d with
  | nil => rfl
  | cons op rest ih =>
    show ((d.applyOp op).writeBatch rest).coinAt = _
    rw [ih, coinAt_applyOp]
    cases hop : opWrite op with
    | none => rw [filterMap_cons_none hop]; rfl
    | some w => rw [filterMap_cons_some hop]; rfl

theorem filterMap_opWrite_entryOps (o : COutPoint) (e : CCoinsCacheEntry) :
    (entryOps o e).filterMap opWrite = dirtyWrites [⟨o, e⟩] := by
  unfold entryOps
  by_cases hd : e.dirty = true
  · rw [if_pos hd, dirtyWrites_cons_dirty hd]
    by_cases hs : e.coin.isSpent = true
    · rw [if_pos hs, Coin.unspent?_of_isSpent hs]; rfl
    · rw [if_neg hs, Coin.unspent?_of_not_isSpent (by simpa using hs)]; rfl
  · rw [if_neg hd, dirtyWrites_cons_clean (by simpa using hd)]; rfl

theorem writeBatch_append (b b' : List BatchOp) :
    d.writeBatch (b ++ b') = (d.writeBatch b).writeBatch b' := foldl_append

theorem batches_flatten (full : List BatchOp → Bool) (hashBlock : Uint256)
    (entries : List CoinsMapItem) (batch : List BatchOp) :
    (batches full hashBlock entries batch).flatten =
      batch ++ entries.flatMap (fun x => entryOps x.1 x.2) ++
        [.eraseHeadBlocks, .writeBestBlock hashBlock] := by
  induction entries generalizing batch with
  | nil => simp [batches]
  | cons x rest ih =>
    simp only [batches]
    split
    · rw [flatten_cons, ih]
      simp [append_assoc]
    · rw [ih]
      simp [append_assoc]

theorem foldl_writeBatch (bs : List (List BatchOp)) :
    bs.foldl writeBatch d = d.writeBatch bs.flatten := by
  induction bs generalizing d with
  | nil => rfl
  | cons b rest ih => rw [foldl_cons, ih, flatten_cons, writeBatch_append]

theorem filterMap_opWrite_entries (entries : List CoinsMapItem) :
    (entries.flatMap fun x => entryOps x.1 x.2).filterMap opWrite = dirtyWrites entries := by
  induction entries with
  | nil => rfl
  | cons x rest ih =>
    rw [flatMap_cons, filterMap_append, ih, filterMap_opWrite_entryOps,
      ← dirtyWrites_cons]

variable {hashBlock : Uint256}

theorem batchWriteEntries_spec {full : List BatchOp → Bool} {d d' : CCoinsViewDB}
    (h : batchWriteEntries full d entries hashBlock = .ok d') :
    d'.coinAt = writes d.coinAt (dirtyWrites entries) ∧ d'.bestBlock = hashBlock ∧
      d'.headBlocks = [] := by
  unfold batchWriteEntries at h
  split at h
  · cases h
  split at h
  · cases h
  rename_i old_tip _
  cases h
  rw [foldl_writeBatch, batches_flatten]
  refine ⟨?_, ?_, ?_⟩
  · have hhead : (headerOps hashBlock old_tip).filterMap opWrite = [] := rfl
    have htail : [BatchOp.eraseHeadBlocks, .writeBestBlock hashBlock].filterMap opWrite = [] := rfl
    rw [coinAt_writeBatch, filterMap_append, filterMap_append,
      filterMap_opWrite_entries, hhead, htail, nil_append, append_nil]
  · rw [writeBatch_append]; rfl
  · rw [writeBatch_append]; rfl

theorem batchWrite_spec {d d' : CCoinsViewDB} (h : d.batchWrite m hashBlock = .ok d') :
    d'.coinAt = writes d.coinAt (dirtyWrites m.entries) ∧ d'.bestBlock = hashBlock ∧
      d'.headBlocks = [] := batchWriteEntries_spec h

end CCoinsViewDB

theorem not_isSpent_writes_dirtyWrites {m : COutPoint → Option Coin}
    (hm : ∀ o coin, m o = some coin → coin.isSpent = false) (entries : List CoinsMapItem) :
    ∀ o coin, writes m (dirtyWrites entries) o = some coin → coin.isSpent = false := by
  induction entries generalizing m with
  | nil => exact hm
  | cons x rest ih =>
    obtain ⟨o', e⟩ := x
    by_cases hd : e.dirty = true
    · rw [dirtyWrites_cons_dirty hd, writes_cons]
      refine ih fun o coin h => ?_
      rw [write_apply] at h
      split at h
      · obtain ⟨rfl, hs⟩ := Coin.unspent?_eq_some_iff.mp h
        exact hs
      · exact hm o coin h
    · rw [dirtyWrites_cons_clean (by simpa using hd)]
      exact ih hm

/-! ## Any view -/

theorem CCoinsView.batchWrite_spec {v v' : CCoinsView} (hv : v.Coherent) {hashBlockIn : Uint256}
    (hm : ∀ o e, m.lookup o = some e → e.Ok (v.coinAt o))
    (h : v.batchWrite m hashBlockIn = .ok v') :
    v'.coinAt = writes v.coinAt (dirtyWrites m.entries) ∧ v'.Coherent := by
  cases v with
  | db d =>
    simp only [batchWrite] at h
    split at h
    · cases h
    · rename_i d' hd'
      cases h
      have hat := (CCoinsViewDB.batchWrite_spec hd').1
      refine ⟨hat, fun o coin ho => ?_⟩
      have ho' : d'.coinAt o = some coin := ho
      rw [hat] at ho'
      exact not_isSpent_writes_dirtyWrites hv m.entries o coin ho'
  | cache hb mc base =>
    have hit : ∀ x ∈ m.entries, x.2.Ok ((cache hb mc base).coinAt x.1) :=
      fun x hx => hm x.1 x.2 (lookup_eq_some_iff_mem.mpr hx)
    obtain ⟨m', hm', hv', hat'⟩ :=
      CCoinsViewCache.batchWriteLoop_spec m.entries m.nodupKeys hv hit
    simp only [batchWrite, hm'] at h
    cases h
    exact ⟨hat', hv'⟩

theorem CCoinsViewCache.flush_spec {c c' : CCoinsViewCache} (hc : c.Coherent)
    (h : c.flush = .ok c') :
    c.SameCoins c' ∧ c'.base.coinAt = c.coinAt ∧ c'.cacheCoins = ∅ := by
  obtain ⟨hb, m, b⟩ := c
  unfold flush at h
  split at h
  · cases h
  · rename_i base' hbase'
    cases h
    obtain ⟨hat, hcoh⟩ := batchWrite_spec hc.1 hc.2 hbase'
    have hsame : base'.coinAt = (cache hb m b).coinAt := by
      rw [hat, coinAt_cache_eq_writes hc]
    have hempty : (cache hb ∅ base').coinAt = base'.coinAt := by
      funext o
      exact coinAt_cache_of_not_mem (AList.lookup_empty o)
    refine ⟨⟨hempty.trans hsame, fun _ => ⟨hcoh, fun o e he => ?_⟩⟩, hsame, rfl⟩
    cases he

end Rcoin
