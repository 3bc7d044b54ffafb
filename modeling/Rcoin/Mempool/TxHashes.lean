/-
  The vector `vTxHashes` of witness hashes and iterators, and the index into it
  that each entry holds, through the operations of the pool.  They agree with
  `mapTx` after every operation but one: `clear` empties `mapTx` and leaves the
  vector, so that its iterators dangle unless the pool was empty.

  Source: src/txmempool.{h,cpp}.
-/
import Rcoin.Lib.SlotTable
import Rcoin.Mempool.Reorg

namespace Rcoin

open CTxMemPool CTxMemPoolEntry Option

/-- The pool with `vTxHashes`; the `vTxHashesIdx` of the entries are the indices of
    the table. -/
structure HashedPool where
  pool : CTxMemPool
  txHashes : SlotTable Uint256 Uint256

namespace HashedPool

def vTxHashes (s : HashedPool) : List (Uint256 × Uint256) := s.txHashes.slots

def vTxHashesIdx (s : HashedPool) (it : Uint256) : Option Nat := s.txHashes.index.lookup it

def empty (mapDeltas : AList fun _ : Uint256 => Int) : HashedPool :=
  ⟨CTxMemPool.empty mapDeltas, .empty⟩

/-- An operation that leaves the vector alone. -/
def onPool (f : CTxMemPool → Option CTxMemPool) (s : HashedPool) : Option HashedPool :=
  (f s.pool).map fun pool => { s with pool }

end HashedPool

open HashedPool

/-- `_clear`; the vector of hashes is not mentioned. -/
def CTxMemPool.clear (pool : CTxMemPool) : CTxMemPool :=
  { pool with mapLinks := ∅, mapTx := ∅, mapNextTx := ∅, totalTxSize := 0 }

/-! ## The operations -/

namespace HashedPool

variable (env : MempoolEnv) (getWitnessHash : CTransaction → Uint256)

def addUnchecked (hash : Uint256) (entry : CTxMemPoolEntry) (setAncestors : SetEntries)
    (s : HashedPool) : Option HashedPool :=
  (env.addUnchecked hash entry setAncestors s.pool).map fun pool =>
    ⟨pool, s.txHashes.push (getWitnessHash entry.tx) entry.tx.hash⟩

/-- The slot of the entry is filled before the entry is erased. -/
def removeUnchecked (s : HashedPool) (it : Uint256) : Option HashedPool := do
  let txHashes ← s.txHashes.swapRemove it
  let pool ← env.removeUnchecked s.pool it
  some ⟨pool, txHashes⟩

def removeStaged (stage : SetEntries) (updateDescendants : Bool) (s : HashedPool) :
    Option HashedPool := do
  let s ← s.onPool (env.updateForRemoveFromMempool stage updateDescendants)
  stage.elems.foldlM (removeUnchecked env) s

def removeRecursive (origTx : CTransaction) (s : HashedPool) : Option HashedPool := do
  let txToRemove ← (if origTx.hash ∈ s.pool.mapTx then some (SortedSet.ofList [origTx.hash])
    else spendersOf s.pool origTx)
  let setAllRemoves ← s.pool.calculateAllDescendants txToRemove
  removeStaged env setAllRemoves false s

/-- With the entries that the changed chain makes invalid. -/
def removeForReorg (txToRemove : SetEntries) (s : HashedPool) : Option HashedPool := do
  let setAllRemoves ← s.pool.calculateAllDescendants txToRemove
  removeStaged env setAllRemoves false s

def removeConflict (tx : CTransaction) (s : HashedPool) (prevout : COutPoint) :
    Option HashedPool :=
  match s.pool.mapNextTx.lookup prevout with
  | none => some s
  | some txConflict =>
    if txConflict.hash ≠ tx.hash then
      removeRecursive env txConflict { s with pool := clearPrioritisation txConflict.hash s.pool }
    else some s

def removeConflicts (tx : CTransaction) (s : HashedPool) : Option HashedPool :=
  tx.prevouts.foldlM (removeConflict env tx) s

def removeForBlockTx (s : HashedPool) (tx : CTransaction) : Option HashedPool := do
  let s ← (if tx.hash ∈ s.pool.mapTx then
      removeStaged env (SortedSet.ofList [tx.hash]) true s
    else some s)
  let s ← removeConflicts env tx s
  some { s with pool := clearPrioritisation tx.hash s.pool }

def removeForBlock (vtx : List CTransaction) (s : HashedPool) : Option HashedPool :=
  vtx.foldlM (removeForBlockTx env) s

def expire (time : Int) (s : HashedPool) : Option HashedPool := do
  let toremove := SortedSet.ofList (s.pool.mapTx.keys.filter fun it =>
    (s.pool.mapTx.lookup it).any fun e => decide (e.nTime < time))
  let stage ← s.pool.calculateAllDescendants toremove
  removeStaged env stage false s

def trimLoop (sizelimit : Int) : Nat → HashedPool → Option HashedPool
  | 0, s => some s
  | fuel + 1, s =>
    if s.pool.mapTx.keys ≠ [] ∧ sizelimit < env.dynamicMemoryUsage s.pool then do
      let it ← env.descendantScoreBegin s.pool
      let stage ← s.pool.calculateDescendants it ∅
      let s ← removeStaged env stage false s
      trimLoop sizelimit fuel s
    else some s

def trimToSize (sizelimit : Int) (s : HashedPool) : Option HashedPool :=
  trimLoop env sizelimit s.pool.mapTx.keys.length s

def clear (s : HashedPool) : HashedPool := { s with pool := s.pool.clear }

end HashedPool

/-- The calls that change the pool. -/
inductive HashedOp where
  | addUnchecked (hash : Uint256) (entry : CTxMemPoolEntry) (setAncestors : SetEntries)
  | updateTransactionsFromBlock (vHashesToUpdate : List Uint256)
  | prioritiseTransaction (hash : Uint256) (nFeeDelta : Int)
  | clearPrioritisation (hash : Uint256)
  | removeStaged (stage : SetEntries) (updateDescendants : Bool)
  | removeRecursive (origTx : CTransaction)
  | removeForReorg (txToRemove : SetEntries)
  | removeConflicts (tx : CTransaction)
  | removeForBlock (vtx : List CTransaction)
  | expire (time : Int)
  | trimToSize (sizelimit : Int)
  | clear

namespace HashedPool

variable (env : MempoolEnv) (getWitnessHash : CTransaction → Uint256)

/-- `none` when an assertion fails or an iterator is used that has gone. -/
def step (s : HashedPool) : HashedOp → Option HashedPool
  | .addUnchecked hash entry setAncestors =>
    s.addUnchecked env getWitnessHash hash entry setAncestors
  | .updateTransactionsFromBlock vHashesToUpdate =>
    s.onPool (env.updateTransactionsFromBlock vHashesToUpdate)
  | .prioritiseTransaction hash nFeeDelta => s.onPool (prioritiseTransaction hash nFeeDelta)
  | .clearPrioritisation hash =>
    some { s with pool := CTxMemPool.clearPrioritisation hash s.pool }
  | .removeStaged stage updateDescendants => s.removeStaged env stage updateDescendants
  | .removeRecursive origTx => s.removeRecursive env origTx
  | .removeForReorg txToRemove => s.removeForReorg env txToRemove
  | .removeConflicts tx => s.removeConflicts env tx
  | .removeForBlock vtx => s.removeForBlock env vtx
  | .expire time => s.expire env time
  | .trimToSize sizelimit => s.trimToSize env sizelimit
  | .clear => some s.clear

end HashedPool

/-! ## Operations that keep the transactions -/

/-- The same transactions under the same iterators. -/
def SameTxs (pool pool' : CTxMemPool) : Prop :=
  ∀ k, (pool'.mapTx.lookup k).map tx = (pool.mapTx.lookup k).map tx

variable {α : Type} {hash : Uint256}

section SameTxs

variable {env : MempoolEnv} {pool pool' pool'' : CTxMemPool}

theorem SameTxs.refl (pool : CTxMemPool) : SameTxs pool pool := fun _ => rfl

theorem SameTxs.trans (h : SameTxs pool pool') (h' : SameTxs pool' pool'') : SameTxs pool pool'' :=
  fun k => (h' k).trans (h k)

theorem sameTxs_of_mapTx_eq (h : pool'.mapTx = pool.mapTx) : SameTxs pool pool' :=
  fun k => by rw [h]

theorem SameTxs.mem_iff (h : SameTxs pool pool') {k : Uint256} :
    k ∈ pool'.mapTx ↔ k ∈ pool.mapTx := by
  rw [← AList.lookup_isSome, ← AList.lookup_isSome, ← isSome_map (f := tx),
    h k, isSome_map]

variable {it : Uint256} {f : CTxMemPoolEntry → Option CTxMemPoolEntry}

theorem sameTxs_modifyEntry (hf : ∀ e e', f e = some e' → e'.tx = e.tx)
    (h : modifyEntry f pool it = some pool')
    : SameTxs pool pool' := by
  obtain ⟨e, e', he, hfe, htx, -⟩ := modifyEntry_tables h
  intro k
  rw [htx]
  split
  next hk => rw [hk, he, map_some, map_some, hf e e' hfe]
  · rfl

theorem tx_updateDescendantState {size fee count : Int} (e e' : CTxMemPoolEntry)
    (h : updateDescendantState size fee count e = some e') : e'.tx = e.tx := by
  rw [updateDescendantState_eq_some h, tx_adjust]

theorem tx_updateAncestorState {size fee count sigOps : Int} (e e' : CTxMemPoolEntry)
    (h : updateAncestorState size fee count sigOps e = some e') : e'.tx = e.tx := by
  rw [updateAncestorState_eq_some h, tx_adjust]

theorem foldlM_sameTxs {β : Type} (poolOf : α → CTxMemPool) {step : α → β → Option α}
    (hstep : ∀ st x st', step st x = some st' → SameTxs (poolOf st) (poolOf st')) {l : List β}
    {st st' : α} (h : l.foldlM step st = some st') : SameTxs (poolOf st) (poolOf st') := by
  induction l generalizing st with
  | nil =>
    obtain rfl := some.inj h
    exact SameTxs.refl _
  | cons x l ih =>
    obtain ⟨mid, hmid, h⟩ := bind_eq_some_iff.mp h
    exact (hstep st x mid hmid).trans (ih h)

theorem sameTxs_modifyAll (hf : ∀ e e', f e = some e' → e'.tx = e.tx) {its : List Uint256}
    (h : its.foldlM (modifyEntry f) pool = some pool') : SameTxs pool pool' :=
  foldlM_sameTxs id (fun _ _ _ hm => sameTxs_modifyEntry hf hm) h

theorem mapTx_foldl {β : Type} {step : CTxMemPool → β → CTxMemPool}
    (hstep : ∀ p x, (step p x).mapTx = p.mapTx) (l : List β) (pool : CTxMemPool) :
    (l.foldl step pool).mapTx = pool.mapTx := by
  induction l generalizing pool with
  | nil => rfl
  | cons x l ih => rw [List.foldl_cons, ih, hstep]

variable {setAncestors : SetEntries}

theorem sameTxs_updateAncestorsOf {add : Bool}
    (h : env.updateAncestorsOf add it setAncestors pool = some pool') : SameTxs pool pool' := by
  obtain ⟨parents, -, h⟩ := bind_eq_some_iff.mp h
  obtain ⟨e, -, h⟩ := bind_eq_some_iff.mp h
  have hmap : (parents.elems.foldl (fun pool piter => pool.updateChild piter it add) pool).mapTx =
      pool.mapTx := mapTx_foldl (by intro p x; rfl) _ _
  exact (sameTxs_of_mapTx_eq hmap).trans (sameTxs_modifyAll tx_updateDescendantState h)

theorem sameTxs_updateEntryForAncestors
    (h : env.updateEntryForAncestors it setAncestors pool = some pool') : SameTxs pool pool' := by
  obtain ⟨size, -, h⟩ := bind_eq_some_iff.mp h
  obtain ⟨fee, -, h⟩ := bind_eq_some_iff.mp h
  obtain ⟨sigOps, -, h⟩ := bind_eq_some_iff.mp h
  exact sameTxs_modifyEntry tx_updateAncestorState h

theorem sameTxs_updateForRemove {entriesToRemove : SetEntries} {updateDescendants : Bool}
    (h : env.updateForRemoveFromMempool entriesToRemove updateDescendants pool = some pool') :
    SameTxs pool pool' := by
  obtain ⟨p1, h1, h⟩ := bind_eq_some_iff.mp h
  obtain ⟨p2, h2, h3⟩ := bind_eq_some_iff.mp h
  have hdesc : SameTxs pool p1 := by
    cases updateDescendants with
    | false => exact some.inj h1 ▸ SameTxs.refl pool
    | true =>
      refine foldlM_sameTxs id (fun q it q' hq => ?_) h1
      obtain ⟨D, -, hq⟩ := bind_eq_some_iff.mp hq
      obtain ⟨e, -, hq⟩ := bind_eq_some_iff.mp hq
      exact sameTxs_modifyAll tx_updateAncestorState hq
  have hanc : SameTxs p1 p2 := by
    refine foldlM_sameTxs id (fun q it q' hq => ?_) h2
    obtain ⟨e, -, hq⟩ := bind_eq_some_iff.mp hq
    obtain ⟨A, -, hq⟩ := bind_eq_some_iff.mp hq
    exact sameTxs_updateAncestorsOf hq
  have hchildren : SameTxs p2 pool' := by
    refine foldlM_sameTxs id (fun q it q' hq => ?_) h3
    obtain ⟨children, -, hq⟩ := bind_eq_some_iff.mp hq
    obtain rfl := some.inj hq
    have hmap : (children.elems.foldl (fun pool updateIt => pool.updateParent updateIt it false)
        q).mapTx = q.mapTx :=
      mapTx_foldl (by intro p x; rfl) _ _
    exact sameTxs_of_mapTx_eq hmap
  exact (hdesc.trans hanc).trans hchildren

theorem sameTxs_prioritiseTransaction {nFeeDelta : Int}
    (h : prioritiseTransaction hash nFeeDelta pool = some pool') : SameTxs pool pool' := by
  rw [prioritiseTransaction] at h
  split at h
  · obtain ⟨p1, h1, h⟩ := bind_eq_some_iff.mp h
    obtain ⟨entry, -, h⟩ := bind_eq_some_iff.mp h
    obtain ⟨A, -, h⟩ := bind_eq_some_iff.mp h
    obtain ⟨p2, h2, h⟩ := bind_eq_some_iff.mp h
    obtain ⟨D, -, h3⟩ := bind_eq_some_iff.mp h
    have hfee : SameTxs pool p1 := by
      have hmodified := sameTxs_modifyEntry (fun e e' he => ?_) h1
      · exact fun k => hmodified k
      · rw [← some.inj he]
        rfl
    exact (hfee.trans (sameTxs_modifyAll tx_updateDescendantState h2)).trans
      (sameTxs_modifyAll tx_updateAncestorState h3)
  · obtain rfl := some.inj h
    exact sameTxs_of_mapTx_eq rfl

theorem sameTxs_updateTransactionsFromBlock {vHashesToUpdate : List Uint256}
    (h : env.updateTransactionsFromBlock vHashesToUpdate pool = some pool') :
    SameTxs pool pool' := by
  obtain ⟨st', hst, rfl⟩ := map_eq_some_iff.mp h
  refine foldlM_sameTxs Prod.fst (fun st hash st' hs => ?_) hst
  rw [MempoolEnv.updateTransactionFromBlock] at hs
  split at hs
  case isFalse =>
    obtain rfl := some.inj hs
    exact SameTxs.refl _
  obtain ⟨linked, hl, hs⟩ := bind_eq_some_iff.mp hs
  obtain ⟨stage, -, hs⟩ := bind_eq_some_iff.mp hs
  obtain ⟨D, -, hs⟩ := bind_eq_some_iff.mp hs
  obtain ⟨sums, hsums, hs⟩ := bind_eq_some_iff.mp hs
  obtain ⟨p, hp, hs⟩ := bind_eq_some_iff.mp hs
  obtain rfl := some.inj hs
  have hlinked : SameTxs st.1 linked.1 := by
    refine foldlM_sameTxs Prod.fst (fun q o q' hq => ?_) hl
    obtain ⟨tx, -, hq⟩ := bind_eq_some_iff.mp hq
    split at hq
    · split at hq
      · obtain rfl := some.inj hq
        exact sameTxs_of_mapTx_eq rfl
      · obtain rfl := some.inj hq
        exact SameTxs.refl _
    · nomatch hq
  have hcounted : SameTxs linked.1 sums.pool := by
    refine foldlM_sameTxs MempoolEnv.DescendantSums.pool (fun q c q' hq => ?_) hsums
    obtain ⟨e, -, hq⟩ := bind_eq_some_iff.mp hq
    split at hq
    · obtain rfl := some.inj hq
      exact SameTxs.refl _
    · obtain ⟨u, -, hq⟩ := bind_eq_some_iff.mp hq
      obtain ⟨p', hp', hq⟩ := bind_eq_some_iff.mp hq
      obtain rfl := some.inj hq
      exact sameTxs_modifyEntry tx_updateAncestorState hp'
  exact (hlinked.trans hcounted).trans (sameTxs_modifyEntry tx_updateDescendantState hp)

end SameTxs

/-! ## The bijection -/

/-- `vTxHashes` is in bijection with `mapTx`: each element refers to an entry,
    carries its witness hash, and its place is the index the entry holds. -/
structure Bijection (getWitnessHash : CTransaction → Uint256) (s : HashedPool) : Prop where
  size : s.vTxHashes.length = s.pool.mapTx.keys.length
  slot : ∀ (i : Nat) hash it, s.vTxHashes[i]? = some (hash, it) →
    ∃ e, s.pool.mapTx.lookup it = some e ∧ hash = getWitnessHash e.tx ∧ s.vTxHashesIdx it = some i
  entry : ∀ it ∈ s.pool.mapTx, ∃ (i : Nat) (hash : Uint256), s.vTxHashes[i]? = some (hash, it)

/-- The same, as the operations keep it. -/
structure Indexed (getWitnessHash : CTransaction → Uint256) (s : HashedPool) : Prop where
  valid : s.txHashes.Valid
  dom : ∀ it, it ∈ s.txHashes.index ↔ it ∈ s.pool.mapTx
  hash : ∀ p ∈ s.vTxHashes,
    (s.pool.mapTx.lookup p.2).map (fun e => getWitnessHash e.tx) = some p.1

variable {op : HashedOp}

section Indexed

variable {env : MempoolEnv} {getWitnessHash : CTransaction → Uint256} {s : HashedPool}

theorem Indexed.bijection (h : Indexed getWitnessHash s) : Bijection getWitnessHash s where
  size := by
    have hperm : s.txHashes.index.keys.Perm s.pool.mapTx.keys := by
      rw [List.perm_ext_iff_of_nodup (AList.keys_nodup _) (AList.keys_nodup _)]
      intro it
      rw [← AList.mem_keys, ← AList.mem_keys, h.dom]
    rw [← hperm.length_eq]
    exact h.valid.length_eq
  slot i hash it hi := by
    obtain ⟨e, he, hhash⟩ := map_eq_some_iff.mp (h.hash _ (List.mem_of_getElem? hi))
    exact ⟨e, he, hhash.symm, h.valid.noted i hash it hi⟩
  entry it hit := by
    obtain ⟨i, hi⟩ := isSome_iff_exists.mp (AList.lookup_isSome.mpr ((h.dom it).mpr hit))
    obtain ⟨hash, hslot⟩ := h.valid.slot it i hi
    exact ⟨i, hash, hslot⟩

theorem indexed_empty (mapDeltas : AList fun _ : Uint256 => Int) :
    Indexed getWitnessHash (.empty mapDeltas) where
  valid := SlotTable.valid_empty
  dom _ := Iff.rfl
  hash _ hp := nomatch hp

theorem Indexed.of_sameTxs (h : Indexed getWitnessHash s) {pool : CTxMemPool}
    (hsame : SameTxs s.pool pool) : Indexed getWitnessHash { s with pool } where
  valid := h.valid
  dom it := (h.dom it).trans hsame.mem_iff.symm
  hash p hp := by
    have hcomp : ∀ o : Option CTxMemPoolEntry, o.map (fun e => getWitnessHash e.tx) =
        (o.map tx).map getWitnessHash := fun o => by rw [map_map]; rfl
    rw [hcomp, hsame, ← hcomp]
    exact h.hash p hp

variable (getWitnessHash) in
/-- The result on the pool with its vector is that on the pool alone, and the
    vector is right again. -/
def Tracks (r : Option HashedPool) (r' : Option CTxMemPool) : Prop :=
  r.map pool = r' ∧ ∀ s, r = some s → Indexed getWitnessHash s

theorem Tracks.none : Tracks getWitnessHash none none := ⟨rfl, nofun⟩

theorem Tracks.some (h : Indexed getWitnessHash s) :
    Tracks getWitnessHash (some s) (some s.pool) :=
  ⟨rfl, fun _ hs => some.inj hs ▸ h⟩

variable {g : CTxMemPool → Option CTxMemPool}

theorem Tracks.bind {r : Option HashedPool} {r' : Option CTxMemPool}
    {f : HashedPool → Option HashedPool} (hr : Tracks getWitnessHash r r')
    (hf : ∀ s, Indexed getWitnessHash s → Tracks getWitnessHash (f s) (g s.pool)) :
    Tracks getWitnessHash (r >>= f) (r' >>= g) := by
  obtain ⟨rfl, hok⟩ := hr
  cases r with
  | none => exact Tracks.none
  | some s => exact hf s (hok s rfl)

theorem Tracks.bind_value {x : Option α} {f : α → Option HashedPool} {g : α → Option CTxMemPool}
    (hf : ∀ a, x = .some a → Tracks getWitnessHash (f a) (g a)) :
    Tracks getWitnessHash (x >>= f) (x >>= g) := by
  cases x with
  | none => exact Tracks.none
  | some a => exact hf a rfl

theorem Tracks.foldlM {f : HashedPool → α → Option HashedPool}
    {g : CTxMemPool → α → Option CTxMemPool}
    (hf : ∀ s a, Indexed getWitnessHash s → Tracks getWitnessHash (f s a) (g s.pool a))
    (h : Indexed getWitnessHash s) (l : List α) :
    Tracks getWitnessHash (l.foldlM f s) (l.foldlM g s.pool) := by
  induction l generalizing s with
  | nil => exact Tracks.some h
  | cons a l ih =>
    exact Tracks.bind (hf s a h) fun _ h' => ih h'

theorem Indexed.onPool (h : Indexed getWitnessHash s)
    (hg : ∀ pool, g s.pool = .some pool → SameTxs s.pool pool) :
    Tracks getWitnessHash (s.onPool g) (g s.pool) := by
  rw [HashedPool.onPool]
  rcases hpool : g s.pool with _ | pool
  · exact Tracks.none
  · exact Tracks.some (h.of_sameTxs (hg pool hpool))

/-! ### Each operation -/

variable {entry : CTxMemPoolEntry}

theorem tx_addUnchecked {pool pool' : CTxMemPool} (hnew : entry.tx.hash ∉ pool.mapTx)
    (h : env.addUnchecked hash entry setAncestors pool = .some pool') (k : Uint256) :
    (pool'.mapTx.lookup k).map tx =
      if k = entry.tx.hash then .some entry.tx
      else (pool.mapTx.lookup k).map tx := by
  set inserted : CTxMemPool := { pool with
    mapTx := Maps.insertNew pool.mapTx entry.tx.hash entry
    mapLinks := Maps.insertNew pool.mapLinks entry.tx.hash {} } with hins
  obtain ⟨p1, h1, h⟩ := bind_eq_some_iff.mp h
  obtain ⟨e, he, h⟩ := bind_eq_some_iff.mp h
  obtain ⟨p2, h2, h⟩ := bind_eq_some_iff.mp h
  obtain ⟨p3, h3, h⟩ := bind_eq_some_iff.mp h
  obtain rfl := some.inj h
  have hfee : SameTxs inserted p1 := by
    split at h1
    · refine sameTxs_modifyEntry (fun e e' he => ?_) h1
      rw [← some.inj he]
      rfl
    · exact some.inj h1 ▸ SameTxs.refl _
  have hparents : SameTxs p1 p2 := by
    refine SameTxs.trans (sameTxs_of_mapTx_eq ?_) (sameTxs_updateAncestorsOf h2)
    rw [mapTx_foldl]
    intro p x
    split
    · rfl
    · rfl
  have hall := (hfee.trans hparents).trans (sameTxs_updateEntryForAncestors h3)
  refine (hall k).trans ?_
  rw [Maps.lookup_insertNew]
  by_cases hk : k = entry.tx.hash
  · rw [if_pos hk, if_pos hk, AList.lookup_eq_none.mpr hnew, getD_none, map_some]
  · rw [if_neg hk, if_neg hk]

variable (h : Indexed getWitnessHash s)

include h

theorem Indexed.addUnchecked (hnew : entry.tx.hash ∉ s.pool.mapTx) :
    Tracks getWitnessHash (s.addUnchecked env getWitnessHash hash entry setAncestors)
      (env.addUnchecked hash entry setAncestors s.pool) := by
  rw [HashedPool.addUnchecked]
  rcases hpool : env.addUnchecked hash entry setAncestors s.pool with _ | pool
  · exact Tracks.none
  have htx := tx_addUnchecked hnew hpool
  refine Tracks.some ⟨h.valid.push _ fun hmem => hnew ((h.dom _).mp hmem), fun it => ?_,
    fun p hp => ?_⟩
  · change it ∈ s.txHashes.index.insert _ _ ↔ it ∈ pool.mapTx
    rw [AList.mem_insert, h.dom, ← AList.lookup_isSome (s := pool.mapTx),
      ← isSome_map (f := tx), htx]
    split
    next hit => simp [hit]
    next hit => rw [or_iff_right hit, isSome_map, AList.lookup_isSome]
  · have hcomp : ∀ o : Option CTxMemPoolEntry, o.map (fun e => getWitnessHash e.tx) =
        (o.map tx).map getWitnessHash := fun o => by rw [map_map]; rfl
    rw [hcomp, htx]
    rcases List.mem_append.mp hp with hold | hlast
    · have hhash := h.hash p hold
      have hne : p.2 ≠ entry.tx.hash := by
        intro heq
        obtain ⟨e, he, -⟩ := map_eq_some_iff.mp hhash
        exact hnew (heq ▸ mem_mapTx_iff.mpr ⟨e, he⟩)
      rw [if_neg hne, ← hcomp, hhash]
    · obtain rfl := List.mem_singleton.mp hlast
      rw [if_pos rfl, map_some]

theorem Indexed.removeUnchecked (it : Uint256) :
    Tracks getWitnessHash (s.removeUnchecked env it) (env.removeUnchecked s.pool it) := by
  rw [HashedPool.removeUnchecked]
  by_cases hit : it ∈ s.pool.mapTx
  · obtain ⟨t, ht, hvalid, hdom, hsub⟩ := h.valid.swapRemove ((h.dom it).mpr hit)
    obtain ⟨e, he⟩ := mem_mapTx_iff.mp hit
    rw [ht, MempoolEnv.removeUnchecked, he]
    refine Tracks.some ⟨hvalid, fun k => ?_, fun p hp => ?_⟩
    · rw [hdom, AList.mem_erase, h.dom]
    · have hhash := h.hash p (hsub p hp)
      have hne : p.2 ≠ it := by
        intro heq
        obtain ⟨i, hi⟩ := List.mem_iff_getElem?.mp hp
        have hnoted := hvalid.noted i p.1 p.2 hi
        have hmem : p.2 ∈ t.index := AList.lookup_isSome.mp (by rw [hnoted]; rfl)
        exact ((hdom p.2).mp hmem).1 heq
      rw [Maps.lookup_erase, if_neg hne]
      exact hhash
  · have hpool : env.removeUnchecked s.pool it = .none := by
      rw [MempoolEnv.removeUnchecked, AList.lookup_eq_none.mpr hit]
      rfl
    rw [hpool]
    cases s.txHashes.swapRemove it with
    | none => exact Tracks.none
    | some t => exact Tracks.none

theorem Indexed.removeStaged (stage : SetEntries) (updateDescendants : Bool) :
    Tracks getWitnessHash (s.removeStaged env stage updateDescendants)
      (env.removeStaged stage updateDescendants s.pool) :=
  Tracks.bind (h.onPool fun _ hpool => sameTxs_updateForRemove hpool) fun _ h' =>
    Tracks.foldlM (fun _ it hs => hs.removeUnchecked it) h' _

theorem Indexed.removeRecursive (origTx : CTransaction) :
    Tracks getWitnessHash (s.removeRecursive env origTx) (env.removeRecursive origTx s.pool) :=
  Tracks.bind_value fun _ _ => Tracks.bind_value fun _ _ => h.removeStaged _ _

theorem Indexed.clearPrioritisation (hash : Uint256) :
    Indexed getWitnessHash { s with pool := CTxMemPool.clearPrioritisation hash s.pool } :=
  h.of_sameTxs (sameTxs_of_mapTx_eq rfl)

theorem Indexed.removeConflicts (tx : CTransaction) :
    Tracks getWitnessHash (s.removeConflicts env tx) (env.removeConflicts tx s.pool) := by
  refine Tracks.foldlM (fun s o hs => ?_) h _
  rw [removeConflict, MempoolEnv.removeConflict]
  cases s.pool.mapNextTx.lookup o with
  | none => exact Tracks.some hs
  | some txConflict =>
    dsimp only
    split
    · exact (hs.clearPrioritisation txConflict.hash).removeRecursive txConflict
    · exact Tracks.some hs

theorem Indexed.removeForBlock (vtx : List CTransaction) :
    Tracks getWitnessHash (s.removeForBlock env vtx) (env.removeForBlock vtx s.pool) := by
  refine Tracks.foldlM (fun s tx hs => ?_) h _
  refine Tracks.bind ?_ fun s1 h1 => Tracks.bind (h1.removeConflicts tx) fun s2 h2 =>
    Tracks.some (h2.clearPrioritisation tx.hash)
  split
  · exact hs.removeStaged _ _
  · exact Tracks.some hs

theorem Indexed.expire (time : Int) :
    Tracks getWitnessHash (s.expire env time) (env.expire time s.pool) :=
  Tracks.bind_value fun _ _ => h.removeStaged _ _

theorem Indexed.trimLoop (sizelimit : Int) (fuel : Nat) :
    Tracks getWitnessHash (trimLoop env sizelimit fuel s)
      (env.trimLoop sizelimit fuel s.pool) := by
  induction fuel generalizing s with
  | zero => exact Tracks.some h
  | succ fuel ih =>
    rw [trimLoop, MempoolEnv.trimLoop]
    split
    · exact Tracks.bind_value fun _ _ => Tracks.bind_value fun _ _ =>
        Tracks.bind (h.removeStaged _ _) fun _ h' => ih h'
    · exact Tracks.some h

omit h

/-! ## Runs -/

/-- What the operation does to the pool. -/
def MempoolEnv.poolStep (env : MempoolEnv) (pool : CTxMemPool) : HashedOp → Option CTxMemPool
  | .addUnchecked hash entry setAncestors => env.addUnchecked hash entry setAncestors pool
  | .updateTransactionsFromBlock vHashesToUpdate =>
    env.updateTransactionsFromBlock vHashesToUpdate pool
  | .prioritiseTransaction hash nFeeDelta => prioritiseTransaction hash nFeeDelta pool
  | .clearPrioritisation hash => some (CTxMemPool.clearPrioritisation hash pool)
  | .removeStaged stage updateDescendants => env.removeStaged stage updateDescendants pool
  | .removeRecursive origTx => env.removeRecursive origTx pool
  | .removeForReorg txToRemove => do
    let setAllRemoves ← pool.calculateAllDescendants txToRemove
    env.removeStaged setAllRemoves false pool
  | .removeConflicts tx => env.removeConflicts tx pool
  | .removeForBlock vtx => env.removeForBlock vtx pool
  | .expire time => env.expire time pool
  | .trimToSize sizelimit => env.trimToSize sizelimit pool
  | .clear => some pool.clear

/-- A transaction that is added is not in the pool. -/
def AddsNew (s : HashedPool) : HashedOp → Prop
  | .addUnchecked _ entry _ => entry.tx.hash ∉ s.pool.mapTx
  | _ => True

/-- `clear` finds nothing to clear. -/
def ClearsNothing (s : HashedPool) : HashedOp → Prop
  | .clear => ∀ it, it ∉ s.pool.mapTx
  | _ => True

theorem Indexed.clear (h : Indexed getWitnessHash s) (hnone : ∀ it, it ∉ s.pool.mapTx) :
    Indexed getWitnessHash s.clear where
  valid := h.valid
  dom it := (h.dom it).trans ⟨fun hit => absurd hit (hnone it), fun hit => (nomatch hit)⟩
  hash p hp := by
    obtain ⟨e, he, -⟩ := map_eq_some_iff.mp (h.hash p hp)
    exact absurd (mem_mapTx_iff.mpr ⟨e, he⟩) (hnone p.2)

theorem Indexed.step (h : Indexed getWitnessHash s) (hnew : AddsNew s op)
    (hclear : ClearsNothing s op) :
    Tracks getWitnessHash (s.step env getWitnessHash op) (env.poolStep s.pool op) := by
  cases op with
  | addUnchecked hash entry setAncestors => exact h.addUnchecked hnew
  | updateTransactionsFromBlock vHashesToUpdate =>
    exact h.onPool fun _ hpool => sameTxs_updateTransactionsFromBlock hpool
  | prioritiseTransaction hash nFeeDelta =>
    exact h.onPool fun _ hpool => sameTxs_prioritiseTransaction hpool
  | clearPrioritisation hash => exact Tracks.some (h.clearPrioritisation hash)
  | removeStaged stage updateDescendants => exact h.removeStaged stage updateDescendants
  | removeRecursive origTx => exact h.removeRecursive origTx
  | removeForReorg txToRemove => exact Tracks.bind_value fun _ _ => h.removeStaged _ _
  | removeConflicts tx => exact h.removeConflicts tx
  | removeForBlock vtx => exact h.removeForBlock vtx
  | expire time => exact h.expire time
  | trimToSize sizelimit => exact h.trimLoop sizelimit _
  | clear => exact Tracks.some (h.clear hclear)

end Indexed

section Runs

variable (env : MempoolEnv) (getWitnessHash : CTransaction → Uint256)

/-- The condition holds of each operation in the state it finds. -/
def EachStep (P : HashedPool → HashedOp → Prop) (s : HashedPool) : List HashedOp → Prop
  | [] => True
  | op :: rest =>
    P s op ∧ ∀ s', s.step env getWitnessHash op = some s' → EachStep P s' rest

/-- The vector is in bijection with `mapTx` now and after each operation. -/
def BijectionThroughout (s : HashedPool) : List HashedOp → Prop
  | [] => Bijection getWitnessHash s
  | op :: rest => Bijection getWitnessHash s ∧
    ∀ s', s.step env getWitnessHash op = some s' → BijectionThroughout s' rest

variable {env getWitnessHash}

variable {s : HashedPool} {ops : List HashedOp}

theorem BijectionThroughout.start (h : BijectionThroughout env getWitnessHash s ops) :
    Bijection getWitnessHash s := by
  cases ops with
  | nil => exact h
  | cons op rest => exact h.1

theorem clearsNothing_of_bijection {s' : HashedPool} (h : Bijection getWitnessHash s)
    (hs : s.step env getWitnessHash op = some s') (h' : Bijection getWitnessHash s')
    : ClearsNothing s op := by
  cases op with
  | clear =>
    obtain rfl := some.inj hs
    intro it hit
    obtain ⟨i, hash, hslot⟩ := h.entry it hit
    obtain ⟨e, he, -⟩ := h'.slot i hash it hslot
    nomatch he
  | _ => trivial

theorem bijectionThroughout_iff (h : Indexed getWitnessHash s)
    (hnew : EachStep env getWitnessHash AddsNew s ops) :
    BijectionThroughout env getWitnessHash s ops ↔
      EachStep env getWitnessHash ClearsNothing s ops := by
  induction ops generalizing s with
  | nil => exact ⟨fun _ => trivial, fun _ => h.bijection⟩
  | cons op rest ih =>
    constructor
    · intro hbij
      have hclear : ClearsNothing s op := by
        rcases hs : s.step env getWitnessHash op with _ | s'
        · cases op with
          | clear => nomatch hs
          | _ => trivial
        · exact clearsNothing_of_bijection hbij.1 hs (hbij.2 s' hs).start
      refine ⟨hclear, fun s' hs => ?_⟩
      exact (ih ((h.step hnew.1 hclear).2 s' hs) (hnew.2 s' hs)).mp (hbij.2 s' hs)
    · intro hclear
      refine ⟨h.bijection, fun s' hs => ?_⟩
      exact (ih ((h.step hnew.1 hclear.1).2 s' hs) (hnew.2 s' hs)).mpr (hclear.2 s' hs)

/-- In a run from an empty pool that adds only new transactions, `vTxHashes` is in
    bijection with `mapTx` after each operation exactly if `clear` is called on an
    empty pool only. -/
theorem vTxHashes_run (env : MempoolEnv) (getWitnessHash : CTransaction → Uint256)
    (mapDeltas : AList fun _ : Uint256 => Int) (ops : List HashedOp)
    (hnew : EachStep env getWitnessHash AddsNew (.empty mapDeltas) ops) :
    BijectionThroughout env getWitnessHash (.empty mapDeltas) ops ↔
      EachStep env getWitnessHash ClearsNothing (.empty mapDeltas) ops :=
  bijectionThroughout_iff (indexed_empty mapDeltas) hnew

theorem eachStep_cons {P : HashedPool → HashedOp → Prop} {rest : List HashedOp} (s' : HashedPool)
    (hs : s.step env getWitnessHash op = some s') (hop : P s op)
    (h : EachStep env getWitnessHash P s' rest) : EachStep env getWitnessHash P s (op :: rest) := by
  refine ⟨hop, fun s1 hs1 => ?_⟩
  obtain rfl : s' = s1 := some.inj (hs.symm.trans hs1)
  exact h

end Runs

namespace HashesSample

open SamplePool

def addParent : HashedOp := .addUnchecked 1 (new env parent 10 0 4) ∅

def addChild : HashedOp :=
  .addUnchecked 2 (new env child 20 1 8) (SortedSet.ofList [1])

/-- The pool after the operations. -/
def after (ops : List HashedOp) : HashedPool :=
  (ops.foldlM (fun (s : HashedPool) op => s.step env CTransaction.hash op)
    (empty ∅)).getD (.empty ∅)

-- the last element takes the place of the one removed
example : (after [addParent, addChild]).vTxHashes = [(1, 1), (2, 2)] ∧
    (after [addParent, addChild, .removeForBlock [parent]]).vTxHashes = [(2, 2)] ∧
    (after [addParent, addChild, .removeForBlock [parent]]).vTxHashesIdx 2 = some 0 := by
  decide

/-- A transaction is added, and the pool is cleared. -/
theorem vTxHashes_clear :
    (after [addParent, .clear]).vTxHashes = [(1, 1)] ∧
      (after [addParent, .clear]).pool.mapTx.keys = [] ∧
      ¬ BijectionThroughout env CTransaction.hash (.empty ∅) [addParent, .clear] := by
  refine ⟨by decide, by decide, fun h => ?_⟩
  have hlast : Bijection CTransaction.hash (after [addParent, .clear]) :=
    h.2 (after [addParent]) rfl |>.2 _ rfl
  exact absurd hlast.size (by decide)

theorem vTxHashes_run_block :
    BijectionThroughout env CTransaction.hash (.empty ∅)
        [addParent, addChild, .removeForBlock [parent], .clear] ↔
      EachStep env CTransaction.hash ClearsNothing (.empty ∅)
        [addParent, addChild, .removeForBlock [parent], .clear] :=
  vTxHashes_run env CTransaction.hash ∅ _ <|
    eachStep_cons (after [addParent]) rfl legal_parent.new <|
      eachStep_cons (after [addParent, addChild]) rfl legal_child.new <|
        eachStep_cons (after [addParent, addChild, .removeForBlock [parent]]) rfl trivial <|
          eachStep_cons _ rfl trivial trivial

end HashesSample

end Rcoin
