/-
  `cachedCoinsUsage` against the sum it stands for.  Every call that returns
  keeps the two equal.  Of the calls that throw, a direct `BatchWrite` does so
  as well; `AddCoin` has taken the old coin off the sum before it throws, and
  `Flush` has lost the entries its parent took before that threw.
-/
import Rcoin.Coins.Metered

namespace Rcoin

open Maps List MeteredEntry

/-! ## Stores whose sum is right -/

/-- `cachedCoinsUsage` is the sum of `DynamicMemoryUsage` over `cacheCoins`. -/
def CoinStore.Accounted (s : CoinStore) : Prop :=
  s.cachedCoinsUsage = sumOf usage s.cacheCoins

/-- The sum is right in every cache of a stack. -/
def MeteredView.Accounted : MeteredView → Prop
  | .db _ => True
  | .cache _ s base => s.Accounted ∧ base.Accounted

namespace CoinStore

variable {s : CoinStore} {o : COutPoint} {e : MeteredEntry}

theorem accounted_empty : CoinStore.empty.Accounted := rfl

variable (hs : s.Accounted)

include hs

theorem Accounted.insert_new (hno : s.cacheCoins.lookup o = none) :
    Accounted ⟨s.cacheCoins.insert o e, s.cachedCoinsUsage + e.usage⟩ := by
  show s.cachedCoinsUsage + e.usage = sumOf usage (s.cacheCoins.insert o e)
  rw [sumOf_insert_new hno, hs.symm, add_comm]

theorem Accounted.erase (he : s.cacheCoins.lookup o = some e) :
    Accounted ⟨s.cacheCoins.erase o, s.cachedCoinsUsage - e.usage⟩ := by
  show s.cachedCoinsUsage - e.usage = sumOf usage (s.cacheCoins.erase o)
  rw [show s.cachedCoinsUsage = _ from hs, sumOf_erase he]
  abel

theorem Accounted.replace (e' : MeteredEntry) (he : s.cacheCoins.lookup o = some e) :
    Accounted ⟨s.cacheCoins.insert o e', s.cachedCoinsUsage - e.usage + e'.usage⟩ := by
  show s.cachedCoinsUsage - e.usage + e'.usage = sumOf usage (s.cacheCoins.insert o e')
  rw [show s.cachedCoinsUsage = _ from hs, sumOf_erase he, sumOf_insert_eq]
  abel

theorem accounted_without_iff (u : SizeT) :
    Accounted ⟨s.cacheCoins, s.cachedCoinsUsage - u⟩ ↔ u = 0 := by
  show s.cachedCoinsUsage - u = sumOf usage s.cacheCoins ↔ _
  rw [show s.cachedCoinsUsage = _ from hs, sub_eq_self]

/-! ## Batch writes -/

theorem Accounted.batchWriteEntry {s' : CoinStore} (h : s.batchWriteEntry o e = .ok s') :
    s'.Accounted := by
  unfold CoinStore.batchWriteEntry at h
  split at h
  case isFalse => cases h; exact hs
  split at h
  next hno =>
    split at h
    · cases h; exact hs
    · cases h; exact hs.insert_new hno
  next itUs hus =>
    split at h
    · nomatch h
    split at h
    · cases h; exact hs.erase hus
    · cases h; exact hs.replace _ hus

theorem Accounted.batchWriteLoop (entries : List MeteredItem) :
    (s.batchWriteLoop entries).target.Accounted := by
  induction entries generalizing s with
  | nil => exact hs
  | cons x rest ih =>
    unfold CoinStore.batchWriteLoop
    cases hstep : s.batchWriteEntry x.1 x.2 with
    | error err => exact hs
    | ok s' => exact ih (hs.batchWriteEntry hstep)

omit hs

/-- The test of `BatchWrite` that throws: an entry that is `FRESH` over one of
    the parent that is not spent. -/
def conflicts (parent : CoinStore) (x : MeteredItem) : Bool :=
  x.2.dirty && (x.2.fresh && (parent.cacheCoins.lookup x.1).any fun itUs => !itUs.coin.isSpent)

theorem batchWriteEntry_error_iff :
    (∃ err, s.batchWriteEntry o e = .error err) ↔ s.conflicts ⟨o, e⟩ = true := by
  unfold CoinStore.batchWriteEntry conflicts
  by_cases hd : e.dirty = true
  · rw [if_pos hd, hd, Bool.true_and]
    cases s.cacheCoins.lookup o with
    | none =>
      simp only [Option.any_none, Bool.and_false, Bool.false_eq_true, iff_false]
      rintro ⟨err, h⟩
      split at h <;> nomatch h
    | some itUs =>
      by_cases hbad : (e.fresh && !itUs.coin.isSpent) = true
      · exact ⟨fun _ => hbad, fun _ => ⟨_, if_pos hbad⟩⟩
      · refine ⟨?_, fun h => absurd h hbad⟩
        rintro ⟨err, h⟩
        dsimp only at h
        rw [if_neg hbad] at h
        split at h <;> nomatch h
  · rw [if_neg hd]
    simp only [hd, Bool.false_and, Bool.false_eq_true, iff_false]
    rintro ⟨err, h⟩
    nomatch h

theorem lookup_batchWriteEntry {s' : CoinStore} (h : s.batchWriteEntry o e = .ok s')
    {o' : COutPoint} (hne : o' ≠ o) : s'.cacheCoins.lookup o' = s.cacheCoins.lookup o' := by
  unfold CoinStore.batchWriteEntry at h
  split at h
  case isFalse => cases h; rfl
  split at h
  · split at h
    · cases h; rfl
    · cases h; exact AList.lookup_insert_ne hne
  · split at h
    · nomatch h
    split at h
    · cases h; exact AList.lookup_erase_ne hne
    · cases h; exact AList.lookup_insert_ne hne

/-- The loop takes the entries before the first conflict, and throws if there
    is one.  The outpoints of a map are distinct, so the steps before an entry
    do not change what `conflicts` looks up for it. -/
theorem batchWriteLoop_consumed {p : MeteredItem → Bool} {entries : List MeteredItem}
    (hnd : entries.NodupKeys) (hp : ∀ y ∈ entries, s.conflicts y = p y) :
    (s.batchWriteLoop entries).consumed = entries.findIdx p ∧
      (s.batchWriteLoop entries).thrown.isSome = entries.any p := by
  induction entries generalizing s with
  | nil => exact ⟨rfl, rfl⟩
  | cons x rest ih =>
    obtain ⟨o, e⟩ := x
    obtain ⟨hnot, hrest⟩ := nodupKeys_cons.mp hnd
    have hiff := batchWriteEntry_error_iff (s := s) (o := o) (e := e)
    rw [hp _ (mem_cons_self ..)] at hiff
    rw [findIdx_cons, any_cons]
    unfold CoinStore.batchWriteLoop
    cases hstep : s.batchWriteEntry o e with
    | error err =>
      rw [hiff.mp ⟨err, hstep⟩]
      exact ⟨rfl, rfl⟩
    | ok s' =>
      have hpass : p ⟨o, e⟩ = false := by
        rw [← Bool.not_eq_true, ← hiff, hstep]
        rintro ⟨err, h⟩
        nomatch h
      have hp' : ∀ y ∈ rest, s'.conflicts y = p y := by
        intro y hy
        have hne : y.1 ≠ o := by
          intro heq
          have hmem : y.1 ∈ rest.keys := List.mem_map_of_mem hy
          exact hnot (heq ▸ hmem)
        rw [← hp y (mem_cons_of_mem _ hy)]
        unfold conflicts
        rw [lookup_batchWriteEntry hstep hne]
      obtain ⟨hcount, hthrown⟩ := ih hrest hp'
      rw [hpass, ← hcount]
      exact ⟨rfl, hthrown⟩

theorem sumOf_dropEntries (m : MeteredMap) (n : Nat) :
    sumOf usage m =
      ((m.entries.take n).map fun x => x.2.usage).sum + sumOf usage (dropEntries m n) := by
  show _ = _ + ((m.entries.drop n).map fun x => x.2.usage).sum
  rw [← sum_append, ← map_append, take_append_drop]
  rfl

end CoinStore

open CoinStore

/-! ## Calls on one cache -/

/-- The sums are right in a cache and in all caches below it. -/
def MeteredCache.Accounted (c : MeteredCache) : Prop := c.toView.Accounted

theorem MeteredCache.Accounted.emplaceFetched {c : MeteredCache} {o : COutPoint}
    (hc : c.Accounted) (hno : c.store.cacheCoins.lookup o = none)
    {r : Option Coin × MeteredView} (hr : r.2.Accounted) : (c.emplaceFetched o r).2.Accounted := by
  obtain ⟨_ | tmp, base'⟩ := r
  · exact ⟨hc.1, hr⟩
  · exact ⟨hc.1.insert_new hno, hr⟩

variable {v : MeteredView}

theorem MeteredView.Accounted.getCoin (hv : v.Accounted) (o : COutPoint) :
    (v.getCoin o).2.Accounted := by
  induction v with
  | db d => trivial
  | cache h s base ih =>
    unfold MeteredView.getCoin
    split
    · exact hv
    next hno => exact MeteredCache.Accounted.emplaceFetched (c := ⟨h, s, base⟩) hv hno (ih hv.2)

theorem MeteredView.Accounted.getBestBlock (hv : v.Accounted) : v.getBestBlock.2.Accounted := by
  induction v with
  | db d => trivial
  | cache h s base ih =>
    unfold MeteredView.getBestBlock
    split
    · exact ⟨hv.1, ih hv.2⟩
    · exact hv

theorem MeteredView.Accounted.batchWrite (hv : v.Accounted) (m : MeteredMap) (hash : Uint256)
    : (v.batchWrite m hash).target.Accounted := by
  cases v with
  | db d =>
    unfold MeteredView.batchWrite
    dsimp only
    split <;> trivial
  | cache h s base =>
    have hloop := hv.1.batchWriteLoop m.entries
    unfold MeteredView.batchWrite
    dsimp only
    split <;> exact ⟨hloop, hv.2⟩

namespace MeteredCache

variable {c : MeteredCache} {o : COutPoint}

theorem Accounted.fetchCoin (hc : c.Accounted) (o : COutPoint) : (c.fetchCoin o).2.Accounted := by
  unfold MeteredCache.fetchCoin
  split
  · exact hc
  next hno => exact hc.emplaceFetched hno (hc.2.getCoin o)

theorem fetchCoin_lookup (e : MeteredEntry) (h : (c.fetchCoin o).1 = some e) :
    (c.fetchCoin o).2.store.cacheCoins.lookup o = some e := by
  unfold fetchCoin at h ⊢
  cases hl : c.store.cacheCoins.lookup o with
  | some e' =>
    rw [hl] at h
    cases h
    exact hl
  | none =>
    rw [hl] at h
    rcases hr : c.base.getCoin o with ⟨_ | tmp, base'⟩ <;> rw [hr] at h <;> cases h
    exact AList.lookup_insert ..

theorem Accounted.spendCoin (hc : c.Accounted) (o : COutPoint) : (c.spendCoin o).Accounted := by
  have hfetch := hc.fetchCoin o
  have hlookup := fetchCoin_lookup (c := c) (o := o)
  unfold MeteredCache.spendCoin
  rcases hr : c.fetchCoin o with ⟨_ | e, c'⟩
  · rw [hr] at hfetch
    exact hfetch
  · rw [hr] at hfetch hlookup
    have he := hlookup e rfl
    dsimp only
    split
    · exact ⟨hfetch.1.erase he, hfetch.2⟩
    · -- an entry that is left empty holds nothing
      have hrep := hfetch.1.replace { e with coin := .empty, dirty := true } he
      rw [show usage { e with coin := .empty, dirty := true } = 0 from rfl,
        add_zero] at hrep
      exact ⟨hrep, hfetch.2⟩

theorem Accounted.uncache (hc : c.Accounted) (o : COutPoint) : (c.uncache o).Accounted := by
  unfold MeteredCache.uncache
  split
  next e he =>
    split
    · exact ⟨hc.1.erase he, hc.2⟩
    · exact hc
  · exact hc

theorem Accounted.getBestBlock (hc : c.Accounted) : c.getBestBlock.Accounted := by
  unfold MeteredCache.getBestBlock
  split
  · exact ⟨hc.1, hc.2.getBestBlock⟩
  · exact hc

theorem Accounted.batchWrite (hc : c.Accounted) (m : MeteredMap) (hash : Uint256) :
    (c.batchWrite m hash).2.Accounted := by
  have hloop := hc.1.batchWriteLoop m.entries
  unfold MeteredCache.batchWrite
  dsimp only
  split <;> exact ⟨hloop, hc.2⟩

/-! ## The two calls that can lose count -/

/-- `AddCoin` throws: the outpoint has an unspent entry, and the caller did not
    expect one. -/
def AddThrows (c : MeteredCache) (o : COutPoint) (coin : HeldCoin) (possible_overwrite : Bool)
    (it : MeteredEntry) : Prop :=
  coin.isSpent = false ∧ coin.coin.out.scriptPubKey.isUnspendable = false ∧
    c.store.cacheCoins.lookup o = some it ∧ possible_overwrite = false ∧ it.coin.isSpent = false

theorem accounted_addCoin_iff (hc : c.Accounted) {coin : HeldCoin} {possible_overwrite : Bool} :
    (c.addCoin o coin possible_overwrite).2.Accounted ↔
      ∀ it, c.AddThrows o coin possible_overwrite it → it.usage = 0 := by
  unfold addCoin AddThrows
  by_cases hs : coin.isSpent = true
  · rw [if_pos hs]
    exact ⟨fun _ it h => absurd (hs.symm.trans h.1) (by decide), fun _ => hc⟩
  by_cases hu : coin.coin.out.scriptPubKey.isUnspendable = true
  · rw [if_neg hs, if_pos hu]
    exact ⟨fun _ it h => absurd (hu.symm.trans h.2.1) (by decide), fun _ => hc⟩
  rw [if_neg hs, if_neg hu]
  cases he : c.store.cacheCoins.lookup o with
  | none =>
    -- a new entry is an empty one, which does not make the call throw
    have hstep : (!possible_overwrite && !HeldCoin.empty.isSpent) ≠ true := by
      cases possible_overwrite <;> decide
    dsimp only [Option.getD_none, Option.isSome_none]
    rw [if_neg hstep]
    exact ⟨fun _ it h => (nomatch h.2.2.1), fun _ => ⟨hc.1.insert_new he, hc.2⟩⟩
  | some it =>
    dsimp only [Option.getD_some, Option.isSome_some]
    by_cases hthrow : (!possible_overwrite && !it.coin.isSpent) = true
    · rw [if_pos hthrow]
      have hboth : possible_overwrite = false ∧ it.coin.isSpent = false := by
        simpa using hthrow
      have hiff := accounted_without_iff hc.1 it.usage
      constructor
      · intro h it' h'
        cases h'.2.2.1
        exact hiff.mp h.1
      · intro h
        have hzero := h it ⟨by simpa using hs, by simpa using hu, rfl, hboth⟩
        exact ⟨hiff.mpr hzero, hc.2⟩
    · rw [if_neg hthrow]
      refine ⟨fun _ it' h' => ?_, fun _ => ⟨hc.1.replace _ he, hc.2⟩⟩
      cases h'.2.2.1
      exact absurd (by rw [h'.2.2.2.1, h'.2.2.2.2]; rfl) hthrow

/-- `Flush` throws: the parent is a cache with which an entry conflicts.  What
    the entries before the first such one hold is what gets lost. -/
def FlushLoses (c : MeteredCache) (lost : SizeT) : Prop :=
  match c.base with
  | .db _ => False
  | .cache _ parent _ =>
    let entries := c.store.cacheCoins.entries
    entries.any parent.conflicts = true ∧
      lost = ((entries.take (entries.findIdx parent.conflicts)).map fun x => x.2.usage).sum

theorem accounted_flush_iff (hc : c.Accounted) :
    c.flush.2.Accounted ↔ ∀ lost, c.FlushLoses lost → lost = 0 := by
  have htarget := MeteredView.Accounted.batchWrite hc.2 c.store.cacheCoins c.hashBlock
  obtain ⟨h, s, base⟩ := c
  have hs : s.cachedCoinsUsage = sumOf usage s.cacheCoins := hc.1
  unfold flush FlushLoses
  cases base with
  | db d =>
    refine ⟨fun _ _ hl => hl.elim, fun _ => ?_⟩
    unfold MeteredView.batchWrite
    dsimp only
    -- the database takes all entries or, where it stops the program, none
    cases d.batchWrite (forgetMap s.cacheCoins) h with
    | ok d' => exact ⟨accounted_empty, trivial⟩
    | error err => exact ⟨hs, trivial⟩
  | cache hb parent below =>
    have hloop := batchWriteLoop_consumed s.cacheCoins.nodupKeys
      (fun y _ => (rfl : parent.conflicts y = parent.conflicts y))
    unfold MeteredView.batchWrite at htarget ⊢
    dsimp only at htarget ⊢
    rcases hr : parent.batchWriteLoop s.cacheCoins.entries with ⟨_ | err, n, parent'⟩ <;>
      rw [hr] at hloop htarget <;> dsimp only at hloop htarget ⊢ <;> rw [← hloop.2]
    · exact ⟨fun _ _ hl => (nomatch hl.1), fun _ => ⟨accounted_empty, htarget⟩⟩
    · have hsum := sumOf_dropEntries s.cacheCoins n
      rw [← hs, hloop.1] at hsum
      constructor
      · intro hacc lost hl
        have hdrop : s.cachedCoinsUsage = sumOf usage (dropEntries s.cacheCoins n) :=
          hacc.1
        rw [hl.2, ← add_eq_right, ← hsum, ← hloop.1]
        exact hdrop
      · intro hlost
        rw [hlost _ ⟨rfl, rfl⟩, zero_add, ← hloop.1] at hsum
        exact ⟨hsum, htarget⟩

/-! ## Every call -/

/-- The state in which a call keeps the sums right: where it throws, what it
    takes off the account too early, or forgets to take off, is zero. -/
def Keeps (c : MeteredCache) : MeteredCall → Prop
  | .addCoin o coin possible_overwrite =>
    ∀ it, c.AddThrows o coin possible_overwrite it → it.usage = 0
  | .flush => ∀ lost, c.FlushLoses lost → lost = 0
  | _ => True

theorem accounted_call_iff (hc : c.Accounted) (call : MeteredCall) :
    (c.call call).2.Accounted ↔ c.Keeps call := by
  cases call with
  | addCoin o coin possible_overwrite => exact accounted_addCoin_iff hc
  | flush => exact accounted_flush_iff hc
  | fetchCoin o => exact ⟨fun _ => trivial, fun _ => hc.fetchCoin o⟩
  | spendCoin o => exact ⟨fun _ => trivial, fun _ => hc.spendCoin o⟩
  | uncache o => exact ⟨fun _ => trivial, fun _ => hc.uncache o⟩
  | setBestBlock hash => exact ⟨fun _ => trivial, fun _ => hc⟩
  | getBestBlock => exact ⟨fun _ => trivial, fun _ => hc.getBestBlock⟩
  | batchWrite mapCoins hash => exact ⟨fun _ => trivial, fun _ => hc.batchWrite mapCoins hash⟩

end MeteredCache

open MeteredCache

/-! ## Runs of a stack -/

namespace MeteredView

def KeepsAt : MeteredView → Nat → MeteredCall → Prop
  | .db _, _, _ => True
  | .cache h s base, 0, call => Keeps ⟨h, s, base⟩ call
  | .cache _ _ base, depth + 1, call => base.KeepsAt depth call

/-- What must hold of the stack before an event for the sums to stay right. -/
def Keeps (v : MeteredView) : MeteredEvent → Prop
  | .call depth call => v.KeepsAt depth call
  | _ => True

theorem accounted_callAt_iff (hv : v.Accounted) (depth : Nat) (call : MeteredCall)
    : (v.callAt depth call).Accounted ↔ v.KeepsAt depth call := by
  induction v generalizing depth with
  | db d => exact Iff.rfl
  | cache h s base ih =>
    cases depth with
    | zero => exact accounted_call_iff (c := ⟨h, s, base⟩) hv call
    | succ depth => exact ⟨fun h => (ih hv.2 depth).mp h.2, fun h => ⟨hv.1, (ih hv.2 depth).mpr h⟩⟩

theorem accounted_step_iff (hv : v.Accounted) (ev : MeteredEvent) :
    (v.step ev).Accounted ↔ v.Keeps ev := by
  cases ev with
  | push => exact ⟨fun _ => trivial, fun _ => ⟨accounted_empty, hv⟩⟩
  | pop =>
    refine ⟨fun _ => trivial, fun _ => ?_⟩
    cases v with
    | db d => trivial
    | cache h s base => exact hv.2
  | call depth call => exact accounted_callAt_iff hv depth call

/-- The sums are right now and after each event of the run. -/
def AccountedThroughout (v : MeteredView) : List MeteredEvent → Prop
  | [] => v.Accounted
  | ev :: rest => v.Accounted ∧ (v.step ev).AccountedThroughout rest

/-- Each event meets the condition in the state in which it happens. -/
def KeepsThroughout (v : MeteredView) : List MeteredEvent → Prop
  | [] => True
  | ev :: rest => v.Keeps ev ∧ (v.step ev).KeepsThroughout rest

theorem accountedThroughout_iff (hv : v.Accounted) (events : List MeteredEvent) :
    v.AccountedThroughout events ↔ v.KeepsThroughout events := by
  induction events generalizing v with
  | nil => exact ⟨fun _ => trivial, fun _ => hv⟩
  | cons ev rest ih =>
    have hstep := accounted_step_iff hv ev
    constructor
    · intro h
      have hnext : (v.step ev).Accounted := by
        cases rest with
        | nil => exact h.2
        | cons _ _ => exact h.2.1
      exact ⟨hstep.mp hnext, (ih hnext).mp h.2⟩
    · intro h
      exact ⟨hv, (ih (hstep.mpr h.1)).mpr h.2⟩

/-- In a run of caches over a database, `cachedCoinsUsage` equals the sum of
    `DynamicMemoryUsage` over `cacheCoins` after each call exactly if no `AddCoin`
    throws over an entry that holds memory, and no `Flush` throws after its
    parent has taken entries that hold memory. -/
theorem cachedCoinsUsage_run (d : CCoinsViewDB) (events : List MeteredEvent) :
    (MeteredView.db d).AccountedThroughout events ↔ (MeteredView.db d).KeepsThroughout events :=
  accountedThroughout_iff (v := .db d) trivial events

end MeteredView

open MeteredView

/-! ## An `AddCoin` that throws -/

namespace UsageSample

def outpoint : COutPoint := ⟨7, 0⟩

/-- A coin whose script of 30 bytes does not fit into the object. -/
def coin : HeldCoin := .copyOf ⟨⟨50, List.replicate 30 0x51⟩, 1, false⟩

/-- The same new coin is added twice, on a new cache over an empty database. -/
def events : List MeteredEvent :=
  [.push, .call 0 (.addCoin outpoint coin false), .call 0 (.addCoin outpoint coin false)]

def stores : MeteredView → List CoinStore
  | .db _ => []
  | .cache _ s base => s :: stores base

def final : MeteredView := events.foldl step (.db .empty)

/-- The second call throws.  The coin is still cached, with its 48 bytes, but
    the account says that nothing is. -/
theorem addCoin_throws :
    (stores final).map cachedCoinsUsage = [0] ∧
      (stores final).map (fun s => sumOf usage s.cacheCoins) = [48] ∧
      ¬ (db .empty).AccountedThroughout events := by
  have husage : (stores final).map cachedCoinsUsage = [0] := by decide
  have hsum : (stores final).map (fun s => sumOf usage s.cacheCoins) = [48] := by
    decide
  refine ⟨husage, hsum, fun h => ?_⟩
  have hlast : final.Accounted := h.2.2.2
  rcases hf : final with d | ⟨hb, s, base⟩ <;> rw [hf] at husage hsum hlast
  · nomatch husage
  · have h0 : s.cachedCoinsUsage = 0 := (List.cons.inj husage).1
    have h48 : sumOf usage s.cacheCoins = 48 := (List.cons.inj hsum).1
    have heq : s.cachedCoinsUsage = sumOf usage s.cacheCoins := hlast.1
    rw [h0, h48] at heq
    exact absurd heq (by decide)

end UsageSample

end Rcoin
