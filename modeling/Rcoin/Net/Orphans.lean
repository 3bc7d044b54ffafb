/-
  The orphan transactions of src/net_processing.cpp. An iterator into
  `mapOrphanTransactions` is the address of its node; one to a node that was erased faults.
-/
import Rcoin.Lib.SortedMap
import Rcoin.Lib.SortedSet
import Rcoin.Primitives

namespace Rcoin

open List Option SortedMap SortedSet

namespace Orphans

/-! ## The operations -/

def MAX_STANDARD_TX_WEIGHT : Nat := 400000
def ORPHAN_TX_EXPIRE_TIME : Int := 20 * 60
def ORPHAN_TX_EXPIRE_INTERVAL : Int := 5 * 60

structure COrphanTx where
  tx : CTransaction
  fromPeer : Int
  nTimeExpire : Int

abbrev ByPrev := COutPoint → Option (SortedSet Nat)

/-- The nodes of the first map come with their addresses. -/
structure OrphanPool where
  mapOrphanTransactions : SortedMap Uint256 (Nat × COrphanTx)
  mapOrphanTransactionsByPrev : ByPrev
  nNextSweep : Int

def OrphanPool.empty : OrphanPool := ⟨SortedMap.empty, fun _ => none, 0⟩

def OrphanPool.size (p : OrphanPool) : Nat := p.mapOrphanTransactions.entries.length

def insertAt (a : Nat) (m : ByPrev) (prevout : COutPoint) : ByPrev :=
  Function.update m prevout (some (((m prevout).getD ∅).insert a))

/-- `a` is the address of the new node, `weight` is `GetTransactionWeight`. -/
def OrphanPool.addOrphanTx (p : OrphanPool) (weight : CTransaction → Nat) (tx : CTransaction)
    (peer now : Int) (a : Nat) : Bool × OrphanPool :=
  if (p.mapOrphanTransactions.lookup tx.hash).isSome then (false, p)
  else
    let sz := weight tx % 2 ^ 32
    if sz ≥ MAX_STANDARD_TX_WEIGHT then (false, p)
    else (true, { p with
      mapOrphanTransactions :=
        p.mapOrphanTransactions.insert tx.hash (a, ⟨tx, peer, now + ORPHAN_TX_EXPIRE_TIME⟩)
      mapOrphanTransactionsByPrev := tx.prevouts.foldl (insertAt a) p.mapOrphanTransactionsByPrev })

def eraseAt (a : Nat) (m : ByPrev) (prevout : COutPoint) : ByPrev :=
  match m prevout with
  | none => m
  | some s =>
    let s := s.erase a
    Function.update m prevout (if s.elems.isEmpty then none else some s)

def OrphanPool.eraseOrphanTx (p : OrphanPool) (hash : Uint256) : Nat × OrphanPool :=
  match p.mapOrphanTransactions.lookup hash with
  | none => (0, p)
  | some (it, orphan) => (1, { p with
      mapOrphanTransactionsByPrev :=
        orphan.tx.prevouts.foldl (eraseAt it) p.mapOrphanTransactionsByPrev
      mapOrphanTransactions := p.mapOrphanTransactions.erase hash })

/-- The entries, each erased by the hash of its transaction if `which` says so; the iterator
    has moved on before. -/
def OrphanPool.eraseIf (p : OrphanPool) (which : COrphanTx → Bool) : OrphanPool :=
  p.mapOrphanTransactions.entries.foldl
    (fun p maybeErase =>
      if which maybeErase.2.2 then (p.eraseOrphanTx maybeErase.2.2.tx.hash).2 else p) p

def OrphanPool.eraseOrphansFor (p : OrphanPool) (peer : Int) : OrphanPool :=
  p.eraseIf fun orphan => orphan.fromPeer == peer

/-- Sweep out expired orphan pool entries. -/
def OrphanPool.sweep (p : OrphanPool) (nNow : Int) : OrphanPool :=
  if p.nNextSweep ≤ nNow then
    let kept := p.mapOrphanTransactions.entries.filter fun e => !decide (e.2.2.nTimeExpire ≤ nNow)
    let nMinExpTime := kept.foldl (fun t e => min e.2.2.nTimeExpire t)
      (nNow + ORPHAN_TX_EXPIRE_TIME - ORPHAN_TX_EXPIRE_INTERVAL)
    { p.eraseIf fun orphan => decide (orphan.nTimeExpire ≤ nNow) with
      nNextSweep := nMinExpTime + ORPHAN_TX_EXPIRE_INTERVAL }
  else p

/-- The `lower_bound`, or the first one. -/
def OrphanPool.lowerBound (p : OrphanPool) (randomhash : Uint256) :
    Option (Uint256 × Nat × COrphanTx) :=
  (p.mapOrphanTransactions.entries.find? fun e => decide (randomhash ≤ e.1)).or
    p.mapOrphanTransactions.entries.head?

/-- Evict random orphans; `rand` are the random hashes. Every pass erases one. -/
def evictLoop (nMaxOrphans : Nat) (rand : Nat → Uint256) : Nat → OrphanPool → Nat × OrphanPool
  | 0, p => (0, p)
  | fuel + 1, p =>
    if p.size > nMaxOrphans then
      match p.lowerBound (rand fuel) with
      | none => (0, p)
      | some it =>
        let (nEvicted, p) := evictLoop nMaxOrphans rand fuel (p.eraseOrphanTx it.1).2
        (nEvicted + 1, p)
    else (0, p)

def OrphanPool.limitOrphanTxSize (p : OrphanPool) (nMaxOrphans : Nat) (nNow : Int)
    (rand : Nat → Uint256) : Nat × OrphanPool :=
  let p := p.sweep nNow
  evictLoop nMaxOrphans rand p.size p

/-- `*it`. -/
def OrphanPool.deref (p : OrphanPool) (it : Nat) : Option COrphanTx :=
  (p.mapOrphanTransactions.entries.find? fun e => e.2.1 == it).map (·.2.2)

/-- Which orphan pool entries must we evict? -/
def OrphanPool.orphanErase (p : OrphanPool) (prevouts : List COutPoint) : Option (List Uint256) :=
  prevouts.foldlM (fun vOrphanErase prevout =>
    match p.mapOrphanTransactionsByPrev prevout with
    | none => some vOrphanErase
    | some s => (s.elems.mapM p.deref).map fun orphans => vOrphanErase ++ orphans.map (·.tx.hash)) []

def OrphanPool.blockConnected (p : OrphanPool) (vtx : List CTransaction) : Option OrphanPool :=
  (p.orphanErase (vtx.flatMap CTransaction.prevouts)).map fun vOrphanErase =>
    vOrphanErase.foldl (fun p hash => (p.eraseOrphanTx hash).2) p

/-! ## The index -/

def spenders (m : ByPrev) (prevout : COutPoint) : SortedSet Nat := (m prevout).getD ∅

/-- The second map is the inverse of the first one, without empty sets. -/
structure Inverse (p : OrphanPool) : Prop where
  key : ∀ {h a o}, p.mapOrphanTransactions.lookup h = some (a, o) → o.tx.hash = h
  address : ∀ {h h' a o o'}, p.mapOrphanTransactions.lookup h = some (a, o) →
    p.mapOrphanTransactions.lookup h' = some (a, o') → h = h'
  nonempty : ∀ {prevout s}, p.mapOrphanTransactionsByPrev prevout = some s → s.elems ≠ []
  index : ∀ prevout a, a ∈ spenders p.mapOrphanTransactionsByPrev prevout ↔
    ∃ h o, p.mapOrphanTransactions.lookup h = some (a, o) ∧ prevout ∈ o.tx.prevouts

theorem insertAt_spec (a : Nat) (prevouts : List COutPoint) {m : ByPrev}
    (hm : ∀ prevout s, m prevout = some s → s.elems ≠ []) :
    (∀ prevout s, prevouts.foldl (insertAt a) m prevout = some s → s.elems ≠ []) ∧
    ∀ prevout x, x ∈ spenders (prevouts.foldl (insertAt a) m) prevout ↔
      x ∈ spenders m prevout ∨ x = a ∧ prevout ∈ prevouts := by
  induction prevouts generalizing m with
  | nil => exact ⟨hm, by simp⟩
  | cons q prevouts ih =>
    have hstep : ∀ prevout s, insertAt a m q prevout = some s → s.elems ≠ [] := by
      intro prevout s hs
      rw [insertAt, Function.update_apply] at hs
      split at hs
      · cases hs
        exact ne_nil_of_mem (mem_elems.mpr (mem_insert.mpr (.inl rfl)))
      · exact hm prevout s hs
    refine ⟨(ih hstep).1, fun prevout x => ?_⟩
    rw [foldl_cons, (ih hstep).2, spenders, insertAt, Function.update_apply]
    split
    next heq =>
      subst heq
      simp [spenders, mem_insert]
      tauto
    next hne => simp [spenders, hne]

theorem eraseAt_apply (a : Nat) (m : ByPrev) (q prevout : COutPoint) : eraseAt a m q prevout =
    if prevout = q then
      (m q).bind fun s => if (s.erase a).elems.isEmpty then none else some (s.erase a)
    else m prevout := by
  rw [eraseAt]
  cases hq : m q with
  | none =>
    split
    next heq =>
      rw [heq]
      exact hq
    next => rfl
  | some s => exact Function.update_apply _ _ _ _

theorem eraseAt_spec (a : Nat) (prevouts : List COutPoint) {m : ByPrev}
    (hm : ∀ prevout s, m prevout = some s → s.elems ≠ []) :
    (∀ prevout s, prevouts.foldl (eraseAt a) m prevout = some s → s.elems ≠ []) ∧
    ∀ prevout x, x ∈ spenders (prevouts.foldl (eraseAt a) m) prevout ↔
      x ∈ spenders m prevout ∧ ¬(x = a ∧ prevout ∈ prevouts) := by
  induction prevouts generalizing m with
  | nil => exact ⟨hm, by simp⟩
  | cons q prevouts ih =>
    have hstep : ∀ prevout s, eraseAt a m q prevout = some s → s.elems ≠ [] := by
      intro prevout s hs
      rw [eraseAt_apply] at hs
      split at hs
      · obtain ⟨t, -, hs⟩ := bind_eq_some_iff.mp hs
        split at hs
        · cases hs
        next hne =>
          cases hs
          rwa [List.isEmpty_iff] at hne
      · exact hm prevout s hs
    have hmem : ∀ prevout x, x ∈ spenders (eraseAt a m q) prevout ↔
        x ∈ spenders m prevout ∧ ¬(x = a ∧ prevout = q) := by
      intro prevout x
      rw [spenders, eraseAt_apply, spenders]
      split
      next heq =>
        subst heq
        cases m prevout with
        | none => simp
        | some s =>
          -- an empty set is erased with its key
          have herase : x ∈ (if (s.erase a).elems.isEmpty then none else some (s.erase a)).getD ∅ ↔
              x ∈ s.erase a := by
            split
            next hempty =>
              rw [← mem_elems (s := s.erase a), List.isEmpty_iff.mp hempty]
              simp
            next => rfl
          rw [bind_some, herase, SortedSet.mem_erase, getD_some]
          tauto
      next hne => simp [hne]
    refine ⟨(ih hstep).1, fun prevout x => ?_⟩
    rw [foldl_cons, (ih hstep).2, hmem, mem_cons]
    tauto

theorem Inverse.empty : Inverse OrphanPool.empty where
  key := nofun
  address := nofun
  nonempty := nofun
  index _ _ := by simp [OrphanPool.empty, spenders, SortedMap.empty, SortedMap.lookup,
    lookupEntries]

variable {p : OrphanPool}

theorem Inverse.addOrphanTx (hp : Inverse p) (weight : CTransaction → Nat) (tx : CTransaction)
    (peer now : Int) {a : Nat} (ha : ∀ h o, p.mapOrphanTransactions.lookup h ≠ some (a, o)) :
    Inverse (p.addOrphanTx weight tx peer now a).2 := by
  rw [OrphanPool.addOrphanTx]
  split
  · exact hp
  next hnew =>
    rw [not_isSome_iff_eq_none] at hnew
    dsimp only
    split
    · exact hp
    · obtain ⟨hnonempty, hmem⟩ := insertAt_spec a tx.prevouts fun _ _ => hp.nonempty
      refine ⟨fun hl => ?_, fun hl hl' => ?_, hnonempty _ _, fun prevout x => ?_⟩
      · rcases lookup_insert_some hl with ⟨rfl, heq⟩ | ⟨-, hl⟩
        · cases heq
          rfl
        · exact hp.key hl
      · rcases lookup_insert_some hl with ⟨rfl, heq⟩ | ⟨-, hl⟩ <;>
          rcases lookup_insert_some hl' with ⟨rfl, heq'⟩ | ⟨-, hl'⟩
        · rfl
        · cases heq
          exact absurd hl' (ha _ _)
        · cases heq'
          exact absurd hl (ha _ _)
        · exact hp.address hl hl'
      · rw [hmem, hp.index]
        constructor
        · rintro (⟨h, o, hl, hprev⟩ | ⟨rfl, hprev⟩)
          · refine ⟨h, o, ?_, hprev⟩
            rw [lookup_insert_of_ne _ (by rintro rfl; rw [hnew] at hl; cases hl), hl]
          · exact ⟨_, _, lookup_insert_self _ _ _, hprev⟩
        · rintro ⟨h, o, hl, hprev⟩
          rcases lookup_insert_some hl with ⟨rfl, heq⟩ | ⟨-, hl⟩
          · cases heq
            exact .inr ⟨rfl, hprev⟩
          · exact .inl ⟨h, o, hl, hprev⟩

theorem Inverse.eraseOrphanTx (hp : Inverse p) (hash : Uint256) :
    Inverse (p.eraseOrphanTx hash).2 := by
  rw [OrphanPool.eraseOrphanTx]
  split
  · exact hp
  next it orphan hit =>
    obtain ⟨hnonempty, hmem⟩ := eraseAt_spec it orphan.tx.prevouts fun _ _ => hp.nonempty
    have hold : ∀ {h x}, (p.mapOrphanTransactions.erase hash).lookup h = some x →
        h ≠ hash ∧ p.mapOrphanTransactions.lookup h = some x := by
      intro h x hl
      rw [lookup_erase] at hl
      split at hl
      · cases hl
      next hne => exact ⟨hne, hl⟩
    refine ⟨fun hl => hp.key (hold hl).2, fun hl hl' => hp.address (hold hl).2 (hold hl').2,
      hnonempty _ _, fun prevout x => ?_⟩
    rw [hmem, hp.index]
    constructor
    · rintro ⟨⟨h, o, hl, hprev⟩, hnot⟩
      refine ⟨h, o, ?_, hprev⟩
      rw [lookup_erase, if_neg, hl]
      rintro rfl
      cases hl.symm.trans hit
      exact hnot ⟨rfl, hprev⟩
    · rintro ⟨h, o, hl, hprev⟩
      obtain ⟨hne, hl'⟩ := hold hl
      refine ⟨⟨h, o, hl', hprev⟩, ?_⟩
      rintro ⟨rfl, -⟩
      exact hne (hp.address hl' hit)

theorem Inverse.foldl {α : Type} {f : OrphanPool → α → OrphanPool}
    (hf : ∀ p x, Inverse p → Inverse (f p x)) (l : List α) (hp : Inverse p) :
    Inverse (l.foldl f p) := by
  induction l generalizing p with
  | nil => exact hp
  | cons x l ih => exact ih (hf p x hp)

theorem Inverse.eraseIf (hp : Inverse p) (which : COrphanTx → Bool) :
    Inverse (p.eraseIf which) := by
  refine Inverse.foldl (fun p e hp => ?_) _ hp
  split
  · exact hp.eraseOrphanTx _
  · exact hp

theorem Inverse.sweep (hp : Inverse p) (nNow : Int) : Inverse (p.sweep nNow) := by
  rw [OrphanPool.sweep]
  split
  · obtain ⟨key, address, nonempty, index⟩ := hp.eraseIf fun o => decide (o.nTimeExpire ≤ nNow)
    exact ⟨key, address, nonempty, index⟩
  · exact hp

theorem size_eraseOrphanTx {e : Uint256 × Nat × COrphanTx}
    (he : e ∈ p.mapOrphanTransactions.entries) : (p.eraseOrphanTx e.1).2.size + 1 = p.size := by
  have hl : p.mapOrphanTransactions.lookup e.1 = some (e.2.1, e.2.2) := mem_entries.mp he
  rw [OrphanPool.eraseOrphanTx, hl]
  exact (SortedMap.perm_erase hl).length_eq.symm

theorem Inverse.evictLoop {nMaxOrphans : Nat} {rand : Nat → Uint256} {fuel : Nat} (hp : Inverse p)
    (hfuel : p.size ≤ fuel) : Inverse (evictLoop nMaxOrphans rand fuel p).2 ∧
      (Orphans.evictLoop nMaxOrphans rand fuel p).2.size ≤ nMaxOrphans := by
  induction fuel generalizing p with
  | zero => exact ⟨hp, hfuel.trans (Nat.zero_le _)⟩
  | succ fuel ih =>
    rw [Orphans.evictLoop]
    split
    next hmore =>
      have hsome : p.mapOrphanTransactions.entries ≠ [] :=
        ne_nil_of_length_pos (Nat.zero_lt_of_lt hmore)
      split
      next hnone =>
        rw [OrphanPool.lowerBound, or_eq_none_iff, head?_eq_none_iff] at hnone
        exact absurd hnone.2 hsome
      next it hit =>
        have hmem : it ∈ p.mapOrphanTransactions.entries := by
          rcases or_eq_some_iff.mp hit with h | ⟨-, h⟩
          · exact mem_of_find?_eq_some h
          · exact mem_of_mem_head? h
        have hsize := size_eraseOrphanTx hmem
        exact ih (hp.eraseOrphanTx it.1) (by omega)
    next hless => exact ⟨hp, Nat.not_lt.mp hless⟩

theorem Inverse.limitOrphanTxSize (hp : Inverse p) (nMaxOrphans : Nat) (nNow : Int)
    (rand : Nat → Uint256) : Inverse (p.limitOrphanTxSize nMaxOrphans nNow rand).2 ∧
      (p.limitOrphanTxSize nMaxOrphans nNow rand).2.size ≤ nMaxOrphans :=
  (hp.sweep nNow).evictLoop (Nat.le_refl _)

theorem Inverse.deref (hp : Inverse p) {prevout : COutPoint} {s : SortedSet Nat}
    (hs : p.mapOrphanTransactionsByPrev prevout = some s) {it : Nat} (hit : it ∈ s.elems) :
    ∃ o, p.deref it = some o := by
  have hmem : it ∈ spenders p.mapOrphanTransactionsByPrev prevout := by
    rw [spenders, hs]
    exact hit
  obtain ⟨h, o, hl, -⟩ := (hp.index prevout it).mp hmem
  refine isSome_iff_exists.mp ?_
  rw [OrphanPool.deref, isSome_map, find?_isSome]
  exact ⟨(h, it, o), mem_entries.mpr hl, beq_self_eq_true it⟩

theorem Inverse.orphanErase (hp : Inverse p) (prevouts : List COutPoint) (acc : List Uint256)
    : ∃ l, prevouts.foldlM (fun vOrphanErase prevout =>
      match p.mapOrphanTransactionsByPrev prevout with
      | none => some vOrphanErase
      | some s =>
        (s.elems.mapM p.deref).map fun orphans => vOrphanErase ++ orphans.map (·.tx.hash)) acc =
      some l := by
  induction prevouts generalizing acc with
  | nil => exact ⟨acc, rfl⟩
  | cons q prevouts ih =>
    rw [foldlM_cons]
    cases hq : p.mapOrphanTransactionsByPrev q with
    | none => exact ih acc
    | some s =>
      have hall : ∀ l : List Nat, (∀ it ∈ l, ∃ o, p.deref it = some o) →
          ∃ os, l.mapM p.deref = some os := by
        intro l hl
        induction l with
        | nil => exact ⟨[], rfl⟩
        | cons it l ihl =>
          obtain ⟨⟨o, ho⟩, hl⟩ := forall_mem_cons.mp hl
          obtain ⟨os, hos⟩ := ihl hl
          exact ⟨o :: os, by rw [mapM_cons, ho, hos]; rfl⟩
      obtain ⟨os, hos⟩ := hall s.elems fun it => hp.deref hq
      simp only [hos, map_some]
      exact ih _

theorem Inverse.blockConnected (hp : Inverse p) (vtx : List CTransaction) :
    ∃ p', p.blockConnected vtx = some p' ∧ Inverse p' := by
  obtain ⟨l, hl⟩ := hp.orphanErase (vtx.flatMap CTransaction.prevouts) []
  refine ⟨_, by rw [OrphanPool.blockConnected, OrphanPool.orphanErase, hl]; rfl, ?_⟩
  exact Inverse.foldl (fun p hash hp => hp.eraseOrphanTx hash) l hp

/-! ## Runs -/

/-- A new node is not where another one is. -/
inductive Reachable (weight : CTransaction → Nat) : OrphanPool → Prop
  | empty : Reachable weight OrphanPool.empty
  | addOrphanTx {p tx peer now a} : Reachable weight p →
    (∀ h o, p.mapOrphanTransactions.lookup h ≠ some (a, o)) →
    Reachable weight (p.addOrphanTx weight tx peer now a).2
  | eraseOrphanTx {p hash} : Reachable weight p → Reachable weight (p.eraseOrphanTx hash).2
  | eraseOrphansFor {p peer} : Reachable weight p → Reachable weight (p.eraseOrphansFor peer)
  | limitOrphanTxSize {p nMaxOrphans nNow rand} : Reachable weight p →
    Reachable weight (p.limitOrphanTxSize nMaxOrphans nNow rand).2
  | blockConnected {p vtx p'} : Reachable weight p → p.blockConnected vtx = some p' →
    Reachable weight p'

/-- The index is exact in every run, no iterator to an erased node is followed, and the pool
    is as small as it is told to be. -/
theorem orphans_spec {weight : CTransaction → Nat} {p : OrphanPool} (h : Reachable weight p) :
    Inverse p ∧ (∀ vtx, ∃ p', p.blockConnected vtx = some p') ∧
      ∀ nMaxOrphans nNow rand, (p.limitOrphanTxSize nMaxOrphans nNow rand).2.size ≤ nMaxOrphans := by
  have hp : Inverse p := by
    induction h with
    | empty => exact Inverse.empty
    | addOrphanTx _ ha ih => exact ih.addOrphanTx weight _ _ _ ha
    | eraseOrphanTx _ ih => exact ih.eraseOrphanTx _
    | eraseOrphansFor _ ih => exact ih.eraseIf _
    | limitOrphanTxSize _ ih => exact (ih.limitOrphanTxSize _ _ _).1
    | blockConnected _ hstep ih =>
      obtain ⟨p', heq, hp'⟩ := ih.blockConnected _
      cases heq.symm.trans hstep
      exact hp'
  refine ⟨hp, fun vtx => ?_, fun n now rand => (hp.limitOrphanTxSize n now rand).2⟩
  obtain ⟨p', heq, -⟩ := hp.blockConnected vtx
  exact ⟨p', heq⟩

/-- One orphan that spends two outputs of a transaction. -/
theorem orphans_spec_sample : Inverse (OrphanPool.empty.addOrphanTx (fun _ => 400)
    ⟨7, [⟨⟨1, 0⟩, [], 0, []⟩, ⟨⟨1, 1⟩, [], 0, []⟩], [], 2, 0⟩ 3 1000 64).2 :=
  (orphans_spec (Reachable.addOrphanTx Reachable.empty nofun)).1

end Orphans

end Rcoin
