/-
  The updates that a node makes with what it learns of an address: `Add_`, `Good_`,
  `Attempt_`, `Connected_` and `SetServices_` keep the manager consistent.  Where a
  time is not positive, `Good_` and `Attempt_` do so under conditions only.
-/
import Rcoin.AddrMan.Operations

namespace Rcoin

open Option SortedMap

namespace CAddrMan

variable {env : AddrManEnv} {loose : Int → Prop} {k : Int} {m : CAddrMan} {id : Int}

/-! ## Adding -/

variable {info : CAddrInfo}

theorem Consistent.takeSlot (h : m.Consistent env (fun x => x = id) k)
    (hinfo : m.mapInfo.lookup id = some info) (hnew : info.fInTried = false)
    (hlt : info.nRefCount < ADDRMAN_NEW_BUCKETS_PER_ADDRESS) {u : Fin ADDRMAN_NEW_BUCKET_COUNT}
    {q : Fin ADDRMAN_BUCKET_SIZE} (hq : q = env.newPos m.nKey info.toCService u)
    (hslot : m.vvNew u q ≠ id) : ∃ m1 m2, m.clearNew u q = some m1 ∧
      m1.modifyInfo id (fun info => { info with nRefCount := info.nRefCount + 1 }) = m2 ∧
      Consistent env (fun _ => False) k { m2 with vvNew := Grid.set m2.vvNew u q id } := by
  obtain ⟨m1, hclear, h1, hkept, hvvNew⟩ := h.clearNew u q
  obtain ⟨pos, hself⟩ := hkept.info id info hinfo hslot.symm
  have hvacant : m1.vvNew u q = -1 := by rw [hvvNew, Grid.set_self]
  have hq1 : q = env.newPos m1.nKey info.toCService u := by rw [hkept.nKey, hq]
  have hin := h1.tables.enter hself hnew (b := u) (by rw [← hq1]; exact hvacant) hlt
  have hnumbered : Numbered m1.nIdCount (m1.mapInfo.insert id
      { info with nRefCount := info.nRefCount + 1, nRandomPos := pos }) m1.mapAddr m1.vRandom :=
    h1.numbered.modify hself rfl rfl
  rw [← hq1] at hin
  exact ⟨m1, _, hclear, modifyInfo_of_some hself _, hnumbered,
    hin.mono fun _ _ _ _ hx => .inr (hx.2 hx.1), h1.key⟩

theorem Consistent.place (h : m.Consistent env (fun x => x = id) k)
    (hinfo : m.mapInfo.lookup id = some info) (hnew : info.fInTried = false)
    (hlt : info.nRefCount < ADDRMAN_NEW_BUCKETS_PER_ADDRESS) (source : CNetAddr) (nNow : Int64) :
    ∃ m', m.place env id source nNow = some m' ∧ m'.Consistent env (fun _ => False) k := by
  obtain ⟨u, hu⟩ : ∃ u, u = env.getNewBucket m.nKey info.toCService source := ⟨_, rfl⟩
  obtain ⟨q, hq⟩ : ∃ q, q = env.newPos m.nKey info.toCService u := ⟨_, rfl⟩
  have hnone : 0 < info.nRefCount → m.Consistent env (fun _ => False) k := by
    intro hrefs
    refine h.mono fun x y hy _ hx => .inl ?_
    subst hx
    cases hinfo.symm.trans hy
    exact hrefs
  by_cases hslot : m.vvNew u q = id
  · refine ⟨m, ?_, hnone (h.refs_pos hslot hinfo)⟩
    simp only [CAddrMan.place, hinfo, bind_eq_bind, bind_some, CAddrMan.newPos, ← hu,
      ← hq, hslot, ne_eq, not_true_eq_false, if_false]
  obtain ⟨m1, m2, hclear, hm2, h2⟩ := h.takeSlot hinfo hnew hlt hq hslot
  by_cases hvacant : m.vvNew u q = -1
  · refine ⟨_, ?_, h2⟩
    simp only [CAddrMan.place, hinfo, bind_eq_bind, bind_some, CAddrMan.newPos, ← hu,
      ← hq, ne_eq, hslot, not_false_eq_true, if_true, if_pos hvacant, hclear, hm2]
  obtain ⟨existing, hexisting, -⟩ := h.new_entry hvacant
  simp only [CAddrMan.place, hinfo, bind_eq_bind, bind_some, CAddrMan.newPos, ← hu,
    ← hq, ne_eq, hslot, not_false_eq_true, if_true, hvacant, if_false, infoAt_of_some hexisting,
    hclear, hm2]
  split
  next => exact ⟨_, rfl, h2⟩
  next =>
    split
    next hzero =>
      -- the entry was new
      obtain ⟨m', hdelete, h', -⟩ := h.delete hinfo hnew hzero
      exact ⟨m', hdelete, h'.mono fun _ _ _ _ hx => .inr (hx.2 hx.1)⟩
    next hrefs =>
      have hcard := (h.tables.new id info hinfo hnew).1
      exact ⟨m, rfl, hnone (by omega)⟩

/-- There is an id for the entry that `Add_` may make. -/
def AddOk (env : AddrManEnv) (m : CAddrMan) (addr : CAddress) : Prop :=
  env.isRoutable addr.toCNetAddr = true → m.find addr.toCNetAddr = none → m.nIdCount < 2 ^ 31 - 1

variable {addr : CAddress}

theorem Consistent.create (h : m.Consistent env (fun _ => False) k)
    (hfind : m.find addr.toCNetAddr = none) (hcount : m.nIdCount < 2 ^ 31 - 1) (source : CNetAddr) :
    ∃ m', m.create addr source = (m.nIdCount, m') ∧
      Consistent env (fun x => x = m.nIdCount) k { m' with nNew := m'.nNew + 1 } ∧
      m'.mapInfo.lookup m.nIdCount =
        some { addr with source := source, nRandomPos := m.vRandom.length } := by
  have hnonneg := h.numbered.count
  have hnone : m.mapInfo.lookup m.nIdCount = none := by
    rw [eq_none_iff_forall_ne_some]
    intro y hy
    have hlt := (h.numbered.id_bounds _ y hy).2
    omega
  have hbmod : (m.nIdCount + 1).bmod (2 ^ 32) = m.nIdCount + 1 := by
    apply Int.bmod_eq_of_le <;> omega
  let info : CAddrInfo := { addr with source := source, nRandomPos := m.vRandom.length }
  have hnumbered : Numbered (m.nIdCount + 1) (m.mapInfo.insert m.nIdCount info)
      (m.mapAddr.insert addr.toCNetAddr m.nIdCount) (m.vRandom ++ [m.nIdCount]) :=
    h.numbered.create (h.lookup_of_find_none hfind) rfl
  have htables : Tables env (fun x => False ∨ x = m.nIdCount) k (m.mapInfo.insert m.nIdCount info)
      m.nTried m.vvTried (m.nNew + 1) m.vvNew m.nKey :=
    h.tables.add (by omega) hnone rfl rfl le_rfl le_rfl
  refine ⟨_, rfl, ⟨?_, htables.mono fun _ _ _ _ hx => .inr (hx.elim False.elim (·)), h.key⟩,
    lookup_insert_self ..⟩
  rw [hbmod]
  exact hnumbered

theorem Consistent.add (h : m.Consistent env (fun _ => False) k) (hok : m.AddOk env addr)
    (source : CNetAddr) (nTimePenalty now now' : Int64) (rand : Nat) :
    ∃ r, m.add_ env addr source nTimePenalty now now' rand = some r ∧
      r.2.Consistent env (fun _ => False) k := by
  unfold add_
  split
  next => exact ⟨_, rfl, h⟩
  next hroutable =>
    have hroutable' : env.isRoutable addr.toCNetAddr = true := by simpa using hroutable
    obtain ⟨penalty, hpenalty⟩ : ∃ p, p = if addr.toCNetAddr = source then (0 : Int)
      else nTimePenalty.toInt := ⟨_, rfl⟩
    simp only [← hpenalty]
    split
    next nId info hfind =>
      -- an entry that is known
      obtain ⟨hinfo, -⟩ := h.of_find hfind
      have hmodify := modifyInfo_of_some hinfo (refresh addr penalty now)
      have h1 := (h.modify hinfo (f := refresh addr penalty now) rfl rfl rfl rfl
        (h.tables.lastTry nId info hinfo) (h.tables.lastSuccess nId info hinfo)
        fun htried => (h.tables.tried nId info hinfo htried).2.2)
      have hself : (m.modifyInfo nId (refresh addr penalty now)).mapInfo.lookup nId =
          some (refresh addr penalty now info) := by
        rw [hmodify, lookup_insert_self]
      split
      next => exact ⟨_, rfl, h1⟩
      split
      next => exact ⟨_, rfl, h1⟩
      next htried =>
        split
        next => exact ⟨_, rfl, h1⟩
        next hfull =>
          split
          next => exact ⟨_, rfl, h1⟩
          next =>
            have hnew : (refresh addr penalty now info).fInTried = false := by simpa using htried
            have hle := (h1.tables.new nId _ hself hnew).2.1
            obtain ⟨m', hplace, h'⟩ := h1.mono_empty.place hself hnew
              (lt_of_le_of_ne hle hfull) source now'
            exact ⟨_, by rw [hplace]; rfl, h'⟩
    next hfind =>
      -- an entry is made
      obtain ⟨m1, hcreate, h1, hself⟩ := h.create hfind (hok hroutable' hfind) source
      simp only [hcreate, modifyInfo_of_some hself]
      have h2 := h1.modify hself (f := fun info => { info with
        nTime := UInt32.ofNat (max 0 (info.nTime.toNat - penalty)).toNat }) rfl rfl rfl rfl le_rfl
        le_rfl fun hfalse => nomatch hfalse
      rw [modifyInfo_of_some (m := { m1 with nNew := m1.nNew + 1 }) hself] at h2
      have hlt : (0 : Int) < ADDRMAN_NEW_BUCKETS_PER_ADDRESS := by decide
      obtain ⟨m', hplace, h'⟩ := h2.place (lookup_insert_self ..) rfl hlt source now'
      exact ⟨_, by rw [hplace]; rfl, h'⟩

/-! ## Connections -/

/-- The time of a connection lets the entry stay as it is, or go to the tried table. -/
def GoodOk (env : AddrManEnv) (m : CAddrMan) (addr : CService) (test_before_evict : Bool)
    (nTime : Int64) : Prop :=
  ∀ id info, m.findService addr = some (id, info) → 0 < nTime.toInt ∨
    (nTime = 0 ∧ info.fInTried = false ∧ test_before_evict = true ∧
      m.vvTried (m.triedBucket env info) (m.triedPos env info) ≠ -1)

variable {addr : CService} {nTime : Int64}

theorem Consistent.good (h : m.Consistent env (fun _ => False) k) {test_before_evict : Bool}
    (hok : m.GoodOk env addr test_before_evict nTime) (nRnd : Nat) :
    ∃ m', m.good_ env addr test_before_evict nTime nRnd = some m' ∧
      m'.Consistent env (fun _ => False) k := by
  have hlast : Consistent env (fun _ => False) k { m with nLastGood := nTime } :=
    ⟨h.numbered, h.tables, h.key⟩
  have hsame : CAddrMan.find { m with nLastGood := nTime } addr.toCNetAddr =
      m.find addr.toCNetAddr := rfl
  simp only [good_, hsame]
  split
  next => exact ⟨_, rfl, hlast⟩
  next nId info hfind =>
    obtain ⟨hinfo, -⟩ := h.of_find hfind
    split
    next => exact ⟨_, rfl, hlast⟩
    next hservice =>
      have hfound : m.findService addr = some (nId, info) := by
        simp only [findService, hfind, filter_some, not_not.mp hservice, decide_true, if_true]
      have hok := hok nId info hfound
      have hnonneg : 0 ≤ nTime.toInt := by
        rcases hok with hpos | ⟨rfl, -⟩
        · exact hpos.le
        · exact le_rfl
      have h1 := hlast.modify hinfo (f := fun info =>
          { info with nLastSuccess := nTime, nLastTry := nTime, nAttempts := 0 })
        rfl rfl rfl rfl hnonneg hnonneg fun htried => by
          -- a tried entry was not at time 0
          refine hok.resolve_right fun hzero => ?_
          rw [htried] at hzero
          exact nomatch hzero.2.1
      rw [modifyInfo_of_some (m := { m with nLastGood := nTime }) hinfo] at h1 ⊢
      split
      next => exact ⟨_, rfl, h1⟩
      next htried =>
        split
        next => exact ⟨_, rfl, h1⟩
        next =>
          split
          next =>
            split
            next => exact ⟨_, rfl, h1.numbered, h1.tables, h1.key⟩
            next => exact ⟨_, rfl, h1⟩
          next hmove =>
            refine h1.makeTried (lookup_insert_self ..) (by simpa using htried) ?_
            exact hok.resolve_right fun hzero => hmove ⟨hzero.2.2.1, hzero.2.2.2⟩

/-- The time of an attempt is not negative where there is an entry. -/
def AttemptOk (m : CAddrMan) (addr : CService) (nTime : Int64) : Prop :=
  ∀ id info, m.findService addr = some (id, info) → 0 ≤ nTime.toInt

variable (h : m.Consistent env loose k)

include h

theorem Consistent.of_findService {id : Int} (hfind : m.findService addr = some (id, info)) :
    m.mapInfo.lookup id = some info := by
  rw [findService, filter_eq_some_iff] at hfind
  exact (h.of_find hfind.1).1

theorem Consistent.attempt (hok : m.AttemptOk addr nTime) (fCountFailure : Bool) :
    (m.attempt_ addr fCountFailure nTime).Consistent env loose k := by
  unfold attempt_
  split
  next => exact h
  next nId info hfind =>
    have hinfo := h.of_findService hfind
    have hnonneg := hok nId info hfind
    dsimp only
    apply h.modify hinfo
    all_goals split
    all_goals first
      | rfl
      | exact hnonneg
      | exact h.tables.lastSuccess nId info hinfo
      | exact fun htried => (h.tables.tried nId info hinfo htried).2.2

theorem Consistent.connected (addr : CService) (nTime : Int64) :
    (m.connected_ addr nTime).Consistent env loose k := by
  unfold connected_
  split
  next => exact h
  next nId info hfind =>
    have hinfo := h.of_findService hfind
    dsimp only
    apply h.modify hinfo
    all_goals split
    all_goals first
      | rfl
      | exact h.tables.lastTry nId info hinfo
      | exact h.tables.lastSuccess nId info hinfo
      | exact fun htried => (h.tables.tried nId info hinfo htried).2.2

theorem Consistent.setServices (addr : CService) (nServices : UInt64) :
    (m.setServices_ addr nServices).Consistent env loose k := by
  unfold setServices_
  split
  next => exact h
  next nId info hfind =>
    have hinfo := h.of_findService hfind
    exact h.modify hinfo rfl rfl rfl rfl (h.tables.lastTry nId info hinfo)
      (h.tables.lastSuccess nId info hinfo)
      fun htried => (h.tables.tried nId info hinfo htried).2.2

omit h

end CAddrMan

end Rcoin
