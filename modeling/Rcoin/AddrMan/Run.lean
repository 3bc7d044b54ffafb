/-
  Runs of the address manager: any sequence of its calls.  A run stays consistent as
  long as each call meets its condition on the state it finds; what goes wrong
  otherwise is shown by the run at the end.
-/
import Rcoin.AddrMan.Check
import Rcoin.AddrMan.Updates

namespace Rcoin

open List Option

namespace CAddrMan

variable {env : AddrManEnv} {loose : Int → Prop} {k : Int} {m : CAddrMan}

/-! ## Reading -/

variable {n : Nat} {vv : Fin n → Fin ADDRMAN_BUCKET_SIZE → Int} {p : Fin ADDRMAN_BUCKET_SIZE}

theorem probe_some [NeZero n] {b : Fin n} {steps : List (Nat × Nat)} {id : Int}
    (h : probe vv b p steps = some id) : ∃ b' p', vv b' p' = id ∧ id ≠ -1 := by
  induction steps generalizing b p with
  | nil =>
    rw [probe] at h
    split at h
    next hslot =>
      cases h
      exact ⟨b, p, rfl, hslot⟩
    next => exact nomatch h
  | cons step steps ih =>
    rw [probe] at h
    split at h
    next hslot =>
      cases h
      exact ⟨b, p, rfl, hslot⟩
    next => exact ih h

theorem selectFrom_isSome [NeZero n]
    (hslots : ∀ b p, vv b p ≠ -1 → ∃ info, m.mapInfo.lookup (vv b p) = some info)
    (rounds : List SelectRound) : ∃ r, m.selectFrom vv rounds = some r := by
  induction rounds with
  | nil => exact ⟨none, rfl⟩
  | cons round rounds ih =>
    rw [selectFrom]
    split
    next => exact ⟨none, rfl⟩
    next id hprobe =>
      obtain ⟨b, p, rfl, hslot⟩ := probe_some hprobe
      obtain ⟨info, hinfo⟩ := hslots b p hslot
      simp only [hinfo]
      split
      next => exact ⟨some info, rfl⟩
      next => exact ih

theorem Consistent.select (h : m.Consistent env loose k) (newOnly coin : Bool)
    (rounds : List SelectRound) : ∃ r, m.select_ newOnly coin rounds = some r := by
  rw [select_]
  split
  next => exact ⟨_, rfl⟩
  split
  next => exact ⟨_, rfl⟩
  split
  next =>
    refine selectFrom_isSome (fun b p hslot => ?_) rounds
    obtain ⟨info, hinfo, -⟩ := h.tables.tried_slot b p hslot
    exact ⟨info, hinfo⟩
  next =>
    refine selectFrom_isSome (fun b p hslot => ?_) rounds
    obtain ⟨info, hinfo, -⟩ := h.tables.new_slot b p hslot
    exact ⟨info, hinfo⟩

theorem Consistent.getAddrFrom (rand : Nat → Nat) (now : Nat → Int64) (nNodes rounds : Nat)
    {vAddr : List CAddress} (h : m.Consistent env loose k) (hn : n + rounds = m.vRandom.length) :
    ∃ r, CAddrMan.getAddrFrom rand now nNodes rounds n vAddr m = some r ∧
      r.2.Consistent env loose k := by
  induction rounds generalizing n vAddr m with
  | zero => exact ⟨_, rfl, h⟩
  | succ rounds ih =>
    rw [CAddrMan.getAddrFrom]
    split
    next => exact ⟨_, rfl, h⟩
    next =>
      have hpos : rand n % (m.vRandom.length - n) + n < m.vRandom.length := by
        have hmod := Nat.mod_lt (rand n) (show m.vRandom.length - n > 0 by omega)
        omega
      obtain ⟨m1, hswap, h1, -, -, -, hlen, -⟩ := h.swapRandom
        (show n < m.vRandom.length by omega) hpos
      obtain ⟨id, hid⟩ : ∃ id, m1.vRandom[n]? = some id :=
        ⟨_, getElem?_eq_getElem (by omega)⟩
      obtain ⟨info, hinfo, -⟩ := h1.numbered.at_random n id hid
      simp only [hswap, hid, hinfo, bind_eq_bind, bind_some]
      exact ih h1 (by omega)

theorem Consistent.getAddr (h : m.Consistent env loose k) (rand : Nat → Nat)
    (now : Nat → Int64) :
    ∃ r, m.getAddr_ rand now = some r ∧ r.2.Consistent env loose k :=
  h.getAddrFrom rand now _ _ (Nat.zero_add _)

/-! ## Collisions -/

/-- Whether a round of `ResolveCollisions_` puts the new entry in the place of the old one. -/
def Replaces (now : Nat → Int64) (info_old : CAddrInfo) : Prop :=
  ¬(now 0).toInt - info_old.nLastSuccess.toInt < ADDRMAN_REPLACEMENT_HOURS * (60 * 60) ∧
    (now 1).toInt - info_old.nLastTry.toInt < ADDRMAN_REPLACEMENT_HOURS * (60 * 60) ∧
    (now 2).toInt - info_old.nLastTry.toInt > 60

/-- Where a round of `ResolveCollisions_` calls `Good_`, its reading of the clock will do. -/
def RoundOk (env : AddrManEnv) (m : CAddrMan) (now : Nat → Int64) (id_new : Int) : Prop :=
  ∀ info_new, m.mapInfo.lookup id_new = some info_new → env.isValid info_new.toCNetAddr = true →
    (m.vvTried (m.triedBucket env info_new) (m.triedPos env info_new) = -1 →
      m.GoodOk env info_new.toCService false (now 0)) ∧
    ∀ info_old, m.mapInfo.lookup
        (m.vvTried (m.triedBucket env info_new) (m.triedPos env info_new)) = some info_old →
      Replaces now info_old → m.GoodOk env info_new.toCService false (now 3)

/-- The rounds of `ResolveCollisions_`, one after the other. -/
def RoundsOk (env : AddrManEnv) (now : Int → Nat → Int64) (nRnd : Int → Nat) :
    List Int → CAddrMan → Prop
  | [], _ => True
  | id_new :: ids, m => m.RoundOk env (now id_new) id_new ∧
    ∀ m' accesses, m.resolveCollision env (now id_new) (nRnd id_new) id_new = some (m', accesses) →
      RoundsOk env now nRnd ids m'

theorem Consistent.collisions (h : m.Consistent env loose k) (s : SortedSet Int) :
    Consistent env loose k { m with m_tried_collisions := s } :=
  ⟨h.numbered, h.tables, h.key⟩

theorem Consistent.tried_entry (h : m.Consistent env loose k) {b : Fin ADDRMAN_TRIED_BUCKET_COUNT}
    (hslot : m.vvTried b p ≠ -1) : ∃ info, m.mapInfo.lookup (m.vvTried b p) = some info := by
  obtain ⟨info, hinfo, -⟩ := h.tables.tried_slot b p hslot
  exact ⟨info, hinfo⟩

theorem access_of_some {id : Int} {info : CAddrInfo} (h : m.mapInfo.lookup id = some info) :
    m.access id = (id, true) := by
  simp only [access, h, isSome_some]

theorem Consistent.resolveCollision (h : m.Consistent env (fun _ => False) k)
    {now : Nat → Int64} {id_new : Int} (hok : m.RoundOk env now id_new) (nRnd : Nat) :
    ∃ m' accesses, m.resolveCollision env now nRnd id_new = some (m', accesses) ∧
      m'.Consistent env (fun _ => False) k ∧ ∀ a ∈ accesses, a.2 = true := by
  cases hnew : m.mapInfo.lookup id_new with
  | none =>
    simp only [CAddrMan.resolveCollision, hnew]
    exact ⟨_, _, rfl, h.collisions _, fun a ha => nomatch ha⟩
  | some info_new =>
    have hself : ∀ a ∈ [m.access id_new], a.2 = true := by
      rw [access_of_some hnew]
      exact fun a ha => by rw [mem_singleton.mp ha]
    simp only [CAddrMan.resolveCollision, hnew]
    split
    next => exact ⟨_, _, rfl, h.collisions _, hself⟩
    next hvalid =>
    obtain ⟨hfree, htaken⟩ := hok info_new hnew (by simpa using hvalid)
    split
    next hslot =>
      -- the slot is taken
      obtain ⟨info_old, hold⟩ := h.tried_entry hslot
      have hboth : ∀ a ∈ [m.access id_new] ++ [m.access (m.vvTried (m.triedBucket env info_new)
          (m.triedPos env info_new))], a.2 = true := by
        intro a ha
        rw [mem_append, access_of_some hold] at ha
        rcases ha with ha | ha
        · exact hself a ha
        · rw [mem_singleton.mp ha]
      simp only [infoAt_of_some hold]
      split
      next => exact ⟨_, _, rfl, h.collisions _, hboth⟩
      next hsuccess =>
        split
        next htry =>
          split
          next hlate =>
            obtain ⟨m', hgood, h'⟩ := h.good (htaken info_old hold ⟨hsuccess, htry, hlate⟩) nRnd
            exact ⟨_, _, by rw [hgood]; rfl, h'.collisions _, hboth⟩
          next => exact ⟨_, _, rfl, h, hboth⟩
        next => exact ⟨_, _, rfl, h, hboth⟩
    next hslot =>
      obtain ⟨m', hgood, h'⟩ := h.good (hfree (not_not.mp hslot)) nRnd
      exact ⟨_, _, by rw [hgood]; rfl, h'.collisions _, hself⟩

theorem Consistent.resolveFrom (now : Int → Nat → Int64) (nRnd : Int → Nat) (ids : List Int)
    (h : m.Consistent env (fun _ => False) k) (hok : RoundsOk env now nRnd ids m) :
    ∃ m' accesses, CAddrMan.resolveFrom env now nRnd ids m = some (m', accesses) ∧
      m'.Consistent env (fun _ => False) k ∧ ∀ a ∈ accesses, a.2 = true := by
  induction ids generalizing m with
  | nil => exact ⟨m, [], rfl, h, fun a ha => nomatch ha⟩
  | cons id_new ids ih =>
    obtain ⟨hround, hrest⟩ := hok
    obtain ⟨m1, accesses1, hrun1, h1, hall1⟩ := h.resolveCollision hround (nRnd id_new)
    obtain ⟨m2, accesses2, hrun2, h2, hall2⟩ := ih h1 (hrest m1 accesses1 hrun1)
    refine ⟨m2, accesses1 ++ accesses2, ?_, h2, fun a ha => ?_⟩
    · simp only [CAddrMan.resolveFrom, hrun1, hrun2, bind_eq_bind, bind_some,
        Option.pure_def]
    · exact (mem_append.mp ha).elim (hall1 a) (hall2 a)

/-- The id that `SelectTriedCollision_` picks has an entry with a taken slot, or none. -/
def PickOk (env : AddrManEnv) (m : CAddrMan) (rand : Nat) : Prop :=
  ∀ id_new info, m.pickCollision rand = some id_new → m.mapInfo.lookup id_new = some info →
    m.vvTried (m.triedBucket env info) (m.triedPos env info) ≠ -1

theorem Consistent.selectTriedCollision (h : m.Consistent env loose k) {rand : Nat}
    (hok : m.PickOk env rand) :
    (m.selectTriedCollision_ env rand).2.1.Consistent env loose k ∧
      ∀ a ∈ (m.selectTriedCollision_ env rand).2.2, a.2 = true := by
  cases hpick : m.pickCollision rand with
  | none =>
    simp only [selectTriedCollision_, hpick]
    exact ⟨h, fun a ha => nomatch ha⟩
  | some id_new =>
    cases hnew : m.mapInfo.lookup id_new with
    | none =>
      simp only [selectTriedCollision_, hpick, hnew]
      exact ⟨h.collisions _, fun a ha => nomatch ha⟩
    | some info =>
      obtain ⟨info_old, hold⟩ := h.tried_entry (hok id_new info hpick hnew)
      simp only [selectTriedCollision_, hpick, hnew, infoAt_of_some hold, access_of_some hnew,
        access_of_some hold]
      refine ⟨h, fun a ha => ?_⟩
      rcases mem_cons.mp ha with rfl | ha
      · rfl
      · rw [mem_singleton.mp ha]

/-! ## Runs -/

/-- A call of the manager, with its random numbers and readings of the clock. -/
inductive Call
  | clear (randHash : Uint256)
  | add (addr : CAddress) (source : CNetAddr) (nTimePenalty now now' : Int64) (rand : Nat)
  | good (addr : CService) (test_before_evict : Bool) (nTime : Int64) (nRnd : Nat)
  | attempt (addr : CService) (fCountFailure : Bool) (nTime : Int64)
  | resolveCollisions (now : Int → Nat → Int64) (nRnd : Int → Nat)
  | selectTriedCollision (rand : Nat)
  | select (newOnly coin : Bool) (rounds : List SelectRound)
  | getAddr (rand : Nat → Nat) (now : Nat → Int64)
  | connected (addr : CService) (nTime : Int64)
  | setServices (addr : CService) (nServices : UInt64)

/-- The manager after a call, and the accesses by ids of pending collisions; `none` where
    an assertion fails. -/
def call (env : AddrManEnv) (m : CAddrMan) : Call → Option (CAddrMan × List Access)
  | .clear randHash => some (m.clear randHash, [])
  | .add addr source nTimePenalty now now' rand =>
    (m.add_ env addr source nTimePenalty now now' rand).map fun r => (r.2, [])
  | .good addr test_before_evict nTime nRnd =>
    (m.good_ env addr test_before_evict nTime nRnd).map (·, [])
  | .attempt addr fCountFailure nTime => some (m.attempt_ addr fCountFailure nTime, [])
  | .resolveCollisions now nRnd => m.resolveCollisions_ env now nRnd
  | .selectTriedCollision rand => some (m.selectTriedCollision_ env rand).2
  | .select newOnly coin rounds => (m.select_ newOnly coin rounds).map fun _ => (m, [])
  | .getAddr rand now => (m.getAddr_ rand now).map fun r => (r.2, [])
  | .connected addr nTime => some (m.connected_ addr nTime, [])
  | .setServices addr nServices => some (m.setServices_ addr nServices, [])

/-- The condition of a call on the manager that it finds. -/
def CallOk (env : AddrManEnv) (m : CAddrMan) : Call → Prop
  | .clear randHash => randHash ≠ 0
  | .add addr _ _ _ _ _ => m.AddOk env addr
  | .good addr test_before_evict nTime _ => m.GoodOk env addr test_before_evict nTime
  | .attempt addr _ nTime => m.AttemptOk addr nTime
  | .resolveCollisions now nRnd => RoundsOk env now nRnd m.m_tried_collisions.elems m
  | .selectTriedCollision rand => m.PickOk env rand
  | _ => True

/-- The calls of a list, one after the other. -/
def run (env : AddrManEnv) : CAddrMan → List Call → Option (CAddrMan × List Access)
  | m, [] => some (m, [])
  | m, c :: calls => do
    let (m, accesses) ← m.call env c
    let (m, accesses') ← run env m calls
    return (m, accesses ++ accesses')

/-- Each call of a run meets its condition. -/
def RunOk (env : AddrManEnv) : CAddrMan → List Call → Prop
  | _, [] => True
  | m, c :: calls => m.CallOk env c ∧
    ∀ m' accesses, m.call env c = some (m', accesses) → RunOk env m' calls

theorem Consistent.call (h : m.Consistent env (fun _ => False) 0) {c : Call}
    (hok : m.CallOk env c) :
    ∃ m' accesses, m.call env c = some (m', accesses) ∧
      m'.Consistent env (fun _ => False) 0 ∧ ∀ a ∈ accesses, a.2 = true := by
  have hnil : ∀ a ∈ ([] : List Access), a.2 = true := fun a ha => nomatch ha
  cases c with
  | clear randHash => exact ⟨_, _, rfl, clear_consistent hok, hnil⟩
  | add addr source nTimePenalty now now' rand =>
    obtain ⟨r, hadd, h'⟩ := h.add hok source nTimePenalty now now' rand
    exact ⟨r.2, [], by simp only [CAddrMan.call, hadd, map_some], h', hnil⟩
  | good addr test_before_evict nTime nRnd =>
    obtain ⟨m', hgood, h'⟩ := h.good hok nRnd
    exact ⟨m', [], by simp only [CAddrMan.call, hgood, map_some], h', hnil⟩
  | attempt addr fCountFailure nTime => exact ⟨_, _, rfl, h.attempt hok fCountFailure, hnil⟩
  | resolveCollisions now nRnd => exact h.resolveFrom now nRnd _ hok
  | selectTriedCollision rand =>
    obtain ⟨h', hall⟩ := h.selectTriedCollision hok
    exact ⟨_, _, rfl, h', hall⟩
  | select newOnly coin rounds =>
    obtain ⟨r, hselect⟩ := h.select newOnly coin rounds
    exact ⟨m, [], by simp only [CAddrMan.call, hselect, map_some], h, hnil⟩
  | getAddr rand now =>
    obtain ⟨r, hget, h'⟩ := h.getAddr rand now
    exact ⟨r.2, [], by simp only [CAddrMan.call, hget, map_some], h', hnil⟩
  | connected addr nTime => exact ⟨_, _, rfl, h.connected addr nTime, hnil⟩
  | setServices addr nServices => exact ⟨_, _, rfl, h.setServices addr nServices, hnil⟩

theorem Consistent.run (calls : List Call) (h : m.Consistent env (fun _ => False) 0)
    (hok : m.RunOk env calls) :
    ∃ m' accesses, m.run env calls = some (m', accesses) ∧
      m'.Consistent env (fun _ => False) 0 ∧ ∀ a ∈ accesses, a.2 = true := by
  induction calls generalizing m with
  | nil => exact ⟨m, [], rfl, h, fun a ha => nomatch ha⟩
  | cons c calls ih =>
    obtain ⟨hcall, hrest⟩ := hok
    obtain ⟨m1, accesses1, hrun1, h1, hall1⟩ := h.call hcall
    obtain ⟨m2, accesses2, hrun2, h2, hall2⟩ := ih h1 (hrest m1 accesses1 hrun1)
    refine ⟨m2, accesses1 ++ accesses2, ?_, h2, fun a ha => ?_⟩
    · simp only [CAddrMan.run, hrun1, hrun2, bind_eq_bind, bind_some,
        Option.pure_def]
    · exact (mem_append.mp ha).elim (hall1 a) (hall2 a)

/-- What holds after each call of a run: `Check_` passes, pending collisions have been
    looked up where they have entries, and each entry has the id of its address. -/
structure Sound (env : AddrManEnv) (m : CAddrMan) (accesses : List Access) : Prop where
  check : m.check_ env = 0
  accessed : ∀ a ∈ accesses, a.2 = true
  assigned : ∀ id info, m.mapInfo.lookup id = some info →
    0 ≤ id ∧ id < m.nIdCount ∧ m.mapAddr.lookup info.toCNetAddr = some id

/-- Runs whose calls meet their conditions. -/
theorem run_sound {randHash : Uint256} (hkey : randHash ≠ 0) {calls : List Call}
    (hok : (new randHash).RunOk env calls) :
    ∃ m accesses, (new randHash).run env calls = some (m, accesses) ∧ m.Sound env accesses := by
  obtain ⟨m, accesses, hrun, h, hall⟩ := (new_consistent hkey).run calls hok
  refine ⟨m, accesses, hrun, h.check_eq_zero, hall, fun id info hinfo => ?_⟩
  obtain ⟨hnonneg, hlt⟩ := h.numbered.id_bounds id info hinfo
  exact ⟨hnonneg, hlt, h.numbered.addr_id id info hinfo⟩

end CAddrMan

/-! ## A run that goes wrong -/

namespace SampleAddrMan

/-- IPv4 addresses with their first two bytes for their groups. -/
def env : AddrManEnv where
  cheapHash bytes :=
    let h := bytes.foldl (fun h b => 31 * h + b.toNat) 7
    UInt64.ofNat (h * h / 1000)
  getGroup addr := 1 :: leBytes 2 (addr.ip.toNat / 2 ^ 96)
  isRoutable _ := true
  isValid _ := true

/-- `1.2.0.n:8333`. -/
def addr (n : Nat) : CAddress :=
  { ip := BitVec.ofNat 128 (n * 2 ^ 120 + 0x0201ffff * 2 ^ 80), port := 8333, nServices := 1,
    nTime := 1500000000 }

def source : CNetAddr := (addr 4).toCNetAddr

def add (n : Nat) : CAddrMan.Call := .add (addr n) source 0 1500000000 1500000000 0

def good (n : Nat) : CAddrMan.Call := .good (addr n).toCService true 1500000000 0

theorem run_sound_good : ∃ m accesses, (CAddrMan.new 1).run env [add 8, good 8, .clear 2] =
    some (m, accesses) ∧ m.Sound env accesses :=
  CAddrMan.run_sound (by decide) ⟨fun _ _ => by decide, fun _ _ _ =>
    ⟨fun _ _ _ => .inl (by decide), fun _ _ _ =>
      ⟨show (2 : Uint256) ≠ 0 by decide, fun _ _ _ => trivial⟩⟩⟩

/-- Two addresses with one tried slot, so that the second is a pending collision.  `Clear`
    leaves it pending; the id goes to another address, whose tried slot is empty, and
    `SelectTriedCollision` makes an entry for the id -1. -/
theorem run_cleared : ((CAddrMan.new 1).run env
      [add 8, add 31, good 8, good 31, .clear 2, add 1, add 2, .selectTriedCollision 0]).map
        (fun r => (r.1.check_ env, r.2, (r.1.mapInfo.lookup (-1)).isSome)) =
    some (-4, [(1, true), (-1, false)], true) := by
  decide +kernel

end SampleAddrMan

end Rcoin
