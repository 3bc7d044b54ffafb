/-
  `CAddrMan::Check_` (src/addrman.cpp), and the conditions that it tests: it
  returns 0 exactly where they hold, and they hold of a consistent manager.
-/
import Rcoin.AddrMan.Operations
import Rcoin.Lib.Fallible

namespace Rcoin

open Fallible List Option SortedMap SortedSet

/-- What `Check_` returns where it fails. -/
abbrev CheckError := {code : Int // code < 0}

namespace CAddrMan

variable (env : AddrManEnv)

/-! ## The loops -/

/-- The slots of a table, bucket by bucket. -/
def slots (n : Nat) : List (Fin n × Fin ADDRMAN_BUCKET_SIZE) :=
  (List.finRange n).flatMap fun b => (List.finRange ADDRMAN_BUCKET_SIZE).map fun i => (b, i)

/-- The loop over `mapInfo`; `mapAddr[info]` is 0 where the address is not there. -/
def checkInfo (m : CAddrMan) (s : SortedSet Int × SortedMap Int Int) (entry : Int × CAddrInfo) :
    Except CheckError (SortedSet Int × SortedMap Int Int) := do
  let n := entry.1
  let info := entry.2
  let s ←
    if info.fInTried then do
      failIf (info.nLastSuccess = 0) ⟨-1, by decide⟩
      failIf (info.nRefCount ≠ 0) ⟨-2, by decide⟩
      pure (s.1.insert n, s.2)
    else do
      failIf (info.nRefCount < 0 ∨ info.nRefCount > ADDRMAN_NEW_BUCKETS_PER_ADDRESS)
        ⟨-3, by decide⟩
      failIf (info.nRefCount = 0) ⟨-4, by decide⟩
      pure (s.1, s.2.insert n info.nRefCount)
  failIf ((m.mapAddr.lookup info.toCNetAddr).getD 0 ≠ n) ⟨-5, by decide⟩
  failIf (info.nRandomPos < 0 ∨ info.nRandomPos ≥ m.vRandom.length ∨
    m.vRandom[info.nRandomPos.toNat]? ≠ some n) ⟨-14, by decide⟩
  failIf (info.nLastTry.toInt < 0) ⟨-6, by decide⟩
  failIf (info.nLastSuccess.toInt < 0) ⟨-8, by decide⟩
  return s

/-- The loop over the tried table. -/
def checkTried (m : CAddrMan) (setTried : SortedSet Int)
    (slot : Fin ADDRMAN_TRIED_BUCKET_COUNT × Fin ADDRMAN_BUCKET_SIZE) :
    Except CheckError (SortedSet Int) :=
  let id := m.vvTried slot.1 slot.2
  if id ≠ -1 then do
    failIf (id ∉ setTried) ⟨-11, by decide⟩
    let info := (m.infoAt id).1
    failIf (env.getTriedBucket m.nKey info.toCService ≠ slot.1) ⟨-17, by decide⟩
    failIf (env.getBucketPosition m.nKey false slot.1 info.toCService ≠ slot.2)
      ⟨-18, by decide⟩
    return setTried.erase id
  else return setTried

/-- The loop over the new table. -/
def checkNew (m : CAddrMan) (mapNew : SortedMap Int Int)
    (slot : Fin ADDRMAN_NEW_BUCKET_COUNT × Fin ADDRMAN_BUCKET_SIZE) :
    Except CheckError (SortedMap Int Int) :=
  let id := m.vvNew slot.1 slot.2
  if id ≠ -1 then
    match mapNew.lookup id with
    | none => .error ⟨-12, by decide⟩
    | some refs => do
      let info := (m.infoAt id).1
      failIf (env.getBucketPosition m.nKey true slot.1 info.toCService ≠ slot.2)
        ⟨-19, by decide⟩
      return if refs - 1 = 0 then mapNew.erase id else mapNew.insert id (refs - 1)
  else return mapNew

def checked (m : CAddrMan) : Except CheckError Unit := do
  failIf ((m.vRandom.length : Int) ≠ m.nTried + m.nNew) ⟨-7, by decide⟩
  let s ← m.mapInfo.entries.foldlM m.checkInfo (∅, empty)
  failIf ((s.1.size : Int) ≠ m.nTried) ⟨-9, by decide⟩
  failIf ((s.2.entries.length : Int) ≠ m.nNew) ⟨-10, by decide⟩
  let setTried ← (slots ADDRMAN_TRIED_BUCKET_COUNT).foldlM (m.checkTried env) s.1
  let mapNew ← (slots ADDRMAN_NEW_BUCKET_COUNT).foldlM (m.checkNew env) s.2
  failIf (setTried.size ≠ 0) ⟨-13, by decide⟩
  failIf (mapNew.entries.length ≠ 0) ⟨-15, by decide⟩
  failIf (m.nKey = 0) ⟨-16, by decide⟩

def check_ (m : CAddrMan) : Int :=
  match m.checked env with
  | .ok _ => 0
  | .error code => code.1

/-! ## The conditions -/

/-- What `Check_` tests of an entry. -/
structure InfoOk (m : CAddrMan) (id : Int) (info : CAddrInfo) : Prop where
  tried : info.fInTried = true → info.nLastSuccess ≠ 0 ∧ info.nRefCount = 0
  new : info.fInTried = false →
    0 < info.nRefCount ∧ info.nRefCount ≤ ADDRMAN_NEW_BUCKETS_PER_ADDRESS
  addr : (m.mapAddr.lookup info.toCNetAddr).getD 0 = id
  random : 0 ≤ info.nRandomPos ∧ m.vRandom[info.nRandomPos.toNat]? = some id
  lastTry : 0 ≤ info.nLastTry.toInt
  lastSuccess : 0 ≤ info.nLastSuccess.toInt

/-- What `Check_` tests of a slot of the tried table. -/
def TriedOk (m : CAddrMan) (id : Int)
    (slot : Fin ADDRMAN_TRIED_BUCKET_COUNT × Fin ADDRMAN_BUCKET_SIZE) : Prop :=
  env.getTriedBucket m.nKey (m.infoAt id).1.toCService = slot.1 ∧
    env.getBucketPosition m.nKey false slot.1 (m.infoAt id).1.toCService = slot.2

/-- What `Check_` tests of a slot of the new table. -/
def NewOk (m : CAddrMan) (id : Int)
    (slot : Fin ADDRMAN_NEW_BUCKET_COUNT × Fin ADDRMAN_BUCKET_SIZE) : Prop :=
  env.getBucketPosition m.nKey true slot.1 (m.infoAt id).1.toCService = slot.2

variable {env} {m : CAddrMan}

theorem mem_slots {n : Nat} (x : Fin n × Fin ADDRMAN_BUCKET_SIZE) : x ∈ slots n := by
  simp only [slots, mem_flatMap, List.mem_map, mem_finRange, true_and]
  exact ⟨x.1, x.2, rfl⟩

theorem nodup_slots (n : Nat) : (slots n).Nodup := by
  rw [slots, nodup_flatMap]
  refine ⟨fun b _ => (nodup_finRange _).map fun i i' h => congrArg Prod.snd h, ?_⟩
  refine (nodup_finRange n).imp fun hne => ?_
  intro x hx hx'
  obtain ⟨i, -, rfl⟩ := List.mem_map.mp hx
  obtain ⟨i', -, heq⟩ := List.mem_map.mp hx'
  exact hne (congrArg Prod.fst heq).symm

/-- What the loop over `mapInfo` notes of an entry. -/
def noteInfo (s : SortedSet Int × SortedMap Int Int) (entry : Int × CAddrInfo) :
    SortedSet Int × SortedMap Int Int :=
  if entry.2.fInTried then (s.1.insert entry.1, s.2)
  else (s.1, s.2.insert entry.1 entry.2.nRefCount)

theorem checkInfo_eq_ok {s s' : SortedSet Int × SortedMap Int Int} {entry : Int × CAddrInfo} :
    m.checkInfo s entry = .ok s' ↔ m.InfoOk entry.1 entry.2 ∧ s' = noteInfo s entry := by
  obtain ⟨id, info⟩ := entry
  have hrandom : ¬(info.nRandomPos < 0 ∨ info.nRandomPos ≥ m.vRandom.length ∨
      m.vRandom[info.nRandomPos.toNat]? ≠ some id) ↔
      0 ≤ info.nRandomPos ∧ m.vRandom[info.nRandomPos.toNat]? = some id := by
    constructor
    · intro h
      push Not at h
      exact ⟨h.1, h.2.2⟩
    · rintro ⟨hnonneg, hget⟩
      have hlt := (List.getElem?_eq_some_iff.mp hget).1
      rintro (hneg | hge | hne)
      · omega
      · omega
      · exact hne hget
  cases htried : info.fInTried with
  | true =>
    simp only [checkInfo, noteInfo, htried, if_true, pure_bind,
      failIf_bind_eq_ok, pure_eq_ok, decide_eq_false_iff_not, hrandom, not_lt,
      not_not, eq_comm (b := s')]
    constructor
    · rintro ⟨hsuccess, hrefs, haddr, hpos, htry, hlast, heq⟩
      refine ⟨⟨fun _ => ⟨hsuccess, hrefs⟩, fun hnew => ?_, haddr, hpos, htry, hlast⟩, heq⟩
      rw [htried] at hnew
      exact nomatch hnew
    · rintro ⟨h, heq⟩
      obtain ⟨hsuccess, hrefs⟩ := h.tried htried
      exact ⟨hsuccess, hrefs, h.addr, h.random, h.lastTry, h.lastSuccess, heq⟩
  | false =>
    simp only [checkInfo, noteInfo, htried, Bool.false_eq_true, if_false, pure_bind,
      failIf_bind_eq_ok, pure_eq_ok, decide_eq_false_iff_not, hrandom, not_lt,
      not_or, not_not, eq_comm (b := s')]
    constructor
    · rintro ⟨⟨hnonneg, hle⟩, hne, haddr, hpos, htry, hlast, heq⟩
      refine ⟨⟨fun hold => ?_, fun _ => ⟨by omega, by omega⟩, haddr, hpos, htry, hlast⟩, heq⟩
      rw [htried] at hold
      exact nomatch hold
    · rintro ⟨h, heq⟩
      obtain ⟨hrefs, hle⟩ := h.new htried
      exact ⟨⟨by omega, by omega⟩, by omega, h.addr, h.random, h.lastTry, h.lastSuccess, heq⟩

theorem foldl_noteInfo {l : List (Int × CAddrInfo)} (hl : l.Pairwise (·.1 < ·.1))
    {s : SortedSet Int × SortedMap Int Int} (hset : ∀ x ∈ s.1, ∀ e ∈ l, x < e.1)
    (hmap : ∀ x ∈ s.2.entries, ∀ e ∈ l, x.1 < e.1) :
    (l.foldl noteInfo s).1.elems = s.1.elems ++ (l.filter (·.2.fInTried)).map (·.1) ∧
      (l.foldl noteInfo s).2.entries =
        s.2.entries ++ (l.filter (!·.2.fInTried)).map fun e => (e.1, e.2.nRefCount) := by
  induction l generalizing s with
  | nil => exact ⟨(append_nil _).symm, (append_nil _).symm⟩
  | cons e l ih =>
    obtain ⟨hlt, hl⟩ := pairwise_cons.mp hl
    have hself : ∀ x ∈ s.1, x < e.1 := fun x hx => hset x hx e mem_cons_self
    have hself' : ∀ x ∈ s.2.entries, x.1 < e.1 := fun x hx => hmap x hx e mem_cons_self
    rw [foldl_cons]
    cases htried : e.2.fInTried with
    | true =>
      have hnote : noteInfo s e = (s.1.insert e.1, s.2) := by
        simp only [noteInfo, htried, if_true]
      have hset' : ∀ x ∈ s.1.insert e.1, ∀ e' ∈ l, x < e'.1 := by
        intro x hx e' he'
        rcases mem_insert.mp hx with rfl | hx
        · exact hlt e' he'
        · exact hset x hx e' (mem_cons_of_mem _ he')
      obtain ⟨hset1, hmap1⟩ := ih hl (s := (s.1.insert e.1, s.2)) hset'
        fun x hx e' he' => hmap x hx e' (mem_cons_of_mem _ he')
      rw [hnote, hset1, hmap1, elems_insert_last hself]
      simp only [filter_cons, htried, if_true, Bool.not_true, Bool.false_eq_true, if_false,
        map_cons, append_assoc, singleton_append, and_self]
    | false =>
      have hnote : noteInfo s e = (s.1, s.2.insert e.1 e.2.nRefCount) := by
        simp only [noteInfo, htried, Bool.false_eq_true, if_false]
      have hmap' : ∀ x ∈ (s.2.insert e.1 e.2.nRefCount).entries, ∀ e' ∈ l, x.1 < e'.1 := by
        intro x hx e' he'
        rw [entries_insert_last hself', mem_append, mem_singleton] at hx
        rcases hx with hx | rfl
        · exact hmap x hx e' (mem_cons_of_mem _ he')
        · exact hlt e' he'
      obtain ⟨hset1, hmap1⟩ := ih hl (s := (s.1, s.2.insert e.1 e.2.nRefCount))
        (fun x hx e' he' => hset x hx e' (mem_cons_of_mem _ he')) hmap'
      rw [hnote, hset1, hmap1, entries_insert_last hself']
      simp only [filter_cons, htried, if_true, Bool.not_false, Bool.false_eq_true, if_false,
        map_cons, append_assoc, singleton_append, and_self]

theorem checkTried_eq_ok {s s' : SortedSet Int}
    {slot : Fin ADDRMAN_TRIED_BUCKET_COUNT × Fin ADDRMAN_BUCKET_SIZE} :
    m.checkTried env s slot = .ok s' ↔
      if m.vvTried slot.1 slot.2 = -1 then s' = s
      else m.vvTried slot.1 slot.2 ∈ s ∧ m.TriedOk env (m.vvTried slot.1 slot.2) slot ∧
        s' = s.erase (m.vvTried slot.1 slot.2) := by
  by_cases hslot : m.vvTried slot.1 slot.2 = -1
  · simp only [checkTried, hslot, ne_eq, not_true_eq_false, if_false, pure_eq_ok, if_true,
      eq_comm (b := s')]
  · simp only [checkTried, hslot, ne_eq, not_false_eq_true, if_true, if_false,
      failIf_bind_eq_ok, pure_eq_ok, decide_eq_false_iff_not, not_not, TriedOk,
      and_assoc, eq_comm (b := s')]

theorem checkTried_foldlM {l : List (Fin ADDRMAN_TRIED_BUCKET_COUNT × Fin ADDRMAN_BUCKET_SIZE)}
    (hl : l.Nodup) {s : SortedSet Int} :
    (∃ s', l.foldlM (m.checkTried env) s = .ok s' ∧ s'.size = 0) ↔
      (∀ x ∈ l, m.vvTried x.1 x.2 ≠ -1 →
        m.vvTried x.1 x.2 ∈ s ∧ m.TriedOk env (m.vvTried x.1 x.2) x) ∧
      ∀ id ∈ s, ∃ x ∈ l, m.vvTried x.1 x.2 = id ∧ id ≠ -1 := by
  induction l generalizing s with
  | nil =>
    simp only [foldlM_nil, pure_eq_ok, exists_eq_left', size,
      length_eq_zero_iff, not_mem_nil, false_and, exists_false, imp_false,
      eq_nil_iff_forall_not_mem, mem_elems, IsEmpty.forall_iff, implies_true,
      true_and]
  | cons x l ih =>
    obtain ⟨hx, hl⟩ := nodup_cons.mp hl
    have hstep : (∃ s', (x :: l).foldlM (m.checkTried env) s = .ok s' ∧ s'.size = 0) ↔
        ∃ t, m.checkTried env s x = .ok t ∧
          ∃ s', l.foldlM (m.checkTried env) t = .ok s' ∧ s'.size = 0 := by
      simp only [foldlM_cons, bind_eq_ok]
      constructor
      · rintro ⟨s', ⟨t, ht, hs'⟩, hsize⟩
        exact ⟨t, ht, s', hs', hsize⟩
      · rintro ⟨t, ht, s', hs', hsize⟩
        exact ⟨s', ⟨t, ht, hs'⟩, hsize⟩
    simp only [hstep, checkTried_eq_ok, ih hl]
    by_cases hslot : m.vvTried x.1 x.2 = -1
    · simp only [hslot, if_true, exists_eq_left, forall_mem_cons, ne_eq, not_true_eq_false,
        IsEmpty.forall_iff, true_and, exists_mem_cons_iff]
      refine and_congr_right fun _ => forall₂_congr fun id _ => ⟨.inr, ?_⟩
      rintro (⟨rfl, hne⟩ | h)
      · exact absurd rfl hne
      · exact h
    · simp only [hslot, if_false]
      constructor
      · rintro ⟨t, ⟨hmem, hok, rfl⟩, hall, hback⟩
        refine ⟨forall_mem_cons.mpr ⟨fun _ => ⟨hmem, hok⟩, fun y hy hne => ?_⟩, fun id hid => ?_⟩
        · obtain ⟨hy, hok'⟩ := hall y hy hne
          exact ⟨(mem_erase.mp hy).2, hok'⟩
        · by_cases heq : id = m.vvTried x.1 x.2
          · exact ⟨x, mem_cons_self, heq.symm, heq ▸ hslot⟩
          · obtain ⟨y, hy, hyid⟩ := hback id (mem_erase.mpr ⟨heq, hid⟩)
            exact ⟨y, mem_cons_of_mem _ hy, hyid⟩
      · rintro ⟨hall, hback⟩
        obtain ⟨hself, hall⟩ := forall_mem_cons.mp hall
        obtain ⟨hmem, hok⟩ := hself hslot
        refine ⟨_, ⟨hmem, hok, rfl⟩, fun y hy hne => ?_, fun id hid => ?_⟩
        · obtain ⟨hy', hok'⟩ := hall y hy hne
          refine ⟨mem_erase.mpr ⟨fun heq => hx ?_, hy'⟩, hok'⟩
          -- an entry has one slot only
          rw [heq] at hok'
          have hb : x.1 = y.1 := hok.1.symm.trans hok'.1
          have hp : x.2 = y.2 := by rw [← hok.2, ← hok'.2, hb]
          rw [Prod.ext hb hp]
          exact hy
        · obtain ⟨hne, hid⟩ := mem_erase.mp hid
          obtain ⟨y, hy, hyid⟩ := hback id hid
          rcases mem_cons.mp hy with rfl | hy
          · exact absurd hyid.1.symm hne
          · exact ⟨y, hy, hyid⟩

/-- The count that is left for an id. -/
def refsLeft (s : SortedMap Int Int) (id : Int) : Int := (s.lookup id).getD 0

variable {s : SortedMap Int Int}

theorem checkNew_eq_ok {s' : SortedMap Int Int}
    {slot : Fin ADDRMAN_NEW_BUCKET_COUNT × Fin ADDRMAN_BUCKET_SIZE} :
    m.checkNew env s slot = .ok s' ↔
      if m.vvNew slot.1 slot.2 = -1 then s' = s
      else ∃ refs, s.lookup (m.vvNew slot.1 slot.2) = some refs ∧
        m.NewOk env (m.vvNew slot.1 slot.2) slot ∧
        s' = if refs - 1 = 0 then s.erase (m.vvNew slot.1 slot.2)
          else s.insert (m.vvNew slot.1 slot.2) (refs - 1) := by
  by_cases hslot : m.vvNew slot.1 slot.2 = -1
  · simp only [checkNew, hslot, ne_eq, not_true_eq_false, if_false, pure_eq_ok, if_true,
      eq_comm (b := s')]
  · simp only [checkNew, hslot, ne_eq, not_false_eq_true, if_true, if_false]
    cases hrefs : s.lookup (m.vvNew slot.1 slot.2) with
    | none => simp only [reduceCtorEq, false_and, exists_false]
    | some refs =>
      simp only [failIf_bind_eq_ok, pure_eq_ok, decide_eq_false_iff_not, not_not,
        NewOk, Option.some.injEq, exists_eq_left', eq_comm (b := s')]

variable {id : Int}

variable {refs : Int}

theorem refsLeft_step (h : s.lookup id = some refs) (i : Int) :
    refsLeft (if refs - 1 = 0 then s.erase id else s.insert id (refs - 1)) i =
      refsLeft s i - if i = id then 1 else 0 := by
  unfold refsLeft
  split
  next hzero =>
    rw [lookup_erase]
    split
    next heq =>
      rw [heq, h, getD_none, getD_some]
      omega
    next => omega
  next =>
    rw [lookup_insert]
    split
    next heq => rw [heq, h, getD_some, getD_some]
    next => omega

theorem refs_pos_step (hs : ∀ id refs, s.lookup id = some refs → 0 < refs)
    (h : s.lookup id = some refs) :
    ∀ id' refs', (if refs - 1 = 0 then s.erase id else s.insert id (refs - 1)).lookup id' =
      some refs' → 0 < refs' := by
  intro id' refs' hlookup
  have hrefs := hs id refs h
  split at hlookup
  next =>
    rw [lookup_erase] at hlookup
    split at hlookup
    next => exact nomatch hlookup
    next => exact hs id' refs' hlookup
  next =>
    rcases lookup_insert_some hlookup with ⟨-, rfl⟩ | ⟨-, hold⟩
    · omega
    · exact hs id' refs' hold

theorem checkNew_foldlM {l : List (Fin ADDRMAN_NEW_BUCKET_COUNT × Fin ADDRMAN_BUCKET_SIZE)}
    (hs : ∀ id refs, s.lookup id = some refs → 0 < refs) :
    (∃ s', l.foldlM (m.checkNew env) s = .ok s' ∧ s'.entries.length = 0) ↔
      (∀ x ∈ l, m.vvNew x.1 x.2 ≠ -1 → m.NewOk env (m.vvNew x.1 x.2) x) ∧
      ∀ id, refsLeft s id = l.countP fun x => m.vvNew x.1 x.2 = id ∧ ¬id = -1 := by
  induction l generalizing s with
  | nil =>
    simp only [foldlM_nil, pure_eq_ok, exists_eq_left', length_eq_zero_iff,
      not_mem_nil, IsEmpty.forall_iff, implies_true, true_and, countP_nil]
    constructor
    · intro hnil id
      simp only [refsLeft, SortedMap.lookup, hnil, lookupEntries, getD_none,
        Nat.cast_zero]
    · intro hzero
      rw [eq_nil_iff_forall_not_mem]
      rintro ⟨id, refs⟩ hmem
      have hlookup := mem_entries.mp hmem
      have hpos := hs id refs hlookup
      have hleft := hzero id
      rw [refsLeft, hlookup, getD_some] at hleft
      omega
  | cons x l ih =>
    have hstep : (∃ s', (x :: l).foldlM (m.checkNew env) s = .ok s' ∧ s'.entries.length = 0) ↔
        ∃ t, m.checkNew env s x = .ok t ∧
          ∃ s', l.foldlM (m.checkNew env) t = .ok s' ∧ s'.entries.length = 0 := by
      simp only [foldlM_cons, bind_eq_ok]
      constructor
      · rintro ⟨s', ⟨t, ht, hs'⟩, hsize⟩
        exact ⟨t, ht, s', hs', hsize⟩
      · rintro ⟨t, ht, s', hs', hsize⟩
        exact ⟨s', ⟨t, ht, hs'⟩, hsize⟩
    simp only [hstep, checkNew_eq_ok, forall_mem_cons, countP_cons]
    by_cases hslot : m.vvNew x.1 x.2 = -1
    · have hno : ∀ id : Int, ¬((-1 : Int) = id ∧ ¬id = -1) := fun id h => h.2 h.1.symm
      simp only [hslot, if_true, exists_eq_left, ih hs, ne_eq, not_true_eq_false,
        IsEmpty.forall_iff, true_and, decide_eq_true_eq, hno, if_false, Nat.add_zero]
    · have hcount : ∀ id : Int, ((if decide (m.vvNew x.1 x.2 = id ∧ ¬id = -1) = true then 1
          else 0 : Nat) : Int) = if id = m.vvNew x.1 x.2 then 1 else 0 := by
        intro id
        by_cases hid : id = m.vvNew x.1 x.2
        · rw [if_pos hid, if_pos (decide_eq_true ⟨hid.symm, hid ▸ hslot⟩)]
          rfl
        · rw [if_neg hid, if_neg fun h => hid (of_decide_eq_true h).1.symm]
          rfl
      simp only [hslot, if_false, Nat.cast_add, hcount, ne_eq, not_false_eq_true, true_implies]
      constructor
      · rintro ⟨t, ⟨refs, hrefs, hok, rfl⟩, hrest⟩
        obtain ⟨hall, hleft⟩ := (ih (refs_pos_step hs hrefs)).mp hrest
        refine ⟨⟨hok, hall⟩, fun id => ?_⟩
        have hid := hleft id
        rw [refsLeft_step hrefs] at hid
        omega
      · rintro ⟨⟨hok, hall⟩, hleft⟩
        -- the slot counts, so there is something left
        have hpos : 0 < refsLeft s (m.vvNew x.1 x.2) := by
          rw [hleft, if_pos rfl]
          omega
        obtain ⟨refs, hrefs⟩ : ∃ refs, s.lookup (m.vvNew x.1 x.2) = some refs := by
          rw [← isSome_iff_exists, isSome_iff_ne_none]
          intro hnone
          rw [refsLeft, hnone, getD_none] at hpos
          exact lt_irrefl _ hpos
        refine ⟨_, ⟨refs, hrefs, hok, rfl⟩, (ih (refs_pos_step hs hrefs)).mpr ⟨hall, fun id => ?_⟩⟩
        rw [refsLeft_step hrefs, hleft id]
        omega

/-! ## What `Check_` tests -/

/-- The conditions of `Check_`. -/
structure Checks (env : AddrManEnv) (m : CAddrMan) : Prop where
  size : (m.vRandom.length : Int) = m.nTried + m.nNew
  info : ∀ id info, m.mapInfo.lookup id = some info → m.InfoOk id info
  triedCount : m.nTried = m.mapInfo.count (·.fInTried)
  newCount : m.nNew = m.mapInfo.count (!·.fInTried)
  tried_slot : ∀ b p, m.vvTried b p ≠ -1 → ∃ info, m.mapInfo.lookup (m.vvTried b p) = some info ∧
    info.fInTried = true ∧ env.getTriedBucket m.nKey info.toCService = b ∧
    env.triedPos m.nKey info.toCService = p
  new_slot : ∀ b p, m.vvNew b p ≠ -1 → ∃ info, m.mapInfo.lookup (m.vvNew b p) = some info ∧
    info.fInTried = false ∧ env.newPos m.nKey info.toCService b = p
  vacant : m.mapInfo.lookup (-1) = none
  tried : ∀ id info, m.mapInfo.lookup id = some info → info.fInTried = true →
    m.vvTried (env.getTriedBucket m.nKey info.toCService) (env.triedPos m.nKey info.toCService) = id
  new : ∀ id info, m.mapInfo.lookup id = some info → info.fInTried = false →
    info.nRefCount = (Grid.rows m.vvNew (env.newPos m.nKey info.toCService) id).card
  key : m.nKey ≠ 0

/-- What the loop over `mapInfo` notes. -/
def noted (m : CAddrMan) : SortedSet Int × SortedMap Int Int :=
  m.mapInfo.entries.foldl noteInfo (∅, empty)

theorem mem_noted :
    id ∈ m.noted.1 ↔ ∃ info, m.mapInfo.lookup id = some info ∧ info.fInTried = true := by
  have hset := (foldl_noteInfo m.mapInfo.sorted (s := (∅, empty))
    (fun x hx => nomatch hx) fun x hx => nomatch hx).1
  rw [← mem_elems, noted, hset]
  change id ∈ [] ++ _ ↔ _
  simp only [nil_append, List.mem_map, List.mem_filter, Prod.exists, exists_and_right,
    exists_eq_right, mem_entries]

theorem lookup_noted : m.noted.2.lookup id = some refs ↔
      ∃ info, m.mapInfo.lookup id = some info ∧ info.fInTried = false ∧ info.nRefCount = refs := by
  have hmap := (foldl_noteInfo m.mapInfo.sorted (s := (∅, empty))
    (fun x hx => nomatch hx) fun x hx => nomatch hx).2
  rw [← mem_entries, noted, hmap]
  change (id, refs) ∈ [] ++ _ ↔ _
  simp only [nil_append, List.mem_map, List.mem_filter, Prod.exists, Prod.mk.injEq,
    mem_entries, Bool.not_eq_true', and_assoc]
  constructor
  · rintro ⟨id', info, hinfo, hnew, rfl, hrefs⟩
    exact ⟨info, hinfo, hnew, hrefs⟩
  · rintro ⟨info, hinfo, hnew, hrefs⟩
    exact ⟨id, info, hinfo, hnew, rfl, hrefs⟩

theorem size_noted : m.noted.1.size = m.mapInfo.count (·.fInTried) ∧
    m.noted.2.entries.length = m.mapInfo.count (!·.fInTried) := by
  obtain ⟨hset, hmap⟩ := foldl_noteInfo m.mapInfo.sorted (s := (∅, empty))
    (fun x hx => nomatch hx) fun x hx => nomatch hx
  constructor
  · rw [noted, size, hset]
    change ([] ++ _ : List Int).length = _
    rw [nil_append, length_map, SortedMap.count, countP_eq_length_filter]
  · rw [noted, hmap]
    change ([] ++ _ : List (Int × Int)).length = _
    rw [nil_append, length_map, SortedMap.count, countP_eq_length_filter]

variable {info : CAddrInfo}

theorem infoAt_fst (h : m.mapInfo.lookup id = some info) : (m.infoAt id).1 = info := by
  simp only [infoAt, h]

theorem check_eq_zero :
    m.check_ env = 0 ↔ (m.vRandom.length : Int) = m.nTried + m.nNew ∧
      (∀ id info, m.mapInfo.lookup id = some info → m.InfoOk id info) ∧
      (m.noted.1.size : Int) = m.nTried ∧ (m.noted.2.entries.length : Int) = m.nNew ∧
      (∃ s, (slots ADDRMAN_TRIED_BUCKET_COUNT).foldlM (m.checkTried env) m.noted.1 = .ok s ∧
        s.size = 0) ∧
      (∃ s, (slots ADDRMAN_NEW_BUCKET_COUNT).foldlM (m.checkNew env) m.noted.2 = .ok s ∧
        s.entries.length = 0) ∧ m.nKey ≠ 0 := by
  have hcode : m.check_ env = 0 ↔ m.checked env = .ok ⟨⟩ := by
    rw [check_]
    cases m.checked env with
    | ok u => exact ⟨fun _ => rfl, fun _ => rfl⟩
    | error code => exact ⟨fun h => absurd h code.2.ne, fun h => nomatch h⟩
  have hloop : ∀ s, m.mapInfo.entries.foldlM m.checkInfo (∅, empty) = .ok s ↔
      (∀ id info, m.mapInfo.lookup id = some info → m.InfoOk id info) ∧ s = m.noted := by
    intro s
    rw [foldlM_eq_ok (P := fun e => m.InfoOk e.1 e.2) (g := noteInfo)
      fun s a s' => checkInfo_eq_ok]
    simp only [Prod.forall, mem_entries]
    rfl
  rw [hcode, checked, failIf_bind_eq_ok, bind_eq_ok]
  simp only [hloop, and_assoc, exists_and_left, exists_eq_left, failIf_bind_eq_ok]
  simp only [bind_eq_ok, failIf_eq_ok, decide_eq_false_iff_not, not_not]
  refine and_congr_right fun _ => and_congr_right fun _ => and_congr_right fun _ =>
    and_congr_right fun _ => ?_
  constructor
  · rintro ⟨s, hs, t, ht, -, hsize, -, hlen, hkey⟩
    exact ⟨⟨s, hs, hsize⟩, ⟨t, ht, hlen⟩, hkey⟩
  · rintro ⟨⟨s, hs, hsize⟩, ⟨t, ht, hlen⟩, hkey⟩
    exact ⟨s, hs, t, ht, ⟨⟩, hsize, ⟨⟩, hlen, hkey⟩

theorem refsLeft_noted (hinfo : m.mapInfo.lookup id = some info) (hnew : info.fInTried = false) :
    refsLeft m.noted.2 id = info.nRefCount := by
  rw [refsLeft, lookup_noted.mpr ⟨info, hinfo, hnew, rfl⟩, getD_some]

theorem countP_slots (hid : id ≠ -1) {pos : Fin ADDRMAN_NEW_BUCKET_COUNT → Fin ADDRMAN_BUCKET_SIZE}
    (hpos : ∀ b p, m.vvNew b p = id → pos b = p) :
    (slots ADDRMAN_NEW_BUCKET_COUNT).countP (fun x => m.vvNew x.1 x.2 = id ∧ ¬id = -1) =
      (Grid.rows m.vvNew pos id).card := by
  rw [← Grid.countP_slots (nodup_slots _) mem_slots hpos]
  refine countP_congr fun x _ => ?_
  rw [decide_eq_true_eq, decide_eq_true_eq]
  exact and_iff_left hid

theorem check_eq_zero_iff : m.check_ env = 0 ↔ m.Checks env := by
  rw [check_eq_zero, size_noted.1, size_noted.2, checkTried_foldlM (nodup_slots _)]
  have hpos : (∀ id info, m.mapInfo.lookup id = some info → m.InfoOk id info) →
      ∀ id refs, m.noted.2.lookup id = some refs → 0 < refs := by
    intro hinfo id refs hrefs
    obtain ⟨info, hlookup, hnew, rfl⟩ := lookup_noted.mp hrefs
    exact ((hinfo id info hlookup).new hnew).1
  constructor
  · rintro ⟨hsize, hinfo, htried, hnew, ⟨htslots, htids⟩, hnslots, hkey⟩
    rw [checkNew_foldlM (hpos hinfo)] at hnslots
    obtain ⟨hnslots, hnids⟩ := hnslots
    have hvacant : m.mapInfo.lookup (-1) = none := by
      rw [eq_none_iff_forall_ne_some]
      intro info hlookup
      cases hold : info.fInTried with
      | true =>
        obtain ⟨x, -, -, hne⟩ := htids (-1) (mem_noted.mpr ⟨info, hlookup, hold⟩)
        exact hne rfl
      | false =>
        have hpos := ((hinfo _ info hlookup).new hold).1
        have hleft := hnids (-1)
        rw [refsLeft_noted hlookup hold] at hleft
        simp only [not_true_eq_false, and_false, decide_false, countP_false] at hleft
        exact absurd hleft hpos.ne'
    have hne : ∀ {id info}, m.mapInfo.lookup id = some info → id ≠ -1 := by
      rintro id info hlookup rfl
      rw [hvacant] at hlookup
      exact nomatch hlookup
    refine ⟨hsize, hinfo, htried.symm, hnew.symm, fun b p hslot => ?_, fun b p hslot => ?_, hvacant,
      fun id info hlookup hold => ?_, fun id info hlookup hold => ?_, hkey⟩
    · obtain ⟨hmem, hb, hp⟩ := htslots (b, p) (mem_slots _) hslot
      obtain ⟨info, hlookup, hold⟩ := mem_noted.mp hmem
      rw [infoAt_fst hlookup] at hb hp
      refine ⟨info, hlookup, hold, hb, ?_⟩
      rw [AddrManEnv.triedPos, hb, hp]
    · have hok := hnslots (b, p) (mem_slots _) hslot
      -- the slot counts
      have hleft : 0 < refsLeft m.noted.2 (m.vvNew b p) := by
        rw [hnids, Int.natCast_pos, countP_pos_iff]
        exact ⟨(b, p), mem_slots _, decide_eq_true ⟨rfl, hslot⟩⟩
      cases hrefs : m.noted.2.lookup (m.vvNew b p) with
      | none =>
        rw [refsLeft, hrefs, getD_none] at hleft
        exact absurd hleft (lt_irrefl _)
      | some refs =>
        obtain ⟨info, hlookup, hold, -⟩ := lookup_noted.mp hrefs
        rw [NewOk, infoAt_fst hlookup] at hok
        exact ⟨info, hlookup, hold, hok⟩
    · obtain ⟨x, hx, hslot, -⟩ := htids id (mem_noted.mpr ⟨info, hlookup, hold⟩)
      obtain ⟨-, hb, hp⟩ := htslots x hx (hslot ▸ hne hlookup)
      rw [hslot, infoAt_fst hlookup] at hb hp
      rw [AddrManEnv.triedPos, hb, hp, hslot]
    · rw [← refsLeft_noted hlookup hold, hnids, countP_slots (hne hlookup) fun b p hslot => ?_]
      have hok := hnslots (b, p) (mem_slots _) (hslot ▸ hne hlookup)
      rw [NewOk, hslot, infoAt_fst hlookup] at hok
      exact hok
  · intro h
    have hne : ∀ {id info}, m.mapInfo.lookup id = some info → id ≠ -1 := by
      rintro id info hlookup rfl
      rw [h.vacant] at hlookup
      exact nomatch hlookup
    refine ⟨h.size, h.info, h.triedCount.symm, h.newCount.symm, ⟨fun x _ hslot => ?_,
      fun id hid => ?_⟩, (checkNew_foldlM (hpos h.info)).mpr ⟨fun x _ hslot => ?_, fun id => ?_⟩,
      h.key⟩
    · obtain ⟨info, hlookup, hold, hb, hp⟩ := h.tried_slot x.1 x.2 hslot
      refine ⟨mem_noted.mpr ⟨info, hlookup, hold⟩, ?_⟩
      rw [TriedOk, infoAt_fst hlookup, ← hp, AddrManEnv.triedPos, hb]
      exact ⟨rfl, rfl⟩
    · obtain ⟨info, hlookup, hold⟩ := mem_noted.mp hid
      exact ⟨_, mem_slots (_, _), h.tried id info hlookup hold, hne hlookup⟩
    · obtain ⟨info, hlookup, -, hp⟩ := h.new_slot x.1 x.2 hslot
      rw [NewOk, infoAt_fst hlookup]
      exact hp
    · cases hrefs : m.noted.2.lookup id with
      | none =>
        rw [refsLeft, hrefs, getD_none, eq_comm, Nat.cast_eq_zero, countP_eq_zero]
        rintro x - hcount
        obtain ⟨hslot, hid⟩ := of_decide_eq_true hcount
        obtain ⟨info, hlookup, hold, -⟩ := h.new_slot x.1 x.2 (hslot ▸ hid)
        rw [hslot] at hlookup
        rw [lookup_noted.mpr ⟨info, hlookup, hold, rfl⟩] at hrefs
        exact nomatch hrefs
      | some refs =>
        obtain ⟨info, hlookup, hold, rfl⟩ := lookup_noted.mp hrefs
        rw [refsLeft, hrefs, getD_some, countP_slots (hne hlookup) fun b p hslot => ?_]
        · exact h.new id info hlookup hold
        · obtain ⟨info', hlookup', -, hp⟩ := h.new_slot b p (hslot ▸ hne hlookup)
          rw [hslot, hlookup] at hlookup'
          cases hlookup'
          exact hp

theorem Consistent.checks (h : m.Consistent env (fun _ => False) 0) : m.Checks env := by
  have hcount : m.mapInfo.count (fun _ => true) =
      m.mapInfo.count (·.fInTried) + m.mapInfo.count (!·.fInTried) :=
    count_split _ _
  have hnew := h.tables.newCount
  have htried := h.tables.triedCount
  have hsize := h.numbered.size
  refine ⟨by omega, fun id info hinfo => ?_, htried, by omega, h.tables.tried_slot,
    h.tables.new_slot, h.tables.vacant, fun id info hinfo hold => (h.tables.tried id info hinfo hold).1,
    fun id info hinfo hold => (h.tables.new id info hinfo hold).1, h.key⟩
  refine ⟨fun hold => ?_, fun hold => ?_, ?_, h.numbered.random id info hinfo,
    h.tables.lastTry id info hinfo, h.tables.lastSuccess id info hinfo⟩
  · obtain ⟨-, hrefs, hpos⟩ := h.tables.tried id info hinfo hold
    refine ⟨?_, hrefs⟩
    rintro hzero
    rw [hzero] at hpos
    exact absurd hpos (lt_irrefl _)
  · obtain ⟨-, hle, hpos⟩ := h.tables.new id info hinfo hold
    exact ⟨hpos.resolve_right not_false, hle⟩
  · rw [h.numbered.addr_id id info hinfo, getD_some]

theorem Consistent.check_eq_zero (h : m.Consistent env (fun _ => False) 0) : m.check_ env = 0 :=
  check_eq_zero_iff.mpr h.checks

end CAddrMan

end Rcoin
