/-
  What each function of the address manager does to a consistent manager: its
  assertions hold, and the result is consistent.
-/
import Rcoin.AddrMan.Consistent

namespace Rcoin

open List SortedMap Grid

namespace CAddrMan

variable {env : AddrManEnv} {loose loose' : Int → Prop} {k : Int} {m : CAddrMan} {id : Int}

/-- What holds of the manager between its operations, where nothing is loose and `k = 0`. -/
structure Consistent (env : AddrManEnv) (loose : Int → Prop) (k : Int) (m : CAddrMan) : Prop where
  numbered : Numbered m.nIdCount m.mapInfo m.mapAddr m.vRandom
  tables : Tables env loose k m.mapInfo m.nTried m.vvTried m.nNew m.vvNew m.nKey
  key : m.nKey ≠ 0

theorem Consistent.mono (h : m.Consistent env loose k)
    (hloose : ∀ id info, m.mapInfo.lookup id = some info → info.fInTried = false → loose id →
      0 < info.nRefCount ∨ loose' id) : m.Consistent env loose' k :=
  { h with tables := h.tables.mono hloose }

theorem Consistent.mono_empty (h : m.Consistent env (fun _ => False) k) :
    m.Consistent env loose k :=
  h.mono fun _ _ _ _ hfalse => hfalse.elim

variable {randHash : Uint256}

theorem new_consistent (hkey : randHash ≠ 0) : (new randHash).Consistent env loose 0 :=
  ⟨Numbered.empty, Tables.empty, hkey⟩

theorem clear_consistent (hkey : randHash ≠ 0) : (m.clear randHash).Consistent env loose 0 :=
  ⟨Numbered.empty, Tables.empty, hkey⟩

/-! ## One entry -/

variable {info : CAddrInfo}

theorem modifyInfo_of_some (h : m.mapInfo.lookup id = some info) (f : CAddrInfo → CAddrInfo) :
    m.modifyInfo id f = { m with mapInfo := m.mapInfo.insert id (f info) } := by
  simp only [modifyInfo, h]

theorem infoAt_of_some (h : m.mapInfo.lookup id = some info) : m.infoAt id = (info, m) := by
  simp only [infoAt, h]

theorem Consistent.modify (h : m.Consistent env loose k) (hinfo : m.mapInfo.lookup id = some info)
    {f : CAddrInfo → CAddrInfo} (hservice : (f info).toCService = info.toCService)
    (htried : (f info).fInTried = info.fInTried) (hrefs : (f info).nRefCount = info.nRefCount)
    (hpos : (f info).nRandomPos = info.nRandomPos) (htry : 0 ≤ (f info).nLastTry.toInt)
    (hsuccess : 0 ≤ (f info).nLastSuccess.toInt)
    (hgood : info.fInTried = true → 0 < (f info).nLastSuccess.toInt) :
    (m.modifyInfo id f).Consistent env loose k := by
  rw [modifyInfo_of_some hinfo]
  exact ⟨h.numbered.modify hinfo (congrArg CService.toCNetAddr hservice) hpos,
    h.tables.modify hinfo hservice htried hrefs htry hsuccess hgood, h.key⟩

variable {addr : CNetAddr}

theorem Consistent.of_find (h : m.Consistent env loose k) (hfind : m.find addr = some (id, info)) :
    m.mapInfo.lookup id = some info ∧ info.toCNetAddr = addr := by
  simp only [find, Option.bind_eq_bind, Option.bind_eq_some_iff, Option.pure_def,
    Option.some.injEq, Prod.mk.injEq] at hfind
  obtain ⟨id', hid, info', hinfo, rfl, rfl⟩ := hfind
  obtain ⟨found, hfound, haddr⟩ := h.numbered.id_addr addr id' hid
  cases hinfo.symm.trans hfound
  exact ⟨hinfo, haddr⟩

theorem Consistent.find_of_lookup (h : m.Consistent env loose k)
    (hinfo : m.mapInfo.lookup id = some info) : m.find info.toCNetAddr = some (id, info) := by
  simp only [find, h.numbered.addr_id id info hinfo, hinfo, Option.bind_eq_bind,
    Option.bind_some, Option.pure_def]

theorem Consistent.lookup_of_find_none (h : m.Consistent env loose k) (hfind : m.find addr = none) :
    m.mapAddr.lookup addr = none := by
  rw [Option.eq_none_iff_forall_ne_some]
  intro id hid
  obtain ⟨info, hinfo, rfl⟩ := h.numbered.id_addr addr id hid
  rw [h.find_of_lookup hinfo] at hfind
  exact nomatch hfind

/-! ## The vector of ids -/

/-- The key and the tried table stay, and the entries that are not `gone` keep all but
    their position in `vRandom`. -/
structure Kept (gone : Int → Prop) (m m' : CAddrMan) : Prop where
  nKey : m'.nKey = m.nKey
  vvTried : m'.vvTried = m.vvTried
  info : ∀ id info, m.mapInfo.lookup id = some info → ¬gone id →
    ∃ pos, m'.mapInfo.lookup id = some { info with nRandomPos := pos }

theorem Kept.refl (gone : Int → Prop) (m : CAddrMan) : Kept gone m m :=
  ⟨rfl, rfl, fun _ info h _ => ⟨info.nRandomPos, h⟩⟩

theorem Consistent.swapRandom (h : m.Consistent env loose k) {p q : Nat}
    (hp : p < m.vRandom.length) (hq : q < m.vRandom.length) :
    ∃ m', m.swapRandom p q = some m' ∧ m'.Consistent env loose k ∧
      Kept (fun _ => False) m m' ∧ m'.vvNew = m.vvNew ∧ m'.nNew = m.nNew ∧
      m'.vRandom.length = m.vRandom.length ∧ m'.vRandom[q]? = m.vRandom[p]? := by
  by_cases hpq : p = q
  · subst hpq
    exact ⟨m, if_pos rfl, h, Kept.refl _ m, rfl, rfl, rfl, rfl⟩
  obtain ⟨id1, hid1⟩ : ∃ id, m.vRandom[p]? = some id := ⟨_, getElem?_eq_getElem hp⟩
  obtain ⟨id2, hid2⟩ : ∃ id, m.vRandom[q]? = some id := ⟨_, getElem?_eq_getElem hq⟩
  obtain ⟨info1, hinfo1, hpos1⟩ := h.numbered.at_random p id1 hid1
  obtain ⟨info2, hinfo2, hpos2⟩ := h.numbered.at_random q id2 hid2
  have hne : id2 ≠ id1 := fun heq => hpq (h.numbered.pos_inj hid1 (heq ▸ hid2))
  have hinfo2' : (m.mapInfo.insert id1 { info1 with nRandomPos := (q : Int) }).lookup id2 =
      some info2 := by
    rw [lookup_insert_of_ne _ hne, hinfo2]
  have hsome : m.swapRandom p q = some { m with
      mapInfo := (m.mapInfo.insert id1 { info1 with nRandomPos := (q : Int) }).insert id2
        { info2 with nRandomPos := (p : Int) }
      vRandom := (m.vRandom.set p id2).set q id1 } := by
    simp only [CAddrMan.swapRandom, if_neg hpq, hid1, hid2, hinfo1, hinfo2, Option.isSome_some,
      and_self, if_true, modifyInfo_of_some hinfo1]
    rw [modifyInfo_of_some hinfo2']
  have htables := (h.tables.reposition hinfo1 q).reposition hinfo2' p
  refine ⟨_, hsome, ⟨h.numbered.swap hpq hid1 hid2 hinfo1 hinfo2, htables, h.key⟩, ⟨rfl, rfl, ?_⟩,
    rfl, rfl, ?_, ?_⟩
  · intro id info hinfo _
    simp only [lookup_insert]
    split
    next heq =>
      rw [heq, hinfo2] at hinfo
      cases hinfo
      exact ⟨p, rfl⟩
    next =>
      split
      next heq =>
        rw [heq, hinfo1] at hinfo
        cases hinfo
        exact ⟨q, rfl⟩
      next => exact ⟨info.nRandomPos, hinfo⟩
  · simp only [length_set]
  · simp only [getElem?_set_self, length_set, hq, hid1]

theorem Consistent.delete (h : m.Consistent env loose k) (hinfo : m.mapInfo.lookup id = some info)
    (hnew : info.fInTried = false) (hrefs : info.nRefCount = 0) :
    ∃ m', m.delete id = some m' ∧ m'.Consistent env (fun x => loose x ∧ x ≠ id) k ∧
      Kept (fun x => x = id) m m' ∧ m'.vvNew = m.vvNew := by
  obtain ⟨hnonneg, hpos⟩ := h.numbered.random id info hinfo
  have hlt := (List.getElem?_eq_some_iff.mp hpos).1
  obtain ⟨m', hswap, h', hkept, hvvNew, hnNew, hlen, hlast⟩ :=
    h.swapRandom hlt (show m.vRandom.length - 1 < m.vRandom.length by omega)
  obtain ⟨pos, hinfo'⟩ := hkept.info id info hinfo not_false
  -- the entry is now at the end
  have hpos' : pos = (m'.vRandom.length - 1 : Nat) := by
    rw [hpos] at hlast
    obtain ⟨y, hy, hypos⟩ := h'.numbered.at_random _ id hlast
    cases hinfo'.symm.trans hy
    rw [hlen]
    exact hypos
  have hnumbered := h'.numbered.pop hinfo' hpos'
  have htables := h'.tables.remove hinfo' hnew hrefs
  refine ⟨{ m' with
    vRandom := m'.vRandom.dropLast
    mapAddr := m'.mapAddr.erase info.toCNetAddr
    mapInfo := m'.mapInfo.erase id
    nNew := m'.nNew - 1 }, ?_, ⟨hnumbered, htables, h'.key⟩,
    ⟨hkept.nKey, hkept.vvTried, fun x y hy hx => ?_⟩, hvvNew⟩
  · simp only [CAddrMan.delete, hinfo, hnew, hrefs, hswap, Option.bind_eq_bind, Option.bind_some,
      Bool.false_eq_true, ne_eq, not_true_eq_false, or_self, if_false]
  · obtain ⟨pos', hy'⟩ := hkept.info x y hy not_false
    refine ⟨pos', ?_⟩
    rw [lookup_erase, if_neg hx, hy']

/-! ## The new table -/

variable {b : Fin ADDRMAN_NEW_BUCKET_COUNT} {p : Fin ADDRMAN_BUCKET_SIZE}

theorem Consistent.new_entry (h : m.Consistent env loose k) (hslot : m.vvNew b p ≠ -1) :
    ∃ info, m.mapInfo.lookup (m.vvNew b p) = some info ∧ info.fInTried = false ∧
      0 < info.nRefCount := by
  obtain ⟨info, hinfo, hnew, -⟩ := h.tables.new_slot b p hslot
  refine ⟨info, hinfo, hnew, ?_⟩
  by_contra hrefs
  refine h.tables.slot_ne hslot (fun y hy _ => ?_) b p rfl
  cases hinfo.symm.trans hy
  have hcard := (h.tables.new _ info hinfo hnew).1
  omega

theorem Consistent.refs_pos (h : m.Consistent env loose k) (hslot : m.vvNew b p = id)
    (hinfo : m.mapInfo.lookup id = some info) : 0 < info.nRefCount := by
  obtain ⟨y, hy, -, hrefs⟩ := h.new_entry (hslot ▸ h.tables.ne_neg_one hinfo)
  rw [hslot, hinfo] at hy
  cases hy
  exact hrefs

theorem Consistent.clearNew (h : m.Consistent env loose k) (b : Fin ADDRMAN_NEW_BUCKET_COUNT)
    (p : Fin ADDRMAN_BUCKET_SIZE) :
    ∃ m', m.clearNew b p = some m' ∧ m'.Consistent env loose k ∧
      Kept (fun x => x = m.vvNew b p) m m' ∧ m'.vvNew = set m.vvNew b p (-1) := by
  by_cases hslot : m.vvNew b p = -1
  · refine ⟨m, ?_, h, Kept.refl _ m, (set_eq_self hslot).symm⟩
    simp only [CAddrMan.clearNew, hslot, ne_eq, not_true_eq_false, if_false]
  obtain ⟨info, hinfo, hnew, hrefs⟩ := h.new_entry hslot
  -- the reference goes
  have htables := h.tables.leave rfl hinfo
  have hnumbered : Numbered m.nIdCount (m.mapInfo.insert (m.vvNew b p)
      { info with nRefCount := info.nRefCount - 1 }) m.mapAddr m.vRandom :=
    h.numbered.modify hinfo rfl rfl
  have hleft : Consistent env (fun x => loose x ∨ x = m.vvNew b p) k
      { m with
        mapInfo := m.mapInfo.insert (m.vvNew b p) { info with nRefCount := info.nRefCount - 1 }
        vvNew := set m.vvNew b p (-1) } := ⟨hnumbered, htables, h.key⟩
  have hself := lookup_insert_self m.mapInfo (m.vvNew b p)
    { info with nRefCount := info.nRefCount - 1 }
  have hkept : ∀ x y, m.mapInfo.lookup x = some y → x ≠ m.vvNew b p →
      (m.mapInfo.insert (m.vvNew b p) { info with nRefCount := info.nRefCount - 1 }).lookup x =
        some y := by
    intro x y hy hx
    rw [lookup_insert_of_ne _ hx, hy]
  have hrun : m.clearNew b p = if info.nRefCount - 1 = 0 then
      CAddrMan.delete { m with
        mapInfo := m.mapInfo.insert (m.vvNew b p) { info with nRefCount := info.nRefCount - 1 }
        vvNew := set m.vvNew b p (-1) } (m.vvNew b p)
      else some { m with
        mapInfo := m.mapInfo.insert (m.vvNew b p) { info with nRefCount := info.nRefCount - 1 }
        vvNew := set m.vvNew b p (-1) } := by
    simp only [CAddrMan.clearNew, ne_eq, hslot, not_false_eq_true, if_true, infoAt_of_some hinfo,
      gt_iff_lt, hrefs, not_true_eq_false, if_false, modifyInfo_of_some hinfo]
  rw [hrun]
  split
  next hzero =>
    -- it was the last one
    obtain ⟨m', hdelete, h', hkept', hvvNew⟩ := hleft.delete hself hnew hzero
    refine ⟨m', hdelete, h'.mono fun x _ _ _ hloose => ?_, ⟨hkept'.nKey, hkept'.vvTried, ?_⟩, hvvNew⟩
    · exact .inr (hloose.1.resolve_right hloose.2)
    · intro x y hy hx
      exact hkept'.info x y (hkept x y hy hx) hx
  next hmore =>
    refine ⟨_, rfl, hleft.mono fun x y hy _ hloose => ?_, ⟨rfl, rfl, ?_⟩, rfl⟩
    · rcases hloose with hloose | rfl
      · exact .inr hloose
      · cases hself.symm.trans hy
        dsimp only at hmore ⊢
        exact .inl (by omega)
    · intro x y hy hx
      exact ⟨y.nRandomPos, hkept x y hy hx⟩

/-! ## Moving to the tried table -/

/-- The entry `id` loses references to it, and nothing else changes. -/
structure Leaving (id : Int) (info : CAddrInfo) (m m' : CAddrMan) : Prop where
  nKey : m'.nKey = m.nKey
  vvTried : m'.vvTried = m.vvTried
  self : ∃ n, m'.mapInfo.lookup id = some { info with nRefCount := n }
  others : ∀ x, x ≠ id → m'.mapInfo.lookup x = m.mapInfo.lookup x
  slots : ∀ b p, m'.vvNew b p = id → m.vvNew b p = id

theorem Leaving.trans {n : Int} {m m' m'' : CAddrMan} (h : Leaving id info m m')
    (h' : Leaving id { info with nRefCount := n } m' m'') : Leaving id info m m'' where
  nKey := h'.nKey.trans h.nKey
  vvTried := h'.vvTried.trans h.vvTried
  self := h'.self
  others x hx := (h'.others x hx).trans (h.others x hx)
  slots b p hslot := h.slots b p (h'.slots b p hslot)

theorem Consistent.leaveBucket (h : m.Consistent env (fun x => loose x ∨ x = id) k)
    (hinfo : m.mapInfo.lookup id = some info) (info0 : CAddrInfo)
    (b : Fin ADDRMAN_NEW_BUCKET_COUNT) :
    (m.leaveBucket env info0 id b).Consistent env (fun x => loose x ∨ x = id) k ∧
      Leaving id info m (m.leaveBucket env info0 id b) ∧
      (m.leaveBucket env info0 id b).vvNew b (m.newPos env info0 b) ≠ id := by
  by_cases hslot : m.vvNew b (m.newPos env info0 b) = id
  · have hid := h.tables.ne_neg_one hinfo
    have hrun : m.leaveBucket env info0 id b = { m with
        vvNew := set m.vvNew b (m.newPos env info0 b) (-1)
        mapInfo := m.mapInfo.insert id { info with nRefCount := info.nRefCount - 1 } } := by
      simp only [CAddrMan.leaveBucket, hslot, if_true]
      exact modifyInfo_of_some
        (m := { m with vvNew := set m.vvNew b (m.newPos env info0 b) (-1) }) hinfo _
    have htables := h.tables.leave hslot hinfo
    have hnumbered : Numbered m.nIdCount (m.mapInfo.insert id
        { info with nRefCount := info.nRefCount - 1 }) m.mapAddr m.vRandom :=
      h.numbered.modify hinfo rfl rfl
    rw [hrun]
    refine ⟨⟨hnumbered, htables.mono fun _ _ _ _ hloose => ?_, h.key⟩, ⟨rfl, rfl,
      ⟨_, lookup_insert_self ..⟩, fun x hx => lookup_insert_of_ne _ hx _,
      fun b' p' hslot' => ?_⟩, ?_⟩
    · exact .inr (hloose.elim (·) .inr)
    · dsimp only at hslot'
      rw [set_apply] at hslot'
      split at hslot'
      next => exact absurd hslot'.symm hid
      next => exact hslot'
    · dsimp only
      rw [set_self]
      exact hid.symm
  · have hrun : m.leaveBucket env info0 id b = m := by
      simp only [CAddrMan.leaveBucket, hslot, if_false]
    rw [hrun]
    exact ⟨h, ⟨rfl, rfl, ⟨info.nRefCount, hinfo⟩, fun _ _ => rfl, fun _ _ hid => hid⟩, hslot⟩

theorem Consistent.leaveBuckets_fold (info0 : CAddrInfo) (l : List (Fin ADDRMAN_NEW_BUCKET_COUNT))
    {m : CAddrMan} (h : m.Consistent env (fun x => loose x ∨ x = id) k)
    (hinfo : m.mapInfo.lookup id = some info) :
    (l.foldl (CAddrMan.leaveBucket env info0 id) m).Consistent env
        (fun x => loose x ∨ x = id) k ∧
      Leaving id info m (l.foldl (CAddrMan.leaveBucket env info0 id) m) ∧
      ∀ b ∈ l, (l.foldl (CAddrMan.leaveBucket env info0 id) m).vvNew b
        (m.newPos env info0 b) ≠ id := by
  induction l generalizing m info with
  | nil =>
    exact ⟨h, ⟨rfl, rfl, ⟨info.nRefCount, hinfo⟩, fun _ _ => rfl, fun _ _ hid => hid⟩,
      fun _ hb => nomatch hb⟩
  | cons b l ih =>
    obtain ⟨h1, hleft1, hslot1⟩ := h.leaveBucket hinfo info0 b
    obtain ⟨n, hself⟩ := hleft1.self
    obtain ⟨h2, hleft2, hslot2⟩ := ih h1 hself
    refine ⟨h2, hleft1.trans hleft2, fun b' hb' => ?_⟩
    have hpos : (m.leaveBucket env info0 id b).newPos env info0 = m.newPos env info0 := by
      simp only [CAddrMan.newPos, hleft1.nKey]
    rcases mem_cons.mp hb' with rfl | hmem
    · exact fun hslot => hslot1 (hleft2.slots _ _ hslot)
    · exact hpos ▸ hslot2 b' hmem

theorem Consistent.leaveBuckets (h : m.Consistent env loose k)
    (hinfo : m.mapInfo.lookup id = some info) (hnew : info.fInTried = false) :
    (m.leaveBuckets env info id).Consistent env (fun x => loose x ∨ x = id) k ∧
      Leaving id { info with nRefCount := 0 } m (m.leaveBuckets env info id) ∧
      (m.leaveBuckets env info id).mapInfo.lookup id = some { info with nRefCount := 0 } := by
  have hloose : m.Consistent env (fun x => loose x ∨ x = id) k :=
    h.mono fun _ _ _ _ hx => .inr (.inl hx)
  have hfold := hloose.leaveBuckets_fold info (List.finRange ADDRMAN_NEW_BUCKET_COUNT) hinfo
  rw [CAddrMan.leaveBuckets]
  generalize List.foldl _ m _ = m' at hfold ⊢
  obtain ⟨h', hleft, hslots⟩ := hfold
  obtain ⟨n, hself⟩ := hleft.self
  -- no bucket has the entry
  have hnone : ∀ b, m'.vvNew b (env.newPos m'.nKey info.toCService b) ≠ id := by
    intro b
    rw [hleft.nKey]
    exact hslots b (mem_finRange b)
  have hcard := (h'.tables.new id _ hself hnew).1
  have hzero := card_rows_eq_zero.mpr hnone
  obtain rfl : n = 0 := hcard.trans (congrArg Nat.cast hzero)
  exact ⟨h', ⟨hleft.nKey, hleft.vvTried, ⟨0, hself⟩, hleft.others, hleft.slots⟩, hself⟩

theorem Consistent.evict (h : m.Consistent env loose k) (b : Fin ADDRMAN_TRIED_BUCKET_COUNT)
    (p : Fin ADDRMAN_BUCKET_SIZE) :
    ∃ m', m.evict env b p = some m' ∧ m'.Consistent env loose k ∧ m'.nKey = m.nKey ∧
      m'.vvTried = set m.vvTried b p (-1) ∧
      ∀ x y, m.mapInfo.lookup x = some y → x ≠ m.vvTried b p → (∀ b' p', m.vvNew b' p' ≠ x) →
        ∃ pos, m'.mapInfo.lookup x = some { y with nRandomPos := pos } := by
  by_cases hslot : m.vvTried b p = -1
  · refine ⟨m, ?_, h, rfl, (set_eq_self hslot).symm, fun x y hy _ _ => ⟨_, hy⟩⟩
    simp only [CAddrMan.evict, hslot, ne_eq, not_true_eq_false, if_false]
  obtain ⟨old, hold, htried, -, -⟩ := h.tables.tried_slot b p hslot
  have hzero := (h.tables.tried _ old hold htried).2.1
  -- out of the tried table
  have hnumbered : Numbered m.nIdCount (m.mapInfo.insert (m.vvTried b p)
      { old with fInTried := false }) m.mapAddr m.vRandom := h.numbered.modify hold rfl rfl
  have hout : Consistent env (fun x => loose x ∨ x = m.vvTried b p) (k + 1)
      { m with
        mapInfo := m.mapInfo.insert (m.vvTried b p) { old with fInTried := false }
        vvTried := set m.vvTried b p (-1)
        nTried := m.nTried - 1 } := ⟨hnumbered, h.tables.untry rfl hold, h.key⟩
  have hself := lookup_insert_self m.mapInfo (m.vvTried b p)
    { old with fInTried := false }
  -- its slot of the new table is made free; the entry is in no bucket, and stays
  obtain ⟨u, hu⟩ : ∃ u, u = env.getNewBucket m.nKey old.toCService old.source := ⟨_, rfl⟩
  obtain ⟨q, hq⟩ : ∃ q, q = env.newPos m.nKey old.toCService u := ⟨_, rfl⟩
  have hfree : m.vvNew u q ≠ m.vvTried b p := by
    refine hout.tables.slot_ne hslot (fun y hy _ => ?_) _ _
    cases hself.symm.trans hy
    exact hzero
  obtain ⟨m1, hclear, h1, hkept, hvvNew⟩ := hout.clearNew u q
  obtain ⟨pos, hself1⟩ := hkept.info _ _ hself hfree.symm
  have hvacant : m1.vvNew u q = -1 := by rw [hvvNew, set_self]
  have hq1 : q = env.newPos m1.nKey old.toCService u := by rw [hkept.nKey, hq]
  -- into the new table
  have hin := h1.tables.enter hself1 rfl (b := u) (by rw [← hq1]; exact hvacant)
    (by dsimp only; rw [hzero]; decide)
  have hnumbered1 : Numbered m1.nIdCount (m1.mapInfo.insert (m.vvTried b p)
      { old with fInTried := false, nRefCount := 1, nRandomPos := pos }) m1.mapAddr m1.vRandom :=
    h1.numbered.modify hself1 rfl rfl
  rw [hzero, ← hq1, Int.zero_add] at hin
  refine ⟨{ m1 with
    mapInfo := m1.mapInfo.insert (m.vvTried b p)
      { old with fInTried := false, nRefCount := 1, nRandomPos := pos }
    vvNew := set m1.vvNew u q (m.vvTried b p)
    nNew := m1.nNew + 1 }, ?_, ⟨hnumbered1, ?_, h1.key⟩, hkept.nKey, hkept.vvTried,
    fun x y hy hx hnew => ?_⟩
  · simp only [CAddrMan.evict, ne_eq, hslot, not_false_eq_true, if_true, hold, CAddrMan.newPos,
      modifyInfo_of_some hold, Option.bind_eq_bind, Option.bind_some, ← hu, ← hq, hclear, hvacant,
      not_true_eq_false, if_false, modifyInfo_of_some hself1]
  · exact (hin.mono fun _ _ _ _ hx => .inr (hx.1.resolve_right hx.2)).unlag
  · obtain ⟨pos', hy'⟩ := hkept.info x y ((lookup_insert_of_ne _ hx _).trans hy)
      (hnew _ _).symm
    exact ⟨pos', (lookup_insert_of_ne _ hx _).trans hy'⟩

theorem Consistent.makeTried (h : m.Consistent env loose k)
    (hinfo : m.mapInfo.lookup id = some info) (hnew : info.fInTried = false)
    (hsuccess : 0 < info.nLastSuccess.toInt) :
    ∃ m', m.makeTried env id = some m' ∧ m'.Consistent env loose k := by
  have hid := h.tables.ne_neg_one hinfo
  -- the slot is not that of the entry
  have hother : ∀ b p, m.vvTried b p ≠ id := by
    rintro b p rfl
    obtain ⟨y, hy, htried, -⟩ := h.tables.tried_slot b p hid
    cases hinfo.symm.trans hy
    rw [hnew] at htried
    exact nomatch htried
  obtain ⟨h1, hleft, hself1⟩ := h.leaveBuckets hinfo hnew
  obtain ⟨m1, hm1⟩ : ∃ m1, m1 = m.leaveBuckets env info id := ⟨_, rfl⟩
  rw [← hm1] at h1 hleft hself1
  have hlag : Consistent env (fun x => loose x ∨ x = id) (k + 1) { m1 with nNew := m1.nNew - 1 } :=
    ⟨h1.numbered, h1.tables.lag, h1.key⟩
  have hgone : ∀ b p, m1.vvNew b p ≠ id := by
    refine h1.tables.slot_ne hid fun y hy _ => ?_
    cases hself1.symm.trans hy
    rfl
  obtain ⟨b, hb⟩ : ∃ b, b = env.getTriedBucket m.nKey info.toCService := ⟨_, rfl⟩
  obtain ⟨p, hp⟩ : ∃ p, p = env.triedPos m.nKey info.toCService := ⟨_, rfl⟩
  obtain ⟨m2, hevict, h2, hkey2, hvvTried, hkept⟩ := hlag.evict b p
  have hkey : m2.nKey = m.nKey := hkey2.trans hleft.nKey
  obtain ⟨pos, hself2⟩ := hkept id _ hself1 (by rw [hleft.vvTried]; exact (hother b p).symm) hgone
  have hvacant : m2.vvTried b p = -1 := by rw [hvvTried, set_self]
  have hmark := h2.tables.mark hself2 hnew rfl hsuccess
    (by rw [hkey]; dsimp only; rw [← hb, ← hp]; exact hvacant)
  rw [hkey, ← hb, ← hp, ← hkey, Int.add_sub_cancel] at hmark
  have hnumbered : Numbered m2.nIdCount (m2.mapInfo.insert id
      { info with nRefCount := 0, nRandomPos := pos, fInTried := true }) m2.mapAddr m2.vRandom :=
    h2.numbered.modify hself2 rfl rfl
  refine ⟨{ m2 with
    mapInfo := m2.mapInfo.insert id { info with nRefCount := 0, nRandomPos := pos, fInTried := true }
    vvTried := set m2.vvTried b p id
    nTried := m2.nTried + 1 }, ?_, ⟨hnumbered, hmark.mono fun _ _ _ _ hx => ?_, h2.key⟩⟩
  · have hmodify := modifyInfo_of_some (m := { m2 with
      vvTried := set m2.vvTried b p id
      nTried := m2.nTried + 1 }) hself2 fun info => { info with fInTried := true }
    rw [hleft.nKey] at hevict
    simp only [CAddrMan.makeTried, hinfo, ← hm1, hself1, Option.bind_eq_bind, Option.bind_some,
      ne_eq, not_true_eq_false, if_false, CAddrMan.triedBucket, CAddrMan.triedPos, hleft.nKey,
      ← hb, ← hp, hevict, hvacant, hmodify]
  · exact .inr (hx.1.resolve_right hx.2)

end CAddrMan

open CAddrMan

end Rcoin
