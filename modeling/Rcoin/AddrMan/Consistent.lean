/-
  What holds of an address manager between its operations, in two parts that do not
  look at each other's fields: the ids and the vector of ids, and the two tables.
  Inside an operation some entries may have no reference yet, and the number of new
  entries may lag behind.
-/
import Rcoin.AddrMan.Manager

namespace Rcoin

open CAddrMan Grid List SortedMap

/-! ## The ids -/

/-- Ids, addresses and positions in `vRandom` determine each other. -/
structure Numbered (nIdCount : Int) (mapInfo : SortedMap Int CAddrInfo)
    (mapAddr : AList fun _ : CNetAddr => Int) (vRandom : List Int) : Prop where
  id_bounds : ∀ id info, mapInfo.lookup id = some info → 0 ≤ id ∧ id < nIdCount
  addr_id : ∀ id info, mapInfo.lookup id = some info →
    mapAddr.lookup info.toCNetAddr = some id
  id_addr : ∀ addr id, mapAddr.lookup addr = some id →
    ∃ info, mapInfo.lookup id = some info ∧ info.toCNetAddr = addr
  random : ∀ id info, mapInfo.lookup id = some info →
    0 ≤ info.nRandomPos ∧ vRandom[info.nRandomPos.toNat]? = some id
  at_random : ∀ (pos : Nat) id, vRandom[pos]? = some id →
    ∃ info, mapInfo.lookup id = some info ∧ info.nRandomPos = pos
  size : vRandom.length = mapInfo.count fun _ => true
  count : 0 ≤ nIdCount

namespace Numbered

variable {nIdCount : Int} {mapInfo : SortedMap Int CAddrInfo}
  {mapAddr : AList fun _ : CNetAddr => Int} {vRandom : List Int}

theorem empty : Numbered 0 empty ∅ [] where
  id_bounds _ _ h := nomatch h
  addr_id _ _ h := nomatch h
  id_addr _ _ h := nomatch h
  random _ _ h := nomatch h
  at_random _ _ h := by rw [getElem?_nil] at h; exact nomatch h
  size := rfl
  count := le_rfl

variable (h : Numbered nIdCount mapInfo mapAddr vRandom)

include h

theorem ne_neg_one {id : Int} {info : CAddrInfo} (hinfo : mapInfo.lookup id = some info) :
    id ≠ -1 := by
  have hid := (h.id_bounds id info hinfo).1
  omega

theorem modify {id : Int} {info info' : CAddrInfo} (hinfo : mapInfo.lookup id = some info)
    (haddr : info'.toCNetAddr = info.toCNetAddr) (hpos : info'.nRandomPos = info.nRandomPos) :
    Numbered nIdCount (mapInfo.insert id info') mapAddr vRandom := by
  have hsame : ∀ x y, (mapInfo.insert id info').lookup x = some y → ∃ z, mapInfo.lookup x = some z ∧
      y.toCNetAddr = z.toCNetAddr ∧ y.nRandomPos = z.nRandomPos := by
    intro x y hy
    rw [lookup_insert] at hy
    split at hy
    next hx =>
      cases hy
      exact ⟨info, by rw [hx]; exact hinfo, haddr, hpos⟩
    next => exact ⟨y, hy, rfl, rfl⟩
  have hback : ∀ x z, mapInfo.lookup x = some z → ∃ y, (mapInfo.insert id info').lookup x = some y ∧
      y.toCNetAddr = z.toCNetAddr ∧ y.nRandomPos = z.nRandomPos := by
    intro x z hz
    rw [lookup_insert]
    split
    next hx =>
      rw [hx, hinfo] at hz
      cases hz
      exact ⟨info', rfl, haddr, hpos⟩
    next => exact ⟨z, hz, rfl, rfl⟩
  refine ⟨fun x y hy => ?_, fun x y hy => ?_, fun a x hx => ?_, fun x y hy => ?_, fun pos x hx => ?_,
    ?_, h.count⟩
  · obtain ⟨z, hz, -, -⟩ := hsame x y hy
    exact h.id_bounds x z hz
  · obtain ⟨z, hz, hza, -⟩ := hsame x y hy
    rw [hza]
    exact h.addr_id x z hz
  · obtain ⟨z, hz, hza⟩ := h.id_addr a x hx
    obtain ⟨y, hy, hya, -⟩ := hback x z hz
    exact ⟨y, hy, hya.trans hza⟩
  · obtain ⟨z, hz, -, hzp⟩ := hsame x y hy
    rw [hzp]
    exact h.random x z hz
  · obtain ⟨z, hz, hzp⟩ := h.at_random pos x hx
    obtain ⟨y, hy, -, hyp⟩ := hback x z hz
    exact ⟨y, hy, hyp.trans hzp⟩
  · rw [h.size, count_insert_same (w := info') hinfo rfl]

theorem create {info : CAddrInfo} (haddr : mapAddr.lookup info.toCNetAddr = none)
    (hpos : info.nRandomPos = vRandom.length) :
    Numbered (nIdCount + 1) (mapInfo.insert nIdCount info)
      (mapAddr.insert info.toCNetAddr nIdCount) (vRandom ++ [nIdCount]) := by
  -- the counter is above every id in use
  have hnone : mapInfo.lookup nIdCount = none := by
    rw [Option.eq_none_iff_forall_ne_some]
    intro y hy
    have hlt := (h.id_bounds _ y hy).2
    omega
  refine ⟨fun x y hy => ?_, fun x y hy => ?_, fun a x hx => ?_, fun x y hy => ?_, fun pos x hx => ?_,
    ?_, by have := h.count; omega⟩
  · have hcount := h.count
    rw [lookup_insert] at hy
    split at hy
    next hx => omega
    next =>
      have hbounds := h.id_bounds x y hy
      omega
  · rw [lookup_insert] at hy
    rw [Maps.lookup_insert]
    split at hy
    next hx =>
      cases hy
      rw [if_pos rfl, hx]
    next =>
      have hold := h.addr_id x y hy
      rw [if_neg fun heq => ?_, hold]
      rw [heq, haddr] at hold
      exact nomatch hold
  · rw [Maps.lookup_insert] at hx
    split at hx
    next ha =>
      cases hx
      exact ⟨info, by rw [lookup_insert, if_pos rfl], ha.symm⟩
    next =>
      obtain ⟨y, hy, hya⟩ := h.id_addr a x hx
      refine ⟨y, ?_, hya⟩
      rw [lookup_insert, if_neg, hy]
      rintro rfl
      rw [hnone] at hy
      exact nomatch hy
  · rw [lookup_insert] at hy
    split at hy
    next hx =>
      cases hy
      rw [hpos, Int.toNat_natCast, getElem?_concat_length, hx]
      exact ⟨Int.natCast_nonneg _, rfl⟩
    next =>
      obtain ⟨hnonneg, hget⟩ := h.random x y hy
      exact ⟨hnonneg, getElem?_append_left (List.getElem?_eq_some_iff.mp hget).1 ▸ hget⟩
  · rcases Nat.lt_or_ge pos vRandom.length with hlt | hge
    · rw [getElem?_append_left hlt] at hx
      obtain ⟨y, hy, hyp⟩ := h.at_random pos x hx
      refine ⟨y, ?_, hyp⟩
      rw [lookup_insert, if_neg, hy]
      rintro rfl
      rw [hnone] at hy
      exact nomatch hy
    · rw [getElem?_append_right hge, getElem?_singleton] at hx
      split at hx
      next hzero =>
        cases hx
        refine ⟨info, by rw [lookup_insert, if_pos rfl], ?_⟩
        omega
      next => exact nomatch hx
  · rw [length_append, length_singleton, h.size,
      count_insert_of_none hnone info]
    rfl

theorem pos_inj {p q : Nat} {id : Int} (hp : vRandom[p]? = some id) (hq : vRandom[q]? = some id) :
    p = q := by
  obtain ⟨info, hinfo, hpos⟩ := h.at_random p id hp
  obtain ⟨info', hinfo', hpos'⟩ := h.at_random q id hq
  cases hinfo.symm.trans hinfo'
  omega

theorem swap {p q : Nat} (hne : p ≠ q) {id1 id2 : Int} {info1 info2 : CAddrInfo}
    (hp : vRandom[p]? = some id1) (hq : vRandom[q]? = some id2)
    (h1 : mapInfo.lookup id1 = some info1) (h2 : mapInfo.lookup id2 = some info2) :
    Numbered nIdCount ((mapInfo.insert id1 { info1 with nRandomPos := q }).insert id2
      { info2 with nRandomPos := p }) mapAddr ((vRandom.set p id2).set q id1) := by
  have hid : id1 ≠ id2 := fun heq => hne (h.pos_inj hp (heq ▸ hq))
  have hplt := (List.getElem?_eq_some_iff.mp hp).1
  have hqlt := (List.getElem?_eq_some_iff.mp hq).1
  -- an entry is one of the two, or stays
  have hlookup : ∀ x, ((mapInfo.insert id1 { info1 with nRandomPos := (q : Int) }).insert id2
      { info2 with nRandomPos := (p : Int) }).lookup x =
        if x = id2 then some { info2 with nRandomPos := (p : Int) }
        else if x = id1 then some { info1 with nRandomPos := (q : Int) } else mapInfo.lookup x := by
    intro x
    rw [lookup_insert, lookup_insert]
  have hget : ∀ j, ((vRandom.set p id2).set q id1)[j]? =
      if j = q then some id1 else if j = p then some id2 else vRandom[j]? := by
    intro j
    rw [getElem?_set, length_set, getElem?_set]
    by_cases hjq : q = j
    · rw [if_pos hjq, if_pos (hjq ▸ hqlt), if_pos hjq.symm]
    · rw [if_neg hjq, if_neg (Ne.symm hjq)]
      by_cases hjp : p = j
      · rw [if_pos hjp, if_pos (hjp ▸ hplt), if_pos hjp.symm]
      · rw [if_neg hjp, if_neg (Ne.symm hjp)]
  have hold : ∀ x y, ((mapInfo.insert id1 { info1 with nRandomPos := (q : Int) }).insert id2
      { info2 with nRandomPos := (p : Int) }).lookup x = some y →
        ∃ z, mapInfo.lookup x = some z ∧ y.toCNetAddr = z.toCNetAddr := by
    intro x y hy
    rw [hlookup] at hy
    split at hy
    next hx => cases hy; exact ⟨info2, hx ▸ h2, rfl⟩
    next =>
      split at hy
      next hx => cases hy; exact ⟨info1, hx ▸ h1, rfl⟩
      next => exact ⟨y, hy, rfl⟩
  refine ⟨fun x y hy => ?_, fun x y hy => ?_, fun a x hx => ?_, fun x y hy => ?_, fun j x hx => ?_,
    ?_, h.count⟩
  · obtain ⟨z, hz, -⟩ := hold x y hy
    exact h.id_bounds x z hz
  · obtain ⟨z, hz, hza⟩ := hold x y hy
    rw [hza]
    exact h.addr_id x z hz
  · obtain ⟨z, hz, hza⟩ := h.id_addr a x hx
    rw [hlookup]
    split
    next hx2 =>
      rw [hx2, h2] at hz
      cases hz
      exact ⟨_, rfl, hza⟩
    next =>
      split
      next hx1 =>
        rw [hx1, h1] at hz
        cases hz
        exact ⟨_, rfl, hza⟩
      next => exact ⟨z, hz, hza⟩
  · rw [hlookup] at hy
    split at hy
    next hx =>
      cases hy
      refine ⟨Int.natCast_nonneg _, ?_⟩
      rw [Int.toNat_natCast, hget, if_neg hne, if_pos rfl, hx]
    next hx2 =>
      split at hy
      next hx =>
        cases hy
        refine ⟨Int.natCast_nonneg _, ?_⟩
        rw [Int.toNat_natCast, hget, if_pos rfl, hx]
      next hx1 =>
        obtain ⟨hnonneg, hpos⟩ := h.random x y hy
        refine ⟨hnonneg, ?_⟩
        rw [hget, if_neg, if_neg, hpos]
        · intro heq
          rw [heq, hp] at hpos
          exact hx1 (Option.some.inj hpos).symm
        · intro heq
          rw [heq, hq] at hpos
          exact hx2 (Option.some.inj hpos).symm
  · rw [hget] at hx
    rw [hlookup]
    split at hx
    next hj =>
      cases hx
      exact ⟨_, by rw [if_neg hid, if_pos rfl], by rw [hj]⟩
    next hjq =>
      split at hx
      next hj =>
        cases hx
        exact ⟨_, by rw [if_pos rfl], by rw [hj]⟩
      next hjp =>
        obtain ⟨z, hz, hzpos⟩ := h.at_random j x hx
        refine ⟨z, ?_, hzpos⟩
        rw [if_neg, if_neg, hz]
        · rintro rfl
          exact hjp (h.pos_inj hx hp)
        · rintro rfl
          exact hjq (h.pos_inj hx hq)
  · have hlook : (mapInfo.insert id1 { info1 with nRandomPos := (q : Int) }).lookup id2 =
        some info2 := by
      rw [lookup_insert, if_neg hid.symm, h2]
    rw [length_set, length_set, h.size,
      count_insert_same (w := { info2 with nRandomPos := (p : Int) }) hlook rfl,
      count_insert_same (w := { info1 with nRandomPos := (q : Int) }) h1 rfl]

theorem pop {id : Int} {info : CAddrInfo} (hinfo : mapInfo.lookup id = some info)
    (hpos : info.nRandomPos = (vRandom.length - 1 : Nat)) :
    Numbered nIdCount (mapInfo.erase id) (mapAddr.erase info.toCNetAddr) vRandom.dropLast := by
  have hlast : vRandom[vRandom.length - 1]? = some id := by
    have hrandom := (h.random id info hinfo).2
    rwa [hpos, Int.toNat_natCast] at hrandom
  -- positions hold different ids, so the last one takes its id with it
  have hget : ∀ (j : Nat) x, vRandom.dropLast[j]? = some x ↔ vRandom[j]? = some x ∧ x ≠ id := by
    intro j x
    rw [getElem?_dropLast]
    split
    next hj =>
      refine ⟨fun hx => ⟨hx, ?_⟩, fun hx => hx.1⟩
      rintro rfl
      have heq := h.pos_inj hx hlast
      omega
    next hj =>
      refine ⟨fun hx => (nomatch hx), fun ⟨hx, hne⟩ => ?_⟩
      have hjlt := (List.getElem?_eq_some_iff.mp hx).1
      obtain rfl : j = vRandom.length - 1 := by omega
      rw [hlast] at hx
      exact absurd (Option.some.inj hx).symm hne
  refine ⟨fun x y hy => ?_, fun x y hy => ?_, fun a x hx => ?_, fun x y hy => ?_, fun j x hx => ?_,
    ?_, h.count⟩
  · exact h.id_bounds x y (lookup_erase_some hy).2
  · obtain ⟨hx, hy⟩ := lookup_erase_some hy
    have hy' := h.addr_id x y hy
    rw [Maps.lookup_erase, if_neg fun heq => ?_, hy']
    rw [heq, h.addr_id id info hinfo] at hy'
    exact hx (Option.some.inj hy').symm
  · rw [Maps.lookup_erase] at hx
    split at hx
    next => exact nomatch hx
    next ha =>
      obtain ⟨y, hy, hya⟩ := h.id_addr a x hx
      refine ⟨y, ?_, hya⟩
      rw [lookup_erase, if_neg, hy]
      rintro rfl
      rw [hinfo] at hy
      cases hy
      exact ha hya.symm
  · obtain ⟨hx, hy⟩ := lookup_erase_some hy
    obtain ⟨hnonneg, hrandom⟩ := h.random x y hy
    exact ⟨hnonneg, (hget _ x).mpr ⟨hrandom, hx⟩⟩
  · obtain ⟨hx, hne⟩ := (hget j x).mp hx
    obtain ⟨y, hy, hyp⟩ := h.at_random j x hx
    exact ⟨y, by rw [lookup_erase, if_neg hne, hy], hyp⟩
  · have hcount := count_erase hinfo fun _ => true
    have hsize := h.size
    rw [length_dropLast]
    change _ + 1 = _ at hcount
    omega

omit h

end Numbered

/-! ## The tables -/

/-- The two tables hold the entries that count as new and tried.  Entries that are
    `loose` may be in no bucket of the new table, and `nNew` is behind by `k`. -/
structure Tables (env : AddrManEnv) (loose : Int → Prop) (k : Int)
    (mapInfo : SortedMap Int CAddrInfo) (nTried : Int)
    (vvTried : Fin ADDRMAN_TRIED_BUCKET_COUNT → Fin ADDRMAN_BUCKET_SIZE → Int) (nNew : Int)
    (vvNew : Fin ADDRMAN_NEW_BUCKET_COUNT → Fin ADDRMAN_BUCKET_SIZE → Int) (nKey : Uint256) :
    Prop where
  /-- -1 stands for an empty slot. -/
  vacant : mapInfo.lookup (-1) = none
  tried_slot : ∀ b p, vvTried b p ≠ -1 → ∃ info, mapInfo.lookup (vvTried b p) = some info ∧
    info.fInTried = true ∧ env.getTriedBucket nKey info.toCService = b ∧
    env.triedPos nKey info.toCService = p
  tried : ∀ id info, mapInfo.lookup id = some info → info.fInTried = true →
    vvTried (env.getTriedBucket nKey info.toCService) (env.triedPos nKey info.toCService) = id ∧
      info.nRefCount = 0 ∧ 0 < info.nLastSuccess.toInt
  new_slot : ∀ b p, vvNew b p ≠ -1 → ∃ info, mapInfo.lookup (vvNew b p) = some info ∧
    info.fInTried = false ∧ env.newPos nKey info.toCService b = p
  new : ∀ id info, mapInfo.lookup id = some info → info.fInTried = false →
    info.nRefCount = (rows vvNew (env.newPos nKey info.toCService) id).card ∧
      info.nRefCount ≤ ADDRMAN_NEW_BUCKETS_PER_ADDRESS ∧ (0 < info.nRefCount ∨ loose id)
  triedCount : nTried = mapInfo.count (·.fInTried)
  newCount : nNew + k = mapInfo.count (!·.fInTried)
  lastTry : ∀ id info, mapInfo.lookup id = some info → 0 ≤ info.nLastTry.toInt
  lastSuccess : ∀ id info, mapInfo.lookup id = some info → 0 ≤ info.nLastSuccess.toInt

namespace Tables

variable {env : AddrManEnv} {loose loose' : Int → Prop} {k : Int}
  {mapInfo : SortedMap Int CAddrInfo} {nTried nNew : Int}
  {vvTried : Fin ADDRMAN_TRIED_BUCKET_COUNT → Fin ADDRMAN_BUCKET_SIZE → Int}
  {vvNew : Fin ADDRMAN_NEW_BUCKET_COUNT → Fin ADDRMAN_BUCKET_SIZE → Int} {nKey : Uint256}

theorem empty : Tables env loose 0 empty 0 (fun _ _ => -1) 0 (fun _ _ => -1) nKey where
  vacant := rfl
  tried_slot _ _ h := absurd rfl h
  tried _ _ h := nomatch h
  new_slot _ _ h := absurd rfl h
  new _ _ h := nomatch h
  triedCount := rfl
  newCount := rfl
  lastTry _ _ h := nomatch h
  lastSuccess _ _ h := nomatch h

theorem mono (h : Tables env loose k mapInfo nTried vvTried nNew vvNew nKey)
    (hloose : ∀ id info, mapInfo.lookup id = some info → info.fInTried = false → loose id →
      0 < info.nRefCount ∨ loose' id) :
    Tables env loose' k mapInfo nTried vvTried nNew vvNew nKey :=
  { h with
    new := fun id info hinfo hnew => by
      obtain ⟨hrows, hle, hpos⟩ := h.new id info hinfo hnew
      exact ⟨hrows, hle, hpos.elim .inl (hloose id info hinfo hnew)⟩ }

variable {id : Int}

theorem lookup_insert_back {info info' : CAddrInfo} (hinfo : mapInfo.lookup id = some info)
    (hservice : info'.toCService = info.toCService) (htried : info'.fInTried = info.fInTried)
    {x : Int} {y : CAddrInfo} (hy : mapInfo.lookup x = some y) :
    ∃ z, (mapInfo.insert id info').lookup x = some z ∧ z.toCService = y.toCService ∧
      z.fInTried = y.fInTried := by
  rw [lookup_insert]
  split
  next hx =>
    rw [hx, hinfo] at hy
    cases hy
    exact ⟨info', rfl, hservice, htried⟩
  next => exact ⟨y, hy, rfl, rfl⟩

theorem unreferenced {info : CAddrInfo} (hinfo : mapInfo.lookup id = some info)
    (hrefs : info.nRefCount = 0) (y : CAddrInfo) (hy : mapInfo.lookup id = some y)
    (_ : y.fInTried = false) : y.nRefCount = 0 := by
  cases hinfo.symm.trans hy
  exact hrefs

variable (h : Tables env loose k mapInfo nTried vvTried nNew vvNew nKey)

include h

theorem ne_neg_one {info : CAddrInfo} (hinfo : mapInfo.lookup id = some info) : id ≠ -1 := by
  rintro rfl
  rw [h.vacant] at hinfo
  exact nomatch hinfo

theorem vacant_insert {info : CAddrInfo} (hinfo : mapInfo.lookup id = some info)
    (info' : CAddrInfo) : (mapInfo.insert id info').lookup (-1) = none :=
  (lookup_insert_of_ne mapInfo (h.ne_neg_one hinfo).symm info').trans h.vacant

theorem tried_slot_insert {info info' : CAddrInfo} (hinfo : mapInfo.lookup id = some info)
    (hservice : info'.toCService = info.toCService) (htried : info'.fInTried = info.fInTried)
    {b : Fin ADDRMAN_TRIED_BUCKET_COUNT} {p : Fin ADDRMAN_BUCKET_SIZE} (hslot : vvTried b p ≠ -1) :
    ∃ y, (mapInfo.insert id info').lookup (vvTried b p) = some y ∧ y.fInTried = true ∧
      env.getTriedBucket nKey y.toCService = b ∧ env.triedPos nKey y.toCService = p := by
  obtain ⟨y, hy, hy', hb, hp⟩ := h.tried_slot b p hslot
  obtain ⟨z, hz, hzs, hzt⟩ := lookup_insert_back hinfo hservice htried hy
  exact ⟨z, hz, hzt.trans hy', hzs ▸ hb, hzs ▸ hp⟩

theorem new_slot_insert {info info' : CAddrInfo} (hinfo : mapInfo.lookup id = some info)
    (hservice : info'.toCService = info.toCService) (htried : info'.fInTried = info.fInTried)
    {b : Fin ADDRMAN_NEW_BUCKET_COUNT} {p : Fin ADDRMAN_BUCKET_SIZE} (hslot : vvNew b p ≠ -1) :
    ∃ y, (mapInfo.insert id info').lookup (vvNew b p) = some y ∧ y.fInTried = false ∧
      env.newPos nKey y.toCService b = p := by
  obtain ⟨y, hy, hy', hp⟩ := h.new_slot b p hslot
  obtain ⟨z, hz, hzs, hzt⟩ := lookup_insert_back hinfo hservice htried hy
  exact ⟨z, hz, hzt.trans hy', hzs ▸ hp⟩

theorem modify {info info' : CAddrInfo} (hinfo : mapInfo.lookup id = some info)
    (hservice : info'.toCService = info.toCService) (htried : info'.fInTried = info.fInTried)
    (hrefs : info'.nRefCount = info.nRefCount) (htry : 0 ≤ info'.nLastTry.toInt)
    (hsuccess : 0 ≤ info'.nLastSuccess.toInt)
    (hpos : info.fInTried = true → 0 < info'.nLastSuccess.toInt) :
    Tables env loose k (mapInfo.insert id info') nTried vvTried nNew vvNew nKey := by
  refine ⟨h.vacant_insert hinfo info', fun b p hslot => ?_, fun x y hy hy' => ?_, fun b p hslot => ?_,
    fun x y hy hy' => ?_, ?_, ?_, ?_, ?_⟩
  · exact h.tried_slot_insert hinfo hservice htried hslot
  · rcases lookup_insert_some hy with ⟨rfl, rfl⟩ | ⟨-, hold⟩
    · obtain ⟨hslot, hzero, -⟩ := h.tried x info hinfo (htried ▸ hy')
      rw [hservice, hrefs]
      exact ⟨hslot, hzero, hpos (htried ▸ hy')⟩
    · exact h.tried x y hold hy'
  · exact h.new_slot_insert hinfo hservice htried hslot
  · rcases lookup_insert_some hy with ⟨rfl, rfl⟩ | ⟨-, hold⟩
    · rw [hservice, hrefs]
      exact h.new x info hinfo (htried ▸ hy')
    · exact h.new x y hold hy'
  · rw [h.triedCount, count_insert_same hinfo htried]
  · rw [h.newCount, count_insert_same hinfo (congrArg Bool.not htried)]
  · exact forall_insert htry h.lastTry
  · exact forall_insert hsuccess h.lastSuccess

theorem reposition {info : CAddrInfo} (hinfo : mapInfo.lookup id = some info) (pos : Int) :
    Tables env loose k (mapInfo.insert id { info with nRandomPos := pos }) nTried vvTried nNew
      vvNew nKey :=
  h.modify hinfo rfl rfl rfl (h.lastTry id info hinfo) (h.lastSuccess id info hinfo)
    fun htried => (h.tried id info hinfo htried).2.2

theorem lag : Tables env loose (k + 1) mapInfo nTried vvTried (nNew - 1) vvNew nKey :=
  { h with newCount := by have hcount := h.newCount; omega }

omit h

theorem unlag (h : Tables env loose (k + 1) mapInfo nTried vvTried nNew vvNew nKey) :
    Tables env loose k mapInfo nTried vvTried (nNew + 1) vvNew nKey :=
  { h with newCount := by have hcount := h.newCount; omega }

include h

theorem slot_ne (hid : id ≠ -1)
    (hfree : ∀ info, mapInfo.lookup id = some info → info.fInTried = false →
      info.nRefCount = 0) (b : Fin ADDRMAN_NEW_BUCKET_COUNT) (p : Fin ADDRMAN_BUCKET_SIZE) :
    vvNew b p ≠ id := by
  rintro rfl
  obtain ⟨info, hinfo, hnew, hpos⟩ := h.new_slot b p hid
  have hrows := (h.new _ info hinfo hnew).1
  have hmem : b ∈ rows vvNew (env.newPos nKey info.toCService) (vvNew b p) :=
    mem_rows.mpr (by rw [hpos])
  have hpos := Finset.card_pos.mpr ⟨b, hmem⟩
  have hzero := hfree info hinfo hnew
  omega

theorem rows_eq_zero (hid : id ≠ -1)
    (hfree : ∀ info, mapInfo.lookup id = some info → info.fInTried = false →
      info.nRefCount = 0) (pos : Fin ADDRMAN_NEW_BUCKET_COUNT → Fin ADDRMAN_BUCKET_SIZE) :
    (rows vvNew pos id).card = 0 :=
  card_rows_eq_zero.mpr fun b => h.slot_ne hid hfree b (pos b)

theorem add {info : CAddrInfo} (hid : id ≠ -1) (hnone : mapInfo.lookup id = none)
    (hnew : info.fInTried = false) (hrefs : info.nRefCount = 0) (htry : 0 ≤ info.nLastTry.toInt)
    (hsuccess : 0 ≤ info.nLastSuccess.toInt) :
    Tables env (fun x => loose x ∨ x = id) k (mapInfo.insert id info) nTried vvTried (nNew + 1)
      vvNew nKey := by
  have hkeep : ∀ x y, mapInfo.lookup x = some y → (mapInfo.insert id info).lookup x = some y := by
    intro x y hy
    rw [lookup_insert_of_ne, hy]
    rintro rfl
    rw [hnone] at hy
    exact nomatch hy
  have hrows := h.rows_eq_zero hid (fun y hy => by rw [hnone] at hy; exact nomatch hy)
  have hvacant := (lookup_insert_of_ne mapInfo hid.symm info).trans h.vacant
  refine ⟨hvacant, fun b p hslot => ?_, fun x y hy hy' => ?_, fun b p hslot => ?_,
    fun x y hy hy' => ?_, ?_, ?_, ?_, ?_⟩
  · obtain ⟨y, hy, hrest⟩ := h.tried_slot b p hslot
    exact ⟨y, hkeep _ y hy, hrest⟩
  · rcases lookup_insert_some hy with ⟨rfl, rfl⟩ | ⟨-, hold⟩
    · rw [hnew] at hy'
      exact nomatch hy'
    · exact h.tried x y hold hy'
  · obtain ⟨y, hy, hrest⟩ := h.new_slot b p hslot
    exact ⟨y, hkeep _ y hy, hrest⟩
  · rcases lookup_insert_some hy with ⟨rfl, rfl⟩ | ⟨-, hold⟩
    · rw [hrefs, hrows]
      exact ⟨rfl, by decide, .inr (.inr rfl)⟩
    · obtain ⟨hcard, hle, hpos⟩ := h.new x y hold hy'
      exact ⟨hcard, hle, hpos.imp_right .inl⟩
  · have hcount := count_insert_of_none hnone info (·.fInTried)
    rw [hnew] at hcount
    rw [h.triedCount, hcount]
    rfl
  · have hcount := count_insert_of_none hnone info (!·.fInTried)
    have hold := h.newCount
    rw [hnew] at hcount
    change _ = _ + 1 at hcount
    omega
  · exact forall_insert htry h.lastTry
  · exact forall_insert hsuccess h.lastSuccess

theorem remove {info : CAddrInfo} (hinfo : mapInfo.lookup id = some info)
    (hnew : info.fInTried = false) (hrefs : info.nRefCount = 0) :
    Tables env (fun x => loose x ∧ x ≠ id) k (mapInfo.erase id) nTried vvTried (nNew - 1) vvNew
      nKey := by
  have hid := h.ne_neg_one hinfo
  have hfree := unreferenced hinfo hrefs
  have hvacant : (mapInfo.erase id).lookup (-1) = none := by
    rw [lookup_erase, h.vacant, ite_self]
  refine ⟨hvacant, fun b p hslot => ?_, fun x y hy hy' => ?_, fun b p hslot => ?_,
    fun x y hy hy' => ?_, ?_, ?_, ?_, ?_⟩
  · obtain ⟨y, hy, htried, hrest⟩ := h.tried_slot b p hslot
    refine ⟨y, ?_, htried, hrest⟩
    rw [lookup_erase, if_neg, hy]
    intro heq
    rw [heq, hinfo] at hy
    cases hy
    rw [hnew] at htried
    exact nomatch htried
  · exact h.tried x y (lookup_erase_some hy).2 hy'
  · obtain ⟨y, hy, hrest⟩ := h.new_slot b p hslot
    exact ⟨y, by rw [lookup_erase, if_neg (h.slot_ne hid hfree b p), hy], hrest⟩
  · obtain ⟨hx, hold⟩ := lookup_erase_some hy
    obtain ⟨hcard, hle, hpos⟩ := h.new x y hold hy'
    exact ⟨hcard, hle, hpos.imp_right fun hloose => ⟨hloose, hx⟩⟩
  · have hcount := count_erase hinfo (·.fInTried)
    have hold := h.triedCount
    rw [hnew] at hcount
    change _ + 0 = _ at hcount
    omega
  · have hcount := count_erase hinfo (!·.fInTried)
    have hold := h.newCount
    rw [hnew] at hcount
    change _ + 1 = _ at hcount
    omega
  · exact fun x y hy => h.lastTry x y (lookup_erase_some hy).2
  · exact fun x y hy => h.lastSuccess x y (lookup_erase_some hy).2

variable {b : Fin ADDRMAN_NEW_BUCKET_COUNT} {p : Fin ADDRMAN_BUCKET_SIZE}

include h

theorem leave (hslot : vvNew b p = id) {info : CAddrInfo} (hinfo : mapInfo.lookup id = some info) :
    Tables env (fun x => loose x ∨ x = id) k
      (mapInfo.insert id { info with nRefCount := info.nRefCount - 1 }) nTried vvTried nNew
      (set vvNew b p (-1)) nKey := by
  have hid := h.ne_neg_one hinfo
  obtain ⟨hnew, hpos⟩ : info.fInTried = false ∧ env.newPos nKey info.toCService b = p := by
    obtain ⟨y, hy, hrest⟩ := h.new_slot b p (hslot ▸ hid)
    rw [hslot, hinfo] at hy
    cases hy
    exact hrest
  refine ⟨h.vacant_insert hinfo _, fun b' p' hslot' => ?_, fun x y hy hy' => ?_, fun b' p' hslot' => ?_,
    fun x y hy hy' => ?_, ?_, ?_, ?_, ?_⟩
  · exact h.tried_slot_insert hinfo (by rfl) (by rfl) hslot'
  · rcases lookup_insert_some hy with ⟨rfl, rfl⟩ | ⟨-, hold⟩
    · exact absurd (hnew.symm.trans hy') Bool.false_ne_true
    · exact h.tried x y hold hy'
  · rw [set_apply] at hslot' ⊢
    split at hslot'
    next => exact absurd rfl hslot'
    next hne =>
      rw [if_neg hne]
      exact h.new_slot_insert hinfo (by rfl) (by rfl) hslot'
  · rcases lookup_insert_some hy with ⟨rfl, rfl⟩ | ⟨hx, hold⟩
    · obtain ⟨hcard, hle, -⟩ := h.new x info hinfo hnew
      have hless := card_rows_set_other (t := vvNew) (v := -1)
        (show vvNew b (env.newPos nKey info.toCService b) = x by rw [hpos, hslot]) hid.symm
      rw [hpos] at hless
      dsimp only
      exact ⟨by omega, by omega, .inr (.inr rfl)⟩
    · obtain ⟨hcard, hle, hpos'⟩ := h.new x y hold hy'
      rw [rows_set_of_ne (hslot ▸ Ne.symm hx) (h.ne_neg_one hold).symm]
      exact ⟨hcard, hle, hpos'.imp_right .inl⟩
  · rw [h.triedCount,
      count_insert_same (w := { info with nRefCount := info.nRefCount - 1 }) hinfo rfl]
  · rw [h.newCount,
      count_insert_same (w := { info with nRefCount := info.nRefCount - 1 }) hinfo rfl]
  · exact forall_insert (h.lastTry id info hinfo) h.lastTry
  · exact forall_insert (h.lastSuccess id info hinfo) h.lastSuccess

theorem enter {info : CAddrInfo} (hinfo : mapInfo.lookup id = some info)
    (hnew : info.fInTried = false) (hslot : vvNew b (env.newPos nKey info.toCService b) = -1)
    (hlt : info.nRefCount < ADDRMAN_NEW_BUCKETS_PER_ADDRESS) :
    Tables env (fun x => loose x ∧ x ≠ id) k
      (mapInfo.insert id { info with nRefCount := info.nRefCount + 1 }) nTried vvTried nNew
      (set vvNew b (env.newPos nKey info.toCService b) id) nKey := by
  have hid := h.ne_neg_one hinfo
  refine ⟨h.vacant_insert hinfo _, fun b' p' hslot' => ?_, fun x y hy hy' => ?_, fun b' p' hslot' => ?_,
    fun x y hy hy' => ?_, ?_, ?_, ?_, ?_⟩
  · exact h.tried_slot_insert hinfo (by rfl) (by rfl) hslot'
  · rcases lookup_insert_some hy with ⟨rfl, rfl⟩ | ⟨-, hold⟩
    · exact absurd (hnew.symm.trans hy') Bool.false_ne_true
    · exact h.tried x y hold hy'
  · rw [set_apply] at hslot' ⊢
    split at hslot'
    next heq =>
      rw [if_pos heq]
      obtain ⟨rfl, rfl⟩ := heq
      exact ⟨_, lookup_insert_self .., hnew, rfl⟩
    next hne =>
      rw [if_neg hne]
      exact h.new_slot_insert hinfo (by rfl) (by rfl) hslot'
  · rcases lookup_insert_some hy with ⟨rfl, rfl⟩ | ⟨hx, hold⟩
    · obtain ⟨hcard, hle, -⟩ := h.new x info hinfo hnew
      have hne : vvNew b (env.newPos nKey info.toCService b) ≠ x := by
        rw [hslot]
        exact hid.symm
      -- one bucket more holds the id, and one reference more is counted
      have hmore := card_rows_set_self hne
      dsimp only
      exact ⟨by omega, by omega, .inl (by omega)⟩
    · obtain ⟨hcard, hle, hpos'⟩ := h.new x y hold hy'
      rw [rows_set_of_ne (hslot ▸ (h.ne_neg_one hold).symm) (Ne.symm hx)]
      exact ⟨hcard, hle, hpos'.imp_right fun hloose => ⟨hloose, hx⟩⟩
  · rw [h.triedCount,
      count_insert_same (w := { info with nRefCount := info.nRefCount + 1 }) hinfo rfl]
  · rw [h.newCount,
      count_insert_same (w := { info with nRefCount := info.nRefCount + 1 }) hinfo rfl]
  · exact forall_insert (h.lastTry id info hinfo) h.lastTry
  · exact forall_insert (h.lastSuccess id info hinfo) h.lastSuccess

theorem untry {b : Fin ADDRMAN_TRIED_BUCKET_COUNT} (hslot : vvTried b p = id) {info : CAddrInfo}
    (hinfo : mapInfo.lookup id = some info) :
    Tables env (fun x => loose x ∨ x = id) (k + 1) (mapInfo.insert id { info with fInTried := false })
      (nTried - 1) (set vvTried b p (-1)) nNew vvNew nKey := by
  have hid := h.ne_neg_one hinfo
  obtain ⟨htried, hb, hp⟩ : info.fInTried = true ∧ env.getTriedBucket nKey info.toCService = b ∧
      env.triedPos nKey info.toCService = p := by
    obtain ⟨y, hy, hrest⟩ := h.tried_slot b p (hslot ▸ hid)
    rw [hslot, hinfo] at hy
    cases hy
    exact hrest
  obtain ⟨-, hzero, -⟩ := h.tried id info hinfo htried
  have hfree := unreferenced hinfo hzero
  refine ⟨h.vacant_insert hinfo _, fun b' p' hslot' => ?_, fun x y hy hy' => ?_, fun b' p' hslot' => ?_,
    fun x y hy hy' => ?_, ?_, ?_, ?_, ?_⟩
  · rw [set_apply] at hslot' ⊢
    split at hslot'
    next => exact absurd rfl hslot'
    next hne =>
      rw [if_neg hne]
      obtain ⟨y, hy, htried', hb', hp'⟩ := h.tried_slot b' p' hslot'
      refine ⟨y, ?_, htried', hb', hp'⟩
      rw [lookup_insert_of_ne, hy]
      -- the entry has one position only
      intro heq
      rw [heq, hinfo] at hy
      cases hy
      exact hne ⟨hb'.symm.trans hb, hp'.symm.trans hp⟩
  · rcases lookup_insert_some hy with ⟨rfl, rfl⟩ | ⟨hx, hold⟩
    · exact nomatch hy'
    · obtain ⟨hslot', hrest⟩ := h.tried x y hold hy'
      refine ⟨?_, hrest⟩
      rw [set_apply, if_neg, hslot']
      rintro ⟨hb', hp'⟩
      rw [hb', hp', hslot] at hslot'
      exact hx hslot'.symm
  · obtain ⟨y, hy, hrest⟩ := h.new_slot b' p' hslot'
    refine ⟨y, ?_, hrest⟩
    rw [lookup_insert_of_ne _ (h.slot_ne hid hfree b' p'), hy]
  · rcases lookup_insert_some hy with ⟨rfl, rfl⟩ | ⟨-, hold⟩
    · dsimp only
      rw [hzero, h.rows_eq_zero hid hfree]
      exact ⟨rfl, by decide, .inr (.inr rfl)⟩
    · obtain ⟨hcard, hle, hpos⟩ := h.new x y hold hy'
      exact ⟨hcard, hle, hpos.imp_right .inl⟩
  · have hcount := count_insert_of_some hinfo { info with fInTried := false } (·.fInTried)
    have hold := h.triedCount
    rw [htried] at hcount
    change _ + 1 = _ + 0 at hcount
    omega
  · have hcount := count_insert_of_some hinfo { info with fInTried := false }
      (!·.fInTried)
    have hold := h.newCount
    rw [htried] at hcount
    change _ + 0 = _ + 1 at hcount
    omega
  · exact forall_insert (h.lastTry id info hinfo) h.lastTry
  · exact forall_insert (h.lastSuccess id info hinfo) h.lastSuccess

theorem mark {info : CAddrInfo} (hinfo : mapInfo.lookup id = some info)
    (hnew : info.fInTried = false) (hrefs : info.nRefCount = 0)
    (hsuccess : 0 < info.nLastSuccess.toInt)
    (hslot : vvTried (env.getTriedBucket nKey info.toCService)
      (env.triedPos nKey info.toCService) = -1) :
    Tables env (fun x => loose x ∧ x ≠ id) (k - 1) (mapInfo.insert id { info with fInTried := true })
      (nTried + 1) (set vvTried (env.getTriedBucket nKey info.toCService)
        (env.triedPos nKey info.toCService) id) nNew vvNew nKey := by
  have hid := h.ne_neg_one hinfo
  -- no slot of the new table holds the id, so the new table does not see the change
  have hfree := unreferenced hinfo hrefs
  refine ⟨h.vacant_insert hinfo _, fun b' p' hslot' => ?_, fun x y hy hy' => ?_, fun b' p' hslot' => ?_,
    fun x y hy hy' => ?_, ?_, ?_, ?_, ?_⟩
  · rw [set_apply] at hslot' ⊢
    split at hslot'
    next heq =>
      rw [if_pos heq]
      exact ⟨_, lookup_insert_self .., rfl, heq.1.symm, heq.2.symm⟩
    next hne =>
      rw [if_neg hne]
      obtain ⟨y, hy, htried, hrest⟩ := h.tried_slot b' p' hslot'
      refine ⟨y, ?_, htried, hrest⟩
      rw [lookup_insert_of_ne, hy]
      intro heq
      rw [heq, hinfo] at hy
      cases hy
      rw [hnew] at htried
      exact nomatch htried
  · rcases lookup_insert_some hy with ⟨rfl, rfl⟩ | ⟨hx, hold⟩
    · exact ⟨set_self .., hrefs, hsuccess⟩
    · obtain ⟨hslot', hrest⟩ := h.tried x y hold hy'
      refine ⟨?_, hrest⟩
      rw [set_apply, if_neg, hslot']
      rintro ⟨hb', hp'⟩
      rw [hb', hp', hslot] at hslot'
      exact h.ne_neg_one hold hslot'.symm
  · obtain ⟨y, hy, hrest⟩ := h.new_slot b' p' hslot'
    refine ⟨y, ?_, hrest⟩
    rw [lookup_insert_of_ne _ (h.slot_ne hid hfree b' p'), hy]
  · rcases lookup_insert_some hy with ⟨rfl, rfl⟩ | ⟨hx, hold⟩
    · exact nomatch hy'
    · obtain ⟨hcard, hle, hpos⟩ := h.new x y hold hy'
      exact ⟨hcard, hle, hpos.imp_right fun hloose => ⟨hloose, hx⟩⟩
  · have hcount := count_insert_of_some hinfo { info with fInTried := true } (·.fInTried)
    have hold := h.triedCount
    rw [hnew] at hcount
    change _ + 0 = _ + 1 at hcount
    omega
  · have hcount := count_insert_of_some hinfo { info with fInTried := true }
      (!·.fInTried)
    have hold := h.newCount
    rw [hnew] at hcount
    change _ + 1 = _ + 0 at hcount
    omega
  · exact forall_insert (h.lastTry id info hinfo) h.lastTry
  · exact forall_insert (h.lastSuccess id info hinfo) h.lastSuccess

omit h

end Tables

end Rcoin
