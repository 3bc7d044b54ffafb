/-
  A vector of keyed values in no particular order, with the index of each key kept
  beside the key: a key is removed by moving the last element into its slot.
-/
import Rcoin.Lib.Maps

/-- The slots, and the index noted for each key. -/
structure SlotTable (K V : Type) [DecidableEq K] where
  slots : List (V × K)
  index : AList fun _ : K => Nat

namespace SlotTable

open AList List

variable {K V : Type} [DecidableEq K]

def empty : SlotTable K V := ⟨[], ∅⟩

/-- A new key goes to the end. -/
def push (t : SlotTable K V) (v : V) (k : K) : SlotTable K V :=
  ⟨t.slots ++ [(v, k)], t.index.insert k t.slots.length⟩

/-- The slot of `k` gets the last element, whose index is adjusted; with a single
    slot left all are cleared.  `none` when an index noted or a key met is not
    there. -/
def swapRemove (t : SlotTable K V) (k : K) : Option (SlotTable K V) :=
  if 1 < t.slots.length then
    match t.index.lookup k, t.slots.getLast? with
    | some i, some last =>
      if i < t.slots.length ∧ last.2 ∈ t.index then
        some ⟨(t.slots.set i last).dropLast, (t.index.insert last.2 i).erase k⟩
      else none
    | _, _ => none
  else some ⟨[], t.index.erase k⟩

/-- The slots and the indices noted agree. -/
structure Valid (t : SlotTable K V) : Prop where
  noted : ∀ i v k, t.slots[i]? = some (v, k) → t.index.lookup k = some i
  slot : ∀ k i, t.index.lookup k = some i → ∃ v, t.slots[i]? = some (v, k)

variable {t : SlotTable K V} {k : K}

theorem valid_empty : Valid (empty : SlotTable K V) where
  noted i v k h := by rw [empty, getElem?_nil] at h; nomatch h
  slot k i h := nomatch h

theorem Valid.push (h : Valid t) (v : V) (hk : k ∉ t.index) : Valid (t.push v k) where
  noted i w j hj := by
    change (t.slots ++ [(v, k)])[i]? = some (w, j) at hj
    rw [SlotTable.push, Maps.lookup_insert]
    by_cases hi : i < t.slots.length
    · rw [getElem?_append_left hi] at hj
      have hnoted := h.noted i w j hj
      have hjk : j ≠ k := by
        rintro rfl
        exact hk (lookup_isSome.mp (by rw [hnoted]; rfl))
      rw [if_neg hjk, hnoted]
    · rw [getElem?_append_right (by omega), getElem?_singleton] at hj
      split at hj
      · obtain ⟨-, rfl⟩ := Prod.mk.inj (Option.some.inj hj)
        rw [if_pos rfl]
        congr 1
        omega
      · nomatch hj
  slot j i hj := by
    change ∃ w, (t.slots ++ [(v, k)])[i]? = some (w, j)
    rw [SlotTable.push, Maps.lookup_insert] at hj
    split at hj
    next hjk =>
      obtain rfl := Option.some.inj hj
      exact ⟨v, by rw [getElem?_append_right le_rfl, Nat.sub_self, hjk]; rfl⟩
    next hjk =>
      obtain ⟨w, hw⟩ := h.slot j i hj
      have hlt : i < t.slots.length := (List.getElem?_eq_some_iff.mp hw).1
      exact ⟨w, by rw [getElem?_append_left hlt, hw]⟩

theorem Valid.slot_inj (h : Valid t) {i j : Nat} {v w : V} (hi : t.slots[i]? = some (v, k))
    (hj : t.slots[j]? = some (w, k)) : i = j :=
  Option.some.inj ((h.noted i v k hi).symm.trans (h.noted j w k hj))

theorem Valid.length_eq (h : Valid t) : t.slots.length = t.index.keys.length := by
  have hkeys : (t.slots.map Prod.snd).Nodup := by
    rw [nodup_iff_injective_get]
    intro i j hij
    have hilt : i.1 < t.slots.length := by simpa using i.2
    have hjlt : j.1 < t.slots.length := by simpa using j.2
    have hi : t.slots[i.1]? = some t.slots[i.1] := getElem?_eq_getElem hilt
    have hj : t.slots[j.1]? = some t.slots[j.1] := getElem?_eq_getElem hjlt
    simp only [get_eq_getElem, getElem_map] at hij
    rw [← Prod.mk.eta (p := t.slots[j.1]), ← hij] at hj
    exact Fin.ext (h.slot_inj hi hj)
  have hperm : (t.slots.map Prod.snd).Perm t.index.keys := by
    rw [perm_ext_iff_of_nodup hkeys (keys_nodup _)]
    intro k
    rw [List.mem_map, ← AList.mem_keys, ← lookup_isSome, Option.isSome_iff_exists]
    constructor
    · rintro ⟨⟨v, k⟩, hmem, rfl⟩
      obtain ⟨i, hi⟩ := mem_iff_getElem?.mp hmem
      exact ⟨i, h.noted i v k hi⟩
    · rintro ⟨i, hi⟩
      obtain ⟨v, hv⟩ := h.slot k i hi
      exact ⟨(v, k), mem_of_getElem? hv, rfl⟩
  rw [← hperm.length_eq, length_map]

/-- Removing a key of a valid table succeeds; the other keys stay, with their
    values. -/
theorem Valid.swapRemove (h : Valid t) (hk : k ∈ t.index) :
    ∃ t', t.swapRemove k = some t' ∧ Valid t' ∧ (∀ j, j ∈ t'.index ↔ j ≠ k ∧ j ∈ t.index) ∧
      ∀ p ∈ t'.slots, p ∈ t.slots := by
  obtain ⟨i, hi⟩ := Option.isSome_iff_exists.mp (lookup_isSome.mpr hk)
  obtain ⟨v, hv⟩ := h.slot k i hi
  have hlt : i < t.slots.length := (List.getElem?_eq_some_iff.mp hv).1
  rw [SlotTable.swapRemove]
  by_cases hlen : 1 < t.slots.length
  · rw [if_pos hlen]
    obtain ⟨⟨w, l⟩, hlast⟩ : ∃ p, t.slots[t.slots.length - 1]? = some p :=
      ⟨_, getElem?_eq_getElem (by omega)⟩
    have hnoted := h.noted _ w l hlast
    have hlmem : l ∈ t.index := lookup_isSome.mp (by rw [hnoted]; rfl)
    rw [getLast?_eq_getElem?, hlast, hi]
    simp only
    rw [if_pos ⟨hlt, hlmem⟩]
    -- where each slot of the shortened vector comes from
    have hget : ∀ j, j < t.slots.length - 1 → ((t.slots.set i (w, l)).dropLast)[j]? =
        if j = i then some (w, l) else t.slots[j]? := by
      intro j hj
      rw [getElem?_dropLast, length_set, if_pos hj, getElem?_set]
      by_cases hji : i = j
      · rw [if_pos hji, if_pos (hji ▸ hlt), if_pos hji.symm]
      · rw [if_neg hji, if_neg (Ne.symm hji)]
    have hout : ∀ j, ¬ j < t.slots.length - 1 → ((t.slots.set i (w, l)).dropLast)[j]? = none := by
      intro j hj
      rw [getElem?_dropLast, length_set, if_neg hj]
    have hlookup : ∀ j, ((t.index.insert l i).erase k).lookup j =
        if j = k then none else if j = l then some i else t.index.lookup j := by
      intro j
      rw [Maps.lookup_erase, Maps.lookup_insert]
    refine ⟨_, rfl, ⟨fun j x y hxy => ?_, fun y j hyj => ?_⟩, fun y => ?_, fun p hp => ?_⟩
    · by_cases hj : j < t.slots.length - 1
      · rw [hget j hj] at hxy
        rw [hlookup]
        split at hxy
        next hji =>
          obtain ⟨-, rfl⟩ := Prod.mk.inj (Option.some.inj hxy)
          -- the last element was not that of the key removed, or it would have gone
          have hlk : l ≠ k := by
            rintro rfl
            have heq := h.slot_inj hv hlast
            omega
          rw [if_neg hlk, if_pos rfl, hji]
        next hji =>
          have hyk : y ≠ k := by
            rintro rfl
            exact hji (h.slot_inj hxy hv)
          have hyl : y ≠ l := by
            rintro rfl
            have heq := h.slot_inj hxy hlast
            omega
          rw [if_neg hyk, if_neg hyl, h.noted j x y hxy]
      · rw [hout j hj] at hxy
        nomatch hxy
    · rw [hlookup] at hyj
      split at hyj
      · nomatch hyj
      next hyk =>
        split at hyj
        next hyl =>
          obtain rfl := Option.some.inj hyj
          have hne : i ≠ t.slots.length - 1 := by
            rintro heq
            rw [heq, hlast] at hv
            exact hyk (hyl.trans (Prod.mk.inj (Option.some.inj hv)).2)
          exact ⟨w, by rw [hget i (by omega), if_pos rfl, hyl]⟩
        next hyl =>
          obtain ⟨x, hx⟩ := h.slot y j hyj
          have hjlen : j < t.slots.length := (List.getElem?_eq_some_iff.mp hx).1
          have hne : j ≠ t.slots.length - 1 := by
            rintro heq
            rw [heq, hlast] at hx
            exact hyl (Prod.mk.inj (Option.some.inj hx)).2.symm
          have hji : j ≠ i := by
            rintro rfl
            rw [hv] at hx
            exact hyk (Prod.mk.inj (Option.some.inj hx)).2.symm
          exact ⟨x, by rw [hget j (by omega), if_neg hji, hx]⟩
    · rw [AList.mem_erase, mem_insert]
      constructor
      · rintro ⟨hyk, rfl | hy⟩
        · exact ⟨hyk, hlmem⟩
        · exact ⟨hyk, hy⟩
      · rintro ⟨hyk, hy⟩
        exact ⟨hyk, .inr hy⟩
    · obtain ⟨j, hj⟩ := mem_iff_getElem?.mp hp
      by_cases hjlen : j < t.slots.length - 1
      · rw [hget j hjlen] at hj
        split at hj
        · obtain rfl := Option.some.inj hj
          exact mem_of_getElem? hlast
        · exact mem_of_getElem? hj
      · rw [hout j hjlen] at hj
        nomatch hj
  · -- a single slot, that of the key
    rw [if_neg hlen]
    refine ⟨_, rfl, ⟨fun j x y hxy => ?_, fun y j hyj => ?_⟩, fun y => AList.mem_erase,
      fun p hp => nomatch hp⟩
    · rw [getElem?_nil] at hxy
      nomatch hxy
    · rw [Maps.lookup_erase] at hyj
      split at hyj
      · nomatch hyj
      next hyk =>
        obtain ⟨x, hx⟩ := h.slot y j hyj
        have hjlen : j < t.slots.length := (List.getElem?_eq_some_iff.mp hx).1
        obtain rfl : j = i := by omega
        rw [hv] at hx
        exact absurd (Prod.mk.inj (Option.some.inj hx)).2.symm hyk

end SlotTable
