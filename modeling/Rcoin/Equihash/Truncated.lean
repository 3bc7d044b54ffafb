/-
  The first half of `OptimisedSolve`.  `IsProbablyDuplicate` says that the
  truncated indices can be paired off; a partial solution is the truncation of a
  list of indices, possibly with repetitions, whose tree was never discarded on
  the way.
-/
import Rcoin.Equihash.Solve

namespace Rcoin

open Bool List

/-! ## `IsProbablyDuplicate` -/

/-- The values from position `z` on that are not marked as paired. -/
def unpaired (indices : List UInt8) (checked : List Bool) (z : Nat) : List UInt8 :=
  (List.range' z (indices.length - z)).filterMap fun y =>
    if checked.getD y false then none else some (indices.getD y 0)

variable {indices : List UInt8} {z : Nat}

theorem unpaired_of_lt (checked : List Bool) (hz : z < indices.length) :
    unpaired indices checked z =
      if checked.getD z false then unpaired indices checked (z + 1)
      else indices.getD z 0 :: unpaired indices checked (z + 1) := by
  have hlen : indices.length - z = indices.length - (z + 1) + 1 := by omega
  rw [unpaired, hlen, range'_succ, filterMap_cons]
  cases checked.getD z false <;> rfl

theorem unpaired_length (indices : List UInt8) (checked : List Bool) :
    unpaired indices checked indices.length = [] := by
  rw [unpaired, Nat.sub_self]
  rfl

theorem unpaired_replicate (indices : List UInt8) :
    unpaired indices (List.replicate indices.length false) 0 = indices := by
  have hnone : ∀ y, (List.replicate indices.length false).getD y false = false := by
    intro y
    rw [getD_eq_getElem?_getD, getElem?_replicate]
    split <;> rfl
  unfold unpaired
  apply ext_getElem
  · simp
  · intro k h1 h2
    simp [h2]

theorem perm_unpaired_set {checked : List Bool} (hlen : checked.length = indices.length) {y : Nat}
    (hz : z ≤ y) (hy : y < indices.length) (hfree : checked.getD y false = false) :
    (unpaired indices checked z).Perm
      (indices.getD y 0 :: unpaired indices (checked.set y true) z) := by
  have hmem : y ∈ List.range' z (indices.length - z) :=
    mem_range'_1.mpr ⟨hz, by omega⟩
  obtain ⟨r1, r2, hr⟩ := append_of_mem hmem
  have hnodup : (r1 ++ y :: r2).Nodup := hr ▸ nodup_range'
  have hother : ∀ x ∈ r1 ++ r2, (checked.set y true).getD x false = checked.getD x false := by
    intro x hx
    have hne : y ≠ x := by
      rintro rfl
      rw [nodup_middle] at hnodup
      exact (nodup_cons.mp hnodup).1 hx
    rw [getD_eq_getElem?_getD, getD_eq_getElem?_getD, getElem?_set_ne hne]
  have hset : (checked.set y true).getD y false = true := by
    rw [getD_eq_getElem?_getD, getElem?_set_self (by omega)]
    rfl
  have hsame : ∀ r : List Nat, (∀ x ∈ r, x ∈ r1 ++ r2) →
      (r.filterMap fun x => if (checked.set y true).getD x false then none
        else some (indices.getD x 0)) =
      r.filterMap fun x => if checked.getD x false then none else some (indices.getD x 0) := by
    intro r hsub
    apply filterMap_congr
    intro x hx
    rw [hother x (hsub x hx)]
  have h₁ := hsame r1 fun x hx => mem_append_left r2 hx
  have h₂ := hsame r2 fun x hx => mem_append_right r1 hx
  rw [unpaired, unpaired, hr, filterMap_append, filterMap_append, filterMap_cons,
    filterMap_cons, hset, hfree, h₁, h₂]
  exact perm_middle

/-- The state of `IsProbablyDuplicate` after `z` positions: the values that are
    left have the parities of all values as long as each position had a partner. -/
structure PairedUpTo (indices : List UInt8) (z : Nat) (s : List Bool × Nat) : Prop where
  length : s.1.length = indices.length
  count_le : s.2 + (unpaired indices s.1 z).length ≤ indices.length
  parity : s.2 + (unpaired indices s.1 z).length = indices.length →
    ∀ v, (unpaired indices s.1 z).count v % 2 = indices.count v % 2
  even : (∀ v, indices.count v % 2 = 0) → s.2 + (unpaired indices s.1 z).length = indices.length

theorem PairedUpTo.step {s : List Bool × Nat} (h : PairedUpTo indices z s)
    (hz : z < indices.length) :
    PairedUpTo indices (z + 1) (duplicateStep indices s z) := by
  have hunpaired := unpaired_of_lt s.1 hz
  have hlen := h.length
  have hle := h.count_le
  have hparity := h.parity
  have heven := h.even
  unfold duplicateStep
  split
  next hchecked =>
    rw [if_pos hchecked] at hunpaired
    rw [hunpaired] at hle hparity heven
    exact ⟨hlen, hle, hparity, heven⟩
  next hfree =>
    rw [if_neg hfree] at hunpaired
    rw [hunpaired] at hle hparity heven
    rw [length_cons] at hle hparity heven
    split
    next y hfind =>
      -- `z` and `y` leave together
      have hy := mem_range'_1.mp (mem_of_find?_eq_some hfind)
      have hpred := find?_some hfind
      rw [and_eq_true, not_eq_true', beq_iff_eq] at hpred
      have hperm := perm_unpaired_set hlen hy.1 (by omega) hpred.1
      have hcount := hperm.length_eq
      rw [length_cons] at hcount
      refine ⟨by rw [length_set]; exact hlen, ?_, ?_, ?_⟩
      · show s.2 + 2 + (unpaired indices (s.1.set y true) (z + 1)).length ≤ indices.length
        omega
      · intro hfull v
        change s.2 + 2 + (unpaired indices (s.1.set y true) (z + 1)).length = indices.length
          at hfull
        have hv := hparity (by omega) v
        rw [count_cons, hperm.count_eq, count_cons, hpred.2] at hv
        show (unpaired indices (s.1.set y true) (z + 1)).count v % 2 = indices.count v % 2
        omega
      · intro hall
        have hfull := heven hall
        show s.2 + 2 + (unpaired indices (s.1.set y true) (z + 1)).length = indices.length
        omega
    next hfind =>
      -- no partner behind `z`
      have hnot : indices.getD z 0 ∉ unpaired indices s.1 (z + 1) := by
        intro hmem
        obtain ⟨y, hy, hval⟩ := mem_filterMap.mp hmem
        have hnone := find?_eq_none.mp hfind y hy
        cases hc : s.1.getD y false with
        | true =>
          rw [hc] at hval
          cases hval
        | false =>
          rw [hc] at hval hnone
          rw [Option.some.inj hval] at hnone
          simp at hnone
      refine ⟨hlen, by omega, fun hfull => by omega, fun hall => ?_⟩
      have hv := hparity (heven hall) (indices.getD z 0)
      rw [hall, count_cons_self, count_eq_zero_of_not_mem hnot] at hv
      omega

theorem isProbablyDuplicate_iff (indices : List UInt8) :
    isProbablyDuplicate indices = true ↔ ∀ v, indices.count v % 2 = 0 := by
  have hrun : ∀ z ≤ indices.length, PairedUpTo indices z
      ((List.range z).foldl (duplicateStep indices)
        (List.replicate indices.length false, 0)) := by
    intro z
    induction z with
    | zero =>
      intro _
      have hall := unpaired_replicate indices
      exact ⟨length_replicate, by simp [hall], fun _ v => by simp [hall],
        fun _ => by simp [hall]⟩
    | succ z ih =>
      intro hz
      rw [List.range_succ, foldl_append]
      exact (ih (by omega)).step (by omega)
  have hend := hrun indices.length le_rfl
  have hparity := hend.parity
  have heven := hend.even
  rw [unpaired_length] at hparity heven
  rw [isProbablyDuplicate, beq_iff_eq]
  constructor
  · intro hcount v
    exact (hparity hcount v).symm
  · exact heven

theorem isProbablyDuplicate_append_self (l : List UInt8) : isProbablyDuplicate (l ++ l) = true := by
  rw [isProbablyDuplicate_iff]
  intro v
  rw [count_append]
  omega

namespace Equihash

variable (E : Equihash) (st : HashState E)

/-! ## Truncated trees -/

/-- What `TruncateIndex` leaves of an index. -/
def trunc (i : Nat) : UInt8 := truncateIndex i (E.collisionBitLength + 1)

/-- The trees whose rows the rounds with truncated indices keep: the halves are in
    the order of their truncated indices, and no tree has both a zero XOR and
    truncated indices that pair off. -/
def KeptTree : Nat → List Nat → Prop
  | 0, _ => True
  | l + 1, js =>
    KeptTree l (js.take (2 ^ l)) ∧ KeptTree l (js.drop (2 ^ l)) ∧
      ¬ (js.drop (2 ^ l)).map E.trunc < (js.take (2 ^ l)).map E.trunc ∧
      E.AgreeOn (E.collisionBitLength * (l + 1)) (E.hashXor st (js.take (2 ^ l)))
        (E.hashXor st (js.drop (2 ^ l))) ∧
      ¬ (E.hashXor st js = 0 ∧ isProbablyDuplicate (js.map E.trunc) = true)

/-- The index lists, possibly with repetitions, behind the rows after `l` rounds. -/
structure TruncatedTree (l : Nat) (js : List Nat) : Prop where
  length : js.length = 2 ^ l
  lt : ∀ j ∈ js, j < E.initSize
  kept : E.KeptTree st l js

/-- The index lists behind the partial solutions. -/
structure PartialSolution (js : List Nat) : Prop where
  tree : E.TruncatedTree st E.K js
  zero : E.hashXor st js = 0

variable {E} {st} {js : List Nat}

theorem truncatedTree_zero : E.TruncatedTree st 0 js ↔ ∃ j, js = [j] ∧ j < E.initSize := by
  constructor
  · intro h
    obtain ⟨j, rfl⟩ := length_eq_one_iff.mp h.length
    exact ⟨j, rfl, h.lt j (mem_singleton_self j)⟩
  · rintro ⟨j, rfl, hj⟩
    refine ⟨rfl, fun i hi => ?_, trivial⟩
    rw [mem_singleton.mp hi]
    exact hj

variable {l : Nat}

theorem truncatedTree_append {a b : List Nat} (ha : a.length = 2 ^ l) (hb : b.length = 2 ^ l) :
    E.TruncatedTree st (l + 1) (a ++ b) ↔
      E.TruncatedTree st l a ∧ E.TruncatedTree st l b ∧ ¬ b.map E.trunc < a.map E.trunc ∧
        E.AgreeOn (E.collisionBitLength * (l + 1)) (E.hashXor st a) (E.hashXor st b) ∧
        ¬ (E.hashXor st (a ++ b) = 0 ∧ isProbablyDuplicate ((a ++ b).map E.trunc) = true) := by
  have htake : (a ++ b).take (2 ^ l) = a := by rw [← ha, take_left]
  have hdrop : (a ++ b).drop (2 ^ l) = b := by rw [← ha, drop_left]
  have hlen : (a ++ b).length = 2 ^ (l + 1) := by
    rw [length_append, ha, hb, Nat.pow_succ, Nat.mul_two]
  constructor
  · intro h
    have hkept := h.kept
    rw [KeptTree, htake, hdrop] at hkept
    exact ⟨⟨ha, fun j hj => h.lt j (mem_append_left b hj), hkept.1⟩,
      ⟨hb, fun j hj => h.lt j (mem_append_right a hj), hkept.2.1⟩, hkept.2.2⟩
  · rintro ⟨h1, h2, hrest⟩
    refine ⟨hlen, fun j hj => ?_, ?_⟩
    · rcases mem_append.mp hj with hj | hj
      · exact h1.lt j hj
      · exact h2.lt j hj
    · rw [KeptTree, htake, hdrop]
      exact ⟨h1.kept, h2.kept, hrest⟩

variable {n : Nat}

theorem TruncatedTree.hashXor_lt (h : E.TruncatedTree st l js) (hln : n + l = E.K + 1) :
    E.hashXor st js < 2 ^ (E.collisionBitLength * n) := by
  cases l with
  | zero =>
    have hN : E.collisionBitLength * n = E.N := by
      rw [show n = E.K + 1 from hln, collisionBitLength_mul]
    rw [hN]
    exact Equihash.hashXor_lt js
  | succ l =>
    obtain ⟨a, b, rfl, ha, hb⟩ := exists_halves h.length
    obtain ⟨-, -, -, hagree, -⟩ := (truncatedTree_append ha hb).mp h
    exact hashXor_append_lt (by omega) hagree

/-! ## The rounds with truncated indices -/

section

variable {ι : Type} [LT ι] [DecidableEq ι] [DecidableLT ι]
  [Std.Trichotomous (· < · : ι → ι → Prop)] {f : Nat → ι} {a b : List Nat}

theorem map_join (h : ¬ b.map f < a.map f) : (join f a b).map f = (a ++ b).map f := by
  unfold join
  split
  · rfl
  next hab =>
    rw [map_append, map_append, List.le_antisymm hab h]

theorem row_join (h : ¬ b.map f < a.map f) : E.row st f n (join f a b) = E.row st f n (a ++ b) := by
  rw [row, row, hashXor_join, hashXor_append, map_join h]

end

variable (x : TruncatedStepRow)

theorem truncatedCombine_comm (y : TruncatedStepRow) :
    E.truncatedCombine x y = E.truncatedCombine y x := by
  rw [truncatedCombine, truncatedCombine, StepRow.merge_comm]

theorem truncatedFinal_comm (y : TruncatedStepRow) : truncatedFinal x y = truncatedFinal y x := by
  rw [truncatedFinal, truncatedFinal, StepRow.merge_comm]

theorem indices_merge_self (trim : Nat) : (x.merge x trim).indices = x.indices ++ x.indices := by
  exact ite_self _

theorem truncatedCombine_self : E.truncatedCombine x x = none := by
  have hzero : (x.merge x E.collisionByteLength).isZero = true := by
    rw [StepRow.isZero, StepRow.merge, all_eq_true]
    intro b hb
    obtain ⟨i, hi, rfl⟩ := mem_iff_getElem.mp (mem_of_mem_drop hb)
    rw [getElem_zipWith, UInt8.xor_self]
    rfl
  have hdup : isProbablyDuplicate (x.merge x E.collisionByteLength).indices = true := by
    rw [indices_merge_self]
    exact isProbablyDuplicate_append_self x.indices
  rw [truncatedCombine]
  simp only [hzero, hdup]
  rfl

theorem truncatedFinal_self : truncatedFinal x x = none := by
  have hdup : isProbablyDuplicate (x.merge x 0).indices = true := by
    rw [indices_merge_self]
    exact isProbablyDuplicate_append_self x.indices
  rw [truncatedFinal]
  simp only [hdup]
  rfl

theorem truncatedCombine_row {a b : List Nat}
    (hlt : E.hashXor st (join E.trunc a b) < 2 ^ (E.collisionBitLength * n))
    (x : TruncatedStepRow) :
    E.truncatedCombine (E.row st E.trunc (n + 1) a) (E.row st E.trunc (n + 1) b) = some x ↔
      ¬ (E.hashXor st (join E.trunc a b) = 0 ∧
        isProbablyDuplicate ((join E.trunc a b).map E.trunc) = true) ∧
      x = E.row st E.trunc n (join E.trunc a b) := by
  have hzero := isZero_row (f := E.trunc) hlt
  rw [truncatedCombine]
  simp only [merge_row]
  rw [← hzero]
  show (if !((E.row st E.trunc n (join E.trunc a b)).isZero &&
      isProbablyDuplicate ((join E.trunc a b).map E.trunc)) then some _ else none) = some x ↔ _
  split
  next h =>
    rw [not_eq_true', and_eq_false_iff] at h
    simp only [Option.some.injEq]
    constructor
    · rintro rfl
      refine ⟨fun hboth => ?_, rfl⟩
      rcases h with h | h
      · rw [hboth.1] at h
        cases h
      · rw [hboth.2] at h
        cases h
    · rintro ⟨-, rfl⟩
      rfl
  next h =>
    rw [not_eq_true, not_eq_false', and_eq_true] at h
    constructor
    · intro hsome
      cases hsome
    · rintro ⟨hnot, -⟩
      exact absurd h hnot

theorem hasRows_firstTruncated :
    HasRows E st E.trunc (E.K + 1) (E.TruncatedTree st 0) (E.firstList st E.truncatedStepRow) := by
  intro x
  rw [firstList_eq, mem_map]
  constructor
  · rintro ⟨i, hi, rfl⟩
    exact ⟨[i], truncatedTree_zero.mpr ⟨i, rfl, mem_range.mp hi⟩, truncatedStepRow_eq i⟩
  · rintro ⟨js, htree, rfl⟩
    obtain ⟨j, rfl, hj⟩ := truncatedTree_zero.mp htree
    exact ⟨j, mem_range.mpr hj, truncatedStepRow_eq j⟩

theorem truncatedTree_join (hln : n + l = E.K) {a b : List Nat} (ha : E.TruncatedTree st l a)
    (hb : E.TruncatedTree st l b) (heq : E.hashXor st a >>> (E.collisionBitLength * n) =
      E.hashXor st b >>> (E.collisionBitLength * n))
    (hkeep : ¬ (E.hashXor st (join E.trunc a b) = 0 ∧
      isProbablyDuplicate ((join E.trunc a b).map E.trunc) = true)) :
    E.TruncatedTree st (l + 1) (join E.trunc a b) := by
  have hagree := (agreeOn_iff hln _ _).mpr heq
  unfold join at hkeep ⊢
  split
  next hlt =>
    rw [if_pos hlt] at hkeep
    exact (truncatedTree_append ha.length hb.length).mpr
      ⟨ha, hb, List.lt_asymm hlt, hagree, hkeep⟩
  next hge =>
    rw [if_neg hge] at hkeep
    exact (truncatedTree_append hb.length ha.length).mpr
      ⟨hb, ha, hge, Eq.symm hagree, hkeep⟩

theorem truncatedStep (hln : n + l = E.K) (x : TruncatedStepRow) :
    (∃ a b, E.TruncatedTree st l a ∧ E.TruncatedTree st l b ∧
      E.hashXor st a >>> (E.collisionBitLength * n) =
        E.hashXor st b >>> (E.collisionBitLength * n) ∧
      E.truncatedCombine (E.row st E.trunc (n + 1) a) (E.row st E.trunc (n + 1) b) = some x) ↔
      ∃ js, E.TruncatedTree st (l + 1) js ∧ x = E.row st E.trunc n js := by
  have hlt : ∀ {a b}, E.hashXor st a >>> (E.collisionBitLength * n) =
      E.hashXor st b >>> (E.collisionBitLength * n) →
      E.hashXor st (join E.trunc a b) < 2 ^ (E.collisionBitLength * n) := by
    intro a b heq
    rw [hashXor_join]
    exact xor_lt_of_shiftRight_eq heq
  constructor
  · rintro ⟨a, b, ha, hb, heq, hsome⟩
    obtain ⟨hkeep, rfl⟩ := (truncatedCombine_row (hlt heq) x).mp hsome
    exact ⟨join E.trunc a b, truncatedTree_join hln ha hb heq hkeep, rfl⟩
  · rintro ⟨js, htree, rfl⟩
    obtain ⟨a, b, rfl, ha, hb⟩ := exists_halves htree.length
    obtain ⟨hta, htb, horder, hagree, hkeep⟩ := (truncatedTree_append ha hb).mp htree
    have heq := (agreeOn_iff hln _ _).mp hagree
    refine ⟨a, b, hta, htb, heq, (truncatedCombine_row (hlt heq) _).mpr ⟨?_, (row_join horder).symm⟩⟩
    rw [map_join horder, hashXor_join, ← hashXor_append]
    exact hkeep

theorem hasRows_truncated (sort : RowSort UInt8) {k : Nat} (hk : E.K = k + 1) :
    HasRows E st E.trunc 2 (E.TruncatedTree st k)
      (E.rounds sort E.truncatedCombine k (E.firstList st E.truncatedStepRow)) := by
  have hrun := hasRows_rounds (E := E) (f := E.trunc) (T := E.TruncatedTree st)
    sort (fun l n js hln h => h.hashXor_lt hln)
    truncatedCombine_comm (fun l n js _ => truncatedCombine_self _)
    (fun l n hln _ => truncatedStep hln) (m := k) (l := 0) (n := 2) (by omega) (by omega)
    (X := E.firstList st E.truncatedStepRow)
  have hn : 2 + k = E.K + 1 := by omega
  rw [hn] at hrun
  exact hrun hasRows_firstTruncated

theorem mem_partialSolutions (sort : RowSort UInt8) (p : List UInt8) :
    p ∈ E.partialSolutions st sort ↔ ∃ js, E.PartialSolution st js ∧ p = js.map E.trunc := by
  obtain ⟨k, hk⟩ := Nat.exists_eq_add_one.mpr E.k_pos
  have hpred : E.K - 1 = k := by omega
  have hindices : ∀ a b, ((E.row st E.trunc 2 a).merge (E.row st E.trunc 2 b) 0).indices =
      (join E.trunc a b).map E.trunc := by
    intro a b
    rw [StepRow.merge, join]
    show (if decide (a.map E.trunc < b.map E.trunc) = true then _ else _) = _
    simp only [decide_eq_true_eq]
    split
    · exact map_append.symm
    · exact map_append.symm
  rw [partialSolutions, hpred, mem_finalRound sort (hasRows_truncated sort hk)
    (fun js h => h.hashXor_lt (by omega)) truncatedFinal_comm (fun js _ => truncatedFinal_self _)]
  simp only [truncatedFinal, hindices]
  constructor
  · rintro ⟨a, b, ha, hb, heq, hsome⟩
    split at hsome
    next hdup =>
      have hzero : E.hashXor st (join E.trunc a b) = 0 := by
        rw [hashXor_join, heq, Nat.xor_self]
      refine ⟨join E.trunc a b, ⟨?_, hzero⟩, (Option.some.inj hsome).symm⟩
      rw [hk]
      refine truncatedTree_join (n := 1) (by omega) ha hb (by rw [heq]) fun hboth => ?_
      rw [hboth.2] at hdup
      cases hdup
    · cases hsome
  · rintro ⟨js, ⟨htree, hzero⟩, rfl⟩
    rw [hk] at htree
    obtain ⟨a, b, rfl, ha, hb⟩ := exists_halves htree.length
    obtain ⟨hta, htb, horder, -, hkeep⟩ := (truncatedTree_append ha hb).mp htree
    have hdup : isProbablyDuplicate ((a ++ b).map E.trunc) = false :=
      eq_false_iff.mpr fun h => hkeep ⟨hzero, h⟩
    rw [hashXor_append] at hzero
    refine ⟨a, b, hta, htb, Nat.xor_eq_zero_iff.mp hzero, ?_⟩
    rw [map_join horder, hdup]
    rfl

end Equihash

end Rcoin
