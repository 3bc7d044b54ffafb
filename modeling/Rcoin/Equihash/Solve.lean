/-
  `BasicSolve` finds exactly the minimal solutions that `IsValidSolution`
  accepts: after `l` rounds the table holds the rows of the full trees of that
  height, and the last round joins those whose XORs are the same.
-/
import Rcoin.Equihash.Rounds
import Rcoin.Equihash.Verify

namespace Rcoin

open Digits List StepRow

namespace Equihash

variable {E : Equihash} {st : HashState E}

/-! ## Solutions as strings -/

theorem isValidSolution_iff_exists (soln : List UInt8) :
    E.isValidSolution st soln = true ↔
      ∃ is, E.IsSolution st is ∧ (∀ i ∈ is, i < E.initSize) ∧
        soln = getMinimalFromIndices is E.collisionBitLength := by
  have h8 : 8 ≤ E.collisionBitLength + 1 := Nat.le_succ_of_le E.collisionBitLength_ge
  have h25 : E.collisionBitLength + 1 ≤ 25 := Nat.succ_le_succ E.collisionBitLength_le
  constructor
  · intro h
    have hlen := length_of_isValidSolution h
    have hsol := (isValidSolution_iff_indices hlen).mp h
    refine ⟨E.solutionIndices soln, hsol, fun i hi => lt_of_mem_digits hi, ?_⟩
    rw [← getIndicesFromMinimal_solution hlen]
    exact (getMinimalFromIndices_getIndicesFromMinimal h8 h25 (n := 2 ^ E.K)
      (by rw [hlen, solutionWidth_eq])).symm
  · rintro ⟨is, hsol, hlt, rfl⟩
    obtain ⟨hlen, hback⟩ := getIndicesFromMinimal_getMinimalFromIndices h8 h25 hlt
      (by rw [hsol.length, solutionWidth_eq])
    rw [isValidSolution_iff_indices hlen, ← getIndicesFromMinimal_solution hlen, hback]
    exact hsol

variable {is : List Nat}

theorem getMinimalFromIndices_inj {js : List Nat} (his : is.length = 2 ^ E.K)
    (hjs : js.length = 2 ^ E.K) (hilt : ∀ i ∈ is, i < E.initSize) (hjlt : ∀ j ∈ js, j < E.initSize)
    (h : getMinimalFromIndices is E.collisionBitLength =
      getMinimalFromIndices js E.collisionBitLength)
    : is = js := by
  have h8 : 8 ≤ E.collisionBitLength + 1 := Nat.le_succ_of_le E.collisionBitLength_ge
  have h25 : E.collisionBitLength + 1 ≤ 25 := Nat.succ_le_succ E.collisionBitLength_le
  have hi := (getIndicesFromMinimal_getMinimalFromIndices h8 h25 hilt
    (by rw [his, solutionWidth_eq])).2
  have hj := (getIndicesFromMinimal_getMinimalFromIndices h8 h25 hjlt
    (by rw [hjs, solutionWidth_eq])).2
  rw [← hi, h, hj]

/-! ## Trees that are joined -/

variable {a b : List Nat}

theorem mem_join {ι : Type} [LT ι] [DecidableEq ι] [DecidableLT ι] {f : Nat → ι} {i : Nat}
    : i ∈ join f a b ↔ i ∈ a ∨ i ∈ b := by
  unfold join
  split
  · exact mem_append
  · rw [mem_append, or_comm]

variable {l : Nat}

theorem join_fullTrees (ha : FullTree E st l a) (hb : FullTree E st l b) (hdis : a.Disjoint b) :
    join id a b = if a.headD 0 < b.headD 0 then a ++ b else b ++ a := by
  have hiff := lt_iff_headD_lt ha.ne_nil hb.ne_nil hdis
  rw [join, map_id, map_id]
  by_cases hlt : a < b
  · rw [if_pos hlt, if_pos (hiff.mp hlt)]
  · rw [if_neg hlt, if_neg fun h => hlt (hiff.mpr h)]

theorem fullTree_join (ha : FullTree E st l a) (hb : FullTree E st l b) (hdis : a.Disjoint b)
    (hagree : E.AgreeOn (E.collisionBitLength * (l + 1)) (E.hashXor st a) (E.hashXor st b)) :
    FullTree E st (l + 1) (join id a b) := by
  rw [join_fullTrees ha hb hdis]
  split
  next hlt => exact (fullTree_append ha.length hb.length).mpr ⟨ha, hb, hdis, hlt, hagree⟩
  next hge =>
    have hne := headD_ne ha.ne_nil hb.ne_nil hdis
    exact (fullTree_append hb.length ha.length).mpr
      ⟨hb, ha, hdis.symm, by omega, Eq.symm hagree⟩

theorem FullTree.exists_join (h : FullTree E st (l + 1) is) :
    ∃ a b, FullTree E st l a ∧ FullTree E st l b ∧ a.Disjoint b ∧ join id a b = is ∧
      E.AgreeOn (E.collisionBitLength * (l + 1)) (E.hashXor st a) (E.hashXor st b) := by
  obtain ⟨a, b, rfl, ha, hb⟩ := exists_halves h.length
  obtain ⟨hta, htb, hdis, hlt, hagree⟩ := (fullTree_append ha hb).mp h
  refine ⟨a, b, hta, htb, hdis, ?_, hagree⟩
  rw [join_fullTrees hta htb hdis, if_pos hlt]

theorem isSolution_join {k : Nat} (hk : E.K = k + 1) (ha : FullTree E st k a)
    (hb : FullTree E st k b) (hdis : a.Disjoint b) (heq : E.hashXor st a = E.hashXor st b) :
    E.IsSolution st (join id a b) := by
  have htree := fullTree_join ha hb hdis (by rw [heq]; rfl)
  rw [isSolution_iff, hk, hashXor_join, heq, Nat.xor_self]
  exact ⟨htree, rfl⟩

theorem IsSolution.exists_join {k : Nat} (hk : E.K = k + 1) (h : E.IsSolution st is) :
    ∃ a b, FullTree E st k a ∧ FullTree E st k b ∧ a.Disjoint b ∧ join id a b = is ∧
      E.hashXor st a = E.hashXor st b := by
  rw [isSolution_iff, hk] at h
  obtain ⟨a, b, ha, hb, hdis, rfl, -⟩ := h.1.exists_join
  have hzero := h.2
  rw [hashXor_join] at hzero
  exact ⟨a, b, ha, hb, hdis, rfl, Nat.xor_eq_zero_iff.mp hzero⟩

/-! ## The rounds of `BasicSolve` -/

theorem basicCombine_comm (x y : FullStepRow) : E.basicCombine x y = E.basicCombine y x := by
  rw [basicCombine, basicCombine, distinctIndices_comm, merge_comm]

theorem basicFinal_comm (x y : FullStepRow) : E.basicFinal x y = E.basicFinal y x := by
  show (if _ then some (E.getIndices (x.merge y 0)) else none) = _
  rw [distinctIndices_comm, merge_comm]
  rfl

variable {n : Nat}

theorem distinctIndices_row :
    (E.row st id n a).distinctIndices (E.row st id n b) = true ↔ a.Disjoint b := by
  rw [distinctIndices_iff, indices_row_id, indices_row_id]

theorem not_distinctIndices_self (h : FullTree E st l is) :
    ¬ (E.row st id n is).distinctIndices (E.row st id n is) = true := by
  rw [distinctIndices_row]
  intro hdis
  obtain ⟨i, hi⟩ := exists_mem_of_ne_nil is h.ne_nil
  exact hdis hi hi

theorem basicCombine_row (x : FullStepRow) :
    E.basicCombine (E.row st id (n + 1) a) (E.row st id (n + 1) b) = some x ↔
      a.Disjoint b ∧ x = E.row st id n (join id a b) := by
  rw [basicCombine, merge_row]
  split
  next h => simp [distinctIndices_row.mp h, eq_comm]
  next h =>
    rw [distinctIndices_row] at h
    simp [h]

theorem indices_merge_row (trim : Nat) :
    ((E.row st id n a).merge (E.row st id n b) trim).indices = join id a b := by
  rw [StepRow.merge]
  simp only [indicesBefore, indices_row_id, decide_eq_true_eq, join, map_id]

/-- The lists whose rows the table holds after `l` rounds. -/
def BasicTree (E : Equihash) (st : HashState E) (l : Nat) (is : List Nat) : Prop :=
  FullTree E st l is ∧ ∀ i ∈ is, i < E.initSize

theorem hasRows_firstList :
    HasRows E st id (E.K + 1) (BasicTree E st 0) (E.firstList st E.fullStepRow) := by
  intro x
  rw [firstList_eq, mem_map]
  constructor
  · rintro ⟨i, hi, rfl⟩
    refine ⟨[i], ⟨fullTree_zero.mpr ⟨i, rfl⟩, fun j hj => ?_⟩, fullStepRow_eq i⟩
    rw [mem_singleton.mp hj]
    exact mem_range.mp hi
  · rintro ⟨is, ⟨htree, hlt⟩, rfl⟩
    obtain ⟨i, rfl⟩ := fullTree_zero.mp htree
    exact ⟨i, mem_range.mpr (hlt i (mem_singleton_self i)), fullStepRow_eq i⟩

theorem basicStep (hln : n + l = E.K) (x : FullStepRow) :
    (∃ a b, BasicTree E st l a ∧ BasicTree E st l b ∧
      E.hashXor st a >>> (E.collisionBitLength * n) =
        E.hashXor st b >>> (E.collisionBitLength * n) ∧
      E.basicCombine (E.row st id (n + 1) a) (E.row st id (n + 1) b) = some x) ↔
      ∃ is, BasicTree E st (l + 1) is ∧ x = E.row st id n is := by
  constructor
  · rintro ⟨a, b, ⟨ha, halt⟩, ⟨hb, hblt⟩, heq, hsome⟩
    obtain ⟨hdis, rfl⟩ := (basicCombine_row x).mp hsome
    refine ⟨join id a b, ⟨fullTree_join ha hb hdis ((agreeOn_iff hln _ _).mpr heq), ?_⟩, rfl⟩
    intro i hi
    rcases mem_join.mp hi with hi | hi
    · exact halt i hi
    · exact hblt i hi
  · rintro ⟨is, ⟨htree, hlt⟩, rfl⟩
    obtain ⟨a, b, ha, hb, hdis, rfl, hagree⟩ := htree.exists_join
    exact ⟨a, b, ⟨ha, fun i hi => hlt i (mem_join.mpr (.inl hi))⟩,
      ⟨hb, fun i hi => hlt i (mem_join.mpr (.inr hi))⟩, (agreeOn_iff hln _ _).mp hagree,
      (basicCombine_row _).mpr ⟨hdis, rfl⟩⟩

theorem hasRows_basic (sort : RowSort Nat) {k : Nat} (hk : E.K = k + 1) :
    HasRows E st id 2 (BasicTree E st k)
      (E.rounds sort E.basicCombine k (E.firstList st E.fullStepRow)) := by
  have hrun := hasRows_rounds (E := E) (f := id) (T := BasicTree E st)
    sort (fun l n is hln h => h.1.hashXor_lt hln) basicCombine_comm
    (fun l n is h => if_neg (not_distinctIndices_self h.1)) (fun l n hln _ => basicStep hln)
    (m := k) (l := 0) (n := 2) (by omega) (by omega)
    (X := E.firstList st E.fullStepRow)
  have hn : 2 + k = E.K + 1 := by omega
  rw [hn] at hrun
  exact hrun hasRows_firstList

theorem mem_basicSolve_iff (sort : RowSort Nat) (soln : List UInt8) :
    soln ∈ E.basicSolve st sort ↔
      ∃ is, E.IsSolution st is ∧ (∀ i ∈ is, i < E.initSize) ∧
        soln = getMinimalFromIndices is E.collisionBitLength := by
  obtain ⟨k, hk⟩ := Nat.exists_eq_add_one.mpr E.k_pos
  have hrows := @hasRows_basic E st sort k hk
  have hpred : E.K - 1 = k := by omega
  rw [basicSolve, hpred, mem_finalRound sort hrows
    (fun is h => h.1.hashXor_lt (by omega)) basicFinal_comm
    (fun is h => if_neg (not_distinctIndices_self h.1))]
  constructor
  · rintro ⟨a, b, ⟨ha, halt⟩, ⟨hb, hblt⟩, heq, hsome⟩
    rw [basicFinal] at hsome
    split at hsome
    next hd =>
      have hdis := distinctIndices_row.mp hd
      refine ⟨join id a b, isSolution_join hk ha hb hdis heq, ?_, ?_⟩
      · intro i hi
        rcases mem_join.mp hi with hi | hi
        · exact halt i hi
        · exact hblt i hi
      · rw [← Option.some.inj hsome, getIndices, indices_merge_row]
    · cases hsome
  · rintro ⟨is, hsol, hlt, rfl⟩
    obtain ⟨a, b, ha, hb, hdis, rfl, heq⟩ := hsol.exists_join hk
    refine ⟨a, b, ⟨ha, fun i hi => hlt i (mem_join.mpr (.inl hi))⟩,
      ⟨hb, fun i hi => hlt i (mem_join.mpr (.inr hi))⟩, heq, ?_⟩
    show (if _ then some (E.getIndices _) else none) = _
    rw [if_pos (distinctIndices_row.mpr hdis), getIndices, indices_merge_row]

/-- `BasicSolve` passes the strings on that `IsValidSolution` accepts, and no
    others. -/
theorem mem_basicSolve (E : Equihash) (st : HashState E) (sort : RowSort Nat)
    (soln : List UInt8) :
    soln ∈ E.basicSolve st sort ↔ E.isValidSolution st soln = true := by
  rw [mem_basicSolve_iff, isValidSolution_iff_exists]

end Equihash

end Rcoin
