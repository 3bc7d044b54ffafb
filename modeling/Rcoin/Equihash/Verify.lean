/-
  `IsValidSolution` accepts exactly the minimal solutions.  The verifier goes
  through the rows level by level; a level over two halves is the level over
  each of them, so the rows that are left after `l` levels are the full trees of
  that height.
-/
import Rcoin.Equihash.Trees

namespace Rcoin

open Digits List

namespace Equihash

variable (E : Equihash) (st : HashState E)

/-! ## Levels -/

/-- The rows after `l` passes. -/
def levels : Nat → List FullStepRow → Option (List FullStepRow)
  | 0, X => some X
  | l + 1, X => (E.verifyPairs X).bind (levels l)

variable {E} {st}

variable {X : List FullStepRow}

theorem length_verifyPairs {Y : List FullStepRow} (h : E.verifyPairs X = some Y) :
    Y.length = X.length / 2 := by
  fun_induction verifyPairs E X generalizing Y with
  | case1 => cases h
  | case2 => cases h
  | case3 => cases h
  | case4 a b rest hcoll hbefore hdistinct ih =>
    obtain ⟨Z, hZ, rfl⟩ := Option.map_eq_some_iff.mp h
    rw [length_cons, ih hZ, length_cons, length_cons]
    omega
  | case5 X hshort =>
    -- fewer than two rows
    cases h
    match X, hshort with
    | [], _ => rfl
    | [_], _ => simp
    | a :: b :: rest, hshort => exact absurd rfl (hshort a b rest)

theorem verifyPairs_append (hX : 2 ∣ X.length) (Y : List FullStepRow) : E.verifyPairs (X ++ Y) =
      (E.verifyPairs X).bind fun x => (E.verifyPairs Y).map (x ++ ·) := by
  fun_induction verifyPairs E X with
  | case1 a b rest hcoll => simp [verifyPairs, hcoll]
  | case2 a b rest hcoll hbefore => simp [verifyPairs, hcoll, hbefore]
  | case3 a b rest hcoll hbefore hdistinct => simp [verifyPairs, hcoll, hbefore, hdistinct]
  | case4 a b rest hcoll hbefore hdistinct ih =>
    have hrest : 2 ∣ rest.length := by
      rw [length_cons, length_cons] at hX
      omega
    rw [cons_append, cons_append, verifyPairs, if_neg hcoll, if_neg hbefore,
      if_neg hdistinct, ih hrest]
    cases hrows : E.verifyPairs rest with
    | none => rfl
    | some x => cases E.verifyPairs Y <;> rfl
  | case5 X hshort =>
    match X, hshort with
    | [], _ => cases hY : E.verifyPairs Y <;> simp [hY]
    | [_], _ =>
      rw [length_singleton] at hX
      omega
    | a :: b :: rest, hshort => exact absurd rfl (hshort a b rest)

variable {l : Nat}

theorem levels_append (hX : 2 ^ l ∣ X.length) (Y : List FullStepRow) :
    E.levels l (X ++ Y) = (E.levels l X).bind fun x => (E.levels l Y).map (x ++ ·) := by
  induction l generalizing X Y with
  | zero => rfl
  | succ l ih =>
    have htwo : 2 ∣ X.length := Nat.dvd_trans (Nat.dvd_mul_left 2 (2 ^ l)) hX
    rw [levels, levels, levels, verifyPairs_append htwo]
    cases hx : E.verifyPairs X with
    | none => rfl
    | some x =>
      have hdvd : 2 ^ l ∣ x.length := by
        rw [length_verifyPairs hx]
        exact Nat.dvd_div_of_mul_dvd (by rw [Nat.mul_comm]; exact hX)
      cases hy : E.verifyPairs Y with
      | none => cases hl : E.levels l x <;> simp [hl]
      | some y => exact ih hdvd y

theorem levels_succ (l : Nat) (X : List FullStepRow) :
    E.levels (l + 1) X = (E.levels l X).bind E.verifyPairs := by
  induction l generalizing X with
  | zero =>
    show (E.verifyPairs X).bind some = E.verifyPairs X
    cases E.verifyPairs X <;> rfl
  | succ l ih =>
    show (E.verifyPairs X).bind (E.levels (l + 1)) =
      ((E.verifyPairs X).bind (E.levels l)).bind E.verifyPairs
    rw [Option.bind_assoc]
    exact Option.bind_congr fun Y _ => ih Y

theorem verifyLoop_eq {passes : Nat} (hpasses : l ≤ passes) (hX : X.length = 2 ^ l)
    : E.verifyLoop passes X = E.levels l X := by
  induction l generalizing passes X with
  | zero =>
    have hone : ¬ X.length > 1 := by
      rw [hX]
      decide
    cases passes <;> exact if_neg hone
  | succ l ih =>
    have hmany : X.length > 1 := by
      rw [hX]
      exact Nat.one_lt_two_pow (Nat.succ_ne_zero l)
    cases passes with
    | zero => omega
    | succ passes =>
      rw [verifyLoop, if_pos hmany, levels]
      refine Option.bind_congr fun Y hY => ih (Nat.le_of_succ_le_succ hpasses) ?_
      rw [length_verifyPairs hY, hX, Nat.pow_succ, Nat.mul_div_cancel _ (by decide)]

/-! ## The rows of full trees -/

@[simp] theorem indices_row_id (n : Nat) (is : List Nat) : (E.row st id n is).indices = is :=
  List.map_id is

variable {n : Nat}

theorem verifyPairs_rows (hln : n + l = E.K) {a b : List Nat} (ha : FullTree E st l a)
    (hb : FullTree E st l b) (Y : List FullStepRow) :
    E.verifyPairs [E.row st id (n + 1) a, E.row st id (n + 1) b] = some Y ↔
      FullTree E st (l + 1) (a ++ b) ∧ Y = [E.row st id n (a ++ b)] := by
  have hcoll := hasCollision_row (f := id) (ha.hashXor_lt (n := n + 1) (by omega))
    (hb.hashXor_lt (n := n + 1) (by omega))
  have hdistinct : (E.row st id (n + 1) a).distinctIndices (E.row st id (n + 1) b) = true ↔
      a.Disjoint b := by
    rw [distinctIndices_iff, indices_row_id, indices_row_id]
  have hbefore : (E.row st id (n + 1) b).indicesBefore (E.row st id (n + 1) a) = true ↔ b < a := by
    rw [StepRow.indicesBefore, decide_eq_true_iff, indices_row_id, indices_row_id]
  have horder : a.Disjoint b → (¬ b < a ↔ a.headD 0 < b.headD 0) := by
    intro hdis
    rw [lt_iff_headD_lt hb.ne_nil ha.ne_nil hdis.symm]
    have hne := headD_ne ha.ne_nil hb.ne_nil hdis
    omega
  have hmerge : a.Disjoint b → a.headD 0 < b.headD 0 →
      (E.row st id (n + 1) a).merge (E.row st id (n + 1) b) E.collisionByteLength =
        E.row st id n (a ++ b) := by
    intro hdis hlt
    rw [merge_row, join, List.map_id, List.map_id,
      if_pos ((lt_iff_headD_lt ha.ne_nil hb.ne_nil hdis).mpr hlt)]
  rw [fullTree_append ha.length hb.length, agreeOn_iff hln, ← hcoll, verifyPairs]
  constructor
  · intro h
    split at h
    · cases h
    next hc =>
      split at h
      · cases h
      next hord =>
        split at h
        · cases h
        next hdis =>
          have hdis' := hdistinct.mp (by simpa using hdis)
          have hlt := (horder hdis').mp fun hba => hord (hbefore.mpr hba)
          cases h
          exact ⟨⟨ha, hb, hdis', hlt, by simpa using hc⟩, by rw [hmerge hdis' hlt]⟩
  · rintro ⟨⟨-, -, hdis, hlt, hc⟩, rfl⟩
    have hord : ¬ (E.row st id (n + 1) b).indicesBefore (E.row st id (n + 1) a) = true :=
      fun h => (horder hdis).mpr hlt (hbefore.mp h)
    rw [if_neg (by simp [hc]), if_neg hord, if_neg (by simp [hdistinct.mpr hdis]), hmerge hdis hlt]
    rfl

/-- The first rows of a solution. -/
def leafRows (E : Equihash) (st : HashState E) (is : List Nat) : List FullStepRow :=
  is.map fun i => E.row st id (E.K + 1) [i]

theorem levels_leafRows (hln : n + l = E.K + 1) {is : List Nat} (his : is.length = 2 ^ l)
    (Y : List FullStepRow) :
    E.levels l (leafRows E st is) = some Y ↔ FullTree E st l is ∧ Y = [E.row st id n is] := by
  induction l generalizing n is Y with
  | zero =>
    obtain ⟨i, rfl⟩ := length_eq_one_iff.mp his
    obtain rfl : n = E.K + 1 := hln
    constructor
    · rintro ⟨⟩
      exact ⟨fullTree_zero.mpr ⟨i, rfl⟩, rfl⟩
    · rintro ⟨-, rfl⟩
      rfl
  | succ l ih =>
    obtain ⟨a, b, rfl, ha, hb⟩ := exists_halves his
    have hln' : n + 1 + l = E.K + 1 := by omega
    have hdvd : 2 ^ l ∣ (leafRows E st a).length := by
      rw [leafRows, length_map, ha]
    have hleaf : leafRows E st (a ++ b) = leafRows E st a ++ leafRows E st b := map_append
    rw [levels_succ, hleaf, levels_append hdvd]
    constructor
    · intro h
      obtain ⟨rows, hrows, hpairs⟩ := Option.bind_eq_some_iff.mp h
      obtain ⟨rowsA, hA, hmap⟩ := Option.bind_eq_some_iff.mp hrows
      obtain ⟨rowsB, hB, rfl⟩ := Option.map_eq_some_iff.mp hmap
      obtain ⟨htreeA, rfl⟩ := (ih hln' ha rowsA).mp hA
      obtain ⟨htreeB, rfl⟩ := (ih hln' hb rowsB).mp hB
      exact (verifyPairs_rows (by omega) htreeA htreeB Y).mp hpairs
    · rintro ⟨htree, rfl⟩
      obtain ⟨htreeA, htreeB, -⟩ := (fullTree_append ha hb).mp htree
      rw [(ih hln' ha _).mpr ⟨htreeA, rfl⟩, (ih hln' hb _).mpr ⟨htreeB, rfl⟩]
      exact (verifyPairs_rows (by omega) htreeA htreeB _).mpr ⟨htree, rfl⟩

/-! ## `IsValidSolution` -/

theorem isZero_row {ι : Type} {f : Nat → ι} {is : List Nat}
    (h : E.hashXor st is < 2 ^ (E.collisionBitLength * n)) :
    (E.row st f n is).isZero = true ↔ E.hashXor st is = 0 := by
  rw [StepRow.isZero, row, rowHash_eq_zero, Nat.mod_eq_of_lt h]

theorem isSolution_iff (is : List Nat) :
    E.IsSolution st is ↔ FullTree E st E.K is ∧ E.hashXor st is = 0 := by
  constructor
  · intro h
    exact ⟨⟨h.length, h.distinct, h.tree⟩, h.zero⟩
  · rintro ⟨h, hzero⟩
    exact ⟨h.length, h.distinct, h.tree, hzero⟩

variable (E) in
/-- The indices that a byte string stands for. -/
def solutionIndices (soln : List UInt8) : List Nat :=
  digits (E.collisionBitLength + 1) (2 ^ E.K) (ofBytes soln)

variable {soln : List UInt8}

theorem getIndicesFromMinimal_solution (hlen : soln.length = E.solutionWidth) :
    getIndicesFromMinimal soln E.collisionBitLength = E.solutionIndices soln := by
  apply getIndicesFromMinimal_eq (Nat.le_succ_of_le E.collisionBitLength_ge)
    (Nat.succ_le_succ E.collisionBitLength_le)
  rw [hlen, solutionWidth_eq]

theorem isValidSolution_iff_indices (hlen : soln.length = E.solutionWidth) :
    E.isValidSolution st soln = true ↔ E.IsSolution st (E.solutionIndices soln) := by
  have hcount : (E.solutionIndices soln).length = 2 ^ E.K := length_digits _ _ _
  have hrows : ((getIndicesFromMinimal soln E.collisionBitLength).map fun i =>
      E.fullStepRow (E.hashPart (st.generateHash (i / E.indicesPerHashOutput))
        (i % E.indicesPerHashOutput)) i) = leafRows E st (E.solutionIndices soln) := by
    rw [getIndicesFromMinimal_solution hlen, leafRows]
    exact map_congr_left fun i _ => fullStepRow_eq i
  have hlength : (leafRows E st (E.solutionIndices soln)).length = 2 ^ E.K := by
    rw [leafRows, length_map, hcount]
  have hlevels := @levels_leafRows E st E.K 1 (Nat.add_comm _ _) _ hcount
  rw [isValidSolution, if_neg (by simp [hlen])]
  simp only [hrows]
  rw [verifyLoop_eq (l := E.K) (hlength ▸ Nat.lt_two_pow_self.le) hlength, isSolution_iff]
  constructor
  · intro h
    split at h
    next row rest hrun =>
      obtain ⟨htree, hrow⟩ := (hlevels _).mp hrun
      cases hrow
      exact ⟨htree, (isZero_row (htree.hashXor_lt (Nat.add_comm _ _))).mp h⟩
    · cases h
  · rintro ⟨htree, hzero⟩
    rw [(hlevels _).mpr ⟨htree, rfl⟩]
    exact (isZero_row (htree.hashXor_lt (Nat.add_comm _ _))).mpr hzero

theorem length_of_isValidSolution (h : E.isValidSolution st soln = true) :
    soln.length = E.solutionWidth := by
  by_contra hne
  rw [isValidSolution, if_pos (by simpa using hne)] at h
  cases h

/-- The verifier accepts the strings of the right length whose indices are a
    solution. -/
theorem isValidSolution_iff (E : Equihash) (st : HashState E) (soln : List UInt8) :
    E.isValidSolution st soln = true ↔
      soln.length = E.solutionWidth ∧ E.IsSolution st (E.solutionIndices soln) := by
  constructor
  · intro h
    have hlen := length_of_isValidSolution h
    exact ⟨hlen, (isValidSolution_iff_indices hlen).mp h⟩
  · rintro ⟨hlen, h⟩
    exact (isValidSolution_iff_indices hlen).mpr h

end Equihash

end Rcoin
