/-
  `transform` of the hasher is Keccak-f[1600] on the bits of its words
  (src/crypto/sha3_256.cpp).
-/
import Rcoin.Crypto.Sha3
import Rcoin.Lib.Keccak

namespace Rcoin

open Keccak

namespace Sha3

/-! ## Rotation -/

theorem toBitVec_rotateLeft (x : UInt64) {n : Nat} (hn : n < 64) :
    (rotateLeft x n).toBitVec = x.toBitVec.rotateLeft n := by
  have hleft : ((UInt64.ofNat n).toBitVec % 64).toNat = n := by
    simp
    omega
  rw [rotateLeft, UInt64.toBitVec_or, UInt64.toBitVec_shiftLeft, UInt64.toBitVec_shiftRight,
    BitVec.rotateLeft_def, Nat.mod_eq_of_lt hn, BitVec.shiftLeft_eq', BitVec.ushiftRight_eq', hleft]
  rcases Nat.eq_zero_or_pos n with rfl | hpos
  · -- a shift by 64 is one by 0 here, and what is left is the word itself
    have hright : ((UInt64.ofNat (64 - 0)).toBitVec % 64).toNat = 0 := by decide
    ext i hi
    simp
  · have hright : ((UInt64.ofNat (64 - n)).toBitVec % 64).toNat = 64 - n := by
      simp
      omega
    rw [hright]

theorem getLsbD_rotateLeft (x : UInt64) {n : Nat} (hn : n < 64) (z : Fin 64) :
    (rotateLeft x n).toBitVec.getLsbD z.val =
      x.toBitVec.getLsbD (z - Fin.ofNat 64 n).val := by
  have hval : (Fin.ofNat 64 n).val = n := Nat.mod_eq_of_lt hn
  have hz := z.isLt
  rw [toBitVec_rotateLeft x hn, BitVec.getLsbD_rotateLeft, Fin.val_sub, Nat.mod_eq_of_lt hn, hval]
  by_cases hlt : z.val < n
  · have hidx : (64 - n + z.val) % 64 = 64 - n + z.val := Nat.mod_eq_of_lt (by omega)
    rw [hidx]
    simp [hlt]
  · have hidx : (64 - n + z.val) % 64 = z.val - n := by omega
    rw [hidx]
    simp [hlt, hz]

/-! ## The words of a round -/

/-- The word at `x` and `y`. -/
def wordAt (A : Vector UInt64 25) (x y : Fin 5) : UInt64 := A.get ⟨5 * y.val + x.val, by omega⟩

/-- The bits of the 25 words, as a state. -/
def toState (A : Vector UInt64 25) : State := fun x y z =>
  (wordAt A x y).toBitVec.getLsbD z.val

variable (A B : Vector UInt64 25) (C D : Vector UInt64 5)

variable (x : Fin 5)

theorem columns_get : (columns A).get x =
    wordAt A x 0 ^^^ wordAt A x 1 ^^^ wordAt A x 2 ^^^ wordAt A x 3 ^^^ wordAt A x 4 := by
  fin_cases x <;> rfl

theorem mixed_get : (mixed C).get x =
    C.get (x - 1) ^^^ rotateLeft (C.get (x + 1)) 1 := by
  fin_cases x <;> rfl

theorem combined_wordAt (y : Fin 5) : wordAt (combined B) x y =
    wordAt B x y ^^^ (~~~wordAt B (x + 1) y &&& wordAt B (x + 2) y) := by
  fin_cases x <;> fin_cases y <;> rfl

theorem rotateLeft_zero (x : UInt64) : rotateLeft x 0 = x := by
  apply UInt64.eq_of_toBitVec_eq
  rw [toBitVec_rotateLeft x (by decide)]
  ext i hi
  simp

theorem rotated_wordAt (y : Fin 5) : wordAt (rotated A D) x y =
    rotateLeft (wordAt A (x + 3 * y) x ^^^ D.get (x + 3 * y))
      (Keccak.rotation (x + 3 * y) x) := by
  fin_cases x <;> fin_cases y
  · exact (rotateLeft_zero _).symm
  all_goals rfl

/-! ## A round -/

theorem getLsbD_columns (z : Fin 64) :
    ((columns A).get x).toBitVec.getLsbD z.val = parity (toState A) x z := by
  rw [columns_get]
  simp only [UInt64.toBitVec_xor, BitVec.getLsbD_xor]
  rfl

theorem getLsbD_mixed (z : Fin 64) : ((mixed (columns A)).get x).toBitVec.getLsbD z.val =
      (parity (toState A) (x - 1) z ^^ parity (toState A) (x + 1) (z - 1)) := by
  rw [mixed_get, UInt64.toBitVec_xor, BitVec.getLsbD_xor, getLsbD_rotateLeft _ (by decide),
    getLsbD_columns, getLsbD_columns]
  rfl

theorem toState_rotated : toState (rotated A (mixed (columns A))) =
    pi (rho (theta (toState A))) := by
  funext x y z
  have hlt : Keccak.rotation (x + 3 * y) x < 64 := by
    rw [← offset_mod]
    exact Nat.mod_lt _ (by decide)
  have hofNat : Fin.ofNat 64 (Keccak.rotation (x + 3 * y) x) =
      Fin.ofNat 64 (offset (x + 3 * y) x) := by
    apply Fin.ext
    rw [← offset_mod]
    exact Nat.mod_mod _ _
  rw [toState, rotated_wordAt, getLsbD_rotateLeft _ hlt, UInt64.toBitVec_xor, BitVec.getLsbD_xor,
    getLsbD_mixed, hofNat]
  rfl

theorem toState_combined : toState (combined B) = chi (toState B) := by
  funext x y z
  have hz := z.isLt
  rw [toState, combined_wordAt, UInt64.toBitVec_xor, UInt64.toBitVec_and, UInt64.toBitVec_not,
    BitVec.getLsbD_xor, BitVec.getLsbD_and, BitVec.getLsbD_not, decide_eq_true hz, Bool.true_and]
  rfl

theorem roundConstants_getD : ∀ ir : Fin 24, ∀ z : Fin 64,
    (roundConstants.getD ir.val 0).toBitVec.getLsbD z.val = roundConstant ir.val z := by
  decide +kernel

theorem words_pos : 0 < 25 := by decide

theorem wordAt_set_zero (v : UInt64) (x y : Fin 5) :
    wordAt (A.set 0 v words_pos) x y = if x = 0 ∧ y = 0 then v else wordAt A x y := by
  have hget : wordAt (A.set 0 v) x y = if 0 = 5 * y.val + x.val then v else wordAt A x y :=
    Vector.getElem_set _ _
  rw [hget]
  have hiff : 0 = 5 * y.val + x.val ↔ x = 0 ∧ y = 0 := by
    omega
  simp only [hiff]

theorem toState_transformRound {ir : Nat} (hir : ir < 24) :
    toState (transformRound A (roundConstants.getD ir 0)) = Keccak.round ir (toState A) := by
  rw [Keccak.round, ← toState_rotated, ← toState_combined, transformRound]
  funext x y z
  rw [toState, wordAt_set_zero, iota]
  split
  · next h =>
    obtain ⟨rfl, rfl⟩ := h
    rw [UInt64.toBitVec_xor, BitVec.getLsbD_xor, roundConstants_getD ⟨ir, hir⟩ z]
    rfl
  · rfl

theorem toState_transform : toState (transform A) = permutation (toState A) := by
  have hlist : roundConstants = (List.range 24).map fun ir => roundConstants.getD ir 0 := rfl
  have hfold : ∀ (irs : List Nat) (A : Vector UInt64 25), (∀ ir ∈ irs, ir < 24) →
      toState (irs.foldl (fun A ir => transformRound A (roundConstants.getD ir 0)) A) =
        irs.foldl (fun a ir => Keccak.round ir a) (toState A) := by
    intro irs
    induction irs with
    | nil => intro A _; rfl
    | cons ir irs ih =>
      intro A hirs
      rw [List.foldl_cons, List.foldl_cons, ih _ fun i hi => hirs i (List.mem_cons_of_mem _ hi),
        toState_transformRound A (hirs ir List.mem_cons_self)]
  rw [transform, hlist, List.foldl_map, hfold _ A fun ir hir => List.mem_range.mp hir]
  rfl

end Sha3

end Rcoin
