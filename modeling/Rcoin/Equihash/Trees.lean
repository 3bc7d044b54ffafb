/-
  The hashes of indices as numbers, the condition that makes a list of indices
  a solution, and the trees of index lists that the procedures build.  The hash
  part of a row is a list of digits of the XOR of its indices' hashes: trimming
  a row drops the highest digit, which is zero when the two halves collide.
-/
import Rcoin.Equihash.Rows

namespace Rcoin

open Digits List Nat

namespace Equihash

variable (E : Equihash) (st : HashState E)

/-! ## Hashes as numbers -/

/-- The `N`-bit hash of an index. -/
def hashNum (i : Nat) : Nat :=
  ofBytes (E.hashPart (st.generateHash (i / E.indicesPerHashOutput)) (i % E.indicesPerHashOutput))

/-- The XOR of the hashes of some indices. -/
def hashXor (is : List Nat) : Nat := is.foldr (fun i x => E.hashNum st i ^^^ x) 0

/-- Two `N`-bit numbers agree on their first `m` bits. -/
def AgreeOn (m x y : Nat) : Prop := x >>> (E.N - m) = y >>> (E.N - m)

/-- At every level, the first index on the left is smaller than on the right,
    and the XORs of the two sides agree on the bits that belong to the level. -/
def WagnerTree : Nat → List Nat → Prop
  | 0, _ => True
  | l + 1, is =>
    WagnerTree l (is.take (2 ^ l)) ∧ WagnerTree l (is.drop (2 ^ l)) ∧
      (is.take (2 ^ l)).headD 0 < (is.drop (2 ^ l)).headD 0 ∧
      E.AgreeOn (E.collisionBitLength * (l + 1)) (E.hashXor st (is.take (2 ^ l)))
        (E.hashXor st (is.drop (2 ^ l)))

/-- The indices of a solution. -/
structure IsSolution (is : List Nat) : Prop where
  length : is.length = 2 ^ E.K
  distinct : is.Nodup
  tree : E.WagnerTree st E.K is
  zero : E.hashXor st is = 0

/-! ## Facts about the parameters -/

theorem collisionBitLength_mul : E.collisionBitLength * (E.K + 1) = E.N :=
  Nat.div_mul_cancel E.dvd

theorem collisionBitLength_ge : 8 ≤ E.collisionBitLength := E.bits_ge

theorem collisionBitLength_le : E.collisionBitLength ≤ 24 := le_of_succ_le_succ E.bits_le

theorem N_pos : 0 < E.N := by
  have hc := E.collisionBitLength_ge
  have hmul := E.collisionBitLength_mul
  have hle : 8 * 1 ≤ E.collisionBitLength * (E.K + 1) :=
    Nat.mul_le_mul hc (Nat.succ_le_succ (Nat.zero_le _))
  omega

theorem indicesPerHashOutput_pos : 0 < E.indicesPerHashOutput := div_pos E.n_le E.N_pos

theorem solutionWidth_eq : 8 * E.solutionWidth = (E.collisionBitLength + 1) * 2 ^ E.K := by
  show 8 * (2 ^ E.K * (E.N / (E.K + 1) + 1) / 8) = (E.N / (E.K + 1) + 1) * 2 ^ E.K
  rw [Nat.mul_div_cancel' E.solution_dvd, Nat.mul_comm]

variable {E}

theorem length_hashPart {tmpHash : List UInt8} (hlen : tmpHash.length = E.hashOutput) {i : Nat}
    (hi : i < E.indicesPerHashOutput) : 8 * (E.hashPart tmpHash i).length = E.N := by
  obtain ⟨n, hn⟩ := E.n_dvd
  have hmul : (i + 1) * n ≤ E.indicesPerHashOutput * n := mul_le_mul_right n hi
  have hout : E.hashOutput = E.indicesPerHashOutput * n := by
    rw [hashOutput, hn, Nat.mul_left_comm, Nat.mul_div_cancel_left _ (by decide)]
  have hstart : i * E.N / 8 = i * n := by
    rw [hn, Nat.mul_left_comm, Nat.mul_div_cancel_left _ (by decide)]
  have hwidth : E.N / 8 = n := by rw [hn, Nat.mul_div_cancel_left _ (by decide)]
  rw [hashPart, length_take, length_drop, hlen, hout, hstart, hwidth, hn]
  rw [add_mul, one_mul] at hmul
  omega

variable {st}

variable (i : Nat)

theorem hashNum_lt : E.hashNum st i < 2 ^ E.N := by
  have hlen := length_hashPart (st.length_eq (i / E.indicesPerHashOutput))
    (mod_lt i E.indicesPerHashOutput_pos)
  have h := ofBytes_lt (E.hashPart (st.generateHash (i / E.indicesPerHashOutput))
    (i % E.indicesPerHashOutput))
  rwa [hlen] at h

@[simp] theorem hashXor_nil : E.hashXor st [] = 0 := rfl

theorem hashXor_singleton : E.hashXor st [i] = E.hashNum st i := Nat.xor_zero _

theorem hashXor_append (a b : List Nat) :
    E.hashXor st (a ++ b) = E.hashXor st a ^^^ E.hashXor st b := by
  induction a with
  | nil => rw [nil_append, hashXor_nil, zero_xor]
  | cons i a ih =>
    show E.hashNum st i ^^^ E.hashXor st (a ++ b) = (E.hashNum st i ^^^ E.hashXor st a) ^^^ _
    rw [ih, Nat.xor_assoc]

theorem hashXor_lt (is : List Nat) : E.hashXor st is < 2 ^ E.N := by
  induction is with
  | nil => exact Nat.two_pow_pos _
  | cons i is ih => exact xor_lt_two_pow (hashNum_lt i) ih

/-! ## The hash part of a row -/

theorem length_element (bit_len v : Nat) : (element bit_len v).length = (bit_len + 7) / 8 := by
  rw [element, length_map, Digits.length_digits]

variable {bit_len v : Nat}

theorem ofBytes_element (hv : v < 2 ^ bit_len) : ofBytes (element bit_len v) = v := by
  have hlt : v < 2 ^ (8 * ((bit_len + 7) / 8)) :=
    Nat.lt_of_lt_of_le hv (Nat.pow_le_pow_right (by decide) (by omega))
  rw [ofBytes, element, toNat_map_ofNat fun d => lt_of_mem_digits, ofDigits_digits_of_lt hlt]

theorem element_inj {w : Nat} (hv : v < 2 ^ bit_len) (hw : w < 2 ^ bit_len) :
    element bit_len v = element bit_len w ↔ v = w := by
  constructor
  · intro h
    rw [← ofBytes_element hv, h, ofBytes_element hw]
  · rintro rfl
    rfl

theorem element_xor (bit_len v w : Nat) :
    element bit_len (v ^^^ w) = (element bit_len v).zipWith (· ^^^ ·) (element bit_len w) := by
  unfold element
  rw [digits_xor, map_zipWith, zipWith_map]
  congr 1
  funext x y
  exact UInt8.ofNat_xor x y

theorem element_eq_zero (hv : v < 2 ^ bit_len) :
    (element bit_len v).all (· == 0) = true ↔ v = 0 := by
  constructor
  · intro h
    rw [all_eq_true] at h
    have hrep : element bit_len v = replicate (element bit_len v).length 0 :=
      eq_replicate_iff.mpr ⟨rfl, fun b hb => beq_iff_eq.mp (h b hb)⟩
    have hzero : element bit_len 0 = replicate (element bit_len 0).length 0 := by
      refine eq_replicate_iff.mpr ⟨rfl, fun b hb => ?_⟩
      obtain ⟨d, hd, rfl⟩ := mem_map.mp hb
      rw [digits_eq_map] at hd
      obtain ⟨i, -, rfl⟩ := mem_map.mp hd
      rw [zero_shiftRight, zero_mod]
      rfl
    rw [length_element] at hrep hzero
    exact (element_inj hv (Nat.two_pow_pos _)).mp (hrep.trans hzero.symm)
  · rintro rfl
    rw [all_eq_true]
    intro b hb
    obtain ⟨d, hd, rfl⟩ := mem_map.mp hb
    rw [digits_eq_map] at hd
    obtain ⟨i, -, rfl⟩ := mem_map.mp hd
    rw [zero_shiftRight, zero_mod]
    rfl

variable (E) in
/-- The hash part of a row that still has its low `n` groups of bits. -/
def rowHash (n x : Nat) : List UInt8 :=
  (Digits.digits E.collisionBitLength n x).flatMap (element E.collisionBitLength)

variable (E) in
/-- The highest of `n + 1` groups of bits. -/
def group (n x : Nat) : Nat := (x >>> (E.collisionBitLength * n)) % 2 ^ E.collisionBitLength

theorem group_lt (n x : Nat) :
    E.group n x < 2 ^ E.collisionBitLength := Nat.mod_lt _ (Nat.two_pow_pos _)

theorem rowHash_succ (n x : Nat) :
    E.rowHash (n + 1) x = element E.collisionBitLength (E.group n x) ++ E.rowHash n x := rfl

theorem take_rowHash (n x : Nat) :
    (E.rowHash (n + 1) x).take E.collisionByteLength =
      element E.collisionBitLength (E.group n x) := by
  have hlen : E.collisionByteLength = (element E.collisionBitLength (E.group n x)).length :=
    (length_element _ _).symm
  rw [rowHash_succ, hlen, take_left]

theorem drop_rowHash (n x : Nat) :
    (E.rowHash (n + 1) x).drop E.collisionByteLength = E.rowHash n x := by
  have hlen : E.collisionByteLength = (element E.collisionBitLength (E.group n x)).length :=
    (length_element _ _).symm
  rw [rowHash_succ, hlen, drop_left]

theorem length_rowHash (n x : Nat) : (E.rowHash n x).length = n * E.collisionByteLength := by
  induction n with
  | zero => rw [zero_mul]; rfl
  | succ n ih =>
    rw [rowHash_succ, length_append, length_element, ih, succ_mul, add_comm]
    rfl

theorem rowHash_xor (n x y : Nat) :
    E.rowHash n (x ^^^ y) = (E.rowHash n x).zipWith (· ^^^ ·) (E.rowHash n y) := by
  induction n with
  | zero => rfl
  | succ n ih =>
    have hgroup : E.group n (x ^^^ y) = E.group n x ^^^ E.group n y := by
      rw [group, shiftRight_xor_distrib, xor_mod_two_pow]
      rfl
    rw [rowHash_succ, rowHash_succ, rowHash_succ, hgroup, element_xor, ih,
      zipWith_append]
    rw [length_element, length_element]

theorem rowHash_eq_zero (n x : Nat) :
    (E.rowHash n x).all (· == 0) = true ↔ x % 2 ^ (E.collisionBitLength * n) = 0 := by
  induction n with
  | zero =>
    rw [mul_zero, pow_zero, mod_one]
    exact ⟨fun _ => rfl, fun _ => rfl⟩
  | succ n ih =>
    have hsplit : x % 2 ^ (E.collisionBitLength * (n + 1)) =
        x % 2 ^ (E.collisionBitLength * n) + 2 ^ (E.collisionBitLength * n) * E.group n x := by
      rw [mul_succ, pow_add, mod_mul, group, shiftRight_eq_div_pow]
    rw [rowHash_succ, all_append, Bool.and_eq_true, ih, element_eq_zero (group_lt n x), hsplit,
      Nat.add_eq_zero_iff, Nat.mul_eq_zero]
    constructor
    · rintro ⟨hg, hx⟩
      exact ⟨hx, .inr hg⟩
    · rintro ⟨hx, hg | hg⟩
      · omega
      · exact ⟨hg, hx⟩

theorem expandArray_hashPart : expandArray E.collisionBitLength 0
      (E.hashPart (st.generateHash (i / E.indicesPerHashOutput)) (i % E.indicesPerHashOutput)) =
      E.rowHash (E.K + 1) (E.hashNum st i) := by
  have hlen := length_hashPart (st.length_eq (i / E.indicesPerHashOutput))
    (mod_lt i E.indicesPerHashOutput_pos)
  rw [expandArray_eq E.collisionBitLength_ge
    (le_succ_of_le E.collisionBitLength_le) 0 (hlen.trans E.collisionBitLength_mul.symm)]
  rfl

/-! ## Collisions of index lists -/

variable {l n : Nat}

theorem agreeOn_iff (hln : n + l = E.K) (x y : Nat) :
    E.AgreeOn (E.collisionBitLength * (l + 1)) x y ↔
      x >>> (E.collisionBitLength * n) = y >>> (E.collisionBitLength * n) := by
  have hmul := E.collisionBitLength_mul
  have hsum : E.collisionBitLength * n + E.collisionBitLength * (l + 1) = E.N := by
    rw [← hmul, ← hln, ← mul_add, add_assoc]
  have hrest : E.N - E.collisionBitLength * (l + 1) = E.collisionBitLength * n := by omega
  rw [AgreeOn, hrest]

theorem group_eq {x : Nat} (hx : x < 2 ^ (E.collisionBitLength * (n + 1))) :
    E.group n x = x >>> (E.collisionBitLength * n) := by
  have hlt : x >>> (E.collisionBitLength * n) < 2 ^ E.collisionBitLength := by
    rw [shiftRight_eq_div_pow]
    apply Nat.div_lt_of_lt_mul
    rw [← Nat.pow_add, ← Nat.mul_succ]
    exact hx
  rw [group, mod_eq_of_lt hlt]

theorem xor_lt_of_shiftRight_eq {m x y : Nat} (h : x >>> m = y >>> m) : x ^^^ y < 2 ^ m := by
  have hzero : (x ^^^ y) >>> m = 0 := by rw [Nat.shiftRight_xor_distrib, h, Nat.xor_self]
  rw [shiftRight_eq_div_pow] at hzero
  exact (Nat.div_eq_zero_iff_lt (Nat.two_pow_pos m)).mp hzero

variable (E st) in
/-- The row of a list of indices, each shown as `f` says, whose hash part has `n`
    groups of bits left. -/
def row {ι : Type} (f : Nat → ι) (n : Nat) (is : List Nat) : StepRow ι where
  hash := E.rowHash n (E.hashXor st is)
  indices := is.map f

theorem fullStepRow_eq : E.fullStepRow (E.hashPart (st.generateHash (i / E.indicesPerHashOutput))
      (i % E.indicesPerHashOutput)) i = E.row st id (E.K + 1) [i] := by
  rw [fullStepRow, expandArray_hashPart, row, hashXor_singleton, map_singleton, id]

theorem truncatedStepRow_eq :
    E.truncatedStepRow (E.hashPart (st.generateHash (i / E.indicesPerHashOutput))
      (i % E.indicesPerHashOutput)) i =
      E.row st (fun i => truncateIndex i (E.collisionBitLength + 1)) (E.K + 1) [i] := by
  rw [truncatedStepRow, expandArray_hashPart, row, hashXor_singleton, map_singleton]

section

variable {ι : Type} {f : Nat → ι} {a b : List Nat}

theorem hasCollision_row (ha : E.hashXor st a < 2 ^ (E.collisionBitLength * (n + 1)))
    (hb : E.hashXor st b < 2 ^ (E.collisionBitLength * (n + 1))) :
    (E.row st f (n + 1) a).hasCollision E.collisionByteLength (E.row st f (n + 1) b) = true ↔
      E.hashXor st a >>> (E.collisionBitLength * n) =
        E.hashXor st b >>> (E.collisionBitLength * n) := by
  rw [StepRow.hasCollision, beq_iff_eq, row, row, take_rowHash, take_rowHash,
    element_inj (group_lt _ _) (group_lt _ _), group_eq ha, group_eq hb]

variable [LT ι] [DecidableEq ι] [DecidableLT ι]

/-- The indices of the row merged from two. -/
def join (f : Nat → ι) (a b : List Nat) : List Nat :=
  if a.map f < b.map f then a ++ b else b ++ a

theorem hashXor_join : E.hashXor st (join f a b) = E.hashXor st a ^^^ E.hashXor st b := by
  unfold join
  split
  · exact hashXor_append a b
  · rw [hashXor_append, Nat.xor_comm]

theorem merge_row : (E.row st f (n + 1) a).merge (E.row st f (n + 1) b) E.collisionByteLength =
    E.row st f n (join f a b) := by
  have hidx : (if (E.row st f (n + 1) a).indicesBefore (E.row st f (n + 1) b) then
      a.map f ++ b.map f else b.map f ++ a.map f) = (join f a b).map f := by
    rw [StepRow.indicesBefore, row, row, join]
    by_cases h : a.map f < b.map f
    · rw [if_pos (decide_eq_true h), if_pos h, map_append]
    · rw [if_neg (by simp [h]), if_neg h, map_append]
  rw [StepRow.merge, row, row, ← rowHash_xor, drop_rowHash, row, hashXor_join]
  congr 1

end

/-! ## Full trees -/

theorem distinctIndices_iff (a b : FullStepRow) :
    a.distinctIndices b = true ↔ a.indices.Disjoint b.indices := by
  rw [StepRow.distinctIndices, all_eq_true]
  constructor
  · intro h i hi hj
    have hb := all_eq_true.mp (h i hi) i hj
    exact absurd hb (by simp)
  · intro h i hi
    rw [all_eq_true]
    intro j hj
    exact bne_iff_ne.mpr fun hij => h hi (hij ▸ hj)

theorem lt_iff_headD_lt {a b : List Nat} (ha : a ≠ []) (hb : b ≠ []) (h : a.Disjoint b) :
    a < b ↔ a.headD 0 < b.headD 0 := by
  cases a with
  | nil => exact absurd rfl ha
  | cons i a =>
    cases b with
    | nil => exact absurd rfl hb
    | cons j b =>
      rw [cons_lt_cons_iff]
      constructor
      · rintro (hlt | ⟨rfl, -⟩)
        · exact hlt
        · exact absurd mem_cons_self (h mem_cons_self)
      · exact .inl

theorem headD_ne {a b : List Nat} (ha : a ≠ []) (hb : b ≠ []) (h : a.Disjoint b) :
    a.headD 0 ≠ b.headD 0 := by
  cases a with
  | nil => exact absurd rfl ha
  | cons i a =>
    cases b with
    | nil => exact absurd rfl hb
    | cons j b =>
      rintro rfl
      exact h mem_cons_self mem_cons_self

/-- Distinct indices in the order and with the collisions of a solution's tree. -/
structure FullTree (E : Equihash) (st : HashState E) (l : Nat) (is : List Nat) : Prop where
  length : is.length = 2 ^ l
  distinct : is.Nodup
  tree : E.WagnerTree st l is

variable {is : List Nat}

theorem FullTree.ne_nil (h : FullTree E st l is) : is ≠ [] := by
  rintro rfl
  have hlen := h.length
  have hpos := Nat.two_pow_pos l
  rw [List.length_nil] at hlen
  omega

theorem fullTree_zero : FullTree E st 0 is ↔ ∃ i, is = [i] := by
  constructor
  · intro h
    exact length_eq_one_iff.mp h.length
  · rintro ⟨i, rfl⟩
    exact ⟨rfl, nodup_singleton i, trivial⟩

theorem fullTree_append {a b : List Nat} (ha : a.length = 2 ^ l) (hb : b.length = 2 ^ l) :
    FullTree E st (l + 1) (a ++ b) ↔
      FullTree E st l a ∧ FullTree E st l b ∧ a.Disjoint b ∧ a.headD 0 < b.headD 0 ∧
        E.AgreeOn (E.collisionBitLength * (l + 1)) (E.hashXor st a) (E.hashXor st b) := by
  have htake : (a ++ b).take (2 ^ l) = a := by rw [← ha, take_left]
  have hdrop : (a ++ b).drop (2 ^ l) = b := by rw [← ha, drop_left]
  have hlen : (a ++ b).length = 2 ^ (l + 1) := by
    rw [length_append, ha, hb, pow_succ, mul_two]
  constructor
  · intro h
    obtain ⟨hta, htb, hlt, hagree⟩ := h.tree
    rw [htake, hdrop] at hlt hagree
    rw [htake] at hta
    rw [hdrop] at htb
    obtain ⟨hda, hdb, hdis⟩ := nodup_append'.mp h.distinct
    exact ⟨⟨ha, hda, hta⟩, ⟨hb, hdb, htb⟩, hdis, hlt, hagree⟩
  · rintro ⟨h1, h2, hdis, hlt, hagree⟩
    refine ⟨hlen, nodup_append'.mpr ⟨h1.distinct, h2.distinct, hdis⟩, ?_⟩
    show E.WagnerTree st l ((a ++ b).take (2 ^ l)) ∧ E.WagnerTree st l ((a ++ b).drop (2 ^ l)) ∧
      ((a ++ b).take (2 ^ l)).headD 0 < ((a ++ b).drop (2 ^ l)).headD 0 ∧
      E.AgreeOn (E.collisionBitLength * (l + 1)) (E.hashXor st ((a ++ b).take (2 ^ l)))
        (E.hashXor st ((a ++ b).drop (2 ^ l)))
    rw [htake, hdrop]
    exact ⟨h1.tree, h2.tree, hlt, hagree⟩

theorem exists_halves {α : Type} {is : List α} (h : is.length = 2 ^ (l + 1)) :
    ∃ a b, is = a ++ b ∧ a.length = 2 ^ l ∧ b.length = 2 ^ l := by
  refine ⟨is.take (2 ^ l), is.drop (2 ^ l), (take_append_drop _ _).symm, ?_, ?_⟩
  · rw [length_take]
    omega
  · rw [length_drop]
    omega

theorem hashXor_append_lt (hln : n + l = E.K) {a b : List Nat}
    (h : E.AgreeOn (E.collisionBitLength * (l + 1)) (E.hashXor st a) (E.hashXor st b)) :
    E.hashXor st (a ++ b) < 2 ^ (E.collisionBitLength * n) := by
  rw [hashXor_append]
  exact xor_lt_of_shiftRight_eq ((agreeOn_iff hln _ _).mp h)

theorem FullTree.hashXor_lt (h : FullTree E st l is) (hln : n + l = E.K + 1)
    : E.hashXor st is < 2 ^ (E.collisionBitLength * n) := by
  cases l with
  | zero =>
    have hN : E.collisionBitLength * n = E.N := by
      rw [show n = E.K + 1 from hln, collisionBitLength_mul]
    rw [hN]
    exact Equihash.hashXor_lt is
  | succ l =>
    obtain ⟨a, b, rfl, ha, hb⟩ := exists_halves h.length
    obtain ⟨-, -, -, -, hagree⟩ := (fullTree_append ha hb).mp h
    exact hashXor_append_lt (by omega) hagree

end Equihash

end Rcoin
