/-
  The tables of the collision rounds.  A table is described by the index lists
  whose rows it holds; a round takes the lists of one level to those of the next,
  whatever the indices of a row are and whichever pairs a round keeps.
-/
import Rcoin.Equihash.Collide
import Rcoin.Equihash.Trees

namespace Rcoin

open List Nat

/-! ## Merging is symmetric -/

section

variable {ι : Type} [LT ι] [DecidableEq ι] [DecidableLT ι]
  [Std.Asymm (· < · : ι → ι → Prop)] [Std.Trichotomous (· < · : ι → ι → Prop)]

theorem ite_append_comm (a b : List ι) :
    (if a < b then a ++ b else b ++ a) = if b < a then b ++ a else a ++ b := by
  by_cases hab : a < b
  · rw [if_pos hab, if_neg (List.lt_asymm hab)]
  · by_cases hba : b < a
    · rw [if_neg hab, if_pos hba]
    · rw [if_neg hab, if_neg hba, List.le_antisymm hab hba]

theorem StepRow.merge_comm (a b : StepRow ι) (trim : Nat) : a.merge b trim = b.merge a trim := by
  have hhash : a.hash.zipWith (· ^^^ ·) b.hash = b.hash.zipWith (· ^^^ ·) a.hash := by
    rw [zipWith_comm]
    congr 1
    funext x y
    exact UInt8.xor_comm y x
  have hidx := ite_append_comm a.indices b.indices
  rw [merge, merge, hhash]
  congr 1
  simpa only [indicesBefore, decide_eq_true_eq] using hidx

end

theorem StepRow.distinctIndices_comm (a b : FullStepRow) :
    a.distinctIndices b = b.distinctIndices a := by
  rw [Bool.eq_iff_iff, Equihash.distinctIndices_iff, Equihash.distinctIndices_iff]
  exact List.disjoint_comm

namespace Equihash

variable {E : Equihash} {st : HashState E}

/-! ## The first list -/

theorem flatMap_range {α : Type} (f : Nat → α) (m n : Nat) :
    ((List.range m).flatMap fun g => (List.range n).map fun i => f (g * n + i)) =
      (List.range (m * n)).map f := by
  induction m with
  | zero => rw [zero_mul]; rfl
  | succ m ih =>
    rw [List.range_succ, flatMap_append, ih, flatMap_singleton, succ_mul,
      range_add, map_append, map_map]
    rfl

theorem firstList_eq {α : Type} (row : List UInt8 → Nat → α) :
    E.firstList st row = (List.range E.initSize).map fun i =>
      row (E.hashPart (st.generateHash (i / E.indicesPerHashOutput)) (i % E.indicesPerHashOutput))
        i := by
  have hpos := E.indicesPerHashOutput_pos
  have hlists : ((List.range E.initSize).flatMap fun g =>
      (List.range E.indicesPerHashOutput).map fun i =>
        row (E.hashPart (st.generateHash g) i) (g * E.indicesPerHashOutput + i)) =
      (List.range (E.initSize * E.indicesPerHashOutput)).map fun i =>
        row (E.hashPart (st.generateHash (i / E.indicesPerHashOutput))
          (i % E.indicesPerHashOutput)) i := by
    rw [← flatMap_range]
    apply flatMap_congr
    intro g _
    apply map_congr_left
    intro i hi
    have hlt := mem_range.mp hi
    have hdiv : (g * E.indicesPerHashOutput + i) / E.indicesPerHashOutput = g := by
      rw [Nat.mul_comm, mul_add_div hpos, div_eq_of_lt hlt, Nat.add_zero]
    have hmod : (g * E.indicesPerHashOutput + i) % E.indicesPerHashOutput = i := by
      rw [Nat.mul_comm, mul_add_mod, mod_eq_of_lt hlt]
    rw [hdiv, hmod]
  have hle : E.initSize ≤ E.initSize * E.indicesPerHashOutput := Nat.le_mul_of_pos_right _ hpos
  rw [firstList, hlists, ← List.map_take, List.take_range, Nat.min_eq_left hle]

/-! ## Tables of rows -/

section

variable {ι : Type}

variable (E st) in
/-- The rows of `X` are those of the index lists of `T`. -/
def HasRows (f : Nat → ι) (n : Nat) (T : List Nat → Prop) (X : List (StepRow ι)) : Prop :=
  ∀ x, x ∈ X ↔ ∃ is, T is ∧ x = E.row st f n is

variable {f : Nat → ι} {n : Nat} {T : List Nat → Prop} {X : List (StepRow ι)}

theorem HasRows.exists_rel (h : HasRows E st f n T X) {P : StepRow ι → StepRow ι → Prop} :
    (∃ x ∈ X, ∃ y ∈ X, P x y) ↔ ∃ a b, T a ∧ T b ∧ P (E.row st f n a) (E.row st f n b) := by
  constructor
  · rintro ⟨x, hx, y, hy, hP⟩
    obtain ⟨a, ha, rfl⟩ := (h x).mp hx
    obtain ⟨b, hb, rfl⟩ := (h y).mp hy
    exact ⟨a, b, ha, hb, hP⟩
  · rintro ⟨a, b, ha, hb, hP⟩
    exact ⟨_, (h _).mpr ⟨a, ha, rfl⟩, _, (h _).mpr ⟨b, hb, rfl⟩, hP⟩

section Round

variable {β : Type} {combine : StepRow ι → StepRow ι → Option β} (sort : RowSort ι)
  (hX : HasRows E st f n T X)
  (hsymm : ∀ x y, combine x y = combine y x)
  (hself : ∀ is, T is → combine (E.row st f n is) (E.row st f n is) = none)

include hX hsymm hself

theorem exists_pairs_sort (len l : Nat) (t : β) :
    (∃ p ∈ pairs (sort.sort len X),
      p.1.hasCollision l p.2 = true ∧ combine p.1 p.2 = some t) ↔
      ∃ a b, T a ∧ T b ∧ (E.row st f n a).hasCollision l (E.row st f n b) = true ∧
        combine (E.row st f n a) (E.row st f n b) = some t := by
  have hperm : HasRows E st f n T (sort.sort len X) := fun x =>
    (sort.perm len X).mem_iff.trans (hX x)
  rw [exists_mem_pairs (P := fun x y => x.hasCollision l y = true ∧ combine x y = some t)]
  · exact hperm.exists_rel
  · rintro x y ⟨hcoll, hsome⟩
    rw [hasCollision_iff] at hcoll ⊢
    exact ⟨hcoll.symm, (hsymm y x).trans hsome⟩
  · rintro x hx ⟨-, hsome⟩
    obtain ⟨is, his, rfl⟩ := (hperm x).mp hx
    rw [hself is his] at hsome
    cases hsome

end Round

variable {combine : StepRow ι → StepRow ι → Option (StepRow ι)}

theorem mem_collide_sort (sort : RowSort ι) (hX : HasRows E st f (n + 1) T X)
    (hlt : ∀ is, T is → E.hashXor st is < 2 ^ (E.collisionBitLength * (n + 1)))
    (hsymm : ∀ x y, combine x y = combine y x)
    (hself : ∀ is, T is → combine (E.row st f (n + 1) is) (E.row st f (n + 1) is) = none)
    {len : Nat} (hlen : E.collisionByteLength ≤ len) (x : StepRow ι) :
    x ∈ Table.collide (StepRow.hasCollision E.collisionByteLength) combine (sort.sort len X) ↔
      ∃ a b, T a ∧ T b ∧
        E.hashXor st a >>> (E.collisionBitLength * n) =
          E.hashXor st b >>> (E.collisionBitLength * n) ∧
        combine (E.row st f (n + 1) a) (E.row st f (n + 1) b) = some x := by
  have hgrouped := grouped_of_sorted hlen (sort.sorted len X)
  rw [Table.mem_collide (hasCollision_iff _) hgrouped, exists_pairs_sort sort hX hsymm hself]
  refine exists_congr fun a => exists_congr fun b => ?_
  refine and_congr_right fun ha => and_congr_right fun hb => ?_
  rw [hasCollision_row (hlt a ha) (hlt b hb)]

theorem hasRows_rounds {T : Nat → List Nat → Prop} (sort : RowSort ι)
    (hlt : ∀ l n is, n + l = E.K + 1 → T l is →
      E.hashXor st is < 2 ^ (E.collisionBitLength * n)) (hsymm : ∀ x y, combine x y = combine y x)
    (hself : ∀ l n is, T l is → combine (E.row st f n is) (E.row st f n is) = none)
    (hstep : ∀ l n, n + l = E.K → l + 1 < E.K → ∀ x,
      (∃ a b, T l a ∧ T l b ∧
        E.hashXor st a >>> (E.collisionBitLength * n) =
          E.hashXor st b >>> (E.collisionBitLength * n) ∧
        combine (E.row st f (n + 1) a) (E.row st f (n + 1) b) = some x) ↔
      ∃ is, T (l + 1) is ∧ x = E.row st f n is) {m l : Nat} (hml : m + l < E.K) {n : Nat}
    (hn : n + m + l = E.K + 1) {X : List (StepRow ι)} (hX : HasRows E st f (n + m) (T l) X) :
    HasRows E st f n (T (m + l)) (E.rounds sort combine m X) := by
  induction m generalizing l X with
  | zero =>
    rw [Nat.zero_add]
    exact hX
  | succ m ih =>
    have hround : HasRows E st f (n + m) (T (l + 1))
        (Table.collide (StepRow.hasCollision E.collisionByteLength) combine
          (sort.sort E.collisionByteLength X)) := by
      intro x
      rw [mem_collide_sort (n := n + m) sort hX (fun is his => hlt l _ is (by omega) his) hsymm
        (fun is his => hself l _ is his) le_rfl]
      exact hstep l (n + m) (by omega) (by omega) x
    have hlevel : m + 1 + l = m + (l + 1) := by omega
    have hrest := ih (l := l + 1) (by omega) (by omega) hround
    rw [rounds, hlevel]
    split
    · exact hrest
    next hempty =>
      -- an empty table stays empty
      have hnil : X = [] := eq_nil_of_length_eq_zero (by omega)
      subst hnil
      have hsort : sort.sort E.collisionByteLength [] = [] :=
        Perm.eq_nil (sort.perm E.collisionByteLength [])
      rw [hsort] at hrest
      cases m with
      | zero => exact hrest
      | succ m => exact hrest

theorem take_length_hash {n : Nat} (is : List Nat) :
    (E.row st f n is).hash.take (n * E.collisionByteLength) = E.rowHash n (E.hashXor st is) := by
  rw [row, ← length_rowHash n (E.hashXor st is), take_length]

theorem rowHash_inj {n x y : Nat} (hx : x < 2 ^ (E.collisionBitLength * n))
    (hy : y < 2 ^ (E.collisionBitLength * n)) : E.rowHash n x = E.rowHash n y ↔ x = y := by
  constructor
  · intro h
    have hxor : E.rowHash n (x ^^^ y) = E.rowHash n (y ^^^ y) := by
      rw [rowHash_xor, rowHash_xor, h]
    have hall := (rowHash_eq_zero (E := E) n (y ^^^ y)).mpr (by rw [Nat.xor_self, zero_mod])
    rw [← hxor, rowHash_eq_zero, mod_eq_of_lt (xor_lt_two_pow hx hy)] at hall
    exact Nat.xor_eq_zero_iff.mp hall
  · rintro rfl
    rfl

theorem mem_finalRound {β : Type} {combine : StepRow ι → StepRow ι → Option β}
    (sort : RowSort ι) (hX : HasRows E st f 2 T X)
    (hlt : ∀ is, T is → E.hashXor st is < 2 ^ (E.collisionBitLength * 2))
    (hsymm : ∀ x y, combine x y = combine y x)
    (hself : ∀ is, T is → combine (E.row st f 2 is) (E.row st f 2 is) = none) (x : β) :
    x ∈ E.finalRound sort combine X ↔
      ∃ a b, T a ∧ T b ∧ E.hashXor st a = E.hashXor st b ∧
        combine (E.row st f 2 a) (E.row st f 2 b) = some x := by
  have hlen : E.hashLength - (E.K - 1) * E.collisionByteLength = 2 * E.collisionByteLength := by
    have hk := E.k_pos
    have hsum : E.K + 1 = E.K - 1 + 2 := by omega
    rw [hashLength, hsum, Nat.add_mul]
    omega
  have hpairs := exists_pairs_sort sort hX hsymm hself (2 * E.collisionByteLength)
    (2 * E.collisionByteLength) x
  have hcoll : ∀ a b, T a → T b →
      ((E.row st f 2 a).hasCollision (2 * E.collisionByteLength) (E.row st f 2 b) = true ↔
        E.hashXor st a = E.hashXor st b) := by
    intro a b ha hb
    rw [hasCollision_iff, take_length_hash, take_length_hash, rowHash_inj (hlt a ha) (hlt b hb)]
  have hrhs : (∃ a b, T a ∧ T b ∧ E.hashXor st a = E.hashXor st b ∧
      combine (E.row st f 2 a) (E.row st f 2 b) = some x) ↔
      ∃ p ∈ pairs (sort.sort (2 * E.collisionByteLength) X),
        p.1.hasCollision (2 * E.collisionByteLength) p.2 = true ∧ combine p.1 p.2 = some x := by
    rw [hpairs]
    refine exists_congr fun a => exists_congr fun b => ?_
    refine and_congr_right fun ha => and_congr_right fun hb => ?_
    rw [hcoll a b ha hb]
  rw [hrhs, finalRound]
  simp only [hlen]
  split
  next hmany =>
    have hgrouped := grouped_of_sorted (le_refl (2 * E.collisionByteLength))
      (sort.sorted (2 * E.collisionByteLength) X)
    rw [Table.mem_collideFinal (hasCollision_iff _) hgrouped
      (by rw [(sort.perm (2 * E.collisionByteLength) X).length_eq]; omega), drop_zero]
  next hfew =>
    -- no pairs in a table of at most one row
    have hsort := (sort.perm (2 * E.collisionByteLength) X).length_eq
    match hs : sort.sort (2 * E.collisionByteLength) X with
    | [] => simp [pairs]
    | [_] => simp [pairs]
    | _ :: _ :: _ =>
      rw [hs, length_cons, length_cons] at hsort
      omega

end

end Equihash

end Rcoin
