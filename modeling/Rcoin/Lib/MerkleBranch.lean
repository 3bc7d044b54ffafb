/-
  Two views of a tree of hashes: level by level, and along the branch from a leaf
  to the top; and what two trees with the same top have in common.
-/
import Rcoin.Lib.MerkleTree

namespace MerkleTree

open List

variable {H : Type*} {node : H → H → H} {leaf : Nat → H} {n l h t p : Nat}

/-! ## Level by level -/

/-- The level above one; the last node of an odd level is paired with itself. -/
def levelUp (node : H → H → H) : List H → List H
  | [] => []
  | [x] => [node x x]
  | x :: y :: rest => node x y :: levelUp node rest

theorem length_levelUp (node : H → H → H) (xs : List H) :
    (levelUp node xs).length = (xs.length + 1) / 2 := by
  induction xs using levelUp.induct with
  | case1 => simp [levelUp]
  | case2 x => simp [levelUp]
  | case3 x y rest ih =>
    rw [levelUp, length_cons, ih, length_cons, length_cons]
    omega

/-- The top of the tree over a level, built level by level; `null` over no nodes. -/
def root (node : H → H → H) (null : H) (xs : List H) : H :=
  match xs with
  | [] => null
  | [x] => x
  | x :: y :: rest => root node null (levelUp node (x :: y :: rest))
termination_by xs.length
decreasing_by
  rw [length_levelUp, length_cons, length_cons]
  omega

/-- The nodes at a height. -/
def level (node : H → H → H) (leaf : Nat → H) (n l : Nat) : List H :=
  (List.range (width n l)).map (hash node leaf n l)

@[simp] theorem length_level : (level node leaf n l).length = width n l := by
  rw [level, length_map, length_range]

theorem width_succ : width n (l + 1) = (width n l + 1) / 2 := by
  refine Nat.le_antisymm ?_ ?_
  · by_contra hlt
    have hdouble := left_lt_width (Nat.not_le.mp hlt)
    omega
  · by_contra hlt
    obtain ⟨p, hp⟩ : ∃ p, p = width n (l + 1) := ⟨_, rfl⟩
    have hchild : p * 2 < width n l := by omega
    have hparent : p < width n (l + 1) := by
      rw [lt_width_iff] at hchild ⊢
      rwa [Nat.pow_succ', ← Nat.mul_assoc]
    omega

theorem levelUp_getElem? (node : H → H → H) (xs : List H) (i : Nat) :
    (levelUp node xs)[i]? = xs[i * 2]?.map fun x => node x (xs[i * 2 + 1]?.getD x) := by
  induction xs using levelUp.induct generalizing i with
  | case1 => rfl
  | case2 x =>
    cases i with
    | zero => rfl
    | succ i =>
      have hidx : (i + 1) * 2 = i * 2 + 1 + 1 := by ring
      rfl
  | case3 x y rest ih =>
    cases i with
    | zero => rfl
    | succ i =>
      have hidx : (i + 1) * 2 = i * 2 + 1 + 1 := by ring
      rw [levelUp, getElem?_cons_succ, ih, hidx]
      rfl

theorem level_getElem? (i : Nat) :
    (level node leaf n l)[i]? = if i < width n l then some (hash node leaf n l i) else none := by
  rw [level, getElem?_map]
  split
  · next hi =>
    rw [getElem?_range hi]
    rfl
  · next hi =>
    rw [getElem?_eq_none (by rw [length_range]; omega)]
    rfl

theorem levelUp_level : levelUp node (level node leaf n l) = level node leaf n (l + 1) := by
  apply ext_getElem?
  intro i
  rw [levelUp_getElem?, level_getElem?, level_getElem?, level_getElem?, width_succ]
  by_cases hi : i * 2 < width n l
  · have hparent : i < (width n l + 1) / 2 := by omega
    rw [if_pos hi, if_pos hparent, hash]
    by_cases hright : i * 2 + 1 < width n l
    · rw [if_pos hright, if_pos hright]
      rfl
    · rw [if_neg hright, if_neg hright]
      rfl
  · have hparent : ¬i < (width n l + 1) / 2 := by omega
    rw [if_neg hi, if_neg hparent]
    rfl

theorem level_zero {xs : List H} {null : H} :
    level node (fun i => xs.getD i null) xs.length 0 = xs := by
  apply ext_getElem?
  intro i
  rw [level_getElem?, width_zero]
  split
  · next hi =>
    show some (xs.getD i null) = _
    rw [getD_eq_getElem?_getD, getElem?_eq_getElem hi]
    rfl
  · next hi => rw [getElem?_eq_none (Nat.not_lt.mp hi)]

/-- The top of the tree over any of its levels. -/
theorem root_level {null : H} (hpos : 0 < n) (hh : IsHeight n h) (hl : l ≤ h) :
    root node null (level node leaf n l) = hash node leaf n h 0 := by
  induction hl using Nat.decreasingInduction with
  | self =>
    have hwidth : width n h = 1 := by
      have hle := hh.width_le
      have hlt : 0 < width n h := by
        rw [lt_width_iff]
        omega
      omega
    rw [level, hwidth]
    simp [root]
  | of_succ l hlt ih =>
    have hbelow := hh.below l hlt
    have hlen : (level node leaf n l).length = width n l := length_level
    rw [← ih, ← levelUp_level]
    match hlevel : level node leaf n l with
    | [] => simp [hlevel] at hlen; omega
    | [x] => simp [hlevel] at hlen; omega
    | x :: y :: rest => rw [root]

/-! ## Branches -/

/-- The node that is paired with the one above leaf `t` at a height. -/
def sibling (node : H → H → H) (leaf : Nat → H) (n t l : Nat) : H :=
  if t / 2 ^ l % 2 = 1 then hash node leaf n l (t / 2 ^ l - 1)
  else if t / 2 ^ l + 1 < width n l then hash node leaf n l (t / 2 ^ l + 1)
  else hash node leaf n l (t / 2 ^ l)

/-- The siblings below a height. -/
def branch (node : H → H → H) (leaf : Nat → H) (n t h : Nat) : List H :=
  (List.range h).map (sibling node leaf n t)

theorem branch_succ :
    branch node leaf n t (h + 1) = branch node leaf n t h ++ [sibling node leaf n t h] := by
  rw [branch, List.range_succ, map_append]
  rfl

theorem branch_zero : branch node leaf n t 0 = [] := rfl

/-- A node hashed with its sibling, on the side its position tells. -/
def combine (node : H → H → H) (x : H) (pos : Nat) (y : H) : H :=
  if pos % 2 = 1 then node y x else node x y

theorem combine_sibling (ht : t < n) :
    combine node (hash node leaf n l (t / 2 ^ l)) (t / 2 ^ l) (sibling node leaf n t l) =
      hash node leaf n (l + 1) (t / 2 ^ (l + 1)) := by
  have hdiv : t / 2 ^ (l + 1) = t / 2 ^ l / 2 := by rw [Nat.pow_succ, Nat.div_div_eq_div_mul]
  have hlt : t / 2 ^ l < width n l := by
    rw [lt_width_iff]
    exact (Nat.div_mul_le_self t (2 ^ l)).trans_lt ht
  rw [combine, sibling, hdiv]
  generalize t / 2 ^ l = q at hlt
  by_cases hodd : q % 2 = 1
  · have hleft : q / 2 * 2 = q - 1 := by omega
    have hright : q / 2 * 2 + 1 = q := by omega
    have hnodes : hash node leaf n (l + 1) (q / 2) =
        node (hash node leaf n l (q / 2 * 2)) (hash node leaf n l (q / 2 * 2 + 1)) :=
      hash_of_two (by omega)
    rw [if_pos hodd, if_pos hodd, hnodes, hright, hleft]
  · have hleft : q / 2 * 2 = q := by omega
    have hright : q / 2 * 2 + 1 = q + 1 := by omega
    rw [if_neg hodd, if_neg hodd, hash, hright, hleft]

/-! ## Two trees with one top -/

/-- Two siblings over whole subtrees of the first `count` leaves are equal. -/
def EqualSiblings (node : H → H → H) (leaf : Nat → H) (n count : Nat) : Prop :=
  ∃ l p, (p * 2 + 2) * 2 ^ l ≤ count ∧
    hash node leaf n l (p * 2) = hash node leaf n l (p * 2 + 1)

theorem EqualSiblings.mono {count count' : Nat} (h : EqualSiblings node leaf n count)
    (hle : count ≤ count') : EqualSiblings node leaf n count' := by
  obtain ⟨l, p, hfit, heq⟩ := h
  exact ⟨l, p, hfit.trans hle, heq⟩

theorem not_equalSiblings_zero : ¬EqualSiblings node leaf n 0 := by
  rintro ⟨l, p, hfit, -⟩
  have hpos : 0 < (p * 2 + 2) * 2 ^ l := Nat.mul_pos (by omega) (Nat.two_pow_pos l)
  omega

/-- With one leaf more, the siblings that end there are new. -/
theorem equalSiblings_succ {count : Nat} : EqualSiblings node leaf n (count + 1) ↔
    EqualSiblings node leaf n count ∨ ∃ l, 2 ^ (l + 1) ∣ count + 1 ∧
      hash node leaf n l ((count + 1) / 2 ^ l - 2) =
        hash node leaf n l ((count + 1) / 2 ^ l - 1) := by
  constructor
  · rintro ⟨l, p, hfit, heq⟩
    rcases Nat.lt_or_eq_of_le hfit with hlt | hend
    · exact .inl ⟨l, p, Nat.le_of_lt_succ hlt, heq⟩
    · refine .inr ⟨l, ⟨p + 1, ?_⟩, ?_⟩
      · rw [← hend, Nat.pow_succ]
        ring
      · rw [← hend, Nat.mul_div_cancel _ (Nat.two_pow_pos l)]
        exact heq
  · rintro (hold | ⟨l, ⟨q, hq⟩, heq⟩)
    · exact hold.mono (Nat.le_succ _)
    · have hmul : 2 ^ (l + 1) * q = q * 2 * 2 ^ l := by
        ring
      have hpos : 0 < q := by
        rcases Nat.eq_zero_or_pos q with rfl | hpos
        · exact absurd hq (Nat.succ_ne_zero _)
        · exact hpos
      rw [hq, hmul, Nat.mul_div_cancel _ (Nat.two_pow_pos l)] at heq
      have hleft : (q - 1) * 2 = q * 2 - 2 := by omega
      have hright : (q - 1) * 2 + 1 = q * 2 - 1 := by omega
      have hend : (q - 1) * 2 + 2 = q * 2 := by omega
      refine ⟨l, q - 1, ?_, ?_⟩
      · rw [hend, ← hmul, hq]
      · rw [hright, hleft]
        exact heq

section

variable (hnode : ∀ a b c d, node a b = node c d → a = c ∧ b = d)
include hnode

/-- A node over a part of a subtree only looks like one over a whole subtree if that has
    equal siblings.  By induction on the height, along the right edge. -/
theorem equalSiblings_of_incomplete {q : Nat} (hp : p * 2 ^ l < n) (hpart : n < (p + 1) * 2 ^ l)
    (hq : (q + 1) * 2 ^ l ≤ n) (heq : hash node leaf n l p = hash node leaf n l q) :
    EqualSiblings node leaf n ((q + 1) * 2 ^ l) := by
  induction l generalizing p q with
  | zero => omega
  | succ l ih =>
    have hpow : 2 ^ (l + 1) = 2 ^ l * 2 := Nat.pow_succ 2 l
    have hend : ∀ x, (x * 2 + 2) * 2 ^ l = (x + 1) * 2 ^ (l + 1) := by
      intro x
      ring
    have hmid : ∀ x, (x * 2 + 1 + 1) * 2 ^ l = (x + 1) * 2 ^ (l + 1) := by
      intro x
      ring
    have hright : q * 2 + 1 < width n l := by
      rw [lt_width_iff]
      have hlt : (q * 2 + 1) * 2 ^ l < (q * 2 + 1 + 1) * 2 ^ l :=
        Nat.mul_lt_mul_of_pos_right (Nat.lt_succ_self _) (Nat.two_pow_pos l)
      rw [hmid] at hlt
      omega
    rw [hash_of_two hright] at heq
    by_cases hpright : p * 2 + 1 < width n l
    · -- the right child is over a part as well
      rw [hash_of_two hpright] at heq
      have hsub := ih (lt_width_iff.mp hpright) (by rw [hmid]; exact hpart)
        (by rw [hmid]; exact hq) (hnode _ _ _ _ heq).2
      rw [hmid] at hsub
      exact hsub
    · -- the left child stands for both
      rw [hash_of_one hpright] at heq
      obtain ⟨hleft, hdup⟩ := hnode _ _ _ _ heq
      exact ⟨l, q, (hend q).le, hleft.symm.trans hdup⟩

variable {leaf' : Nat → H} {n' : Nat}

/-- By induction from the top: trees of one height with the same top have the same
    nodes where both have them, and where one of them has a node more at the end of a
    level, it equals the other's last node. -/
theorem nodes_eq (hn : n ≤ n') (hh : IsHeight n h)
    (htop : hash node leaf n h 0 = hash node leaf' n' h 0) (hl : l ≤ h) :
    (∀ p < width n l, hash node leaf n l p = hash node leaf' n' l p) ∧
      ∀ p, p * 2 + 1 = width n l → p * 2 + 1 < width n' l → l < h →
        hash node leaf n l (p * 2) = hash node leaf' n' l (p * 2 + 1) := by
  have hmono : ∀ l, width n l ≤ width n' l := by
    intro l
    by_contra hlt
    have hwide := lt_width_iff.mp (Nat.not_le.mp hlt)
    exact absurd (lt_width_iff.mpr (hwide.trans_le hn)) (Nat.lt_irrefl _)
  -- down from the root, where the hashes agree
  induction hl using Nat.decreasingInduction with
  | self =>
    refine ⟨fun p hp => ?_, fun p _ _ hlt => absurd hlt (Nat.lt_irrefl _)⟩
    have hzero : p = 0 := by
      have := hh.width_le
      omega
    rw [hzero]
    exact htop
  | of_succ l hlt ih =>
    have hchild : ∀ p, p * 2 < width n l →
        hash node leaf n l (p * 2) = hash node leaf' n' l (p * 2) ∧
        (p * 2 + 1 < width n l →
          hash node leaf n l (p * 2 + 1) = hash node leaf' n' l (p * 2 + 1)) ∧
        (¬p * 2 + 1 < width n l → p * 2 + 1 < width n' l →
          hash node leaf n l (p * 2) = hash node leaf' n' l (p * 2 + 1)) := by
      intro p hp
      have hparent : p < width n (l + 1) := by
        rw [width_succ]
        omega
      have heq := ih.1 p hparent
      by_cases hright : p * 2 + 1 < width n l
      · rw [hash_of_two hright, hash_of_two (hright.trans_le (hmono l))] at heq
        obtain ⟨hleft, hr⟩ := hnode _ _ _ _ heq
        exact ⟨hleft, fun _ => hr, fun hno => absurd hright hno⟩
      · rw [hash_of_one hright] at heq
        by_cases hright' : p * 2 + 1 < width n' l
        · rw [hash_of_two hright'] at heq
          obtain ⟨hleft, hr⟩ := hnode _ _ _ _ heq
          exact ⟨hleft, fun hyes => absurd hyes hright, fun _ _ => hr⟩
        · rw [hash_of_one hright'] at heq
          exact ⟨(hnode _ _ _ _ heq).1, fun hyes => absurd hyes hright,
            fun _ hyes => absurd hyes hright'⟩
    refine ⟨fun p hp => ?_, fun p hp hp' _ => (hchild p (by omega)).2.2 (by omega) hp'⟩
    obtain ⟨q, rfl | rfl⟩ : ∃ q, p = q * 2 ∨ p = q * 2 + 1 := ⟨p / 2, by omega⟩
    · exact (hchild q hp).1
    · exact (hchild q (by omega)).2.1 hp

/-- Trees with the same top over leaves that are no hashes have the same height. -/
theorem height_eq {h' : Nat} (hleaf : ∀ a b, node a b ≠ leaf 0) (hleaf' : ∀ a b, node a b ≠ leaf' 0)
    (htop : hash node leaf n h 0 = hash node leaf' n' h' 0) : h = h' := by
  induction h generalizing h' with
  | zero =>
    cases h' with
    | zero => rfl
    | succ h' => exact absurd htop.symm (hleaf _ _)
  | succ h ih =>
    cases h' with
    | zero => exact absurd htop (hleaf' _ _)
    | succ h' =>
      have hleft : hash node leaf n h 0 = hash node leaf' n' h' 0 := by
        have := (hnode _ _ _ _ htop).1
        rwa [Nat.zero_mul] at this
      rw [ih hleft]

/-- Trees with the same top over different numbers of leaves: the one over more leaves
    has equal siblings over whole subtrees. -/
theorem equalSiblings_of_lt (hpos : 0 < n) (hn : n < n') (hh : IsHeight n h)
    (hh' : IsHeight n' h) (htop : hash node leaf n h 0 = hash node leaf' n' h 0) :
    EqualSiblings node leaf' n' n' := by
  -- the last node of a level that is paired with itself, at the lowest bit of `n`
  obtain ⟨k, m, hm⟩ : ∃ k m, n = 2 ^ k * (m * 2 + 1) := by
    obtain ⟨k, m, hodd, hm⟩ := Nat.exists_eq_pow_mul_and_not_dvd hpos.ne' 2 (by decide)
    refine ⟨k, m / 2, ?_⟩
    have hhalf : m / 2 * 2 + 1 = m := by omega
    rw [hhalf, hm]
  have hwidth : width n k = m * 2 + 1 := by
    rw [width, hm]
    have hk := Nat.two_pow_pos k
    rw [Nat.add_sub_assoc hk, Nat.mul_add_div hk, Nat.div_eq_of_lt (by omega), Nat.add_zero]
  have hwidth' : m * 2 + 1 < width n' k := by
    rw [lt_width_iff, Nat.mul_comm, ← hm]
    exact hn
  have hkh : k < h := by
    by_contra hge
    have hle : width n' k ≤ 1 := by
      by_contra hlt
      have hlt' := lt_width_iff.mp (Nat.not_le.mp hlt)
      have htop' := hh'.width_le
      have hpow : 2 ^ h ≤ 2 ^ k := Nat.pow_le_pow_right (by omega) (by omega)
      have : 1 < width n' h := by
        rw [lt_width_iff]
        omega
      omega
    omega
  obtain ⟨hsame, hextra⟩ := nodes_eq hnode hn.le hh htop hkh.le
  have hdup := hextra m hwidth.symm hwidth' hkh
  rw [hsame (m * 2) (by omega)] at hdup
  by_cases hwhole : (m * 2 + 2) * 2 ^ k ≤ n'
  · exact ⟨k, m, hwhole, hdup⟩
  · -- the node more is over a part only
    have hstart := lt_width_iff.mp hwidth'
    have hleft : (m * 2 + 1) * 2 ^ k ≤ n' := hstart.le
    have hequal := equalSiblings_of_incomplete hnode hstart (Nat.not_le.mp hwhole) hleft hdup.symm
    exact hequal.mono hleft

end

end MerkleTree
