/-
  The merkle root of a block, computed leaf by leaf: `inner` holds a finished subtree
  for each bit of the count of leaves.

  Source: MerkleComputation in src/consensus/merkle.cpp, as `ComputeMerkleRoot`
  calls it (without a branch, for at most 2 ^ 31 leaves).
-/
import Rcoin.Lib.MerkleTree

namespace Rcoin

open MerkleTree Option

namespace Merkle

variable {H : Type}

/-- The loops over `level` that combine `h` with `inner[level]` while bit `level` of
    `count` is 0; `none` past the last of the entries of `inner` that are left. -/
def climb (Hash : H → H → H) (inner : Nat → H) (count : Nat) : Nat → Nat → H → Option (Nat × H)
  | 0, _, _ => none
  | left + 1, level, h =>
    if count.testBit level then some (level, h)
    else climb Hash inner count left (level + 1) (Hash (inner level) h)

/-- A round of the loop over the leaves. -/
def addLeaf (Hash : H → H → H) (s : Nat × (Nat → H)) (leaf : H) : Option (Nat × (Nat → H)) := do
  let count := s.1 + 1
  let (level, h) ← climb Hash s.2 count 32 0 leaf
  some (count, Function.update s.2 level h)

/-- The loop that looks for the lowest bit of `count`. -/
def lowestBit (count : Nat) : Nat → Nat → Option Nat
  | 0, _ => none
  | left + 1, level => if count.testBit level then some level else lowestBit count left (level + 1)

/-- The final sweep over the rightmost branch. -/
def sweep (Hash : H → H → H) (inner : Nat → H) : Nat → Nat → Nat → H → Option H
  | 0, _, _, _ => none
  | left + 1, count, level, h =>
    if count = 2 ^ level then some h
    else do
      let count := count + 2 ^ level
      let (level, h) ← climb Hash inner count (32 - (level + 1)) (level + 1) (Hash h h)
      sweep Hash inner left count level h

/-- `ComputeMerkleRoot`; `null` is `uint256()`. -/
def computeMerkleRoot (Hash : H → H → H) (null : H) (leaves : List H) : Option H :=
  if leaves.length = 0 then some null
  else do
    let (count, inner) ← leaves.foldlM (addLeaf Hash) (0, fun _ => null)
    let level ← lowestBit count 32 0
    sweep Hash inner 32 count level (inner level)

/-! ## The finished subtrees -/

variable {Hash : H → H → H} {inner : Nat → H} {count n level left : Nat} {h null : H}
  {leaf : Nat → H}

theorem two_pow_succ_dvd (hdvd : 2 ^ level ∣ count) (hbit : count.testBit level = false) :
    2 ^ (level + 1) ∣ count := by
  obtain ⟨q, rfl⟩ := hdvd
  rw [Nat.testBit_eq_decide_div_mod_eq, Nat.mul_div_cancel_left _ (Nat.two_pow_pos level)] at hbit
  have hq : 2 ∣ q := by
    have := of_decide_eq_false hbit
    omega
  obtain ⟨r, rfl⟩ := hq
  exact ⟨r, by rw [Nat.pow_succ, Nat.mul_assoc]⟩

theorem lt_width_of_even (hdvd : 2 ^ (level + 1) ∣ count) (hpos : 0 < count)
    (hn : count < n + 2 ^ level) : ∃ q, 0 < q ∧ count / 2 ^ level = 2 * q ∧
      count / 2 ^ (level + 1) = q ∧ (q - 1) * 2 + 1 < width n level := by
  have hpow : 2 ^ (level + 1) = 2 ^ level * 2 := pow_succ 2 level
  obtain ⟨q, rfl⟩ := hdvd
  have hq : 0 < q := Nat.pos_of_mul_pos_left hpos
  refine ⟨q, hq, ?_, Nat.mul_div_cancel_left _ (Nat.two_pow_pos _), ?_⟩
  · rw [hpow, Nat.mul_assoc, Nat.mul_div_cancel_left _ (Nat.two_pow_pos level)]
  · rw [lt_width_iff]
    have hmul : 2 ^ (level + 1) * q = (2 * q - 1) * 2 ^ level + 2 ^ level := by
      rw [← Nat.succ_mul, Nat.succ_eq_add_one, Nat.sub_add_cancel (by omega), hpow]
      ring
    have hidx : (q - 1) * 2 + 1 = 2 * q - 1 := by omega
    rw [hidx]
    omega

theorem node_of_even (hdvd : 2 ^ (level + 1) ∣ count) (hpos : 0 < count)
    (hn : count < n + 2 ^ level)
    (hinner : inner level = hash Hash leaf n level (count / 2 ^ level - 2))
    (hh : h = hash Hash leaf n level (count / 2 ^ level - 1)) :
    Hash (inner level) h =
      hash Hash leaf n (level + 1) (count / 2 ^ (level + 1) - 1) := by
  obtain ⟨q, hq, hdiv, hdiv', hright⟩ := lt_width_of_even hdvd hpos hn
  rw [hdiv', hash_of_two hright, hinner, hh, hdiv]
  congr 2 <;> omega

theorem climb_spec (hdvd : 2 ^ level ∣ count) (hpos : 0 < count)
    (hcount : count < 2 ^ (level + left)) (hn : count < n + 2 ^ level)
    (hinner : ∀ l, level ≤ l → 2 ^ (l + 1) ∣ count →
      inner l = hash Hash leaf n l (count / 2 ^ l - 2))
    (hh : h = hash Hash leaf n level (count / 2 ^ level - 1)) :
    ∃ level', climb Hash inner count left level h =
        some (level', hash Hash leaf n level' (count / 2 ^ level' - 1)) ∧
      level ≤ level' ∧ 2 ^ level' ∣ count ∧ count.testBit level' = true := by
  induction left generalizing level h with
  | zero => exact absurd (Nat.le_of_dvd hpos hdvd) (Nat.not_le.mpr hcount)
  | succ left ih =>
    rw [climb]
    by_cases hbit : count.testBit level = true
    · rw [if_pos hbit, hh]
      exact ⟨level, rfl, le_refl _, hdvd, hbit⟩
    · rw [if_neg hbit]
      have hdvd' := two_pow_succ_dvd hdvd (Bool.eq_false_iff.mpr hbit)
      have hnode := node_of_even hdvd' hpos hn (hinner level (le_refl _) hdvd') hh
      have hcount' : count < 2 ^ (level + 1 + left) := by
        rwa [add_right_comm, add_assoc]
      obtain ⟨level', hres, hle, hrest⟩ := ih hdvd' hcount' (by omega)
        (fun l hl => hinner l (by omega)) hnode
      exact ⟨level', hres, by omega, hrest⟩

/-- `inner` after `count` leaves. -/
def InnerOk (Hash : H → H → H) (leaf : Nat → H) (n count : Nat) (inner : Nat → H) : Prop :=
  ∀ l, count.testBit l = true → inner l = hash Hash leaf n l (count / 2 ^ l - 1)

variable {l : Nat}

theorem testBit_of_lt {m : Nat} (hdvd : 2 ^ (l + 1) ∣ count) (hlow : count < m + 2 ^ l + 1)
    (hm : m < count) : m.testBit l = true ∧ m / 2 ^ l - 1 = count / 2 ^ l - 2 := by
  obtain ⟨q, rfl⟩ := hdvd
  have hpow : 2 ^ (l + 1) = 2 ^ l * 2 := Nat.pow_succ 2 l
  have hl := Nat.two_pow_pos l
  have hdiv : 2 ^ (l + 1) * q / 2 ^ l = 2 * q := by
    rw [hpow, Nat.mul_assoc, Nat.mul_div_cancel_left _ hl]
  have hm' : m / 2 ^ l = 2 * q - 1 := by
    have hmul : 2 ^ (l + 1) * q = (2 * q) * 2 ^ l := by rw [hpow]; ring
    have hq : 0 < q := by
      rcases Nat.eq_zero_or_pos q with rfl | hq
      · rw [Nat.mul_zero] at hm
        omega
      · exact hq
    have hsplit : (2 * q) * 2 ^ l = (2 * q - 1) * 2 ^ l + 2 ^ l := by
      rw [← Nat.succ_mul, Nat.succ_eq_add_one, Nat.sub_add_cancel (by omega)]
    refine Nat.div_eq_of_lt_le ?_ ?_
    · omega
    · rw [Nat.succ_mul]
      omega
  refine ⟨?_, by rw [hm', hdiv]; omega⟩
  rw [Nat.testBit_eq_decide_div_mod_eq, hm']
  have hq : 0 < q := by
    rcases Nat.eq_zero_or_pos q with rfl | hq
    · rw [Nat.mul_zero] at hm
      omega
    · exact hq
  exact decide_eq_true (by omega)

theorem testBit_of_dvd (hdvd : 2 ^ level ∣ count) (hl : l < level) : count.testBit l = false := by
  obtain ⟨q, rfl⟩ := hdvd
  obtain ⟨d, rfl⟩ := Nat.exists_eq_add_of_lt hl
  have hsplit : 2 ^ (l + d + 1) * q = 2 ^ l * (2 ^ d * q * 2) := by ring
  rw [Nat.testBit_eq_decide_div_mod_eq, hsplit, Nat.mul_div_cancel_left _ (Nat.two_pow_pos l)]
  exact decide_eq_false (by omega)

theorem succ_div_two_pow (hbit : (count + 1).testBit level = true) (hl : level < l) :
    (count + 1) / 2 ^ l = count / 2 ^ l := by
  rw [Nat.succ_div_of_not_dvd]
  intro hdvd
  rw [testBit_of_dvd hdvd hl] at hbit
  cases hbit

theorem addLeaf_spec (hinner : InnerOk Hash leaf n count inner) (hn : count < n)
    (hcount : count + 1 < 2 ^ 32) :
    ∃ inner', addLeaf Hash (count, inner) (leaf count) = some (count + 1, inner') ∧
      InnerOk Hash leaf n (count + 1) inner' := by
  have hpow : 2 ^ 0 = 1 := rfl
  obtain ⟨level, hclimb, -, hdvd, hbit⟩ : ∃ level, climb Hash inner (count + 1) 32 0 (leaf count) =
      some (level, hash Hash leaf n level ((count + 1) / 2 ^ level - 1)) ∧
        0 ≤ level ∧ 2 ^ level ∣ count + 1 ∧ (count + 1).testBit level = true := by
    refine climb_spec (Nat.one_dvd _) (Nat.succ_pos _) hcount (by omega) ?_ ?_
    · intro l _ hl
      obtain ⟨hb, hidx⟩ := testBit_of_lt (m := count) hl
        (by have := Nat.two_pow_pos l; omega) (Nat.lt_succ_self _)
      rw [hinner l hb, hidx]
    · rw [hpow, Nat.div_one, Nat.add_sub_cancel]
      rfl
  refine ⟨Function.update inner level _, by rw [addLeaf, bind_eq_bind, hclimb]; rfl, ?_⟩
  intro l hl
  by_cases heq : l = level
  · rw [heq, Function.update_self]
  · -- the other bits of `count + 1` are bits of `count`
    have hlt : level < l := by
      by_contra hle
      rw [testBit_of_dvd hdvd (by omega)] at hl
      cases hl
    have hdiv := succ_div_two_pow hbit hlt
    rw [Function.update_of_ne heq, hdiv]
    refine hinner l ?_
    rw [Nat.testBit_eq_decide_div_mod_eq] at hl ⊢
    rwa [hdiv] at hl

theorem addLeaves_spec {rest : List H} (hinner : InnerOk Hash leaf n count inner)
    (hrest : ∀ i x, rest[i]? = some x → leaf (count + i) = x) (hn : count + rest.length = n)
    (hlt : n < 2 ^ 32) :
    ∃ inner', rest.foldlM (addLeaf Hash) (count, inner) = some (n, inner') ∧
      InnerOk Hash leaf n n inner' := by
  induction rest generalizing count inner with
  | nil =>
    obtain rfl : count = n := hn
    exact ⟨inner, rfl, hinner⟩
  | cons x rest ih =>
    rw [List.length_cons] at hn
    have hx : leaf count = x := hrest 0 x rfl
    obtain ⟨inner', hadd, hinner'⟩ := addLeaf_spec hinner (by omega) (by omega)
    rw [List.foldlM_cons, ← hx, hadd]
    refine ih hinner' (fun i y hy => ?_) (by omega)
    rw [add_right_comm, add_assoc]
    exact hrest (i + 1) y hy

variable (hdvd : 2 ^ level ∣ count)

include hdvd

theorem lowestBit_spec (hpos : 0 < count) (hcount : count < 2 ^ (level + left)) :
    ∃ level', lowestBit count left level = some level' ∧ level' < level + left ∧
      2 ^ level' ∣ count ∧ count.testBit level' = true := by
  induction left generalizing level with
  | zero => exact absurd (Nat.le_of_dvd hpos hdvd) (Nat.not_le.mpr hcount)
  | succ left ih =>
    rw [lowestBit]
    by_cases hbit : count.testBit level = true
    · rw [if_pos hbit]
      exact ⟨level, rfl, by omega, hdvd, hbit⟩
    · rw [if_neg hbit]
      have hcount' : count < 2 ^ (level + 1 + left) := by
        rwa [add_right_comm, add_assoc]
      obtain ⟨level', hres, hlt, hrest⟩ :=
        ih (two_pow_succ_dvd hdvd (Bool.eq_false_iff.mpr hbit)) hcount'
      exact ⟨level', hres, by omega, hrest⟩

theorem exists_odd_mul (hbit : count.testBit level = true) :
    ∃ r, count = (r * 2 + 1) * 2 ^ level := by
  obtain ⟨q, rfl⟩ := hdvd
  rw [Nat.testBit_eq_decide_div_mod_eq, Nat.mul_div_cancel_left _ (Nat.two_pow_pos level)] at hbit
  have hodd := of_decide_eq_true hbit
  refine ⟨q / 2, ?_⟩
  have hq : q / 2 * 2 + 1 = q := by omega
  rw [hq, Nat.mul_comm]

theorem sweep_node (hbit : count.testBit level = true) (hn : n ≤ count)
    (hh : h = hash Hash leaf n level (count / 2 ^ level - 1)) :
    2 ^ (level + 1) ∣ count + 2 ^ level ∧ Hash h h = hash Hash leaf n (level + 1)
      ((count + 2 ^ level) / 2 ^ (level + 1) - 1) := by
  obtain ⟨r, hr⟩ := exists_odd_mul hdvd hbit
  have hlevel := Nat.two_pow_pos level
  have hdiv : count / 2 ^ level = r * 2 + 1 := by rw [hr, Nat.mul_div_cancel _ hlevel]
  have hnext : count + 2 ^ level = 2 ^ (level + 1) * (r + 1) := by
    rw [hr, Nat.pow_succ]
    ring
  refine ⟨⟨r + 1, hnext⟩, ?_⟩
  rw [hnext, Nat.mul_div_cancel_left _ (Nat.two_pow_pos _), Nat.add_sub_cancel,
    hash_of_one, hh, hdiv, Nat.add_sub_cancel]
  rw [lt_width_iff, ← hr]
  omega

theorem three_le_of_ne (hbit : count.testBit level = true) (htop : count ≠ 2 ^ level) :
    2 ^ level * 2 + 2 ^ level ≤ count := by
  obtain ⟨r, hr⟩ := exists_odd_mul hdvd hbit
  have hr0 : 0 < r := by
    rcases eq_zero_or_pos r with rfl | hr0
    · exact absurd (hr.trans (one_mul _)) htop
    · exact hr0
  have hmul : 2 ^ level * 2 * 1 ≤ 2 ^ level * 2 * r := Nat.mul_le_mul_left _ hr0
  have hring : (r * 2 + 1) * 2 ^ level = 2 ^ level * 2 * r + 2 ^ level := by ring
  omega

omit hdvd

theorem sweep_below {level' : Nat} (hlow : count < n + 2 ^ level)
    (hthree : 2 ^ level * 2 + 2 ^ level ≤ count) (hdvd' : 2 ^ level' ∣ count + 2 ^ level)
    (hl : l < level') : 2 ^ l < n := by
  have hpos := Nat.two_pow_pos level
  by_cases hlow' : l ≤ level
  · have hmono' : 2 ^ l ≤ 2 ^ level := Nat.pow_le_pow_right (by omega) hlow'
    omega
  · have hge := Nat.le_of_dvd (by omega) hdvd'
    have hmono' : 2 ^ (l + 1) ≤ 2 ^ level' := Nat.pow_le_pow_right (by omega) hl
    omega

theorem sweep_inner (hinner : InnerOk Hash leaf n n inner) (hle : level + 1 ≤ l)
    (hn : n < count + 2 ^ level) (hlow : count < n + 2 ^ level)
    (hdvd : 2 ^ (l + 1) ∣ count + 2 ^ level) :
    inner l = hash Hash leaf n l ((count + 2 ^ level) / 2 ^ l - 2) := by
  have hmono : 2 ^ (level + 1) ≤ 2 ^ l := Nat.pow_le_pow_right (by omega) hle
  obtain ⟨hb, hidx⟩ := testBit_of_lt (m := n) hdvd (by omega) hn
  rw [hinner l hb, hidx]

theorem sweep_spec (hinner : InnerOk Hash leaf n n inner) (hdvd : 2 ^ level ∣ count)
    (hbit : count.testBit level = true) (hn : n ≤ count) (hlow : count < n + 2 ^ level)
    (hbelow : ∀ l < level, 2 ^ l < n) (hcount : count ≤ 2 ^ 31) (hleft : 31 < level + left)
    (hh : h = hash Hash leaf n level (count / 2 ^ level - 1)) :
    ∃ height, sweep Hash inner left count level h = some (hash Hash leaf n height 0) ∧
      IsHeight n height := by
  induction left generalizing count level h with
  | zero =>
    obtain ⟨r, hr⟩ := exists_odd_mul hdvd hbit
    have hle : 2 ^ level ≤ count := by
      rw [hr, Nat.succ_mul]
      omega
    have hpow : 2 ^ 32 ≤ 2 ^ level := Nat.pow_le_pow_right (by omega) (by omega)
    omega
  | succ left ih =>
    obtain ⟨r, hr⟩ := exists_odd_mul hdvd hbit
    have hlevel := Nat.two_pow_pos level
    rw [sweep]
    by_cases htop : count = 2 ^ level
    · rw [if_pos htop]
      refine ⟨level, ?_, ?_, fun l hl => ?_⟩
      · rw [hh, htop, Nat.div_self hlevel]
      · rw [← not_lt, lt_width_iff, one_mul]
        omega
      · rw [lt_width_iff, one_mul]
        exact hbelow l hl
    · rw [if_neg htop]
      have hthree := three_le_of_ne hdvd hbit htop
      obtain ⟨hnext, hnode⟩ := sweep_node hdvd hbit hn hh
      -- the level stays below 31, and the next count within the power
      have hlt31 : level < 31 := by
        by_contra hge
        have hpow31 : 2 ^ 31 ≤ 2 ^ level := Nat.pow_le_pow_right (by omega) (by omega)
        omega
      have hcount' : count + 2 ^ level ≤ 2 ^ 31 := by
        obtain ⟨d, hd⟩ : 2 ^ level ∣ 2 ^ 31 := pow_dvd_pow 2 (by omega)
        rw [hd, hr, mul_comm _ (2 ^ level)] at hcount ⊢
        have hle := le_of_mul_le_mul_left hcount hlevel
        have hodd : r * 2 + 1 ≠ d := by
          have hbig : 2 ^ 31 = 2 ^ level * (2 ^ (30 - level) * 2) := by
            rw [← pow_succ, ← pow_add]
            congr 1
            omega
          have hcancel := Nat.eq_of_mul_eq_mul_left hlevel (hd.symm.trans hbig)
          omega
        rw [← Nat.mul_succ]
        exact Nat.mul_le_mul_left _ (by omega)
      obtain ⟨level', hclimb, hle, hdvd', hbit'⟩ : ∃ level',
          climb Hash inner (count + 2 ^ level) (32 - (level + 1)) (level + 1) (Hash h h) =
            some (level', hash Hash leaf n level'
              ((count + 2 ^ level) / 2 ^ level' - 1)) ∧
          level + 1 ≤ level' ∧ 2 ^ level' ∣ count + 2 ^ level ∧
            (count + 2 ^ level).testBit level' = true := by
        refine climb_spec hnext (by omega) ?_ (by omega) ?_ hnode
        · have hexp : level + 1 + (32 - (level + 1)) = 32 := by omega
          rw [hexp]
          omega
        · exact fun l hl hdvdl => sweep_inner hinner hl (by omega) hlow hdvdl
      simp only [bind_eq_bind, hclimb, bind_some]
      have hmono : 2 ^ (level + 1) ≤ 2 ^ level' := Nat.pow_le_pow_right (by omega) hle
      exact ih hdvd' hbit' (by omega) (by omega)
        (fun l hl => sweep_below hlow hthree hdvd' hl) hcount' (by omega) rfl

theorem computeMerkleRoot_spec (Hash : H → H → H) (null : H) {leaves : List H} (hne : leaves ≠ [])
    (hlen : leaves.length ≤ 2 ^ 31) :
    ∃ height, IsHeight leaves.length height ∧
      computeMerkleRoot Hash null leaves =
        some (hash Hash (fun i => leaves.getD i null) leaves.length height 0) := by
  have hpos := List.length_pos_iff.mpr hne
  have hstart : InnerOk Hash (fun i => leaves.getD i null) leaves.length 0 fun _ => null := by
    intro l hl
    rw [Nat.zero_testBit] at hl
    cases hl
  have hrest : ∀ i x, leaves[i]? = some x → leaves.getD (0 + i) null = x := by
    intro i x hx
    rw [zero_add, List.getD_eq_getElem?_getD, hx, getD_some]
  obtain ⟨inner, hfold, hinner⟩ := addLeaves_spec hstart hrest (zero_add _) (by omega)
  have hcount : leaves.length < 2 ^ (0 + 32) := by omega
  have hone : 2 ^ 0 ∣ leaves.length := one_dvd _
  obtain ⟨level, hlow, hlt, hdvd, hbit⟩ := lowestBit_spec hone hpos hcount
  have hbelow : ∀ l < level, 2 ^ l < leaves.length := by
    intro l hl
    have hmono : 2 ^ (l + 1) ≤ 2 ^ level := Nat.pow_le_pow_right (by omega) hl
    have hle := Nat.le_of_dvd hpos hdvd
    omega
  have hleft : 31 < level + 32 := by omega
  obtain ⟨height, hsweep, hheight⟩ := sweep_spec hinner hdvd hbit (le_refl _) (by omega) hbelow
    hlen hleft (hinner level hbit)
  refine ⟨height, hheight, ?_⟩
  rw [computeMerkleRoot, if_neg (by omega)]
  simp only [bind_eq_bind, hfold, bind_some, hlow, hsweep]

end Merkle

end Rcoin
