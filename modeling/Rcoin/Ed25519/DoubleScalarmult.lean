/-
  The multiplication of two points at once, as the check of a signature uses it:
  both scalars are recoded into digits that are zero or odd from -15 to 15, and the
  points are added up from the top digit down.

  Source: `slide` and `ge_double_scalarmult_vartime` of src/ed25519/ge.c.
-/
import Rcoin.Ed25519.ScalarmultBase

namespace Rcoin

open SignedDigits Finset List Nat

/-! ## Sliding windows -/

/-- `r[i] = 1 & (a[i >> 3] >> (i & 7))`. -/
def slideBits (a : List UInt8) : List Int :=
  (List.range 256).map fun i =>
    ((1 &&& (a.getD (i >>> 3) 0).toNat >>> (i &&& 7) : Nat) : Int)

/-- The loop over `k`: one more at a place, and the carry. -/
def carryFrom : Nat → List Int → List Int
  | _, [] => []
  | k + 1, d :: ds => d :: carryFrom k ds
  | 0, d :: ds => if d = 0 then 1 :: ds else 0 :: carryFrom 0 ds

/-- The body of the loop over `b`; `none` is its `break`. -/
def slideStep (i b : Nat) (r : List Int) : Option (List Int) :=
  let ri := r.getD i 0
  let rib := r.getD (i + b) 0
  if rib ≠ 0 then
    if ri + rib * 2 ^ b ≤ 15 then some ((r.set i (ri + rib * 2 ^ b)).set (i + b) 0)
    else if ri - rib * 2 ^ b ≥ -15 then some (carryFrom (i + b) (r.set i (ri - rib * 2 ^ b)))
    else none
  else some r

/-- The loop over `b`, with the rounds that are left. -/
def slideRounds (i : Nat) : Nat → Nat → List Int → List Int
  | 0, _, r => r
  | n + 1, b, r =>
    if i + b < 256 then
      match slideStep i b r with
      | some r => slideRounds i n (b + 1) r
      | none => r
    else r

def slide (a : List UInt8) : List Int :=
  (List.range 256).foldl (fun r i => if r.getD i 0 ≠ 0 then slideRounds i 6 1 r else r)
    (slideBits a)

/-! ### The bits -/

theorem sum_bits {x : Nat} (h : x < 256) :
    ∑ i ∈ Finset.range 8, (2 : Int) ^ i * ((1 &&& x >>> i : Nat) : Int) = x := by
  have hbit : ∀ i, 1 &&& x >>> i = x / 2 ^ i % 2 := fun i => by
    rw [Nat.and_comm, and_one_is_mod, Nat.shiftRight_eq_div_pow]
  simp only [hbit, Finset.sum_range_succ, sum_range_zero]
  omega

theorem getD_slideBits (a : List UInt8) {i : Nat} (hi : i < 256) :
    (slideBits a).getD i 0 = ((1 &&& (a.getD (i / 8) 0).toNat >>> (i % 8) : Nat) : Int) := by
  have hand : i &&& 7 = i % 8 := and_two_pow_sub_one_eq_mod i 3
  have hshift : i >>> 3 = i / 8 := Nat.shiftRight_eq_div_pow i 3
  rw [slideBits, getD_eq_getElem?_getD, getElem?_map, getElem?_range hi]
  dsimp only [Option.map_some, Option.getD_some]
  rw [hand, hshift]

theorem sum_bytes_bits (a : List UInt8) :
    ∑ i ∈ Finset.range (8 * a.length),
      (2 : Int) ^ i * ((1 &&& (a.getD (i / 8) 0).toNat >>> (i % 8) : Nat) : Int) = ofLeBytes a := by
  induction a with
  | nil => rfl
  | cons b a ih =>
    have hlow : ∑ i ∈ Finset.range 8,
        (2 : Int) ^ i * ((1 &&& ((b :: a).getD (i / 8) 0).toNat >>> (i % 8) : Nat) : Int) =
          b.toNat := by
      rw [← sum_bits b.toNat_lt]
      refine sum_congr rfl fun i hi => ?_
      have hi := Finset.mem_range.mp hi
      rw [div_eq_of_lt hi, mod_eq_of_lt hi, getD_cons_zero]
    rw [length_cons, mul_succ, Nat.add_comm, sum_range_add, hlow, ofLeBytes_cons,
      Nat.cast_add, Nat.cast_mul, ← ih, mul_sum]
    congr 1
    refine sum_congr rfl fun i _ => ?_
    rw [add_div_left _ (by decide), add_mod_left, getD_cons_succ, pow_add]
    ring

variable {a : List UInt8}

theorem value_slideBits (h : a.length = 32) : value 2 (slideBits a) = ofLeBytes a := by
  have hlen : (slideBits a).length = 8 * a.length := by
    rw [slideBits, length_map, length_range, h]
  rw [← sum_bytes_bits, value_eq_sum, hlen]
  refine sum_congr rfl fun i hi => ?_
  have hi := Finset.mem_range.mp hi
  rw [getD_slideBits a (by omega)]

theorem slideBits_bit (a : List UInt8) (i : Nat) :
    (slideBits a).getD i 0 = 0 ∨ (slideBits a).getD i 0 = 1 := by
  rcases Nat.lt_or_ge i 256 with hi | hi
  · rw [getD_slideBits a hi, Nat.and_comm, and_one_is_mod]
    omega
  · left
    rw [getD_eq_default]
    rwa [slideBits, length_map, length_range]

/-! ### The carry -/

theorem length_carryFrom (k : Nat) (ds : List Int) : (carryFrom k ds).length = ds.length := by
  induction ds generalizing k with
  | nil => cases k <;> rfl
  | cons d ds ih =>
    cases k with
    | succ k => rw [carryFrom, length_cons, ih, length_cons]
    | zero =>
      rw [carryFrom]
      split
      · rfl
      · rw [length_cons, ih, length_cons]

variable {k j : Nat}

theorem getD_carryFrom_of_lt (h : j < k) (ds : List Int) :
    (carryFrom k ds).getD j 0 = ds.getD j 0 := by
  induction ds generalizing k j with
  | nil => cases k <;> rfl
  | cons d ds ih =>
    cases k with
    | zero => nomatch h
    | succ k =>
      cases j with
      | zero => rfl
      | succ j => exact ih (lt_of_succ_lt_succ h)

variable {ds : List Int}

theorem carryFrom_bit (h : ∀ j, k ≤ j → ds.getD j 0 = 0 ∨ ds.getD j 0 = 1) (hj : k ≤ j)
    : (carryFrom k ds).getD j 0 = 0 ∨ (carryFrom k ds).getD j 0 = 1 := by
  induction ds generalizing k j with
  | nil => cases k <;> exact .inl rfl
  | cons d ds ih =>
    cases k with
    | succ k =>
      cases j with
      | zero => nomatch hj
      | succ j => exact ih (fun l hl => h (l + 1) (succ_le_succ hl)) (le_of_succ_le_succ hj)
    | zero =>
      rw [carryFrom]
      split
      · cases j with
        | zero => exact .inr rfl
        | succ j => exact h (j + 1) (Nat.zero_le _)
      · cases j with
        | zero => exact .inl rfl
        | succ j => exact ih (fun l _ => h (l + 1) (Nat.zero_le _)) (Nat.zero_le j)

theorem getD_carryFrom_self (h : ds.getD k 0 ≠ 0) : (carryFrom k ds).getD k 0 = 0 := by
  induction ds generalizing k with
  | nil => exact absurd rfl h
  | cons d ds ih =>
    cases k with
    | succ k => exact ih h
    | zero =>
      have hd : d ≠ 0 := h
      rw [carryFrom, if_neg hd]
      rfl

theorem value_carryFrom (hk : k ≤ ds.length) (h : ∀ j, k ≤ j → ds.getD j 0 = 0 ∨ ds.getD j 0 = 1)
    (hlt : value 2 (ds.drop k) + 1 < 2 ^ (ds.length - k)) :
    value 2 (carryFrom k ds) = value 2 ds + 2 ^ k := by
  induction ds generalizing k with
  | nil =>
    obtain rfl : k = 0 := le_zero.mp hk
    exact absurd hlt (by decide)
  | cons d ds ih =>
    cases k with
    | succ k =>
      have hnext := ih (le_of_succ_le_succ hk)
        (fun l hl => h (l + 1) (succ_le_succ hl)) (by simpa using hlt)
      rw [carryFrom, value_cons, value_cons, hnext, pow_succ]
      ring
    | zero =>
      rw [carryFrom]
      rcases h 0 le_rfl with h0 | h1
      · have hd : d = 0 := h0
        rw [if_pos hd, value_cons, value_cons, hd, pow_zero]
        ring
      · have hd : d = 1 := h1
        have hlt' : value 2 (ds.drop 0) + 1 < 2 ^ (ds.length - 0) := by
          rw [drop_zero, value_cons, hd, length_cons, Nat.sub_zero, pow_succ] at hlt
          rw [drop_zero, Nat.sub_zero]
          omega
        have hnext := ih (Nat.zero_le _) (fun l _ => h (l + 1) (Nat.zero_le _)) hlt'
        rw [if_neg (by omega), value_cons, value_cons, hnext, hd, pow_zero]
        ring

/-! ### One place -/

/-- What the tables of odd multiples have. -/
def OddDigit (d : Int) : Prop := d % 2 = 1 ∧ -15 ≤ d ∧ d ≤ 15

/-- The digits while place `i` takes in the places above it, of which the first `b - 1`
    are done; `r0` is what it started from. -/
structure Window (r0 : List Int) (i b : Nat) (r : List Int) : Prop where
  length : r.length = 256
  value_eq : value 2 r = value 2 r0
  below : ∀ j < i, r.getD j 0 = r0.getD j 0
  here : OddDigit (r.getD i 0)
  taken : ∀ j, i < j → j < i + b → r.getD j 0 = 0
  above : ∀ j, i < j → r.getD j 0 = 0 ∨ r.getD j 0 = 1

namespace Window

variable {r0 r r' : List Int} {i b : Nat}

variable (h : Window r0 i b r)

include h

theorem drop_lt (hb : 1 ≤ b) (hib : i + b < 256) (hlen : r0.length = 256)
    (hlt : value 2 r0 < 2 ^ 255) (hlow : -2 ^ i < value 2 (r0.take i)) (hpos : 1 ≤ r.getD i 0) :
    value 2 (r.drop (i + b)) + 1 < 2 ^ (256 - (i + b)) := by
  have htake : value 2 (r.take (i + b)) = value 2 (r0.take i) + 2 ^ i * r.getD i 0 := by
    have hzero : value 2 (r.take (i + 1 + (b - 1))) = value 2 (r.take (i + 1)) :=
      value_take_add (by rw [h.length]; omega) fun j hi hj => h.taken j hi (by omega)
    have hbelow : value 2 (r.take i) = value 2 (r0.take i) :=
      value_take_congr (by rw [h.length]; omega) (by rw [hlen]; omega) h.below
    rw [show i + b = i + 1 + (b - 1) by omega, hzero,
      value_take_succ (by rw [h.length]; omega), hbelow]
  have hsplit := value_take_add_drop (b := 2) r (i := i + b) (by rw [h.length]; omega)
  rw [h.value_eq, htake] at hsplit
  have hhere : (2 : Int) ^ i ≤ 2 ^ i * r.getD i 0 := le_mul_of_one_le_right (by positivity) hpos
  have hplace : (2 : Int) ^ (i + b) ≤ 2 ^ 255 := pow_le_pow_right₀ (by norm_num) (by omega)
  have hall : (2 : Int) ^ (i + b) * 2 ^ (256 - (i + b)) = 2 ^ 256 := by
    rw [← pow_add, Nat.add_sub_cancel' (by omega)]
  have hmul : (2 : Int) ^ (i + b) * (value 2 (r.drop (i + b)) + 1) <
      2 ^ (i + b) * 2 ^ (256 - (i + b)) := by
    linarith
  exact lt_of_mul_lt_mul_left hmul (by positivity)

theorem absorb (hb : 1 ≤ b) (hib : i + b < 256) (hone : r.getD (i + b) 0 = 1)
    (hle : r.getD i 0 + 2 ^ b ≤ 15) :
    Window r0 i (b + 1) ((r.set i (r.getD i 0 + 2 ^ b)).set (i + b) 0) := by
  have hi : i < r.length := by rw [h.length]; omega
  have hib' : i + b < (r.set i (r.getD i 0 + 2 ^ b)).length := by
    rw [length_set, h.length]
    exact hib
  have hget : ∀ j, ((r.set i (r.getD i 0 + 2 ^ b)).set (i + b) 0).getD j 0 =
      if j = i + b then 0 else if j = i then r.getD i 0 + 2 ^ b else r.getD j 0 := fun j => by
    rw [getD_set hib', getD_set hi]
  have hodd := h.here
  have heven : (2 : Int) ^ b % 2 = 0 := Int.emod_eq_zero_of_dvd (dvd_pow_self 2 (by omega))
  have hpos : (0 : Int) < 2 ^ b := by positivity
  refine ⟨by rw [length_set, length_set, h.length], ?_, fun j hj => ?_, ?_,
    fun j hij hj => ?_, fun j hij => ?_⟩
  · rw [value_set hib', value_set hi, getD_set hi, if_neg (by omega), hone, h.value_eq, pow_add]
    ring
  · rw [hget, if_neg (by omega), if_neg (by omega), h.below j hj]
  · rw [hget, if_neg (by omega), if_pos rfl]
    unfold OddDigit at hodd ⊢
    omega
  · rw [hget]
    split
    · rfl
    · rw [if_neg (by omega)]
      exact h.taken j hij (by omega)
  · rw [hget]
    split
    · exact .inl rfl
    · rw [if_neg (by omega)]
      exact h.above j hij

theorem subtract (hb : 1 ≤ b) (hib : i + b < 256) (hlen : r0.length = 256)
    (hlt : value 2 r0 < 2 ^ 255) (hlow : -2 ^ i < value 2 (r0.take i)) (hone : r.getD (i + b) 0 = 1)
    (hge : -15 ≤ r.getD i 0 - 2 ^ b) (hpos : 1 ≤ r.getD i 0) :
    Window r0 i (b + 1) (carryFrom (i + b) (r.set i (r.getD i 0 - 2 ^ b))) := by
  have hi : i < r.length := by rw [h.length]; omega
  have hodd := h.here
  have heven : (2 : Int) ^ b % 2 = 0 := Int.emod_eq_zero_of_dvd (dvd_pow_self 2 (by omega))
  have hpow : (0 : Int) < 2 ^ b := by positivity
  have hdrop : (r.set i (r.getD i 0 - 2 ^ b)).drop (i + b) = r.drop (i + b) :=
    drop_set_of_lt (by omega)
  have hself : (r.set i (r.getD i 0 - 2 ^ b)).getD (i + b) 0 = 1 := by
    rw [getD_set hi, if_neg (by omega), hone]
  -- above the window the digits are bits, so the carry is one
  have hbit : ∀ j, i + b ≤ j → (r.set i (r.getD i 0 - 2 ^ b)).getD j 0 = 0 ∨
      (r.set i (r.getD i 0 - 2 ^ b)).getD j 0 = 1 := by
    intro j hj
    rw [getD_set hi, if_neg (by omega)]
    exact h.above j (by omega)
  have hbelow : ∀ j, j < i + b → (carryFrom (i + b) (r.set i (r.getD i 0 - 2 ^ b))).getD j 0 =
      if j = i then r.getD i 0 - 2 ^ b else r.getD j 0 := by
    intro j hj
    rw [getD_carryFrom_of_lt hj, getD_set hi]
  refine ⟨by rw [length_carryFrom, length_set, h.length], ?_, fun j hj => ?_, ?_,
    fun j hij hj => ?_, fun j hij => ?_⟩
  · have hlt' : value 2 ((r.set i (r.getD i 0 - 2 ^ b)).drop (i + b)) + 1 <
        2 ^ ((r.set i (r.getD i 0 - 2 ^ b)).length - (i + b)) := by
      rw [hdrop, length_set, h.length]
      exact h.drop_lt hb hib hlen hlt hlow hpos
    rw [value_carryFrom (by rw [length_set, h.length]; omega) hbit hlt', value_set hi,
      h.value_eq, pow_add]
    ring
  · rw [hbelow j (by omega), if_neg (by omega), h.below j hj]
  · rw [hbelow i (by omega), if_pos rfl]
    unfold OddDigit at hodd ⊢
    omega
  · rcases Nat.lt_or_ge j (i + b) with hj' | hj'
    · rw [hbelow j hj', if_neg (by omega)]
      exact h.taken j hij hj'
    · obtain rfl : j = i + b := by omega
      exact getD_carryFrom_self (by rw [hself]; decide)
  · rcases Nat.lt_or_ge j (i + b) with hj' | hj'
    · rw [hbelow j hj', if_neg (by omega)]
      exact h.above j hij
    · exact carryFrom_bit hbit hj'

theorem slideStep (hb : 1 ≤ b) (hib : i + b < 256) (hlen : r0.length = 256)
    (hlt : value 2 r0 < 2 ^ 255) (hlow : -2 ^ i < value 2 (r0.take i)) :
    (∃ r', Rcoin.slideStep i b r = some r' ∧ Window r0 i (b + 1) r') ∨
      (Rcoin.slideStep i b r = none ∧ 5 ≤ b) := by
  have hodd := h.here
  unfold OddDigit at hodd
  unfold Rcoin.slideStep
  rcases h.above (i + b) (by omega) with h0 | h1
  · refine .inl ⟨r, if_neg fun hne => hne h0, h.length, h.value_eq, h.below, h.here, ?_, h.above⟩
    intro j hij hj
    rcases Nat.lt_or_ge j (i + b) with hj' | hj'
    · exact h.taken j hij hj'
    · obtain rfl : j = i + b := by omega
      exact h0
  rw [if_pos (by rw [h1]; decide), h1, one_mul]
  by_cases hle : r.getD i 0 + 2 ^ b ≤ 15
  · rw [if_pos hle]
    exact .inl ⟨_, rfl, h.absorb hb hib h1 hle⟩
  rw [if_neg hle]
  by_cases hge : r.getD i 0 - 2 ^ b ≥ -15
  · -- the place is odd, so that four places up it is positive
    have hpos : 1 ≤ r.getD i 0 := by
      rcases Nat.lt_or_ge b 5 with hb5 | hb5
      · have hcases : (2 : Int) ^ b ≤ 16 := by
          calc (2 : Int) ^ b ≤ 2 ^ 4 := pow_le_pow_right₀ (by norm_num) (by omega)
            _ = 16 := by norm_num
        omega
      · have hbig : (32 : Int) ≤ 2 ^ b := by
          calc (32 : Int) = 2 ^ 5 := by norm_num
            _ ≤ 2 ^ b := pow_le_pow_right₀ (by norm_num) hb5
        omega
    rw [if_pos hge]
    exact .inl ⟨_, rfl, h.subtract hb hib hlen hlt hlow h1 hge hpos⟩
  · refine .inr ⟨if_neg hge, ?_⟩
    by_contra hb5
    have hcases : (2 : Int) ^ b ≤ 16 := by
      calc (2 : Int) ^ b ≤ 2 ^ 4 := pow_le_pow_right₀ (by norm_num) (by omega)
        _ = 16 := by norm_num
    omega

theorem mono {b' : Nat} (hb : b' ≤ b) : Window r0 i b' r :=
  ⟨h.length, h.value_eq, h.below, h.here, fun j hij hj => h.taken j hij (by omega), h.above⟩

theorem slideRounds {n : Nat} (hb : 1 ≤ b) (hn : n + b = 7) (hlen : r0.length = 256)
    (hlt : value 2 r0 < 2 ^ 255) (hlow : -2 ^ i < value 2 (r0.take i)) :
    Window r0 i 5 (Rcoin.slideRounds i n b r) := by
  induction n generalizing b r with
  | zero => exact h.mono (by omega)
  | succ n ih =>
    unfold Rcoin.slideRounds
    split
    next hib =>
      rcases h.slideStep hb hib hlen hlt hlow with ⟨r', hstep, hnext⟩ | ⟨hstep, hfive⟩
      · rw [hstep]
        exact ih hnext (by omega) (by omega)
      · rw [hstep]
        exact h.mono hfive
    next hib =>
      -- the list ends below
      refine ⟨h.length, h.value_eq, h.below, h.here, fun j hij hj => ?_, h.above⟩
      rcases Nat.lt_or_ge j (i + b) with hj' | hj'
      · exact h.taken j hij hj'
      · exact getD_eq_default _ _ (by rw [h.length]; omega)

omit h

end Window

/-! ### All places -/

/-- The digits when the places below `i` are done; what stands below a digit that is
    left does not reach it from above. -/
structure Slid (x : Int) (i : Nat) (r : List Int) : Prop where
  length : r.length = 256
  value_eq : value 2 r = x
  below : ∀ j < i, r.getD j 0 = 0 ∨ OddDigit (r.getD j 0)
  above : ∀ j, i ≤ j → r.getD j 0 = 0 ∨ r.getD j 0 = 1
  low : ∀ k, i ≤ k → r.getD k 0 ≠ 0 → -2 ^ k < value 2 (r.take i)

theorem Slid.slideBits (h : a.length = 32) : Slid (ofLeBytes a) 0 (slideBits a) where
  length := by rw [Rcoin.slideBits, length_map, length_range]
  value_eq := value_slideBits h
  below _ hj := nomatch hj
  above j _ := slideBits_bit a j
  low k _ _ := by
    rw [take_zero, value_nil, neg_lt_zero]
    positivity

theorem Slid.step {x : Int} {i : Nat} {r : List Int} (h : Slid x i r) (hi : i < 256)
    (hlt : x < 2 ^ 255) :
    Slid x (i + 1) (if r.getD i 0 ≠ 0 then slideRounds i 6 1 r else r) := by
  have hlast : i < r.length := by rw [h.length]; exact hi
  by_cases hzero : r.getD i 0 = 0
  · rw [if_neg fun hne => hne hzero]
    have htake : value 2 (r.take (i + 1)) = value 2 (r.take i) := by
      rw [value_take_succ hlast, hzero, mul_zero, add_zero]
    refine ⟨h.length, h.value_eq, fun j hj => ?_, fun j hj => h.above j (by omega), ?_⟩
    · rcases Nat.lt_succ_iff_lt_or_eq.mp hj with hj | rfl
      · exact h.below j hj
      · exact .inl hzero
    · intro k hk hne
      rw [htake]
      exact h.low k (by omega) hne
  · rw [if_pos hzero]
    have hone : r.getD i 0 = 1 := (h.above i le_rfl).resolve_left hzero
    have hstart : Window r i 1 r := ⟨h.length, rfl, fun _ _ => rfl,
      by rw [hone]; exact ⟨rfl, by decide, by decide⟩,
      fun j hij hj => by omega, fun j hij => h.above j hij.le⟩
    have hend := hstart.slideRounds (n := 6) le_rfl rfl h.length (h.value_eq ▸ hlt)
      (h.low i le_rfl hzero)
    refine ⟨hend.length, hend.value_eq.trans h.value_eq, fun j hj => ?_,
      fun j hj => hend.above j hj, fun k hk hne => ?_⟩
    · rcases Nat.lt_succ_iff_lt_or_eq.mp hj with hj | rfl
      · rw [hend.below j hj]
        exact h.below j hj
      · exact .inr hend.here
    · have hfive : i + 4 ≤ k := by
        by_contra hlt
        exact hne (hend.taken k hk (by omega))
      have htake : value 2 ((slideRounds i 6 1 r).take i) = value 2 (r.take i) :=
        value_take_congr (by rw [hend.length]; omega) (by omega) hend.below
      have hlow := h.low i le_rfl hzero
      have hdigit : (2 : Int) ^ i * -15 ≤ 2 ^ i * (slideRounds i 6 1 r).getD i 0 :=
        mul_le_mul_of_nonneg_left hend.here.2.1 (by positivity)
      have hpow : (2 : Int) ^ i * 16 ≤ 2 ^ k := by
        calc (2 : Int) ^ i * 16 = 2 ^ (i + 4) := by rw [pow_add]; norm_num
          _ ≤ 2 ^ k := pow_le_pow_right₀ (by norm_num) hfive
      rw [value_take_succ (by rw [hend.length]; exact hi), htake]
      linarith

theorem slid_slide (h : a.length = 32) (hlt : ofLeBytes a < 2 ^ 255) :
    Slid (ofLeBytes a) 256 (slide a) := by
  have hrun : ∀ n ≤ 256, Slid (ofLeBytes a) n ((List.range n).foldl
      (fun r i => if r.getD i 0 ≠ 0 then slideRounds i 6 1 r else r) (slideBits a)) := by
    intro n hn
    induction n with
    | zero => exact Slid.slideBits h
    | succ n ih =>
      rw [List.range_succ, foldl_append]
      exact (ih (le_of_succ_le hn)).step hn (by exact_mod_cast hlt)
  exact hrun 256 le_rfl

/-! ## The multiplication -/

namespace EdwardsCurve

variable (C : EdwardsCurve)

/-- `Ai`: A, 3A, 5A, ..., 15A, each from the one before. -/
def oddMultiple (A : C.Point) : Nat → C.Point
  | 0 => A
  | j + 1 => (A + A) + oddMultiple A j

/-- A digit's entry is added or taken off; there is none for 0. -/
def addDigit (table : Nat → C.Point) (t : C.Point) (d : Int) : C.Point :=
  if d > 0 then t + table (d / 2).toNat
  else if d < 0 then t - table (-d / 2).toNat
  else t

/-- `ge_double_scalarmult_vartime`, from the highest place with a digit down. -/
def ge_double_scalarmult_vartime (a : List UInt8) (A : C.Point) (b : List UInt8) : C.Point :=
  let digits := ((slide a).zip (slide b)).reverse.dropWhile fun d => d.1 = 0 ∧ d.2 = 0
  digits.foldl (fun r d => C.addDigit C.Bi (C.addDigit (C.oddMultiple A) (r + r) d.1) d.2) 0

theorem oddMultiple_eq (A : C.Point) (j : Nat) : C.oddMultiple A j = (2 * j + 1) • A := by
  induction j with
  | zero => rw [oddMultiple, Nat.mul_zero, Nat.zero_add, one_smul]
  | succ j ih =>
    rw [oddMultiple, ih, ← two_nsmul, ← add_nsmul]
    ring_nf

theorem addDigit_eq {table : Nat → C.Point} {A : C.Point}
    (htable : ∀ j < 8, table j = (2 * j + 1) • A) (t : C.Point) {d : Int}
    (hd : d = 0 ∨ OddDigit d) : C.addDigit table t d = t + d • A := by
  unfold addDigit
  rcases hd with rfl | ⟨hodd, hlow, hhigh⟩
  · rw [if_neg (by decide), if_neg (by decide), zero_smul, add_zero]
  by_cases hpos : d > 0
  · have hentry : ((2 * (d / 2).toNat + 1 : Nat) : Int) = d := by omega
    rw [if_pos hpos, htable _ (by omega), ← natCast_zsmul, hentry]
  · have hentry : ((2 * (-d / 2).toNat + 1 : Nat) : Int) = -d := by omega
    rw [if_neg hpos, if_pos (by omega), htable _ (by omega), ← natCast_zsmul, hentry, neg_smul,
      sub_neg_eq_add]

theorem foldl_dropWhile {f : C.Point → Int × Int → C.Point} (hf : f 0 (0, 0) = 0)
    (digits : List (Int × Int)) :
    (digits.dropWhile fun d => d.1 = 0 ∧ d.2 = 0).foldl f 0 = digits.foldl f 0 := by
  induction digits with
  | nil => rfl
  | cons d digits ih =>
    rw [dropWhile_cons]
    split
    next hzero =>
      obtain ⟨h1, h2⟩ := of_decide_eq_true hzero
      have hd : d = (0, 0) := Prod.ext h1 h2
      rw [ih, foldl_cons, hd, hf]
    next => rfl

theorem ge_double_scalarmult_vartime_eq {b : List UInt8} (A : C.Point) (ha : a.length = 32)
    (hb : b.length = 32) (halt : ofLeBytes a < 2 ^ 255) (hblt : ofLeBytes b < 2 ^ 255) :
    C.ge_double_scalarmult_vartime a A b = ofLeBytes a • A + ofLeBytes b • C.B := by
  have hslide := slid_slide ha halt
  have hslide' := slid_slide hb hblt
  have hA : ∀ j < 8, C.oddMultiple A j = (2 * j + 1) • A := fun j _ => C.oddMultiple_eq A j
  have hdigit : ∀ {x : Int} {r : List Int}, Slid x 256 r → ∀ d ∈ r, d = 0 ∨ OddDigit d := by
    intro x r h d hd
    obtain ⟨j, hj, rfl⟩ := getElem_of_mem hd
    have hj' := h.below j (h.length ▸ hj)
    rwa [getD_eq_getElem _ _ hj] at hj'
  have hround : ∀ d ∈ (slide a).zip (slide b), ∀ r : C.Point,
      C.addDigit C.Bi (C.addDigit (C.oddMultiple A) (r + r) d.1) d.2 =
        (2 : Int) • r + d.1 • A + d.2 • C.B := by
    intro d hd r
    have hmem := of_mem_zip (a := d.1) (b := d.2) hd
    rw [C.addDigit_eq hA _ (hdigit hslide _ hmem.1),
      C.addDigit_eq C.Bi_eq _ (hdigit hslide' _ hmem.2), two_zsmul]
  have hzero : C.addDigit C.Bi (C.addDigit (C.oddMultiple A) (0 + 0) 0) 0 = 0 := by
    rw [C.addDigit_eq hA _ (Or.inl rfl), C.addDigit_eq C.Bi_eq _ (Or.inl rfl), zero_smul,
      zero_smul, add_zero, add_zero, add_zero]
  unfold ge_double_scalarmult_vartime
  rw [C.foldl_dropWhile hzero, foldl_reverse,
    foldr_ext _ _ _ (fun d hd r => hround d hd r),
    foldr_zip_smul (hslide.length.trans hslide'.length.symm), hslide.value_eq, hslide'.value_eq,
    natCast_zsmul, natCast_zsmul]

end EdwardsCurve

end Rcoin
