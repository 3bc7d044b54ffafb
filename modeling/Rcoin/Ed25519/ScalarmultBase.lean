/-
  The group of the curve with the routines that encode its points, and the
  multiplication of the base point: 64 signed digits to base 16, each of which
  selects a multiple from a table that ends at 8.  Within the documented range of
  the scalar every digit is found in the table; beyond it the top digit is lost.

  Source: src/ed25519/ge.c; the tables are those of src/ed25519/precomp_data.h.
-/
import Rcoin.Lib.SignedDigits
import Rcoin.Wallet.ExtKey

namespace Rcoin

open SignedDigits List

/-- The points with their addition, the tables, and the routines of `ge.c`, `sc.c`
    and `sha512.c` on bytes. -/
structure EdwardsCurve where
  Point : Type
  [group : AddCommGroup Point]
  /-- The base point. -/
  B : Point
  addOrderOf_B : addOrderOf B = groupOrder
  /-- `base[i][j] = (j+1)*256^i*B`. -/
  base : Nat → Nat → Point
  base_eq : ∀ i < 32, ∀ j < 8, base i j = ((j + 1) * 256 ^ i) • B
  /-- `B, 3B, 5B, ..., 15B`. -/
  Bi : Nat → Point
  Bi_eq : ∀ j < 8, Bi j = (2 * j + 1) • B
  ge_tobytes : Point → List UInt8
  ge_tobytes_length : ∀ P, (ge_tobytes P).length = 32
  /-- `none` is -1: no point has these bytes. -/
  ge_frombytes_negate_vartime : List UInt8 → Option Point
  ge_frombytes_negate_tobytes : ∀ P, ge_frombytes_negate_vartime (ge_tobytes P) = some (-P)
  /-- `s mod l`. -/
  sc_reduce : List UInt8 → List UInt8
  sc_reduce_eq : ∀ s, s.length = 64 → sc_reduce s = leBytes 32 (ofLeBytes s % groupOrder)
  /-- `(ab + c) mod l`. -/
  sc_muladd : List UInt8 → List UInt8 → List UInt8 → List UInt8
  sc_muladd_eq : ∀ a b c, a.length = 32 → b.length = 32 → c.length = 32 →
    sc_muladd a b c = leBytes 32 ((ofLeBytes a * ofLeBytes b + ofLeBytes c) % groupOrder)
  sha512 : List UInt8 → List UInt8
  sha512_length : ∀ data, (sha512 data).length = 64

attribute [instance] EdwardsCurve.group

theorem ofLeBytes_cons (b : UInt8) (bytes : List UInt8) :
    ofLeBytes (b :: bytes) = b.toNat + 256 * ofLeBytes bytes := by
  rw [ofLeBytes, reverse_cons, map_append, map_singleton, Digits.ofDigits_concat,
    ofLeBytes]
  omega

/-! ## Digits -/

/-- `e[2i] = a[i] & 15`, `e[2i+1] = a[i] >> 4`. -/
def nibbles : List UInt8 → List Int
  | [] => []
  | b :: bytes => ((b &&& 15).toNat : Int) :: ((b >>> 4).toNat : Int) :: nibbles bytes

/-- The loop that moves each digit but the last into the range from -8 to 7. -/
def recode : Int → List Int → List Int
  | _, [] => []
  | carry, [d] => [d + carry]
  | carry, d :: d' :: ds =>
    let e := d + carry
    let carry := (e + 8) / 16
    (e - 16 * carry) :: recode carry (d' :: ds)

/-- `e`, as `ge_scalarmult_base` uses it. -/
def signedDigits (a : List UInt8) : List Int := recode 0 (nibbles a)

theorem length_nibbles (a : List UInt8) : (nibbles a).length = 2 * a.length := by
  induction a with
  | nil => rfl
  | cons b a ih =>
    rw [nibbles, length_cons, length_cons, ih, length_cons]
    ring

theorem value_nibbles (a : List UInt8) : value 16 (nibbles a) = ofLeBytes a := by
  induction a with
  | nil => rfl
  | cons b a ih =>
    have hlow : (b &&& 15).toNat = b.toNat % 16 := by
      exact Nat.and_two_pow_sub_one_eq_mod _ 4
    have hhigh : (b >>> 4).toNat = b.toNat / 16 := by
      exact Nat.shiftRight_eq_div_pow _ 4
    rw [nibbles, value_cons, value_cons, ih, hlow, hhigh, ofLeBytes_cons]
    omega

theorem nibbles_bounds (a : List UInt8) : ∀ d ∈ nibbles a, 0 ≤ d ∧ d ≤ 15 := by
  induction a with
  | nil => exact fun d hd => nomatch hd
  | cons b a ih =>
    intro d hd
    have hlow : (b &&& 15).toNat ≤ 15 := by
      exact Nat.and_le_right
    have hhigh : (b >>> 4).toNat ≤ 15 := by
      have hb := b.toNat_lt
      change b.toNat >>> 4 ≤ 15
      omega
    rcases mem_cons.mp hd with rfl | hd
    · omega
    rcases mem_cons.mp hd with rfl | hd
    · omega
    · exact ih d hd

theorem length_recode (carry : Int) (ds : List Int) : (recode carry ds).length = ds.length := by
  induction ds generalizing carry with
  | nil => rfl
  | cons d ds ih =>
    cases ds with
    | nil => rfl
    | cons d' ds =>
      rw [recode, length_cons, ih]
      rfl

theorem value_recode (carry : Int) {ds : List Int} (h : ds ≠ []) :
    value 16 (recode carry ds) = carry + value 16 ds := by
  induction ds generalizing carry with
  | nil => exact absurd rfl h
  | cons d ds ih =>
    cases ds with
    | nil =>
      rw [recode, value_cons, value_cons, value_nil]
      ring
    | cons d' ds =>
      rw [recode, value_cons, ih _ (cons_ne_nil _ _), value_cons d]
      ring

theorem recode_bounds {carry : Int} (hc : 0 ≤ carry ∧ carry ≤ 1) {ds : List Int}
    (hds : ∀ d ∈ ds, 0 ≤ d ∧ d ≤ 15) (i : Nat) :
    (i + 1 < ds.length → -8 ≤ (recode carry ds).getD i 0 ∧ (recode carry ds).getD i 0 ≤ 7) ∧
      (i + 1 = ds.length → ds.getD i 0 ≤ (recode carry ds).getD i 0 ∧
        (recode carry ds).getD i 0 ≤ ds.getD i 0 + 1) := by
  induction ds generalizing carry i with
  | nil => exact ⟨fun h => (nomatch h), fun h => (nomatch h)⟩
  | cons d ds ih =>
    have hd := hds d mem_cons_self
    cases ds with
    | nil =>
      refine ⟨fun h => ?_, fun h => ?_⟩
      · rw [length_singleton] at h
        omega
      · obtain rfl : i = 0 := by
          rw [length_singleton] at h
          omega
        rw [recode, getD_cons_zero, getD_cons_zero]
        omega
    | cons d' ds =>
      rw [recode]
      cases i with
      | zero =>
        refine ⟨fun _ => ?_, fun h => ?_⟩
        · rw [getD_cons_zero]
          omega
        · rw [length_cons, length_cons] at h
          omega
      | succ i =>
        rw [getD_cons_succ, getD_cons_succ, length_cons]
        have hcarry : 0 ≤ (d + carry + 8) / 16 ∧ (d + carry + 8) / 16 ≤ 1 := by omega
        have hnext := ih hcarry (fun x hx => hds x (mem_cons_of_mem _ hx)) i
        exact ⟨fun h => hnext.1 (by omega), fun h => hnext.2 (by omega)⟩

theorem getD_nibbles (a : List UInt8) (i : Nat) :
    (nibbles a).getD (2 * i + 1) 0 = (a.getD i 0).toNat / 16 := by
  induction a generalizing i with
  | nil => simp [nibbles]
  | cons b a ih =>
    cases i with
    | zero =>
      have hhigh : (b >>> 4).toNat = b.toNat / 16 := by
        exact Nat.shiftRight_eq_div_pow _ 4
      show ((b >>> 4).toNat : Int) = _
      rw [hhigh]
      rfl
    | succ i => exact ih i

/-- `e[63]`. -/
def topDigit (a : List UInt8) : Int := (signedDigits a).getD 63 0

variable {a : List UInt8}

variable (h : a.length = 32)

include h

theorem length_signedDigits : (signedDigits a).length = 64 := by
  rw [signedDigits, length_recode, length_nibbles, h]

theorem value_signedDigits : value 16 (signedDigits a) = ofLeBytes a := by
  have hne : nibbles a ≠ [] := by
    intro hnil
    have hlen := length_nibbles a
    rw [hnil, h] at hlen
    exact nomatch hlen
  rw [signedDigits, value_recode 0 hne, value_nibbles, zero_add]

theorem signedDigits_bounds {i : Nat} (hi : i < 63) :
    -8 ≤ (signedDigits a).getD i 0 ∧ (signedDigits a).getD i 0 ≤ 7 :=
  (recode_bounds ⟨le_rfl, zero_le_one⟩ (nibbles_bounds a) i).1 (by rw [length_nibbles, h]; omega)

theorem topDigit_bounds : ((a.getD 31 0).toNat / 16 : Int) ≤ topDigit a ∧
      topDigit a ≤ (a.getD 31 0).toNat / 16 + 1 := by
  have hlast : 63 + 1 = (nibbles a).length := by rw [length_nibbles, h]
  have htop := (recode_bounds ⟨le_rfl, zero_le_one⟩ (nibbles_bounds a) 63).2 hlast
  rw [getD_nibbles a 31] at htop
  exact htop

theorem topDigit_le (ha : (a.getD 31 0).toNat ≤ 127) : topDigit a ≤ 8 := by
  have htop := topDigit_bounds h
  omega

omit h

/-! ## The multiplication -/

namespace EdwardsCurve

variable (C : EdwardsCurve)

/-- `select`: the entry of the table for a digit; there is none for digits beyond 8. -/
def select (pos : Nat) (b : Int) : C.Point :=
  let t := if 1 ≤ b.natAbs ∧ b.natAbs ≤ 8 then C.base pos (b.natAbs - 1) else 0
  if b < 0 then -t else t

def ge_scalarmult_base (a : List UInt8) : C.Point :=
  let e := signedDigits a
  let h := (range 32).foldl (fun h i => h + C.select i (e.getD (2 * i + 1) 0)) 0
  let h := h + h
  let h := h + h
  let h := h + h
  let h := h + h
  (range 32).foldl (fun h i => h + C.select i (e.getD (2 * i) 0)) h

theorem select_eq {pos : Nat} (hpos : pos < 32) {b : Int} (hb : b.natAbs ≤ 8) :
    C.select pos b = (256 ^ pos * b) • C.B := by
  have htable : 1 ≤ b.natAbs → C.base pos (b.natAbs - 1) = (256 ^ pos * b.natAbs : Int) • C.B := by
    intro h
    rw [C.base_eq pos hpos _ (by omega), Nat.sub_add_cancel h, ← natCast_zsmul]
    push_cast
    rw [mul_comm]
  have ht : (if 1 ≤ b.natAbs ∧ b.natAbs ≤ 8 then C.base pos (b.natAbs - 1) else 0) =
      (256 ^ pos * b.natAbs : Int) • C.B := by
    by_cases h : 1 ≤ b.natAbs
    · rw [if_pos ⟨h, hb⟩, htable h]
    · rw [if_neg fun hle => h hle.1, Nat.lt_one_iff.mp (not_le.mp h), Nat.cast_zero, mul_zero,
        zero_smul]
  unfold select
  rw [ht]
  by_cases hneg : b < 0
  · rw [if_pos hneg, Int.ofNat_natAbs_of_nonpos hneg.le, ← neg_smul]
    ring_nf
  · rw [if_neg hneg, Int.natAbs_of_nonneg (not_lt.mp hneg)]

theorem select_of_lt (pos : Nat) {b : Int} (hb : 8 < b) : C.select pos b = 0 := by
  unfold select
  rw [if_neg (by omega), if_neg (by omega)]

theorem foldl_add (f : Nat → C.Point) (h : C.Point) (n : Nat) :
    (List.range n).foldl (fun h i => h + f i) h = h + ∑ i ∈ Finset.range n, f i := by
  induction n with
  | zero => simp
  | succ n ih =>
    rw [List.range_succ, foldl_append, ih, Finset.sum_range_succ]
    exact add_assoc ..

theorem sum_even_odd (f : Nat → C.Point) (n : Nat) :
    ∑ i ∈ Finset.range (2 * n), f i =
      ∑ i ∈ Finset.range n, f (2 * i + 1) + ∑ i ∈ Finset.range n, f (2 * i) := by
  induction n with
  | zero => simp
  | succ n ih =>
    rw [Nat.mul_succ, Finset.sum_range_succ, Finset.sum_range_succ, ih, Finset.sum_range_succ,
      Finset.sum_range_succ]
    abel

/-- The digit at a place, where the table has it. -/
def foundDigit (a : List UInt8) (i : Nat) : Int :=
  if i < 63 ∨ topDigit a ≤ 8 then (signedDigits a).getD i 0 else 0

theorem select_digit (h : a.length = 32) {pos i : Nat} (hpos : pos < 32) (hi : i < 64) :
    C.select pos ((signedDigits a).getD i 0) = (256 ^ pos * foundDigit a i) • C.B := by
  have htop := topDigit_bounds h
  unfold foundDigit
  by_cases hi' : i < 63
  · have hdigit := signedDigits_bounds h hi'
    rw [if_pos (Or.inl hi'), C.select_eq hpos (by omega)]
  obtain rfl : i = 63 := by omega
  by_cases hle : topDigit a ≤ 8
  · rw [if_pos (Or.inr hle)]
    refine C.select_eq hpos ?_
    show (topDigit a).natAbs ≤ 8
    omega
  · rw [if_neg (by omega), mul_zero, zero_smul]
    exact C.select_of_lt pos (not_le.mp hle)

theorem ge_scalarmult_base_sum (h : a.length = 32) :
    C.ge_scalarmult_base a = (∑ i ∈ Finset.range 64, 16 ^ i * foundDigit a i) • C.B := by
  have hodd : ∑ i ∈ Finset.range 32, C.select i ((signedDigits a).getD (2 * i + 1) 0) =
      ∑ i ∈ Finset.range 32, (256 ^ i * foundDigit a (2 * i + 1)) • C.B := by
    refine Finset.sum_congr rfl fun i hi => ?_
    have hi := Finset.mem_range.mp hi
    exact C.select_digit h hi (by omega)
  have heven : ∑ i ∈ Finset.range 32, C.select i ((signedDigits a).getD (2 * i) 0) =
      ∑ i ∈ Finset.range 32, (256 ^ i * foundDigit a (2 * i)) • C.B := by
    refine Finset.sum_congr rfl fun i hi => ?_
    have hi := Finset.mem_range.mp hi
    exact C.select_digit h hi (by omega)
  have hpow : ∀ i, (16 : Int) ^ (2 * i) = 256 ^ i := fun i => by rw [pow_mul]; norm_num
  -- doubled four times
  have hdouble : ∀ P : C.Point, P + P + (P + P) + (P + P + (P + P)) +
      (P + P + (P + P) + (P + P + (P + P))) = (16 : Int) • P := by
    intro P
    abel
  unfold ge_scalarmult_base
  rw [C.foldl_add, C.foldl_add, zero_add, hdouble, hodd, heven, Finset.smul_sum, Finset.sum_smul,
    C.sum_even_odd _ 32]
  congr 1
  refine Finset.sum_congr rfl fun i _ => ?_
  rw [smul_smul, pow_succ, hpow]
  ring_nf

theorem ge_scalarmult_base_eq (h : a.length = 32) : C.ge_scalarmult_base a =
      ((ofLeBytes a : Int) - if topDigit a ≤ 8 then 0 else 16 ^ 63 * topDigit a) • C.B := by
  have hvalue := value_signedDigits h
  rw [value_eq_sum, length_signedDigits h, Finset.sum_range_succ] at hvalue
  have hlow : ∑ i ∈ Finset.range 63, 16 ^ i * foundDigit a i =
      ∑ i ∈ Finset.range 63, 16 ^ i * (signedDigits a).getD i 0 :=
    Finset.sum_congr rfl fun i hi => by rw [foundDigit, if_pos (Or.inl (Finset.mem_range.mp hi))]
  rw [C.ge_scalarmult_base_sum h, Finset.sum_range_succ, hlow, ← hvalue, foundDigit]
  congr 1
  show _ + 16 ^ 63 * (if 63 < 63 ∨ topDigit a ≤ 8 then topDigit a else 0) =
    _ + 16 ^ 63 * topDigit a - _
  by_cases hle : topDigit a ≤ 8
  · rw [if_pos (Or.inr hle), if_pos hle, sub_zero]
  · rw [if_neg (by omega), if_neg hle]
    ring

theorem ge_scalarmult_base_of_le (h : a.length = 32) (ha : (a.getD 31 0).toNat ≤ 127)
    : C.ge_scalarmult_base a = ofLeBytes a • C.B := by
  rw [C.ge_scalarmult_base_eq h, if_pos (topDigit_le h ha), sub_zero, natCast_zsmul]

end EdwardsCurve

end Rcoin
