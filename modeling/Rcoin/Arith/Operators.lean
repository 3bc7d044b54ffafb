/-
  The compound operators of `base_uint<BITS>` as calls on an object: `*=` of two numbers
  and `/=` clear `*this` first, which the header does by writing the two low words, and
  a reference argument may be `*this` itself.

  The other loops read a word of the argument before they write the same word of `*this`, so
  what the argument held before the call is what they compute with.

  Source: src/arith_uint256.{h,cpp}.
-/
import Rcoin.Arith.Division

namespace Rcoin

open Limbs BitVec List Nat

/-- What an operator comes to: a value, an exception, or undefined behaviour (a word past
    the end of `pn`, an `int` out of its range). -/
inductive Outcome (α : Type) where
  | value (a : α)
  | uint_error (str : String)
  | undefined
  deriving DecidableEq

namespace BaseUint

variable {WIDTH : Nat}

/-- The argument `const base_uint& b` of an operator: `*this` or another object. -/
inductive Operand (WIDTH : Nat) where
  | this
  | other (b : BaseUint WIDTH)

/-- The words read through the reference while those of `*this` are `pn`. -/
def Operand.pn (pn : List (BitVec 32)) : Operand WIDTH → List (BitVec 32)
  | this => pn
  | other b => b.pn

/-- What the argument holds at the call. -/
def Operand.read (a : BaseUint WIDTH) : Operand WIDTH → BaseUint WIDTH
  | this => a
  | other b => b

/-! ## The operators -/

/-- `operator=(uint64_t)`: it writes `pn[0]` and `pn[1]`. -/
def assignUInt64 (b : BitVec 64) : Outcome (BaseUint WIDTH) :=
  if 2 ≤ WIDTH then
    .value ⟨(List.range WIDTH).map fun i => (b >>> (32 * i)).setWidth 32, by simp⟩
  else .undefined

/-- One round of the inner loop of `operator*=`. -/
def mulStep (aj : BitVec 32) (b : Operand WIDTH) (j : Nat) :
    BitVec 64 × List (BitVec 32) → Nat → BitVec 64 × List (BitVec 32)
  | (carry, pn), i =>
    let n := carry + (pn.getD (i + j) 0#32).setWidth 64 +
      aj.setWidth 64 * ((b.pn pn).getD i 0#32).setWidth 64
    (n >>> 32, pn.set (i + j) (n.setWidth 32))

/-- One round of the outer loop. -/
def mulRow (a : BaseUint WIDTH) (b : Operand WIDTH) (pn : List (BitVec 32)) (j : Nat) :
    List (BitVec 32) :=
  ((List.range (WIDTH - j)).foldl (mulStep (a.word j) b j) (0, pn)).2

theorem length_mulSteps (aj : BitVec 32) (b : Operand WIDTH) (j : Nat) (l : List Nat)
    (st : BitVec 64 × List (BitVec 32)) :
    (l.foldl (mulStep aj b j) st).2.length = st.2.length := by
  induction l generalizing st with
  | nil => rfl
  | cons i l ih =>
    rw [foldl_cons, ih, mulStep]
    exact length_set

theorem length_mulRow (a : BaseUint WIDTH) (b : Operand WIDTH) (pn : List (BitVec 32)) (j : Nat) :
    (mulRow a b pn j).length = pn.length := length_mulSteps ..

/-- `operator*=(const base_uint&)`: it clears `*this` and adds up the rows. -/
def mulAssign (a : BaseUint WIDTH) (b : Operand WIDTH) : Outcome (BaseUint WIDTH) :=
  match (assignUInt64 0 : Outcome (BaseUint WIDTH)) with
  | .value this =>
    .value ⟨(List.range WIDTH).foldl (mulRow a b) this.pn,
      (length_foldl (length_mulRow a b) _ _).trans this.width⟩
  | outcome => outcome

/-- `operator/=`: it copies both numbers before it clears `*this`, and keeps the two counts of
    bits as `int`. -/
def divAssign (a : BaseUint WIDTH) (b : Operand WIDTH) : Outcome (BaseUint WIDTH) :=
  match (assignUInt64 0 : Outcome (BaseUint WIDTH)) with
  | .value _ =>
    if 2 ^ 31 ≤ a.bits ∨ 2 ^ 31 ≤ (b.read a).bits then .undefined
    else
      match a.div (b.read a) with
      | some q => .value q
      | none => .uint_error "Division by zero"
  | outcome => outcome

/-! ## What they compute -/

theorem assignUInt64_zero (hW : 2 ≤ WIDTH) :
    (assignUInt64 0 : Outcome (BaseUint WIDTH)) = .value zero := by
  rw [assignUInt64, if_pos hW]
  congr 1
  apply ext_value
  have hzero : (List.range WIDTH).map (fun i => ((0 : BitVec 64) >>> (32 * i)).setWidth 32) =
      List.replicate WIDTH 0#32 := by
    simp
  rw [value_zero, value]
  simp only [hzero, value_replicate_zero]

/-- What the first `i` rounds of the inner loop have added to the number: the word times
    the lower words of the argument, but for the carry. -/
structure RowAdded (aj : BitVec 32) (b : BaseUint WIDTH) (j : Nat) (pn0 : List (BitVec 32))
    (i : Nat) (st : BitVec 64 × List (BitVec 32)) : Prop where
  length : st.2.length = pn0.length
  carry : st.1.toNat < 2 ^ 32
  value : Limbs.value st.2 + 2 ^ (32 * (i + j)) * st.1.toNat =
    Limbs.value pn0 + 2 ^ (32 * j) * (aj.toNat * Limbs.value (b.pn.take i))

theorem RowAdded.step {aj : BitVec 32} {b : BaseUint WIDTH} {j i : Nat} {pn0 : List (BitVec 32)}
    {st : BitVec 64 × List (BitVec 32)} (hi : i + j < pn0.length) (h : RowAdded aj b j pn0 i st) :
    RowAdded aj b j pn0 (i + 1) (mulStep aj (.other b) j st i) := by
  obtain ⟨carry, pn⟩ := st
  obtain ⟨hlen, hcarry, hvalue⟩ := h
  dsimp only at hlen hcarry hvalue
  have hin : i + j < pn.length := hlen ▸ hi
  have hset := value_modify (fun _ => (carry + (pn.getD (i + j) 0#32).setWidth 64 +
    aj.setWidth 64 * (b.word i).setWidth 64).setWidth 32) hin
  rw [← set_eq_modify] at hset
  have htake := value_take_succ b.pn i
  change _ = _ + _ * (b.word i).toNat at htake
  change RowAdded aj b j pn0 (i + 1)
    ((carry + (pn.getD (i + j) 0#32).setWidth 64 + aj.setWidth 64 * (b.word i).setWidth 64) >>> 32,
      pn.set (i + j) ((carry + (pn.getD (i + j) 0#32).setWidth 64 +
        aj.setWidth 64 * (b.word i).setWidth 64).setWidth 32))
  generalize pn.getD (i + j) 0#32 = d at hset ⊢
  generalize b.word i = e at hset htake ⊢
  -- the double word does not wrap
  have hmul : aj.toNat * e.toNat ≤ (2 ^ 32 - 1) * (2 ^ 32 - 1) :=
    Nat.mul_le_mul (by omega) (by omega)
  have hn : (carry + d.setWidth 64 + aj.setWidth 64 * e.setWidth 64).toNat =
      carry.toNat + d.toNat + aj.toNat * e.toNat := by
    rw [toNat_add, toNat_add, toNat_mul, toNat_setWidth,
      toNat_setWidth, toNat_setWidth, mod_eq_of_lt (by omega : aj.toNat < 2 ^ 64),
      mod_eq_of_lt (by omega : e.toNat < 2 ^ 64)]
    omega
  have hhigh : ((carry + d.setWidth 64 + aj.setWidth 64 * e.setWidth 64) >>> 32).toNat =
      (carry.toNat + d.toNat + aj.toNat * e.toNat) / 2 ^ 32 := by
    rw [toNat_ushiftRight, hn, shiftRight_eq_div_pow]
  rw [toNat_setWidth, hn] at hset
  refine ⟨length_set.trans hlen, ?_, ?_⟩
  · rw [hhigh]
    omega
  · dsimp only
    have hplace : 2 ^ (32 * (i + 1 + j)) = 2 ^ (32 * (i + j)) * 2 ^ 32 := by
      rw [← Nat.pow_add]
      congr 1
      omega
    have hrow : 2 ^ (32 * (i + j)) = 2 ^ (32 * j) * 2 ^ (32 * i) := by
      rw [← Nat.pow_add]
      congr 1
      omega
    rw [hhigh, hplace, htake, Nat.mul_add aj.toNat, Nat.mul_add (2 ^ (32 * j)), ← Nat.add_assoc,
      ← hvalue, Nat.mul_left_comm aj.toNat, ← Nat.mul_assoc (2 ^ (32 * j)), ← hrow]
    generalize 2 ^ (32 * (i + j)) = B at hset ⊢
    -- the word that stays and the carry together are the double word
    have hsplit := congrArg (B * ·)
      (mod_add_div (carry.toNat + d.toNat + aj.toNat * e.toNat) (2 ^ 32))
    simp only [Nat.mul_add] at hsplit
    rw [Nat.mul_assoc]
    omega

theorem value_mulRow (a b : BaseUint WIDTH) {pn : List (BitVec 32)} (hpn : pn.length = WIDTH)
    {j : Nat} (hj : j ≤ WIDTH) :
    Limbs.value (mulRow a (.other b) pn j) ≡
      Limbs.value pn + 2 ^ (32 * j) * (a.word j).toNat * b.value [MOD 2 ^ (32 * WIDTH)] := by
  have hrun : ∀ n ≤ WIDTH - j, RowAdded (a.word j) b j pn n
      ((List.range n).foldl (mulStep (a.word j) (.other b) j) (0, pn)) := by
    intro n hn
    induction n with
    | zero => exact ⟨rfl, Nat.two_pow_pos 32, by simp⟩
    | succ n ih =>
      rw [List.range_succ, List.foldl_append]
      exact (ih (by omega)).step (by omega)
  obtain ⟨-, -, hvalue⟩ := hrun (WIDTH - j) le_rfl
  rw [Nat.sub_add_cancel hj] at hvalue
  -- the last carry is lost, and so are the words of the argument past the end
  have hsplit : 2 ^ (32 * WIDTH) = 2 ^ (32 * j) * 2 ^ (32 * (WIDTH - j)) := by
    rw [← Nat.pow_add]
    congr 1
    omega
  have hlow : 2 ^ (32 * j) * ((a.word j).toNat * Limbs.value (b.pn.take (WIDTH - j))) ≡
      2 ^ (32 * j) * (a.word j).toNat * b.value [MOD 2 ^ (32 * WIDTH)] := by
    rw [hsplit, Nat.mul_assoc, value_take]
    exact ModEq.mul_left' _ ((mod_modEq _ _).mul_left _)
  have hcarry := (modEq_zero_iff_dvd).mpr (Nat.dvd_mul_right (2 ^ (32 * WIDTH))
    ((List.range (WIDTH - j)).foldl (mulStep (a.word j) (.other b) j) (0, pn)).1.toNat)
  calc Limbs.value (mulRow a (.other b) pn j)
      ≡ Limbs.value (mulRow a (.other b) pn j) + _ [MOD 2 ^ (32 * WIDTH)] :=
        (Nat.ModEq.rfl.add hcarry).symm
    _ = Limbs.value pn + 2 ^ (32 * j) *
          ((a.word j).toNat * Limbs.value (b.pn.take (WIDTH - j))) := hvalue
    _ ≡ _ [MOD 2 ^ (32 * WIDTH)] := Nat.ModEq.rfl.add hlow

theorem value_mulAssign_other (hW : 2 ≤ WIDTH) (a b : BaseUint WIDTH) :
    ∃ p, a.mulAssign (.other b) = .value p ∧ p.value = a.value * b.value % 2 ^ (32 * WIDTH) := by
  rw [mulAssign, assignUInt64_zero hW]
  refine ⟨_, rfl, ?_⟩
  have hrun : ∀ n ≤ WIDTH,
      Limbs.value ((List.range n).foldl (mulRow a (.other b)) (zero : BaseUint WIDTH).pn) ≡
        Limbs.value (a.pn.take n) * b.value [MOD 2 ^ (32 * WIDTH)] := by
    intro n hn
    induction n with
    | zero => simp [zero, Nat.ModEq.rfl]
    | succ n ih =>
      have hlen := (length_foldl (length_mulRow a (.other b)) (List.range n) _).trans
        (zero : BaseUint WIDTH).width
      rw [List.range_succ, List.foldl_append, value_take_succ, Nat.add_mul]
      exact (value_mulRow a b hlen (by omega)).trans ((ih (by omega)).add_right _)
  have h := hrun WIDTH le_rfl
  rw [take_of_length_le a.width.le] at h
  exact (mod_eq_of_lt (value_lt _)).symm.trans h

theorem mulAssign_this (hW : 2 ≤ WIDTH) (a : BaseUint WIDTH) :
    a.mulAssign .this = .value zero := by
  have hstep : ∀ (aj : BitVec 32) (j i : Nat),
      mulStep aj (.this : Operand WIDTH) j (0, List.replicate WIDTH 0#32) i =
        (0, List.replicate WIDTH 0#32) := by
    intro aj j i
    have hword : ∀ k, (List.replicate WIDTH 0#32).getD k 0#32 = 0#32 := getD_zero
    simp only [mulStep, Operand.pn, hword]
    refine Prod.ext (by simp) ?_
    rw [eq_replicate_iff]
    refine ⟨by simp, fun x hx => ?_⟩
    rcases mem_or_eq_of_mem_set hx with hx | rfl
    · exact eq_of_mem_replicate hx
    · simp
  have hrow : ∀ (l : List Nat) (aj : BitVec 32) (j : Nat),
      l.foldl (mulStep aj (.this : Operand WIDTH) j) (0, List.replicate WIDTH 0#32) =
        (0, List.replicate WIDTH 0#32) := by
    intro l aj j
    induction l with
    | nil => rfl
    | cons i l ih => rw [foldl_cons, hstep, ih]
  have hall : ∀ l : List Nat, l.foldl (mulRow a .this) (zero : BaseUint WIDTH).pn =
      (zero : BaseUint WIDTH).pn := by
    intro l
    induction l with
    | nil => rfl
    | cons j l ih =>
      rw [foldl_cons, mulRow, zero, hrow]
      exact ih
  rw [mulAssign, assignUInt64_zero hW]
  simp only [hall]

theorem value_divAssign (hW : 2 ≤ WIDTH) {a : BaseUint WIDTH} {b : Operand WIDTH}
    (ha : a.bits < 2 ^ 31) (hb : (b.read a).bits < 2 ^ 31) :
    if (b.read a).value = 0 then a.divAssign b = .uint_error "Division by zero"
    else ∃ q, a.divAssign b = .value q ∧ q.value = a.value / (b.read a).value := by
  have hbits : ¬(2 ^ 31 ≤ a.bits ∨ 2 ^ 31 ≤ (b.read a).bits) := by omega
  rw [divAssign, assignUInt64_zero hW]
  split
  next h0 =>
    have hdiv : a.div (b.read a) = none := by
      rw [div, if_pos (by rw [bits_eq, h0, size_zero])]
    rw [hdiv]
  next h0 =>
    obtain ⟨q, hq, hvalue⟩ := value_div a h0
    rw [hq]
    exact ⟨q, rfl, hvalue⟩

/-! ## All of them -/

/-- The operators agree with arithmetic modulo `2^BITS` on `*this`, an argument, a word and
    a shift. -/
structure OperatorsAgree (a : BaseUint WIDTH) (b : Operand WIDTH) (b32 shift : BitVec 32) :
    Prop where
  shl : (a.shiftLeft shift.toNat).value = a.value * 2 ^ shift.toNat % 2 ^ (32 * WIDTH)
  shr : (a.shiftRight shift.toNat).value = a.value / 2 ^ shift.toNat
  add : (a.add (b.read a)).value = (a.value + (b.read a).value) % 2 ^ (32 * WIDTH)
  sub : (a.sub (b.read a)).value =
    (a.value + (2 ^ (32 * WIDTH) - (b.read a).value)) % 2 ^ (32 * WIDTH)
  mulWord : (a.mulWord b32).value = a.value * b32.toNat % 2 ^ (32 * WIDTH)
  mul : ∃ p, a.mulAssign b = .value p ∧
    p.value = a.value * (b.read a).value % 2 ^ (32 * WIDTH)
  div : if (b.read a).value = 0 then a.divAssign b = .uint_error "Division by zero"
    else ∃ q, a.divAssign b = .value q ∧ q.value = a.value / (b.read a).value
  compareLt : a.compareTo (b.read a) < 0 ↔ a.value < (b.read a).value
  compareGt : a.compareTo (b.read a) > 0 ↔ a.value > (b.read a).value

/-- They agree unless `*this` is a single word, a number has `2^31` bits, or a number is
    multiplied in place by itself with a product that is not zero. -/
theorem operatorsAgree_iff (a : BaseUint WIDTH) (b : Operand WIDTH) (b32 shift : BitVec 32) :
    OperatorsAgree a b b32 shift ↔
      2 ≤ WIDTH ∧ a.value.size < 2 ^ 31 ∧ (b.read a).value.size < 2 ^ 31 ∧
        (b = .this → a.value * a.value % 2 ^ (32 * WIDTH) = 0) := by
  rw [← bits_eq, ← bits_eq]
  constructor
  · rintro ⟨-, -, -, -, -, ⟨p, hp, hvalue⟩, hdiv, -, -⟩
    have hW2 : 2 ≤ WIDTH := by
      by_contra h2
      rw [mulAssign, assignUInt64, if_neg h2] at hp
      nomatch hp
    have hbits : ¬(2 ^ 31 ≤ a.bits ∨ 2 ^ 31 ≤ (b.read a).bits) := by
      intro hlarge
      have hundef : a.divAssign b = .undefined := by
        rw [divAssign, assignUInt64_zero hW2]
        simp only [if_pos hlarge]
      rw [hundef] at hdiv
      split at hdiv
      · nomatch hdiv
      · obtain ⟨q, hq, -⟩ := hdiv
        nomatch hq
    refine ⟨hW2, by omega, by omega, ?_⟩
    rintro rfl
    rw [mulAssign_this hW2] at hp
    cases hp
    rw [value_zero] at hvalue
    exact hvalue.symm
  · rintro ⟨hW2, ha, hb, hself⟩
    refine ⟨value_shiftLeft a _, value_shiftRight a _, value_add a _, ?_, ?_, ?_,
      value_divAssign hW2 ha hb, compareTo_neg, compareTo_pos⟩
    · rw [sub, value_add, value_neg, add_mod_mod]
    · rw [value_mulWord, Nat.mul_comm]
    · cases b with
      | this => exact ⟨zero, mulAssign_this hW2 a, value_zero.trans (hself rfl).symm⟩
      | other b => exact value_mulAssign_other hW2 a b

/-- `x *= x` for `x = 1` of 256 bits. -/
theorem operators_disagree :
    ¬∀ (WIDTH : Nat), 0 < WIDTH → 32 * WIDTH < 2 ^ 32 → ∀ (a : BaseUint WIDTH)
      (b : Operand WIDTH) (b32 shift : BitVec 32), OperatorsAgree a b b32 shift := by
  intro h
  obtain ⟨p, hp, hvalue⟩ := (h 8 (by decide) (by decide) (ofUInt64 1) .this 0 0).mul
  rw [mulAssign_this (by decide)] at hp
  cases hp
  simp [Operand.read] at hvalue

end BaseUint

end Rcoin
