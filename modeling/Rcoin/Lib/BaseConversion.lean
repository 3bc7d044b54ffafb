/-
  A number is converted to another base in an array of digits: for each digit it has in the
  old base, the array is multiplied by that base and the digit is added.  The digits of the
  array are listed from the lowest on, and those past a length are not touched yet.
-/
import Mathlib

namespace BaseConversion

open List Nat

variable {base mul : Nat}

/-- The digits are multiplied by `mul` and `carry` is added, as long as there is a carry and at
    least over `left` digits.  The results are the digits, how many of them were
    passed, and the carry that is left. -/
def mulAdd (base mul : Nat) : Nat → Nat → List Nat → List Nat × Nat × Nat
  | carry, _, [] => ([], 0, carry)
  | carry, left, d :: ds =>
    if carry ≠ 0 ∨ 0 < left then
      let carry := carry + mul * d
      let rest := mulAdd base mul (carry / base) (left - 1) ds
      (carry % base :: rest.1, rest.2.1 + 1, rest.2.2)
    else (d :: ds, 0, carry)

/-- The array as it is between two digits: only the first `length` of its digits are in use. -/
structure InUse (base length : Nat) (ds : List Nat) : Prop where
  lt : ∀ d ∈ ds, d < base
  rest : ∀ d ∈ ds.drop length, d = 0

variable {ds : List Nat}

theorem ofDigits_eq_zero (base : Nat) (h : ∀ d ∈ ds, d = 0) : Nat.ofDigits base ds = 0 := by
  rw [eq_replicate_of_mem h, ofDigits_replicate_zero]

theorem InUse.replicate (base : Nat) (hbase : 0 < base) (n : Nat) :
    InUse base 0 (List.replicate n 0) where
  lt _ hd := eq_of_mem_replicate hd ▸ hbase
  rest _ hd := eq_of_mem_replicate (mem_of_mem_drop hd)

theorem mulAdd_spec (hbase : 0 < base) (mul carry left : Nat) (h : InUse base left ds) :
    (mulAdd base mul carry left ds).1.length = ds.length ∧
      InUse base (mulAdd base mul carry left ds).2.1 (mulAdd base mul carry left ds).1 ∧
      Nat.ofDigits base (mulAdd base mul carry left ds).1 +
          base ^ ds.length * (mulAdd base mul carry left ds).2.2 =
        mul * Nat.ofDigits base ds + carry := by
  induction ds generalizing carry left with
  | nil => exact ⟨rfl, ⟨nofun, nofun⟩, by simp [mulAdd]⟩
  | cons d ds ih =>
    rw [mulAdd]
    split
    next =>
      have hrest : InUse base (left - 1) ds := by
        refine ⟨fun x hx => h.lt x (mem_cons_of_mem _ hx), fun x hx => h.rest x ?_⟩
        cases left with
        | zero => exact mem_cons_of_mem _ (mem_of_mem_drop hx)
        | succ left => exact hx
      obtain ⟨hlen, hinuse, hvalue⟩ := ih ((carry + mul * d) / base) (left - 1) hrest
      refine ⟨congrArg Nat.succ hlen, ⟨fun x hx => ?_, hinuse.rest⟩, ?_⟩
      · rcases mem_cons.mp hx with rfl | hx
        · exact mod_lt _ hbase
        · exact hinuse.lt x hx
      · -- the digit that stays and the carry are what was to be added here
        have hsplit := mod_add_div (carry + mul * d) base
        simp only [ofDigits_cons, length_cons, Nat.pow_succ']
        calc _ = (carry + mul * d) % base + base * (Nat.ofDigits base
                (mulAdd base mul ((carry + mul * d) / base) (left - 1) ds).1 + base ^ ds.length *
                (mulAdd base mul ((carry + mul * d) / base) (left - 1) ds).2.2) := by ring
          _ = (carry + mul * d) % base + base * ((carry + mul * d) / base) +
                base * (mul * Nat.ofDigits base ds) := by rw [hvalue]; ring
          _ = _ := by rw [hsplit]; ring
    -- the loop stops early, where only zeros are left to multiply
    next hstop =>
      obtain ⟨rfl, rfl⟩ : carry = 0 ∧ left = 0 := by omega
      refine ⟨rfl, h, ?_⟩
      have hzero : Nat.ofDigits base (d :: ds) = 0 := ofDigits_eq_zero base h.rest
      rw [hzero, Nat.mul_zero, Nat.mul_zero]

/-- Without a carry the array stands for the new number, which it has room for; with one it has
    not. -/
theorem mulAdd_carry (hbase : 1 < base) (mul carry left : Nat) (h : InUse base left ds) :
    (mulAdd base mul carry left ds).2.2 = 0 ↔
      mul * Nat.ofDigits base ds + carry < base ^ ds.length := by
  obtain ⟨hlen, hinuse, hvalue⟩ := mulAdd_spec (by omega) mul carry left h
  have hlt := ofDigits_lt_base_pow_length hbase hinuse.lt
  rw [hlen] at hlt
  constructor
  · intro h0
    rw [h0, Nat.mul_zero, Nat.add_zero] at hvalue
    exact hvalue ▸ hlt
  · intro hfit
    by_contra hne
    have := Nat.le_mul_of_pos_right (base ^ ds.length) (Nat.pos_of_ne_zero hne)
    omega

/-- The digits of a number to base `mul`, the highest first, converted in place; `none` when a
    carry is left. -/
def convert (base mul : Nat) : List Nat → Nat → List Nat → Option (Nat × List Nat)
  | [], length, ds => some (length, ds)
  | c :: cs, length, ds =>
    let r := mulAdd base mul c length ds
    if r.2.2 = 0 then convert base mul cs r.2.1 r.1 else none

/-- The number whose digits are `x` and then `cs`. -/
def append (mul : Nat) (x : Nat) (cs : List Nat) : Nat := cs.foldl (fun n c => mul * n + c) x

theorem le_append (hmul : 0 < mul) (x : Nat) (cs : List Nat) : x ≤ append mul x cs := by
  induction cs generalizing x with
  | nil => exact le_rfl
  | cons c cs ih =>
    have hx : x ≤ mul * x := Nat.le_mul_of_pos_left x hmul
    exact le_trans (by omega) (ih (mul * x + c))

theorem append_eq (mul x : Nat) (cs : List Nat) :
    append mul x cs = mul ^ cs.length * x + Nat.ofDigits mul cs.reverse := by
  induction cs generalizing x with
  | nil => simp [append]
  | cons c cs ih =>
    rw [append, List.foldl_cons, ← append, ih, reverse_cons, ofDigits_append,
      length_reverse, ofDigits_singleton, length_cons, Nat.pow_succ]
    ring

theorem append_zero (mul : Nat) (cs : List Nat) :
    append mul 0 cs = Nat.ofDigits mul cs.reverse := by
  rw [append_eq, Nat.mul_zero, Nat.zero_add]

/-- The conversion succeeds when the array has room for the number, and gives its digits. -/
theorem convert_spec (hbase : 1 < base) (hmul : 0 < mul) (cs : List Nat) {length : Nat}
    (h : InUse base length ds) : (append mul (Nat.ofDigits base ds) cs < base ^ ds.length ↔
      (convert base mul cs length ds).isSome) ∧
      ∀ length' ds', convert base mul cs length ds = some (length', ds') →
        ds'.length = ds.length ∧ InUse base length' ds' ∧
          Nat.ofDigits base ds' = append mul (Nat.ofDigits base ds) cs := by
  induction cs generalizing length ds with
  | nil =>
    refine ⟨iff_of_true (ofDigits_lt_base_pow_length hbase h.lt) rfl, ?_⟩
    rintro _ _ ⟨⟩
    exact ⟨rfl, h, rfl⟩
  | cons c cs ih =>
    obtain ⟨hlen, hinuse, hvalue⟩ := mulAdd_spec (by omega : 0 < base) mul c length h
    have hcarry := mulAdd_carry hbase mul c length h
    rw [convert, append, List.foldl_cons, ← append]
    split
    next h0 =>
      rw [h0, Nat.mul_zero, Nat.add_zero] at hvalue
      rw [← hvalue, ← hlen]
      exact ih hinuse
    next h0 =>
      refine ⟨iff_of_false ?_ Bool.false_ne_true, nofun⟩
      have := le_append hmul (mul * Nat.ofDigits base ds + c) cs
      omega

/-! ## The digits that count -/

/-- Without the zeros at its end the array holds the digits of its number. -/
theorem dropWhile_zero_reverse (hbase : 1 < base) (h : ∀ d ∈ ds, d < base) :
    ds.reverse.dropWhile (· == 0) = (Nat.digits base (Nat.ofDigits base ds)).reverse := by
  induction ds using List.reverseRecOn with
  | nil => simp
  | append_singleton ds d ih =>
    have hds : ∀ x ∈ ds, x < base := fun x hx => h x (mem_append_left _ hx)
    rw [reverse_append, reverse_singleton, singleton_append, dropWhile_cons]
    by_cases hd : d = 0
    · subst hd
      rw [ofDigits_append_zero, ← ih hds]
      rfl
    · rw [if_neg (by simpa using hd), digits_ofDigits base hbase _ h fun _ => by simpa using hd]
      simp

/-- Only the digits in use are looked at. -/
theorem dropWhile_drop_reverse (hbase : 1 < base) {length : Nat} (h : InUse base length ds) :
    (ds.reverse.drop (ds.length - length)).dropWhile (· == 0) =
      (Nat.digits base (Nat.ofDigits base ds)).reverse := by
  have hzero := ofDigits_eq_zero base h.rest
  conv_rhs => rw [← take_append_drop length ds]
  rw [← reverse_take, ofDigits_append, hzero, Nat.mul_zero, Nat.add_zero]
  exact dropWhile_zero_reverse hbase fun d hd => h.lt d (mem_of_mem_take hd)

/-- A list of digits that does not begin with zero is that of its number. -/
theorem digits_append (hmul : 1 < mul) {cs : List Nat} (hlt : ∀ c ∈ cs, c < mul)
    (hhead : cs.head? ≠ some 0) : (Nat.digits mul (append mul 0 cs)).reverse = cs := by
  rw [append_zero, ← dropWhile_zero_reverse hmul (by simpa using hlt), reverse_reverse]
  cases cs with
  | nil => rfl
  | cons c cs =>
    rw [dropWhile_cons, if_neg]
    simpa using hhead

theorem head?_digits_reverse (base n : Nat) : (Nat.digits base n).reverse.head? ≠ some 0 := by
  rw [head?_reverse]
  intro h
  have hne : Nat.digits base n ≠ [] := by
    rintro hnil
    rw [hnil] at h
    nomatch h
  rw [getLast?_eq_some_getLast hne] at h
  exact getLast_digit_ne_zero base (digits_ne_nil_iff_ne_zero.mp hne) (Option.some.inj h)

/-! ## Room -/

theorem append_lt (hmul : 1 < mul) {cs : List Nat} (hlt : ∀ c ∈ cs, c < mul) :
    append mul 0 cs < mul ^ cs.length := by
  rw [append_zero, ← @length_reverse _ cs]
  exact ofDigits_lt_base_pow_length hmul (by simpa using hlt)

theorem pow_le_append {c : Nat} (hc : c ≠ 0) (cs : List Nat) :
    mul ^ cs.length ≤ append mul 0 (c :: cs) := by
  rw [append, List.foldl_cons, ← append, append_eq, Nat.mul_zero, Nat.zero_add]
  exact le_trans (Nat.le_mul_of_pos_right _ (Nat.pos_of_ne_zero hc)) (Nat.le_add_right _ _)

/-- A ratio of logarithms, rounded up, is enough of an estimate. -/
theorem pow_lt_pow_estimate {num den : Nat} (hden : 0 < den) (hbase : 1 < base)
    (h : mul ^ den ≤ base ^ num) (n : Nat) : mul ^ n < base ^ (n * num / den + 1) := by
  have hround : num * n < (n * num / den + 1) * den := by
    rw [Nat.mul_comm num]
    exact lt_mul_of_div_lt (lt_succ_self _) hden
  refine lt_of_pow_lt_pow_left₀ den (Nat.zero_le _) ?_
  calc (mul ^ n) ^ den = (mul ^ den) ^ n := by rw [← Nat.pow_mul, Nat.mul_comm, Nat.pow_mul]
    _ ≤ (base ^ num) ^ n := Nat.pow_le_pow_left h n
    _ = base ^ (num * n) := by rw [Nat.pow_mul]
    _ < base ^ ((n * num / den + 1) * den) := Nat.pow_lt_pow_right hbase hround
    _ = (base ^ (n * num / den + 1)) ^ den := Nat.pow_mul ..

end BaseConversion
