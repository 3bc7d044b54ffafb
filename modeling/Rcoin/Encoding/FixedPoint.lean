/-
  `ParseFixedPoint` (src/utilstrencodings.cpp), for strings whose size fits an `int`.
-/
import Rcoin.Lib.Checked
import Rcoin.Lib.Decimal

namespace Rcoin

open Int List Nat

namespace FixedPoint

open Decimal
open Checked (bind_of_ok)

/-! ## The function -/

def UPPER_BOUND : Int := 1000000000000000000 - 1

/-- How the function ends early; the latter is no defined behaviour. -/
inductive Stop where
  | returnsFalse
  | overflow
  deriving DecidableEq, Repr

def signed (w : Nat) (x : Int) : Except Stop Int :=
  if Checked.Fits w x then .ok x else .error .overflow

/-- The accumulators of `ProcessMantissaDigit`. -/
structure Mantissa where
  mantissa : Int
  mantissa_tzeros : Int
  point_ofs : Int

/-- The loop over `i`, up to `mantissa_tzeros`. -/
def zerosLoop : Nat → Int → Except Stop Int
  | 0, mantissa => .ok mantissa
  | n + 1, mantissa =>
    if mantissa > UPPER_BOUND.tdiv 10 then .error .returnsFalse
    else do zerosLoop n (← signed 64 (mantissa * 10))

def processMantissaDigit (s : Mantissa) (ch : UInt8) : Except Stop Mantissa :=
  if ch = 48 then do return { s with mantissa_tzeros := ← signed 32 (s.mantissa_tzeros + 1) }
  else do
    -- `i` goes as far
    let n ← signed 32 (s.mantissa_tzeros + 1)
    let mantissa ← zerosLoop n.toNat s.mantissa
    return { s with mantissa := ← signed 64 (mantissa + digit ch), mantissa_tzeros := 0 }

def processFractionDigit (s : Mantissa) (ch : UInt8) : Except Stop Mantissa := do
  let s ← processMantissaDigit s ch
  return { s with point_ofs := ← signed 32 (s.point_ofs + 1) }

def processExponentDigit (exponent : Int) (ch : UInt8) : Except Stop Int :=
  if exponent > UPPER_BOUND.tdiv 10 then .error .returnsFalse
  else do
    let shifted ← signed 64 (exponent * 10)
    signed 64 ((← signed 64 (shifted + ch.toNat)) - 48)

/-- The loop over the digits at `ptr`, of which there must be one, and what follows them. -/
def digitsLoop {σ : Type} (f : σ → UInt8 → Except Stop σ) (s : σ) (ptr : List UInt8) :
    Except Stop (σ × List UInt8) :=
  if ptr.head?.any isdigit then do
    return (← (ptr.takeWhile isdigit).foldlM f s, ptr.dropWhile isdigit)
  else .error .returnsFalse

/-- A single 0 is passed. -/
def intPart (ptr : List UInt8) : Except Stop (Mantissa × List UInt8) :=
  if ptr.head? = some 48 then .ok (⟨0, 0, 0⟩, ptr.tail)
  else digitsLoop processMantissaDigit ⟨0, 0, 0⟩ ptr

def fracPart (s : Mantissa) (ptr : List UInt8) : Except Stop (Mantissa × List UInt8) :=
  if ptr.head? = some 46 then digitsLoop processFractionDigit s ptr.tail else .ok (s, ptr)

/-- The sign of the exponent, the exponent and what follows. -/
def exponentPart (ptr : List UInt8) : Except Stop (Bool × Int × List UInt8) :=
  if ptr.head? = some 101 ∨ ptr.head? = some 69 then do
    let ptr := ptr.tail
    let exponent_sign := ptr.head? == some 45
    let ptr := if ptr.head? = some 43 ∨ ptr.head? = some 45 then ptr.tail else ptr
    let (exponent, ptr) ← digitsLoop processExponentDigit 0 ptr
    return (exponent_sign, exponent, ptr)
  else .ok (false, 0, ptr)

def finalLoop : Nat → Int → Except Stop Int
  | 0, mantissa => .ok mantissa
  | n + 1, mantissa =>
    if mantissa > UPPER_BOUND.tdiv 10 ∨ mantissa < -UPPER_BOUND.tdiv 10 then .error .returnsFalse
    else do finalLoop n (← signed 64 (mantissa * 10))

/-- A number, with the other sign if it is negative. -/
def negateIf (b : Bool) (x : Int) : Except Stop Int := if b then signed 64 (-x) else .ok x

def finalize (decimals : Int) (mantissa_sign : Bool) (s : Mantissa) (exponent_sign : Bool)
    (exponent : Int) : Except Stop Int := do
  let exponent ← negateIf exponent_sign exponent
  let exponent ← signed 64 ((← signed 64 (exponent - s.point_ofs)) + s.mantissa_tzeros)
  let mantissa ← negateIf mantissa_sign s.mantissa
  let exponent ← signed 64 (exponent + decimals)
  if exponent < 0 then .error .returnsFalse
  else if exponent ≥ 18 then .error .returnsFalse
  else do
    let mantissa ← finalLoop exponent.toNat mantissa
    if mantissa > UPPER_BOUND ∨ mantissa < -UPPER_BOUND then .error .returnsFalse
    else .ok mantissa

/-- The amount, where the function returns true. -/
def parseFixedPoint (val : List UInt8) (decimals : Int) : Except Stop Int := do
  let mantissa_sign := val.head? == some 45
  let (s, ptr) ← intPart (if mantissa_sign then val.tail else val)
  let (s, ptr) ← fracPart s ptr
  let (exponent_sign, exponent, ptr) ← exponentPart ptr
  if ptr ≠ [] then .error .returnsFalse
  else finalize decimals mantissa_sign s exponent_sign exponent

/-! ## The grammar -/

/-- A number of JSON: the digits before the point and, if there is one, behind it, and the
    exponent. -/
structure JsonNumber where
  minus : Bool
  int : List UInt8
  frac : List UInt8
  /-- The letter, the sign if there is one, and the digits. -/
  exp : Option (UInt8 × Option Bool × List UInt8)

namespace JsonNumber

def IsInt (int : List UInt8) : Prop :=
  int = [48] ∨ Digits int ∧ int ≠ [] ∧ int.head? ≠ some 48

def IsExp (e : UInt8 × Option Bool × List UInt8) : Prop :=
  (e.1 = 101 ∨ e.1 = 69) ∧ Digits e.2.2 ∧ e.2.2 ≠ []

/-- The grammar of a JSON number, by its parts. -/
structure WellFormed (j : JsonNumber) : Prop where
  int : IsInt j.int
  frac : Digits j.frac
  exp : ∀ e ∈ j.exp, IsExp e

def signText : Option Bool → List UInt8
  | none => []
  | some false => [43]
  | some true => [45]

def fracText (frac : List UInt8) : List UInt8 := if frac = [] then [] else 46 :: frac

def expText : Option (UInt8 × Option Bool × List UInt8) → List UInt8
  | none => []
  | some (e, sign, ds) => e :: (signText sign ++ ds)

def text (j : JsonNumber) : List UInt8 :=
  (if j.minus then [45] else []) ++ (j.int ++ (fracText j.frac ++ expText j.exp))

def exponent : Option (UInt8 × Option Bool × List UInt8) → Int
  | none => 0
  | some (_, sign, ds) => if sign = some true then -value ds else value ds

def value (j : JsonNumber) : ℚ :=
  (if j.minus then -1 else 1) * Decimal.value (j.int ++ j.frac) *
    10 ^ (exponent j.exp - j.frac.length)

end JsonNumber

open JsonNumber

/-! ## Arithmetic -/

variable {x : Int}

theorem signed_ok {w : Nat} (hlo : -2 ^ (w - 1) ≤ x) (hhi : x < 2 ^ (w - 1)) :
    signed w x = .ok x := if_pos ⟨hlo, hhi⟩

/-- A number that is too large even without its trailing zeros. -/
def Long (n : Nat) : Prop := ∀ k j, n = k * 10 ^ j → 10 ^ 18 ≤ k

variable {n : Nat}

theorem Long.digit {d : Nat} (h : Long n) (hd : d < 10) : Long (n * 10 + d) := by
  intro k j heq
  cases j with
  | zero =>
    have := h n 0 (mul_one n).symm
    omega
  | succ j =>
    rw [pow_succ, ← mul_assoc] at heq
    exact h k j (by omega)

variable {ds : List UInt8}

theorem Long.digits (h : Long n) (hds : Digits ds) :
    Long (n * 10 ^ ds.length + value ds) := by
  rw [← foldl_value]
  induction ds generalizing n with
  | nil => exact h
  | cons c ds ih =>
    obtain ⟨hc, hds⟩ := forall_mem_cons.mp hds
    exact ih (h.digit (lt_succ_of_le (digit_le hc))) hds

theorem finalLoop_eq (n : Nat) (hx : |x| < 10 ^ 18) : finalLoop n x =
    if |x| * 10 ^ n < 10 ^ 18 then .ok (x * 10 ^ n) else .error .returnsFalse := by
  induction n generalizing x with
  | zero =>
    rw [pow_zero, mul_one, mul_one, if_pos hx]
    rfl
  | succ n ih =>
    have hbound : UPPER_BOUND.tdiv 10 = 10 ^ 17 - 1 := rfl
    have hstep : (x * 10) * 10 ^ n = x * 10 ^ (n + 1) := by ring
    have habs : |x * 10| * 10 ^ n = |x| * 10 ^ (n + 1) := by
      rw [abs_mul, show |(10 : Int)| = 10 from rfl]
      ring
    rw [finalLoop, hbound]
    by_cases hsmall : |x| < 10 ^ 17
    · obtain ⟨hlo, hhi⟩ := abs_lt.mp hsmall
      rw [if_neg (by omega), signed_ok (by omega) (by omega)]
      refine (ih (x := x * 10) ?_).trans ?_
      · rw [abs_mul, show |(10 : Int)| = 10 from rfl]
        omega
      · rw [hstep, habs]
    · have hpow : (1 : Int) ≤ 10 ^ n := one_le_pow₀ (by decide)
      have hle : |x| * 1 ≤ |x| * 10 ^ n := Int.mul_le_mul_of_nonneg_left hpow (abs_nonneg x)
      have hlarge : x > 10 ^ 17 - 1 ∨ x < -(10 ^ 17 - 1) := by
        rcases abs_cases x with ⟨h, -⟩ | ⟨h, -⟩ <;> omega
      have hten : |x| * 10 ^ (n + 1) = |x| * 10 ^ n * 10 := by ring
      rw [if_pos hlarge, if_neg (by omega)]

theorem zerosLoop_eq_finalLoop (n : Nat) (hx : 0 ≤ x) : zerosLoop n x = finalLoop n x := by
  induction n generalizing x with
  | zero => rfl
  | succ n ih =>
    have hbound : UPPER_BOUND.tdiv 10 = 10 ^ 17 - 1 := rfl
    have hiff : (x > 10 ^ 17 - 1 ∨ x < -(10 ^ 17 - 1)) ↔ x > 10 ^ 17 - 1 := by omega
    rw [zerosLoop, finalLoop, hbound, if_congr hiff rfl rfl]
    by_cases hfits : Checked.Fits 64 (x * 10)
    · rw [signed_ok hfits.1 hfits.2]
      exact congrArg _ (ih (by omega))
    · rw [show signed 64 (x * 10) = .error .overflow from if_neg hfits]
      rfl

theorem zerosLoop_eq (n : Nat) {m : Nat} (hm : m < 10 ^ 18) : zerosLoop n m =
    if m * 10 ^ n < 10 ^ 18 then .ok ((m * 10 ^ n : Nat) : Int) else .error .returnsFalse := by
  have habs : |(m : Int)| = m := abs_cast m
  rw [zerosLoop_eq_finalLoop n (natCast_nonneg m), finalLoop_eq n (by omega), habs]
  exact if_congr (by norm_cast) (by norm_cast) rfl

/-! ## The mantissa -/

/-- What is kept of the number `N`, read from `n` digits of which `f` are behind the point. -/
def Reads (N n f : Nat) (s : Mantissa) : Prop :=
  ∃ m t : Nat, s = ⟨m, t, f⟩ ∧ N = m * 10 ^ t ∧ m < 10 ^ 18 ∧ (m ≠ 0 → m % 10 ≠ 0) ∧
    t ≤ n ∧ f ≤ n

/-- The digits are read, or their number is too large. -/
def Outcome (N n f : Nat) (r : Except Stop Mantissa) : Prop :=
  (∃ s, r = .ok s ∧ Reads N n f s) ∨ r = .error .returnsFalse ∧ Long N

theorem reads_nil : Reads 0 0 0 ⟨0, 0, 0⟩ :=
  ⟨0, 0, rfl, rfl, by decide, fun h => absurd rfl h, le_refl 0, le_refl 0⟩

variable {c : UInt8}

theorem digit_pos (hc : isdigit c = true) (hne : c ≠ 48) : 0 < digit c := by
  have hle := UInt8.le_iff_toNat_le.mp (of_decide_eq_true hc).1
  have hnat : c.toNat ≠ 48 := fun h => hne (UInt8.toNat_inj.mp h)
  exact Nat.sub_pos_of_lt (Nat.lt_of_le_of_ne hle hnat.symm)

variable {N f : Nat} {s : Mantissa}

theorem processMantissaDigit_outcome (h : Reads N n f s) (hn : n + 1 < 2 ^ 31)
    (hc : isdigit c = true) : Outcome (N * 10 + digit c) (n + 1) f (processMantissaDigit s c) := by
  obtain ⟨m, t, rfl, rfl, hm, hmod, ht, hf⟩ := h
  have hle := digit_le hc
  have hsucc : m * 10 ^ (t + 1) = m * 10 ^ t * 10 := by ring
  have htzeros : signed 32 ((t : Int) + 1) = .ok ((t + 1 : Nat) : Int) :=
    signed_ok (by omega) (by omega)
  rw [processMantissaDigit]
  by_cases hzero : c = 48
  · subst hzero
    rw [if_pos rfl, bind_of_ok htzeros]
    exact .inl ⟨_, rfl, m, t + 1, rfl, hsucc.symm, hm, hmod, by omega, by omega⟩
  have hpos := digit_pos hc hzero
  rw [if_neg hzero, bind_of_ok htzeros, toNat_natCast, zerosLoop_eq (t + 1) hm]
  by_cases hfits : m * 10 ^ (t + 1) < 10 ^ 18
  · -- the last digit is not 0, so there are no zeros at the end any more
    have hadd : signed 64 ((m * 10 ^ (t + 1) : Nat) + digit c : Int) =
        .ok ((m * 10 ^ t * 10 + digit c : Nat) : Int) := by
      rw [← natCast_add, hsucc]
      exact signed_ok (by omega) (by omega)
    rw [if_pos hfits, bind_of_ok rfl, bind_of_ok hadd]
    exact .inl ⟨_, rfl, _, 0, rfl, (mul_one _).symm, by omega, fun _ => by omega,
      zero_le _, by omega⟩
  · rw [if_neg hfits]
    refine .inr ⟨rfl, fun k j heq => ?_⟩
    cases j with
    | zero => omega
    | succ j =>
      rw [pow_succ, ← mul_assoc] at heq
      omega

theorem processFractionDigit_outcome (h : Reads N n f s) (hn : n + 1 < 2 ^ 31)
    (hc : isdigit c = true) :
    Outcome (N * 10 + digit c) (n + 1) (f + 1) (processFractionDigit s c) := by
  rw [processFractionDigit]
  rcases processMantissaDigit_outcome h hn hc with
    ⟨s, heq, m, t, rfl, hN, hm, hmod, ht, -⟩ | ⟨heq, hlong⟩
  · obtain ⟨_, _, _, _, _, _, _, hf⟩ := h
    have hofs : signed 32 ((f : Int) + 1) = .ok ((f + 1 : Nat) : Int) :=
      signed_ok (by omega) (by omega)
    rw [bind_of_ok heq, bind_of_ok hofs]
    exact .inl ⟨_, rfl, m, t, rfl, hN, hm, hmod, ht, by omega⟩
  · rw [heq]
    exact .inr ⟨rfl, hlong⟩

theorem foldlM_outcome {g : Mantissa → UInt8 → Except Stop Mantissa} {k : Nat}
    (hstep : ∀ {N n f s c}, Reads N n f s → n + 1 < 2 ^ 31 → isdigit c = true →
      Outcome (N * 10 + digit c) (n + 1) (f + k) (g s c))
    (hds : Digits ds) (h : Reads N n f s) (hn : n + ds.length < 2 ^ 31) :
    Outcome (N * 10 ^ ds.length + value ds) (n + ds.length) (f + k * ds.length)
      (ds.foldlM g s) := by
  induction ds generalizing N n f s with
  | nil => exact .inl ⟨s, rfl, by simpa using h⟩
  | cons c ds ih =>
    obtain ⟨hc, hds⟩ := forall_mem_cons.mp hds
    have hvalue : N * 10 ^ (c :: ds).length + value (c :: ds) =
        (N * 10 + digit c) * 10 ^ ds.length + value ds := by
      rw [value_cons, length_cons]
      ring
    rw [length_cons] at hn
    have hofs : f + k * (ds.length + 1) = f + k + k * ds.length := by ring
    rw [hvalue, List.foldlM_cons, length_cons, add_comm ds.length 1, ← add_assoc n,
      add_comm 1, hofs]
    rcases hstep h (by omega) hc with ⟨s', heq, hs'⟩ | ⟨heq, hlong⟩
    · rw [heq]
      exact ih hds hs' (by omega)
    · rw [heq]
      exact .inr ⟨rfl, hlong.digits hds⟩

/-! ## The parts of the number -/

def Ends (rest : List UInt8) : Prop := rest.head?.any isdigit = false

theorem digitsLoop_append {σ : Type} (f : σ → UInt8 → Except Stop σ) (s : σ) {rest : List UInt8}
    (hds : Digits ds) (hne : ds ≠ []) (hrest : Ends rest) :
    digitsLoop f s (ds ++ rest) = (ds.foldlM f s).map (·, rest) := by
  have htake : rest.takeWhile isdigit = [] ∧ rest.dropWhile isdigit = rest := by
    cases rest with
    | nil => exact ⟨rfl, rfl⟩
    | cons c rest =>
      have hc : isdigit c = false := hrest
      exact ⟨takeWhile_cons_of_neg (by simp [hc]), dropWhile_cons_of_neg (by simp [hc])⟩
  have hhead : (ds ++ rest).head?.any isdigit = true := by
    cases ds with
    | nil => exact absurd rfl hne
    | cons c ds => exact hds c mem_cons_self
  rw [digitsLoop, if_pos hhead, takeWhile_append_of_pos hds,
    dropWhile_append_of_pos hds, htake.1, htake.2, append_nil]
  cases ds.foldlM f s <;> rfl

theorem digitsLoop_split {σ : Type} (f : σ → UInt8 → Except Stop σ) (s : σ) (ptr : List UInt8) :
    digitsLoop f s ptr = .error .returnsFalse ∨
      ∃ ds rest, ptr = ds ++ rest ∧ Digits ds ∧ ds ≠ [] ∧ Ends rest := by
  by_cases h : ptr.head?.any isdigit = true
  · refine .inr ⟨_, _, takeWhile_append_dropWhile.symm,
      fun c => mem_takeWhile_imp, ?_, ?_⟩
    · cases ptr with
      | nil => cases h
      | cons c ptr =>
        rw [takeWhile_cons_of_pos (by simpa using h)]
        exact cons_ne_nil _ _
    · have := head?_dropWhile_not isdigit ptr
      rw [Ends]
      cases hd : (ptr.dropWhile isdigit).head? <;> simp_all
  · exact .inl (if_neg h)

/-- Nothing follows that would belong to the digits. -/
def Follows (int rest : List UInt8) : Prop := int = [48] ∨ Ends rest

theorem intPart_split (ptr : List UInt8) : intPart ptr = .error .returnsFalse ∨
    ∃ int rest, ptr = int ++ rest ∧ IsInt int ∧ Follows int rest := by
  by_cases hzero : ptr.head? = some 48
  · obtain ⟨tail, rfl⟩ := head?_eq_some_iff.mp hzero
    exact .inr ⟨[48], tail, rfl, .inl rfl, .inl rfl⟩
  · rw [intPart, if_neg hzero]
    refine (digitsLoop_split _ _ ptr).imp_right ?_
    rintro ⟨ds, rest, rfl, hds, hne, hrest⟩
    refine ⟨ds, rest, rfl, .inr ⟨hds, hne, ?_⟩, .inr hrest⟩
    rwa [head?_append_of_ne_nil _ hne] at hzero

theorem intPart_append {int rest : List UInt8} (hint : IsInt int)
    (hrest : Follows int rest) (hlen : int.length < 2 ^ 31) :
    (∃ s n, intPart (int ++ rest) = .ok (s, rest) ∧ Reads (value int) n 0 s ∧
      n ≤ int.length) ∨
    intPart (int ++ rest) = .error .returnsFalse ∧ Long (value int) := by
  by_cases hzero : int = [48]
  · subst hzero
    exact .inl ⟨_, 0, rfl, reads_nil, zero_le _⟩
  obtain ⟨hds, hne, hhead⟩ := hint.resolve_left hzero
  rw [intPart, head?_append_of_ne_nil _ hne, if_neg hhead,
    digitsLoop_append _ _ hds hne (hrest.resolve_left hzero)]
  have hfold := foldlM_outcome (k := 0) processMantissaDigit_outcome hds reads_nil (by omega)
  simp only [zero_mul, zero_add] at hfold
  rcases hfold with ⟨s, heq, hs⟩ | ⟨heq, hlong⟩
  · exact .inl ⟨s, _, by rw [heq]; rfl, hs, le_refl _⟩
  · exact .inr ⟨by rw [heq]; rfl, hlong⟩

/-- As `Follows`, of the digits behind the point or of those of the exponent; `cs` are the
    characters with which that part would begin. -/
def EndsPart (cs : List UInt8) (absent : Prop) (rest : List UInt8) : Prop :=
  (absent → ∀ c ∈ cs, rest.head? ≠ some c) ∧ (¬absent → Ends rest)

theorem fracPart_split (s : Mantissa) (ptr : List UInt8) : fracPart s ptr = .error .returnsFalse ∨
    ∃ frac rest, ptr = fracText frac ++ rest ∧ Digits frac ∧
      EndsPart [46] (frac = []) rest := by
  by_cases hpoint : ptr.head? = some 46
  · obtain ⟨tail, rfl⟩ := head?_eq_some_iff.mp hpoint
    refine (digitsLoop_split _ s tail).imp_right ?_
    rintro ⟨ds, rest, rfl, hds, hne, hrest⟩
    refine ⟨ds, rest, ?_, hds, fun h => absurd h hne, fun _ => hrest⟩
    rw [fracText, if_neg hne, cons_append]
  · exact .inr ⟨[], ptr, rfl, forall_mem_nil _,
      fun _ => forall_mem_singleton.mpr hpoint, fun h => absurd rfl h⟩

theorem fracPart_append {frac rest : List UInt8} (hfrac : Digits frac)
    (hrest : EndsPart [46] (frac = []) rest) (h : Reads N n 0 s) (hlen : n + frac.length < 2 ^ 31) :
    (∃ s', fracPart s (fracText frac ++ rest) = .ok (s', rest) ∧
      Reads (N * 10 ^ frac.length + value frac) (n + frac.length) frac.length s') ∨
    fracPart s (fracText frac ++ rest) = .error .returnsFalse ∧
      Long (N * 10 ^ frac.length + value frac) := by
  by_cases hnil : frac = []
  · subst hnil
    exact .inl ⟨s, if_neg (hrest.1 rfl 46 (mem_singleton_self _)), by simpa using h⟩
  have htext : fracText frac ++ rest = 46 :: (frac ++ rest) := by
    rw [fracText, if_neg hnil, cons_append]
  rw [htext, fracPart, if_pos head?_cons, tail_cons,
    digitsLoop_append _ _ hfrac hnil (hrest.2 hnil)]
  have hfold := foldlM_outcome (k := 1) processFractionDigit_outcome hfrac h hlen
  rw [zero_add, one_mul] at hfold
  rcases hfold with ⟨s', heq, hs'⟩ | ⟨heq, hlong⟩
  · exact .inl ⟨s', by rw [heq]; rfl, hs'⟩
  · exact .inr ⟨by rw [heq]; rfl, hlong⟩

variable {x : Nat}

theorem processExponentDigit_eq (hx : x < 10 ^ 18) (hc : isdigit c = true)
    : processExponentDigit x c =
      if x * 10 + digit c < 10 ^ 18 then .ok ((x * 10 + digit c : Nat) : Int)
      else .error .returnsFalse := by
  have hbound : UPPER_BOUND.tdiv 10 = 10 ^ 17 - 1 := rfl
  have hle := digit_le hc
  have hchar : c.toNat = digit c + 48 := by
    have := UInt8.le_iff_toNat_le.mp (of_decide_eq_true hc).1
    exact (Nat.sub_add_cancel this).symm
  rw [processExponentDigit, hbound]
  by_cases hsmall : x * 10 + digit c < 10 ^ 18
  · rw [if_neg (by omega), if_pos hsmall, bind_of_ok (signed_ok (by omega) (by omega)), hchar,
      bind_of_ok (signed_ok (by omega) (by omega)), signed_ok (by omega) (by omega)]
    exact congrArg Except.ok (by omega)
  · rw [if_pos (by omega), if_neg hsmall]

theorem foldlM_exponent (hds : Digits ds) (hx : x < 10 ^ 18) :
    ds.foldlM processExponentDigit (x : Int) =
      if x * 10 ^ ds.length + value ds < 10 ^ 18 then
        .ok ((x * 10 ^ ds.length + value ds : Nat) : Int)
      else .error .returnsFalse := by
  induction ds generalizing x with
  | nil =>
    simp only [length_nil, pow_zero, mul_one, value_nil, add_zero, if_pos hx]
    rfl
  | cons c ds ih =>
    obtain ⟨hc, hds⟩ := forall_mem_cons.mp hds
    have hvalue : x * 10 ^ (c :: ds).length + value (c :: ds) =
        (x * 10 + digit c) * 10 ^ ds.length + value ds := by
      rw [value_cons, length_cons]
      ring
    have hmono := Nat.le_mul_of_pos_right (x * 10 + digit c) (Nat.pow_pos (a := 10) (n := ds.length)
      (by decide))
    rw [List.foldlM_cons, hvalue, processExponentDigit_eq hx hc]
    by_cases hsmall : x * 10 + digit c < 10 ^ 18
    · rw [if_pos hsmall]
      exact ih hds hsmall
    · rw [if_neg hsmall, if_neg (by omega)]
      rfl

theorem head_sign (hds : Digits ds) (hne : ds ≠ []) (rest : List UInt8) :
    ∀ c ∈ ([43, 45] : List UInt8), (ds ++ rest).head? ≠ some c := by
  intro c hc heq
  rw [head?_append_of_ne_nil _ hne] at heq
  have hdigit := hds c (mem_of_mem_head? heq)
  have hnot : ∀ c ∈ ([43, 45] : List UInt8), isdigit c = false := by decide +kernel
  rw [hnot c hc] at hdigit
  cases hdigit

variable {body : List UInt8}

theorem skip_sign (sign : Option Bool)
    (hbody : ∀ c ∈ ([43, 45] : List UInt8), body.head? ≠ some c) :
    ((signText sign ++ body).head? == some 45) = (sign == some true) ∧
      (if (signText sign ++ body).head? = some 43 ∨
          (signText sign ++ body).head? = some 45 then
        (signText sign ++ body).tail
      else signText sign ++ body) = body := by
  rcases sign with - | - | -
  · have hplus := hbody 43 (by decide)
    have hminus := hbody 45 (by decide)
    exact ⟨beq_eq_false_iff_ne.mpr hminus, if_neg (not_or.mpr ⟨hplus, hminus⟩)⟩
  · exact ⟨rfl, if_pos (.inl rfl)⟩
  · exact ⟨rfl, if_pos (.inr rfl)⟩

theorem exponentPart_split (ptr : List UInt8) : exponentPart ptr = .error .returnsFalse ∨
    ∃ exp rest, ptr = expText exp ++ rest ∧ (∀ e ∈ exp, IsExp e) ∧
      EndsPart [101, 69] (exp = none) rest := by
  by_cases hletter : ptr.head? = some 101 ∨ ptr.head? = some 69
  · obtain ⟨e, tail, rfl, he⟩ : ∃ e tail, ptr = e :: tail ∧ (e = 101 ∨ e = 69) := by
      rcases hletter with h | h <;> obtain ⟨tail, rfl⟩ := head?_eq_some_iff.mp h
      · exact ⟨101, tail, rfl, .inl rfl⟩
      · exact ⟨69, tail, rfl, .inr rfl⟩
    obtain ⟨sign, body, hbody, htail⟩ : ∃ sign body, tail = signText sign ++ body ∧
        (if tail.head? = some 43 ∨ tail.head? = some 45 then tail.tail else tail) = body := by
      by_cases hplus : tail.head? = some 43
      · obtain ⟨body, rfl⟩ := head?_eq_some_iff.mp hplus
        exact ⟨some false, body, rfl, if_pos (.inl rfl)⟩
      by_cases hminus : tail.head? = some 45
      · obtain ⟨body, rfl⟩ := head?_eq_some_iff.mp hminus
        exact ⟨some true, body, rfl, if_pos (.inr rfl)⟩
      · exact ⟨none, tail, rfl, if_neg (not_or.mpr ⟨hplus, hminus⟩)⟩
    rw [exponentPart, if_pos hletter, tail_cons]
    simp only [htail]
    rcases digitsLoop_split processExponentDigit 0 body with h | ⟨ds, rest, rfl, hds, hne, hrest⟩
    · exact .inl (by rw [h]; rfl)
    · refine .inr ⟨some (e, sign, ds), rest, ?_, ?_, nofun, fun _ => hrest⟩
      · rw [hbody, expText, cons_append, append_assoc]
      · rintro _ ⟨⟩
        exact ⟨he, hds, hne⟩
  · refine .inr ⟨none, ptr, rfl, nofun, fun _ c hc heq => hletter ?_, fun h => absurd rfl h⟩
    rcases mem_pair.mp hc with rfl | rfl
    · exact .inl heq
    · exact .inr heq

theorem exponentPart_append {exp : Option (UInt8 × Option Bool × List UInt8)}
    {rest : List UInt8} (hexp : ∀ e ∈ exp, IsExp e)
    (hrest : EndsPart [101, 69] (exp = none) rest) :
    (∃ b, ∃ x : Nat, exponentPart (expText exp ++ rest) = .ok (b, x, rest) ∧
      x < 10 ^ 18 ∧ exponent exp = if b then -(x : Int) else x) ∨
    exponentPart (expText exp ++ rest) = .error .returnsFalse ∧
      10 ^ 18 ≤ |exponent exp| := by
  cases exp with
  | none =>
    refine .inl ⟨false, 0, if_neg ?_, by decide, rfl⟩
    exact not_or.mpr ⟨hrest.1 rfl 101 (by decide), hrest.1 rfl 69 (by decide)⟩
  | some e =>
    obtain ⟨e, sign, ds⟩ := e
    obtain ⟨he, hds, hne⟩ : (e = 101 ∨ e = 69) ∧ Digits ds ∧ ds ≠ [] := hexp _ rfl
    have hloop := digitsLoop_append processExponentDigit 0 hds hne (hrest.2 nofun)
    have hfold := foldlM_exponent hds (x := 0) (by decide)
    rw [zero_mul, zero_add, Int.natCast_zero] at hfold
    have hhead : (e :: (signText sign ++ ds) ++ rest).head? = some 101 ∨
        (e :: (signText sign ++ ds) ++ rest).head? = some 69 := by
      rcases he with rfl | rfl
      · exact .inl rfl
      · exact .inr rfl
    obtain ⟨hsign, hskip⟩ := skip_sign sign (head_sign hds hne rest)
    have hpart : exponentPart (e :: (signText sign ++ ds) ++ rest) =
        (ds.foldlM processExponentDigit 0).map (sign == some true, ·, rest) := by
      rw [exponentPart, if_pos hhead, cons_append, tail_cons, append_assoc]
      simp only [hsign, hskip, hloop]
      cases ds.foldlM processExponentDigit 0 <;> rfl
    have hvalue : exponent (some (e, sign, ds)) =
        if sign == some true then -(value ds : Int) else value ds := by
      exact if_congr (beq_iff_eq).symm rfl rfl
    rw [expText, hpart, hfold]
    by_cases hsmall : value ds < 10 ^ 18
    · rw [if_pos hsmall]
      exact .inl ⟨_, _, rfl, hsmall, hvalue⟩
    · rw [if_neg hsmall, hvalue]
      refine .inr ⟨rfl, ?_⟩
      split
      · rw [abs_neg, abs_cast]
        omega
      · rw [abs_cast]
        omega

/-! ## The whole string -/

theorem negateIf_eq (b : Bool) (hx : x < 10 ^ 18) :
    negateIf b x = .ok (if b then -(x : Int) else x) := by
  cases b with
  | false => rfl
  | true => exact signed_ok (by omega) (by omega)

variable {decimals y : Int}

theorem finalize_eq (h0 : 0 ≤ decimals) (h18 : decimals ≤ 18) (minus b : Bool) {m t : Nat}
    (hm : m < 10 ^ 18) (ht : t < 2 ^ 31) (hf : f < 2 ^ 31) (hx : x < 10 ^ 18)
    (hy : y = (if b then -(x : Int) else x) - f + t + decimals) :
    finalize decimals minus ⟨m, t, f⟩ b x =
      if 0 ≤ y ∧ y < 18 ∧ m * 10 ^ y.toNat < 10 ^ 18 then
        .ok (if minus then -((m * 10 ^ y.toNat : Nat) : Int) else (m * 10 ^ y.toNat : Nat))
      else .error .returnsFalse := by
  have hexp : |if b then -(x : Int) else x| < 10 ^ 18 := by
    cases b <;> simp <;> omega
  have hman : |if minus then -(m : Int) else m| = m := by
    cases minus <;> simp
  rw [finalize, bind_of_ok (negateIf_eq b hx)]
  dsimp only
  rw [bind_of_ok (signed_ok (by omega) (by omega)), bind_of_ok (signed_ok (by omega) (by omega)),
    bind_of_ok (negateIf_eq minus hm),
    bind_of_ok (signed_ok (by omega) (by omega)), ← hy]
  by_cases hneg : y < 0
  · rw [if_pos hneg, if_neg (by omega)]
  by_cases hlarge : y ≥ 18
  · rw [if_neg hneg, if_pos hlarge, if_neg (by omega)]
  rw [if_neg hneg, if_neg hlarge, finalLoop_eq y.toNat (by rw [hman]; omega), hman]
  by_cases hfits : m * 10 ^ y.toNat < 10 ^ 18
  · have hcast : (m : Int) * 10 ^ y.toNat < 10 ^ 18 := by exact_mod_cast hfits
    have hprod : (if minus then -(m : Int) else m) * 10 ^ y.toNat =
        if minus then -((m * 10 ^ y.toNat : Nat) : Int) else (m * 10 ^ y.toNat : Nat) := by
      cases minus <;> push_cast <;> simp
    have hbound : UPPER_BOUND = 10 ^ 18 - 1 := rfl
    rw [if_pos hcast, bind_of_ok rfl, hprod, hbound, if_neg,
      if_pos (show 0 ≤ y ∧ y < 18 ∧ _ from ⟨by omega, by omega, hfits⟩)]
    cases minus <;> simp only [if_true, Bool.false_eq_true, if_false] <;> omega
  · have hcast : ¬(m : Int) * 10 ^ y.toNat < 10 ^ 18 := by exact_mod_cast hfits
    rw [if_neg hcast, if_neg fun h => hfits h.2.2]
    rfl

variable {minus : Bool}

theorem natAbs_cases {a : Int} (h : (a : ℚ) = (if minus then -1 else 1) * N * 10 ^ y) :
    (∃ k : Nat, y = k ∧ a.natAbs = N * 10 ^ k) ∨
      ∃ k : Nat, y = -k ∧ a.natAbs * 10 ^ k = N := by
  have habs : (a.natAbs : ℚ) = N * 10 ^ y := by
    have hpow : (0 : ℚ) < 10 ^ y := zpow_pos (by norm_num) y
    rw [cast_natAbs, cast_abs, h, abs_mul, abs_mul, abs_cast, abs_of_pos hpow]
    cases minus <;> simp
  obtain ⟨k, rfl | rfl⟩ := Int.eq_nat_or_neg y
  · rw [zpow_natCast] at habs
    exact .inl ⟨k, rfl, by exact_mod_cast habs⟩
  · have hpow : (10 : ℚ) ^ k ≠ 0 := by positivity
    rw [zpow_neg, zpow_natCast, ← div_eq_mul_inv, eq_div_iff hpow] at habs
    exact .inr ⟨k, rfl, by exact_mod_cast habs⟩

theorem value_mul_pow (j : JsonNumber) (decimals : Int) : j.value * 10 ^ decimals =
    (if j.minus then -1 else 1) * Decimal.value (j.int ++ j.frac) *
      10 ^ (JsonNumber.exponent j.exp - j.frac.length + decimals) := by
  rw [JsonNumber.value, zpow_add₀ (by norm_num) _ decimals, mul_assoc]

theorem digits_of_isInt {int : List UInt8} (h : IsInt int) :
    Digits int ∧ int ≠ [] := by
  rcases h with rfl | ⟨hds, hne, -⟩
  · exact ⟨by unfold Digits; decide +kernel, by decide⟩
  · exact ⟨hds, hne⟩

theorem minus_text (minus : Bool) (hbody : body.head? ≠ some 45) :
    (((if minus then [45] else []) ++ body).head? == some 45) = minus ∧
      (if minus then ((if minus then [45] else []) ++ body).tail
        else (if minus then [45] else []) ++ body) = body := by
  cases minus with
  | false => exact ⟨beq_eq_false_iff_ne.mpr hbody, rfl⟩
  | true => exact ⟨rfl, rfl⟩

variable {val : List UInt8}

theorem parseFixedPoint_eq (decimals : Int) (hval : val = (if minus then [45] else []) ++ body)
    (hbody : body.head? ≠ some 45) :
    parseFixedPoint val decimals = (do
      let (s, ptr) ← intPart body
      let (s, ptr) ← fracPart s ptr
      let (exponent_sign, exponent, ptr) ← exponentPart ptr
      if ptr ≠ [] then .error .returnsFalse
      else finalize decimals minus s exponent_sign exponent) := by
  subst hval
  obtain ⟨hminus, htail⟩ := minus_text minus hbody
  rw [parseFixedPoint]
  simp only [hminus, htail]

theorem text_split (val : List UInt8) : (∃ minus : Bool, ∃ body : List UInt8,
    val = (if minus then [45] else []) ++ body ∧ body.head? ≠ some 45) ∨
      ∃ tail, val = 45 :: 45 :: tail := by
  by_cases hhead : val.head? = some 45
  · obtain ⟨tail, rfl⟩ := head?_eq_some_iff.mp hhead
    by_cases htwo : tail.head? = some 45
    · obtain ⟨tail, rfl⟩ := head?_eq_some_iff.mp htwo
      exact .inr ⟨tail, rfl⟩
    · exact .inl ⟨true, tail, rfl, htwo⟩
  · exact .inl ⟨false, val, rfl, hhead⟩

/-- `value * 10^decimals`, if it is a number of at most 18 digits. -/
def Exactly (j : JsonNumber) (decimals : Int) (r : Except Stop Int) : Prop :=
  (∃ a : Int, r = .ok a ∧ (a : ℚ) = j.value * 10 ^ decimals ∧ |a| < 10 ^ 18) ∨
    r = .error .returnsFalse ∧
      (j.value = 0 ∨ ∀ a : Int, (a : ℚ) = j.value * 10 ^ decimals → 10 ^ 18 ≤ |a|)

variable {j : JsonNumber}

theorem exactly_of_long (h : Long (value (j.int ++ j.frac))) :
    Exactly j decimals (.error .returnsFalse) := by
  refine .inr ⟨rfl, .inr fun a ha => ?_⟩
  rw [value_mul_pow] at ha
  rw [abs_eq_natAbs]
  rcases natAbs_cases ha with ⟨k, -, hk⟩ | ⟨k, -, hk⟩
  · have hlong := h _ 0 (mul_one _).symm
    have hmono := Nat.le_mul_of_pos_right (value (j.int ++ j.frac))
      (pow_pos (a := 10) (n := k) (by decide))
    omega
  · have hlong := h _ k hk.symm
    omega

theorem exactly_of_exponent (hj : j.WellFormed) (h0 : 0 ≤ decimals) (h18 : decimals ≤ 18)
    (hlen : j.int.length + j.frac.length < 2 ^ 31) (h : 10 ^ 18 ≤ |exponent j.exp|) :
    Exactly j decimals (.error .returnsFalse) := by
  refine .inr ⟨rfl, ?_⟩
  by_cases hzero : Decimal.value (j.int ++ j.frac) = 0
  · exact .inl (by rw [JsonNumber.value, hzero]; simp)
  refine .inr fun a ha => ?_
  rw [value_mul_pow] at ha
  rw [abs_eq_natAbs]
  have hpos := pos_of_ne_zero hzero
  have hsign := le_abs.mp h
  rcases natAbs_cases ha with ⟨k, hy, hk⟩ | ⟨k, hy, hk⟩
  · have hpow : 10 ^ 18 ≤ 10 ^ k := Nat.pow_le_pow_right (by decide) (by omega)
    have hmono := Nat.le_mul_of_pos_left (10 ^ k) hpos
    omega
  · -- the number has too few digits to be a multiple of such a power
    have hlt := value_lt (forall_mem_append.mpr ⟨(digits_of_isInt hj.int).1, hj.frac⟩)
    rw [length_append] at hlt
    have hpow : 10 ^ (j.int.length + j.frac.length) ≤ 10 ^ k :=
      Nat.pow_le_pow_right (by decide) (by omega)
    have hmono := Nat.le_mul_of_pos_left (10 ^ k) (Nat.pos_of_ne_zero (n := a.natAbs) (by
      rintro ha
      rw [ha, zero_mul] at hk
      exact hzero hk.symm))
    omega

theorem exactly_finalize (h0 : 0 ≤ decimals) (h18 : decimals ≤ 18) (hn : n < 2 ^ 31)
    (hs : Reads (Decimal.value (j.int ++ j.frac)) n j.frac.length s) {b : Bool} (hx : x < 10 ^ 18)
    (hexp : exponent j.exp = if b then -(x : Int) else x) :
    Exactly j decimals (finalize decimals j.minus s b x) := by
  obtain ⟨m, t, rfl, hN, hm, hmod, ht, hf⟩ := hs
  obtain ⟨y, hy⟩ : ∃ y, y = (if b then -(x : Int) else x) - j.frac.length + t + decimals := ⟨_, rfl⟩
  have hvalue : j.value * 10 ^ decimals = (if j.minus then -1 else 1) * m * 10 ^ y := by
    rw [value_mul_pow, hN, hexp, hy, add_right_comm, zpow_add₀ (by norm_num) _ (t : Int),
      zpow_natCast]
    push_cast
    ring
  rw [finalize_eq h0 h18 j.minus b hm (by omega) (by omega) hx hy]
  by_cases hfits : 0 ≤ y ∧ y < 18 ∧ m * 10 ^ y.toNat < 10 ^ 18
  · rw [if_pos hfits]
    obtain ⟨k, rfl⟩ := eq_ofNat_of_zero_le hfits.1
    refine .inl ⟨_, rfl, ?_, ?_⟩
    · rw [hvalue, zpow_natCast]
      cases j.minus <;> push_cast <;> simp
    · cases j.minus <;> simp only [if_true, Bool.false_eq_true, if_false, abs_neg, abs_cast] <;>
        omega
  · rw [if_neg hfits]
    refine .inr ⟨rfl, ?_⟩
    by_cases hzero : m = 0
    · refine .inl ?_
      rw [JsonNumber.value, hN, hzero]
      simp
    refine .inr fun a ha => ?_
    rw [hvalue] at ha
    rw [abs_eq_natAbs]
    rcases natAbs_cases ha with ⟨k, rfl, hk⟩ | ⟨k, hk0, hk⟩
    · rw [toNat_natCast] at hfits
      by_cases hk18 : k < 18
      · omega
      · have hpow : 10 ^ 18 ≤ 10 ^ k := Nat.pow_le_pow_right (by decide) (by omega)
        have hmono := Nat.le_mul_of_pos_left (10 ^ k) (Nat.pos_of_ne_zero hzero)
        omega
    · -- no number but 0 loses its last digit
      cases k with
      | zero =>
        rw [show y.toNat = 0 by omega] at hfits
        omega
      | succ k =>
        rw [pow_succ, ← mul_assoc] at hk
        omega

theorem parseFixedPoint_text (hj : j.WellFormed) (h0 : 0 ≤ decimals) (h18 : decimals ≤ 18)
    (hlen : j.text.length < 2 ^ 31) : Exactly j decimals (parseFixedPoint j.text decimals) := by
  obtain ⟨hint, hne⟩ := digits_of_isInt hj.int
  have hlen' : j.int.length + j.frac.length < 2 ^ 31 := by
    have hfrac : j.frac.length ≤ (fracText j.frac).length := by
      rw [fracText]
      split
      · simp_all
      · exact le_succ _
    simp only [text, length_append] at hlen
    omega
  have hends : Ends (expText j.exp) ∧ (expText j.exp).head? ≠ some 46 := by
    cases hexp : j.exp with
    | none => exact ⟨rfl, nofun⟩
    | some e =>
      rcases (hj.exp e hexp).1 with he | he <;> simp [Ends, expText, he, isdigit]
  have hfollows : Follows j.int (fracText j.frac ++ expText j.exp) := by
    rw [fracText]
    split
    · exact .inr hends.1
    · exact .inr rfl
  have htext : j.text = (if j.minus then [45] else []) ++
      (j.int ++ (fracText j.frac ++ expText j.exp)) := rfl
  rw [parseFixedPoint_eq decimals htext (head_sign hint hne _ 45 (by decide))]
  have hvalue := value_append j.int j.frac
  -- part by part; each may end with too long a mantissa
  rcases intPart_append hj.int hfollows (by omega) with ⟨s, n, heq, hs, hn⟩ | ⟨heq, hlong⟩
  · rw [bind_of_ok heq]
    dsimp only
    rcases fracPart_append hj.frac
        ⟨fun _ => forall_mem_singleton.mpr hends.2, fun _ => hends.1⟩ hs (by omega) with
      ⟨s', heq, hs'⟩ | ⟨heq, hlong⟩
    · rw [bind_of_ok heq]
      rcases @exponentPart_append _ [] hj.exp ⟨fun _ _ _ => nofun, fun _ => rfl⟩ with
        ⟨b, x, heq, hx, hexp⟩ | ⟨heq, hlarge⟩
      · rw [append_nil] at heq
        rw [bind_of_ok heq]
        exact exactly_finalize h0 h18 (by omega) (hvalue ▸ hs') hx hexp
      · rw [append_nil] at heq
        rw [heq]
        exact exactly_of_exponent hj h0 h18 hlen' hlarge
    · rw [heq]
      exact exactly_of_long (hvalue ▸ hlong)
  · rw [heq]
    exact exactly_of_long (hvalue ▸ hlong.digits hj.frac)

theorem parseFixedPoint_split (decimals : Int) (hlen : val.length < 2 ^ 31) :
    parseFixedPoint val decimals = .error .returnsFalse ∨
      ∃ j : JsonNumber, j.WellFormed ∧ j.text = val := by
  rcases text_split val with ⟨minus, body, hval, hbody⟩ | ⟨tail, rfl⟩
  swap
  · exact .inl rfl
  have hbodyLen : body.length ≤ val.length := by
    rw [hval, length_append]
    exact le_add_left _ _
  rw [parseFixedPoint_eq decimals hval hbody]
  rcases intPart_split body with heq | ⟨int, rest, rfl, hint, hfollows⟩
  · exact .inl (by rw [heq]; rfl)
  rw [length_append] at hbodyLen
  rcases intPart_append hint hfollows (by omega) with ⟨s, n, heq, hs, hn⟩ | ⟨heq, -⟩
  swap
  · exact .inl (by rw [heq]; rfl)
  rw [bind_of_ok heq]
  dsimp only
  rcases fracPart_split s rest with heq | ⟨frac, rest, rfl, hfrac, hends⟩
  · exact .inl (by rw [heq]; rfl)
  have hfracLen : frac.length ≤ (fracText frac).length := by
    rw [fracText]
    split
    · simp_all
    · exact le_succ _
  rw [length_append] at hbodyLen
  rcases fracPart_append hfrac hends hs (by omega) with ⟨s', heq, hs'⟩ | ⟨heq, -⟩
  swap
  · exact .inl (by rw [heq]; rfl)
  rw [bind_of_ok heq]
  rcases exponentPart_split rest with heq | ⟨exp, rest, rfl, hexp, hends⟩
  · exact .inl (by rw [heq]; rfl)
  rcases exponentPart_append hexp hends with ⟨b, x, heq, -, -⟩ | ⟨heq, -⟩
  swap
  · exact .inl (by rw [heq]; rfl)
  rw [bind_of_ok heq]
  by_cases hrest : rest = []
  · subst hrest
    refine .inr ⟨⟨minus, int, frac, exp⟩, ⟨hint, hfrac, hexp⟩, ?_⟩
    rw [hval, append_nil]
    rfl
  · exact .inl (if_pos hrest)

/-- Nothing overflows, what is accepted is a number of JSON, the amount is the value of the
    number, and whatever can be an amount is accepted. -/
theorem parseFixedPoint_spec {val : List UInt8} {decimals : Int} (hlen : val.length < 2 ^ 31)
    (h0 : 0 ≤ decimals) (h18 : decimals ≤ 18) :
    parseFixedPoint val decimals ≠ .error .overflow ∧
    (∀ a, parseFixedPoint val decimals = .ok a →
      |a| < 10 ^ 18 ∧ ∃ j : JsonNumber, j.WellFormed ∧ j.text = val) ∧
    ∀ j : JsonNumber, j.WellFormed → j.text = val →
      (∀ a, parseFixedPoint val decimals = .ok a → (a : ℚ) = j.value * 10 ^ decimals) ∧
      (j.value ≠ 0 → ∀ a : Int, (a : ℚ) = j.value * 10 ^ decimals → |a| < 10 ^ 18 →
        parseFixedPoint val decimals = .ok a) := by
  have hsplit := parseFixedPoint_split decimals hlen
  refine ⟨fun hover => ?_, fun a ha => ?_, ?_⟩
  · rcases hsplit with heq | ⟨j, hj, rfl⟩
    · rw [heq] at hover
      cases hover
    · rcases parseFixedPoint_text hj h0 h18 hlen with ⟨a, heq, -⟩ | ⟨heq, -⟩
      all_goals
        rw [heq] at hover
        cases hover
  · rcases hsplit with heq | ⟨j, hj, rfl⟩
    · rw [heq] at ha
      cases ha
    · refine ⟨?_, j, hj, rfl⟩
      rcases parseFixedPoint_text hj h0 h18 hlen with ⟨b, heq, -, hb⟩ | ⟨heq, -⟩
      · cases heq.symm.trans ha
        exact hb
      · rw [heq] at ha
        cases ha
  · rintro j hj rfl
    rcases parseFixedPoint_text hj h0 h18 hlen with ⟨b, heq, hvalue, -⟩ | ⟨heq, hnone⟩
    · refine ⟨fun a ha => ?_, fun _ a ha _ => ?_⟩
      · cases heq.symm.trans ha
        exact hvalue
      · have hab : a = b := by exact_mod_cast ha.trans hvalue.symm
        rw [heq, hab]
    · refine ⟨fun a ha => ?_, fun hne a ha hlt => ?_⟩
      · rw [heq] at ha
        cases ha
      · exact absurd ((hnone.resolve_left hne) a ha) (not_le.mpr hlt)

/-- 0.0021e5 of eight decimals. -/
theorem parseFixedPoint_spec_sample :
    parseFixedPoint [48, 46, 48, 48, 50, 49, 101, 53] 8 = .ok 21000000000 := by
  have hj : WellFormed ⟨false, [48], [48, 48, 50, 49], some (101, none, [53])⟩ := by
    refine ⟨.inl rfl, ?_, ?_⟩
    · unfold Digits
      decide +kernel
    · rintro _ ⟨⟩
      exact ⟨.inl rfl, by unfold Digits; decide +kernel, by decide⟩
  have hvalue : value ⟨false, [48], [48, 48, 50, 49], some (101, none, [53])⟩ = 210 := by
    change (1 : ℚ) * (21 : Nat) * 10 ^ ((5 : Int) - (4 : Nat)) = 210
    norm_num
  refine ((parseFixedPoint_spec (by decide) (by decide) (by decide)).2.2 _ hj rfl).2 ?_ _ ?_
    (by decide)
  · rw [hvalue]
    norm_num
  · rw [hvalue]
    norm_num

end FixedPoint

end Rcoin
