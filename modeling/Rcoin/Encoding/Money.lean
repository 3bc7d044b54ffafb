/-
  Amounts of coins as text (src/utilmoneystr.cpp).
-/
import Rcoin.Encoding.Base58
import Rcoin.Lib.Checked
import Rcoin.Lib.Decimal
import Rcoin.Primitives

namespace Rcoin

open Int List

namespace Money

open Base58 (isspace c_str)
open Checked Decimal

def CENT : Int := 1000000

/-! ## The functions -/

/-- The loop that trims zeros; it looks at a string from its end. -/
def trimLoop : List UInt8 → Nat
  | c :: d :: e :: str => if c = 48 && isdigit e then trimLoop (d :: e :: str) + 1 else 0
  | _ => 0

/-- `(n > 0 ? n : -n)` -/
def absolute (n : Int) : Except Fault Int := if n > 0 then .ok n else signed 64 (-n)

def formatMoney (n : Int) : Except Fault (List UInt8) := do
  let n_abs ← absolute n
  let quotient := n_abs.tdiv COIN
  let remainder := n_abs.tmod COIN
  let str := toDigits quotient.toNat ++ 46 :: (toDigits remainder.toNat).leftpad 8 48
  let nTrim := trimLoop str.reverse
  let str := str.take (str.length - nTrim)
  return if n < 0 then 45 :: str else str

/-- `strtoll`, in base 10: a number that is too large is the largest one. -/
def atoi64 (str : List UInt8) : Int :=
  let str := str.dropWhile isspace
  let negative := str.head? == some 45
  let ds := if negative || str.head? == some 43 then str.tail else str
  let n : Int := value (ds.takeWhile isdigit)
  if negative then max (-2 ^ 63) (-n) else min (2 ^ 63 - 1) n

/-- The digits behind the point. -/
def fracLoop : List UInt8 → Int → Int → Except Fault (Int × List UInt8)
  | c :: p, nMult, nUnits =>
    if isdigit c && decide (nMult > 0) then do
      let term ← signed 64 (nMult * digit c)
      let nUnits ← signed 64 (nUnits + term)
      fracLoop p (nMult.tdiv 10) nUnits
    else .ok (nUnits, c :: p)
  | [], _, nUnits => .ok (nUnits, [])

/-- What is done behind the number. -/
def finish (strWhole : List UInt8) (nUnits : Int) (p : List UInt8) : Except Fault (Option Int) :=
  if !p.all isspace then .ok none
  else if strWhole.length > 10 then .ok none
  else if nUnits < 0 || nUnits > COIN then .ok none
  else do
    let whole ← signed 64 (atoi64 strWhole * COIN)
    let nValue ← signed 64 (whole + nUnits)
    return some nValue

def wholeLoop : List UInt8 → List UInt8 → Except Fault (Option Int)
  | [], strWhole => finish strWhole 0 []
  | c :: p, strWhole =>
    if c = 46 then do
      let (nUnits, p) ← fracLoop p (CENT * 10) 0
      finish strWhole nUnits p
    else if isspace c then finish strWhole 0 (c :: p)
    else if !isdigit c then .ok none
    else wholeLoop p (strWhole ++ [c])

/-- The value, if the string has one. -/
def parseMoney (str : List UInt8) : Except Fault (Option Int) :=
  wholeLoop ((c_str str).dropWhile isspace) []

/-! ## Reading -/

theorem not_isspace_of_isdigit : ∀ {c : UInt8}, isdigit c = true → isspace c = false := by
  intro c h
  have hc := of_decide_eq_true h
  simp only [UInt8.le_iff_toNat_le] at hc
  refine decide_eq_false ?_
  rw [← UInt8.toNat_inj]
  simp only [UInt8.le_iff_toNat_le]
  have h48 : (48 : UInt8).toNat = 48 := rfl
  have h32 : (32 : UInt8).toNat = 32 := rfl
  have h13 : (13 : UInt8).toNat = 13 := rfl
  omega

variable {ds : List UInt8}

theorem atoi64_digits (h : Digits ds) (hlen : ds.length ≤ 10) : atoi64 ds = value ds := by
  have hall : ds.takeWhile isdigit = ds := takeWhile_eq_self_iff.mpr h
  have hsub : (10 : Nat) ^ ds.length ≤ 10 ^ 10 := Nat.pow_le_pow_right (by decide) hlen
  have hlt := value_lt h
  have hle : min (2 ^ 63 - 1 : Int) (value ds) = value ds := min_eq_right (by omega)
  cases ds with
  | nil => rfl
  | cons c ds =>
    have hc := h c mem_cons_self
    have hminus : c ≠ 45 := by rintro rfl; cases hc
    have hplus : c ≠ 43 := by rintro rfl; cases hc
    have hspaces : (c :: ds).dropWhile isspace = c :: ds := by
      rw [dropWhile_cons_of_neg (by simp [not_isspace_of_isdigit hc])]
    have hneg : ((c :: ds).head? == some 45) = false := by simpa using hminus
    have hpos : ((c :: ds).head? == some 43) = false := by simpa using hplus
    simp only [atoi64, hspaces, hneg, hpos, Bool.or_self, Bool.false_eq_true, if_false, hall, hle]

variable {whole rest : List UInt8} {u : Int}

theorem finish_eq (h : Digits whole) (hlo : 0 ≤ u) (hhi : u < COIN)
    : finish whole u rest =
      .ok (if rest.all isspace ∧ whole.length ≤ 10 then some (value whole * COIN + u) else none) := by
  unfold finish
  cases hrest : rest.all isspace with
  | false => rfl
  | true =>
    by_cases hlen : whole.length ≤ 10
    · have hlt := value_lt h
      have hsub : (10 : Nat) ^ whole.length ≤ 10 ^ 10 := Nat.pow_le_pow_right (by decide) hlen
      rw [show COIN = 100000000 from rfl] at hhi ⊢
      have hrange : ¬((u < 0 || u > 100000000) = true) := by
        rw [Bool.or_eq_true, decide_eq_true_eq, decide_eq_true_eq]
        omega
      rw [if_neg (by decide), if_neg (not_lt.mpr hlen), if_neg hrange, atoi64_digits h hlen,
        i64_ok (by omega) (by omega)]
      show (signed 64 (value whole * 100000000 + u) >>= fun x => pure (some x)) = _
      rw [i64_ok (by omega) (by omega), if_pos ⟨rfl, hlen⟩]
      rfl
    · rw [if_neg (by decide), if_pos (not_le.mp hlen), if_neg fun hno => hlen hno.2]

variable {fs : List UInt8}

theorem fracLoop_eq {k : Nat} (hk : k ≤ 8) (hfs : Digits fs) (hlen : fs.length ≤ k)
    (hstop : fs.length = k ∨ ∀ c ∈ rest.head?, isdigit c = false) (hlo : 0 ≤ u)
    (hhi : u + 10 ^ k ≤ COIN) : fracLoop (fs ++ rest) ((10 ^ k : Int).tdiv 10) u =
      .ok (u + value fs * 10 ^ (k - fs.length), rest) := by
  rw [show COIN = 100000000 from rfl] at hhi
  induction fs generalizing k u with
  | nil =>
    rw [List.nil_append, value_nil, Int.natCast_zero, Int.zero_mul, Int.add_zero]
    cases rest with
    | nil => rfl
    | cons c p =>
      refine if_neg ?_
      rcases hstop with rfl | hstop
      · simp
      · simp [hstop c rfl]
  | cons c fs ih =>
    obtain ⟨hc, hfs⟩ := forall_mem_cons.mp hfs
    obtain ⟨k, rfl⟩ : ∃ j, k = j + 1 := ⟨k - 1, by rw [length_cons] at hlen; omega⟩
    have hmult : ((10 : Int) ^ (k + 1)).tdiv 10 = 10 ^ k := by
      rw [pow_succ, mul_tdiv_cancel _ (by decide)]
    have hpow : (0 : Int) < 10 ^ k := by positivity
    have hd : (10 : Int) ^ k * digit c ≤ 10 ^ k * 9 :=
      mul_le_mul_of_nonneg_left (by exact_mod_cast digit_le hc) hpow.le
    have hd0 : (0 : Int) ≤ 10 ^ k * digit c := by positivity
    have hloop := ih (k := k) (by omega) hfs (Nat.le_of_succ_le_succ hlen)
      (hstop.imp Nat.succ.inj id) (u := u + 10 ^ k * digit c) (by omega) (by omega)
    rw [hmult, cons_append, fracLoop, hc, decide_eq_true hpow, Bool.and_self, if_pos rfl,
      i64_ok (by omega) (by omega)]
    show (signed 64 (u + 10 ^ k * digit c) >>= fun x => fracLoop (fs ++ rest) _ x) = _
    rw [i64_ok (by omega) (by omega)]
    refine hloop.trans ?_
    have hle : fs.length ≤ k := Nat.le_of_succ_le_succ hlen
    have hsplit : (10 : Int) ^ k = 10 ^ fs.length * 10 ^ (k - fs.length) := by
      rw [← pow_add, Nat.add_sub_cancel' hle]
    rw [value_cons, length_cons, Nat.add_sub_add_right, hsplit]
    push_cast
    ring_nf

theorem exists_digits (k : Nat) (p : List UInt8) : ∃ fs rest, p = fs ++ rest ∧ Digits fs ∧
    fs.length ≤ k ∧ (fs.length = k ∨ ∀ c ∈ rest.head?, isdigit c = false) := by
  induction p generalizing k with
  | nil => exact ⟨[], [], rfl, nofun, Nat.zero_le k, .inr nofun⟩
  | cons c p ih =>
    by_cases hstop : k = 0 ∨ isdigit c = false
    · refine ⟨[], c :: p, rfl, nofun, Nat.zero_le k, hstop.imp Eq.symm fun hc => ?_⟩
      rintro d ⟨⟩
      exact hc
    · rw [not_or, Bool.not_eq_false] at hstop
      obtain ⟨fs, rest, rfl, hfs, hlen, hhead⟩ := ih (k - 1)
      refine ⟨c :: fs, rest, rfl, forall_mem_cons.mpr ⟨hstop.2, hfs⟩, ?_, ?_⟩
      · rw [length_cons]
        omega
      · rw [length_cons]
        exact hhead.imp (fun heq => by omega) id

theorem wholeLoop_digits (h : Digits ds) (rest whole : List UInt8) :
    wholeLoop (ds ++ rest) whole = wholeLoop rest (whole ++ ds) := by
  induction ds generalizing whole with
  | nil => rw [nil_append, append_nil]
  | cons c ds ih =>
    obtain ⟨hc, hds⟩ := forall_mem_cons.mp h
    have hpoint : c ≠ 46 := by rintro rfl; cases hc
    rw [cons_append, wholeLoop, if_neg hpoint, not_isspace_of_isdigit hc, hc,
      if_neg Bool.false_ne_true, if_neg (by decide), ih hds, append_assoc,
      singleton_append]

theorem wholeLoop_spaces (h : ∀ c ∈ rest.head?, isspace c = true) (whole : List UInt8)
    : wholeLoop rest whole = finish whole 0 rest := by
  cases rest with
  | nil => rfl
  | cons c p =>
    have hc := h c rfl
    have hpoint : c ≠ 46 := by rintro rfl; cases hc
    rw [wholeLoop, if_neg hpoint, if_pos hc]

theorem wholeLoop_point (hfs : Digits fs) (hlen : fs.length ≤ 8)
    (hstop : fs.length = 8 ∨ ∀ c ∈ rest.head?, isdigit c = false) :
    wholeLoop (46 :: (fs ++ rest)) whole =
      finish whole (value fs * 10 ^ (8 - fs.length)) rest := by
  have hloop := fracLoop_eq (le_refl 8) hfs hlen hstop (le_refl 0) (by decide)
  rw [zero_add] at hloop
  show (fracLoop (fs ++ rest) ((10 ^ 8 : Int).tdiv 10) 0 >>= _) = _
  rw [hloop]
  rfl

theorem frac_lt (hfs : Digits fs) (hlen : fs.length ≤ 8) :
    (value fs * 10 ^ (8 - fs.length) : Int) < COIN := by
  have hpos : 0 < 10 ^ (8 - fs.length) := Nat.pow_pos (by decide)
  have hlt := Nat.mul_lt_mul_of_pos_right (value_lt hfs) hpos
  rw [← Nat.pow_add, Nat.add_sub_cancel' hlen] at hlt
  rw [show COIN = ((10 ^ 8 : Nat) : Int) from rfl]
  exact_mod_cast hlt

/-- How the digits before and behind the point of an amount are written. -/
def Written (str whole frac : List UInt8) : Prop :=
  Digits whole ∧ Digits frac ∧ whole.length ≤ 10 ∧ frac.length ≤ 8 ∧
    ∃ before after, (∀ c ∈ before, isspace c = true) ∧ (∀ c ∈ after, isspace c = true) ∧
      (str = before ++ (whole ++ after) ∧ frac = [] ∨
        str = before ++ (whole ++ 46 :: (frac ++ after)))

/-- The value of an amount, in the smallest unit. -/
def amount (whole frac : List UInt8) : Int :=
  value whole * COIN + value frac * 10 ^ (8 - frac.length)

variable {frac : List UInt8}

theorem amount_eq (hlen : frac.length ≤ 8) {v : Int} :
    v * 10 ^ frac.length = value (whole ++ frac) * COIN ↔ v = amount whole frac := by
  have hsplit : COIN = 10 ^ frac.length * 10 ^ (8 - frac.length) := by
    rw [← pow_add, Nat.add_sub_cancel' hlen]
    rfl
  have hpos : (10 : Int) ^ frac.length ≠ 0 := by positivity
  have hvalue : value (whole ++ frac) * COIN = amount whole frac * 10 ^ frac.length := by
    rw [amount, value_append, hsplit]
    push_cast
    ring
  rw [hvalue]
  exact mul_left_inj' hpos

variable {str : List UInt8}

theorem c_str_eq (h : (0 : UInt8) ∉ str) : c_str str = str :=
  takeWhile_eq_self_iff.mpr fun c hc => by
    rw [bne_iff_ne]
    rintro rfl
    exact h hc

theorem dropWhile_isspace {tail : List UInt8} (h : Digits whole)
    (htail : whole = [] → ∀ c ∈ tail.head?, isspace c = false) :
    (whole ++ tail).dropWhile isspace = whole ++ tail := by
  refine dropWhile_eq_self_iff.mpr fun hlen => ?_
  cases whole with
  | nil =>
    cases tail with
    | nil => exact absurd hlen (lt_irrefl 0)
    | cons c p => simp [htail rfl c rfl]
  | cons c ds => simp [not_isspace_of_isdigit (h c mem_cons_self)]

theorem parseMoney_written (h0 : (0 : UInt8) ∉ str) (h : Written str whole frac)
    : parseMoney str = .ok (some (amount whole frac)) := by
  obtain ⟨hwhole, hfrac, hw, hf, before, after, hbefore, hafter, hstr⟩ := h
  have hhead : ∀ c ∈ after.head?, isspace c = true := fun c hc => hafter c (mem_of_head? hc)
  have hall : after.all isspace = true := List.all_eq_true.mpr hafter
  rw [parseMoney, c_str_eq h0]
  rcases hstr with ⟨rfl, rfl⟩ | rfl
  · have hvalue : wholeLoop (whole ++ after) [] = .ok (some (amount whole [])) := by
      rw [wholeLoop_digits hwhole, List.nil_append, wholeLoop_spaces hhead,
        finish_eq hwhole (Int.le_refl 0) (by decide), if_pos ⟨hall, hw⟩]
      rfl
    rw [dropWhile_append_of_pos hbefore]
    by_cases hnil : whole = []
    · rw [hnil, List.nil_append, dropWhile_eq_nil_iff.mpr hafter]
      rfl
    · rwa [dropWhile_isspace hwhole fun h => absurd h hnil]
  · have hvalue : wholeLoop (whole ++ 46 :: (frac ++ after)) [] =
        .ok (some (amount whole frac)) := by
      rw [wholeLoop_digits hwhole, List.nil_append, wholeLoop_point hfrac hf,
        finish_eq hwhole (by positivity) (frac_lt hfrac hf), if_pos ⟨hall, hw⟩]
      · rfl
      · refine .inr fun c hc => Bool.eq_false_iff.mpr fun hd => ?_
        have hspace := hhead c hc
        rw [not_isspace_of_isdigit hd] at hspace
        cases hspace
    rwa [dropWhile_append_of_pos hbefore, dropWhile_isspace hwhole]
    rintro - c ⟨⟩
    rfl

theorem written_of_parseMoney (h0 : (0 : UInt8) ∉ str) : ∃ r, parseMoney str = .ok r ∧
      ∀ v, r = some v → ∃ whole frac, Written str whole frac ∧ v = amount whole frac := by
  have hsplit : str = str.takeWhile isspace ++ str.dropWhile isspace :=
    takeWhile_append_dropWhile.symm
  have hbefore : ∀ c ∈ str.takeWhile isspace, isspace c = true := fun c hc =>
    mem_takeWhile_imp hc
  rw [parseMoney, c_str_eq h0]
  generalize str.dropWhile isspace = p at *
  obtain ⟨ds, rest, rfl, hds, -, hstop⟩ := exists_digits (p.length + 1) p
  have hhead : ∀ c ∈ rest.head?, isdigit c = false := by
    refine hstop.resolve_left fun hlen => ?_
    rw [length_append] at hlen
    omega
  rw [wholeLoop_digits hds, nil_append]
  -- the string may end, or go on with a space
  have hspaces : (∀ c ∈ rest.head?, isspace c = true) → ∃ r, wholeLoop rest ds = .ok r ∧
      ∀ v, r = some v → ∃ whole frac, Written str whole frac ∧ v = amount whole frac := by
    intro hspace
    rw [wholeLoop_spaces hspace, finish_eq hds (le_refl 0) (by decide)]
    refine ⟨_, rfl, fun v hv => ?_⟩
    obtain ⟨⟨hall, hlen⟩, hv⟩ := Option.ite_none_right_eq_some.mp hv
    exact ⟨ds, [], ⟨hds, nofun, hlen, Nat.zero_le 8, _, rest, hbefore,
      all_eq_true.mp hall, .inl ⟨hsplit, rfl⟩⟩, (Option.some.inj hv).symm⟩
  cases rest with
  | nil => exact hspaces nofun
  | cons c p =>
    by_cases hpoint : c = 46
    · obtain ⟨fs, rest, rfl, hfs, hlen, hstop⟩ := exists_digits 8 p
      rw [hpoint, wholeLoop_point hfs hlen hstop,
        finish_eq hds (by positivity) (frac_lt hfs hlen)]
      refine ⟨_, rfl, fun v hv => ?_⟩
      obtain ⟨⟨hall, hlen'⟩, hv⟩ := Option.ite_none_right_eq_some.mp hv
      rw [hpoint] at hsplit
      exact ⟨ds, fs, ⟨hds, hfs, hlen', hlen, _, rest, hbefore, all_eq_true.mp hall,
        .inr hsplit⟩, (Option.some.inj hv).symm⟩
    · by_cases hspace : isspace c = true
      · exact hspaces (by rintro d ⟨⟩; exact hspace)
      · rw [wholeLoop, if_neg hpoint, if_neg hspace, hhead c rfl]
        exact ⟨none, rfl, nofun⟩

/-! ## Writing -/

theorem trimLoop_spec (fs rest : List UInt8) : trimLoop (fs ++ 46 :: rest) ≤ fs.length ∧
    fs.take (trimLoop (fs ++ 46 :: rest)) = replicate (trimLoop (fs ++ 46 :: rest)) 48 := by
  induction fs with
  | nil =>
    have hzero : trimLoop (46 :: rest) = 0 := by
      rcases rest with _ | ⟨d, _ | ⟨e, rest⟩⟩ <;> rfl
    rw [nil_append, hzero]
    exact ⟨le_refl 0, rfl⟩
  | cons c fs ih =>
    by_cases hgo : ∃ d e str, fs ++ 46 :: rest = d :: e :: str ∧ c = 48 ∧ isdigit e = true
    · obtain ⟨d, e, str, heq, rfl, he⟩ := hgo
      rw [cons_append, heq, trimLoop, he, Bool.and_true, decide_eq_true rfl, if_pos rfl, ← heq,
        length_cons, take_succ_cons, replicate_succ, ih.2]
      exact ⟨Nat.succ_le_succ ih.1, rfl⟩
    · have hzero : trimLoop (c :: (fs ++ 46 :: rest)) = 0 := by
        rcases heq : fs ++ 46 :: rest with _ | ⟨d, _ | ⟨e, str⟩⟩
        · rfl
        · rfl
        · refine if_neg fun hc => hgo ⟨d, e, str, heq, ?_⟩
          simpa using hc
      rw [cons_append, hzero]
      exact ⟨Nat.zero_le _, rfl⟩

theorem formatMoney_eq {n : Int} (hlo : 0 ≤ n) : ∃ nTrim fs, nTrim ≤ 8 ∧
    (toDigits (n % COIN).toNat).leftpad 8 48 = fs ++ replicate nTrim 48 ∧
    fs.length + nTrim = 8 ∧ formatMoney n = .ok (toDigits (n / COIN).toNat ++ 46 :: fs) := by
  have habs : absolute n = .ok n := by
    by_cases hpos : n > 0
    · exact if_pos hpos
    · obtain rfl : n = 0 := by omega
      rfl
  have hrem : n % COIN < 10 ^ 8 := emod_lt_of_pos n (by decide)
  generalize hR : (toDigits (n % COIN).toNat).leftpad 8 48 = R
  have hlen : R.length = 8 := by
    rw [← hR, length_leftpad]
    exact max_eq_left (length_toDigits_le (by omega))
  generalize hQ : toDigits (n / COIN).toNat = Q
  obtain ⟨hle, hzeros⟩ := trimLoop_spec R.reverse Q.reverse
  generalize ht : trimLoop (R.reverse ++ 46 :: Q.reverse) = t at hle hzeros
  rw [length_reverse, hlen] at hle
  rw [take_reverse, ← reverse_replicate, reverse_inj, hlen] at hzeros
  refine ⟨t, R.take (8 - t), hle, ?_, ?_, ?_⟩
  · rw [← hzeros, take_append_drop]
  · rw [length_take, hlen]
    omega
  · have hrev : (Q ++ 46 :: R).reverse = R.reverse ++ 46 :: Q.reverse := by simp
    have htake : (Q ++ 46 :: R).take ((Q ++ 46 :: R).length - t) = Q ++ 46 :: R.take (8 - t) := by
      rw [length_append, length_cons, hlen, take_append,
        take_of_length_le (by omega), show Q.length + (8 + 1) - t - Q.length = 8 - t + 1 by omega,
        take_succ_cons]
    rw [formatMoney, habs]
    show Except.ok (if n < 0 then _ else _) = _
    rw [if_neg (by omega), tdiv_eq_ediv_of_nonneg hlo, tmod_eq_emod_of_nonneg hlo, hQ, hR,
      hrev, ht, htake]

theorem formatMoney_written {n : Int} (hlo : 0 ≤ n) (hhi : n < 10 ^ 18) :
    ∃ str whole frac, formatMoney n = .ok str ∧ (0 : UInt8) ∉ str ∧ Written str whole frac ∧
      n = amount whole frac := by
  obtain ⟨nTrim, fs, hle, hfs, hlen, hformat⟩ := formatMoney_eq hlo
  have hdiv : (n / COIN).toNat < 10 ^ (9 + 1) := by
    rw [show COIN = 100000000 from rfl]
    omega
  have hdigits : Digits fs := by
    have hall : Digits ((toDigits (n % COIN).toNat).leftpad 8 48) :=
      forall_mem_append.mpr ⟨fun c hc => by rw [eq_of_mem_replicate hc]; rfl,
        digits_toDigits _⟩
    rw [hfs] at hall
    exact (forall_mem_append.mp hall).1
  have hvalue : value fs * 10 ^ nTrim = (n % COIN).toNat := by
    have heq := congrArg value hfs
    rw [value_append, value_zeros, length_replicate, leftpad, value_append, value_zeros,
      value_toDigits, zero_mul, zero_add] at heq
    exact heq.symm
  refine ⟨_, toDigits (n / COIN).toNat, fs, hformat, ?_, ⟨digits_toDigits _, hdigits,
    length_toDigits_le hdiv, by omega, [], [], nofun, nofun, .inr (by simp)⟩, ?_⟩
  · intro hmem
    rcases mem_append.mp hmem with hc | hc
    · cases digits_toDigits _ 0 hc
    · rcases mem_cons.mp hc with hc | hc
      · cases hc
      · cases hdigits 0 hc
  · rw [amount, value_toDigits, show 8 - fs.length = nTrim by omega]
    have hcast : (value fs : Int) * 10 ^ nTrim = (n % COIN).toNat := by exact_mod_cast hvalue
    rw [hcast, toNat_of_nonneg (ediv_nonneg hlo (by decide)),
      toNat_of_nonneg (emod_nonneg n (by decide)), ediv_mul_add_emod]

/-- What is written for an amount is read back, and what is read is, for all strings without a
    zero, an amount with at most 10 digits before the point and 8 behind it. -/
theorem parseMoney_spec :
    (∀ n : Int, 0 ≤ n → n < 10 ^ 18 →
      ∃ str, formatMoney n = .ok str ∧ parseMoney str = .ok (some n)) ∧
    ∀ str : List UInt8, (0 : UInt8) ∉ str → ∃ r, parseMoney str = .ok r ∧
      ∀ v, r = some v ↔ ∃ whole frac, Written str whole frac ∧
        v * 10 ^ frac.length = value (whole ++ frac) * COIN := by
  refine ⟨fun n hlo hhi => ?_, fun str h0 => ?_⟩
  · obtain ⟨str, whole, frac, hformat, h0, hwritten, rfl⟩ := formatMoney_written hlo hhi
    exact ⟨str, hformat, parseMoney_written h0 hwritten⟩
  · obtain ⟨r, hr, hwritten⟩ := written_of_parseMoney h0
    refine ⟨r, hr, fun v => ⟨fun hv => ?_, fun ⟨whole, frac, hw, hv⟩ => ?_⟩⟩
    · obtain ⟨whole, frac, hw, heq⟩ := hwritten v hv
      exact ⟨whole, frac, hw, (amount_eq hw.2.2.2.1).mpr heq⟩
    · have hread := parseMoney_written h0 hw
      rw [← (amount_eq hw.2.2.2.1).mp hv, hr] at hread
      exact Except.ok.inj hread

/-- Two spellings of one coin and a half. -/
theorem parseMoney_spec_sample :
    (∃ str, formatMoney 150000000 = .ok str ∧ parseMoney str = .ok (some 150000000)) ∧
    ∃ r, parseMoney [32, 49, 46, 53] = .ok r ∧
      ∀ v, r = some v ↔ ∃ whole frac, Written [32, 49, 46, 53] whole frac ∧
        v * 10 ^ frac.length = value (whole ++ frac) * COIN :=
  ⟨parseMoney_spec.1 150000000 (by decide) (by decide), parseMoney_spec.2 _ (by decide)⟩

end Money

end Rcoin
