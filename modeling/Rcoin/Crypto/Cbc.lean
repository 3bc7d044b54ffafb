/-
  `CBCEncrypt` and `CBCDecrypt` (src/crypto/aes.cpp), over blocks of `AES_BLOCKSIZE` = 16
  bytes, for any block cipher.
-/
import Rcoin.Lib.Checked

namespace Rcoin

open List

namespace Cbc

open Checked

/-! ## The functions -/

/-- A cipher under a key: a permutation of the blocks and its inverse. -/
structure Cipher where
  encrypt : List UInt8 → List UInt8
  decrypt : List UInt8 → List UInt8
  length_encrypt : ∀ {b}, b.length = 16 → (encrypt b).length = 16
  length_decrypt : ∀ {b}, b.length = 16 → (decrypt b).length = 16
  decrypt_encrypt : ∀ {b}, b.length = 16 → decrypt (encrypt b) = b
  encrypt_decrypt : ∀ {b}, b.length = 16 → encrypt (decrypt b) = b

def mix (a b : List UInt8) : List UInt8 := a.zipWith (· ^^^ ·) b

/-- The loops' variables: `mixed` or `prev`, what `data` points to, and what was written. -/
structure Run where
  written : Int
  mixed : List UInt8
  data : List UInt8
  out : List UInt8

def encLoop (enc : List UInt8 → List UInt8) (size : Int) : Nat → Run → Except Fault Run
  | 0, r => .ok r
  | fuel + 1, r => do
    let next ← signed 32 (r.written + 16)
    if next ≤ size then
      let block := enc (mix r.mixed (r.data.take 16))
      encLoop enc size fuel ⟨next, block, r.data.drop 16, r.out ++ block⟩
    else .ok r

/-- What is returned, and what is at `out`. -/
def cbcEncrypt (enc : List UInt8 → List UInt8) (iv data : List UInt8) (pad : Bool) :
    Except Fault (Int × List UInt8) :=
  let padsize := data.length % 16
  if data = [] then .ok (0, [])
  else if !pad ∧ padsize ≠ 0 then .ok (0, [])
  else do
    let r ← encLoop enc data.length data.length ⟨0, iv, data, []⟩
    if pad then
      let fill := List.replicate (16 - padsize) (UInt8.ofNat (16 - padsize))
      let block := enc (mix r.mixed (r.data.take padsize ++ fill))
      return (← signed 32 (r.written + 16), r.out ++ block)
    else return (r.written, r.out)

def decLoop (dec : List UInt8 → List UInt8) (size : Int) : Nat → Run → Except Fault Run
  | 0, r => .ok r
  | fuel + 1, r =>
    if r.written ≠ size then do
      let next ← signed 32 (r.written + 16)
      let block := r.data.take 16
      decLoop dec size fuel ⟨next, block, r.data.drop 16, r.out ++ mix (dec block) r.mixed⟩
    else .ok r

/-- The loop over `i`, downwards; `out` is read from its end. -/
def failLoop (padsize : Nat) : Nat → List UInt8 → Bool → Bool
  | 0, _, fail => fail
  | i + 1, out, fail => failLoop padsize i out.tail
    (fail || (decide (i + 1 > 16 - padsize) && decide (out.headD 0 ≠ UInt8.ofNat padsize)))

/-- The number returned when there is padding. -/
def unpad (written : Int) (out : List UInt8) : Except Fault Int := do
  let last := (out.getLastD 0).toNat
  let fail := decide (last = 0 ∨ last > 16)
  let padsize := if fail then 0 else last
  let written ← signed 32 (written - padsize)
  return if failLoop padsize 16 out.reverse fail then 0 else written

def cbcDecrypt (dec : List UInt8 → List UInt8) (iv data : List UInt8) (pad : Bool) :
    Except Fault (Int × List UInt8) :=
  if data = [] then .ok (0, [])
  else if data.length % 16 ≠ 0 then .ok (0, [])
  else do
    let r ← decLoop dec data.length data.length ⟨0, iv, data, []⟩
    if pad then return (← unpad r.written r.out, r.out)
    else return (r.written, r.out)

/-! ## Chains of blocks -/

def encChain (enc : List UInt8 → List UInt8) : List UInt8 → List (List UInt8) → List (List UInt8)
  | _, [] => []
  | iv, b :: bs => enc (mix iv b) :: encChain enc (enc (mix iv b)) bs

def decChain (dec : List UInt8 → List UInt8) : List UInt8 → List (List UInt8) → List (List UInt8)
  | _, [] => []
  | iv, b :: bs => mix (dec b) iv :: decChain dec b bs

def Blocks (bs : List (List UInt8)) : Prop := ∀ b ∈ bs, b.length = 16

theorem length_mix {a b : List UInt8} (ha : a.length = 16) (hb : b.length = 16) :
    (mix a b).length = 16 := by
  rw [mix, length_zipWith, ha, hb]
  rfl

theorem mix_mix {a b : List UInt8} (h : a.length = b.length) : mix (mix a b) a = b := by
  induction a generalizing b with
  | nil => exact (length_eq_zero_iff.mp h.symm).symm
  | cons x a ih =>
    obtain ⟨y, b, rfl⟩ := exists_cons_of_length_eq_add_one h.symm
    have htail := ih (Nat.succ.inj h)
    rw [mix, mix] at htail
    rw [mix, mix, zipWith_cons_cons, zipWith_cons_cons, htail, UInt8.xor_comm x,
      UInt8.xor_assoc, UInt8.xor_self, UInt8.xor_zero]

variable {iv : List UInt8} {bs : List (List UInt8)}

variable (c : Cipher)

theorem blocks_encChain (hiv : iv.length = 16) (hbs : Blocks bs)
    : Blocks (encChain c.encrypt iv bs) := by
  induction bs generalizing iv with
  | nil => exact forall_mem_nil _
  | cons b bs ih =>
    obtain ⟨hb, hbs⟩ := forall_mem_cons.mp hbs
    have hlen := c.length_encrypt (length_mix hiv hb)
    exact forall_mem_cons.mpr ⟨hlen, ih hlen hbs⟩

theorem length_decChain (dec : List UInt8 → List UInt8) (iv : List UInt8)
    (bs : List (List UInt8)) : (decChain dec iv bs).length = bs.length := by
  induction bs generalizing iv with
  | nil => rfl
  | cons b bs ih => rw [decChain, length_cons, length_cons, ih]

theorem blocks_decChain (hiv : iv.length = 16) (hbs : Blocks bs)
    : Blocks (decChain c.decrypt iv bs) := by
  induction bs generalizing iv with
  | nil => exact forall_mem_nil _
  | cons b bs ih =>
    obtain ⟨hb, hbs⟩ := forall_mem_cons.mp hbs
    exact forall_mem_cons.mpr ⟨length_mix (c.length_decrypt hb) hiv, ih hb hbs⟩

theorem decChain_encChain (hiv : iv.length = 16) (hbs : Blocks bs) :
    decChain c.decrypt iv (encChain c.encrypt iv bs) = bs := by
  induction bs generalizing iv with
  | nil => rfl
  | cons b bs ih =>
    obtain ⟨hb, hbs⟩ := forall_mem_cons.mp hbs
    have hmix := length_mix hiv hb
    rw [encChain, decChain, c.decrypt_encrypt hmix, mix_mix (hiv.trans hb.symm),
      ih (c.length_encrypt hmix) hbs]

theorem length_flatten (hbs : Blocks bs) : bs.flatten.length = 16 * bs.length := by
  induction bs with
  | nil => rfl
  | cons b bs ih =>
    obtain ⟨hb, hbs⟩ := forall_mem_cons.mp hbs
    rw [flatten_cons, length_append, hb, ih hbs, length_cons]
    omega

theorem exists_blocks (n : Nat) (data : List UInt8) (h : data.length < 16 * (n + 1))
    (hn : 16 * n ≤ data.length) :
    ∃ bs rest, data = bs.flatten ++ rest ∧ Blocks bs ∧ bs.length = n ∧ rest.length < 16 := by
  induction n generalizing data with
  | zero => exact ⟨[], data, rfl, forall_mem_nil _, rfl, by omega⟩
  | succ n ih =>
    obtain ⟨bs, rest, hdata, hbs, hlen, hrest⟩ := ih (data.drop 16)
      (by rw [length_drop]; omega) (by rw [length_drop]; omega)
    refine ⟨data.take 16 :: bs, rest, ?_, forall_mem_cons.mpr ⟨?_, hbs⟩, by simp [hlen], hrest⟩
    · rw [flatten_cons, append_assoc, ← hdata, take_append_drop]
    · rw [length_take]
      omega

/-! ## The loops -/

variable (enc : List UInt8 → List UInt8)

variable {rest : List UInt8} {r : Run}

theorem encLoop_blocks (size : Int) (fuel : Nat) (hbs : Blocks bs)
    (hdata : r.data = bs.flatten ++ rest) (h0 : 0 ≤ r.written)
    (hsize : r.written + 16 * bs.length ≤ size) (hfits : size < 2 ^ 31) :
    encLoop enc size (bs.length + fuel) r = encLoop enc size fuel
      ⟨r.written + 16 * bs.length, (encChain enc r.mixed bs).getLastD r.mixed, rest,
        r.out ++ (encChain enc r.mixed bs).flatten⟩ := by
  induction bs generalizing r with
  | nil =>
    obtain ⟨written, mixed, data, out⟩ := r
    simp_all [encChain]
  | cons b bs ih =>
    obtain ⟨hb, hbs⟩ := forall_mem_cons.mp hbs
    rw [flatten_cons, append_assoc] at hdata
    rw [length_cons] at hsize
    have hnext : signed 32 (r.written + 16) = .ok (r.written + 16) :=
      signed_of_fits ⟨by omega, by omega⟩
    have htake : r.data.take 16 = b ∧ r.data.drop 16 = bs.flatten ++ rest := by
      rw [hdata, ← hb]
      exact ⟨take_left, drop_left⟩
    rw [length_cons, Nat.add_right_comm, encLoop, hnext]
    refine (if_pos (by omega)).trans ?_
    rw [htake.1, htake.2]
    refine (ih hbs rfl (by dsimp only; omega) (by dsimp only; omega)).trans ?_
    rw [encChain, getLastD_cons, flatten_cons, append_assoc]
    congr 2
    push_cast
    omega

theorem decLoop_blocks (dec : List UInt8 → List UInt8) (size : Int) (fuel : Nat) (hbs : Blocks bs)
    (hdata : r.data = bs.flatten) (h0 : 0 ≤ r.written) (hsize : r.written + 16 * bs.length = size)
    (hfits : size < 2 ^ 31) :
    ∃ mixed, decLoop dec size (bs.length + fuel) r =
      .ok ⟨size, mixed, [], r.out ++ (decChain dec r.mixed bs).flatten⟩ := by
  induction bs generalizing r with
  | nil =>
    obtain ⟨written, mixed, data, out⟩ := r
    refine ⟨mixed, ?_⟩
    cases fuel <;> simp_all [decChain, decLoop]
  | cons b bs ih =>
    obtain ⟨hb, hbs⟩ := forall_mem_cons.mp hbs
    rw [length_cons] at hsize
    have hnext : signed 32 (r.written + 16) = .ok (r.written + 16) :=
      signed_of_fits ⟨by omega, by omega⟩
    have htake : r.data.take 16 = b ∧ r.data.drop 16 = bs.flatten := by
      rw [hdata, ← hb]
      exact ⟨take_left, drop_left⟩
    obtain ⟨mixed, heq⟩ := ih (r := ⟨r.written + 16, b, bs.flatten, r.out ++ mix (dec b) r.mixed⟩)
      hbs rfl (by dsimp only; omega) (by dsimp only; omega)
    refine ⟨mixed, ?_⟩
    rw [length_cons, Nat.add_right_comm, decLoop, if_pos (by omega), hnext, decChain,
      flatten_cons, ← append_assoc, ← heq, htake.1, htake.2]
    rfl

theorem encChain_concat (iv : List UInt8) (bs : List (List UInt8)) (b : List UInt8)
    : encChain enc iv (bs ++ [b]) =
      encChain enc iv bs ++ [enc (mix ((encChain enc iv bs).getLastD iv) b)] := by
  induction bs generalizing iv with
  | nil => rfl
  | cons a bs ih =>
    rw [cons_append, encChain, ih, encChain, getLastD_cons]
    rfl

/-- The last block, with as many bytes added as their value says. -/
def lastBlock (rest : List UInt8) : List UInt8 :=
  rest ++ List.replicate (16 - rest.length) (UInt8.ofNat (16 - rest.length))

theorem cbcEncrypt_blocks (iv : List UInt8) (hbs : Blocks bs) (hrest : rest.length < 16)
    (hne : bs.flatten ++ rest ≠ []) (hfits : 16 * bs.length + rest.length < 2 ^ 31) :
    cbcEncrypt enc iv (bs.flatten ++ rest) true =
      (signed 32 (16 * bs.length + 16)).map
        (·, (encChain enc iv (bs ++ [lastBlock rest])).flatten) := by
  have hlen : (bs.flatten ++ rest).length = 16 * bs.length + rest.length := by
    rw [length_append, length_flatten hbs]
  have hpos := length_pos_of_ne_nil hne
  obtain ⟨fuel, hfuel⟩ : ∃ k, (bs.flatten ++ rest).length = bs.length + (k + 1) :=
    ⟨15 * bs.length + rest.length - 1, by omega⟩
  have hloop := encLoop_blocks enc (bs.flatten ++ rest).length (fuel + 1) hbs
    (r := ⟨0, iv, bs.flatten ++ rest, []⟩) rfl (Int.le_refl 0) (by dsimp only; omega) (by omega)
  simp only [Int.zero_add, nil_append] at hloop
  have hmod : (bs.flatten ++ rest).length % 16 = rest.length := by omega
  rw [cbcEncrypt]
  simp only [if_neg hne, Bool.not_true, Bool.false_eq_true, false_and, if_false, if_true, hmod]
  rw [hfuel] at hloop ⊢
  rw [hloop, encLoop, encChain_concat, flatten_append, flatten_singleton]
  by_cases hover : Fits 32 (16 * bs.length + 16)
  · have hnot : ¬(16 * bs.length + 16 : Int) ≤ ((bs.length + (fuel + 1) : Nat) : Int) := by
      omega
    have hok := signed_of_fits hover
    rw [bind_of_ok hok, if_neg hnot, bind_of_ok rfl, bind_of_ok hok, hok, take_length]
    rfl
  · rw [show signed 32 (16 * bs.length + 16) = .error .overflow from if_neg hover]
    rfl

/-! ## Padding -/

theorem failLoop_eq {p : Nat} (hp : p ≤ 16) {i : Nat} (hi : i ≤ 16) (rev : List UInt8)
    (hlen : i ≤ rev.length) (fail : Bool) : failLoop p i rev fail =
      (fail || !decide (rev.take (i + p - 16) =
        List.replicate (i + p - 16) (UInt8.ofNat p))) := by
  induction i generalizing rev fail with
  | zero => simp [failLoop, show p - 16 = 0 by omega]
  | succ i ih =>
    obtain ⟨a, tail, rfl⟩ : ∃ a tail, rev = a :: tail :=
      exists_cons_of_length_pos (by omega)
    rw [failLoop, tail_cons, ih (by omega) tail (by simpa using hlen), headD_cons]
    by_cases hread : i + 1 > 16 - p
    · rw [show i + 1 + p - 16 = (i + p - 16) + 1 by omega, take_succ_cons,
        replicate_succ]
      by_cases ha : a = UInt8.ofNat p <;> simp [ha, hread]
    · rw [show i + 1 + p - 16 = 0 by omega, show i + p - 16 = 0 by omega]
      simp [hread]

/-- The text is `body` with `k` bytes added, which all say so. -/
def Padded (out body : List UInt8) (k : Nat) : Prop :=
  1 ≤ k ∧ k ≤ 16 ∧ out = body ++ List.replicate k (UInt8.ofNat k)

theorem padded_iff {out body : List UInt8} {k : Nat} : Padded out body k ↔
    1 ≤ k ∧ k ≤ 16 ∧ (out.getLastD 0).toNat = k ∧ body = out.take (out.length - k) ∧
      k ≤ out.length ∧ out.reverse.take k = List.replicate k (UInt8.ofNat k) := by
  constructor
  · rintro ⟨hk, hle, rfl⟩
    obtain ⟨j, rfl⟩ : ∃ j, k = j + 1 := ⟨k - 1, by omega⟩
    refine ⟨hk, hle, ?_, ?_, ?_, ?_⟩
    · rw [replicate_succ', ← append_assoc, getLastD_concat, UInt8.toNat_ofNat']
      omega
    · simp
    · simp
    · rw [reverse_append, reverse_replicate]
      exact take_left' (length_replicate)
  · rintro ⟨hk, hle, -, rfl, hlen, hrev⟩
    refine ⟨hk, hle, ?_⟩
    rw [take_reverse, reverse_eq_iff, reverse_replicate] at hrev
    rw [← hrev, take_append_drop]

theorem unpad_spec (out : List UInt8) (hlen : 16 ≤ out.length) (hfits : out.length < 2 ^ 31) :
    ∃ n, unpad out.length out = .ok n ∧ (∀ body k, Padded out body k → n = body.length) ∧
      (n ≠ 0 → ∃ body k, Padded out body k) := by
  have hfail := fun p (hp : p ≤ 16) => failLoop_eq hp (Nat.le_refl 16) out.reverse
    (by rw [length_reverse]; omega)
  rw [unpad]
  by_cases hbad : (out.getLastD 0).toNat = 0 ∨ (out.getLastD 0).toNat > 16
  · have hfits : signed 32 ((out.length : Int) - (0 : Nat)) = .ok (out.length : Int) := by
      exact signed_of_fits ⟨by omega, by omega⟩
    simp only [hbad, decide_true, if_true]
    rw [bind_of_ok hfits, hfail 0 (by decide), Bool.true_or, if_pos rfl]
    refine ⟨0, rfl, fun body k hk => ?_, fun h => absurd rfl h⟩
    obtain ⟨h1, h16, hlast, -⟩ := padded_iff.mp hk
    omega
  · obtain ⟨p, hp⟩ : ∃ p, (out.getLastD 0).toNat = p := ⟨_, rfl⟩
    rw [hp] at hbad ⊢
    have hfits : signed 32 ((out.length : Int) - p) = .ok (out.length - p) :=
      signed_of_fits ⟨by omega, by omega⟩
    simp only [hbad, decide_false, Bool.false_eq_true, if_false]
    rw [bind_of_ok hfits, hfail p (by omega), Bool.false_or, Nat.add_sub_cancel_left]
    by_cases hrev : out.reverse.take p = List.replicate p (UInt8.ofNat p)
    · have hpadded : Padded out (out.take (out.length - p)) p :=
        padded_iff.mpr ⟨by omega, by omega, hp, rfl, by omega, hrev⟩
      refine ⟨out.length - p, by simp [hrev, pure, Except.pure], fun body k hk => ?_,
        fun _ => ⟨_, _, hpadded⟩⟩
      obtain ⟨-, -, hlast, rfl, hle, -⟩ := padded_iff.mp hk
      rw [length_take]
      omega
    · refine ⟨0, by simp [hrev, pure, Except.pure], fun body k hk => absurd ?_ hrev,
        fun h => absurd rfl h⟩
      obtain ⟨-, -, hlast, -, -, hk⟩ := padded_iff.mp hk
      rwa [← hp, hlast]

theorem cbcDecrypt_blocks (hiv : iv.length = 16) (hbs : Blocks bs) (hne : bs ≠ [])
    (hfits : 16 * bs.length < 2 ^ 31) : ∃ n, cbcDecrypt c.decrypt iv bs.flatten true =
        .ok (n, (decChain c.decrypt iv bs).flatten) ∧
      (∀ body k, Padded (decChain c.decrypt iv bs).flatten body k → n = body.length) ∧
      (n ≠ 0 → ∃ body k, Padded (decChain c.decrypt iv bs).flatten body k) := by
  have hpos := length_pos_of_ne_nil hne
  have hflat := length_flatten hbs
  have hdata : bs.flatten ≠ [] := ne_nil_of_length_pos (by omega)
  have hout : (decChain c.decrypt iv bs).flatten.length = 16 * bs.length := by
    rw [length_flatten (blocks_decChain c hiv hbs), length_decChain]
  obtain ⟨mixed, hloop⟩ := decLoop_blocks c.decrypt bs.flatten.length
    (15 * bs.length) hbs (r := ⟨0, iv, bs.flatten, []⟩) rfl (Int.le_refl 0)
    (by dsimp only; omega) (by omega)
  rw [show bs.length + 15 * bs.length = bs.flatten.length by omega] at hloop
  obtain ⟨n, hn, hpadded⟩ := unpad_spec (decChain c.decrypt iv bs).flatten
    (by omega) (by omega)
  refine ⟨n, ?_, hpadded⟩
  rw [cbcDecrypt, if_neg hdata, if_neg (by omega), bind_of_ok hloop, if_pos rfl,
    nil_append, hflat, ← hout, bind_of_ok hn]
  rfl

theorem exists_rest {m : List UInt8} : ∃ bs rest, m = bs.flatten ++ rest ∧ Blocks bs ∧
    bs.length = m.length / 16 ∧ rest.length = m.length % 16 := by
  obtain ⟨bs, rest, hm, hbs, hlen, hrest⟩ :=
    exists_blocks (m.length / 16) m (by omega) (by omega)
  refine ⟨bs, rest, hm, hbs, hlen, ?_⟩
  have := congrArg List.length hm
  rw [length_append, length_flatten hbs] at this
  omega

theorem cbcEncrypt_overflow (iv : List UInt8) {m : List UInt8} (hlen : 2 ^ 31 - 16 ≤ m.length)
    (hfits : m.length < 2 ^ 31) : cbcEncrypt enc iv m true = .error .overflow := by
  obtain ⟨bs, rest, hm, hbs, hcount, hrest⟩ := exists_rest (m := m)
  have hne : bs.flatten ++ rest ≠ [] := hm ▸ ne_nil_of_length_pos (by omega)
  have hover : ¬Fits 32 (16 * bs.length + 16) := fun h => by
    have := h.2
    omega
  rw [hm, cbcEncrypt_blocks enc iv hbs (by omega) hne (by omega), signed, if_neg hover]
  rfl

/-- A message of `2^31 - 1` bytes, though its length is an `int`. -/
theorem not_cbcEncrypt_largest : ∃ m : List UInt8, m ≠ [] ∧ m.length < 2 ^ 31 ∧
    ∀ (c : Cipher) (iv : List UInt8), cbcEncrypt c.encrypt iv m true = .error .overflow := by
  refine ⟨List.replicate (2 ^ 31 - 1) 0, ?_, ?_, fun c iv => cbcEncrypt_overflow _ _ ?_ ?_⟩
  · exact ne_nil_of_length_pos (by rw [length_replicate]; decide)
  all_goals
    rw [length_replicate]
    decide

/-- What is encrypted is decrypted, as long as its padded length is an `int`; and a number is
    returned for a text with padding only, which is that of what it was added to. -/
theorem cbc_spec (c : Cipher) {iv : List UInt8} (hiv : iv.length = 16) :
    (∀ m : List UInt8, m ≠ [] → m.length + (16 - m.length % 16) < 2 ^ 31 →
      ∃ out : List UInt8, cbcEncrypt c.encrypt iv m true = .ok (out.length, out) ∧
        out.length = m.length + (16 - m.length % 16) ∧
        ∃ back, cbcDecrypt c.decrypt iv out true = .ok (m.length, back) ∧
          back.take m.length = m) ∧
    ∀ data : List UInt8, data ≠ [] → data.length % 16 = 0 → data.length < 2 ^ 31 →
      ∃ bs, data = bs.flatten ∧ Blocks bs ∧
      ∃ n out, cbcDecrypt c.decrypt iv data true = .ok (n, out) ∧
        out = (decChain c.decrypt iv bs).flatten ∧
        (n ≠ 0 ↔ ∃ body k, Padded out body k ∧ body ≠ []) ∧
        ∀ body k, Padded out body k → n = body.length ∧ out.take body.length = body := by
  refine ⟨fun m hne hfits => ?_, fun data hne hmod hfits => ?_⟩
  · obtain ⟨bs, rest, rfl, hbs, hcount, hrest⟩ := exists_rest (m := m)
    generalize hlen : (bs.flatten ++ rest).length = len at hfits hcount hrest ⊢
    -- the padding makes a whole block of the rest
    have hlast : Blocks (bs ++ [lastBlock rest]) := by
      refine forall_mem_append.mpr ⟨hbs, forall_mem_singleton.mpr ?_⟩
      rw [lastBlock, length_append, length_replicate]
      omega
    have hblocks := blocks_encChain c hiv hlast
    have hout : (encChain c.encrypt iv (bs ++ [lastBlock rest])).length = bs.length + 1 := by
      have hback := congrArg List.length (decChain_encChain c hiv hlast)
      rwa [length_decChain, length_append] at hback
    have hlength := length_flatten hblocks
    refine ⟨(encChain c.encrypt iv (bs ++ [lastBlock rest])).flatten, ?_, by omega, ?_⟩
    · have hint : (((encChain c.encrypt iv (bs ++ [lastBlock rest])).flatten.length : Nat) : Int) =
          16 * bs.length + 16 := by omega
      rw [cbcEncrypt_blocks _ _ hbs (by omega) hne (by omega), hint,
        signed_of_fits ⟨by omega, by omega⟩]
      rfl
    · obtain ⟨n, heq, hn, -⟩ := cbcDecrypt_blocks c hiv hblocks
        (ne_nil_of_length_pos (by omega)) (by omega)
      rw [decChain_encChain c hiv hlast] at heq hn
      have hpadded : Padded (bs ++ [lastBlock rest]).flatten (bs.flatten ++ rest)
          (16 - rest.length) := by
        refine ⟨by omega, by omega, ?_⟩
        rw [flatten_append, flatten_singleton, lastBlock, append_assoc]
      rw [hn _ _ hpadded, hlen] at heq
      refine ⟨_, heq, ?_⟩
      rw [hpadded.2.2, ← hlen]
      exact take_left
  · obtain ⟨bs, rest, hdata, hbs, hcount, hrest⟩ := exists_rest (m := data)
    obtain rfl : rest = [] := eq_nil_of_length_eq_zero (hrest.trans hmod)
    rw [append_nil] at hdata
    subst hdata
    have hpos := length_pos_of_ne_nil hne
    obtain ⟨n, heq, hn, hpadded⟩ := cbcDecrypt_blocks c hiv hbs
      (ne_nil_of_length_pos (by omega)) (by omega)
    refine ⟨bs, rfl, hbs, n, _, heq, rfl, ⟨fun h => ?_, ?_⟩, fun body k hk => ⟨hn body k hk, ?_⟩⟩
    · obtain ⟨body, k, hk⟩ := hpadded h
      refine ⟨body, k, hk, fun hnil => h ?_⟩
      rw [hn body k hk, hnil]
      rfl
    · rintro ⟨body, k, hk, hbody⟩
      have := length_pos_of_ne_nil hbody
      rw [hn body k hk]
      omega
    · rw [hk.2.2]
      exact take_left

/-- A cipher that changes nothing. -/
def Cipher.identity : Cipher where
  encrypt b := b
  decrypt b := b
  length_encrypt h := h
  length_decrypt h := h
  decrypt_encrypt _ := rfl
  encrypt_decrypt _ := rfl

theorem cbc_spec_sample : ∃ out : List UInt8,
    cbcEncrypt Cipher.identity.encrypt (List.replicate 16 0) [104, 105] true =
      .ok (out.length, out) ∧ out.length = 16 := by
  obtain ⟨out, heq, hlen, -⟩ :=
    (cbc_spec Cipher.identity length_replicate).1 [104, 105] (by decide) (by decide)
  exact ⟨out, heq, hlen⟩

end Cbc

end Rcoin
