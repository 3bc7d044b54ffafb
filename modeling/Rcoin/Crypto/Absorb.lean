/-
  The hasher absorbs what is written to it, in whatever pieces: its words and its buffer
  are those of the sponge over the whole message (src/crypto/sha3_256.cpp).
-/
import Rcoin.Crypto.Permutation
import Rcoin.Unserialize

namespace Rcoin

open Sponge Vector Keccak

namespace Sha3

/-! ## Bits of bytes -/

/-- A string of bytes as one of bits, the lowest bit of a byte first. -/
def bitsOf (bytes : List UInt8) : List Bool :=
  bytes.flatMap fun b => (List.range 8).map b.toNat.testBit

@[simp] theorem length_bitsOf (bytes : List UInt8) : (bitsOf bytes).length = 8 * bytes.length := by
  induction bytes with
  | nil => rfl
  | cons b bytes ih =>
    rw [bitsOf, List.flatMap_cons, List.length_append, ← bitsOf, ih, List.length_map,
      List.length_range, List.length_cons, Nat.mul_succ, Nat.add_comm]

@[simp] theorem bitsOf_append (xs ys : List UInt8) : bitsOf (xs ++ ys) = bitsOf xs ++ bitsOf ys :=
  List.flatMap_append

theorem bitsOf_take (n : Nat) (bytes : List UInt8) :
    bitsOf (bytes.take n) = (bitsOf bytes).take (8 * n) := by
  rcases Nat.le_total bytes.length n with hle | hle
  · rw [List.take_of_length_le hle, List.take_of_length_le]
    rw [length_bitsOf]
    omega
  · have hsplit : bitsOf bytes = bitsOf (bytes.take n) ++ bitsOf (bytes.drop n) := by
      rw [← bitsOf_append, List.take_append_drop]
    have hlen : (bitsOf (bytes.take n)).length = 8 * n := by
      rw [length_bitsOf, List.length_take_of_le hle]
    rw [hsplit, List.take_left' hlen]

theorem bitsOf_drop (n : Nat) (bytes : List UInt8) :
    bitsOf (bytes.drop n) = (bitsOf bytes).drop (8 * n) := by
  rcases Nat.le_total bytes.length n with hle | hle
  · rw [List.drop_of_length_le hle, List.drop_of_length_le]
    · rfl
    · rw [length_bitsOf]
      omega
  · have hsplit : bitsOf bytes = bitsOf (bytes.take n) ++ bitsOf (bytes.drop n) := by
      rw [← bitsOf_append, List.take_append_drop]
    have hlen : (bitsOf (bytes.take n)).length = 8 * n := by
      rw [length_bitsOf, List.length_take_of_le hle]
    rw [hsplit, List.drop_left' hlen]

theorem ofLeBytes_cons (b : UInt8) (bytes : List UInt8) :
    ofLeBytes (b :: bytes) = 2 ^ 8 * ofLeBytes bytes + b.toNat := by
  rw [ofLeBytes, List.reverse_cons, List.map_append, List.map_singleton, Digits.ofDigits_concat,
    ← ofLeBytes, Nat.mul_comm]

theorem getD_bitsOf (bytes : List UInt8) (i : Nat) :
    (bitsOf bytes).getD i false = (ofLeBytes bytes).testBit i := by
  induction bytes generalizing i with
  | nil => exact (Nat.zero_testBit i).symm
  | cons b bytes ih =>
    rw [ofLeBytes_cons, Nat.testBit_two_pow_mul_add _ b.toNat_lt, bitsOf, List.flatMap_cons,
      ← bitsOf]
    split
    · next hi =>
      rw [List.getD_append _ _ _ _ (by rw [List.length_map, List.length_range]; exact hi),
        List.getD_eq_getElem?_getD, List.getElem?_map, List.getElem?_range hi]
      rfl
    · next hi =>
      rw [List.getD_append_right _ _ _ _
        (by rw [List.length_map, List.length_range]; exact Nat.not_lt.mp hi), List.length_map,
        List.length_range, ih]

variable {n i : Nat}

theorem getD_take {xs : List Bool} (hi : i < n) : (xs.take n).getD i false = xs.getD i false := by
  rw [List.getD_eq_getElem?_getD, List.getD_eq_getElem?_getD, List.getElem?_take_of_lt hi]

theorem getD_drop (xs : List Bool) (n i : Nat) :
    (xs.drop n).getD i false = xs.getD (n + i) false := by
  rw [List.getD_eq_getElem?_getD, List.getD_eq_getElem?_getD, List.getElem?_drop]

/-! ## A block -/

variable {data : List UInt8} {A : Vector UInt64 25}

theorem xorWord_spec (hi : i < 25) (hdata : 8 * i + 8 ≤ data.length) :
    ∃ A', xorWord data A i = some A' ∧ ∀ x y z, toState A' x y z =
      (toState A x y z ^^ (5 * y.val + x.val == i &&
        (bitsOf data).getD (index x y z) false)) := by
  refine ⟨_, by rw [xorWord, dif_pos hi, if_pos hdata], fun x y z => ?_⟩
  have hz := z.isLt
  have hget : ∀ v, wordAt (A.set i v) x y = if i = 5 * y.val + x.val then v else wordAt A x y :=
    fun v => getElem_set _ _
  rw [toState, hget]
  split
  · next heq =>
    have hlt : ofLeBytes ((data.drop (8 * i)).take 8) < 2 ^ 64 := by
      have hlt := ofLeBytes_lt_two_pow ((data.drop (8 * i)).take 8)
      rwa [List.length_take_of_le (by rw [List.length_drop]; omega)] at hlt
    have hbit : (UInt64.ofNat (ofLeBytes ((data.drop (8 * i)).take 8))).toBitVec.getLsbD z.val =
        (bitsOf data).getD (index x y z) false := by
      rw [← BitVec.testBit_toNat, UInt64.toNat_toBitVec, UInt64.toNat_ofNat_of_lt' hlt,
        ← getD_bitsOf, bitsOf_take, bitsOf_drop, getD_take hz, getD_drop, index, ← heq,
        ← Nat.mul_assoc]
    have hword : A[i] = wordAt A x y := by
      subst heq
      rfl
    rw [hword, UInt64.toBitVec_xor, BitVec.getLsbD_xor, hbit, heq, beq_self_eq_true, Bool.true_and]
    rfl
  · next hne =>
    rw [beq_eq_false_iff_ne.mpr (Ne.symm hne), Bool.false_and, Bool.xor_false]
    rfl

theorem xorWords_spec {k : Nat} (hk : k ≤ 25) (hdata : 8 * k ≤ data.length) :
    ∃ A', (List.range k).foldlM (xorWord data) A = some A' ∧ ∀ x y z, toState A' x y z =
      (toState A x y z ^^ (decide (5 * y.val + x.val < k) &&
        (bitsOf data).getD (index x y z) false)) := by
  induction k with
  | zero => exact ⟨A, rfl, fun x y z => (Bool.xor_false _).symm⟩
  | succ k ih =>
    obtain ⟨A1, hfold, hA1⟩ := ih (by omega) (by omega)
    have hlen : 8 * k + 8 ≤ data.length := by omega
    obtain ⟨A2, hword, hA2⟩ := xorWord_spec (A := A1) hk hlen
    refine ⟨A2, ?_, fun x y z => ?_⟩
    · rw [List.range_succ, List.foldlM_append, hfold]
      exact (bind_pure _).trans hword
    · rw [hA2, hA1, Bool.xor_assoc, ← Bool.and_xor_distrib_right]
      rcases Nat.lt_trichotomy (5 * y.val + x.val) k with hlt | heq | hlt
      · rw [decide_eq_true hlt, decide_eq_true (by omega), beq_eq_false_iff_ne.mpr (by omega)]
        rfl
      · rw [heq, decide_eq_false (by omega), decide_eq_true (by omega), beq_self_eq_true]
        rfl
      · rw [decide_eq_false (by omega), decide_eq_false (by omega),
          beq_eq_false_iff_ne.mpr (by omega)]
        rfl

theorem xorBlock_spec (hdata : 136 ≤ data.length) :
    ∃ A', (List.range 17).foldlM (xorWord data) A = some A' ∧
      toState (transform A') = absorb (toState A) (bitsOf (data.take 136)) := by
  obtain ⟨A', hfold, hA'⟩ := xorWords_spec (A := A) (k := 17) (by decide) hdata
  refine ⟨A', hfold, ?_⟩
  rw [toState_transform, absorb]
  congr 1
  funext x y z
  rw [hA', bitsOf_take, index]
  by_cases hlt : 5 * y.val + x.val < 17
  · rw [decide_eq_true hlt, Bool.true_and, getD_take (by omega)]
  · have hshort : ((bitsOf data).take (8 * 136)).length ≤ 64 * (5 * y.val + x.val) + z.val := by
      rw [List.length_take]
      omega
    rw [decide_eq_false hlt, Bool.false_and, List.getD_eq_default _ _ hshort]

theorem transformBlocks_spec {num_blks : Nat} (hdata : num_blks * 136 ≤ data.length) :
    ∃ A', transformBlocks data num_blks A RATE = some A' ∧
      toState A' = absorbBlocks absorb 1088 num_blks (toState A) (bitsOf data) := by
  have hr : RATE / 8 = 136 := rfl
  have hr64 : RATE / 64 = 17 := rfl
  induction num_blks with
  | zero => exact ⟨A, rfl, rfl⟩
  | succ n ih =>
    obtain ⟨A1, hprev, hA1⟩ := ih (by omega)
    have hlen : 136 ≤ (data.drop (n * 136)).length := by
      rw [List.length_drop]
      omega
    obtain ⟨A2, hfold, hA2⟩ := xorBlock_spec (A := A1) hlen
    refine ⟨transform A2, ?_, ?_⟩
    · rw [transformBlocks, hr, hr64] at hprev
      rw [transformBlocks, hr, hr64, @List.range_succ n, List.foldlM_append, hprev]
      simp only [Option.bind_eq_bind, Option.bind_some, List.foldlM_cons, List.foldlM_nil, hfold,
        Option.map_some]
      rfl
    · have hblock : block 1088 (bitsOf data) n = bitsOf ((data.drop (n * 136)).take 136) := by
        rw [bitsOf_take, bitsOf_drop, block]
        have hstart : n * 1088 = 8 * (n * 136) := by omega
        rw [hstart]
      rw [hA2, absorbBlocks_succ, ← hA1, hblock]

/-! ## The buffer -/

theorem memcpy_spec (m : List.Vector UInt8 144) (pos : Nat) (hpos : pos + n ≤ 144)
    (hn : n ≤ data.length) : ∃ m', memcpy m pos data n = some m' ∧
      m'.toList = m.toList.take pos ++ data.take n ++ m.toList.drop (pos + n) :=
  ⟨_, dif_pos ⟨hpos, hn⟩, rfl⟩

theorem take_memcpy {m m' : List.Vector UInt8 144} {pos : Nat} (hpos : pos + n ≤ 144)
    (hn : n ≤ data.length)
    (hm' : m'.toList = m.toList.take pos ++ data.take n ++ m.toList.drop (pos + n)) :
    m'.toList.take (pos + n) = m.toList.take pos ++ data.take n := by
  rw [hm', List.take_left']
  rw [List.length_append, List.length_take_of_le hn, List.length_take_of_le]
  rw [m.toList_length]
  omega

/-- The hasher has absorbed the blocks of a message, and its buffer holds the rest. -/
structure HasAbsorbed (message : List UInt8) (s : CSHA3_256) : Prop where
  pos_lt : s.pos < 136
  absorbed : Sponge.Absorbed absorb 1088 Keccak.zero (bitsOf message) (toState s.A)
    (bitsOf (s.m.toList.take s.pos))

variable {message : List UInt8} {s : CSHA3_256}

variable (h : HasAbsorbed message s)

include h

theorem HasAbsorbed.pos_eq : s.pos = message.length % 136 := by
  have hpos := h.pos_lt
  have hlen := h.absorbed.length_buffer
  rw [length_bitsOf, length_bitsOf, List.length_take_of_le (by rw [s.m.toList_length]; omega)] at hlen
  omega

theorem absorbFirst_spec (data : List UInt8) :
    ∃ taken rest s', data = taken ++ rest ∧ absorbFirst data 136 136 RATE s = some (rest, s') ∧
      HasAbsorbed (message ++ taken) s' ∧ (s'.pos = 0 ∨ s'.pos + rest.length < 136) := by
  have hpos := h.pos_lt
  rw [absorbFirst]
  split
  · next hfull =>
    -- the data completes the block in the buffer
    have hn : 136 - s.pos ≤ data.length := by omega
    have hsum : s.pos + (136 - s.pos) = 136 := by omega
    obtain ⟨m', hcopy, hm'⟩ := memcpy_spec s.m s.pos (by omega) hn
    have htake := take_memcpy (by omega) hn hm'
    rw [hsum] at htake
    have hblock : 1 * 136 ≤ m'.toList.length := by
      rw [m'.toList_length]
      decide
    obtain ⟨A', hA', hstate⟩ := transformBlocks_spec (A := s.A) hblock
    refine ⟨data.take (136 - s.pos), data.drop (136 - s.pos),
      { A := A', m := m', pos := 0, total := s.total + UInt64.ofNat (136 * 8) },
      (List.take_append_drop _ _).symm, ?_, ⟨Nat.zero_lt_succ _, ?_⟩, .inl rfl⟩
    · rw [hcopy, Option.bind_eq_bind, Option.bind_some, hA', Option.bind_eq_bind, Option.bind_some]
    · have hlen : (bitsOf (s.m.toList.take s.pos) ++ bitsOf (data.take (136 - s.pos))).length =
          1 * 1088 := by
        rw [List.length_append, length_bitsOf, length_bitsOf, List.length_take_of_le hn,
          List.length_take_of_le (by rw [s.m.toList_length]; omega)]
        omega
      have hbuffer : absorbBlocks absorb 1088 1 (toState s.A) (bitsOf m'.toList) =
          absorbBlocks absorb 1088 1 (toState s.A)
            (bitsOf (s.m.toList.take s.pos) ++ bitsOf (data.take (136 - s.pos))) := by
        rw [← bitsOf_append, ← htake, bitsOf_take]
        have hsplit := List.take_append_drop (8 * 136) (bitsOf m'.toList)
        rw [← hsplit, absorbBlocks_append_left, hsplit]
        rw [List.length_take, length_bitsOf, m'.toList_length]
        decide
      rw [bitsOf_append]
      have hblocks := h.absorbed.blocks hlen
      rw [← hbuffer, ← hstate] at hblocks
      exact hblocks
  · next hfull =>
    refine ⟨[], data, s, rfl, rfl, by rwa [List.append_nil], ?_⟩
    omega

theorem absorbWhole_spec {data : List UInt8} (hdata : s.pos = 0 ∨ s.pos + data.length < 136) :
    ∃ taken rest s', data = taken ++ rest ∧ absorbWhole data 136 136 RATE s = some (rest, s') ∧
      HasAbsorbed (message ++ taken) s' ∧ s'.pos + rest.length < 136 := by
  rw [absorbWhole]
  split
  · next hfull =>
    have hzero : s.pos = 0 := by omega
    have hblocks : (data.length + 136 - 136) / 136 = data.length / 136 := by
      rw [Nat.add_sub_cancel]
    have hle : data.length / 136 * 136 ≤ data.length := Nat.div_mul_le_self _ _
    obtain ⟨A', hA', hstate⟩ := transformBlocks_spec (A := s.A) hle
    refine ⟨data.take (data.length / 136 * 136), data.drop (data.length / 136 * 136),
      { s with A := A', total := s.total + UInt64.ofNat (data.length / 136 * 136 * 8) },
      (List.take_append_drop _ _).symm, ?_, ⟨h.pos_lt, ?_⟩, ?_⟩
    · simp only [hblocks, hA', Option.bind_eq_bind, Option.bind_some]
    · have hbuffer : s.m.toList.take s.pos = [] := by rw [hzero, List.take_zero]
      have habsorbed := h.absorbed
      rw [hbuffer] at habsorbed
      have htaken : (bitsOf [] ++ bitsOf (data.take (data.length / 136 * 136))).length =
          data.length / 136 * 1088 := by
        rw [← bitsOf_append, List.nil_append, length_bitsOf, List.length_take_of_le hle]
        omega
      have hnext := habsorbed.blocks htaken
      have hdrop : absorbBlocks absorb 1088 (data.length / 136) (toState s.A)
          (bitsOf [] ++ bitsOf (data.take (data.length / 136 * 136))) = toState A' := by
        have hsplit := List.take_append_drop (8 * (data.length / 136 * 136)) (bitsOf data)
        rw [hstate, ← bitsOf_append, List.nil_append, bitsOf_take, ← hsplit,
          absorbBlocks_append_left, hsplit]
        rw [List.length_take, length_bitsOf]
        omega
      rw [hdrop] at hnext
      rw [hbuffer, bitsOf_append]
      exact hnext
    · show s.pos + (data.drop _).length < 136
      rw [hzero, List.length_drop]
      omega
  · next hfull =>
    refine ⟨[], data, s, rfl, rfl, by rwa [List.append_nil], ?_⟩
    omega

theorem absorbBytes_spec (data : List UInt8) :
    ∃ s', absorbBytes data 136 136 RATE s = some s' ∧ HasAbsorbed (message ++ data) s' := by
  obtain ⟨first, rest1, s1, hdata, hfirst, h1, hpos1⟩ := absorbFirst_spec h data
  obtain ⟨whole, rest2, s2, hrest, hwhole, h2, hpos2⟩ := absorbWhole_spec h1 hpos1
  obtain ⟨m', hcopy, hm'⟩ := memcpy_spec s2.m s2.pos (by omega)
    (Nat.le_refl rest2.length)
  refine ⟨{ s2 with m := m', pos := s2.pos + rest2.length }, ?_, ⟨hpos2, ?_⟩⟩
  · rw [absorbBytes, hfirst]
    simp only [Option.bind_eq_bind, Option.bind_some, hwhole, hcopy]
  · have hbuffer := take_memcpy (by omega) (Nat.le_refl rest2.length) hm'
    rw [List.take_length] at hbuffer
    have hfill : (bitsOf (s2.m.toList.take s2.pos)).length + (bitsOf rest2).length < 1088 := by
      rw [length_bitsOf, length_bitsOf, List.length_take_of_le (by rw [s2.m.toList_length]; omega)]
      omega
    have hnext := h2.absorbed.fill hfill
    rw [← bitsOf_append, ← bitsOf_append, ← hbuffer, List.append_assoc, List.append_assoc, ← hrest,
      ← hdata] at hnext
    exact hnext

theorem HasAbsorbed.write (data : List UInt8) :
    ∃ s', s.write data = some s' ∧ HasAbsorbed (message ++ data) s' :=
  absorbBytes_spec h data

omit h

theorem hasAbsorbed_zero (m : List.Vector UInt8 144) (total : UInt64) :
    HasAbsorbed [] { A := replicate 25 0, m := m, pos := 0, total := total } := by
  have hzero : toState (replicate 25 0) = Keccak.zero := by
    funext x y z
    have hword : wordAt (replicate 25 0) x y = 0 := getElem_replicate _
    rw [toState, hword]
    exact BitVec.getLsbD_zero
  refine ⟨Nat.zero_lt_succ _, ?_⟩
  rw [hzero, List.take_zero]
  exact Sponge.Absorbed.start (by decide)

theorem HasAbsorbed.writes (h : HasAbsorbed message s) (chunks : List (List UInt8)) :
    ∃ s', chunks.foldlM CSHA3_256.write s = some s' ∧ HasAbsorbed (message ++ chunks.flatten) s' := by
  induction chunks generalizing message s with
  | nil => exact ⟨s, rfl, by rwa [List.flatten_nil, List.append_nil]⟩
  | cons data chunks ih =>
    obtain ⟨s1, hwrite, h1⟩ := h.write data
    obtain ⟨s', hfold, h'⟩ := ih h1
    refine ⟨s', ?_, ?_⟩
    · rw [List.foldlM_cons, hwrite]
      exact hfold
    · rwa [List.flatten_cons, ← List.append_assoc]

end Sha3

end Rcoin
