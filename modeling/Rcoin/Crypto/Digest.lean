/-
  `Finalize` gives the SHA3-256 digest of everything that was written
  (src/crypto/sha3_256.cpp), and `CHash256` that of the digest (src/hash.h).
-/
import Rcoin.Crypto.Absorb

namespace Rcoin

open Keccak

namespace Sha3

/-! ## The padding -/

/-- What `Finalize` puts behind the message. -/
def padding (pos : Nat) : List UInt8 :=
  if pos = 135 then [0x86] else 0x06 :: List.replicate (134 - pos) 0 ++ [0x80]

theorem bitsOf_replicate_zero (n : Nat) :
    bitsOf (List.replicate n 0) = List.replicate (8 * n) false := by
  induction n with
  | zero => rfl
  | succ n ih =>
    have hbyte : bitsOf [0] = List.replicate 8 false := by decide
    rw [List.replicate_succ', bitsOf_append, ih, hbyte, List.replicate_append_replicate,
      Nat.mul_succ]

variable {pos : Nat}

theorem length_padding (hpos : pos < 136) : (padding pos).length = 136 - pos := by
  rw [padding]
  split
  · next heq => rw [heq]; rfl
  · rw [List.length_append, List.length_cons, List.length_replicate, List.length_singleton]
    omega

theorem bitsOf_padding (hpos : pos < 136) :
    bitsOf (padding pos) = [false, true] ++ pad101 1088 (8 * pos + 2) := by
  have hzeros : (1088 - (8 * pos + 2 + 2) % 1088) % 1088 = 1084 - 8 * pos := by omega
  rw [pad101, hzeros, padding]
  split
  · next heq =>
    subst heq
    decide
  · have hfirst : bitsOf [0x06] = [false, true, true] ++ List.replicate 5 false := by decide
    have hlast : bitsOf [0x80] = List.replicate 7 false ++ [true] := by decide
    have hlen : 5 + 8 * (134 - pos) + 7 = 1084 - 8 * pos := by omega
    have hcons : (0x06 :: List.replicate (134 - pos) 0 : List UInt8) =
        [0x06] ++ List.replicate (134 - pos) 0 := rfl
    rw [hcons, bitsOf_append, bitsOf_append, hfirst, hlast, bitsOf_replicate_zero, ← hlen,
      List.replicate_add, List.replicate_add]
    simp only [List.append_assoc, List.cons_append, List.nil_append]

theorem pad101_mod (n : Nat) :
    pad101 1088 (8 * n + 2) = pad101 1088 (8 * (n % 136) + 2) := by
  have hmod : (8 * n + 2 + 2) % 1088 = (8 * (n % 136) + 2 + 2) % 1088 := by omega
  rw [pad101, pad101, hmod]

variable {m : List.Vector UInt8 144}

theorem setByte_spec {i : Nat} (x : UInt8) (hi : i < 144) :
    ∃ m', setByte m i x = some m' ∧ m'.toList.take (i + 1) = m.toList.take i ++ [x] := by
  have hone : 1 ≤ [x].length := Nat.le_refl _
  obtain ⟨m', hcopy, hm'⟩ := memcpy_spec m i hi hone
  exact ⟨m', hcopy, take_memcpy hi hone hm'⟩

theorem padded_spec (hpos : pos < 136) :
    ∃ m1 m2 m3, setByte m pos 0x06 = some m1 ∧
      (if 136 ≠ pos + 1 then
        memcpy m1 (pos + 1) (List.replicate (136 - (pos + 1)) 0) (136 - (pos + 1))
        else some m1) = some m2 ∧
      setByte m2 (136 - 1) (m2.toList.getD (136 - 1) 0 ||| 0x80) = some m3 ∧
      m3.toList.take 136 = m.toList.take pos ++ padding pos := by
  obtain ⟨m1, hset1, hm1⟩ := setByte_spec (m := m) 0x06 (by omega : pos < 144)
  have hzeros : ∃ m2, (if 136 ≠ pos + 1 then
        memcpy m1 (pos + 1) (List.replicate (136 - (pos + 1)) 0) (136 - (pos + 1))
        else some m1) = some m2 ∧ m2.toList.take 136 =
      m.toList.take pos ++ 0x06 :: List.replicate (135 - pos) 0 := by
    split
    · next hne =>
      have hn : 136 - (pos + 1) ≤ (List.replicate (136 - (pos + 1)) (0 : UInt8)).length := by
        rw [List.length_replicate]
      have hsum : pos + 1 + (136 - (pos + 1)) = 136 := by omega
      have hcount : 136 - (pos + 1) = 135 - pos := by omega
      obtain ⟨m2, hcopy, hm2⟩ := memcpy_spec m1 (pos + 1) (by omega) hn
      have htake := take_memcpy (by omega) hn hm2
      have hall : (List.replicate (135 - pos) (0 : UInt8)).take (135 - pos) =
          List.replicate (135 - pos) 0 := List.take_of_length_le (by rw [List.length_replicate])
      rw [hsum, hm1, hcount, hall, List.append_assoc] at htake
      exact ⟨m2, hcopy, htake⟩
    · next heq =>
      obtain rfl : pos = 135 := by omega
      exact ⟨m1, rfl, hm1⟩
  obtain ⟨m2, hcopy, hm2⟩ := hzeros
  obtain ⟨m3, hset3, hm3⟩ := setByte_spec (m := m2) (m2.toList.getD (136 - 1) 0 ||| 0x80)
    (by decide : 136 - 1 < 144)
  refine ⟨m1, m2, m3, hset1, hcopy, hset3, ?_⟩
  have hlen : (m.toList.take pos).length = pos := by
    rw [List.length_take_of_le]
    rw [m.toList_length]
    omega
  have hprefix : m2.toList.take 135 =
      (m.toList.take pos ++ 0x06 :: List.replicate (135 - pos) 0).take 135 := by
    rw [← hm2, List.take_take]
    rfl
  have hbyte : m2.toList.getD 135 0 =
      (m.toList.take pos ++ 0x06 :: List.replicate (135 - pos) 0).getD 135 0 := by
    rw [← hm2, List.getD_eq_getElem?_getD, List.getD_eq_getElem?_getD,
      List.getElem?_take_of_lt (by decide)]
  have hlast : m3.toList.take 136 = m2.toList.take 135 ++ [m2.toList.getD 135 0 ||| 0x80] := hm3
  rw [hlast, hprefix, hbyte, padding]
  split
  · next heq =>
    -- one byte is left in the block
    subst heq
    rw [List.getD_append_right _ _ _ _ (Nat.le_of_eq hlen), hlen, List.take_left' hlen]
    rfl
  · have hrest : 135 - pos = (134 - pos) + 1 := by omega
    rw [List.getD_append_right _ _ _ _ (by omega), hlen, List.take_append, hlen,
      List.take_of_length_le (by omega), hrest, List.replicate_succ', ← List.cons_append,
      List.getD_append_right _ _ _ _ (by rw [List.length_cons, List.length_replicate]),
      List.take_left' (by rw [List.length_cons, List.length_replicate]), List.length_cons,
      List.length_replicate, Nat.sub_self]
    rw [List.append_assoc]
    rfl

/-! ## The output -/

theorem bitsOf_leBytes (w : UInt64) :
    bitsOf (leBytes 8 w.toNat) = (List.range 64).map w.toNat.testBit := by
  have hvalue : ofLeBytes (leBytes 8 w.toNat) = w.toNat := ofLeBytes_leBytes w.toNat_lt
  have hlen : (bitsOf (leBytes 8 w.toNat)).length = 64 := by rw [length_bitsOf, length_leBytes]
  apply List.ext_getElem
  · rw [hlen, List.length_map, List.length_range]
  · intro i hi hi'
    have hbit := getD_bitsOf (leBytes 8 w.toNat) i
    rw [List.getD_eq_getElem _ _ hi, hvalue] at hbit
    rw [hbit, List.getElem_map, List.getElem_range]

theorem getElem?_bitsOf_words (words : List UInt64) (i : Nat) :
    (bitsOf (words.flatMap fun w => leBytes 8 w.toNat))[i]? =
      words[i / 64]?.map fun w => w.toNat.testBit (i % 64) := by
  induction words generalizing i with
  | nil => rfl
  | cons w words ih =>
    have hlen : (bitsOf (leBytes 8 w.toNat)).length = 64 := by rw [length_bitsOf, length_leBytes]
    rw [List.flatMap_cons, bitsOf_append]
    rcases Nat.lt_or_ge i 64 with hlt | hge
    · rw [List.getElem?_append_left (by omega), bitsOf_leBytes, List.getElem?_map,
        List.getElem?_range hlt, Nat.div_eq_of_lt hlt, Nat.mod_eq_of_lt hlt]
      rfl
    · obtain ⟨j, rfl⟩ := Nat.exists_eq_add_of_le hge
      rw [List.getElem?_append_right (by omega), hlen, Nat.add_sub_cancel_left, ih,
        Nat.add_div_left j (by decide), Nat.add_mod_left, List.getElem?_cons_succ]

theorem bitsOf_output (A : Vector UInt64 25) :
    bitsOf (output A OUTPUT_SIZE) = (List.range 256).map (bit (toState A)) := by
  apply List.ext_getElem?
  intro i
  rw [output, bitsOf_take, OUTPUT_SIZE, List.getElem?_take, List.getElem?_map]
  split
  · next hi =>
    have hword : i / 64 < A.toList.length := by
      rw [Vector.length_toList]
      omega
    have hx : (Fin.ofNat 5 (i / 64)).val = i / 64 := Nat.mod_eq_of_lt (by omega)
    have hy : (Fin.ofNat 5 (i / 64 / 5)).val = 0 := by
      have hzero : i / 64 / 5 = 0 := by omega
      rw [hzero]
      rfl
    rw [getElem?_bitsOf_words, List.getElem?_eq_getElem hword, List.getElem?_range hi]
    show some _ = some (toState A _ _ _)
    rw [toState, wordAt, BitVec.getLsbD, UInt64.toNat_toBitVec]
    simp only [hx, hy, Nat.mul_zero, Nat.zero_add]
    rfl
  · next hi => rw [List.getElem?_eq_none (by rw [List.length_range]; omega), Option.map_none]

/-! ## `Finalize` -/

variable {message : List UInt8}

theorem HasAbsorbed.finalize {s : CSHA3_256} (h : HasAbsorbed message s) :
    ∃ s' hash, s.finalize = some (s', hash) ∧ s'.pos = s.pos + 1 ∧ hash.length = OUTPUT_SIZE ∧
      bitsOf hash = sha3_256 (bitsOf message) := by
  have hpos := h.pos_lt
  obtain ⟨m1, m2, m3, hset1, hcopy, hset3, hm3⟩ := padded_spec (m := s.m) hpos
  have hblock : 1 * 136 ≤ m3.toList.length := by
    rw [m3.toList_length]
    decide
  obtain ⟨A', hA', hstate⟩ := transformBlocks_spec (A := s.A) hblock
  have hr : RATE / 8 = 136 := rfl
  refine ⟨{ A := A', m := m3, pos := s.pos + 1, total := s.total }, output A' OUTPUT_SIZE, ?_, rfl,
    ?_, ?_⟩
  · rw [CSHA3_256.finalize, hr, hset1]
    simp only [Option.bind_eq_bind, Option.bind_some]
    split
    · next hne =>
      rw [if_pos hne] at hcopy
      simp only [hcopy, Option.bind_some, hset3, hA']
    · next heq =>
      rw [if_neg heq] at hcopy
      obtain rfl := Option.some.inj hcopy
      simp only [Option.bind_some, hset3, hA']
  · have hlen := congrArg List.length (bitsOf_output A')
    rw [length_bitsOf, List.length_map, List.length_range] at hlen
    have hsize : OUTPUT_SIZE = 32 := rfl
    omega
  · have hbuffer : (bitsOf (s.m.toList.take s.pos) ++ bitsOf (padding s.pos)).length = 1088 := by
      rw [List.length_append, length_bitsOf, length_bitsOf, length_padding hpos,
        List.length_take_of_le (by rw [s.m.toList_length]; omega)]
      omega
    have hlast : Sponge.block 1088 (bitsOf m3.toList) 0 =
        bitsOf (s.m.toList.take s.pos) ++ bitsOf (padding s.pos) := by
      rw [← bitsOf_append, ← hm3, bitsOf_take, Sponge.block, Nat.zero_mul, List.drop_zero]
    have hpadded : [false, true] ++ pad101 1088 (bitsOf message ++ [false, true]).length =
        bitsOf (padding s.pos) := by
      rw [bitsOf_padding hpos, h.pos_eq, ← pad101_mod, List.length_append, length_bitsOf]
      rfl
    have hall := h.absorbed.finish hbuffer
    rw [bitsOf_output, hstate, Sponge.absorbBlocks_succ, Sponge.absorbBlocks_zero, hlast, ← hall,
      sha3_256, List.append_assoc, hpadded]

/-! ## All together -/

/-- A hasher into which every message can be written, in whatever pieces: the position
    stays below the rate, and `Finalize` gives the digest. -/
def Digests (s0 : CSHA3_256) : Prop :=
  ∀ chunks : List (List UInt8), ∃ s s' hash, chunks.foldlM CSHA3_256.write s0 = some s ∧
    s.pos < RATE / 8 ∧ s.finalize = some (s', hash) ∧ hash.length = OUTPUT_SIZE ∧
    bitsOf hash = sha3_256 (bitsOf chunks.flatten)

theorem HasAbsorbed.digests {s0 : CSHA3_256} (h : HasAbsorbed [] s0) : Digests s0 := by
  intro chunks
  obtain ⟨s, hwrites, hs⟩ := h.writes chunks
  obtain ⟨s', hash, hfinal, -, hlen, hdigest⟩ := hs.finalize
  exact ⟨s, s', hash, hwrites, hs.pos_lt, hfinal, hlen, hdigest⟩

/-- A new hasher computes SHA3-256, and so does one that is reset, whatever it was used
    for. -/
theorem digests_new_and_reset :
    (∀ m total, Digests (CSHA3_256.new m total)) ∧ ∀ used : CSHA3_256, Digests used.reset :=
  ⟨fun m total => (hasAbsorbed_zero m total).digests,
    fun used => (hasAbsorbed_zero _ used.total).digests⟩

/-- The digest of the empty message. -/
example : ((CSHA3_256.new (List.Vector.replicate 144 0xff) 7).finalize.map fun r => r.2) = some [
    0xa7, 0xff, 0xc6, 0xf8, 0xbf, 0x1e, 0xd7, 0x66, 0x51, 0xc1, 0x47, 0x56, 0xa0, 0x61, 0xd6, 0x62,
    0xf5, 0x80, 0xff, 0x4d, 0xe4, 0x3b, 0x49, 0xfa, 0x82, 0xd8, 0x0a, 0x4b, 0x80, 0xf8, 0x43,
    0x4a] := by
  decide +kernel

theorem CHash256.foldlM_write (chunks : List (List UInt8)) : ∀ h : CHash256,
    chunks.foldlM CHash256.write h = (chunks.foldlM CSHA3_256.write h.sha).map CHash256.mk := by
  induction chunks with
  | nil => exact fun h => rfl
  | cons chunk chunks ih =>
    intro h
    rw [List.foldlM_cons, List.foldlM_cons, CHash256.write]
    cases h.sha.write chunk with
    | none => rfl
    | some s => exact ih ⟨s⟩

theorem CHash256.finalize_spec {h : CHash256} (hsha : HasAbsorbed message h.sha) :
    ∃ h' hash, h.finalize = some (h', hash) ∧
      bitsOf hash = sha3_256 (sha3_256 (bitsOf message)) := by
  obtain ⟨sha, buf, hfirst, -, -, hbuf⟩ := hsha.finalize
  obtain ⟨again, hwrite, hagain⟩ := (hasAbsorbed_zero (List.Vector.replicate 144 0) sha.total).write buf
  obtain ⟨sha', hash, hsecond, -, -, hhash⟩ := hagain.finalize
  refine ⟨⟨sha'⟩, hash, ?_, ?_⟩
  · have hreset : sha.reset.write buf = some again := hwrite
    rw [CHash256.finalize, hfirst]
    simp only [Option.bind_eq_bind, Option.bind_some, hreset, hsecond]
  · rw [hhash, List.nil_append, hbuf]

/-- After a reset, whatever it was used for, it gives the digest of the digest of what is written,
    in whatever pieces. -/
theorem CHash256.digest_of_digest (used : CHash256) (chunks : List (List UInt8)) :
    ∃ h h' hash, chunks.foldlM CHash256.write used.reset = some h ∧
      h.finalize = some (h', hash) ∧ bitsOf hash = sha3_256 (sha3_256 (bitsOf chunks.flatten)) := by
  obtain ⟨s, hwrites, hs⟩ := (hasAbsorbed_zero _ used.sha.total).writes chunks
  obtain ⟨h', hash, hfinal, hdigest⟩ := CHash256.finalize_spec (h := ⟨s⟩) hs
  refine ⟨⟨s⟩, h', hash, ?_, hfinal, hdigest⟩
  have hreset : chunks.foldlM CSHA3_256.write used.reset.sha = some s := hwrites
  rw [foldlM_write, hreset]
  rfl

end Sha3

end Rcoin
