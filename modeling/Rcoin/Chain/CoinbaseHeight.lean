/-
  The rule that a coinbase starts with the height of its block: `CScript() <<
  nHeight` (src/script/script.h) and `ContextualCheckBlock` (src/validation.cpp).
  The bytes of a height can be read back from any script that starts with them,
  so no script starts with those of two heights.

  The checks of `ContextualCheckBlock` on lock times, witness commitments and
  the weight are parameters.
-/
import Rcoin.Chain.Validation
import Rcoin.Script.Numbers

namespace Rcoin

open Fallible CScriptNum List

/-! ## `CScript() << n` -/

/-- `std::numeric_limits<int>::max()`; heights are `int`s. -/
def INT_MAX : Nat := 2147483647

/-- `push_int64` on an empty script. -/
def pushInt64 (n : Int) : CScript :=
  if n = -1 ∨ 1 ≤ n ∧ n ≤ 16 then [UInt8.ofNat (n + (OP_1.toNat - 1)).toNat]
  else if n = 0 then [OP_0]
  else pushVector (getvch n)

/-- The number at the start of a script: an opcode for a small number, or a
    length followed by little-endian bytes. -/
def readHeight : CScript → Nat
  | [] => 0
  | opcode :: pc =>
    if OP_1 ≤ opcode then opcode.toNat - (OP_1.toNat - 1) else ofLE (pc.take opcode.toNat)

theorem ofLE_concat_zero (bytes : List UInt8) : ofLE (bytes ++ [0]) = ofLE bytes := by
  induction bytes with
  | nil => rfl
  | cons b rest ih => rw [cons_append, ofLE, ofLE, ih]

theorem getvch_natCast (n : Nat) :
    getvch (n : Int) = absBytes 8 n ∨ getvch (n : Int) = absBytes 8 n ++ [0] := by
  have hneg : ¬ (n : Int) < 0 := by omega
  unfold getvch
  simp only [decide_eq_false hneg, Int.natAbs_natCast, Bool.false_eq_true, if_false]
  split
  · rename_i hrev
    exact .inl (reverse_eq_nil_iff.mp hrev).symm
  · split
    · exact .inr rfl
    · exact .inl rfl

theorem ofLE_getvch {n : Nat} (h : n < 2 ^ 63) : ofLE (getvch (n : Int)) = n := by
  have hlt : n < 256 ^ 8 := by omega
  rcases getvch_natCast n with hv | hv
  · rw [hv, ofLE_absBytes hlt]
  · rw [hv, ofLE_concat_zero, ofLE_absBytes hlt]

theorem readHeight_pushInt64 {n : Nat} (h : n < 2 ^ 63) (rest : CScript) :
    readHeight (pushInt64 n ++ rest) = n := by
  unfold pushInt64
  by_cases hsmall : (n : Int) = -1 ∨ 1 ≤ (n : Int) ∧ (n : Int) ≤ 16
  · -- `OP_1` to `OP_16`
    rw [if_pos hsmall]
    have hbyte : ((n : Int) + (OP_1.toNat - 1)).toNat = n + 80 := by
      show ((n : Int) + (81 - 1)).toNat = n + 80
      omega
    have htoNat : (UInt8.ofNat (n + 80)).toNat = n + 80 := by
      rw [UInt8.toNat_ofNat']
      omega
    have hle : OP_1 ≤ UInt8.ofNat (n + 80) := by
      rw [UInt8.le_iff_toNat_le, htoNat]
      omega
    rw [hbyte, singleton_append, readHeight, if_pos hle, htoNat]
    omega
  rw [if_neg hsmall]
  by_cases hzero : (n : Int) = 0
  · rw [if_pos hzero]
    have hn : n = 0 := by omega
    subst hn
    rfl
  · -- a length below `OP_PUSHDATA1`, then the bytes
    rw [if_neg hzero]
    have hlen := getvch_length_le n
    have hdirect : (getvch (n : Int)).length < OP_PUSHDATA1.toNat := by
      show _ < 76
      omega
    have htoNat : (UInt8.ofNat (getvch (n : Int)).length).toNat =
        (getvch (n : Int)).length := by
      rw [UInt8.toNat_ofNat']
      omega
    have hop : ¬ OP_1 ≤ UInt8.ofNat (getvch (n : Int)).length := by
      rw [UInt8.le_iff_toNat_le, htoNat]
      show ¬ 81 ≤ _
      omega
    rw [pushVector, if_pos hdirect, cons_append, readHeight, if_neg hop, htoNat,
      take_left, ofLE_getvch h]

theorem pushInt64_prefix_free {h1 h2 : Nat} (hlt1 : h1 < 2 ^ 63) (hlt2 : h2 < 2 ^ 63)
    {s : CScript} (hp1 : pushInt64 h1 <+: s) (hp2 : pushInt64 h2 <+: s) : h1 = h2 := by
  obtain ⟨rest1, hs1⟩ := hp1
  obtain ⟨rest2, hs2⟩ := hp2
  calc h1 = readHeight (pushInt64 h1 ++ rest1) := (readHeight_pushInt64 hlt1 rest1).symm
    _ = readHeight (pushInt64 h2 ++ rest2) := by rw [hs1, hs2]
    _ = h2 := readHeight_pushInt64 hlt2 rest2

/-! ## `ContextualCheckBlock` -/

/-- What `ContextualCheckBlock` asks of lock times, witness data and the weight. -/
structure ContextualEnv where
  /-- `IsFinalTx(tx, nHeight, nLockTimeCutoff)`, the cutoff being the median time
      past of the block before the given one. -/
  isFinalTx : CBlock → CTransaction → Nat → Bool
  /-- The validation of the witness commitment, with the error it ends in. -/
  checkWitnessCommitment : CBlock → Except ValidationError Unit
  getBlockWeight : CBlock → Nat

/-- `block.vtx[0]->vin[0].scriptSig`. -/
def CBlock.coinbaseScriptSig (block : CBlock) : CScript :=
  ((block.vtx.head?.bind fun tx => tx.vin.head?).map CTxIn.scriptSig).getD []

def contextualCheckBlock (cenv : ContextualEnv) (block : CBlock) (nHeight : Nat) :
    Except ValidationError Unit := do
  failIf (block.vtx.any fun tx => !cenv.isFinalTx block tx nHeight) (doS 10 "bad-txns-nonfinal")
  let expect := pushInt64 nHeight
  failIf (block.coinbaseScriptSig.length < expect.length ||
    expect != block.coinbaseScriptSig.take expect.length) (doS 100 "bad-cb-height")
  cenv.checkWitnessCommitment block
  failIf (cenv.getBlockWeight block > MAX_BLOCK_WEIGHT) (doS 100 "bad-blk-weight")

theorem contextualCheckBlock_spec {cenv : ContextualEnv} {block : CBlock} {nHeight : Nat}
    (h : contextualCheckBlock cenv block nHeight = .ok ⟨⟩) :
    pushInt64 nHeight <+: block.coinbaseScriptSig := by
  obtain ⟨-, h⟩ := failIf_bind_eq_ok.mp h
  obtain ⟨hheight, -⟩ := failIf_bind_eq_ok.mp h
  have heq := (Bool.or_eq_false_iff.mp hheight).2
  rw [bne_eq_false_iff_eq.mp heq]
  exact take_prefix _ _

end Rcoin
