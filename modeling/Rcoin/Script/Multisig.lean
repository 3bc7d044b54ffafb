/-
  What the loop of `OP_CHECKMULTISIG` (src/script/interpreter.cpp) decides: the
  greedy scan over keys and signatures succeeds where the signatures can be
  assigned to the keys in order.
-/
import Rcoin.Lib.Matching
import Rcoin.Script.Interpreter

namespace Rcoin

open List

section

variable (ctx : EvalContext) (flags : UInt32) (code : CScript)

/-- The signature verifies under the key. -/
def Verifies (vchSig vchPubKey : Valtype) : Prop :=
  ctx.checker.checkSig vchSig vchPubKey code ctx.sigversion = true

/-- Signatures and keys pass the encoding checks. -/
structure Encoded (keys sigs : List Valtype) : Prop where
  sig : ∀ vchSig ∈ sigs, checkSignatureEncoding vchSig flags = .ok ⟨⟩
  key : ∀ vchPubKey ∈ keys, checkPubKeyEncoding vchPubKey flags ctx.sigversion = .ok ⟨⟩

variable {ctx flags code}

variable {vchSig vchPubKey : Valtype}

theorem Verifies.eq_true (h : Verifies ctx code vchSig vchPubKey) :
    ctx.checker.checkSig vchSig vchPubKey code ctx.sigversion = true := h

theorem Verifies.eq_false (h : ¬Verifies ctx code vchSig vchPubKey) :
    ctx.checker.checkSig vchSig vchPubKey code ctx.sigversion = false := by
  simpa [Verifies] using h

theorem multisigLoop_cons {keys sigs : List Valtype}
    (henc : Encoded ctx flags (vchPubKey :: keys) (vchSig :: sigs)) :
    multisigLoop ctx flags code (vchPubKey :: keys) (vchSig :: sigs) =
      let left := if ctx.checker.checkSig vchSig vchPubKey code ctx.sigversion then sigs
        else vchSig :: sigs
      if left.length > keys.length then .ok false else multisigLoop ctx flags code keys left := by
  rw [multisigLoop, henc.sig vchSig (mem_cons_self ..), henc.key vchPubKey (mem_cons_self ..)]
  rfl

variable (code) in
/-- By induction on the keys: a signature that verifies under the next key is
    matched with it, and one that does not waits for a later key. -/
theorem multisigLoop_spec {keys sigs : List Valtype} (henc : Encoded ctx flags keys sigs)
    (hle : sigs.length ≤ keys.length) :
    ∃ fSuccess, multisigLoop ctx flags code keys sigs = .ok fSuccess ∧
      (fSuccess = true ↔ SublistForall₂ (Verifies ctx code) sigs keys) := by
  induction keys generalizing sigs with
  | nil =>
    obtain rfl := length_eq_zero_iff.mp (Nat.le_zero.mp hle)
    exact ⟨true, rfl, by simp [SublistForall₂.nil]⟩
  | cons vchPubKey keys ih =>
    cases sigs with
    | nil => exact ⟨true, rfl, by simp [SublistForall₂.nil]⟩
    | cons vchSig sigs =>
      rw [multisigLoop_cons henc]
      have hkeys : ∀ k ∈ keys, checkPubKeyEncoding k flags ctx.sigversion = .ok ⟨⟩ :=
        fun k hk => henc.key k (mem_cons_of_mem _ hk)
      by_cases hok : Verifies ctx code vchSig vchPubKey
      · have henc' : Encoded ctx flags keys sigs :=
          ⟨fun v hv => henc.sig v (mem_cons_of_mem _ hv), hkeys⟩
        have hle' : sigs.length ≤ keys.length := by simpa using hle
        obtain ⟨fSuccess, hloop, hiff⟩ := ih henc' hle'
        rw [Matching.cons_cons_iff_of_rel hok]
        refine ⟨fSuccess, ?_, hiff⟩
        simp only [Verifies.eq_true hok, if_true]
        rw [if_neg (by omega), hloop]
      · rw [Matching.cons_cons_iff_of_not_rel hok]
        simp only [Verifies.eq_false hok, Bool.false_eq_true, if_false]
        by_cases hmany : (vchSig :: sigs).length > keys.length
        · -- too few keys are left for any matching
          refine ⟨false, if_pos hmany, ?_⟩
          have hno : ¬SublistForall₂ (Verifies ctx code) (vchSig :: sigs) keys :=
            fun h => absurd (Matching.length_le h) (by omega)
          simp [hno]
        · obtain ⟨fSuccess, hloop, hiff⟩ := ih ⟨henc.sig, hkeys⟩ (by omega)
          exact ⟨fSuccess, by rw [if_neg hmany, hloop], hiff⟩

/-- The loop sets `fSuccess` exactly where the signatures can be assigned to keys
    at growing positions, each verifying under its key. -/
theorem multisigLoop_iff_assignment (keys sigs : List Valtype)
    (henc : Encoded ctx flags keys sigs) (hle : sigs.length ≤ keys.length) :
    ∃ fSuccess, multisigLoop ctx flags code keys sigs = .ok fSuccess ∧
      (fSuccess = true ↔ ∃ assign : Fin sigs.length → Fin keys.length,
        StrictMono assign ∧ ∀ i, ctx.checker.checkSig sigs[i] keys[assign i] code
          ctx.sigversion = true) := by
  obtain ⟨fSuccess, hloop, hiff⟩ := multisigLoop_spec code henc hle
  exact ⟨fSuccess, hloop, hiff.trans Matching.iff_exists_strictMono⟩

end

/-- A checker under which a signature verifies under the key of its first byte. -/
def sampleMultisigContext : EvalContext where
  hashes := ⟨id, id, id, id, id⟩
  checker := ⟨fun vchSig vchPubKey _ _ => vchSig.head? == vchPubKey.head?, fun _ => true,
    fun _ => true⟩
  sigversion := .base

def sampleMultisigKeys : List Valtype := [.replicate 32 7, .replicate 32 8, .replicate 32 9]

def sampleMultisigSigs : List Valtype := [[7, 1], [9, 1]]

/-- Two of three signatures, the second key skipped. -/
theorem multisigLoop_iff_assignment_sample :
    ∃ fSuccess, multisigLoop sampleMultisigContext SCRIPT_VERIFY_STRICTENC [] sampleMultisigKeys
        sampleMultisigSigs = .ok fSuccess ∧
      (fSuccess = true ↔ ∃ assign : Fin sampleMultisigSigs.length → Fin sampleMultisigKeys.length,
        StrictMono assign ∧ ∀ i, sampleMultisigContext.checker.checkSig sampleMultisigSigs[i]
          sampleMultisigKeys[assign i] [] sampleMultisigContext.sigversion = true) :=
  multisigLoop_iff_assignment sampleMultisigKeys sampleMultisigSigs
    ⟨by decide, by decide⟩ (by decide)

end Rcoin
