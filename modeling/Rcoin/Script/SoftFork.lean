/-
  Every flag is a soft fork: what is accepted with more flags is accepted with
  fewer.  Each part of the interpreter is stricter with more flags, in the sense
  that it succeeds less often and never with another result; the parts are put
  together along the structure of the definitions.
-/
import Rcoin.Script.Interpreter

namespace Rcoin

open Fallible VerifyFailure Stricter

/-! ## Flag sets -/

/-- All flags of `A` are in `B`. -/
def FlagsSubset (A B : UInt32) : Prop := A &&& B = A

instance (A B : UInt32) : Decidable (FlagsSubset A B) := inferInstanceAs (Decidable (_ = _))

theorem FlagsSubset.hasFlag {A B flag : UInt32} (h : FlagsSubset A B)
    (hflag : hasFlag A flag = true) : hasFlag B flag = true := by
  rw [Rcoin.hasFlag, bne_iff_ne] at hflag ⊢
  intro hzero
  apply hflag
  rw [← show A &&& B = A from h, UInt32.and_assoc, hzero, UInt32.and_zero]

/-- "CLEANSTACK should never be used without P2SH or WITNESS", and WITNESS implies
    P2SH. -/
structure RespectsDependencies (flags : UInt32) : Prop where
  cleanstack : hasFlag flags SCRIPT_VERIFY_CLEANSTACK = true →
    hasFlag flags SCRIPT_VERIFY_P2SH = true ∧ hasFlag flags SCRIPT_VERIFY_WITNESS = true
  witness : hasFlag flags SCRIPT_VERIFY_WITNESS = true → hasFlag flags SCRIPT_VERIFY_P2SH = true

theorem and_imp_and {x y : Bool} (h : x = true → y = true) (c : Bool) :
    (x && c) = true → (y && c) = true := by
  intro hxc
  rw [Bool.and_eq_true] at hxc ⊢
  exact ⟨h hxc.1, hxc.2⟩

section

variable {A B : UInt32} (hAB : FlagsSubset A B)

include hAB

theorem failIf_flag {ε : Type} (flag : UInt32) (c : Bool) (e : ε) :
    Stricter (failIf (hasFlag B flag && c) e) (failIf (hasFlag A flag && c) e) :=
  failIf (and_imp_and hAB.hasFlag c) e e

theorem and_hasFlag (flag : UInt32) (c : Bool) :
    (c && hasFlag A flag) = true → (c && hasFlag B flag) = true := by
  intro h
  rw [Bool.and_eq_true] at h ⊢
  exact ⟨h.1, hAB.hasFlag h.2⟩

theorem failIf_flag' {ε : Type} (flag : UInt32) (e : ε) :
    Stricter (failIf (hasFlag B flag) e) (failIf (hasFlag A flag) e) :=
  failIf hAB.hasFlag e e

/-! ## Encodings and numbers -/

theorem checkSignatureEncoding_mono (vchSig : Valtype) :
    Stricter (checkSignatureEncoding vchSig B) (checkSignatureEncoding vchSig A) := by
  unfold checkSignatureEncoding
  split
  · exact .refl _
  · exact failIf_flag hAB _ _ _

theorem checkPubKeyEncoding_mono (vchPubKey : Valtype) (sigversion : SigVersion) :
    Stricter (checkPubKeyEncoding vchPubKey B sigversion)
      (checkPubKeyEncoding vchPubKey A sigversion) := by
  refine (failIf_flag hAB _ _ _).bind fun _ => ?_
  rw [Bool.and_assoc, Bool.and_assoc]
  exact failIf_flag hAB _ _ _

theorem scriptNum_mono (vch : Valtype) (nMaxNumSize : Nat) :
    Stricter (scriptNum vch (requireMinimal B) nMaxNumSize)
      (scriptNum vch (requireMinimal A) nMaxNumSize) := by
  refine (refl _).bind fun _ => ?_
  exact (failIf_flag hAB _ _ _).bind fun _ => .refl _

theorem evalUnary_mono (f : CScriptNum → CScriptNum) (s : EvalState) :
    Stricter (evalUnary (requireMinimal B) f s) (evalUnary (requireMinimal A) f s) := by
  unfold evalUnary
  cases s.stack with
  | nil => exact .refl _
  | cons vch stack => exact (scriptNum_mono hAB vch _).bind fun _ => .refl _

theorem evalBinary_mono (opcode : Opcodetype) (f : CScriptNum → CScriptNum → CScriptNum)
    (s : EvalState) :
    Stricter (evalBinary (requireMinimal B) opcode f s)
      (evalBinary (requireMinimal A) opcode f s) := by
  unfold evalBinary
  match s.stack with
  | [] => exact .refl _
  | [_] => exact .refl _
  | x2 :: x1 :: stack =>
    refine (scriptNum_mono hAB x1 _).bind fun _ => ?_
    exact (scriptNum_mono hAB x2 _).bind fun _ => .refl _

theorem evalWithin_mono (s : EvalState) :
    Stricter (evalWithin (requireMinimal B) s) (evalWithin (requireMinimal A) s) := by
  unfold evalWithin
  match s.stack with
  | [] => exact .refl _
  | [_] => exact .refl _
  | [_, _] => exact .refl _
  | x3 :: x2 :: x1 :: stack =>
    refine (scriptNum_mono hAB x1 _).bind fun _ => ?_
    refine (scriptNum_mono hAB x2 _).bind fun _ => ?_
    exact (scriptNum_mono hAB x3 _).bind fun _ => .refl _

theorem evalPick_mono (opcode : Opcodetype) (s : EvalState) :
    Stricter (evalPick (requireMinimal B) opcode s) (evalPick (requireMinimal A) opcode s) := by
  unfold evalPick
  match s.stack with
  | [] => exact .refl _
  | [_] => exact .refl _
  | top :: x0 :: rest => exact (scriptNum_mono hAB top _).bind fun _ => .refl _

/-! ## Lock times and conditionals -/

variable (ctx : EvalContext)

omit hAB in
theorem checkLockTimeVerify_eq_ok {flags : UInt32} {s s' : EvalState}
    (h : checkLockTimeVerify ctx flags s = .ok s') : s' = s := by
  unfold checkLockTimeVerify at h
  split at h
  · cases h
    rfl
  · cases hs : s.stack with
    | nil =>
      rw [hs] at h
      cases h
    | cons vch stack =>
      rw [hs] at h
      obtain ⟨nLockTime, -, h⟩ := bind_eq_ok.mp h
      obtain ⟨-, h⟩ := failIf_bind_eq_ok.mp h
      obtain ⟨-, h⟩ := failIf_bind_eq_ok.mp h
      exact (pure_eq_ok.mp h).symm

theorem checkLockTimeVerify_mono (s : EvalState) :
    Stricter (checkLockTimeVerify ctx B s) (checkLockTimeVerify ctx A s) := by
  cases hA : hasFlag A SCRIPT_VERIFY_CHECKLOCKTIMEVERIFY with
  | false =>
    intro s' hs'
    rw [checkLockTimeVerify_eq_ok ctx hs', checkLockTimeVerify, hA]
    rfl
  | true =>
    rw [checkLockTimeVerify, checkLockTimeVerify, hA, hAB.hasFlag hA]
    cases s.stack with
    | nil => exact .refl _
    | cons vch stack => exact (scriptNum_mono hAB vch _).bind fun _ => .refl _

omit hAB in
theorem checkSequenceVerify_eq_ok {flags : UInt32} {s s' : EvalState}
    (h : checkSequenceVerify ctx flags s = .ok s') : s' = s := by
  unfold checkSequenceVerify at h
  split at h
  · cases h
    rfl
  · cases hs : s.stack with
    | nil =>
      rw [hs] at h
      cases h
    | cons vch stack =>
      rw [hs] at h
      obtain ⟨nSequence, -, h⟩ := bind_eq_ok.mp h
      obtain ⟨-, h⟩ := failIf_bind_eq_ok.mp h
      split at h
      · exact (pure_eq_ok.mp h).symm
      · obtain ⟨-, h⟩ := failIf_bind_eq_ok.mp h
        exact (pure_eq_ok.mp h).symm

theorem checkSequenceVerify_mono (s : EvalState) :
    Stricter (checkSequenceVerify ctx B s) (checkSequenceVerify ctx A s) := by
  cases hA : hasFlag A SCRIPT_VERIFY_CHECKSEQUENCEVERIFY with
  | false =>
    intro s' hs'
    rw [checkSequenceVerify_eq_ok ctx hs', checkSequenceVerify, hA]
    rfl
  | true =>
    rw [checkSequenceVerify, checkSequenceVerify, hA, hAB.hasFlag hA]
    cases s.stack with
    | nil => exact .refl _
    | cons vch stack => exact (scriptNum_mono hAB vch _).bind fun _ => .refl _

theorem evalIf_mono (fExec : Bool) (opcode : Opcodetype) (s : EvalState) :
    Stricter (evalIf ctx B fExec opcode s) (evalIf ctx A fExec opcode s) := by
  cases fExec with
  | false => exact .refl _
  | true =>
    unfold evalIf
    cases s.stack with
    | nil => exact .refl _
    | cons vch stack =>
      have hminimal := and_hasFlag hAB SCRIPT_VERIFY_MINIMALIF (ctx.sigversion == .witnessV0)
      refine (failIf (and_imp_and hminimal _) _ _).bind fun _ => ?_
      exact (failIf (and_imp_and (and_imp_and hminimal _) _) _ _).bind fun _ => .refl _

/-! ## Signatures -/

theorem evalCheckSig_mono (opcode : Opcodetype) (s : EvalState) :
    Stricter (evalCheckSig ctx B opcode s) (evalCheckSig ctx A opcode s) := by
  unfold evalCheckSig
  match s.stack with
  | [] => exact .refl _
  | [_] => exact .refl _
  | vchPubKey :: vchSig :: stack =>
    refine (checkSignatureEncoding_mono hAB vchSig).bind fun _ => ?_
    refine (checkPubKeyEncoding_mono hAB vchPubKey _).bind fun _ => ?_
    have hnull := and_hasFlag hAB SCRIPT_VERIFY_NULLFAIL
    exact (failIf (and_imp_and (hnull _) _) _ _).bind fun _ => .refl _

theorem multisigLoop_mono (code : CScript) (keys sigs : List Valtype) :
    Stricter (multisigLoop ctx B code keys sigs) (multisigLoop ctx A code keys sigs) := by
  induction keys generalizing sigs with
  | nil =>
    cases sigs with
    | nil => exact .refl _
    | cons vchSig sigs => exact .refl _
  | cons vchPubKey keys ih =>
    cases sigs with
    | nil => exact .refl _
    | cons vchSig sigs =>
      refine (checkSignatureEncoding_mono hAB vchSig).bind fun _ => ?_
      refine (checkPubKeyEncoding_mono hAB vchPubKey _).bind fun _ => ?_
      simp only
      generalize (if ctx.checker.checkSig vchSig vchPubKey code ctx.sigversion then sigs
        else vchSig :: sigs) = left
      split
      · exact .refl _
      · exact ih _

theorem multisigCleanup_mono (fSuccess : Bool) (i ikey2 : Nat) (stack : List Valtype) :
    Stricter (multisigCleanup B fSuccess i ikey2 stack)
      (multisigCleanup A fSuccess i ikey2 stack) := by
  induction i generalizing ikey2 stack with
  | zero => exact .refl _
  | succ i ih =>
    cases stack with
    | nil => exact .refl _
    | cons vch stack =>
      have hnull := and_hasFlag hAB SCRIPT_VERIFY_NULLFAIL (!fSuccess)
      exact (failIf (and_imp_and (and_imp_and hnull _) _) _ _).bind fun _ => ih _ _

theorem multisigResult_mono (opcode : Opcodetype) (fSuccess : Bool) (s : EvalState)
    (stack : List Valtype) :
    Stricter (multisigResult B opcode fSuccess s stack)
      (multisigResult A opcode fSuccess s stack) := by
  cases stack with
  | nil => exact .refl _
  | cons dummy stack => exact (failIf_flag hAB _ _ _).bind fun _ => .refl _

theorem evalCheckMultisig_mono (opcode : Opcodetype) (s : EvalState) :
    Stricter (evalCheckMultisig ctx B opcode s) (evalCheckMultisig ctx A opcode s) := by
  refine (refl _).bind fun _ => ?_
  refine (scriptNum_mono hAB _ _).bind fun keysCount => ?_
  refine (refl _).bind fun _ => ?_
  refine (refl _).bind fun _ => ?_
  refine (refl _).bind fun _ => ?_
  refine (scriptNum_mono hAB _ _).bind fun sigsCount => ?_
  refine (refl _).bind fun _ => ?_
  refine (refl _).bind fun _ => ?_
  refine (multisigLoop_mono hAB ctx _ _ _).bind fun fSuccess => ?_
  refine (multisigCleanup_mono hAB fSuccess _ _ _).bind fun stack => ?_
  exact multisigResult_mono hAB opcode fSuccess _ stack

/-! ## `EvalScript` -/

theorem execOpcode_mono (fExec : Bool) (opcode : Opcodetype) (pc : CScript) (s : EvalState) :
    Stricter (execOpcode ctx B fExec opcode pc s) (execOpcode ctx A fExec opcode pc s) := by
  unfold execOpcode
  split
  · exact checkLockTimeVerify_mono hAB ctx s
  split
  · exact checkSequenceVerify_mono hAB ctx s
  split
  · exact (failIf_flag' hAB _ _).bind fun _ => .refl _
  split
  · exact evalIf_mono hAB ctx fExec opcode s
  split
  · exact evalPick_mono hAB opcode s
  split
  · exact evalWithin_mono hAB s
  split
  · exact evalCheckSig_mono hAB ctx opcode s
  split
  · exact evalCheckMultisig_mono hAB ctx opcode s
  cases unaryOpcode opcode with
  | some f => exact evalUnary_mono hAB f s
  | none =>
    cases binaryOpcode opcode with
    | some f => exact evalBinary_mono hAB opcode f s
    | none => exact .refl _

theorem evalOpcode_mono (opcode : Opcodetype) (vchPushValue : Valtype) (pc : CScript)
    (s : EvalState) :
    Stricter (evalOpcode ctx B opcode vchPushValue pc s)
      (evalOpcode ctx A opcode vchPushValue pc s) := by
  unfold evalOpcode
  simp only
  split
  · exact (failIf_flag hAB _ _ _).bind fun _ => .refl _
  split
  · exact execOpcode_mono hAB ctx _ opcode pc s
  · exact .refl _

theorem evalInstruction_mono (opcode : Opcodetype) (vchPushValue : Valtype) (pc : CScript)
    (s : EvalState) :
    Stricter (evalInstruction ctx B opcode vchPushValue pc s)
      (evalInstruction ctx A opcode vchPushValue pc s) := by
  refine (refl _).bind fun _ => ?_
  refine (refl _).bind fun _ => ?_
  refine (refl _).bind fun _ => ?_
  exact (evalOpcode_mono hAB ctx opcode vchPushValue pc _).bind fun _ => .refl _

theorem evalLoop_mono (fuel : Nat) (pc : CScript) (s : EvalState) :
    Stricter (evalLoop ctx B fuel pc s) (evalLoop ctx A fuel pc s) := by
  induction fuel generalizing pc s with
  | zero => exact .refl _
  | succ fuel ih =>
    rw [evalLoop, evalLoop]
    split
    · exact .refl _
    · cases getOp pc with
      | none => exact .refl _
      | some instruction =>
        obtain ⟨opcode, vchPushValue, rest⟩ := instruction
        exact (evalInstruction_mono hAB ctx opcode vchPushValue rest s).bind fun s' => ih rest s'

theorem evalScript_mono (stack : List Valtype) (script : CScript) :
    Stricter (evalScript ctx B stack script) (evalScript ctx A stack script) := by
  refine (refl _).bind fun _ => ?_
  exact (evalLoop_mono hAB ctx _ script _).bind fun _ => .refl _

/-! ## Witness programs -/

variable (hashes : ScriptHashes) (checker : BaseSignatureChecker)

theorem verifyWitnessProgram_mono (witness : List Valtype) (witversion : Nat) (program : Valtype) :
    Stricter (verifyWitnessProgram hashes checker B witness witversion program)
      (verifyWitnessProgram hashes checker A witness witversion program) := by
  unfold verifyWitnessProgram
  split
  · refine (refl _).bind fun scriptAndStack => ?_
    obtain ⟨scriptPubKey, stack⟩ := scriptAndStack
    refine (refl _).bind fun _ => ?_
    exact (evalScript_mono hAB _ stack scriptPubKey).bind fun _ => .refl _
  · exact failIf_flag' hAB _ _

theorem verifyWitness_mono (hA : hasFlag A SCRIPT_VERIFY_WITNESS = true)
    (scriptSig script expected : CScript) (malleated : ScriptError)
    (witness stack : List Valtype) (hadWitness : Bool) :
    Stricter (verifyWitness hashes checker B scriptSig script expected malleated witness stack
        hadWitness)
      (verifyWitness hashes checker A scriptSig script expected malleated witness stack
        hadWitness) := by
  unfold verifyWitness
  rw [hA, hAB.hasFlag hA]
  cases isWitnessProgram script with
  | none => exact .refl _
  | some program =>
    refine (refl _).bind fun _ => ?_
    exact (verifyWitnessProgram_mono hAB hashes checker witness _ _).bind fun _ => .refl _

theorem verifyScriptHash_mono (hA : hasFlag A SCRIPT_VERIFY_WITNESS = true)
    (hP2SH : hasFlag A SCRIPT_VERIFY_P2SH = true) (scriptSig scriptPubKey : CScript)
    (witness stack stackCopy : List Valtype) (hadWitness : Bool) :
    Stricter (verifyScriptHash hashes checker B scriptSig scriptPubKey witness stack stackCopy
        hadWitness)
      (verifyScriptHash hashes checker A scriptSig scriptPubKey witness stack stackCopy
        hadWitness) := by
  unfold verifyScriptHash
  rw [hP2SH, hAB.hasFlag hP2SH]
  split
  · refine (refl _).bind fun _ => ?_
    cases stackCopy with
    | nil => exact .refl _
    | cons pubKey2 rest =>
      refine ((evalScript_mono hAB _ rest pubKey2).mapError _).bind fun _ => ?_
      refine (refl _).bind fun _ => ?_
      exact (verifyWitness_mono hAB hashes checker hA _ _ _ _ _ _ _).mapError _
  · exact .refl _

theorem verifyScriptHash_of_not_witness (hA : hasFlag A SCRIPT_VERIFY_WITNESS = false)
    {scriptSig scriptPubKey : CScript} {witness stackCopy stackB : List Valtype}
    {hadWitnessB : Bool} {r : List Valtype × Bool}
    (h : verifyScriptHash hashes checker B scriptSig scriptPubKey witness stackB stackCopy
      hadWitnessB = .ok r) (stack : List Valtype) (hadWitness : Bool) :
    ∃ r', verifyScriptHash hashes checker A scriptSig scriptPubKey witness stack stackCopy
      hadWitness = .ok r' := by
  unfold verifyScriptHash
  split
  next hp2sh =>
    unfold verifyScriptHash at h
    rw [if_pos (and_imp_and hAB.hasFlag _ hp2sh)] at h
    obtain ⟨hpush, h⟩ := failIf_bind_eq_ok.mp h
    cases stackCopy with
    | nil => cases h
    | cons pubKey2 rest =>
      obtain ⟨stack', heval, h⟩ := bind_eq_ok.mp h
      obtain ⟨htrue, -⟩ := failIf_bind_eq_ok.mp h
      have hevalA := (evalScript_mono hAB _ rest pubKey2).mapError error stack' heval
      refine ⟨(stack', hadWitness), failIf_bind_eq_ok.mpr ⟨hpush, ?_⟩⟩
      refine bind_eq_ok.mpr ⟨stack', hevalA, failIf_bind_eq_ok.mpr ⟨htrue, ?_⟩⟩
      rw [verifyWitness, hA]
      rfl
  · exact ⟨_, rfl⟩

theorem verifyFinal_mono (hA : RespectsDependencies A) (witness stack : List Valtype)
    (hadWitness : Bool) :
    Stricter (verifyFinal B witness stack hadWitness) (verifyFinal A witness stack hadWitness) := by
  refine (onlyIf hAB.hasFlag fun hclean => ?_).bind fun _ => ?_
  · obtain ⟨hp2sh, hwitness⟩ := hA.cleanstack hclean
    rw [hp2sh, hwitness, hAB.hasFlag hp2sh, hAB.hasFlag hwitness]
    exact .refl _
  · refine onlyIf hAB.hasFlag fun hwitness => ?_
    rw [hA.witness hwitness, hAB.hasFlag (hA.witness hwitness)]
    exact .refl _

omit hAB in
theorem verifyFinal_of_not_witness (hA : RespectsDependencies A)
    (hwitness : hasFlag A SCRIPT_VERIFY_WITNESS = false) (witness stack : List Valtype)
    (hadWitness : Bool) : verifyFinal A witness stack hadWitness = .ok ⟨⟩ := by
  have hclean : hasFlag A SCRIPT_VERIFY_CLEANSTACK = false := by
    rw [Bool.eq_false_iff]
    intro h
    rw [(hA.cleanstack h).2] at hwitness
    cases hwitness
  rw [verifyFinal, hclean, hwitness]
  rfl

end

/-! ## `VerifyScript` -/

/-- What is accepted under `B` is accepted under fewer flags `A`. -/
theorem verifyScript_softfork (hashes : ScriptHashes) (checker : BaseSignatureChecker)
    (scriptSig scriptPubKey : CScript) (witness : Option (List Valtype)) (A B : UInt32)
    (hAB : FlagsSubset A B) (hA : RespectsDependencies A)
    (h : verifyScript hashes checker B scriptSig scriptPubKey witness = .ok ⟨⟩) :
    verifyScript hashes checker A scriptSig scriptPubKey witness = .ok ⟨⟩ := by
  cases hwitness : hasFlag A SCRIPT_VERIFY_WITNESS with
  | true =>
    -- all parts are run under both flag sets
    suffices hstricter : Stricter (verifyScript hashes checker B scriptSig scriptPubKey witness)
        (verifyScript hashes checker A scriptSig scriptPubKey witness) from hstricter ⟨⟩ h
    refine (failIf_flag hAB _ _ _).bind fun _ => ?_
    refine ((evalScript_mono hAB _ _ _).mapError _).bind fun stackCopy => ?_
    refine ((evalScript_mono hAB _ _ _).mapError _).bind fun stack => ?_
    refine (refl _).bind fun _ => ?_
    refine ((verifyWitness_mono hAB hashes checker hwitness _ _ _ _ _ _ _).mapError _).bind
      fun r => ?_
    obtain ⟨stack', hadWitness⟩ := r
    refine (verifyScriptHash_mono hAB hashes checker hwitness (hA.witness hwitness) _ _ _ _ _
      _).bind fun r => ?_
    exact verifyFinal_mono hAB hA _ _ _
  | false =>
    -- the witness parts are left out, and so is the cleanstack check
    obtain ⟨u, hpush, h⟩ := bind_eq_ok.mp h
    obtain ⟨stackCopy, hsig, h⟩ := bind_eq_ok.mp h
    obtain ⟨stack, hkey, h⟩ := bind_eq_ok.mp h
    obtain ⟨htrue, h⟩ := failIf_bind_eq_ok.mp h
    obtain ⟨⟨stackB, hadWitness⟩, -, h⟩ := bind_eq_ok.mp h
    obtain ⟨r, hhash, -⟩ := bind_eq_ok.mp h
    have hsigA := (evalScript_mono hAB _ _ _).mapError error stackCopy hsig
    have hkeyA := (evalScript_mono hAB _ _ _).mapError error stack hkey
    obtain ⟨⟨stack', hadWitness'⟩, hhashA⟩ :=
      verifyScriptHash_of_not_witness hAB hashes checker hwitness hhash stack false
    refine bind_eq_ok.mpr ⟨u, failIf_flag hAB _ _ _ u hpush, ?_⟩
    refine bind_eq_ok.mpr ⟨stackCopy, hsigA, bind_eq_ok.mpr ⟨stack, hkeyA, ?_⟩⟩
    refine failIf_bind_eq_ok.mpr ⟨htrue, bind_eq_ok.mpr ⟨(stack, false), ?_, ?_⟩⟩
    · rw [verifyWitness, hwitness]
      rfl
    · exact bind_eq_ok.mpr ⟨_, hhashA, verifyFinal_of_not_witness hA hwitness _ _ _⟩

/-- `1 + 2 = 3`, with minimal pushes and a clean stack and without. -/
theorem verifyScript_softfork_sum :
    verifyScript ⟨id, id, id, id, id⟩ ⟨fun _ _ _ _ => false, fun _ => false, fun _ => false⟩
      SCRIPT_VERIFY_P2SH [0x51, 0x52] [OP_ADD, 0x53, OP_EQUAL] none = .ok ⟨⟩ :=
  verifyScript_softfork _ _ _ _ _ SCRIPT_VERIFY_P2SH
    (SCRIPT_VERIFY_P2SH ||| SCRIPT_VERIFY_WITNESS ||| SCRIPT_VERIFY_CLEANSTACK |||
      SCRIPT_VERIFY_MINIMALDATA)
    (by decide) ⟨by decide, by decide⟩ rfl

end Rcoin
