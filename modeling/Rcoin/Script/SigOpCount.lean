/-
  `CScript::GetSigOpCount` (src/script/script.cpp) against the signature checks that
  `EvalScript` makes: what is counted without running the script bounds every run.
-/
import Rcoin.Script.MachineSteps

namespace Rcoin

open Fallible Bool CScriptNum Costed

/-! ## The counting -/

/-- What an opcode adds to the count. -/
def sigOps (fAccurate : Bool) (lastOpcode opcode : Opcodetype) : Nat :=
  if opcode = OP_CHECKSIG ∨ opcode = OP_CHECKSIGVERIFY then 1
  else if opcode = OP_CHECKMULTISIG ∨ opcode = OP_CHECKMULTISIGVERIFY then
    if fAccurate && OP_1 ≤ lastOpcode && lastOpcode ≤ OP_16 then decodeOpN lastOpcode
    else MAX_PUBKEYS_PER_MULTISIG.toNat
  else 0

/-- `while (pc < end())`; the count is an `unsigned int`. -/
def getSigOpCountLoop (fAccurate : Bool) : Nat → CScript → Opcodetype → UInt32 → UInt32
  | 0, _, _, n => n
  | fuel + 1, pc, lastOpcode, n =>
    if pc.isEmpty then n
    else
      match getOp pc with
      | none => n
      | some (opcode, _, rest) =>
        getSigOpCountLoop fAccurate fuel rest opcode
          (n + UInt32.ofNat (sigOps fAccurate lastOpcode opcode))

def getSigOpCount (fAccurate : Bool) (script : CScript) : UInt32 :=
  getSigOpCountLoop fAccurate script.length script OP_INVALIDOPCODE 0

/-! ## The count as a number -/

/-- The sum that the loop forms, without a bound on it. -/
def sigOpTotal (fAccurate : Bool) : Nat → CScript → Opcodetype → Nat
  | 0, _, _ => 0
  | fuel + 1, pc, lastOpcode =>
    match getOp pc with
    | none => 0
    | some (opcode, _, rest) =>
      sigOps fAccurate lastOpcode opcode + sigOpTotal fAccurate fuel rest opcode

variable (fAccurate : Bool)

theorem getSigOpCountLoop_eq (fuel : Nat) (pc : CScript) (lastOpcode : Opcodetype) (n : UInt32) :
    getSigOpCountLoop fAccurate fuel pc lastOpcode n =
      n + UInt32.ofNat (sigOpTotal fAccurate fuel pc lastOpcode) := by
  induction fuel generalizing pc lastOpcode n with
  | zero => simp [getSigOpCountLoop, sigOpTotal]
  | succ fuel ih =>
    rw [getSigOpCountLoop, sigOpTotal]
    cases pc with
    | nil => simp [getOp]
    | cons b pc =>
      cases getOp (b :: pc) with
      | none => simp
      | some instruction =>
        obtain ⟨opcode, vchPushValue, rest⟩ := instruction
        simp only [List.isEmpty_cons, false_eq_true, if_false]
        rw [ih, UInt32.ofNat_add, UInt32.add_assoc]

theorem getSigOpCount_toNat (script : CScript) : (getSigOpCount fAccurate script).toNat =
      sigOpTotal fAccurate script.length script OP_INVALIDOPCODE % 2 ^ 32 := by
  rw [getSigOpCount, getSigOpCountLoop_eq, UInt32.zero_add, UInt32.toNat_ofNat']

variable {opcode : Opcodetype}

theorem decodeOpN_le (hhi : opcode ≤ OP_16) : decodeOpN opcode ≤ 16 := by
  have hle : opcode.toNat ≤ 96 := UInt8.le_iff_toNat_le.mp hhi
  have hone : OP_1.toNat = 81 := rfl
  unfold decodeOpN
  split <;> omega

theorem sigOps_le_maxPubkeys (lastOpcode opcode : Opcodetype) :
    sigOps fAccurate lastOpcode opcode ≤ 20 := by
  have hmax : MAX_PUBKEYS_PER_MULTISIG.toNat = 20 := rfl
  unfold sigOps
  split
  · omega
  split
  · split
    · next hacc =>
      simp only [and_eq_true, decide_eq_true_eq] at hacc
      have hle := decodeOpN_le hacc.2
      omega
    · omega
  · omega

theorem sigOps_accurate_le (lastOpcode opcode : Opcodetype) :
    sigOps true lastOpcode opcode ≤ sigOps false lastOpcode opcode := by
  have hmax := sigOps_le_maxPubkeys true lastOpcode opcode
  unfold sigOps at hmax ⊢
  split
  · omega
  next hsig =>
    split
    · next hmulti =>
      rw [if_neg hsig, if_pos hmulti] at hmax
      exact hmax
    · omega

theorem sigOpTotal_le (fuel : Nat) (pc : CScript) (lastOpcode : Opcodetype) :
    sigOpTotal fAccurate fuel pc lastOpcode ≤ 20 * fuel := by
  induction fuel generalizing pc lastOpcode with
  | zero => exact le_refl 0
  | succ fuel ih =>
    rw [sigOpTotal]
    cases getOp pc with
    | none => exact Nat.zero_le _
    | some instruction =>
      obtain ⟨opcode, vchPushValue, rest⟩ := instruction
      have hop := sigOps_le_maxPubkeys fAccurate lastOpcode opcode
      have hrest := ih rest opcode
      simp only
      omega

theorem sigOpTotal_accurate_le (fuel : Nat) (pc : CScript) (lastOpcode : Opcodetype) :
    sigOpTotal true fuel pc lastOpcode ≤ sigOpTotal false fuel pc lastOpcode := by
  induction fuel generalizing pc lastOpcode with
  | zero => exact le_refl 0
  | succ fuel ih =>
    rw [sigOpTotal, sigOpTotal]
    cases getOp pc with
    | none => exact le_refl 0
    | some instruction =>
      obtain ⟨opcode, vchPushValue, rest⟩ := instruction
      exact add_le_add (sigOps_accurate_le lastOpcode opcode) (ih rest opcode)

/-! ## The checks that are made -/

namespace Machine

/-- What a small-number opcode leaves: its number is on top. -/
def Pushed (lastOpcode : Opcodetype) (stack : List Valtype) : Prop :=
  OP_1 ≤ lastOpcode → lastOpcode ≤ OP_16 →
    ∃ rest, stack = getvch (decodeOpN lastOpcode) :: rest

/-- Where opcodes are executed, so was the last one. -/
def Follows (lastOpcode : Opcodetype) (s : EvalState) : Prop :=
  s.vfExec.all id = true → Pushed lastOpcode s.stack

theorem setVch_decodeOpN (hlo : OP_1 ≤ opcode) (hhi : opcode ≤ OP_16) :
    setVch (getvch (decodeOpN opcode)) = decodeOpN opcode := by
  have hall : ∀ op : Opcodetype, OP_1 ≤ op → op ≤ OP_16 →
      setVch (getvch (decodeOpN op)) = decodeOpN op :=
    Digits.forall_uint8 (by decide +kernel)
  exact hall opcode hlo hhi

theorem scriptNum_eq_ok {vch : Valtype} {fRequireMinimal : Bool} {nMaxNumSize : Nat}
    {bn : CScriptNum} (h : scriptNum vch fRequireMinimal nMaxNumSize = .ok bn) :
    bn = setVch vch := by
  obtain ⟨-, h⟩ := failIf_bind_eq_ok.mp h
  obtain ⟨-, h⟩ := failIf_bind_eq_ok.mp h
  cases h
  rfl

theorem getint_eq {n : Int} (hlo : -2 ^ 31 ≤ n) (hhi : n ≤ 2 ^ 31 - 1) :
    getint n = n := by
  rw [getint, if_neg (Int.not_lt.mpr hhi), if_neg (Int.not_lt.mpr hlo)]

section

variable {ctx : EvalContext} {flags : UInt32} {pc : CScript} {s : EvalState}

theorem evalCheckSig_calls_le : (evalCheckSig ctx flags opcode s).calls ≤ 1 := by
  refine calls_lift_bind_le fun _ _ => ?_
  refine calls_lift_bind_le fun vchSig _ => ?_
  refine calls_lift_bind_le fun vchPubKey _ => ?_
  refine calls_lift_bind_le fun _ _ => ?_
  exact calls_bind_le_left (le_refl 1) fun fSuccess => rfl

theorem multisigRound_calls_le (code : CScript) (stack : List Valtype) (isig ikey : Nat) :
    (multisigRound ctx flags code stack isig ikey).calls ≤ 1 := by
  refine calls_lift_bind_le fun vchSig _ => ?_
  refine calls_lift_bind_le fun vchPubKey _ => ?_
  exact calls_lift_bind_le fun _ _ => le_refl 1

theorem multisigLoop_calls_le (code : CScript) (stack : List Valtype) {nKeysCount nSigsCount : Nat}
    (hle : nSigsCount ≤ nKeysCount) (isig ikey : Nat) :
    (multisigLoop ctx flags code stack nKeysCount nSigsCount isig ikey).calls ≤ nKeysCount := by
  induction nKeysCount generalizing nSigsCount isig ikey with
  | zero =>
    rw [Nat.le_zero.mp hle]
    exact le_refl 0
  | succ nKeysCount ih =>
    cases nSigsCount with
    | zero => exact Nat.zero_le _
    | succ nSigsCount =>
      rw [multisigLoop, add_comm nKeysCount 1]
      refine calls_bind_le (multisigRound_calls_le code stack isig ikey) fun fOk _ => ?_
      split
      · split
        · exact Nat.zero_le _
        · exact ih (by omega) (isig + 1) (ikey + 1)
      · split
        · exact Nat.zero_le _
        · exact ih (by omega) isig (ikey + 1)

variable {s' : EvalState}

theorem multisigCounts_spec {nKeys nSigs : Nat}
    (h : multisigCounts flags s = .ok (nKeys, nSigs, s')) : nSigs ≤ nKeys ∧ nKeys ≤ 20 ∧
      ∃ vch, stacktop s.stack 1 = .ok vch ∧ nKeys = (setVch vch).getint.toNat := by
  obtain ⟨-, h⟩ := failIf_bind_eq_ok.mp h
  obtain ⟨vch, htop, h⟩ := bind_eq_ok.mp h
  obtain ⟨keysCount, hkeys, h⟩ := bind_eq_ok.mp h
  obtain ⟨hkeysRange, h⟩ := failIf_bind_eq_ok.mp h
  obtain ⟨-, h⟩ := failIf_bind_eq_ok.mp h
  obtain ⟨-, h⟩ := failIf_bind_eq_ok.mp h
  obtain ⟨_, -, h⟩ := bind_eq_ok.mp h
  obtain ⟨sigsCount, -, h⟩ := bind_eq_ok.mp h
  obtain ⟨hsigsRange, h⟩ := failIf_bind_eq_ok.mp h
  obtain ⟨-, h⟩ := failIf_bind_eq_ok.mp h
  cases h
  simp only [or_eq_false_iff, decide_eq_false_iff_not, Int.not_lt] at hkeysRange hsigsRange
  have hmax : MAX_PUBKEYS_PER_MULTISIG = 20 := rfl
  refine ⟨by omega, by omega, vch, htop, ?_⟩
  rw [scriptNum_eq_ok hkeys]

variable {lastOpcode : Opcodetype}

theorem evalCheckMultisig_calls_le (hpushed : Pushed lastOpcode s.stack)
    (hop : opcode = OP_CHECKMULTISIG ∨ opcode = OP_CHECKMULTISIGVERIFY) :
    (evalCheckMultisig ctx flags opcode s).calls ≤ sigOps true lastOpcode opcode := by
  refine calls_lift_bind_le fun ⟨nKeys, nSigs, s'⟩ hcounts => ?_
  obtain ⟨hle, hmax, vch, htop, hnKeys⟩ := multisigCounts_spec hcounts
  refine calls_lift_bind_le fun sigs _ => ?_
  have hkeys : nKeys ≤ sigOps true lastOpcode opcode := by
    have hsig : ¬(opcode = OP_CHECKSIG ∨ opcode = OP_CHECKSIGVERIFY) := by
      rcases hop with rfl | rfl <;> decide
    rw [sigOps, if_neg hsig, if_pos hop]
    split
    · next hacc =>
      simp only [Bool.true_and, and_eq_true, decide_eq_true_eq] at hacc
      obtain ⟨hlo, hhi⟩ := hacc
      obtain ⟨rest, hstack⟩ := hpushed hlo hhi
      rw [hstack] at htop
      cases htop
      have hint : getint (decodeOpN lastOpcode) = decodeOpN lastOpcode := by
        have hsmall := decodeOpN_le hhi
        exact getint_eq (by omega) (by omega)
      rw [hnKeys, setVch_decodeOpN hlo hhi, hint]
      exact Nat.le_refl _
    · exact hmax
  refine Nat.le_trans ?_ hkeys
  refine calls_bind_le_left (multisigLoop_calls_le _ _ hle _ _) fun fSuccess => ?_
  exact Nat.le_zero.mp (calls_lift_bind_le fun stack _ => Nat.le_refl 0)

variable {fExec : Bool}

theorem execOpcode_calls_le (hpushed : opcode = OP_CHECKMULTISIG ∨ opcode = OP_CHECKMULTISIGVERIFY →
      Pushed lastOpcode s.stack) :
    (execOpcode ctx flags fExec opcode pc s).calls ≤ sigOps true lastOpcode opcode := by
  unfold execOpcode
  refine calls_ite_le (fun _ => Nat.zero_le _) fun _ => ?_
  refine calls_ite_le (fun _ => Nat.zero_le _) fun _ => ?_
  refine calls_ite_le (fun _ => ?_) fun _ => ?_
  · exact calls_lift_bind_le fun _ _ => Nat.zero_le _
  refine calls_ite_le (fun _ => Nat.zero_le _) fun _ => ?_
  refine calls_ite_le (fun _ => Nat.zero_le _) fun _ => ?_
  refine calls_ite_le (fun _ => Nat.zero_le _) fun _ => ?_
  refine calls_ite_le (fun hop => ?_) fun _ => ?_
  · rw [sigOps, if_pos hop]
    exact evalCheckSig_calls_le
  refine calls_ite_le (fun hop => ?_) fun _ => ?_
  · exact evalCheckMultisig_calls_le (hpushed hop) hop
  refine calls_ite_le (fun _ => Nat.zero_le _) fun _ => ?_
  exact calls_ite_le (fun _ => Nat.zero_le _) fun _ => Nat.zero_le _

variable {vchPushValue : Valtype}

theorem evalOpcode_calls_le (hfollows : Follows lastOpcode s) :
    (evalOpcode ctx flags opcode vchPushValue pc s).calls ≤ sigOps true lastOpcode opcode := by
  unfold evalOpcode
  dsimp only
  split
  · split
    · exact calls_lift_bind_le fun _ _ =>
        calls_lift_bind_le fun _ _ => Nat.zero_le _
    · exact Nat.zero_le _
  split
  · next hexec =>
    refine execOpcode_calls_le fun hop => hfollows ?_
    -- the conditionals do not check signatures, so the opcode is executed
    rcases or_eq_true_iff.mp hexec with hall | hcond
    · exact hall
    · rcases hop with rfl | rfl <;> exact absurd hcond (by decide)
  · exact Nat.zero_le _

theorem evalInstruction_calls_le (hfollows : Follows lastOpcode s) :
    (evalInstruction ctx flags opcode vchPushValue pc s).calls ≤ sigOps true lastOpcode opcode := by
  refine calls_lift_bind_le fun _ _ => ?_
  refine calls_lift_bind_le fun _ _ => ?_
  refine calls_lift_bind_le fun _ _ => ?_
  refine calls_bind_le_left (evalOpcode_calls_le ?_) fun s' => ?_
  · split <;> exact hfollows
  · exact Nat.le_zero.mp (calls_lift_bind_le fun _ _ => Nat.le_refl 0)

theorem execOpcode_small (hlo : OP_1 ≤ opcode) (hhi : opcode ≤ OP_16) :
    execOpcode ctx flags fExec opcode pc s = liftM (plainOpcode ctx.hashes opcode pc s) := by
  have hall : ∀ op : Opcodetype, OP_1 ≤ op → op ≤ OP_16 →
      op < OP_NOP ∧ isUpgradableNop op = false ∧ isUnaryOpcode op = false ∧
        isBinaryOpcode op = false :=
    Digits.forall_uint8 (by decide +kernel)
  obtain ⟨hlt, hnop, hunary, hbinary⟩ := hall opcode hlo hhi
  have hne : ∀ {other : Opcodetype}, OP_NOP ≤ other → opcode ≠ other := by
    intro other hother heq
    rw [heq] at hlt
    exact absurd hlt (UInt8.not_lt.mpr hother)
  have hne2 : ∀ {a b : Opcodetype}, OP_NOP ≤ a → OP_NOP ≤ b → ¬(opcode = a ∨ opcode = b) :=
    fun ha hb h => h.elim (hne ha) (hne hb)
  rw [execOpcode, if_neg (hne (by decide)), if_neg (hne (by decide)), hnop, hunary, hbinary,
    if_neg Bool.false_ne_true, if_neg (hne2 (by decide) (by decide)),
    if_neg (hne2 (by decide) (by decide)), if_neg (hne (by decide)),
    if_neg (hne2 (by decide) (by decide)), if_neg (hne2 (by decide) (by decide)),
    if_neg Bool.false_ne_true, if_neg Bool.false_ne_true]

theorem evalOpcode_small (hlo : OP_1 ≤ opcode) (hhi : opcode ≤ OP_16)
    (h : (evalOpcode ctx flags opcode vchPushValue pc s).result = .ok s') : Follows opcode s' := by
  have hpush : ¬opcode ≤ OP_PUSHDATA4 := by
    rw [UInt8.le_iff_toNat_le] at hlo ⊢
    exact not_le.mpr (lt_of_lt_of_le (by decide) hlo)
  have hcond : ¬OP_IF ≤ opcode := by
    rw [UInt8.le_iff_toNat_le] at hhi ⊢
    exact not_le.mpr (lt_of_le_of_lt hhi (by decide))
  intro hall _ _
  cases hexec : s.vfExec.all id with
  | true =>
    simp only [evalOpcode, hexec, Bool.true_and, hpush, decide_false, false_eq_true, if_false,
      Bool.true_or, if_true, execOpcode_small hlo hhi, result_liftM] at h
    rw [plainOpcode, if_pos (Or.inr ⟨hlo, hhi⟩)] at h
    cases h
    have hzero : opcode ≠ OP_0 := by
      rintro rfl
      exact absurd hlo (by decide)
    have hdecode : ((decodeOpN opcode : Nat) : Int) = opcode.toNat - (OP_1.toNat - 1) := by
      rw [decodeOpN, if_neg hzero]
      rw [UInt8.le_iff_toNat_le] at hlo
      have hone : OP_1.toNat = 81 := rfl
      omega
    rw [hdecode]
    exact ⟨s.stack, rfl⟩
  | false =>
    simp only [evalOpcode, hexec, Bool.false_and, Bool.false_or, hcond, decide_false,
      false_eq_true, if_false, result_pure] at h
    cases h
    rw [hexec] at hall
    cases hall

theorem follows_of_evalInstruction
    (h : (evalInstruction ctx flags opcode vchPushValue pc s).result = .ok s') :
    Follows opcode s' := by
  intro hall hlo hhi
  simp only [evalInstruction, result_bind, result_liftM] at h
  obtain ⟨-, h⟩ := failIf_bind_eq_ok.mp h
  obtain ⟨-, h⟩ := failIf_bind_eq_ok.mp h
  obtain ⟨-, h⟩ := failIf_bind_eq_ok.mp h
  obtain ⟨s1, heval, h⟩ := bind_eq_ok.mp h
  obtain ⟨-, h⟩ := failIf_bind_eq_ok.mp h
  cases h
  exact evalOpcode_small hlo hhi heval hall hlo hhi

theorem evalLoop_calls_le (fuel : Nat) (hfollows : Follows lastOpcode s) :
    (evalLoop ctx flags fuel pc s).calls ≤ sigOpTotal true fuel pc lastOpcode := by
  induction fuel generalizing pc s lastOpcode with
  | zero => exact le_refl 0
  | succ fuel ih =>
    rw [evalLoop, sigOpTotal]
    split
    · exact Nat.zero_le _
    · cases getOp pc with
      | none => exact Nat.zero_le _
      | some instruction =>
        obtain ⟨opcode, vchPushValue, rest⟩ := instruction
        exact calls_bind_le (evalInstruction_calls_le hfollows) fun s' hs' =>
          ih (follows_of_evalInstruction hs')

end

/-- A run checks as many signatures as are counted with the numbers of keys, at most, and
    these are at most those counted without, as long as an `unsigned int` holds their
    number. -/
theorem evalScript_calls_le (ctx : EvalContext) (flags : UInt32) (stack : List Valtype)
    (script : CScript) :
    (evalScript ctx flags stack script).calls ≤ (getSigOpCount true script).toNat ∧
      (sigOpTotal false script.length script OP_INVALIDOPCODE < 2 ^ 32 →
        getSigOpCount true script ≤ getSigOpCount false script) := by
  constructor
  · refine calls_lift_bind_le fun _ hsize => ?_
    have hlength := of_decide_eq_false (failIf_eq_ok.mp hsize)
    refine calls_bind_le_left ?_ fun s' => ?_
    · have hsmall := sigOpTotal_le true script.length script OP_INVALIDOPCODE
      have hmax : MAX_SCRIPT_SIZE = 10000 := rfl
      rw [getSigOpCount_toNat, Nat.mod_eq_of_lt (by omega)]
      refine evalLoop_calls_le script.length fun _ _ hhi => ?_
      exact absurd hhi (by decide)
    · exact Nat.le_zero.mp (calls_lift_bind_le fun _ _ => Nat.le_refl 0)
  · intro hfits
    have hle := sigOpTotal_accurate_le script.length script OP_INVALIDOPCODE
    rw [UInt32.le_iff_toNat_le, getSigOpCount_toNat, getSigOpCount_toNat, Nat.mod_eq_of_lt hfits,
      Nat.mod_eq_of_lt (Nat.lt_of_le_of_lt hle hfits)]
    exact hle

/-- A script as it is accepted, with one multisig of one key. -/
theorem evalScript_calls_le_sample :
    getSigOpCount true [OP_1, OP_CHECKMULTISIG] ≤ getSigOpCount false [OP_1, OP_CHECKMULTISIG] :=
  (evalScript_calls_le ⟨⟨id, id, id, id, id⟩, ⟨fun _ _ _ _ => true, fun _ => true, fun _ => true⟩,
    .base⟩ 0 [] [OP_1, OP_CHECKMULTISIG]).2 (by decide)

/-! ## A count that wraps -/

/-- `n` times a multisig of one key. -/
def multisigScript : Nat → CScript
  | 0 => []
  | n + 1 => OP_1 :: OP_CHECKMULTISIG :: multisigScript n

theorem length_multisigScript (n : Nat) : (multisigScript n).length = 2 * n := by
  induction n with
  | zero => rfl
  | succ n ih =>
    rw [multisigScript, List.length_cons, List.length_cons, ih]
    omega

theorem sigOpTotal_multisigScript (n : Nat) (lastOpcode : Opcodetype) :
    sigOpTotal fAccurate (2 * n) (multisigScript n) lastOpcode =
      n * if fAccurate then 1 else 20 := by
  induction n generalizing lastOpcode with
  | zero => exact (zero_mul _).symm
  | succ n ih =>
    have hone : getOp (multisigScript (n + 1)) =
        some (OP_1, [], OP_CHECKMULTISIG :: multisigScript n) := rfl
    have hmulti : getOp (OP_CHECKMULTISIG :: multisigScript n) =
        some (OP_CHECKMULTISIG, [], multisigScript n) := rfl
    have hfirst : sigOps fAccurate lastOpcode OP_1 = 0 := rfl
    have hsecond : sigOps fAccurate OP_1 OP_CHECKMULTISIG = if fAccurate then 1 else 20 := by
      cases fAccurate <;> rfl
    rw [show 2 * (n + 1) = 2 * n + 1 + 1 from rfl, sigOpTotal, hone]
    simp only
    rw [sigOpTotal, hmulti]
    simp only
    rw [ih, hfirst, hsecond, Nat.succ_mul]
    omega

/-- The unaccurate count of 214748365 multisigs of one key each wraps to 4. -/
theorem not_getSigOpCount_le : ¬getSigOpCount true (multisigScript 214748365) ≤
    getSigOpCount false (multisigScript 214748365) := by
  rw [UInt32.le_iff_toNat_le, getSigOpCount_toNat, getSigOpCount_toNat, length_multisigScript,
    sigOpTotal_multisigScript, sigOpTotal_multisigScript]
  decide

end Machine

end Rcoin
