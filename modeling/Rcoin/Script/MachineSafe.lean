/-
  A run of `EvalScript` (src/script/interpreter.cpp) never reads outside a stack, never
  pops an empty one and never fails an assertion, and it leaves no element on the
  stack that is too long, unless it was there before.
-/
import Rcoin.Script.MachineSteps

namespace Rcoin

open Fallible Costed List

namespace Machine

/-! ## A run -/

variable {vchPushValue : Valtype}

section

variable (ctx : EvalContext) (flags : UInt32)

variable (opcode : Opcodetype)

theorem isUnaryOpcode_eq : isUnaryOpcode opcode = (unaryOpcode opcode).isSome := by
  have hall : ∀ op : Opcodetype, isUnaryOpcode op = (unaryOpcode op).isSome :=
    Digits.forall_uint8 (by decide +kernel)
  exact hall opcode

theorem isBinaryOpcode_eq : isBinaryOpcode opcode = (binaryOpcode opcode).isSome := by
  have hall : ∀ op : Opcodetype, isBinaryOpcode op = (binaryOpcode op).isSome :=
    Digits.forall_uint8 (by decide +kernel)
  exact hall opcode

theorem execOpcode_agrees (fExec : Bool) (opcode : Opcodetype) (pc : CScript) (s : EvalState) :
    Agrees s (execOpcode ctx flags fExec opcode pc s).result
      (Rcoin.execOpcode ctx flags fExec opcode pc s) := by
  refine Agrees.ite (fun _ => .inl (checkLockTimeVerify_eq ctx flags s)) fun _ => ?_
  refine Agrees.ite (fun _ => .inl (checkSequenceVerify_eq ctx flags s)) fun _ => ?_
  refine Agrees.ite (fun _ => ?_) fun _ => ?_
  · rw [result_bind, result_liftM]
    exact Agrees.failIf (by decide) fun _ => .inl rfl
  refine Agrees.ite (fun _ => .inl (evalIf_eq ctx flags fExec opcode s)) fun _ => ?_
  refine Agrees.ite (fun _ => evalPick_agrees (requireMinimal flags) opcode s) fun _ => ?_
  refine Agrees.ite (fun _ => .inl (evalWithin_eq (requireMinimal flags) s)) fun _ => ?_
  refine Agrees.ite (fun _ => .inl (evalCheckSig_eq ctx flags opcode s)) fun _ => ?_
  refine Agrees.ite (fun _ => evalCheckMultisig_agrees ctx flags opcode s) fun _ => ?_
  rw [isUnaryOpcode_eq]
  cases hunary : unaryOpcode opcode with
  | some f => exact .inl (evalUnary_eq hunary (requireMinimal flags) s)
  | none =>
    rw [isBinaryOpcode_eq]
    cases hbinary : binaryOpcode opcode with
    | some f => exact .inl (evalBinary_eq hbinary (requireMinimal flags) s)
    | none => exact .inl (plainOpcode_eq ctx.hashes opcode pc s)

theorem evalOpcode_agrees (vchPushValue : Valtype) (pc : CScript) (s : EvalState)
    : Agrees s (evalOpcode ctx flags opcode vchPushValue pc s).result
      (Rcoin.evalOpcode ctx flags opcode vchPushValue pc s) := by
  unfold evalOpcode Rcoin.evalOpcode
  dsimp only
  split
  · next hpush =>
    rw [Bool.and_eq_true, decide_eq_true_iff] at hpush
    cases hmin : requireMinimal flags with
    | true =>
      simp only [if_true, result_bind, result_liftM, checkMinimalPush,
        if_pos hpush.2, Bool.true_and]
      exact Agrees.failIf (by decide) fun _ => .inl rfl
    | false => exact .inl rfl
  split
  · exact execOpcode_agrees ctx flags _ opcode pc s
  · exact .inl rfl

theorem Agrees.step {α β : Type} {s s1 : EvalState} {x : Except ScriptExit α}
    {y : Except ScriptError α} {g : α → Except ScriptExit β} {f : α → Except ScriptError β}
    (h : Agrees s1 x y) (hstack : s1.stack = s.stack)
    (hrest : ∀ a, y = .ok a → Agrees s (g a) (f a)) : Agrees s (x >>= g) (y >>= f) := by
  rcases h with rfl | ⟨hlarge, rfl⟩
  · exact Agrees.bind hrest
  · rw [hstack] at hlarge
    exact .inr ⟨hlarge, rfl⟩

theorem evalInstruction_agrees (vchPushValue : Valtype) (pc : CScript) (s : EvalState)
    : Agrees s (evalInstruction ctx flags opcode vchPushValue pc s).result
      (Rcoin.evalInstruction ctx flags opcode vchPushValue pc s) := by
  rw [evalInstruction, Rcoin.evalInstruction]
  simp only [result_bind, result_liftM]
  refine Agrees.failIf (by decide) fun _ => ?_
  refine Agrees.failIf (by decide) fun _ => ?_
  refine Agrees.failIf (by decide) fun _ => ?_
  refine Agrees.step (evalOpcode_agrees ctx flags opcode vchPushValue pc _) ?_ fun s' _ => ?_
  · split <;> rfl
  · exact Agrees.failIf (by decide) fun _ => .inl rfl

theorem stack_le_of_evalInstruction {opcode : Opcodetype} {pc : CScript} {s s' : EvalState}
    (h : Rcoin.evalInstruction ctx flags opcode vchPushValue pc s = .ok s') :
    s'.stack.length ≤ MAX_STACK_SIZE := by
  obtain ⟨-, h⟩ := failIf_bind_eq_ok.mp h
  obtain ⟨-, h⟩ := failIf_bind_eq_ok.mp h
  obtain ⟨-, h⟩ := failIf_bind_eq_ok.mp h
  obtain ⟨s1, -, h⟩ := bind_eq_ok.mp h
  obtain ⟨hsize, h⟩ := failIf_bind_eq_ok.mp h
  cases h
  have hle := of_decide_eq_false hsize
  omega

theorem evalLoop_agrees (fuel : Nat) (pc : CScript) (s : EvalState) :
    Agrees s (evalLoop ctx flags fuel pc s).result (Rcoin.evalLoop ctx flags fuel pc s) := by
  induction fuel generalizing pc s with
  | zero => exact .inl rfl
  | succ fuel ih =>
    rw [evalLoop, Rcoin.evalLoop]
    split
    · exact .inl rfl
    · cases getOp pc with
      | none => exact .inl rfl
      | some instruction =>
        obtain ⟨opcode, vchPushValue, rest⟩ := instruction
        simp only [result_bind]
        refine Agrees.step (evalInstruction_agrees ctx flags opcode vchPushValue rest s) rfl
          fun s' hs' => ?_
        rcases ih rest s' with heq | ⟨hlarge, -⟩
        · exact .inl heq
        · have hsize := stack_le_of_evalInstruction ctx flags hs'
          have hmax : MAX_STACK_SIZE = 1000 := rfl
          omega

theorem evalScript_agrees (stack : List Valtype) (script : CScript) :
    (evalScript ctx flags stack script).result =
        toExit (Rcoin.evalScript ctx flags stack script) ∨
      (2 ^ 31 ≤ stack.length ∧
        (evalScript ctx flags stack script).result = .error (.error .invalidStackOperation)) := by
  have hagrees : Agrees ⟨stack, [], [], 0, script⟩ (evalScript ctx flags stack script).result
      (Rcoin.evalScript ctx flags stack script) := by
    rw [evalScript, Rcoin.evalScript]
    simp only [result_bind, result_liftM]
    refine Agrees.failIf (by decide) fun _ => ?_
    refine Agrees.step (evalLoop_agrees ctx flags _ _ _) rfl fun s' _ => ?_
    exact Agrees.failIf (by decide) fun _ => .inl rfl
  exact hagrees

end

/-! ## Sizes of elements -/

/-- What is on the stacks of `s'` was on those of `s`, or is short. -/
def From (s s' : EvalState) : Prop :=
  ∀ vch, vch ∈ s'.stack ∨ vch ∈ s'.altstack →
    vch ∈ s.stack ∨ vch ∈ s.altstack ∨ vch.length ≤ MAX_SCRIPT_ELEMENT_SIZE

theorem From.refl (s : EvalState) : From s s := fun _ h => h.elim Or.inl fun h => Or.inr (Or.inl h)

variable {s s' : EvalState}

theorem From.trans {s1 : EvalState} (h : From s s1) (h' : From s1 s') : From s s' := by
  intro vch hmem
  rcases h' vch hmem with hstack | haltstack | hshort
  · exact h vch (.inl hstack)
  · exact h vch (.inr haltstack)
  · exact .inr (.inr hshort)

theorem getvch_short (n : CScriptNum) : n.getvch.length ≤ MAX_SCRIPT_ELEMENT_SIZE :=
  (getvch_length_le n).trans (by decide)

theorem ofBool_short (b : Bool) : (ofBool b).length ≤ MAX_SCRIPT_ELEMENT_SIZE := by
  cases b <;> decide

variable {stack : List Valtype}

theorem From.of_stack (h : ∀ vch ∈ stack, vch ∈ s.stack ∨ vch.length ≤ MAX_SCRIPT_ELEMENT_SIZE) :
    From s { s with stack := stack } := by
  rintro vch (hstack | haltstack)
  · exact (h vch hstack).elim .inl fun hshort => .inr (.inr hshort)
  · exact .inr (.inl haltstack)

variable {opcode : Opcodetype} {stack' : List Valtype}

theorem stackOpcode_from (h : Rcoin.stackOpcode opcode stack = some (.ok stack')) :
    ∀ vch ∈ stack', vch ∈ stack ∨ vch.length ≤ MAX_SCRIPT_ELEMENT_SIZE := by
  have hnum := getvch_short
  have hbool := ofBool_short
  unfold Rcoin.stackOpcode at h
  -- by the opcode, the elements it needs, and the test it makes
  split at h <;> (try split at h) <;> (try split at h) <;> cases h <;> grind

/-- Hash functions that give as many bytes as the source reserves for them. -/
structure SizedHashes extends ScriptHashes where
  ripemd160_length : ∀ vch, (ripemd160 vch).length = 20
  sha1_length : ∀ vch, (sha1 vch).length = 20
  sha256_length : ∀ vch, (sha256 vch).length = 32
  hash160_length : ∀ vch, (hash160 vch).length = 20
  hash256_length : ∀ vch, (hash256 vch).length = 32

theorem SizedHashes.short (hashes : SizedHashes) {hash : Valtype → Valtype}
    (h : hashOpcode hashes.toScriptHashes opcode = some hash) (vch : Valtype) :
    (hash vch).length ≤ MAX_SCRIPT_ELEMENT_SIZE := by
  have hmax : MAX_SCRIPT_ELEMENT_SIZE = 520 := rfl
  unfold hashOpcode at h
  split at h <;> cases h
  · rw [hashes.ripemd160_length]; omega
  · rw [hashes.sha1_length]; omega
  · rw [hashes.sha256_length]; omega
  · rw [hashes.hash160_length]; omega
  · rw [hashes.hash256_length]; omega

theorem plainOpcode_from (hashes : SizedHashes) {pc : CScript}
    (h : Rcoin.plainOpcode hashes.toScriptHashes opcode pc s = .ok s') : From s s' := by
  obtain ⟨stack, altstack, vfExec, nOpCount, pbegincodehash⟩ := s
  unfold Rcoin.plainOpcode at h
  split at h
  · cases h
    exact From.of_stack fun vch hvch => (mem_cons.mp hvch).elim
      (fun heq => .inr (heq ▸ getvch_short _)) .inl
  split at h
  · cases vfExec <;> cases h
    exact From.refl _
  split at h
  · cases vfExec <;> cases h
    exact From.refl _
  split at h
  · cases stack <;> cases h
    intro vch hvch
    simp only [mem_cons] at hvch ⊢
    tauto
  split at h
  · cases altstack <;> cases h
    intro vch hvch
    simp only [mem_cons] at hvch ⊢
    tauto
  split at h
  · cases h
    exact From.refl _
  cases hhash : hashOpcode hashes.toScriptHashes opcode with
  | some hash =>
    rw [hhash] at h
    cases stack <;> cases h
    exact From.of_stack fun vch hvch => (mem_cons.mp hvch).elim
      (fun heq => .inr (heq ▸ hashes.short hhash _))
      fun hmem => .inl (mem_cons_of_mem _ hmem)
  | none =>
    rw [hhash] at h
    cases hop : Rcoin.stackOpcode opcode stack with
    | none =>
      simp only [hop] at h
      cases h
    | some result =>
      simp only [hop] at h
      cases result with
      | error e => cases h
      | ok stack' =>
        cases h
        exact From.of_stack (stackOpcode_from hop)

theorem From.of_push {vch : Valtype} (hsub : stack ⊆ s.stack)
    (hshort : vch.length ≤ MAX_SCRIPT_ELEMENT_SIZE) (hs' : s' = { s with stack := vch :: stack })
    : From s s' := by
  subst hs'
  exact From.of_stack fun v hv => (mem_cons.mp hv).elim (fun heq => .inr (heq ▸ hshort))
    fun hmem => .inl (hsub hmem)

theorem From.of_pop (hsub : stack ⊆ s.stack) (hs' : s' = { s with stack := stack }) :
    From s s' := by
  subst hs'
  exact From.of_stack fun v hv => .inl (hsub hv)

variable {fRequireMinimal : Bool}

theorem evalUnary_from {f : CScriptNum → CScriptNum}
    (h : Rcoin.evalUnary fRequireMinimal f s = .ok s') : From s s' := by
  unfold Rcoin.evalUnary at h
  split at h
  · cases h
  · next vch stack hstack =>
    obtain ⟨bn, -, h⟩ := bind_eq_ok.mp h
    cases h
    refine From.of_push ?_ (getvch_short _) rfl
    rw [hstack]
    exact subset_cons_self ..

theorem evalBinary_from {f : CScriptNum → CScriptNum → CScriptNum}
    (h : Rcoin.evalBinary fRequireMinimal opcode f s = .ok s') : From s s' := by
  unfold Rcoin.evalBinary at h
  split at h
  · next x2 x1 stack hstack =>
    have hsub : stack ⊆ s.stack := by
      rw [hstack]
      exact fun v hv => mem_cons_of_mem _ (mem_cons_of_mem _ hv)
    obtain ⟨bn1, -, h⟩ := bind_eq_ok.mp h
    obtain ⟨bn2, -, h⟩ := bind_eq_ok.mp h
    dsimp only at h
    split at h
    · split at h <;> cases h
      exact From.of_pop hsub rfl
    · cases h
      exact From.of_push hsub (getvch_short _) rfl
  · cases h

theorem evalWithin_from (h : Rcoin.evalWithin fRequireMinimal s = .ok s')
    : From s s' := by
  unfold Rcoin.evalWithin at h
  split at h
  · next x3 x2 x1 stack hstack =>
    obtain ⟨bn1, -, h⟩ := bind_eq_ok.mp h
    obtain ⟨bn2, -, h⟩ := bind_eq_ok.mp h
    obtain ⟨bn3, -, h⟩ := bind_eq_ok.mp h
    cases h
    refine From.of_push ?_ (ofBool_short _) rfl
    rw [hstack]
    exact fun v hv => mem_cons_of_mem _ (mem_cons_of_mem _ (mem_cons_of_mem _ hv))
  · cases h

theorem evalPick_from (h : Rcoin.evalPick fRequireMinimal opcode s = .ok s') : From s s' := by
  unfold Rcoin.evalPick at h
  split at h
  · next top x0 rest hstack =>
    obtain ⟨bn, -, h⟩ := bind_eq_ok.mp h
    obtain ⟨hin, h⟩ := failIf_bind_eq_ok.mp h
    cases h
    refine From.of_stack fun v hv => .inl ?_
    rw [hstack]
    refine mem_cons_of_mem _ ?_
    rw [Bool.or_eq_false_iff, decide_eq_false_iff_not, decide_eq_false_iff_not] at hin
    have hk : bn.getint.toNat < (x0 :: rest).length := by omega
    rcases mem_cons.mp hv with rfl | hmem
    · rw [getD_eq_getElem?_getD, getElem?_eq_getElem hk]
      exact getElem_mem hk
    · split at hmem
      · exact mem_of_mem_eraseIdx hmem
      · exact hmem
  · cases h

section

variable {ctx : EvalContext} {flags : UInt32} {s' : EvalState}

theorem checkLockTimeVerify_from (h : Rcoin.checkLockTimeVerify ctx flags s = .ok s') :
    From s s' := by
  unfold Rcoin.checkLockTimeVerify at h
  split at h
  · cases h
    exact From.refl s
  split at h
  · cases h
  · obtain ⟨nLockTime, -, h⟩ := bind_eq_ok.mp h
    obtain ⟨-, h⟩ := failIf_bind_eq_ok.mp h
    obtain ⟨-, h⟩ := failIf_bind_eq_ok.mp h
    cases h
    exact From.refl s

theorem checkSequenceVerify_from (h : Rcoin.checkSequenceVerify ctx flags s = .ok s') :
    From s s' := by
  unfold Rcoin.checkSequenceVerify at h
  split at h
  · cases h
    exact From.refl s
  split at h
  · cases h
  · obtain ⟨nSequence, -, h⟩ := bind_eq_ok.mp h
    obtain ⟨-, h⟩ := failIf_bind_eq_ok.mp h
    split at h
    · cases h
      exact From.refl s
    · obtain ⟨-, h⟩ := failIf_bind_eq_ok.mp h
      cases h
      exact From.refl s

theorem evalIf_from {fExec : Bool} (h : Rcoin.evalIf ctx flags fExec opcode s = .ok s') :
    From s s' := by
  unfold Rcoin.evalIf at h
  split at h
  · split at h
    · cases h
    · next vch stack hstack =>
      obtain ⟨-, h⟩ := failIf_bind_eq_ok.mp h
      obtain ⟨-, h⟩ := failIf_bind_eq_ok.mp h
      cases h
      have hsub : stack ⊆ s.stack := by
        rw [hstack]
        exact subset_cons_self ..
      exact From.trans (From.of_pop hsub rfl) (From.refl _)
  · cases h
    exact From.refl s

theorem evalCheckSig_from (h : Rcoin.evalCheckSig ctx flags opcode s = .ok s') : From s s' := by
  unfold Rcoin.evalCheckSig at h
  split at h
  · next vchPubKey vchSig stack hstack =>
    have hsub : stack ⊆ s.stack := by
      rw [hstack]
      exact fun v hv => mem_cons_of_mem _ (mem_cons_of_mem _ hv)
    obtain ⟨-, -, h⟩ := bind_eq_ok.mp h
    obtain ⟨-, -, h⟩ := bind_eq_ok.mp h
    obtain ⟨-, h⟩ := failIf_bind_eq_ok.mp h
    split at h
    · split at h <;> cases h
      exact From.of_pop hsub rfl
    · cases h
      exact From.of_push hsub (ofBool_short _) rfl
  · cases h

variable {fSuccess : Bool}

theorem multisigCleanup_subset {i ikey2 : Nat}
    (h : Rcoin.multisigCleanup flags fSuccess i ikey2 stack = .ok stack') : stack' ⊆ stack := by
  induction i generalizing ikey2 stack with
  | zero =>
    cases h
    exact List.Subset.refl _
  | succ i ih =>
    cases stack with
    | nil => cases h
    | cons vch stack =>
      obtain ⟨-, h⟩ := failIf_bind_eq_ok.mp h
      exact fun v hv => mem_cons_of_mem _ (ih h hv)

theorem multisigResult_from (hsub : stack ⊆ s.stack)
    (h : Rcoin.multisigResult flags opcode fSuccess s stack = .ok s') : From s s' := by
  cases stack with
  | nil => cases h
  | cons dummy stack =>
    have hsub' : stack ⊆ s.stack := fun v hv => hsub (mem_cons_of_mem _ hv)
    obtain ⟨-, h⟩ := failIf_bind_eq_ok.mp h
    split at h
    · split at h <;> cases h
      exact From.of_pop hsub' rfl
    · cases h
      exact From.of_push hsub' (ofBool_short _) rfl

theorem evalCheckMultisig_from (h : Rcoin.evalCheckMultisig ctx flags opcode s = .ok s') :
    From s s' := by
  obtain ⟨-, h⟩ := failIf_bind_eq_ok.mp h
  obtain ⟨keysCount, -, h⟩ := bind_eq_ok.mp h
  obtain ⟨-, h⟩ := failIf_bind_eq_ok.mp h
  obtain ⟨-, h⟩ := failIf_bind_eq_ok.mp h
  obtain ⟨-, h⟩ := failIf_bind_eq_ok.mp h
  obtain ⟨sigsCount, -, h⟩ := bind_eq_ok.mp h
  obtain ⟨-, h⟩ := failIf_bind_eq_ok.mp h
  obtain ⟨-, h⟩ := failIf_bind_eq_ok.mp h
  obtain ⟨fSuccess, -, h⟩ := bind_eq_ok.mp h
  obtain ⟨stack, hclean, h⟩ := bind_eq_ok.mp h
  -- the keys that are counted as operations do not change the stack
  have hcount : From s { s with nOpCount := s.nOpCount + keysCount.getint.toNat } := From.refl s
  exact hcount.trans (multisigResult_from (multisigCleanup_subset hclean) h)

end

section

variable {hashes : SizedHashes} {checker : BaseSignatureChecker} {sigversion : SigVersion}
  {flags : UInt32} {s' : EvalState} {pc : CScript}

theorem execOpcode_from {fExec : Bool} (h : Rcoin.execOpcode
    ⟨hashes.toScriptHashes, checker, sigversion⟩ flags fExec opcode pc s = .ok s') :
    From s s' := by
  unfold Rcoin.execOpcode at h
  split at h
  · exact checkLockTimeVerify_from h
  split at h
  · exact checkSequenceVerify_from h
  split at h
  · obtain ⟨-, h⟩ := failIf_bind_eq_ok.mp h
    cases h
    exact From.refl s
  split at h
  · exact evalIf_from h
  split at h
  · exact evalPick_from h
  split at h
  · exact evalWithin_from h
  split at h
  · exact evalCheckSig_from h
  split at h
  · exact evalCheckMultisig_from h
  split at h
  · exact evalUnary_from h
  split at h
  · exact evalBinary_from h
  · exact plainOpcode_from hashes h

theorem evalOpcode_from (hshort : vchPushValue.length ≤ MAX_SCRIPT_ELEMENT_SIZE)
    (h : Rcoin.evalOpcode
      ⟨hashes.toScriptHashes, checker, sigversion⟩ flags opcode vchPushValue pc s = .ok s') :
    From s s' := by
  unfold Rcoin.evalOpcode at h
  dsimp only at h
  split at h
  · obtain ⟨-, h⟩ := failIf_bind_eq_ok.mp h
    cases h
    exact From.of_push (List.Subset.refl _) hshort rfl
  split at h
  · exact execOpcode_from h
  · cases h
    exact From.refl s

theorem evalInstruction_from (h : Rcoin.evalInstruction
    ⟨hashes.toScriptHashes, checker, sigversion⟩ flags opcode vchPushValue pc s = .ok s') :
    From s s' := by
  obtain ⟨hpush, h⟩ := failIf_bind_eq_ok.mp h
  have hshort : vchPushValue.length ≤ MAX_SCRIPT_ELEMENT_SIZE :=
    Nat.not_lt.mp (of_decide_eq_false hpush)
  obtain ⟨-, h⟩ := failIf_bind_eq_ok.mp h
  obtain ⟨-, h⟩ := failIf_bind_eq_ok.mp h
  obtain ⟨s1, heval, h⟩ := bind_eq_ok.mp h
  obtain ⟨-, h⟩ := failIf_bind_eq_ok.mp h
  cases h
  have hcount : From s (if opcode > OP_16 then { s with nOpCount := s.nOpCount + 1 } else s) := by
    split <;> exact From.refl s
  exact hcount.trans (evalOpcode_from hshort heval)

theorem evalLoop_from {fuel : Nat} (h : Rcoin.evalLoop
    ⟨hashes.toScriptHashes, checker, sigversion⟩ flags fuel pc s = .ok s') : From s s' := by
  induction fuel generalizing pc s with
  | zero =>
    cases h
    exact From.refl _
  | succ fuel ih =>
    rw [Rcoin.evalLoop] at h
    split at h
    · cases h
      exact From.refl _
    split at h
    · cases h
    · obtain ⟨s1, hstep, h⟩ := bind_eq_ok.mp h
      exact (evalInstruction_from hstep).trans (ih h)

end

/-! ## All together -/

/-- `EvalScript` stops with an error of its own or where it refuses a script number, and
    where it succeeds no element is too long that was not there before. -/
theorem evalScript_safe (hashes : SizedHashes) (checker : BaseSignatureChecker)
    (sigversion : SigVersion) (flags : UInt32) (stack : List Valtype) (script : CScript) :
    match (evalScript ⟨hashes.toScriptHashes, checker, sigversion⟩ flags stack script).result with
    | .error exit => (∃ serror, exit = .error serror) ∨ exit = .scriptNum
    | .ok stack' => ∀ vch ∈ stack', vch.length ≤ MAX_SCRIPT_ELEMENT_SIZE ∨ vch ∈ stack := by
  rcases evalScript_agrees ⟨hashes.toScriptHashes, checker, sigversion⟩ flags stack script with
    heq | ⟨-, heq⟩
  · rw [heq]
    cases hpure : Rcoin.evalScript ⟨hashes.toScriptHashes, checker, sigversion⟩ flags stack
      script with
    | error e =>
      rcases Decidable.em (e = .unknownError) with rfl | hne
      · exact .inr rfl
      · rw [toExit_error hne]
        exact .inl ⟨e, rfl⟩
    | ok stack' =>
      obtain ⟨-, hpure⟩ := failIf_bind_eq_ok.mp hpure
      obtain ⟨s', hloop, hpure⟩ := bind_eq_ok.mp hpure
      obtain ⟨-, hpure⟩ := failIf_bind_eq_ok.mp hpure
      cases hpure
      intro vch hvch
      rcases evalLoop_from hloop vch (.inl hvch) with hstack | haltstack | hshort
      · exact .inr hstack
      · cases haltstack
      · exact .inl hshort
  · rw [heq]
    exact .inl ⟨.invalidStackOperation, rfl⟩

/-- Hashes that keep the first bytes. -/
def keptBytes : SizedHashes where
  ripemd160 vch := (vch ++ List.replicate 20 0).take 20
  sha1 vch := (vch ++ List.replicate 20 0).take 20
  sha256 vch := (vch ++ List.replicate 32 0).take 32
  hash160 vch := (vch ++ List.replicate 20 0).take 20
  hash256 vch := (vch ++ List.replicate 32 0).take 32
  ripemd160_length _ := by simp
  sha1_length _ := by simp
  sha256_length _ := by simp
  hash160_length _ := by simp
  hash256_length _ := by simp

/-- Two bytes are pushed, and a copy of them is hashed, above an element that is too long. -/
theorem evalScript_safe_hash160 :
    let long : Valtype := List.replicate 600 7
    let ctx : EvalContext := ⟨keptBytes.toScriptHashes,
      ⟨fun _ _ _ _ => true, fun _ => true, fun _ => true⟩, .base⟩
    let stack' := [[8, 9] ++ List.replicate 18 0, [8, 9], long]
    (evalScript ctx 0 [long] [2, 8, 9, OP_DUP, OP_HASH160]).result = .ok stack' ∧
      ∀ vch ∈ stack', vch.length ≤ MAX_SCRIPT_ELEMENT_SIZE ∨ vch ∈ [long] := by
  intro long ctx stack'
  have hsafe := evalScript_safe keptBytes ctx.checker ctx.sigversion 0 [long]
    [2, 8, 9, OP_DUP, OP_HASH160]
  have heval : (evalScript ctx 0 [long] [2, 8, 9, OP_DUP, OP_HASH160]).result = .ok stack' := rfl
  refine ⟨heval, ?_⟩
  rw [show evalScript ⟨keptBytes.toScriptHashes, ctx.checker, ctx.sigversion⟩ 0 [long]
    [2, 8, 9, OP_DUP, OP_HASH160] = evalScript ctx 0 [long] [2, 8, 9, OP_DUP, OP_HASH160] from rfl,
    heval] at hsafe
  exact hsafe

end Machine

end Rcoin
