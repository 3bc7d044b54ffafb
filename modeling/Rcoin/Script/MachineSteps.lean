/-
  The opcodes of the machine stop only with the errors of the source and where a
  script number is refused: each does what the one on lists does.
-/
import Rcoin.Script.Machine
import Rcoin.Script.Numbers

namespace Rcoin

open Fallible Costed List

/-- What a result on lists is for the machine: an unknown error there is a refused
    script number here. -/
def toExit {α : Type} : Except ScriptError α → Except ScriptExit α
  | .ok a => .ok a
  | .error .unknownError => .error .scriptNum
  | .error e => .error (.error e)

namespace Machine

variable {α β : Type}

variable {e : ScriptError}

theorem toExit_error (h : e ≠ .unknownError) :
    toExit (.error e : Except ScriptError α) = .error (.error e) := by
  cases e <;> first | rfl | exact absurd rfl h

variable {c : Bool}

theorem toExit_failIf (h : e ≠ .unknownError) : toExit (failIf c e) = failIf c (.error e) := by
  cases c with
  | true => exact toExit_error h
  | false => rfl

theorem toExit_map (x : Except ScriptError α) (f : α → β) :
    toExit (x.map f) = (toExit x).map f := by
  cases x with
  | ok a => rfl
  | error e => cases e <;> rfl

variable {x : Except ScriptError α}

theorem toExit_bind_congr {g : α → Except ScriptExit β} {f : α → Except ScriptError β}
    (h : ∀ a, x = .ok a → g a = toExit (f a)) : (toExit x >>= g) = toExit (x >>= f) := by
  cases x with
  | ok a => exact h a rfl
  | error e => cases e <;> rfl

variable {g : Unit → Except ScriptExit β}

variable {f : Unit → Except ScriptError β}

theorem failIf_bind_congr (he : e ≠ .unknownError) (h : c = false → g ⟨⟩ = toExit (f ⟨⟩)) :
    (failIf c (.error e) >>= g) = toExit (failIf c e >>= f) := by
  rw [← toExit_failIf he]
  exact toExit_bind_congr fun _ hok => h (failIf_eq_ok.mp hok)

theorem scriptNum_eq (vch : Valtype) (fRequireMinimal : Bool) (nMaxNumSize : Nat) :
    scriptNum vch fRequireMinimal nMaxNumSize =
      toExit (Rcoin.scriptNum vch fRequireMinimal nMaxNumSize) := by
  rw [scriptNum, Rcoin.scriptNum]
  cases decide (vch.length > nMaxNumSize) <;> cases fRequireMinimal && !isMinimallyEncoded vch <;>
    rfl

/-! ## Stack operations -/

theorem stackOpcode_eq (opcode : Opcodetype) (stack : List Valtype) :
    stackOpcode opcode stack = (Rcoin.stackOpcode opcode stack).map toExit := by
  unfold stackOpcode
  split
  case h_2 =>
    rcases stack with _ | ⟨vch, stack⟩
    · rfl
    · show some (if castToBool vch then _ else _) =
        some (toExit (if castToBool vch then _ else _))
      cases castToBool vch <;> rfl
  case h_21 =>
    rcases stack with _ | ⟨x2, _ | ⟨x1, stack⟩⟩
    · rfl
    · rfl
    · show some (if x1 == x2 then _ else _) = some (toExit (if x1 == x2 then _ else _))
      cases x1 == x2 <;> rfl
  case h_22 =>
    -- no stack operation
    unfold Rcoin.stackOpcode
    split <;> first | rfl | exact absurd rfl (by assumption)
  all_goals
    rcases stack with _ | ⟨a, _ | ⟨b, _ | ⟨c, _ | ⟨d, _ | ⟨e, _ | ⟨f, stack⟩⟩⟩⟩⟩⟩ <;> rfl

theorem plainOpcode_eq (hashes : ScriptHashes) (opcode : Opcodetype) (pc : CScript)
    (s : EvalState) :
    plainOpcode hashes opcode pc s = toExit (Rcoin.plainOpcode hashes opcode pc s) := by
  obtain ⟨stack, altstack, vfExec, nOpCount, pbegincodehash⟩ := s
  unfold plainOpcode Rcoin.plainOpcode
  split
  · rfl
  split
  · cases vfExec <;> rfl
  split
  · cases vfExec <;> rfl
  split
  · cases stack <;> rfl
  split
  · cases altstack <;> rfl
  split
  · rfl
  cases hashOpcode hashes opcode with
  | some hash => cases stack <;> rfl
  | none =>
    simp only [stackOpcode_eq]
    cases Rcoin.stackOpcode opcode stack with
    | none => rfl
    | some result => exact (toExit_map result _).symm

/-! ## Numbers -/

/-- A number of four bytes or less. -/
structure FourBytes (n : Int) : Prop where
  lo : -2 ^ 31 < n
  hi : n < 2 ^ 31

theorem fourBytes_of_scriptNum {vch : Valtype} {fRequireMinimal : Bool} {bn : CScriptNum}
    (h : Rcoin.scriptNum vch fRequireMinimal nDefaultMaxNumSize = .ok bn) : FourBytes bn := by
  obtain ⟨hlen, h⟩ := failIf_bind_eq_ok.mp h
  obtain ⟨-, h⟩ := failIf_bind_eq_ok.mp h
  cases h
  have hle : vch.length ≤ 4 := Nat.not_lt.mp (of_decide_eq_false hlen)
  obtain ⟨hlo, hhi⟩ := setVch_bounds hle (by decide)
  exact ⟨hlo, hhi⟩

variable {n : Int}

theorem int64_ok (hlo : -2 ^ 63 ≤ n) (hhi : n < 2 ^ 63) : int64 n = .ok n :=
  if_pos ⟨hlo, Int.le_sub_one_of_lt hhi⟩

theorem negate_eq (hlo : -2 ^ 63 < n) (hhi : n < 2 ^ 63) : negate n = .ok (-n) := by
  have hne : n ≠ -2 ^ 63 := by omega
  exact (if_pos hne).trans (int64_ok (by omega) (by omega))

theorem addAssign_one (hlo : -2 ^ 63 ≤ n) (hhi : n < 2 ^ 63 - 1) : addAssign n 1 = .ok (n + 1) := by
  have hle : n ≤ 2 ^ 63 - 1 - 1 := by omega
  exact (if_pos (.inr (.inl ⟨by decide, hle⟩))).trans (int64_ok (by omega) (by omega))

theorem subAssign_one (hlo : -2 ^ 63 < n) (hhi : n < 2 ^ 63) : subAssign n 1 = .ok (n - 1) := by
  have hle : -2 ^ 63 + 1 ≤ n := by omega
  exact (if_pos (.inr (.inl ⟨by decide, hle⟩))).trans (int64_ok (by omega) (by omega))

variable {opcode : Opcodetype}

theorem unaryResult_eq {f : CScriptNum → CScriptNum} {bn : Int} (hop : unaryOpcode opcode = some f)
    (h : FourBytes bn) : unaryResult opcode bn = .ok (f bn) := by
  obtain ⟨hlo, hhi⟩ := h
  have hneg : negate bn = .ok (-bn) := negate_eq (by omega) (by omega)
  unfold unaryOpcode at hop
  split at hop <;> cases hop
  · exact addAssign_one (by omega) (by omega)
  · exact subAssign_one (by omega) (by omega)
  · exact hneg
  · show (if bn < 0 then negate bn else .ok bn) = .ok (if bn < 0 then -bn else bn)
    rw [hneg]
    split <;> rfl
  · rfl
  · rfl

theorem binaryResult_eq {f : CScriptNum → CScriptNum → CScriptNum} {bn1 bn2 : Int}
    (hop : binaryOpcode opcode = some f) (h1 : FourBytes bn1) (h2 : FourBytes bn2)
    : binaryResult opcode bn1 bn2 = .ok (f bn1 bn2) := by
  obtain ⟨hlo1, hhi1⟩ := h1
  obtain ⟨hlo2, hhi2⟩ := h2
  unfold binaryOpcode at hop
  split at hop <;> cases hop
  · exact int64_ok (by omega) (by omega)
  · exact int64_ok (by omega) (by omega)
  all_goals rfl

theorem evalUnary_eq {f : CScriptNum → CScriptNum} (hop : unaryOpcode opcode = some f)
    (fRequireMinimal : Bool) (s : EvalState) :
    evalUnary fRequireMinimal opcode s = toExit (Rcoin.evalUnary fRequireMinimal f s) := by
  obtain ⟨stack, altstack, vfExec, nOpCount, pbegincodehash⟩ := s
  rcases stack with _ | ⟨vch, stack⟩
  · rfl
  · show (scriptNum vch fRequireMinimal nDefaultMaxNumSize >>= _) = toExit (_ >>= _)
    rw [scriptNum_eq]
    refine toExit_bind_congr fun bn hbn => ?_
    show (unaryResult opcode bn >>= _) = _
    rw [unaryResult_eq hop (fourBytes_of_scriptNum hbn)]
    rfl

theorem evalBinary_eq {f : CScriptNum → CScriptNum → CScriptNum}
    (hop : binaryOpcode opcode = some f) (fRequireMinimal : Bool) (s : EvalState) :
    evalBinary fRequireMinimal opcode s = toExit (Rcoin.evalBinary fRequireMinimal opcode f s) := by
  obtain ⟨stack, altstack, vfExec, nOpCount, pbegincodehash⟩ := s
  rcases stack with _ | ⟨x2, _ | ⟨x1, stack⟩⟩
  · rfl
  · rfl
  · show (scriptNum x1 fRequireMinimal nDefaultMaxNumSize >>= _) = toExit (_ >>= _)
    rw [scriptNum_eq]
    refine toExit_bind_congr fun bn1 hbn1 => ?_
    show (scriptNum x2 fRequireMinimal nDefaultMaxNumSize >>= _) = toExit (_ >>= _)
    rw [scriptNum_eq]
    refine toExit_bind_congr fun bn2 hbn2 => ?_
    show (binaryResult opcode bn1 bn2 >>= _) = _
    rw [binaryResult_eq hop (fourBytes_of_scriptNum hbn1) (fourBytes_of_scriptNum hbn2)]
    show (if opcode = OP_NUMEQUALVERIFY then if castToBool (f bn1 bn2).getvch then _ else _
      else _) = toExit (if opcode = OP_NUMEQUALVERIFY then
        if castToBool (f bn1 bn2).getvch then _ else _ else _)
    split
    · cases castToBool (f bn1 bn2).getvch <;> rfl
    · rfl

theorem evalWithin_eq (fRequireMinimal : Bool) (s : EvalState) :
    evalWithin fRequireMinimal s = toExit (Rcoin.evalWithin fRequireMinimal s) := by
  obtain ⟨stack, altstack, vfExec, nOpCount, pbegincodehash⟩ := s
  rcases stack with _ | ⟨x3, _ | ⟨x2, _ | ⟨x1, stack⟩⟩⟩
  · rfl
  · rfl
  · rfl
  · show (scriptNum x1 fRequireMinimal nDefaultMaxNumSize >>= _) = toExit (_ >>= _)
    rw [scriptNum_eq]
    refine toExit_bind_congr fun bn1 _ => ?_
    show (scriptNum x2 fRequireMinimal nDefaultMaxNumSize >>= _) = toExit (_ >>= _)
    rw [scriptNum_eq]
    refine toExit_bind_congr fun bn2 _ => ?_
    show (scriptNum x3 fRequireMinimal nDefaultMaxNumSize >>= _) = toExit (_ >>= _)
    rw [scriptNum_eq]
    exact toExit_bind_congr fun bn3 _ => rfl

/-! ## Positions that are read from the stack -/

variable {stack : List Valtype} {i : Nat}

theorem le_length_of_le_sizeAsInt (h : (i : Int) ≤ sizeAsInt stack) : i ≤ stack.length := by
  rw [sizeAsInt, BitVec.toInt_eq_toNat_bmod, BitVec.toNat_ofNat, Int.bmod_def] at h
  split at h <;> omega

theorem sizeAsInt_eq (h : stack.length < 2 ^ 31) : sizeAsInt stack = stack.length := by
  rw [sizeAsInt, BitVec.toInt_eq_toNat_bmod, BitVec.toNat_ofNat, Int.bmod_def]
  split <;> omega

/-- Either the machine agrees with the lists, or the stack is too large for an `int`
    and the machine refuses the opcode. -/
def Agrees (s : EvalState) (x : Except ScriptExit α) (y : Except ScriptError α) : Prop :=
  x = toExit y ∨ (2 ^ 31 ≤ s.stack.length ∧ x = .error (.error .invalidStackOperation))

variable {s : EvalState}

theorem Agrees.bind {g : α → Except ScriptExit β} {f : α → Except ScriptError β}
    (h : ∀ a, x = .ok a → Agrees s (g a) (f a)) : Agrees s (toExit x >>= g) (x >>= f) := by
  cases x with
  | ok a => exact h a rfl
  | error e =>
    left
    cases e <;> rfl

theorem Agrees.ite {P : Prop} [Decidable P] {x x' : Costed ScriptExit α}
    {y y' : Except ScriptError α} (hpos : P → Agrees s x.result y)
    (hneg : ¬P → Agrees s x'.result y') :
    Agrees s (if P then x else x').result (if P then y else y') := by
  by_cases hP : P
  · rw [if_pos hP, if_pos hP]
    exact hpos hP
  · rw [if_neg hP, if_neg hP]
    exact hneg hP

variable {k : Nat}

theorem stacktop_eq (hk : k < stack.length) : stacktop stack (k + 1) = .ok (stack.getD k []) := by
  rw [stacktop, getD_eq_getElem?_getD, List.getElem?_eq_getElem hk]
  rfl

theorem erase_eq (hk : k < stack.length) : erase stack (k + 1) k = .ok (stack.eraseIdx k) := by
  rw [erase, if_pos ⟨Nat.le_succ k, hk⟩, eraseIdx_eq_take_drop_succ]

theorem evalPick_agrees (fRequireMinimal : Bool) (opcode : Opcodetype) (s : EvalState) :
    Agrees s (evalPick fRequireMinimal opcode s) (Rcoin.evalPick fRequireMinimal opcode s) := by
  obtain ⟨stack, altstack, vfExec, nOpCount, pbegincodehash⟩ := s
  rcases stack with _ | ⟨top, _ | ⟨x0, rest⟩⟩
  · exact .inl rfl
  · exact .inl rfl
  · show Agrees _ (scriptNum top fRequireMinimal nDefaultMaxNumSize >>= _) (_ >>= _)
    rw [scriptNum_eq]
    refine Agrees.bind fun bn _ => ?_
    show Agrees _ (failIf (bn.getint < 0 || bn.getint ≥ sizeAsInt (x0 :: rest)) _ >>= _)
      (failIf (bn.getint < 0 || bn.getint ≥ ((x0 :: rest).length : Int)) _ >>= _)
    generalize bn.getint = n
    cases hout : (decide (n < 0) || decide (n ≥ sizeAsInt (x0 :: rest))) with
    | true =>
      by_cases hlarge : 2 ^ 31 ≤ (x0 :: rest).length
      · exact .inr ⟨hlarge.trans (Nat.le_succ _), rfl⟩
      · rw [sizeAsInt_eq (Nat.not_le.mp hlarge)] at hout
        rw [hout]
        exact .inl rfl
    | false =>
      rw [Bool.or_eq_false_iff, decide_eq_false_iff_not, decide_eq_false_iff_not] at hout
      obtain ⟨hneg, hsize⟩ := hout
      obtain ⟨k, rfl⟩ := Int.eq_ofNat_of_zero_le (Int.not_lt.mp hneg)
      have hk : k + 1 ≤ (x0 :: rest).length := le_length_of_le_sizeAsInt (by omega)
      have hin : (decide ((k : Int) < 0) || decide ((k : Int) ≥ ((x0 :: rest).length : Int))) =
          false := by
        rw [Bool.or_eq_false_iff, decide_eq_false_iff_not, decide_eq_false_iff_not]
        omega
      left
      rw [hin]
      show (stacktop (x0 :: rest) (k + 1) >>= _) = _
      rw [stacktop_eq hk]
      show (if opcode = OP_ROLL then erase (x0 :: rest) (k + 1) k >>= _ else _) =
        toExit (pure _)
      rw [erase_eq hk]
      split <;> rfl

/-! ## Opcodes that look at the flags -/

section

variable (ctx : EvalContext) (flags : UInt32)

theorem checkLockTimeVerify_eq (s : EvalState) :
    checkLockTimeVerify ctx flags s = toExit (Rcoin.checkLockTimeVerify ctx flags s) := by
  obtain ⟨stack, altstack, vfExec, nOpCount, pbegincodehash⟩ := s
  unfold checkLockTimeVerify Rcoin.checkLockTimeVerify
  split
  · rfl
  · rcases stack with _ | ⟨vch, stack⟩
    · rfl
    · show (scriptNum vch (requireMinimal flags) 5 >>= _) = toExit (_ >>= _)
      rw [scriptNum_eq]
      refine toExit_bind_congr fun nLockTime _ => ?_
      refine failIf_bind_congr (by decide) fun _ => ?_
      exact failIf_bind_congr (by decide) fun _ => rfl

theorem checkSequenceVerify_eq (s : EvalState) :
    checkSequenceVerify ctx flags s = toExit (Rcoin.checkSequenceVerify ctx flags s) := by
  obtain ⟨stack, altstack, vfExec, nOpCount, pbegincodehash⟩ := s
  unfold checkSequenceVerify Rcoin.checkSequenceVerify
  split
  · rfl
  · rcases stack with _ | ⟨vch, stack⟩
    · rfl
    · show (scriptNum vch (requireMinimal flags) 5 >>= _) = toExit (_ >>= _)
      rw [scriptNum_eq]
      refine toExit_bind_congr fun nSequence _ => ?_
      refine failIf_bind_congr (by decide) fun _ => ?_
      split
      · rfl
      · exact failIf_bind_congr (by decide) fun _ => rfl

theorem evalIf_eq (fExec : Bool) (opcode : Opcodetype) (s : EvalState) :
    evalIf ctx flags fExec opcode s = toExit (Rcoin.evalIf ctx flags fExec opcode s) := by
  obtain ⟨stack, altstack, vfExec, nOpCount, pbegincodehash⟩ := s
  cases fExec with
  | false => rfl
  | true =>
    rcases stack with _ | ⟨vch, stack⟩
    · rfl
    · have hne : ScriptError.minimalIf ≠ .unknownError := by decide
      refine failIf_bind_congr hne fun _ => ?_
      exact failIf_bind_congr hne fun _ => rfl

/-! ## Signatures -/

theorem checkSignatureEncoding_eq (vchSig : Valtype) :
    (checkSignatureEncoding vchSig flags).mapError ScriptExit.error =
      toExit (checkSignatureEncoding vchSig flags) := by
  rw [checkSignatureEncoding]
  split
  · rfl
  · rw [toExit_failIf (by decide)]
    cases hasFlag flags SCRIPT_VERIFY_STRICTENC && !isDefinedHashtypeSignature vchSig <;> rfl

theorem checkPubKeyEncoding_eq (vchPubKey : Valtype) (sigversion : SigVersion) :
    (checkPubKeyEncoding vchPubKey flags sigversion).mapError ScriptExit.error =
      toExit (checkPubKeyEncoding vchPubKey flags sigversion) := by
  rw [checkPubKeyEncoding]
  cases hasFlag flags SCRIPT_VERIFY_STRICTENC && !isCompressedOrUncompressedPubKey vchPubKey with
  | true => rfl
  | false =>
    cases hasFlag flags SCRIPT_VERIFY_WITNESS_PUBKEYTYPE && sigversion == .witnessV0 &&
      !isCompressedPubKey vchPubKey <;> rfl

theorem checkEncodings_bind_congr {vchSig vchPubKey : Valtype} {f : Except ScriptError β}
    (h : g ⟨⟩ = toExit f) : (checkEncodings ctx flags vchSig vchPubKey >>= g) =
      toExit (checkSignatureEncoding vchSig flags >>= fun _ =>
        checkPubKeyEncoding vchPubKey flags ctx.sigversion >>= fun _ => f) := by
  rw [checkEncodings, checkSignatureEncoding_eq, checkPubKeyEncoding_eq]
  cases checkSignatureEncoding vchSig flags with
  | error e => cases e <;> rfl
  | ok _ =>
    cases checkPubKeyEncoding vchPubKey flags ctx.sigversion with
    | error e => cases e <;> rfl
    | ok _ => exact h

theorem evalCheckSig_eq (opcode : Opcodetype) (s : EvalState) :
    (evalCheckSig ctx flags opcode s).result =
      toExit (Rcoin.evalCheckSig ctx flags opcode s) := by
  obtain ⟨stack, altstack, vfExec, nOpCount, pbegincodehash⟩ := s
  rcases stack with _ | ⟨vchPubKey, _ | ⟨vchSig, stack⟩⟩
  · rfl
  · rfl
  · rw [evalCheckSig]
    simp only [result_bind, result_liftM, result_call]
    show (checkEncodings ctx flags vchSig vchPubKey >>= _) =
      toExit (_ >>= fun _ => _ >>= fun _ => _)
    refine checkEncodings_bind_congr ctx flags ?_
    have hne : ScriptError.sigNullFail ≠ .unknownError := by decide
    refine failIf_bind_congr hne fun _ => ?_
    show (if opcode = OP_CHECKSIGVERIFY then _ else _) =
      toExit (if opcode = OP_CHECKSIGVERIFY then _ else _)
    split
    · cases ctx.checker.checkSig vchSig vchPubKey _ ctx.sigversion <;> rfl
    · rfl

/-! ## Multisig -/

theorem mapM_eq_ok {γ ε : Type} {f : γ → Except ε α} {g : γ → α} {l : List γ}
    (h : ∀ a ∈ l, f a = .ok (g a)) : l.mapM f = .ok (l.map g) := by
  induction l with
  | nil => rfl
  | cons a l ih =>
    rw [mapM_cons, h a mem_cons_self, ih fun b hb => h b (mem_cons_of_mem _ hb)]
    rfl

theorem take_drop_succ (n : Nat) (hk : k < stack.length) :
    (stack.drop k).take (n + 1) = stack.getD k [] :: (stack.drop (k + 1)).take n := by
  rw [drop_eq_getElem_cons hk, take_succ_cons, getD_eq_getElem?_getD,
    List.getElem?_eq_getElem hk]
  rfl

theorem multisigSigs_eq {n : Nat} (h : i + n ≤ stack.length) :
    multisigSigs stack (i + 1) n = .ok ((stack.drop i).take n) := by
  have hread : ∀ k ∈ List.range n, stacktop stack (i + 1 + k) = .ok (stack.getD (i + k) []) := by
    intro k hk
    have hlt := mem_range.mp hk
    rw [Nat.add_right_comm, stacktop_eq (by omega)]
  rw [multisigSigs, mapM_eq_ok hread]
  congr 1
  induction n generalizing i with
  | zero => rw [take_zero]; rfl
  | succ n ih =>
    have hrest := ih (i := i + 1) (by omega) fun k hk => by
      have hlt := mem_range.mp hk
      rw [Nat.add_right_comm, stacktop_eq (by omega)]
    rw [take_drop_succ n (by omega), ← hrest, range_succ_eq_map, map_cons, map_map]
    congr 1
    apply map_congr_left
    intro k _
    show stack.getD (i + (k + 1)) [] = stack.getD (i + 1 + k) []
    congr 1
    omega

theorem multisigLoop_eq (code : CScript) {nKeys nSigs : Nat} (hsigs : i + nSigs ≤ stack.length)
    (hkeys : k + nKeys ≤ stack.length) (hle : nSigs ≤ nKeys) :
    (multisigLoop ctx flags code stack nKeys nSigs (i + 1) (k + 1)).result =
      toExit (Rcoin.multisigLoop ctx flags code ((stack.drop k).take nKeys)
        ((stack.drop i).take nSigs)) := by
  induction nKeys generalizing nSigs i k with
  | zero =>
    obtain rfl := Nat.le_zero.mp hle
    rw [take_zero, take_zero, multisigLoop, Rcoin.multisigLoop]
    rfl
  | succ nKeys ih =>
    cases nSigs with
    | zero =>
      rw [take_zero, multisigLoop, Rcoin.multisigLoop]
      rfl
    | succ nSigs =>
      have hlenSigs : ((stack.drop (i + 1)).take nSigs).length = nSigs := by
        rw [length_take_of_le]
        rw [length_drop]
        omega
      have hlenKeys : ((stack.drop (k + 1)).take nKeys).length = nKeys := by
        rw [length_take_of_le]
        rw [length_drop]
        omega
      rw [take_drop_succ nKeys (by omega), take_drop_succ nSigs (by omega), multisigLoop,
        Rcoin.multisigLoop]
      simp only [multisigRound, result_bind, result_liftM, result_call,
        stacktop_eq (by omega : i < stack.length), stacktop_eq (by omega : k < stack.length),
        hlenKeys]
      show ((checkEncodings ctx flags (stack.getD i []) (stack.getD k []) >>= fun _ => _) >>= _) = _
      rw [bind_assoc]
      refine checkEncodings_bind_congr ctx flags ?_
      generalize ctx.checker.checkSig (stack.getD i []) (stack.getD k []) code ctx.sigversion = fOk
      cases fOk with
      | true =>
        -- the signature and the key are used up
        show Costed.result (if nSigs > nKeys then _ else _) =
          toExit (if ((stack.drop (i + 1)).take nSigs).length > nKeys then _ else _)
        rw [hlenSigs]
        split
        · rfl
        · exact ih (by omega) (by omega) (by omega)
      | false =>
        -- the key is
        show Costed.result (if nSigs + 1 > nKeys then _ else _) = toExit
          (if (stack.getD i [] :: (stack.drop (i + 1)).take nSigs).length > nKeys then _ else _)
        rw [length_cons, hlenSigs]
        split
        · rfl
        · show _ = toExit (Rcoin.multisigLoop ctx flags code _
            (stack.getD i [] :: (stack.drop (i + 1)).take nSigs))
          rw [← take_drop_succ nSigs (by omega)]
          exact ih (by omega) (by omega) (by omega)

theorem multisigCleanup_eq (fSuccess : Bool) {ikey2 : Nat} (h : i ≤ stack.length)
    : multisigCleanup flags fSuccess i ikey2 stack =
      toExit (Rcoin.multisigCleanup flags fSuccess i ikey2 stack) := by
  induction i generalizing ikey2 stack with
  | zero => cases stack <;> rfl
  | succ i ih =>
    cases stack with
    | nil => cases h
    | cons vch stack =>
      rw [length_cons] at h
      rw [multisigCleanup, Rcoin.multisigCleanup]
      cases hcheck : (!fSuccess && hasFlag flags SCRIPT_VERIFY_NULLFAIL && ikey2 == 0) with
      | true =>
        show (failIf (!vch.isEmpty) _ >>= fun _ =>
          multisigCleanup flags fSuccess i (ikey2 - 1) stack) = _
        rw [Bool.true_and]
        exact failIf_bind_congr (by decide) fun _ => ih (by omega)
      | false => exact ih (by omega)

theorem multisigResult_eq (opcode : Opcodetype) (fSuccess : Bool) (s : EvalState)
    (stack : List Valtype) : multisigResult flags opcode fSuccess s stack =
      toExit (Rcoin.multisigResult flags opcode fSuccess s stack) := by
  cases stack with
  | nil => rfl
  | cons dummy stack =>
    rw [multisigResult, Rcoin.multisigResult]
    cases hasFlag flags SCRIPT_VERIFY_NULLDUMMY with
    | true =>
      show (failIf (!dummy.isEmpty) _ >>= fun _ =>
          if opcode = OP_CHECKMULTISIGVERIFY then _ else _) =
        _
      rw [Bool.true_and]
      refine failIf_bind_congr (by decide) fun _ => ?_
      split
      · cases fSuccess <;> rfl
      · rfl
    | false =>
      show (if opcode = OP_CHECKMULTISIGVERIFY then _ else _) =
        toExit (if opcode = OP_CHECKMULTISIGVERIFY then _ else _)
      split
      · cases fSuccess <;> rfl
      · rfl

theorem Agrees.size {n : Nat} (hstack : s.stack = stack)
    (h : n ≤ stack.length → Agrees s (g ⟨⟩) (f ⟨⟩)) :
    Agrees s (failIf (sizeAsInt stack < (n : Int)) (.error .invalidStackOperation) >>= g)
      (failIf (stack.length < n) .invalidStackOperation >>= f) := by
  cases hsize : decide (sizeAsInt stack < (n : Int)) with
  | true =>
    by_cases hlarge : 2 ^ 31 ≤ stack.length
    · exact .inr ⟨by rwa [hstack], rfl⟩
    · have hlt := of_decide_eq_true hsize
      rw [sizeAsInt_eq (Nat.not_le.mp hlarge)] at hlt
      left
      rw [decide_eq_true (by omega : stack.length < n)]
      rfl
  | false =>
    have hle : n ≤ stack.length :=
      le_length_of_le_sizeAsInt (Int.not_lt.mp (of_decide_eq_false hsize))
    rw [decide_eq_false (by omega : ¬stack.length < n)]
    exact h hle

theorem Agrees.failIf (he : e ≠ .unknownError) (h : c = false → Agrees s (g ⟨⟩) (f ⟨⟩)) :
    Agrees s (Fallible.failIf c (.error e) >>= g) (Fallible.failIf c e >>= f) := by
  rw [← toExit_failIf he]
  exact Agrees.bind fun _ hok => h (failIf_eq_ok.mp hok)

theorem evalCheckMultisig_agrees (opcode : Opcodetype) (s : EvalState) :
    Agrees s (evalCheckMultisig ctx flags opcode s).result
      (Rcoin.evalCheckMultisig ctx flags opcode s) := by
  rw [evalCheckMultisig, Rcoin.evalCheckMultisig]
  simp only [result_bind, result_liftM, multisigCounts, bind_assoc, pure_bind]
  refine Agrees.size (n := 1) rfl fun hone => ?_
  rw [stacktop_eq (by omega : 0 < s.stack.length)]
  show Agrees s (scriptNum (s.stack.getD 0 []) _ _ >>= _) (_ >>= _)
  rw [scriptNum_eq]
  refine Agrees.bind fun keysCount _ => ?_
  refine Agrees.failIf (by decide) fun hkeys => ?_
  refine Agrees.failIf (by decide) fun _ => ?_
  refine Agrees.size rfl fun htwo => ?_
  rw [stacktop_eq htwo]
  show Agrees s (scriptNum (s.stack.getD (keysCount.getint.toNat + 1) []) _ _ >>= _) (_ >>= _)
  rw [scriptNum_eq]
  refine Agrees.bind fun sigsCount _ => ?_
  refine Agrees.failIf (by decide) fun hsigs => ?_
  refine Agrees.size rfl fun hthree => ?_
  rw [Bool.or_eq_false_iff, decide_eq_false_iff_not, decide_eq_false_iff_not] at hsigs
  have hle : sigsCount.getint.toNat ≤ keysCount.getint.toNat := by omega
  have hthree' : keysCount.getint.toNat + sigsCount.getint.toNat + 3 ≤ s.stack.length := hthree
  -- both loops run over the same keys and signatures
  show Agrees s (multisigSigs s.stack (keysCount.getint.toNat + 2 + 1) _ >>= _) _
  rw [multisigSigs_eq (by omega)]
  left
  show (Costed.result (multisigLoop ctx flags _ s.stack keysCount.getint.toNat
    sigsCount.getint.toNat (keysCount.getint.toNat + 2 + 1) (1 + 1)) >>= _) = _
  rw [multisigLoop_eq ctx flags _ (by omega) (by omega) hle]
  refine toExit_bind_congr fun fSuccess _ => ?_
  rw [multisigCleanup_eq flags fSuccess (by show _ ≤ s.stack.length; omega)]
  exact toExit_bind_congr fun stack _ => multisigResult_eq flags opcode fSuccess _ stack

end

end Machine

end Rcoin
