/-
  `EvalScript` (src/script/interpreter.cpp) with all the ways it can stop: where it
  reads a stack by position, pops, erases and inserts, and where it asserts.

  Stacks are lists with the top first, so `stacktop(-k)` is the element at `k - 1`.
-/
import Rcoin.Lib.Costed
import Rcoin.Script.Interpreter

namespace Rcoin

open Fallible

/-- How a run of `EvalScript` stops before its end. -/
inductive ScriptExit where
  /-- `return set_error(serror, ...)`. -/
  | error (serror : ScriptError)
  /-- `scriptnum_error` is thrown. -/
  | scriptNum
  /-- `std::out_of_range` is thrown by `at`. -/
  | outOfRange
  /-- `popstack` throws. -/
  | stackEmpty
  /-- An `assert` fails. -/
  | assertion
  /-- A vector is changed outside its range, or a signed number overflows. -/
  | undefined
  deriving DecidableEq

namespace Machine

/-! ## The stack -/

def stacktop (stack : List Valtype) : Nat → Except ScriptExit Valtype
  | 0 => .error .outOfRange
  | k + 1 =>
    match stack[k]? with
    | some vch => .ok vch
    | none => .error .outOfRange

def popstack : List Valtype → Except ScriptExit (List Valtype)
  | [] => .error .stackEmpty
  | _ :: stack => .ok stack

/-- `stack.erase(stack.end()-first, stack.end()-last)`. -/
def erase (stack : List Valtype) (first last : Nat) : Except ScriptExit (List Valtype) :=
  if last ≤ first ∧ first ≤ stack.length then .ok (stack.take last ++ stack.drop first)
  else .error .undefined

/-- `stack.insert(stack.end()-k, vch)`. -/
def insert (stack : List Valtype) (k : Nat) (vch : Valtype) : Except ScriptExit (List Valtype) :=
  if k ≤ stack.length then .ok (stack.take k ++ vch :: stack.drop k) else .error .undefined

/-- `swap(stacktop(-j), stacktop(-k))`. -/
def swap (stack : List Valtype) (j k : Nat) : Except ScriptExit (List Valtype) := do
  let x ← stacktop stack j
  let y ← stacktop stack k
  return (stack.set (j - 1) y).set (k - 1) x

/-- `(int)stack.size()`. -/
def sizeAsInt (stack : List Valtype) : Int := (BitVec.ofNat 32 stack.length).toInt

/-! ## Numbers -/

def int64Max : Int := 2 ^ 63 - 1

def int64Min : Int := -2 ^ 63

/-- The constructor from bytes. -/
def scriptNum (vch : Valtype) (fRequireMinimal : Bool) (nMaxNumSize : Nat) :
    Except ScriptExit CScriptNum := do
  failIf (vch.length > nMaxNumSize) .scriptNum
  failIf (fRequireMinimal && !isMinimallyEncoded vch) .scriptNum
  return setVch vch

/-- A result of signed arithmetic. -/
def int64 (n : Int) : Except ScriptExit CScriptNum :=
  if int64Min ≤ n ∧ n ≤ int64Max then .ok n else .error .undefined

/-- `operator+=`. -/
def addAssign (m rhs : CScriptNum) : Except ScriptExit CScriptNum :=
  if rhs = 0 ∨ (rhs > 0 ∧ m ≤ int64Max - rhs) ∨ (rhs < 0 ∧ m ≥ int64Min - rhs) then int64 (m + rhs)
  else .error .assertion

/-- `operator-=`. -/
def subAssign (m rhs : CScriptNum) : Except ScriptExit CScriptNum :=
  if rhs = 0 ∨ (rhs > 0 ∧ m ≥ int64Min + rhs) ∨ (rhs < 0 ∧ m ≤ int64Max + rhs) then int64 (m - rhs)
  else .error .assertion

/-- The unary `operator-`. -/
def negate (m : CScriptNum) : Except ScriptExit CScriptNum :=
  if m ≠ int64Min then int64 (-m) else .error .assertion

/-! ## Opcodes -/

/-- `return set_error(serror, ...)`. -/
def setError {α : Type} (serror : ScriptError) : Except ScriptExit α := .error (.error serror)

/-- `if (stack.size() < n) return set_error(...)`. -/
def requireSize (stack : List Valtype) (n : Nat) (serror : ScriptError) :
    Except ScriptExit Unit :=
  failIf (stack.length < n) (.error serror)

/-- The stack operations. -/
def stackOpcode (opcode : Opcodetype) (stack : List Valtype) :
    Option (Except ScriptExit (List Valtype)) :=
  match opcode with
  | OP_NOP => some (.ok stack)
  | OP_VERIFY => some do
    requireSize stack 1 .invalidStackOperation
    let fValue := castToBool (← stacktop stack 1)
    if fValue then popstack stack else setError .verify
  | OP_RETURN => some (setError .opReturn)
  | OP_2DROP => some do
    requireSize stack 2 .invalidStackOperation
    popstack (← popstack stack)
  | OP_2DUP => some do
    requireSize stack 2 .invalidStackOperation
    let vch1 ← stacktop stack 2
    let vch2 ← stacktop stack 1
    return vch2 :: vch1 :: stack
  | OP_3DUP => some do
    requireSize stack 3 .invalidStackOperation
    let vch1 ← stacktop stack 3
    let vch2 ← stacktop stack 2
    let vch3 ← stacktop stack 1
    return vch3 :: vch2 :: vch1 :: stack
  | OP_2OVER => some do
    requireSize stack 4 .invalidStackOperation
    let vch1 ← stacktop stack 4
    let vch2 ← stacktop stack 3
    return vch2 :: vch1 :: stack
  | OP_2ROT => some do
    requireSize stack 6 .invalidStackOperation
    let vch1 ← stacktop stack 6
    let vch2 ← stacktop stack 5
    let stack ← erase stack 6 4
    return vch2 :: vch1 :: stack
  | OP_2SWAP => some do
    requireSize stack 4 .invalidStackOperation
    let stack ← swap stack 4 2
    swap stack 3 1
  | OP_IFDUP => some do
    requireSize stack 1 .invalidStackOperation
    let vch ← stacktop stack 1
    return if castToBool vch then vch :: stack else stack
  | OP_DEPTH => some (.ok (CScriptNum.getvch stack.length :: stack))
  | OP_DROP => some do
    requireSize stack 1 .invalidStackOperation
    popstack stack
  | OP_DUP => some do
    requireSize stack 1 .invalidStackOperation
    let vch ← stacktop stack 1
    return vch :: stack
  | OP_NIP => some do
    requireSize stack 2 .invalidStackOperation
    erase stack 2 1
  | OP_OVER => some do
    requireSize stack 2 .invalidStackOperation
    let vch ← stacktop stack 2
    return vch :: stack
  | OP_ROT => some do
    requireSize stack 3 .invalidStackOperation
    let stack ← swap stack 3 2
    swap stack 2 1
  | OP_SWAP => some do
    requireSize stack 2 .invalidStackOperation
    swap stack 2 1
  | OP_TUCK => some do
    requireSize stack 2 .invalidStackOperation
    let vch ← stacktop stack 1
    insert stack 2 vch
  | OP_SIZE => some do
    requireSize stack 1 .invalidStackOperation
    let vch ← stacktop stack 1
    return CScriptNum.getvch vch.length :: stack
  | OP_EQUAL => some do
    requireSize stack 2 .invalidStackOperation
    let vch1 ← stacktop stack 2
    let vch2 ← stacktop stack 1
    let stack ← popstack (← popstack stack)
    return ofBool (vch1 == vch2) :: stack
  | OP_EQUALVERIFY => some do
    requireSize stack 2 .invalidStackOperation
    let vch1 ← stacktop stack 2
    let vch2 ← stacktop stack 1
    let stack ← popstack (← popstack stack)
    let stack := ofBool (vch1 == vch2) :: stack
    if vch1 == vch2 then popstack stack else setError .equalVerify
  | _ => none

/-- The opcodes whose effect depends neither on the flags nor on a number. -/
def plainOpcode (hashes : ScriptHashes) (opcode : Opcodetype) (pc : CScript) (s : EvalState) :
    Except ScriptExit EvalState :=
  if opcode = OP_1NEGATE ∨ (OP_1 ≤ opcode ∧ opcode ≤ OP_16) then
    .ok { s with stack := CScriptNum.getvch (opcode.toNat - (OP_1.toNat - 1)) :: s.stack }
  else if opcode = OP_ELSE then
    match s.vfExec with
    | [] => setError .unbalancedConditional
    | back :: vfExec => .ok { s with vfExec := (!back) :: vfExec }
  else if opcode = OP_ENDIF then
    match s.vfExec with
    | [] => setError .unbalancedConditional
    | _ :: vfExec => .ok { s with vfExec := vfExec }
  else if opcode = OP_TOALTSTACK then do
    requireSize s.stack 1 .invalidStackOperation
    let vch ← stacktop s.stack 1
    let stack ← popstack s.stack
    return { s with stack := stack, altstack := vch :: s.altstack }
  else if opcode = OP_FROMALTSTACK then do
    requireSize s.altstack 1 .invalidAltstackOperation
    let vch ← stacktop s.altstack 1
    let altstack ← popstack s.altstack
    return { s with stack := vch :: s.stack, altstack := altstack }
  else if opcode = OP_CODESEPARATOR then
    .ok { s with pbegincodehash := pc }
  else
    match hashOpcode hashes opcode with
    | some hash => do
      requireSize s.stack 1 .invalidStackOperation
      let vch ← stacktop s.stack 1
      let stack ← popstack s.stack
      return { s with stack := hash vch :: stack }
    | none =>
      match stackOpcode opcode s.stack with
      | some result => result.map fun stack => { s with stack := stack }
      | none => setError .badOpcode

/-- `bn` changed by a unary opcode; another one is an assertion. -/
def unaryResult (opcode : Opcodetype) (bn : CScriptNum) : Except ScriptExit CScriptNum :=
  match opcode with
  | OP_1ADD => addAssign bn 1
  | OP_1SUB => subAssign bn 1
  | OP_NEGATE => negate bn
  | OP_ABS => if bn < 0 then negate bn else .ok bn
  | OP_NOT => .ok (.ofBool (bn == 0))
  | OP_0NOTEQUAL => .ok (.ofBool (bn != 0))
  | _ => .error .assertion

/-- `bn` of a binary opcode; another one is an assertion. -/
def binaryResult (opcode : Opcodetype) (bn1 bn2 : CScriptNum) : Except ScriptExit CScriptNum :=
  match opcode with
  | OP_ADD => int64 (bn1 + bn2)
  | OP_SUB => int64 (bn1 - bn2)
  | OP_BOOLAND => .ok (.ofBool (bn1 != 0 && bn2 != 0))
  | OP_BOOLOR => .ok (.ofBool (bn1 != 0 || bn2 != 0))
  | OP_NUMEQUAL => .ok (.ofBool (bn1 == bn2))
  | OP_NUMEQUALVERIFY => .ok (.ofBool (bn1 == bn2))
  | OP_NUMNOTEQUAL => .ok (.ofBool (bn1 != bn2))
  | OP_LESSTHAN => .ok (.ofBool (bn1 < bn2))
  | OP_GREATERTHAN => .ok (.ofBool (bn1 > bn2))
  | OP_LESSTHANOREQUAL => .ok (.ofBool (bn1 ≤ bn2))
  | OP_GREATERTHANOREQUAL => .ok (.ofBool (bn1 ≥ bn2))
  | OP_MIN => .ok (if bn1 < bn2 then bn1 else bn2)
  | OP_MAX => .ok (if bn1 > bn2 then bn1 else bn2)
  | _ => .error .assertion

def isUnaryOpcode (opcode : Opcodetype) : Bool :=
  [OP_1ADD, OP_1SUB, OP_NEGATE, OP_ABS, OP_NOT, OP_0NOTEQUAL].contains opcode

def isBinaryOpcode (opcode : Opcodetype) : Bool :=
  [OP_ADD, OP_SUB, OP_BOOLAND, OP_BOOLOR, OP_NUMEQUAL, OP_NUMEQUALVERIFY, OP_NUMNOTEQUAL,
    OP_LESSTHAN, OP_GREATERTHAN, OP_LESSTHANOREQUAL, OP_GREATERTHANOREQUAL, OP_MIN,
    OP_MAX].contains opcode

def evalUnary (fRequireMinimal : Bool) (opcode : Opcodetype) (s : EvalState) :
    Except ScriptExit EvalState := do
  requireSize s.stack 1 .invalidStackOperation
  let bn ← scriptNum (← stacktop s.stack 1) fRequireMinimal nDefaultMaxNumSize
  let bn ← unaryResult opcode bn
  let stack ← popstack s.stack
  return { s with stack := bn.getvch :: stack }

def evalBinary (fRequireMinimal : Bool) (opcode : Opcodetype) (s : EvalState) :
    Except ScriptExit EvalState := do
  requireSize s.stack 2 .invalidStackOperation
  let bn1 ← scriptNum (← stacktop s.stack 2) fRequireMinimal nDefaultMaxNumSize
  let bn2 ← scriptNum (← stacktop s.stack 1) fRequireMinimal nDefaultMaxNumSize
  let bn ← binaryResult opcode bn1 bn2
  let stack ← popstack (← popstack s.stack)
  let stack := bn.getvch :: stack
  if opcode = OP_NUMEQUALVERIFY then
    if castToBool (← stacktop stack 1) then return { s with stack := ← popstack stack }
    else setError .numEqualVerify
  else return { s with stack := stack }

def evalWithin (fRequireMinimal : Bool) (s : EvalState) : Except ScriptExit EvalState := do
  requireSize s.stack 3 .invalidStackOperation
  let bn1 ← scriptNum (← stacktop s.stack 3) fRequireMinimal nDefaultMaxNumSize
  let bn2 ← scriptNum (← stacktop s.stack 2) fRequireMinimal nDefaultMaxNumSize
  let bn3 ← scriptNum (← stacktop s.stack 1) fRequireMinimal nDefaultMaxNumSize
  let fValue := bn2 ≤ bn1 && bn1 < bn3
  let stack ← popstack (← popstack (← popstack s.stack))
  return { s with stack := ofBool fValue :: stack }

/-- `OP_PICK` and `OP_ROLL`. -/
def evalPick (fRequireMinimal : Bool) (opcode : Opcodetype) (s : EvalState) :
    Except ScriptExit EvalState := do
  requireSize s.stack 2 .invalidStackOperation
  let bn ← scriptNum (← stacktop s.stack 1) fRequireMinimal nDefaultMaxNumSize
  let n := bn.getint
  let stack ← popstack s.stack
  failIf (n < 0 || n ≥ sizeAsInt stack) (.error .invalidStackOperation)
  let vch ← stacktop stack (n.toNat + 1)
  if opcode = OP_ROLL then
    let stack ← erase stack (n.toNat + 1) n.toNat
    return { s with stack := vch :: stack }
  else return { s with stack := vch :: stack }

section

variable (ctx : EvalContext) (flags : UInt32)

def checkLockTimeVerify (s : EvalState) : Except ScriptExit EvalState :=
  if !hasFlag flags SCRIPT_VERIFY_CHECKLOCKTIMEVERIFY then .ok s
  else do
    requireSize s.stack 1 .invalidStackOperation
    let nLockTime ← scriptNum (← stacktop s.stack 1) (requireMinimal flags) 5
    failIf (nLockTime < 0) (.error .negativeLocktime)
    failIf (!ctx.checker.checkLockTime nLockTime) (.error .unsatisfiedLocktime)
    return s

def checkSequenceVerify (s : EvalState) : Except ScriptExit EvalState :=
  if !hasFlag flags SCRIPT_VERIFY_CHECKSEQUENCEVERIFY then .ok s
  else do
    requireSize s.stack 1 .invalidStackOperation
    let nSequence ← scriptNum (← stacktop s.stack 1) (requireMinimal flags) 5
    failIf (nSequence < 0) (.error .negativeLocktime)
    if sequenceLocktimeDisabled nSequence then return s
    failIf (!ctx.checker.checkSequence nSequence) (.error .unsatisfiedLocktime)
    return s

/-- `OP_IF` and `OP_NOTIF`. -/
def evalIf (fExec : Bool) (opcode : Opcodetype) (s : EvalState) : Except ScriptExit EvalState :=
  if fExec then do
    requireSize s.stack 1 .unbalancedConditional
    let vch ← stacktop s.stack 1
    let minimalIf := ctx.sigversion == .witnessV0 && hasFlag flags SCRIPT_VERIFY_MINIMALIF
    failIf (minimalIf && vch.length > 1) (.error .minimalIf)
    failIf (minimalIf && vch.length == 1 && vch.getD 0 0 != 1) (.error .minimalIf)
    let fValue := if opcode = OP_NOTIF then !castToBool vch else castToBool vch
    let stack ← popstack s.stack
    return { s with stack := stack, vfExec := fValue :: s.vfExec }
  else .ok { s with vfExec := false :: s.vfExec }

/-- `CheckSignatureEncoding` and `CheckPubKeyEncoding`, which set the error themselves. -/
def checkEncodings (vchSig vchPubKey : Valtype) : Except ScriptExit Unit := do
  (checkSignatureEncoding vchSig flags).mapError .error
  (checkPubKeyEncoding vchPubKey flags ctx.sigversion).mapError .error

/-- What `OP_CHECKSIG` does with the result. -/
def checkSigResult (opcode : Opcodetype) (fSuccess : Bool) (vchSig : Valtype) (s : EvalState) :
    Except ScriptExit EvalState := do
  failIf (!fSuccess && hasFlag flags SCRIPT_VERIFY_NULLFAIL && !vchSig.isEmpty)
    (.error .sigNullFail)
  let stack ← popstack (← popstack s.stack)
  let stack := ofBool fSuccess :: stack
  if opcode = OP_CHECKSIGVERIFY then
    if fSuccess then return { s with stack := ← popstack stack } else setError .checkSigVerify
  else return { s with stack := stack }

/-- `OP_CHECKSIG` and `OP_CHECKSIGVERIFY`. -/
def evalCheckSig (opcode : Opcodetype) (s : EvalState) : Costed ScriptExit EvalState := do
  requireSize s.stack 2 .invalidStackOperation
  let vchSig ← stacktop s.stack 2
  let vchPubKey ← stacktop s.stack 1
  checkEncodings ctx flags vchSig vchPubKey
  let fSuccess ← Costed.call
    (ctx.checker.checkSig vchSig vchPubKey (scriptCode ctx s [vchSig]) ctx.sigversion)
  checkSigResult flags opcode fSuccess vchSig s

/-- The signatures that are dropped from the script, `stacktop(-isig-k)`. -/
def multisigSigs (stack : List Valtype) (isig nSigsCount : Nat) :
    Except ScriptExit (List Valtype) :=
  (List.range nSigsCount).mapM fun k => stacktop stack (isig + k)

/-- A pass of the loop of `OP_CHECKMULTISIG`: whether the signature verifies. -/
def multisigRound (code : CScript) (stack : List Valtype) (isig ikey : Nat) :
    Costed ScriptExit Bool := do
  let vchSig ← stacktop stack isig
  let vchPubKey ← stacktop stack ikey
  checkEncodings ctx flags vchSig vchPubKey
  Costed.call (ctx.checker.checkSig vchSig vchPubKey code ctx.sigversion)

/-- The loop, on `nKeysCount` and `nSigsCount`; after a pass without a key left there are
    more signatures than keys, whatever the pass gave. -/
def multisigLoop (code : CScript) (stack : List Valtype) :
    Nat → Nat → Nat → Nat → Costed ScriptExit Bool
  | _, 0, _, _ => pure true
  | 0, _ + 1, isig, ikey => do
    let _ ← multisigRound ctx flags code stack isig ikey
    pure false
  | nKeysCount + 1, nSigsCount + 1, isig, ikey => do
    let fOk ← multisigRound ctx flags code stack isig ikey
    if fOk then
      if nSigsCount > nKeysCount then pure false
      else multisigLoop code stack nKeysCount nSigsCount (isig + 1) (ikey + 1)
    else
      if nSigsCount + 1 > nKeysCount then pure false
      else multisigLoop code stack nKeysCount (nSigsCount + 1) isig (ikey + 1)

/-- `while (i-- > 1)`, with the passes that are left. -/
def multisigCleanup (fSuccess : Bool) : Nat → Nat → List Valtype →
    Except ScriptExit (List Valtype)
  | 0, _, stack => .ok stack
  | i + 1, ikey2, stack => do
    if !fSuccess && hasFlag flags SCRIPT_VERIFY_NULLFAIL && ikey2 == 0 then
      failIf (!(← stacktop stack 1).isEmpty) (.error .sigNullFail)
    let stack ← popstack stack
    multisigCleanup fSuccess i (ikey2 - 1) stack

/-- The dummy element, and the result. -/
def multisigResult (opcode : Opcodetype) (fSuccess : Bool) (s : EvalState) (stack : List Valtype) :
    Except ScriptExit EvalState := do
  requireSize stack 1 .invalidStackOperation
  if hasFlag flags SCRIPT_VERIFY_NULLDUMMY then
    failIf (!(← stacktop stack 1).isEmpty) (.error .sigNullDummy)
  let stack ← popstack stack
  let stack := ofBool fSuccess :: stack
  if opcode = OP_CHECKMULTISIGVERIFY then
    if fSuccess then return { s with stack := ← popstack stack } else setError .checkMultisigVerify
  else return { s with stack := stack }

/-- The counts of `OP_CHECKMULTISIG`, before the loop: of the keys and the signatures,
    and the state with the keys counted as operations. -/
def multisigCounts (s : EvalState) : Except ScriptExit (Nat × Nat × EvalState) := do
  failIf (sizeAsInt s.stack < 1) (.error .invalidStackOperation)
  let keysCount ← scriptNum (← stacktop s.stack 1) (requireMinimal flags) nDefaultMaxNumSize
  let nKeysCount := keysCount.getint
  failIf (nKeysCount < 0 || nKeysCount > MAX_PUBKEYS_PER_MULTISIG) (.error .pubkeyCount)
  let nKeys := nKeysCount.toNat
  let s := { s with nOpCount := s.nOpCount + nKeys }
  failIf (s.nOpCount > MAX_OPS_PER_SCRIPT) (.error .opCount)
  failIf (sizeAsInt s.stack < (nKeys + 2 : Nat)) (.error .invalidStackOperation)
  let sigsCount ← scriptNum (← stacktop s.stack (nKeys + 2)) (requireMinimal flags)
    nDefaultMaxNumSize
  let nSigsCount := sigsCount.getint
  failIf (nSigsCount < 0 || nSigsCount > nKeysCount) (.error .sigCount)
  let nSigs := nSigsCount.toNat
  failIf (sizeAsInt s.stack < (nKeys + nSigs + 3 : Nat)) (.error .invalidStackOperation)
  return (nKeys, nSigs, s)

/-- `OP_CHECKMULTISIG` and `OP_CHECKMULTISIGVERIFY`. -/
def evalCheckMultisig (opcode : Opcodetype) (s : EvalState) : Costed ScriptExit EvalState := do
  let (nKeys, nSigs, s) ← multisigCounts flags s
  let sigs ← multisigSigs s.stack (nKeys + 3) nSigs
  let fSuccess ← multisigLoop ctx flags (scriptCode ctx s sigs) s.stack nKeys nSigs (nKeys + 3) 2
  let stack ← multisigCleanup flags fSuccess (nKeys + nSigs + 2) (nKeys + 2) s.stack
  multisigResult flags opcode fSuccess s stack

/-- The `switch` over opcodes that are executed. -/
def execOpcode (fExec : Bool) (opcode : Opcodetype) (pc : CScript) (s : EvalState) :
    Costed ScriptExit EvalState :=
  if opcode = OP_CHECKLOCKTIMEVERIFY then liftM (checkLockTimeVerify ctx flags s)
  else if opcode = OP_CHECKSEQUENCEVERIFY then liftM (checkSequenceVerify ctx flags s)
  else if isUpgradableNop opcode then do
    failIf (hasFlag flags SCRIPT_VERIFY_DISCOURAGE_UPGRADABLE_NOPS)
      (ScriptExit.error .discourageUpgradableNops)
    return s
  else if opcode = OP_IF ∨ opcode = OP_NOTIF then liftM (evalIf ctx flags fExec opcode s)
  else if opcode = OP_PICK ∨ opcode = OP_ROLL then
    liftM (evalPick (requireMinimal flags) opcode s)
  else if opcode = OP_WITHIN then liftM (evalWithin (requireMinimal flags) s)
  else if opcode = OP_CHECKSIG ∨ opcode = OP_CHECKSIGVERIFY then evalCheckSig ctx flags opcode s
  else if opcode = OP_CHECKMULTISIG ∨ opcode = OP_CHECKMULTISIGVERIFY then
    evalCheckMultisig ctx flags opcode s
  else if isUnaryOpcode opcode then liftM (evalUnary (requireMinimal flags) opcode s)
  else if isBinaryOpcode opcode then liftM (evalBinary (requireMinimal flags) opcode s)
  else liftM (plainOpcode ctx.hashes opcode pc s)

/-- `CheckMinimalPush`, with its assertion. -/
def checkMinimalPush (data : Valtype) (opcode : Opcodetype) : Except ScriptExit Bool :=
  if opcode ≤ OP_PUSHDATA4 then .ok (Rcoin.checkMinimalPush data opcode) else .error .assertion

/-- What is done with an opcode that is no error by itself. -/
def evalOpcode (opcode : Opcodetype) (vchPushValue : Valtype) (pc : CScript) (s : EvalState) :
    Costed ScriptExit EvalState :=
  let fExec := s.vfExec.all id
  if fExec && opcode ≤ OP_PUSHDATA4 then do
    if requireMinimal flags then
      failIf (!(← checkMinimalPush vchPushValue opcode)) (ScriptExit.error .minimalData)
    return { s with stack := vchPushValue :: s.stack }
  else if fExec || (OP_IF ≤ opcode && opcode ≤ OP_ENDIF) then execOpcode ctx flags fExec opcode pc s
  else pure s

/-- The body of the loop, behind the reading of an instruction. -/
def evalInstruction (opcode : Opcodetype) (vchPushValue : Valtype) (pc : CScript)
    (s : EvalState) : Costed ScriptExit EvalState := do
  failIf (vchPushValue.length > MAX_SCRIPT_ELEMENT_SIZE) (ScriptExit.error .pushSize)
  let s := if opcode > OP_16 then { s with nOpCount := s.nOpCount + 1 } else s
  failIf (opcode > OP_16 && s.nOpCount > MAX_OPS_PER_SCRIPT) (ScriptExit.error .opCount)
  failIf (isDisabledOpcode opcode) (ScriptExit.error .disabledOpcode)
  let s ← evalOpcode ctx flags opcode vchPushValue pc s
  failIf (s.stack.length + s.altstack.length > MAX_STACK_SIZE) (ScriptExit.error .stackSize)
  return s

/-- `while (pc < pend)`. -/
def evalLoop : Nat → CScript → EvalState → Costed ScriptExit EvalState
  | 0, _, s => pure s
  | fuel + 1, pc, s =>
    if pc.isEmpty then pure s
    else
      match getOp pc with
      | none => liftM (setError .badOpcode : Except ScriptExit EvalState)
      | some (opcode, vchPushValue, pc) => do
        let s ← evalInstruction ctx flags opcode vchPushValue pc s
        evalLoop fuel pc s

/-- `EvalScript`: the stack where it succeeds, else how it stops; a `catch` turns what is
    thrown into an unknown error.  The calls are those of `checker.CheckSig`. -/
def evalScript (stack : List Valtype) (script : CScript) : Costed ScriptExit (List Valtype) := do
  failIf (script.length > MAX_SCRIPT_SIZE) (ScriptExit.error .scriptSize)
  let s ← evalLoop ctx flags script.length script ⟨stack, [], [], 0, script⟩
  failIf (!s.vfExec.isEmpty) (ScriptExit.error .unbalancedConditional)
  return s.stack

end

end Machine

end Rcoin
