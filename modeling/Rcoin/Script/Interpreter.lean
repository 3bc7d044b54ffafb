/-
  The stack machine of src/script/interpreter.cpp: `EvalScript`,
  `VerifyWitnessProgram` and `VerifyScript`.

  Stacks are lists with the top first, `vfExec` has the innermost conditional
  first.  An exception that the source catches is an unknown error.  The hash
  functions and the signature checker are parameters; the checker gets no flags.
-/
import Rcoin.Script.Script

namespace Rcoin

open Fallible

/-! ## Flags -/

def SCRIPT_VERIFY_P2SH : UInt32 := (1 : UInt32) <<< 0
def SCRIPT_VERIFY_STRICTENC : UInt32 := (1 : UInt32) <<< 1
def SCRIPT_VERIFY_NULLDUMMY : UInt32 := (1 : UInt32) <<< 4
def SCRIPT_VERIFY_SIGPUSHONLY : UInt32 := (1 : UInt32) <<< 5
def SCRIPT_VERIFY_MINIMALDATA : UInt32 := (1 : UInt32) <<< 6
def SCRIPT_VERIFY_DISCOURAGE_UPGRADABLE_NOPS : UInt32 := (1 : UInt32) <<< 7
def SCRIPT_VERIFY_CLEANSTACK : UInt32 := (1 : UInt32) <<< 8
def SCRIPT_VERIFY_CHECKLOCKTIMEVERIFY : UInt32 := (1 : UInt32) <<< 9
def SCRIPT_VERIFY_CHECKSEQUENCEVERIFY : UInt32 := (1 : UInt32) <<< 10
def SCRIPT_VERIFY_WITNESS : UInt32 := (1 : UInt32) <<< 11
def SCRIPT_VERIFY_DISCOURAGE_UPGRADABLE_WITNESS_PROGRAM : UInt32 := (1 : UInt32) <<< 12
def SCRIPT_VERIFY_MINIMALIF : UInt32 := (1 : UInt32) <<< 13
def SCRIPT_VERIFY_NULLFAIL : UInt32 := (1 : UInt32) <<< 14
def SCRIPT_VERIFY_WITNESS_PUBKEYTYPE : UInt32 := (1 : UInt32) <<< 15

/-- `(flags & flag) != 0`. -/
def hasFlag (flags flag : UInt32) : Bool := flags &&& flag != 0

/-! ## Parameters -/

inductive SigVersion where
  | base
  | witnessV0
  deriving DecidableEq

/-- What the interpreter asks of the transaction. -/
structure BaseSignatureChecker where
  checkSig : Valtype → Valtype → CScript → SigVersion → Bool
  checkLockTime : CScriptNum → Bool
  checkSequence : CScriptNum → Bool

/-- The hash functions of the crypto opcodes; `sha256` is `CSHA3_256`. -/
structure ScriptHashes where
  ripemd160 : Valtype → Valtype
  sha1 : Valtype → Valtype
  sha256 : Valtype → Valtype
  hash160 : Valtype → Valtype
  hash256 : Valtype → Valtype

/-- What one call of `EvalScript` is given besides the script and the stack. -/
structure EvalContext where
  hashes : ScriptHashes
  checker : BaseSignatureChecker
  sigversion : SigVersion

structure EvalState where
  stack : List Valtype
  altstack : List Valtype
  vfExec : List Bool
  nOpCount : Nat
  /-- The script behind the last code separator. -/
  pbegincodehash : CScript

/-! ## Encodings -/

def PUBLIC_KEY_SIZE : Nat := 32

def isCompressedOrUncompressedPubKey (vchPubKey : Valtype) : Bool :=
  vchPubKey.length == PUBLIC_KEY_SIZE

def isCompressedPubKey (vchPubKey : Valtype) : Bool := vchPubKey.length == PUBLIC_KEY_SIZE

/-- The hash type is `SIGHASH_ALL`, `SIGHASH_NONE` or `SIGHASH_SINGLE`, up to
    `SIGHASH_ANYONECANPAY`. -/
def isDefinedHashtypeSignature (vchSig : Valtype) : Bool :=
  match vchSig.getLast? with
  | none => false
  | some hashType =>
    let nHashType := hashType &&& ~~~0x80
    !(nHashType < 1 || nHashType > 3)

def checkSignatureEncoding (vchSig : Valtype) (flags : UInt32) : Except ScriptError Unit :=
  -- an empty signature is allowed, as a compact way to give an invalid one
  if vchSig.isEmpty then .ok ⟨⟩
  else failIf (hasFlag flags SCRIPT_VERIFY_STRICTENC && !isDefinedHashtypeSignature vchSig)
    .sigHashtype

def checkPubKeyEncoding (vchPubKey : Valtype) (flags : UInt32) (sigversion : SigVersion) :
    Except ScriptError Unit := do
  failIf (hasFlag flags SCRIPT_VERIFY_STRICTENC && !isCompressedOrUncompressedPubKey vchPubKey)
    .pubkeyType
  -- only compressed keys are accepted in segwit
  failIf (hasFlag flags SCRIPT_VERIFY_WITNESS_PUBKEYTYPE && sigversion == .witnessV0 &&
    !isCompressedPubKey vchPubKey) .witnessPubkeyType

def checkMinimalPush (data : Valtype) (opcode : Opcodetype) : Bool :=
  if data.length == 0 then opcode == OP_0
  else if data.length == 1 && data.getD 0 0 ≥ 1 && data.getD 0 0 ≤ 16 then false
  else if data.length == 1 && data.getD 0 0 == 0x81 then false
  else if data.length ≤ 75 then opcode.toNat == data.length
  else if data.length ≤ 255 then opcode == OP_PUSHDATA1
  else if data.length ≤ 65535 then opcode == OP_PUSHDATA2
  else true

/-! ## Opcodes that look at no flag -/

def vchFalse : Valtype := []

def vchTrue : Valtype := [1]

def ofBool (b : Bool) : Valtype := if b then vchTrue else vchFalse

def isDisabledOpcode (opcode : Opcodetype) : Bool :=
  [OP_CAT, OP_SUBSTR, OP_LEFT, OP_RIGHT, OP_INVERT, OP_AND, OP_OR, OP_XOR, OP_2MUL, OP_2DIV,
    OP_MUL, OP_DIV, OP_MOD, OP_LSHIFT, OP_RSHIFT].contains opcode

/-- The crypto opcodes that hash the top of the stack. -/
def hashOpcode (hashes : ScriptHashes) : Opcodetype → Option (Valtype → Valtype)
  | OP_RIPEMD160 => some hashes.ripemd160
  | OP_SHA1 => some hashes.sha1
  | OP_SHA256 => some hashes.sha256
  | OP_HASH160 => some hashes.hash160
  | OP_HASH256 => some hashes.hash256
  | _ => none

/-- The stack operations, on the stack alone. -/
def stackOpcode (opcode : Opcodetype) (stack : List Valtype) :
    Option (Except ScriptError (List Valtype)) :=
  match opcode with
  | OP_NOP => some (.ok stack)
  | OP_VERIFY =>
    match stack with
    | vch :: stack => some (if castToBool vch then .ok stack else .error .verify)
    | _ => some (.error .invalidStackOperation)
  | OP_RETURN => some (.error .opReturn)
  | OP_2DROP =>
    match stack with
    | _ :: _ :: stack => some (.ok stack)
    | _ => some (.error .invalidStackOperation)
  | OP_2DUP =>
    match stack with
    | x2 :: x1 :: stack => some (.ok (x2 :: x1 :: x2 :: x1 :: stack))
    | _ => some (.error .invalidStackOperation)
  | OP_3DUP =>
    match stack with
    | x3 :: x2 :: x1 :: stack => some (.ok (x3 :: x2 :: x1 :: x3 :: x2 :: x1 :: stack))
    | _ => some (.error .invalidStackOperation)
  | OP_2OVER =>
    match stack with
    | x4 :: x3 :: x2 :: x1 :: stack => some (.ok (x2 :: x1 :: x4 :: x3 :: x2 :: x1 :: stack))
    | _ => some (.error .invalidStackOperation)
  | OP_2ROT =>
    match stack with
    | x6 :: x5 :: x4 :: x3 :: x2 :: x1 :: stack =>
      some (.ok (x2 :: x1 :: x6 :: x5 :: x4 :: x3 :: stack))
    | _ => some (.error .invalidStackOperation)
  | OP_2SWAP =>
    match stack with
    | x4 :: x3 :: x2 :: x1 :: stack => some (.ok (x2 :: x1 :: x4 :: x3 :: stack))
    | _ => some (.error .invalidStackOperation)
  | OP_IFDUP =>
    match stack with
    | vch :: stack => some (.ok (if castToBool vch then vch :: vch :: stack else vch :: stack))
    | _ => some (.error .invalidStackOperation)
  | OP_DEPTH => some (.ok (CScriptNum.getvch stack.length :: stack))
  | OP_DROP =>
    match stack with
    | _ :: stack => some (.ok stack)
    | _ => some (.error .invalidStackOperation)
  | OP_DUP =>
    match stack with
    | vch :: stack => some (.ok (vch :: vch :: stack))
    | _ => some (.error .invalidStackOperation)
  | OP_NIP =>
    match stack with
    | x2 :: _ :: stack => some (.ok (x2 :: stack))
    | _ => some (.error .invalidStackOperation)
  | OP_OVER =>
    match stack with
    | x2 :: x1 :: stack => some (.ok (x1 :: x2 :: x1 :: stack))
    | _ => some (.error .invalidStackOperation)
  | OP_ROT =>
    match stack with
    | x3 :: x2 :: x1 :: stack => some (.ok (x1 :: x3 :: x2 :: stack))
    | _ => some (.error .invalidStackOperation)
  | OP_SWAP =>
    match stack with
    | x2 :: x1 :: stack => some (.ok (x1 :: x2 :: stack))
    | _ => some (.error .invalidStackOperation)
  | OP_TUCK =>
    match stack with
    | x2 :: x1 :: stack => some (.ok (x2 :: x1 :: x2 :: stack))
    | _ => some (.error .invalidStackOperation)
  | OP_SIZE =>
    match stack with
    | vch :: stack => some (.ok (CScriptNum.getvch vch.length :: vch :: stack))
    | _ => some (.error .invalidStackOperation)
  | OP_EQUAL =>
    match stack with
    | x2 :: x1 :: stack => some (.ok (ofBool (x1 == x2) :: stack))
    | _ => some (.error .invalidStackOperation)
  | OP_EQUALVERIFY =>
    match stack with
    | x2 :: x1 :: stack => some (if x1 == x2 then .ok stack else .error .equalVerify)
    | _ => some (.error .invalidStackOperation)
  | _ => none

/-- The opcodes whose effect depends neither on the flags nor on a number. -/
def plainOpcode (hashes : ScriptHashes) (opcode : Opcodetype) (pc : CScript) (s : EvalState) :
    Except ScriptError EvalState :=
  if opcode = OP_1NEGATE ∨ (OP_1 ≤ opcode ∧ opcode ≤ OP_16) then
    -- ( -- value)
    .ok { s with stack := CScriptNum.getvch (opcode.toNat - (OP_1.toNat - 1)) :: s.stack }
  else if opcode = OP_ELSE then
    match s.vfExec with
    | [] => .error .unbalancedConditional
    | back :: vfExec => .ok { s with vfExec := (!back) :: vfExec }
  else if opcode = OP_ENDIF then
    match s.vfExec with
    | [] => .error .unbalancedConditional
    | _ :: vfExec => .ok { s with vfExec := vfExec }
  else if opcode = OP_TOALTSTACK then
    match s.stack with
    | [] => .error .invalidStackOperation
    | vch :: stack => .ok { s with stack := stack, altstack := vch :: s.altstack }
  else if opcode = OP_FROMALTSTACK then
    match s.altstack with
    | [] => .error .invalidAltstackOperation
    | vch :: altstack => .ok { s with stack := vch :: s.stack, altstack := altstack }
  else if opcode = OP_CODESEPARATOR then
    -- the hash starts behind the code separator
    .ok { s with pbegincodehash := pc }
  else
    match hashOpcode hashes opcode with
    | some hash =>
      match s.stack with
      | [] => .error .invalidStackOperation
      | vch :: stack => .ok { s with stack := hash vch :: stack }
    | none =>
      match stackOpcode opcode s.stack with
      | some result => result.map fun stack => { s with stack := stack }
      | none => .error .badOpcode

/-! ## Opcodes that read numbers -/

/-- `bn = b` of a truth value. -/
def CScriptNum.ofBool (b : Bool) : CScriptNum := if b then 1 else 0

def unaryOpcode : Opcodetype → Option (CScriptNum → CScriptNum)
  | OP_1ADD => some fun bn => bn + 1
  | OP_1SUB => some fun bn => bn - 1
  | OP_NEGATE => some fun bn => -bn
  | OP_ABS => some fun bn => if bn < 0 then -bn else bn
  | OP_NOT => some fun bn => .ofBool (bn == 0)
  | OP_0NOTEQUAL => some fun bn => .ofBool (bn != 0)
  | _ => none

def binaryOpcode : Opcodetype → Option (CScriptNum → CScriptNum → CScriptNum)
  | OP_ADD => some fun bn1 bn2 => bn1 + bn2
  | OP_SUB => some fun bn1 bn2 => bn1 - bn2
  | OP_BOOLAND => some fun bn1 bn2 => .ofBool (bn1 != 0 && bn2 != 0)
  | OP_BOOLOR => some fun bn1 bn2 => .ofBool (bn1 != 0 || bn2 != 0)
  | OP_NUMEQUAL => some fun bn1 bn2 => .ofBool (bn1 == bn2)
  | OP_NUMEQUALVERIFY => some fun bn1 bn2 => .ofBool (bn1 == bn2)
  | OP_NUMNOTEQUAL => some fun bn1 bn2 => .ofBool (bn1 != bn2)
  | OP_LESSTHAN => some fun bn1 bn2 => .ofBool (bn1 < bn2)
  | OP_GREATERTHAN => some fun bn1 bn2 => .ofBool (bn1 > bn2)
  | OP_LESSTHANOREQUAL => some fun bn1 bn2 => .ofBool (bn1 ≤ bn2)
  | OP_GREATERTHANOREQUAL => some fun bn1 bn2 => .ofBool (bn1 ≥ bn2)
  | OP_MIN => some fun bn1 bn2 => if bn1 < bn2 then bn1 else bn2
  | OP_MAX => some fun bn1 bn2 => if bn1 > bn2 then bn1 else bn2
  | _ => none

/-- `(in -- out)`. -/
def evalUnary (fRequireMinimal : Bool) (f : CScriptNum → CScriptNum) (s : EvalState) :
    Except ScriptError EvalState :=
  match s.stack with
  | [] => .error .invalidStackOperation
  | vch :: stack => do
    let bn ← scriptNum vch fRequireMinimal nDefaultMaxNumSize
    return { s with stack := (f bn).getvch :: stack }

/-- `(x1 x2 -- out)`. -/
def evalBinary (fRequireMinimal : Bool) (opcode : Opcodetype)
    (f : CScriptNum → CScriptNum → CScriptNum) (s : EvalState) : Except ScriptError EvalState :=
  match s.stack with
  | x2 :: x1 :: stack => do
    let bn1 ← scriptNum x1 fRequireMinimal nDefaultMaxNumSize
    let bn2 ← scriptNum x2 fRequireMinimal nDefaultMaxNumSize
    let vch := (f bn1 bn2).getvch
    if opcode = OP_NUMEQUALVERIFY then
      if castToBool vch then return { s with stack := stack } else throw .numEqualVerify
    else return { s with stack := vch :: stack }
  | _ => .error .invalidStackOperation

/-- `(x min max -- out)`. -/
def evalWithin (fRequireMinimal : Bool) (s : EvalState) : Except ScriptError EvalState :=
  match s.stack with
  | x3 :: x2 :: x1 :: stack => do
    let bn1 ← scriptNum x1 fRequireMinimal nDefaultMaxNumSize
    let bn2 ← scriptNum x2 fRequireMinimal nDefaultMaxNumSize
    let bn3 ← scriptNum x3 fRequireMinimal nDefaultMaxNumSize
    return { s with stack := ofBool (bn2 ≤ bn1 && bn1 < bn3) :: stack }
  | _ => .error .invalidStackOperation

/-- `OP_PICK` and `OP_ROLL`. -/
def evalPick (fRequireMinimal : Bool) (opcode : Opcodetype) (s : EvalState) :
    Except ScriptError EvalState :=
  match s.stack with
  | top :: x0 :: rest => do
    let stack := x0 :: rest
    let bn ← scriptNum top fRequireMinimal nDefaultMaxNumSize
    let n := bn.getint
    failIf (n < 0 || n ≥ stack.length) .invalidStackOperation
    let vch := stack.getD n.toNat []
    let stack := if opcode = OP_ROLL then stack.eraseIdx n.toNat else stack
    return { s with stack := vch :: stack }
  | _ => .error .invalidStackOperation

/-! ## Opcodes that look at the flags -/

section

variable (ctx : EvalContext) (flags : UInt32)

def requireMinimal : Bool := hasFlag flags SCRIPT_VERIFY_MINIMALDATA

def checkLockTimeVerify (s : EvalState) : Except ScriptError EvalState :=
  -- not enabled; treat as a NOP2
  if !hasFlag flags SCRIPT_VERIFY_CHECKLOCKTIMEVERIFY then .ok s
  else
    match s.stack with
    | [] => .error .invalidStackOperation
    | vch :: _ => do
      let nLockTime ← scriptNum vch (requireMinimal flags) 5
      failIf (nLockTime < 0) .negativeLocktime
      failIf (!ctx.checker.checkLockTime nLockTime) .unsatisfiedLocktime
      return s

/-- `CTxIn::SEQUENCE_LOCKTIME_DISABLE_FLAG` is bit 31. -/
def sequenceLocktimeDisabled (nSequence : CScriptNum) : Bool := nSequence.toNat.testBit 31

def checkSequenceVerify (s : EvalState) : Except ScriptError EvalState :=
  -- not enabled; treat as a NOP3
  if !hasFlag flags SCRIPT_VERIFY_CHECKSEQUENCEVERIFY then .ok s
  else
    match s.stack with
    | [] => .error .invalidStackOperation
    | vch :: _ => do
      let nSequence ← scriptNum vch (requireMinimal flags) 5
      failIf (nSequence < 0) .negativeLocktime
      -- with the disable flag the opcode behaves as a NOP
      if sequenceLocktimeDisabled nSequence then return s
      failIf (!ctx.checker.checkSequence nSequence) .unsatisfiedLocktime
      return s

def isUpgradableNop (opcode : Opcodetype) : Bool :=
  opcode == OP_NOP1 || (OP_NOP4 ≤ opcode && opcode ≤ OP_NOP10)

/-- `OP_IF` and `OP_NOTIF`. -/
def evalIf (fExec : Bool) (opcode : Opcodetype) (s : EvalState) : Except ScriptError EvalState :=
  if fExec then
    match s.stack with
    | [] => .error .unbalancedConditional
    | vch :: stack => do
      let minimalIf := ctx.sigversion == .witnessV0 && hasFlag flags SCRIPT_VERIFY_MINIMALIF
      failIf (minimalIf && vch.length > 1) .minimalIf
      failIf (minimalIf && vch.length == 1 && vch.getD 0 0 != 1) .minimalIf
      let fValue := if opcode = OP_NOTIF then !castToBool vch else castToBool vch
      return { s with stack := stack, vfExec := fValue :: s.vfExec }
  else .ok { s with vfExec := false :: s.vfExec }

/-- The script that is signed: signatures are dropped from it before segwit. -/
def scriptCode (s : EvalState) (sigs : List Valtype) : CScript :=
  if ctx.sigversion == .base then
    sigs.foldl (fun code vchSig => findAndDelete code (pushVector vchSig)) s.pbegincodehash
  else s.pbegincodehash

/-- `OP_CHECKSIG` and `OP_CHECKSIGVERIFY`. -/
def evalCheckSig (opcode : Opcodetype) (s : EvalState) : Except ScriptError EvalState :=
  match s.stack with
  | vchPubKey :: vchSig :: stack => do
    checkSignatureEncoding vchSig flags
    checkPubKeyEncoding vchPubKey flags ctx.sigversion
    let fSuccess := ctx.checker.checkSig vchSig vchPubKey (scriptCode ctx s [vchSig]) ctx.sigversion
    failIf (!fSuccess && hasFlag flags SCRIPT_VERIFY_NULLFAIL && !vchSig.isEmpty) .sigNullFail
    if opcode = OP_CHECKSIGVERIFY then
      if fSuccess then return { s with stack := stack } else throw .checkSigVerify
    else return { s with stack := ofBool fSuccess :: stack }
  | _ => .error .invalidStackOperation

/-- The loop of `OP_CHECKMULTISIG` over the keys that are left.  There are never
    more signatures left than keys. -/
def multisigLoop (code : CScript) : List Valtype → List Valtype → Except ScriptError Bool
  | _, [] => .ok true
  | [], _ :: _ => .ok false
  | vchPubKey :: keys, vchSig :: sigs => do
    checkSignatureEncoding vchSig flags
    checkPubKeyEncoding vchPubKey flags ctx.sigversion
    let fOk := ctx.checker.checkSig vchSig vchPubKey code ctx.sigversion
    let sigs := if fOk then sigs else vchSig :: sigs
    -- more signatures left than keys left: too many have failed
    if sigs.length > keys.length then return false else multisigLoop code keys sigs

/-- `while (i-- > 1)`: the arguments are taken off; `ikey2` of them are no
    signatures. -/
def multisigCleanup (fSuccess : Bool) : Nat → Nat → List Valtype →
    Except ScriptError (List Valtype)
  | 0, _, stack => .ok stack
  | _ + 1, _, [] => .error .unknownError
  | i + 1, ikey2, vch :: stack => do
    failIf (!fSuccess && hasFlag flags SCRIPT_VERIFY_NULLFAIL && ikey2 == 0 && !vch.isEmpty)
      .sigNullFail
    multisigCleanup fSuccess i (ikey2 - 1) stack

/-- The dummy element, and the result. -/
def multisigResult (opcode : Opcodetype) (fSuccess : Bool) (s : EvalState) (stack : List Valtype) :
    Except ScriptError EvalState :=
  match stack with
  | [] => .error .invalidStackOperation
  | dummy :: stack => do
    failIf (hasFlag flags SCRIPT_VERIFY_NULLDUMMY && !dummy.isEmpty) .sigNullDummy
    if opcode = OP_CHECKMULTISIGVERIFY then
      if fSuccess then return { s with stack := stack } else throw .checkMultisigVerify
    else return { s with stack := ofBool fSuccess :: stack }

/-- `OP_CHECKMULTISIG` and `OP_CHECKMULTISIGVERIFY`:
    `([sig ...] num_of_signatures [pubkey ...] num_of_pubkeys -- bool)`. -/
def evalCheckMultisig (opcode : Opcodetype) (s : EvalState) : Except ScriptError EvalState := do
  failIf (s.stack.length < 1) .invalidStackOperation
  let keysCount ← scriptNum (s.stack.getD 0 []) (requireMinimal flags) nDefaultMaxNumSize
  let nKeysCount := keysCount.getint
  failIf (nKeysCount < 0 || nKeysCount > MAX_PUBKEYS_PER_MULTISIG) .pubkeyCount
  let nKeys := nKeysCount.toNat
  let s := { s with nOpCount := s.nOpCount + nKeys }
  failIf (s.nOpCount > MAX_OPS_PER_SCRIPT) .opCount
  failIf (s.stack.length < nKeys + 2) .invalidStackOperation
  let sigsCount ← scriptNum (s.stack.getD (nKeys + 1) []) (requireMinimal flags) nDefaultMaxNumSize
  let nSigsCount := sigsCount.getint
  failIf (nSigsCount < 0 || nSigsCount > nKeysCount) .sigCount
  let nSigs := nSigsCount.toNat
  failIf (s.stack.length < nKeys + nSigs + 3) .invalidStackOperation
  let keys := (s.stack.drop 1).take nKeys
  let sigs := (s.stack.drop (nKeys + 2)).take nSigs
  let fSuccess ← multisigLoop ctx flags (scriptCode ctx s sigs) keys sigs
  let stack ← multisigCleanup flags fSuccess (nKeys + nSigs + 2) (nKeys + 2) s.stack
  multisigResult flags opcode fSuccess s stack

/-! ## `EvalScript` -/

/-- The `switch` over opcodes that are executed. -/
def execOpcode (fExec : Bool) (opcode : Opcodetype) (pc : CScript) (s : EvalState) :
    Except ScriptError EvalState :=
  if opcode = OP_CHECKLOCKTIMEVERIFY then checkLockTimeVerify ctx flags s
  else if opcode = OP_CHECKSEQUENCEVERIFY then checkSequenceVerify ctx flags s
  else if isUpgradableNop opcode then do
    failIf (hasFlag flags SCRIPT_VERIFY_DISCOURAGE_UPGRADABLE_NOPS) .discourageUpgradableNops
    return s
  else if opcode = OP_IF ∨ opcode = OP_NOTIF then evalIf ctx flags fExec opcode s
  else if opcode = OP_PICK ∨ opcode = OP_ROLL then evalPick (requireMinimal flags) opcode s
  else if opcode = OP_WITHIN then evalWithin (requireMinimal flags) s
  else if opcode = OP_CHECKSIG ∨ opcode = OP_CHECKSIGVERIFY then evalCheckSig ctx flags opcode s
  else if opcode = OP_CHECKMULTISIG ∨ opcode = OP_CHECKMULTISIGVERIFY then
    evalCheckMultisig ctx flags opcode s
  else
    match unaryOpcode opcode with
    | some f => evalUnary (requireMinimal flags) f s
    | none =>
      match binaryOpcode opcode with
      | some f => evalBinary (requireMinimal flags) opcode f s
      | none => plainOpcode ctx.hashes opcode pc s

/-- What is done with an opcode that is no error by itself. -/
def evalOpcode (opcode : Opcodetype) (vchPushValue : Valtype) (pc : CScript) (s : EvalState) :
    Except ScriptError EvalState :=
  let fExec := s.vfExec.all id
  if fExec && opcode ≤ OP_PUSHDATA4 then do
    failIf (requireMinimal flags && !checkMinimalPush vchPushValue opcode) .minimalData
    return { s with stack := vchPushValue :: s.stack }
  else if fExec || (OP_IF ≤ opcode && opcode ≤ OP_ENDIF) then execOpcode ctx flags fExec opcode pc s
  else .ok s

/-- The body of the loop, behind the reading of an instruction. -/
def evalInstruction (opcode : Opcodetype) (vchPushValue : Valtype) (pc : CScript)
    (s : EvalState) : Except ScriptError EvalState := do
  failIf (vchPushValue.length > MAX_SCRIPT_ELEMENT_SIZE) .pushSize
  -- note how OP_RESERVED does not count towards the opcode limit
  let s := if opcode > OP_16 then { s with nOpCount := s.nOpCount + 1 } else s
  failIf (opcode > OP_16 && s.nOpCount > MAX_OPS_PER_SCRIPT) .opCount
  failIf (isDisabledOpcode opcode) .disabledOpcode
  let s ← evalOpcode ctx flags opcode vchPushValue pc s
  failIf (s.stack.length + s.altstack.length > MAX_STACK_SIZE) .stackSize
  return s

/-- `while (pc < pend)`; every instruction takes a byte at least, so the length of
    the script bounds the passes. -/
def evalLoop : Nat → CScript → EvalState → Except ScriptError EvalState
  | 0, _, s => .ok s
  | fuel + 1, pc, s =>
    if pc.isEmpty then .ok s
    else
      match getOp pc with
      | none => .error .badOpcode
      | some (opcode, vchPushValue, pc) => do
        let s ← evalInstruction ctx flags opcode vchPushValue pc s
        evalLoop fuel pc s

variable {ctx flags} in
theorem evalLoop_of_le {fuel : Nat} {pc : CScript} (h : pc.length ≤ fuel) (s : EvalState) :
    evalLoop ctx flags fuel pc s = evalLoop ctx flags pc.length pc s := by
  induction fuel using Nat.strong_induction_on generalizing pc s with
  | _ fuel ih =>
    cases pc with
    | nil => cases fuel <;> rfl
    | cons b pc =>
      obtain ⟨fuel, rfl⟩ := Nat.exists_eq_add_one.mpr (Nat.lt_of_lt_of_le (Nat.succ_pos _) h)
      rw [List.length_cons] at h ⊢
      rw [evalLoop, evalLoop]
      cases hop : getOp (b :: pc) with
      | none => rfl
      | some instruction =>
        obtain ⟨opcode, vchPushValue, rest⟩ := instruction
        have hrest := getOp_length hop
        rw [List.length_cons] at hrest
        simp only
        cases evalInstruction ctx flags opcode vchPushValue rest s with
        | error e => rfl
        | ok s' =>
          -- the rest is shorter, so neither bound matters for it
          show (if _ then _ else evalLoop ctx flags fuel rest s') =
            if _ then _ else evalLoop ctx flags pc.length rest s'
          rw [ih fuel (Nat.lt_succ_self fuel) (by omega),
            ih pc.length (by omega) (by omega)]

/-- The stack after `EvalScript`, where it succeeds. -/
def evalScript (stack : List Valtype) (script : CScript) : Except ScriptError (List Valtype) := do
  failIf (script.length > MAX_SCRIPT_SIZE) .scriptSize
  let s ← evalLoop ctx flags script.length script ⟨stack, [], [], 0, script⟩
  failIf (!s.vfExec.isEmpty) .unbalancedConditional
  return s.stack

end

/-! ## `VerifyScript` -/

/-- How verification fails: with an error, or at an `assert`. -/
inductive VerifyFailure where
  | error (serror : ScriptError)
  | assertion
  deriving DecidableEq

/-- The result at the top of the stack is true. -/
def topIsTrue (stack : List Valtype) : Bool := stack.head?.any castToBool

section

variable (hashes : ScriptHashes) (checker : BaseSignatureChecker) (flags : UInt32)

/-- The script and the stack that a version 0 witness program stands for. -/
def witnessScript (witness : List Valtype) (program : Valtype) :
    Except ScriptError (CScript × List Valtype) :=
  if program.length == 32 then
    -- SHA256(CScript) inside the program, CScript + inputs in the witness
    match witness.reverse with
    | [] => .error .witnessProgramWitnessEmpty
    | scriptPubKey :: stack =>
      if hashes.sha256 scriptPubKey != program then .error .witnessProgramMismatch
      else .ok (scriptPubKey, stack)
  else if program.length == 20 then
    -- pay-to-pubkeyhash; signature and pubkey in the witness
    if witness.length != 2 then .error .witnessProgramMismatch
    else
      .ok (OP_DUP :: OP_HASH160 :: pushVector program ++ [OP_EQUALVERIFY, OP_CHECKSIG],
        witness.reverse)
  else .error .witnessProgramWrongLength

def verifyWitnessProgram (witness : List Valtype) (witversion : Nat) (program : Valtype) :
    Except ScriptError Unit :=
  if witversion = 0 then do
    let (scriptPubKey, stack) ← witnessScript hashes witness program
    failIf (stack.any fun vch => vch.length > MAX_SCRIPT_ELEMENT_SIZE) .pushSize
    let stack ← evalScript ⟨hashes, checker, .witnessV0⟩ flags stack scriptPubKey
    -- scripts inside witness implicitly require cleanstack behaviour
    failIf (stack.length != 1) .evalFalse
    failIf (!topIsTrue stack) .evalFalse
  else
    -- higher versions return true for future softfork compatibility
    failIf (hasFlag flags SCRIPT_VERIFY_DISCOURAGE_UPGRADABLE_WITNESS_PROGRAM)
      .discourageUpgradableWitnessProgram

/-- Bare and P2SH witness programs: the stack behind them and `hadWitness`.  The
    `scriptSig` must be exactly `expected`.  The cleanstack check at the end is
    bypassed by `stack.resize(1)`. -/
def verifyWitness (scriptSig script expected : CScript) (malleated : ScriptError)
    (witness : List Valtype) (stack : List Valtype) (hadWitness : Bool) :
    Except ScriptError (List Valtype × Bool) :=
  if hasFlag flags SCRIPT_VERIFY_WITNESS then
    match isWitnessProgram script with
    | none => .ok (stack, hadWitness)
    | some (witnessversion, witnessprogram) => do
      failIf (scriptSig != expected) malleated
      verifyWitnessProgram hashes checker flags witness witnessversion witnessprogram
      return ([stack.getLast?.getD []], true)
  else .ok (stack, hadWitness)

/-- "Additional validation for spend-to-script-hash transactions". -/
def verifyScriptHash (scriptSig scriptPubKey : CScript) (witness : List Valtype)
    (stack stackCopy : List Valtype) (hadWitness : Bool) :
    Except VerifyFailure (List Valtype × Bool) :=
  if hasFlag flags SCRIPT_VERIFY_P2SH && isPayToScriptHash scriptPubKey then do
    failIf (!isPushOnly scriptSig) (.error .sigPushonly)
    match stackCopy with
    -- assert(!stack.empty())
    | [] => throw .assertion
    | pubKey2 :: stack => do
      let stack ← (evalScript ⟨hashes, checker, .base⟩ flags stack pubKey2).mapError .error
      failIf (!topIsTrue stack) (.error .evalFalse)
      (verifyWitness hashes checker flags scriptSig pubKey2 (pushVector pubKey2)
        .witnessMalleatedP2SH witness stack hadWitness).mapError .error
  else .ok (stack, hadWitness)

/-- The checks at the end, with the asserts on the flags. -/
def verifyFinal (witness stack : List Valtype) (hadWitness : Bool) : Except VerifyFailure Unit := do
  onlyIf (hasFlag flags SCRIPT_VERIFY_CLEANSTACK) do
    failIf (!hasFlag flags SCRIPT_VERIFY_P2SH) .assertion
    failIf (!hasFlag flags SCRIPT_VERIFY_WITNESS) .assertion
    failIf (stack.length != 1) (.error .cleanStack)
  onlyIf (hasFlag flags SCRIPT_VERIFY_WITNESS) do
    failIf (!hasFlag flags SCRIPT_VERIFY_P2SH) .assertion
    failIf (!hadWitness && !witness.isEmpty) (.error .witnessUnexpected)

/-- `VerifyScript`; `none` is a null witness. -/
def verifyScript (scriptSig scriptPubKey : CScript) (witness : Option (List Valtype)) :
    Except VerifyFailure Unit := do
  let witness := witness.getD []
  failIf (hasFlag flags SCRIPT_VERIFY_SIGPUSHONLY && !isPushOnly scriptSig) (.error .sigPushonly)
  let stackCopy ← (evalScript ⟨hashes, checker, .base⟩ flags [] scriptSig).mapError .error
  let stack ← (evalScript ⟨hashes, checker, .base⟩ flags stackCopy scriptPubKey).mapError .error
  failIf (!topIsTrue stack) (.error .evalFalse)
  let (stack, hadWitness) ← (verifyWitness hashes checker flags scriptSig scriptPubKey []
    .witnessMalleated witness stack false).mapError .error
  let (stack, hadWitness) ← verifyScriptHash hashes checker flags scriptSig scriptPubKey witness
    stack stackCopy hadWitness
  verifyFinal flags witness stack hadWitness

end

end Rcoin
