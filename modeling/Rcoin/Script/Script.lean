/-
  Scripts as byte strings: opcodes, reading and writing instructions, script
  numbers and the templates that verification looks for.

  Source: src/script/script.h, src/script/script.cpp and
  src/script/script_error.h.
-/
import Rcoin.Lib.Fallible
import Rcoin.Primitives

namespace Rcoin

/-! ## Limits -/

/-- Maximum number of bytes pushable to the stack. -/
def MAX_SCRIPT_ELEMENT_SIZE : Nat := 520

/-- Maximum number of non-push operations per script. -/
def MAX_OPS_PER_SCRIPT : Nat := 201

/-- Maximum number of public keys per multisig. -/
def MAX_PUBKEYS_PER_MULTISIG : Int := 20

/-- Maximum number of values on the stack of the interpreter. -/
def MAX_STACK_SIZE : Nat := 1000

/-! ## Opcodes -/

/-- An opcode is the byte that encodes it. -/
abbrev Opcodetype := UInt8

@[match_pattern] abbrev OP_0 : Opcodetype := 0x00
@[match_pattern] abbrev OP_PUSHDATA1 : Opcodetype := 0x4c
@[match_pattern] abbrev OP_PUSHDATA2 : Opcodetype := 0x4d
@[match_pattern] abbrev OP_PUSHDATA4 : Opcodetype := 0x4e
@[match_pattern] abbrev OP_1NEGATE : Opcodetype := 0x4f
@[match_pattern] abbrev OP_1 : Opcodetype := 0x51
@[match_pattern] abbrev OP_16 : Opcodetype := 0x60
@[match_pattern] abbrev OP_NOP : Opcodetype := 0x61
@[match_pattern] abbrev OP_IF : Opcodetype := 0x63
@[match_pattern] abbrev OP_NOTIF : Opcodetype := 0x64
@[match_pattern] abbrev OP_ELSE : Opcodetype := 0x67
@[match_pattern] abbrev OP_ENDIF : Opcodetype := 0x68
@[match_pattern] abbrev OP_VERIFY : Opcodetype := 0x69
@[match_pattern] abbrev OP_RETURN : Opcodetype := 0x6a
@[match_pattern] abbrev OP_TOALTSTACK : Opcodetype := 0x6b
@[match_pattern] abbrev OP_FROMALTSTACK : Opcodetype := 0x6c
@[match_pattern] abbrev OP_2DROP : Opcodetype := 0x6d
@[match_pattern] abbrev OP_2DUP : Opcodetype := 0x6e
@[match_pattern] abbrev OP_3DUP : Opcodetype := 0x6f
@[match_pattern] abbrev OP_2OVER : Opcodetype := 0x70
@[match_pattern] abbrev OP_2ROT : Opcodetype := 0x71
@[match_pattern] abbrev OP_2SWAP : Opcodetype := 0x72
@[match_pattern] abbrev OP_IFDUP : Opcodetype := 0x73
@[match_pattern] abbrev OP_DEPTH : Opcodetype := 0x74
@[match_pattern] abbrev OP_DROP : Opcodetype := 0x75
@[match_pattern] abbrev OP_DUP : Opcodetype := 0x76
@[match_pattern] abbrev OP_NIP : Opcodetype := 0x77
@[match_pattern] abbrev OP_OVER : Opcodetype := 0x78
@[match_pattern] abbrev OP_PICK : Opcodetype := 0x79
@[match_pattern] abbrev OP_ROLL : Opcodetype := 0x7a
@[match_pattern] abbrev OP_ROT : Opcodetype := 0x7b
@[match_pattern] abbrev OP_SWAP : Opcodetype := 0x7c
@[match_pattern] abbrev OP_TUCK : Opcodetype := 0x7d
@[match_pattern] abbrev OP_CAT : Opcodetype := 0x7e
@[match_pattern] abbrev OP_SUBSTR : Opcodetype := 0x7f
@[match_pattern] abbrev OP_LEFT : Opcodetype := 0x80
@[match_pattern] abbrev OP_RIGHT : Opcodetype := 0x81
@[match_pattern] abbrev OP_SIZE : Opcodetype := 0x82
@[match_pattern] abbrev OP_INVERT : Opcodetype := 0x83
@[match_pattern] abbrev OP_AND : Opcodetype := 0x84
@[match_pattern] abbrev OP_OR : Opcodetype := 0x85
@[match_pattern] abbrev OP_XOR : Opcodetype := 0x86
@[match_pattern] abbrev OP_EQUAL : Opcodetype := 0x87
@[match_pattern] abbrev OP_EQUALVERIFY : Opcodetype := 0x88
@[match_pattern] abbrev OP_1ADD : Opcodetype := 0x8b
@[match_pattern] abbrev OP_1SUB : Opcodetype := 0x8c
@[match_pattern] abbrev OP_2MUL : Opcodetype := 0x8d
@[match_pattern] abbrev OP_2DIV : Opcodetype := 0x8e
@[match_pattern] abbrev OP_NEGATE : Opcodetype := 0x8f
@[match_pattern] abbrev OP_ABS : Opcodetype := 0x90
@[match_pattern] abbrev OP_NOT : Opcodetype := 0x91
@[match_pattern] abbrev OP_0NOTEQUAL : Opcodetype := 0x92
@[match_pattern] abbrev OP_ADD : Opcodetype := 0x93
@[match_pattern] abbrev OP_SUB : Opcodetype := 0x94
@[match_pattern] abbrev OP_MUL : Opcodetype := 0x95
@[match_pattern] abbrev OP_DIV : Opcodetype := 0x96
@[match_pattern] abbrev OP_MOD : Opcodetype := 0x97
@[match_pattern] abbrev OP_LSHIFT : Opcodetype := 0x98
@[match_pattern] abbrev OP_RSHIFT : Opcodetype := 0x99
@[match_pattern] abbrev OP_BOOLAND : Opcodetype := 0x9a
@[match_pattern] abbrev OP_BOOLOR : Opcodetype := 0x9b
@[match_pattern] abbrev OP_NUMEQUAL : Opcodetype := 0x9c
@[match_pattern] abbrev OP_NUMEQUALVERIFY : Opcodetype := 0x9d
@[match_pattern] abbrev OP_NUMNOTEQUAL : Opcodetype := 0x9e
@[match_pattern] abbrev OP_LESSTHAN : Opcodetype := 0x9f
@[match_pattern] abbrev OP_GREATERTHAN : Opcodetype := 0xa0
@[match_pattern] abbrev OP_LESSTHANOREQUAL : Opcodetype := 0xa1
@[match_pattern] abbrev OP_GREATERTHANOREQUAL : Opcodetype := 0xa2
@[match_pattern] abbrev OP_MIN : Opcodetype := 0xa3
@[match_pattern] abbrev OP_MAX : Opcodetype := 0xa4
@[match_pattern] abbrev OP_WITHIN : Opcodetype := 0xa5
@[match_pattern] abbrev OP_RIPEMD160 : Opcodetype := 0xa6
@[match_pattern] abbrev OP_SHA1 : Opcodetype := 0xa7
@[match_pattern] abbrev OP_SHA256 : Opcodetype := 0xa8
@[match_pattern] abbrev OP_HASH160 : Opcodetype := 0xa9
@[match_pattern] abbrev OP_HASH256 : Opcodetype := 0xaa
@[match_pattern] abbrev OP_CODESEPARATOR : Opcodetype := 0xab
@[match_pattern] abbrev OP_CHECKSIG : Opcodetype := 0xac
@[match_pattern] abbrev OP_CHECKSIGVERIFY : Opcodetype := 0xad
@[match_pattern] abbrev OP_CHECKMULTISIG : Opcodetype := 0xae
@[match_pattern] abbrev OP_CHECKMULTISIGVERIFY : Opcodetype := 0xaf
@[match_pattern] abbrev OP_NOP1 : Opcodetype := 0xb0
@[match_pattern] abbrev OP_CHECKLOCKTIMEVERIFY : Opcodetype := 0xb1
@[match_pattern] abbrev OP_CHECKSEQUENCEVERIFY : Opcodetype := 0xb2
@[match_pattern] abbrev OP_NOP4 : Opcodetype := 0xb3
@[match_pattern] abbrev OP_NOP10 : Opcodetype := 0xb9

def OP_INVALIDOPCODE : Opcodetype := 0xff

/-! ## Errors -/

/-- `ScriptError`, without `SCRIPT_ERR_OK`. -/
inductive ScriptError where
  | unknownError
  | evalFalse
  | opReturn
  | scriptSize
  | pushSize
  | opCount
  | stackSize
  | sigCount
  | pubkeyCount
  | verify
  | equalVerify
  | checkMultisigVerify
  | checkSigVerify
  | numEqualVerify
  | badOpcode
  | disabledOpcode
  | invalidStackOperation
  | invalidAltstackOperation
  | unbalancedConditional
  | negativeLocktime
  | unsatisfiedLocktime
  | sigHashtype
  | minimalData
  | sigPushonly
  | sigNullDummy
  | pubkeyType
  | cleanStack
  | minimalIf
  | sigNullFail
  | discourageUpgradableNops
  | discourageUpgradableWitnessProgram
  | witnessProgramWrongLength
  | witnessProgramWitnessEmpty
  | witnessProgramMismatch
  | witnessMalleated
  | witnessMalleatedP2SH
  | witnessUnexpected
  | witnessPubkeyType
  deriving DecidableEq

/-! ## Reading and writing instructions -/

/-- The number whose little-endian bytes are given. -/
def ofLE : List UInt8 → Nat
  | [] => 0
  | b :: bytes => b.toNat + 256 * ofLE bytes

/-- The low `n` bytes of a number, little-endian. -/
def toLE : Nat → Nat → List UInt8
  | 0, _ => []
  | n + 1, v => UInt8.ofNat v :: toLE n (v / 256)

/-- The size of an immediate operand that is written in `n` bytes. -/
def readSize (n : Nat) (pc : CScript) : Option (Nat × CScript) :=
  if pc.length < n then none else some (ofLE (pc.take n), pc.drop n)

/-- `GetOp`: the opcode, the data it pushes, and the script behind it. -/
def getOp (pc : CScript) : Option (Opcodetype × Valtype × CScript) :=
  match pc with
  | [] => none
  | opcode :: pc =>
    if opcode ≤ OP_PUSHDATA4 then
      let size :=
        if opcode < OP_PUSHDATA1 then some (opcode.toNat, pc)
        else if opcode = OP_PUSHDATA1 then readSize 1 pc
        else if opcode = OP_PUSHDATA2 then readSize 2 pc
        else readSize 4 pc
      match size with
      | none => none
      | some (nSize, pc) =>
        if pc.length < nSize then none else some (opcode, pc.take nSize, pc.drop nSize)
    else some (opcode, [], pc)

/-- `CScript() << b`: the instruction that pushes `b`. -/
def pushVector (b : Valtype) : CScript :=
  if b.length < OP_PUSHDATA1.toNat then UInt8.ofNat b.length :: b
  else if b.length ≤ 0xff then OP_PUSHDATA1 :: UInt8.ofNat b.length :: b
  else if b.length ≤ 0xffff then OP_PUSHDATA2 :: toLE 2 b.length ++ b
  else OP_PUSHDATA4 :: toLE 4 b.length ++ b

theorem getOp_length {pc rest : CScript} {opcode : Opcodetype} {data : Valtype}
    (h : getOp pc = some (opcode, data, rest)) : rest.length < pc.length := by
  have hread : ∀ {n m : Nat} {pc pc' : CScript}, readSize n pc = some (m, pc') →
      pc'.length ≤ pc.length := by
    intro n m pc pc' hread
    unfold readSize at hread
    split at hread
    · cases hread
    · cases hread
      rw [List.length_drop]
      omega
  cases pc with
  | nil => cases h
  | cons b pc =>
    rw [getOp] at h
    split at h
    · simp only at h
      split at h
      · cases h
      next nSize pc' hsize =>
        have hle : pc'.length ≤ pc.length := by
          split at hsize
          · cases hsize
            exact le_rfl
          · split at hsize
            · exact hread hsize
            · split at hsize
              · exact hread hsize
              · exact hread hsize
        split at h
        · cases h
        · cases h
          rw [List.length_drop, List.length_cons]
          omega
    · cases h
      rw [List.length_cons]
      omega

/-- `while` the script goes on with `b`: how often, and what is behind. -/
def skipMatches (b : CScript) : Nat → CScript → CScript
  | 0, pc => pc
  | fuel + 1, pc => if b.isPrefixOf pc then skipMatches b fuel (pc.drop b.length) else pc

/-- The `do` loop of `FindAndDelete`: `b` is looked for at the start of each
    instruction only. -/
def findAndDeleteLoop (b : CScript) : Nat → CScript → CScript
  | 0, pc => pc
  | fuel + 1, pc =>
    let pc2 := skipMatches b pc.length pc
    match getOp pc2 with
    | none => pc2
    | some (_, _, rest) => pc2.take (pc2.length - rest.length) ++ findAndDeleteLoop b fuel rest

/-- The script after `FindAndDelete(b)`. -/
def findAndDelete (script b : CScript) : CScript :=
  if b.isEmpty then script else findAndDeleteLoop b (script.length + 1) script

/-! ## Script numbers -/

/-- The value of a `CScriptNum`.  Operands have five bytes at most, so no sum or
    difference leaves the range of the source's `int64_t`. -/
abbrev CScriptNum := Int

def nDefaultMaxNumSize : Nat := 4

def setVch (vch : Valtype) : CScriptNum :=
  let result := ofLE vch
  if vch.getLast?.any (fun b => b &&& 0x80 != 0) then
    -- the sign bit is cleared
    -((result ^^^ (0x80 <<< (8 * (vch.length - 1))) : Nat) : Int)
  else result

/-- "If the most-significant-byte - excluding the sign bit - is zero then we're
    not minimal", unless the sign bit would conflict with the next byte. -/
def isMinimallyEncoded (vch : Valtype) : Bool :=
  match vch.reverse with
  | [] => true
  | back :: below =>
    if back &&& 0x7f == 0 then below.head?.any (fun b => b &&& 0x80 != 0) else true

/-- The constructor from bytes; it throws `scriptnum_error`, which the interpreter
    turns into an unknown error. -/
def scriptNum (vch : Valtype) (fRequireMinimal : Bool) (nMaxNumSize : Nat) :
    Except ScriptError CScriptNum := do
  Fallible.failIf (vch.length > nMaxNumSize) .unknownError
  Fallible.failIf (fRequireMinimal && !isMinimallyEncoded vch) .unknownError
  return setVch vch

/-- `getint`, clamped to the range of `int`. -/
def CScriptNum.getint (n : CScriptNum) : Int :=
  if n > 2 ^ 31 - 1 then 2 ^ 31 - 1 else if n < -2 ^ 31 then -2 ^ 31 else n

/-- The bytes of `absvalue` without leading zeros; an `int64_t` has eight. -/
def absBytes : Nat → Nat → List UInt8
  | 0, _ => []
  | fuel + 1, v => if v = 0 then [] else UInt8.ofNat v :: absBytes fuel (v / 256)

/-- `serialize`, and `getvch`. -/
def CScriptNum.getvch (value : CScriptNum) : Valtype :=
  let neg := decide (value < 0)
  let result := absBytes 8 value.natAbs
  match result.reverse with
  | [] => []
  | back :: below =>
    if back &&& 0x80 != 0 then result ++ [if neg then 0x80 else 0]
    else if neg then ((back ||| 0x80) :: below).reverse
    else result

def castToBool : Valtype → Bool
  | [] => false
  -- can be negative zero
  | [b] => b != 0 && b != 0x80
  | b :: c :: vch => if b != 0 then true else castToBool (c :: vch)

/-! ## Templates -/

def isPayToScriptHash (script : CScript) : Bool :=
  script.length == 23 && script.getD 0 0 == OP_HASH160 && script.getD 1 0 == 0x14 &&
    script.getD 22 0 == OP_EQUAL

def decodeOpN (opcode : Opcodetype) : Nat :=
  if opcode = OP_0 then 0 else opcode.toNat - (OP_1.toNat - 1)

/-- The version and the program, where the script is a witness program. -/
def isWitnessProgram (script : CScript) : Option (Nat × Valtype) :=
  if script.length < 4 || script.length > 42 then none
  else if script.getD 0 0 != OP_0 && (script.getD 0 0 < OP_1 || script.getD 0 0 > OP_16) then none
  else if (script.getD 1 0).toNat + 2 == script.length then
    some (decodeOpN (script.getD 0 0), script.drop 2)
  else none

def isPushOnlyLoop : Nat → CScript → Bool
  | 0, _ => true
  | fuel + 1, pc =>
    if pc.isEmpty then true
    else
      match getOp pc with
      | none => false
      | some (opcode, _, rest) => if opcode > OP_16 then false else isPushOnlyLoop fuel rest

def isPushOnly (script : CScript) : Bool := isPushOnlyLoop script.length script

end Rcoin
