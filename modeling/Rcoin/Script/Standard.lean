/-
  `Solver`, `ExtractDestination` and the scripts that are written for destinations and
  for multisig (src/script/standard.cpp): what is written is recognised as what it is.
-/
import Rcoin.Script.Pushes

namespace Rcoin

open List UInt8

/-! ## Destinations -/

/-- `base_blob`, by its bytes. -/
structure BaseBlob (n : Nat) where
  data : List UInt8
  length_data : data.length = n
  deriving DecidableEq

abbrev Uint160 := BaseBlob 20

/-- The constructor from a vector, which asserts the size. -/
def BaseBlob.ofVector {n : Nat} (vch : Valtype) : Option (BaseBlob n) :=
  if h : vch.length = n then some ⟨vch, h⟩ else none

/-- The bytes of `program` up to `length`, which `operator==` compares. -/
structure WitnessUnknown where
  version : UInt32
  program : List UInt8
  length_le : program.length ≤ 40
  deriving DecidableEq

inductive CTxDestination where
  | noDestination
  | keyID (keyID : Uint160)
  | scriptID (scriptID : Uint160)
  | witnessV0ScriptHash (id : BaseBlob 32)
  | witnessV0KeyHash (id : Uint160)
  | witnessUnknown (id : WitnessUnknown)
  deriving DecidableEq

/-! ## Scripts for destinations -/

/-- `none` where an assertion fails. -/
def getScriptForDestination : CTxDestination → Option CScript
  | .noDestination => some []
  | .keyID keyID =>
    some ([OP_DUP, OP_HASH160] ++ pushVector keyID.data ++ [OP_EQUALVERIFY, OP_CHECKSIG])
  | .scriptID scriptID => some ([OP_HASH160] ++ pushVector scriptID.data ++ [OP_EQUAL])
  | .witnessV0ScriptHash id => some ([OP_0] ++ pushVector id.data)
  | .witnessV0KeyHash id => some ([OP_0] ++ pushVector id.data)
  | .witnessUnknown id => do
    let opcode ← encodeOpN id.version.toNat
    return [opcode] ++ pushVector id.program

def getScriptForMultisig (nRequired : Nat) (keys : List (BaseBlob PUBLIC_KEY_SIZE)) :
    Option CScript := do
  let opcodeM ← encodeOpN nRequired
  let opcodeN ← encodeOpN keys.length
  return [opcodeM] ++ keys.flatMap (fun key => pushVector key.data) ++ [opcodeN, OP_CHECKMULTISIG]

/-! ## `Solver` -/

inductive Txnouttype where
  | nonstandard
  | pubkey
  | pubkeyhash
  | scripthash
  | multisig
  | nullData
  | witnessV0Scripthash
  | witnessV0Keyhash
  | witnessUnknown
  deriving DecidableEq

@[match_pattern] abbrev OP_SMALLINTEGER : Opcodetype := 0xfa
@[match_pattern] abbrev OP_PUBKEYS : Opcodetype := 0xfb
@[match_pattern] abbrev OP_PUBKEYHASH : Opcodetype := 0xfd
@[match_pattern] abbrev OP_PUBKEY : Opcodetype := 0xfe

/-- The templates in the order of the map. -/
def mTemplates : List (Txnouttype × List Opcodetype) :=
  [(.pubkey, [OP_PUBKEY, OP_CHECKSIG]),
   (.pubkeyhash, [OP_DUP, OP_HASH160, OP_PUBKEYHASH, OP_EQUALVERIFY, OP_CHECKSIG]),
   (.multisig, [OP_SMALLINTEGER, OP_PUBKEYS, OP_SMALLINTEGER, OP_CHECKMULTISIG])]

/-- `while (vch1.size() == CPubKey::PUBLIC_KEY_SIZE)`: the keys that are pushed, and the
    instruction behind them with the script behind it. -/
def pubkeysLoop : Nat → Opcodetype → Valtype → CScript →
    List Valtype × Opcodetype × Valtype × CScript
  | 0, opcode1, vch1, pc1 => ([], opcode1, vch1, pc1)
  | fuel + 1, opcode1, vch1, pc1 =>
    if vch1.length == PUBLIC_KEY_SIZE then
      match getOp pc1 with
      | none => ([vch1], OP_INVALIDOPCODE, [], pc1)
      | some (opcode1, vch1', pc1) =>
        let (keys, rest) := pubkeysLoop fuel opcode1 vch1' pc1
        (vch1 :: keys, rest)
    else ([], opcode1, vch1, pc1)

/-- What an instruction adds to the solutions, where it fits the opcode of the template. -/
def matchOpcode (opcode2 opcode1 : Opcodetype) (vch1 : Valtype) : Option (List Valtype) :=
  if opcode2 = OP_PUBKEY then if vch1.length == PUBLIC_KEY_SIZE then some [vch1] else none
  else if opcode2 = OP_PUBKEYHASH then if vch1.length == 20 then some [vch1] else none
  else if opcode2 = OP_SMALLINTEGER then
    if opcode1 = OP_0 ∨ (opcode1 ≥ OP_1 ∧ opcode1 ≤ OP_16) then
      some [[ofNat (decodeOpN opcode1)]]
    else none
  else if opcode1 ≠ opcode2 ∨ vch1 ≠ [] then none
  else some []

/-- `while (true)` over the opcodes of the template, none of which pushes data: the
    solutions where the whole script fits. -/
def matchTemplate : List Opcodetype → CScript → Option (List Valtype)
  | [], pc1 => if pc1.isEmpty then some [] else none
  | OP_PUBKEYS :: opcode2 :: pc2, pc1 => do
    let (opcode1, vch1, pc1) ← getOp pc1
    let (keys, opcode1, vch1, pc1) := pubkeysLoop (pc1.length + 1) opcode1 vch1 pc1
    return keys ++ (← matchOpcode opcode2 opcode1 vch1) ++ (← matchTemplate pc2 pc1)
  | opcode2 :: pc2, pc1 => do
    let (opcode1, vch1, pc1) ← getOp pc1
    return (← matchOpcode opcode2 opcode1 vch1) ++ (← matchTemplate pc2 pc1)

/-- The additional checks for `TX_MULTISIG`. -/
def checkMultisigSolutions (vSolutions : List Valtype) : Bool :=
  let m := (vSolutions.headD []).headD 0
  let n := (vSolutions.getLastD []).headD 0
  !(m < 1 || n < 1 || m > n || vSolutions.length - 2 != n.toNat)

/-- `for (tplate : mTemplates)`. -/
def scanTemplates (scriptPubKey : CScript) :
    List (Txnouttype × List Opcodetype) → Bool × Txnouttype × List Valtype
  | [] => (false, .nonstandard, [])
  | (type, script2) :: templates =>
    match matchTemplate script2 scriptPubKey with
    | some vSolutions =>
      (type != .multisig || checkMultisigSolutions vSolutions, type, vSolutions)
    | none => scanTemplates scriptPubKey templates

/-- What is returned, and `typeRet` (given as it was) and `vSolutionsRet`. -/
def solver (scriptPubKey : CScript) (typeRet : Txnouttype) : Bool × Txnouttype × List Valtype :=
  if isPayToScriptHash scriptPubKey then
    (true, .scripthash, [(scriptPubKey.drop 2).take 20])
  else
    match isWitnessProgram scriptPubKey with
    | some (witnessversion, witnessprogram) =>
      if witnessversion == 0 && witnessprogram.length == 20 then
        (true, .witnessV0Keyhash, [witnessprogram])
      else if witnessversion == 0 && witnessprogram.length == 32 then
        (true, .witnessV0Scripthash, [witnessprogram])
      else if witnessversion != 0 then
        (true, .witnessUnknown, [[ofNat witnessversion], witnessprogram])
      else (false, typeRet, [])
    | none =>
      if scriptPubKey.length ≥ 1 && scriptPubKey.getD 0 0 == OP_RETURN &&
          isPushOnly (scriptPubKey.drop 1) then
        (true, .nullData, [])
      else scanTemplates scriptPubKey mTemplates

/-- The destination where `true` is returned; `hash160` is `Hash160`. -/
def extractDestination (hash160 : Valtype → Uint160) (scriptPubKey : CScript) :
    Option CTxDestination :=
  match solver scriptPubKey .nonstandard with
  | (true, .pubkey, [vch]) => some (.keyID (hash160 vch))
  | (true, .pubkeyhash, [vch]) => (BaseBlob.ofVector vch).map .keyID
  | (true, .scripthash, [vch]) => (BaseBlob.ofVector vch).map .scriptID
  | (true, .witnessV0Keyhash, [vch]) => (BaseBlob.ofVector vch).map .witnessV0KeyHash
  | (true, .witnessV0Scripthash, [vch]) => (BaseBlob.ofVector vch).map .witnessV0ScriptHash
  | (true, .witnessUnknown, [version, program]) =>
    if h : program.length ≤ 40 then
      some (.witnessUnknown ⟨(version.headD 0).toUInt32, program, h⟩)
    else none
  | _ => none

/-! ## The shortcuts -/

theorem BaseBlob.ofVector_data {n : Nat} (blob : BaseBlob n) :
    BaseBlob.ofVector blob.data = some blob :=
  dif_pos blob.length_data

theorem pushVector_of_lt {b : Valtype} (h : b.length < 76) :
    pushVector b = ofNat b.length :: b := by
  exact if_pos h

variable {b : UInt8}

theorem isPayToScriptHash_cons (h : b ≠ OP_HASH160) (pc : CScript) :
    isPayToScriptHash (b :: pc) = false := by
  unfold isPayToScriptHash
  rw [getD_cons_zero, beq_false_of_ne h, Bool.and_false, Bool.false_and, Bool.false_and]

theorem isPayToScriptHash_pushVector (scriptID : Uint160) :
    isPayToScriptHash ([OP_HASH160] ++ pushVector scriptID.data ++ [OP_EQUAL]) = true := by
  obtain ⟨data, hlen⟩ := scriptID
  have hlast : (data ++ [OP_EQUAL]).getD 20 0 = OP_EQUAL := by
    rw [getD_eq_getElem?_getD, getElem?_append_right (Nat.le_of_eq hlen), hlen]
    rfl
  have hsize : (data ++ [OP_EQUAL]).length = 21 := by
    rw [length_append, hlen]
    rfl
  rw [pushVector_of_lt (by rw [hlen]; decide)]
  show ((data ++ [OP_EQUAL]).length + 1 + 1 == 23 && true && ofNat data.length == 0x14 &&
    (data ++ [OP_EQUAL]).getD 20 0 == OP_EQUAL) = true
  rw [hlast, hsize, hlen]
  rfl

variable {opcode : Opcodetype} {program : Valtype}

theorem isWitnessProgram_pushVector (hop : opcode = OP_0 ∨ OP_1 ≤ opcode ∧ opcode ≤ OP_16)
    (hlow : 2 ≤ program.length) (hhigh : program.length ≤ 40) :
    isWitnessProgram ([opcode] ++ pushVector program) = some (decodeOpN opcode, program) := by
  have hsize : (ofNat program.length).toNat = program.length := by
    rw [toNat_ofNat']
    omega
  have hversion : ¬(opcode != OP_0 && (decide (opcode < OP_1) || decide (opcode > OP_16))) := by
    rw [Bool.and_eq_true, Bool.or_eq_true, decide_eq_true_eq, decide_eq_true_eq, bne_iff_ne]
    rintro ⟨hne, hout⟩
    obtain ⟨h1, h16⟩ := hop.resolve_left hne
    exact hout.elim (UInt8.not_lt.mpr h1) (UInt8.not_lt.mpr h16)
  rw [pushVector_of_lt (by omega), singleton_append]
  unfold isWitnessProgram
  rw [getD_cons_succ, getD_cons_zero, getD_cons_zero, if_neg hversion, hsize,
    length_cons, length_cons, if_neg, if_pos (beq_self_eq_true _)]
  · rfl
  · rw [Bool.or_eq_true, decide_eq_true_eq, decide_eq_true_eq]
    omega

theorem isWitnessProgram_cons (hzero : b ≠ OP_0) (h : b < OP_1 ∨ b > OP_16) (pc : CScript)
    : isWitnessProgram (b :: pc) = none := by
  unfold isWitnessProgram
  rw [getD_cons_zero, bne_iff_ne.mpr hzero, Bool.true_and]
  split
  · rfl
  · rw [if_pos]
    rwa [Bool.or_eq_true, decide_eq_true_eq, decide_eq_true_eq]

/-! ## The templates -/

variable {pc1 rest : CScript} {opcode1 : Opcodetype} {vch : Valtype} {fuel : Nat}

theorem pubkeysLoop_succ {key : BaseBlob PUBLIC_KEY_SIZE}
    (h : getOp pc1 = some (opcode, vch, rest)) :
    pubkeysLoop (fuel + 1) opcode1 key.data pc1 =
      (key.data :: (pubkeysLoop fuel opcode vch rest).1, (pubkeysLoop fuel opcode vch rest).2) := by
  rw [pubkeysLoop, if_pos (beq_iff_eq.mpr key.length_data), h]

variable {opcodeN : Opcodetype}

theorem pubkeysLoop_keys (hn : OP_PUSHDATA4 < opcodeN) (tail : CScript)
    (keys : List (BaseBlob PUBLIC_KEY_SIZE)) (key : BaseBlob PUBLIC_KEY_SIZE)
    (hfuel : keys.length < fuel) (opcode1 : Opcodetype) : pubkeysLoop fuel opcode1 key.data
        (keys.flatMap (fun key => pushVector key.data) ++ opcodeN :: tail) =
      ((key :: keys).map BaseBlob.data, opcodeN, [], tail) := by
  induction keys generalizing key fuel opcode1 with
  | nil =>
    obtain ⟨fuel, rfl⟩ := Nat.exists_eq_add_one.mpr hfuel
    rw [flatMap_nil, nil_append, pubkeysLoop_succ (getOp_of_lt hn tail)]
    cases fuel <;> rfl
  | cons next keys ih =>
    rw [length_cons] at hfuel
    obtain ⟨fuel, rfl⟩ := Nat.exists_eq_add_one.mpr (by omega : 0 < fuel)
    have hlen : next.data.length < 256 ^ 4 := by
      rw [next.length_data]
      decide
    rw [flatMap_cons, append_assoc, pubkeysLoop_succ (getOp_pushVector hlen _),
      ih next (by omega)]
    rfl

theorem pushVector_key (key : BaseBlob PUBLIC_KEY_SIZE) :
    pushVector key.data = 0x20 :: key.data := by
  rw [pushVector_of_lt (by rw [key.length_data]; decide), key.length_data]
  rfl

theorem length_flatMap_pushVector (keys : List (BaseBlob PUBLIC_KEY_SIZE)) :
    (keys.flatMap fun key => pushVector key.data).length = 33 * keys.length := by
  induction keys with
  | nil => rfl
  | cons key keys ih =>
    have hlen : key.data.length = 32 := key.length_data
    rw [flatMap_cons, length_append, pushVector_key, length_cons, length_cons,
      ih, hlen]
    omega

variable {opcode2 : Opcodetype} {pc2 : List Opcodetype} {vch1 : Valtype}

theorem matchTemplate_cons (hne : opcode2 ≠ OP_PUBKEYS)
    (hget : getOp pc1 = some (opcode1, vch1, rest)) : matchTemplate (opcode2 :: pc2) pc1 =
      (matchOpcode opcode2 opcode1 vch1).bind fun vSolutions =>
        (matchTemplate pc2 rest).map (vSolutions ++ ·) := by
  rw [matchTemplate, hget]
  · show (matchOpcode opcode2 opcode1 vch1).bind _ = _
    cases matchOpcode opcode2 opcode1 vch1 with
    | none => rfl
    | some vSolutions => cases matchTemplate pc2 rest <;> rfl
  · exact fun _ _ h _ => hne h

theorem matchTemplate_pubkeys {tail : CScript} {keys : List Valtype}
    (hget : getOp pc1 = some (opcode1, vch1, rest))
    (hkeys : pubkeysLoop (rest.length + 1) opcode1 vch1 rest = (keys, opcode, vch, tail)) :
    matchTemplate (OP_PUBKEYS :: opcode2 :: pc2) pc1 =
      (matchOpcode opcode2 opcode vch).bind fun vSolutions =>
        (matchTemplate pc2 tail).map (keys ++ vSolutions ++ ·) := by
  show (getOp pc1).bind _ = _
  rw [hget, Option.bind_some]
  simp only [hkeys]
  cases matchOpcode opcode2 opcode vch with
  | none => rfl
  | some vSolutions => cases matchTemplate pc2 tail <;> rfl

variable {m : Nat} {keys : List (BaseBlob PUBLIC_KEY_SIZE)} {opcodeM : Opcodetype}

theorem matchTemplate_multisig {n : Nat} (hm : OP_1 ≤ opcodeM ∧ opcodeM ≤ OP_16)
    (hn : OP_1 ≤ opcodeN ∧ opcodeN ≤ OP_16) (hdm : decodeOpN opcodeM = m)
    (hdn : decodeOpN opcodeN = n) (hkeys : keys ≠ []) :
    matchTemplate [OP_SMALLINTEGER, OP_PUBKEYS, OP_SMALLINTEGER, OP_CHECKMULTISIG]
        ([opcodeM] ++ keys.flatMap (fun key => pushVector key.data) ++
          [opcodeN, OP_CHECKMULTISIG]) =
      some ([[ofNat m]] ++ keys.map BaseBlob.data ++ [[ofNat n]]) := by
  obtain ⟨key, keys, rfl⟩ := exists_cons_of_ne_nil hkeys
  have hlen : key.data.length < 256 ^ 4 := by
    rw [key.length_data]
    decide
  have hpushM : OP_PUSHDATA4 < opcodeM := UInt8.lt_of_lt_of_le (by decide) hm.1
  have hpushN : OP_PUSHDATA4 < opcodeN := UInt8.lt_of_lt_of_le (by decide) hn.1
  have hsmall : ∀ {opcode : Opcodetype} {k : Nat}, OP_1 ≤ opcode ∧ opcode ≤ OP_16 →
      decodeOpN opcode = k → matchOpcode OP_SMALLINTEGER opcode [] = some [[ofNat k]] := by
    rintro opcode k hop rfl
    exact if_pos (Or.inr hop)
  have hfuel : keys.length <
      (keys.flatMap (fun key => pushVector key.data) ++ [opcodeN, OP_CHECKMULTISIG]).length + 1 := by
    rw [length_append, length_flatMap_pushVector]
    omega
  have htail : matchTemplate [OP_CHECKMULTISIG] [OP_CHECKMULTISIG] = some [] := rfl
  rw [append_assoc, singleton_append,
    matchTemplate_cons (by decide) (getOp_of_lt hpushM _), hsmall hm hdm, flatMap_cons,
    append_assoc,
    matchTemplate_pubkeys (getOp_pushVector hlen _) (pubkeysLoop_keys hpushN _ keys key hfuel _),
    hsmall hn hdn, Option.bind_some, Option.bind_some, htail, Option.map_some, Option.map_some,
    append_nil, append_assoc]

theorem matchTemplate_eq_none (hne : opcode2 ≠ OP_PUBKEYS)
    (hget : getOp pc1 = some (opcode1, vch1, rest)) (h : matchOpcode opcode2 opcode1 vch1 = none)
    : matchTemplate (opcode2 :: pc2) pc1 = none := by
  rw [matchTemplate_cons hne hget, h]
  rfl

/-! ## What is written is recognised -/

theorem solver_eq_scanTemplates (hhash : b ≠ OP_HASH160) (hreturn : b ≠ OP_RETURN) {pc : CScript}
    (hwitness : isWitnessProgram (b :: pc) = none) (typeRet : Txnouttype) :
    solver (b :: pc) typeRet = scanTemplates (b :: pc) mTemplates := by
  unfold solver
  rw [isPayToScriptHash_cons hhash, hwitness, getD_cons_zero, beq_false_of_ne hreturn,
    Bool.and_false, Bool.false_and]
  rfl

theorem solver_pushVector (hop : opcode = OP_0 ∨ OP_1 ≤ opcode ∧ opcode ≤ OP_16)
    (hlow : 2 ≤ program.length) (hhigh : program.length ≤ 40) (typeRet : Txnouttype) :
    solver ([opcode] ++ pushVector program) typeRet =
      if decodeOpN opcode == 0 && program.length == 20 then (true, .witnessV0Keyhash, [program])
      else if decodeOpN opcode == 0 && program.length == 32 then
        (true, .witnessV0Scripthash, [program])
      else if decodeOpN opcode != 0 then
        (true, .witnessUnknown, [[ofNat (decodeOpN opcode)], program])
      else (false, typeRet, []) := by
  have hne : opcode ≠ OP_HASH160 := by
    rintro rfl
    revert hop
    decide
  unfold solver
  rw [isWitnessProgram_pushVector hop hlow hhigh, singleton_append, isPayToScriptHash_cons hne]
  rfl

theorem solver_keyID (keyID : Uint160) (typeRet : Txnouttype) :
    solver ([OP_DUP, OP_HASH160] ++ pushVector keyID.data ++ [OP_EQUALVERIFY, OP_CHECKSIG]) typeRet =
      (true, .pubkeyhash, [keyID.data]) := by
  have hlen : keyID.data.length < 256 ^ 4 := by
    rw [keyID.length_data]
    decide
  have hpubkey : ∀ pc, matchTemplate [OP_PUBKEY, OP_CHECKSIG] (OP_DUP :: pc) = none :=
    fun pc => matchTemplate_eq_none (by decide) (getOp_of_lt (by decide) pc) rfl
  have hhash : matchOpcode OP_PUBKEYHASH (pushOpcode keyID.data) keyID.data = some [keyID.data] :=
    if_pos (beq_iff_eq.mpr keyID.length_data)
  have htail : matchTemplate [OP_EQUALVERIFY, OP_CHECKSIG] [OP_EQUALVERIFY, OP_CHECKSIG] =
      some [] := rfl
  rw [append_assoc, cons_append, singleton_append, solver_eq_scanTemplates (by decide)
    (by decide) (isWitnessProgram_cons (by decide) (by decide) _)]
  rw [mTemplates, scanTemplates, hpubkey, scanTemplates,
    matchTemplate_cons (by decide) (getOp_of_lt (by decide) _),
    matchTemplate_cons (by decide) (getOp_of_lt (by decide) _),
    matchTemplate_cons (by decide) (getOp_pushVector hlen _), hhash, Option.bind_some, htail]
  rfl

/-- A destination that a script can name. -/
def CTxDestination.Spendable : CTxDestination → Prop
  | .noDestination => False
  | .witnessUnknown id => 1 ≤ id.version.toNat ∧ id.version.toNat ≤ 16 ∧ 2 ≤ id.program.length
  | _ => True

theorem extractDestination_getScript (hash160 : Valtype → Uint160) {dest : CTxDestination}
    (h : dest.Spendable) :
    ∃ script, getScriptForDestination dest = some script ∧
      extractDestination hash160 script = some dest := by
  cases dest with
  | noDestination => exact h.elim
  | keyID keyID =>
    refine ⟨_, rfl, ?_⟩
    unfold extractDestination
    rw [solver_keyID]
    exact congrArg (Option.map _) keyID.ofVector_data
  | scriptID scriptID =>
    refine ⟨_, rfl, ?_⟩
    have hbytes : (([OP_HASH160] ++ pushVector scriptID.data ++ [OP_EQUAL]).drop 2).take 20 =
        scriptID.data := by
      rw [pushVector_of_lt (by rw [scriptID.length_data]; decide)]
      exact take_left' scriptID.length_data
    unfold extractDestination solver
    rw [if_pos (isPayToScriptHash_pushVector scriptID), hbytes]
    exact congrArg (Option.map _) scriptID.ofVector_data
  | witnessV0ScriptHash id =>
    have hlen := id.length_data
    refine ⟨_, rfl, ?_⟩
    unfold extractDestination
    rw [solver_pushVector (.inl rfl) (by omega) (by omega), hlen]
    exact congrArg (Option.map _) id.ofVector_data
  | witnessV0KeyHash id =>
    have hlen := id.length_data
    refine ⟨_, rfl, ?_⟩
    unfold extractDestination
    rw [solver_pushVector (.inl rfl) (by omega) (by omega), hlen]
    exact congrArg (Option.map _) id.ofVector_data
  | witnessUnknown id =>
    obtain ⟨version, program, hle⟩ := id
    obtain ⟨hlow, hhigh, hlen⟩ : 1 ≤ version.toNat ∧ version.toNat ≤ 16 ∧ 2 ≤ program.length := h
    obtain ⟨opcode, hencode, -, hop1, hop16, hdecode⟩ := exists_encodeOpN hlow hhigh
    refine ⟨[opcode] ++ pushVector program, ?_, ?_⟩
    · rw [getScriptForDestination, hencode]
      rfl
    unfold extractDestination
    have hzero : (version.toNat == 0) = false := beq_false_of_ne (by omega)
    have hversion : (ofNat version.toNat).toUInt32 = version := by
      apply UInt32.toNat_inj.mp
      rw [toNat_toUInt32, toNat_ofNat']
      omega
    rw [solver_pushVector (.inr ⟨hop1, hop16⟩) hlen hle, hdecode, hzero, bne, hzero]
    show (if h : _ then _ else _) = _
    rw [dif_pos hle, headD_cons, hversion]

theorem checkMultisigSolutions_eq_true {keys : List Valtype} (hlow : 1 ≤ m) (hle : m ≤ keys.length)
    (hhigh : keys.length ≤ 16) :
    checkMultisigSolutions ([[ofNat m]] ++ keys ++ [[ofNat keys.length]]) = true := by
  have hm : (ofNat m).toNat = m := by
    rw [toNat_ofNat']
    omega
  have hn : (ofNat keys.length).toNat = keys.length := by
    rw [toNat_ofNat']
    omega
  have hlength : ([[ofNat m]] ++ keys ++ [[ofNat keys.length]]).length - 2 =
      keys.length := by
    rw [length_append, length_append, length_singleton, length_singleton]
    omega
  unfold checkMultisigSolutions
  rw [hlength, getLastD_concat]
  show (!(decide (ofNat m < 1) || decide (ofNat keys.length < 1) ||
    decide (ofNat m > ofNat keys.length) ||
    keys.length != (ofNat keys.length).toNat)) = true
  rw [decide_eq_false, decide_eq_false, decide_eq_false, hn, bne_self_eq_false]
  · rfl
  · rw [UInt8.not_lt, UInt8.le_iff_toNat_le, hm, hn]
    exact hle
  · rw [UInt8.not_lt, UInt8.le_iff_toNat_le, hn]
    exact Nat.le_trans hlow hle
  · rw [UInt8.not_lt, UInt8.le_iff_toNat_le, hm]
    exact hlow

theorem solver_multisig (hlow : 1 ≤ m) (hle : m ≤ keys.length) (hhigh : keys.length ≤ 16)
    (hm : OP_1 ≤ opcodeM ∧ opcodeM ≤ OP_16) (hn : OP_1 ≤ opcodeN ∧ opcodeN ≤ OP_16)
    (hdm : decodeOpN opcodeM = m) (hdn : decodeOpN opcodeN = keys.length) (typeRet : Txnouttype) :
    solver ([opcodeM] ++ keys.flatMap (fun key => pushVector key.data) ++
        [opcodeN, OP_CHECKMULTISIG]) typeRet =
      (true, .multisig,
        [[ofNat m]] ++ keys.map BaseBlob.data ++ [[ofNat keys.length]]) := by
  have hne : ∀ {opcode : Opcodetype}, OP_16 < opcode → opcodeM ≠ opcode := by
    rintro opcode hlt rfl
    exact UInt8.not_lt.mpr hm.2 hlt
  have hpushM : OP_PUSHDATA4 < opcodeM := UInt8.lt_of_lt_of_le (by decide) hm.1
  have hkeys : keys ≠ [] := by
    rintro rfl
    exact absurd (Nat.le_trans hlow hle) (by decide)
  have hmatch := matchTemplate_multisig hm hn hdm hdn hkeys
  have hpubkey : ∀ pc, matchTemplate [OP_PUBKEY, OP_CHECKSIG] (opcodeM :: pc) = none :=
    fun pc => matchTemplate_eq_none (by decide) (getOp_of_lt hpushM pc) rfl
  have hpubkeyhash : ∀ pc, matchTemplate
      [OP_DUP, OP_HASH160, OP_PUBKEYHASH, OP_EQUALVERIFY, OP_CHECKSIG] (opcodeM :: pc) = none :=
    fun pc => matchTemplate_eq_none (by decide) (getOp_of_lt hpushM pc) <| by
      show (if opcodeM ≠ OP_DUP ∨ ([] : Valtype) ≠ [] then none else some []) = none
      exact if_pos (.inl (hne (by decide)))
  have hwitness : isWitnessProgram ([opcodeM] ++ keys.flatMap (fun key => pushVector key.data) ++
      [opcodeN, OP_CHECKMULTISIG]) = none := by
    -- a program of 32 bytes would have to end the script
    obtain ⟨key, rest, rfl⟩ := exists_cons_of_ne_nil hkeys
    have hlength := length_flatMap_pushVector (key :: rest)
    have hsize : ([opcodeM] ++ (key :: rest).flatMap (fun key => pushVector key.data) ++
        [opcodeN, OP_CHECKMULTISIG]).length = 33 * (key :: rest).length + 3 := by
      rw [length_append, length_append, hlength, length_singleton]
      exact congrArg (· + 2) (Nat.add_comm 1 _)
    unfold isWitnessProgram
    rw [hsize, flatMap_cons, pushVector_key]
    split
    · rfl
    · split
      · rfl
      · rw [if_neg]
        show ¬(0x20 + 2 == 33 * (key :: rest).length + 3) = true
        rw [beq_iff_eq]
        omega
  have hcheck := @checkMultisigSolutions_eq_true _ (keys.map BaseBlob.data) hlow
    (by rwa [length_map]) (by rwa [length_map])
  rw [length_map] at hcheck
  rw [append_assoc, singleton_append] at hmatch hwitness ⊢
  rw [solver_eq_scanTemplates (hne (by decide)) (hne (by decide)) hwitness, mTemplates,
    scanTemplates, hpubkey, scanTemplates, hpubkeyhash, scanTemplates, hmatch]
  show (_ || checkMultisigSolutions _, _) = _
  rw [hcheck]
  rfl

/-- The script that is written for a destination is recognised as that destination, and
    the one for a multisig as the numbers and the keys in their order. -/
theorem standard_scripts_recognised (hash160 : Valtype → Uint160) :
    (∀ dest : CTxDestination, dest.Spendable →
      ∃ script, getScriptForDestination dest = some script ∧
        extractDestination hash160 script = some dest) ∧
    ∀ (nRequired : Nat) (keys : List (BaseBlob PUBLIC_KEY_SIZE)) (typeRet : Txnouttype),
      1 ≤ nRequired → nRequired ≤ keys.length → keys.length ≤ 16 →
      ∃ script, getScriptForMultisig nRequired keys = some script ∧
        solver script typeRet = (true, .multisig,
          [[ofNat nRequired]] ++ keys.map BaseBlob.data ++ [[ofNat keys.length]]) := by
  refine ⟨fun dest h => extractDestination_getScript hash160 h,
    fun nRequired keys typeRet hlow hle hhigh => ?_⟩
  obtain ⟨opcodeM, hencodeM, -, hm1, hm16, hdm⟩ := exists_encodeOpN hlow (Nat.le_trans hle hhigh)
  obtain ⟨opcodeN, hencodeN, -, hn1, hn16, hdn⟩ := exists_encodeOpN (Nat.le_trans hlow hle) hhigh
  refine ⟨_, ?_, solver_multisig hlow hle hhigh ⟨hm1, hm16⟩ ⟨hn1, hn16⟩ hdm hdn typeRet⟩
  rw [getScriptForMultisig, hencodeM, hencodeN]
  rfl

theorem standard_scripts_recognised_sample :
    (∃ script, getScriptForDestination (.witnessUnknown ⟨1, [2, 3], by decide⟩) = some script ∧
      extractDestination (fun _ => ⟨replicate 20 0, rfl⟩) script =
        some (.witnessUnknown ⟨1, [2, 3], by decide⟩)) ∧
      ∃ script, getScriptForMultisig 2 [⟨replicate 32 7, rfl⟩, ⟨replicate 32 8, rfl⟩,
          ⟨replicate 32 9, rfl⟩] = some script ∧
        solver script .nonstandard = (true, .multisig,
          [[2], replicate 32 7, replicate 32 8, replicate 32 9, [3]]) :=
  ⟨(standard_scripts_recognised _).1 (.witnessUnknown ⟨1, [2, 3], by decide⟩)
      ⟨by decide, by decide, by decide⟩,
    (standard_scripts_recognised fun _ => ⟨replicate 20 0, rfl⟩).2 2
      [⟨replicate 32 7, rfl⟩, ⟨replicate 32 8, rfl⟩, ⟨replicate 32 9, rfl⟩] .nonstandard
      (by decide) (by decide) (by decide)⟩

/-- There is no opcode for version 17. -/
theorem witnessUnknown_version_17 :
    ¬∀ (hash160 : Valtype → Uint160) (dest : CTxDestination), dest ≠ .noDestination →
      ∃ script, getScriptForDestination dest = some script ∧
        extractDestination hash160 script = some dest := by
  intro h
  obtain ⟨script, hscript, -⟩ := h (fun _ => ⟨replicate 20 0, rfl⟩)
    (.witnessUnknown ⟨17, [2, 3], by decide⟩) (nomatch ·)
  cases hscript

end Rcoin
