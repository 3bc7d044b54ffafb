/-
  Addresses (src/key_io.cpp): a destination is written in base 58 with a checksum or in
  bech32, with what src/chainparams.cpp has for the network, and read back.
-/
import Rcoin.Chain.Subsidy
import Rcoin.Encoding.Base58
import Rcoin.Encoding.Bech32
import Rcoin.Encoding.ConvertBits
import Rcoin.Script.Standard

namespace Rcoin

open BaseBlob List Bech32 CChainParams

/-! ## The networks -/

/-- `base58Prefixes[PUBKEY_ADDRESS]`. -/
def CChainParams.pubkeyAddress : CChainParams → List UInt8
  | main => [60]
  | test => [111]
  | regTest => [111]

/-- `base58Prefixes[SCRIPT_ADDRESS]`. -/
def CChainParams.scriptAddress : CChainParams → List UInt8
  | main => [13]
  | test => [196]
  | regTest => [196]

/-- `"rc"`, `"tr"` and `"rcrt"`. -/
def CChainParams.bech32HRP : CChainParams → List UInt8
  | main => [114, 99]
  | test => [116, 114]
  | regTest => [114, 99, 114, 116]

namespace KeyIo

open Base58 ConvertBits

section

-- `hash` is `Hash`.
variable (hash : List UInt8 → BaseBlob 32)

/-! ## The checksum -/

def encodeBase58Check (vchIn : List UInt8) : Except Fault (List UInt8) :=
  -- add 4-byte hash check to the end
  encodeBase58 (vchIn ++ (hash vchIn).data.take 4)

def decodeBase58Check (str : List UInt8) : Except Fault (Option (List UInt8)) := do
  match ← decodeBase58String str with
  | none => return none
  | some vchRet =>
    if vchRet.length < 4 then return none
    else
      let data := vchRet.take (vchRet.length - 4)
      -- re-calculate the checksum, ensure it matches the included 4-byte checksum
      return if (hash data).data.take 4 == vchRet.drop (vchRet.length - 4) then some data else none

/-! ## Writing -/

def witnessValues (version : UInt8) (program : List UInt8) : List UInt8 :=
  version :: (convertBits 8 5 true program).2

/-- `DestinationEncoder`. -/
def encodeDestination (params : CChainParams) : CTxDestination → Except Fault (List UInt8)
  | .keyID id => encodeBase58Check hash (params.pubkeyAddress ++ id.data)
  | .scriptID id => encodeBase58Check hash (params.scriptAddress ++ id.data)
  | .witnessV0KeyHash id => .ok (encode params.bech32HRP (witnessValues 0 id.data))
  | .witnessV0ScriptHash id => .ok (encode params.bech32HRP (witnessValues 0 id.data))
  | .witnessUnknown id =>
    if id.version < 1 ∨ id.version > 16 ∨ id.program.length < 2 ∨ id.program.length > 40 then .ok []
    else .ok (encode params.bech32HRP (witnessValues id.version.toUInt8 id.program))
  | .noDestination => .ok []

/-! ## Reading -/

/-- The hash behind the version bytes, where these are there and the size is right. -/
def hashBehind (version data : List UInt8) : Option Uint160 :=
  if data.length == 20 + version.length && version.isPrefixOf data then
    ofVector (data.drop version.length)
  else none

/-- What a version and a program stand for. -/
def witnessDestination (version : UInt8) (data : List UInt8) : CTxDestination :=
  if version = 0 then
    match ofVector data with
    | some keyid => .witnessV0KeyHash keyid
    | none =>
      match ofVector data with
      | some scriptid => .witnessV0ScriptHash scriptid
      | none => .noDestination
  else if h : version > 16 ∨ data.length < 2 ∨ data.length > 40 then .noDestination
  else .witnessUnknown ⟨version.toUInt32, data, by omega⟩

/-- The part of `DecodeDestination` behind base 58. -/
def decodeBech32 (params : CChainParams) (str : List UInt8) : CTxDestination :=
  let bech := decode str
  match bech.2 with
  | [] => .noDestination
  | version :: values =>
    if bech.1 == params.bech32HRP then
      let (ok, data) := convertBits 5 8 false values
      if ok then witnessDestination version data else .noDestination
    else .noDestination

def decodeDestination (params : CChainParams) (str : List UInt8) :
    Except Fault CTxDestination := do
  match ← decodeBase58Check hash str with
  | some data =>
    match hashBehind params.pubkeyAddress data with
    | some id => return .keyID id
    | none =>
      match hashBehind params.scriptAddress data with
      | some id => return .scriptID id
      | none => return decodeBech32 params str
  | none => return decodeBech32 params str

variable {hash}

/-! ## Base 58 with a checksum -/

variable (hash) in
theorem decodeBase58Check_encode {data : List UInt8} (hlen : data.length ≤ 40) :
    ∃ str, encodeBase58Check hash data = .ok str ∧ decodeBase58Check hash str = .ok (some data) := by
  have hfour : ((hash data).data.take 4).length = 4 := by
    rw [length_take, (hash data).length_data]
    rfl
  have hsum : (data ++ (hash data).data.take 4).length = data.length + 4 := by
    rw [length_append, hfour]
  have hfits : FitsInt (data ++ (hash data).data.take 4) := by
    have hzeroes := (@List.takeWhile_sublist _ (data ++ (hash data).data.take 4) (· == 0)).length_le
    have hrest := (@dropWhile_suffix _ (data ++ (hash data).data.take 4) (· == 0)).length_le
    unfold FitsInt encodedSize
    omega
  obtain ⟨str, hstr, hback⟩ := (roundTrips_iff _).mpr hfits
  refine ⟨str, hstr, ?_⟩
  rw [decodeBase58Check, hback]
  show (if _ then _ else _) = _
  rw [hsum, Nat.add_sub_cancel, take_left, drop_left, if_neg (by omega),
    if_pos (beq_self_eq_true _)]
  rfl

variable (hash) in
theorem exists_decodeBase58Check {str : List UInt8} (hlen : str.length ≤ 90) :
    ∃ r, decodeBase58Check hash str = .ok r := by
  have hok : ∃ r, decodeBase58String str = .ok r := by
    cases hstr : decodeBase58String str with
    | error fault =>
      obtain ⟨-, hlong⟩ := decodeBase58_fault (by omega) hstr
      omega
    | ok r => exact ⟨r, rfl⟩
  obtain ⟨r, hr⟩ := hok
  rw [decodeBase58Check, hr]
  cases r with
  | none => exact ⟨none, rfl⟩
  | some vch =>
    by_cases hshort : vch.length < 4
    · exact ⟨none, if_pos hshort⟩
    · exact ⟨_, if_neg hshort⟩

theorem hashBehind_append (version : List UInt8) (id : Uint160) :
    hashBehind version (version ++ id.data) = some id := by
  rw [hashBehind, length_append, id.length_data, Nat.add_comm, beq_self_eq_true,
    drop_left, if_pos, ofVector_data]
  rw [Bool.true_and, isPrefixOf_iff_prefix]
  exact prefix_append ..

theorem hashBehind_pubkey_script (params : CChainParams) (id : Uint160) :
    hashBehind params.pubkeyAddress (params.scriptAddress ++ id.data) = none := by
  have hne : params.pubkeyAddress.isPrefixOf (params.scriptAddress ++ id.data) = false := by
    cases params <;> rfl
  rw [hashBehind, hne, Bool.and_false]
  rfl

/-! ## Bech32 -/

variable {version : UInt8} {program : List UInt8}

theorem witnessValues_spec (hversion : version ≤ 16) (hlen : program.length ≤ 40) :
    (∀ v ∈ witnessValues version program, v < 32) ∧ (witnessValues version program).length ≤ 65 := by
  have hprogram : ∀ b ∈ program, b.toNat < 2 ^ 8 := fun b _ => b.toNat_lt
  obtain ⟨k, padding, hpadding, hk, hdigits⟩ :=
    @convertBits_pad 8 5 _ (by decide) (by decide) (by decide) hprogram
  refine ⟨forall_mem_cons.mpr ⟨UInt8.lt_of_le_of_lt hversion (by decide), fun v hv => ?_⟩, ?_⟩
  · have hmem : v.toNat ∈ (convertBits 8 5 true program).2.map (·.toNat) := mem_map_of_mem hv
    rw [hdigits] at hmem
    exact UInt8.lt_iff_toNat_lt.mpr (Digits.lt_of_mem_digits hmem)
  · have hcount := congrArg List.length hdigits
    rw [length_map, Digits.length_digits] at hcount
    rw [witnessValues, length_cons, hcount]
    omega

variable {params : CChainParams}

theorem length_encode_le {values : List UInt8} (h : values.length ≤ 65) :
    (encode params.bech32HRP values).length ≤ 90 := by
  have hhrp : params.bech32HRP.length ≤ 4 := by cases params <;> decide
  rw [encode, length_append, length_cons, length_map, length_append,
    length_createChecksum]
  omega

theorem decodeDestination_encode (hversion : version ≤ 16) (hlen : program.length ≤ 40)
    (hnot : ∀ data, decodeBase58Check hash
      (encode params.bech32HRP (witnessValues version program)) ≠ .ok (some data)) :
    decodeDestination hash params
        (encode params.bech32HRP (witnessValues version program)) =
      .ok (witnessDestination version program) := by
  obtain ⟨hvalues, hcount⟩ := witnessValues_spec hversion hlen
  have hhrp : params.bech32HRP ≠ [] ∧
      ∀ c ∈ params.bech32HRP, lowerCase c = c ∧ 33 ≤ c ∧ c ≤ 126 := by
    cases params <;> simp [bech32HRP, lowerCase]
  have hencoded := @length_encode_le params _ hcount
  have hback := decode_encode hhrp.1 hhrp.2 hvalues hencoded
  have hconvert : convertBits 5 8 false (convertBits 8 5 true program).2 = (true, program) :=
    convertBits_convertBits (by decide) (by decide) (by decide) fun b _ => b.toNat_lt
  obtain ⟨r, hr⟩ := exists_decodeBase58Check hash hencoded
  have hnone : r = none := by
    cases r with
    | none => rfl
    | some data => exact absurd hr (hnot _)
  rw [decodeDestination, hr, hnone]
  show Except.ok (decodeBech32 params _) = _
  rw [decodeBech32, hback]
  simp only [witnessValues, beq_self_eq_true, if_true, hconvert]

end

theorem decodeBase58Check_id (hash : List UInt8 → BaseBlob 32) {version : List UInt8}
    (hversion : version.length ≤ 20) (id : Uint160) :
    ∃ str, encodeBase58Check hash (version ++ id.data) = .ok str ∧
      decodeBase58Check hash str = .ok (some (version ++ id.data)) := by
  apply decodeBase58Check_encode
  rw [length_append, id.length_data]
  omega

theorem toNat_toUInt8_version {version : UInt32} (h : version.toNat ≤ 16) :
    version.toUInt8.toNat = version.toNat := by
  rw [UInt32.toNat_toUInt8]
  omega

/-- On every network, a destination that a script can name is read back from its address,
    assuming that this is not a bech32 string that is also valid base 58 with a checksum. -/
theorem decode_encodeDestination (hash : List UInt8 → BaseBlob 32) (params : CChainParams)
    (dest : CTxDestination) (h : dest.Spendable)
    (hnot : ∀ values data,
      encodeDestination hash params dest = .ok (encode params.bech32HRP values) →
      decodeBase58Check hash (encode params.bech32HRP values) ≠ .ok (some data)) :
    ∃ str, encodeDestination hash params dest = .ok str ∧
      decodeDestination hash params str = .ok dest := by
  cases dest with
  | noDestination => exact h.elim
  | keyID id =>
    have hversion : params.pubkeyAddress.length ≤ 20 := by cases params <;> decide
    obtain ⟨str, hstr, hback⟩ := decodeBase58Check_id hash hversion id
    refine ⟨str, hstr, ?_⟩
    rw [decodeDestination, hback]
    show (match hashBehind params.pubkeyAddress _ with | some id => _ | none => _) = _
    rw [hashBehind_append]
    rfl
  | scriptID id =>
    have hversion : params.scriptAddress.length ≤ 20 := by cases params <;> decide
    obtain ⟨str, hstr, hback⟩ := decodeBase58Check_id hash hversion id
    refine ⟨str, hstr, ?_⟩
    rw [decodeDestination, hback]
    show (match hashBehind params.pubkeyAddress _ with | some id => _ | none => _) = _
    rw [hashBehind_pubkey_script]
    show (match hashBehind params.scriptAddress _ with | some id => _ | none => _) = _
    rw [hashBehind_append]
    rfl
  | witnessV0ScriptHash id =>
    have hlen := id.length_data
    refine ⟨_, rfl, ?_⟩
    have hother : (ofVector id.data : Option Uint160) = none := dif_neg (by omega)
    rw [decodeDestination_encode (by decide) (by omega) fun data => hnot _ data rfl,
      witnessDestination, if_pos rfl]
    simp only [hother, id.ofVector_data]
  | witnessV0KeyHash id =>
    have hlen := id.length_data
    refine ⟨_, rfl, ?_⟩
    rw [decodeDestination_encode (by decide) (by omega) fun data => hnot _ data rfl,
      witnessDestination, if_pos rfl,
      id.ofVector_data]
  | witnessUnknown id =>
    obtain ⟨version, program, hle⟩ := id
    obtain ⟨hlow, hhigh, hlen⟩ : 1 ≤ version.toNat ∧ version.toNat ≤ 16 ∧ 2 ≤ program.length := h
    have hversion := toNat_toUInt8_version hhigh
    have hle16 : version.toUInt8 ≤ 16 := by
      rw [UInt8.le_iff_toNat_le, hversion]
      exact hhigh
    have hwritten : ¬(version < 1 ∨ version > 16 ∨ program.length < 2 ∨ program.length > 40) := by
      rw [UInt32.lt_iff_toNat_lt, gt_iff_lt, UInt32.lt_iff_toNat_lt]
      show ¬(version.toNat < 1 ∨ 16 < version.toNat ∨ _)
      omega
    -- version 0 would be read as one of the hashes
    have hne : version.toUInt8 ≠ 0 := by
      intro hzero
      rw [hzero] at hversion
      exact absurd (hversion.symm ▸ hlow) (by decide)
    have hread : ¬(version.toUInt8 > 16 ∨ program.length < 2 ∨ program.length > 40) := by
      rw [gt_iff_lt, UInt8.lt_iff_toNat_lt, hversion]
      show ¬(16 < version.toNat ∨ _)
      omega
    have hback : version.toUInt8.toUInt32 = version := by
      apply UInt32.toNat_inj.mp
      rw [UInt8.toNat_toUInt32, hversion]
    have hstr : encodeDestination hash params (.witnessUnknown ⟨version, program, hle⟩) =
        .ok (encode params.bech32HRP (witnessValues version.toUInt8 program)) :=
      if_neg hwritten
    refine ⟨_, hstr, ?_⟩
    rw [decodeDestination_encode hle16 hle fun data => hnot _ data hstr, witnessDestination,
      if_neg hne, dif_neg hread]
    simp only [hback]

/-- The address has a character that base 58 does not. -/
theorem decode_encodeDestination_sample :
    ∃ str, encodeDestination (fun _ => ⟨List.replicate 32 0, rfl⟩) .main
        (.witnessUnknown ⟨1, [2, 2], by decide⟩) = .ok str ∧
      decodeDestination (fun _ => ⟨List.replicate 32 0, rfl⟩) .main str =
        .ok (.witnessUnknown ⟨1, [2, 2], by decide⟩) :=
  decode_encodeDestination _ _ _ ⟨by decide, by decide, by decide⟩ fun values data h => by
    have hnone : decodeBase58Check (fun _ => ⟨List.replicate 32 0, rfl⟩)
        (encode main.bech32HRP (witnessValues 1 [2, 2])) = .ok none := by
      decide +kernel
    have hstr : encode main.bech32HRP (witnessValues 1 [2, 2]) =
      encode main.bech32HRP values := Except.ok.inj h
    rw [← hstr, hnone]
    exact (nomatch ·)

end KeyIo

end Rcoin
