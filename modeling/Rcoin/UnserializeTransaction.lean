/-
  Transactions read back from their byte form (src/primitives/transaction.h): the basic
  format, and the extended one with witnesses behind a dummy and a flag.
-/
import Rcoin.Lib.Codec
import Rcoin.Unserialize

namespace Rcoin

open Codec Fallible CTransaction CTxIn List COutPoint CTxOut

/-! ## Readers -/

def readBytes (bytes : List UInt8) : Except IosFailure (List UInt8 × List UInt8) := do
  let (nSize, bytes) ← readCompactSize bytes
  readData nSize bytes

def readVector {α : Type} (read : Reader UInt8 IosFailure α) : Reader UInt8 IosFailure (List α) :=
  fun bytes => do
    let (nSize, bytes) ← readCompactSize bytes
    readMany read nSize bytes

/-- A number of `n` bytes in two's complement. -/
def readLeInt (n : Nat) : Reader UInt8 IosFailure Int :=
  mapRead (fun x : Nat => if x < 2 ^ (8 * n - 1) then (x : Int) else x - 2 ^ (8 * n)) (readLe n)

def readUInt32 : Reader UInt8 IosFailure UInt32 := mapRead UInt32.ofNat (readLe 4)

def COutPoint.unserialize (bytes : List UInt8) : Except IosFailure (COutPoint × List UInt8) := do
  let (hash, bytes) ← readLe 32 bytes
  let (n, bytes) ← readLe 4 bytes
  return ({ hash := hash, n := n }, bytes)

def CTxIn.unserialize (bytes : List UInt8) : Except IosFailure (CTxIn × List UInt8) := do
  let (prevout, bytes) ← COutPoint.unserialize bytes
  let (scriptSig, bytes) ← readBytes bytes
  let (nSequence, bytes) ← readUInt32 bytes
  return ({ prevout := prevout, scriptSig := scriptSig, nSequence := nSequence }, bytes)

def CTxOut.unserialize (bytes : List UInt8) : Except IosFailure (CTxOut × List UInt8) := do
  let (nValue, bytes) ← readLeInt 8 bytes
  let (scriptPubKey, bytes) ← readBytes bytes
  return ({ nValue := nValue, scriptPubKey := scriptPubKey }, bytes)

/-! ## Transactions -/

structure CMutableTransaction where
  vin : List CTxIn
  vout : List CTxOut
  nVersion : Int
  nLockTime : UInt32
  deriving DecidableEq, Repr

/-- The constructor, which computes the hash of the byte form without witnesses. -/
def CTransaction.ofMutable (hash : List UInt8 → Uint256) (tx : CMutableTransaction) :
    CTransaction :=
  let bare : CTransaction :=
    { hash := 0, vin := tx.vin, vout := tx.vout, nVersion := tx.nVersion, nLockTime := tx.nLockTime }
  { bare with hash := hash (bare.serialize false) }

/-- `for (size_t i = 0; i < tx.vin.size(); i++)`. -/
def readWitness : List CTxIn → Reader UInt8 IosFailure (List CTxIn)
  | [], bytes => .ok ([], bytes)
  | txin :: vin, bytes => do
    let (stack, bytes) ← readVector readBytes bytes
    let (vin, bytes) ← readWitness vin bytes
    return ({ txin with scriptWitness := stack } :: vin, bytes)

/-- The flags, the inputs and the outputs. -/
def readInputsOutputs (fAllowWitness : Bool) (bytes : List UInt8) :
    Except IosFailure ((UInt8 × List CTxIn × List CTxOut) × List UInt8) := do
  -- In case the dummy is there, this will be read as an empty vector.
  let (vin, bytes) ← readVector CTxIn.unserialize bytes
  if vin.length == 0 && fAllowWitness then
    let (flags, bytes) ← mapRead UInt8.ofNat (readLe 1) bytes
    if flags ≠ 0 then
      let (vin, bytes) ← readVector CTxIn.unserialize bytes
      let (vout, bytes) ← readVector CTxOut.unserialize bytes
      return ((flags, vin, vout), bytes)
    else return ((0, [], []), bytes)
  else
    let (vout, bytes) ← readVector CTxOut.unserialize bytes
    return ((0, vin, vout), bytes)

/-- The inputs with their witnesses, where these are flagged, and the lock time. -/
def readWitnessLockTime (fAllowWitness : Bool) (flags : UInt8) (vin : List CTxIn)
    (bytes : List UInt8) : Except IosFailure ((List CTxIn × UInt32) × List UInt8) := do
  let fWitness := flags &&& 1 ≠ 0 && fAllowWitness
  let (vin, bytes) ← if fWitness then readWitness vin bytes else pure (vin, bytes)
  failIf ((if fWitness then flags ^^^ 1 else flags) ≠ 0) ⟨"Unknown transaction optional data"⟩
  let (nLockTime, bytes) ← readUInt32 bytes
  return ((vin, nLockTime), bytes)

def unserializeTransaction (fAllowWitness : Bool) (bytes : List UInt8) :
    Except IosFailure (CMutableTransaction × List UInt8) := do
  let (nVersion, bytes) ← readLeInt 4 bytes
  let ((flags, vin, vout), bytes) ← readInputsOutputs fAllowWitness bytes
  let ((vin, nLockTime), bytes) ← readWitnessLockTime fAllowWitness flags vin bytes
  return ({ vin := vin, vout := vout, nVersion := nVersion, nLockTime := nLockTime }, bytes)

/-- `CTransaction(deserialize, s)`. -/
def CTransaction.unserialize (hash : List UInt8 → Uint256) (fAllowWitness : Bool) :
    Reader UInt8 IosFailure CTransaction :=
  mapRead (ofMutable hash) (unserializeTransaction fAllowWitness)

/-! ## What the types hold -/

def COutPoint.Fits (o : COutPoint) : Prop := o.hash < 2 ^ 256 ∧ o.n < 2 ^ 32

/-- An input without a witness. -/
def CTxIn.Fits (txin : CTxIn) : Prop := txin.prevout.Fits ∧ txin.scriptSig.length ≤ MAX_SIZE

def CTxOut.Fits (txout : CTxOut) : Prop :=
  (-2 ^ 63 ≤ txout.nValue ∧ txout.nValue < 2 ^ 63) ∧ txout.scriptPubKey.length ≤ MAX_SIZE

def WitnessFits (stack : List Valtype) : Prop :=
  stack.length ≤ MAX_SIZE ∧ ∀ v ∈ stack, v.length ≤ MAX_SIZE

/-- The numbers are those of their types, and no size is above the limit of the readers. -/
structure CMutableTransaction.Fits (tx : CMutableTransaction) : Prop where
  version : -2 ^ 31 ≤ tx.nVersion ∧ tx.nVersion < 2 ^ 31
  inputs : tx.vin.length ≤ MAX_SIZE ∧ ∀ txin ∈ tx.vin, txin.Fits ∧ WitnessFits txin.scriptWitness
  outputs : tx.vout.length ≤ MAX_SIZE ∧ ∀ txout ∈ tx.vout, txout.Fits

/-! ## The readers are exact -/

theorem readLe_exact (n : Nat) : Exact (readLe n) (leBytes n) (fun x => x < 2 ^ (8 * n)) :=
  fun _ _ _ => readLe_eq_ok

theorem readCompactSize_exact :
    Exact readCompactSize writeCompactSize (fun x => x ≤ MAX_SIZE) :=
  fun _ _ _ => readCompactSize_eq_ok

variable {n : Nat}

theorem readLeInt_exact (hn : 0 < n) : Exact (readLeInt n) (leBytesInt n)
    (fun x => -2 ^ (8 * n - 1) ≤ x ∧ x < 2 ^ (8 * n - 1)) := by
  obtain ⟨half, hhalf⟩ : ∃ half : Nat, half = 2 ^ (8 * n - 1) := ⟨_, rfl⟩
  have hpow : 2 ^ (8 * n) = 2 * half := by
    rw [hhalf, ← Nat.pow_succ']
    exact congrArg _ (by omega)
  have hhalf' : (2 : Int) ^ (8 * n - 1) = half := by rw [hhalf]; push_cast; rfl
  have hpow' : (2 : Int) ^ (8 * n) = 2 * half := by exact_mod_cast hpow
  refine (readLe_exact n).map (g := fun y : Int => (y % 2 ^ (8 * n)).toNat) ?_ ?_
  · intro x hx
    have hx' : (x : Int) < 2 * half := by omega
    simp only [hpow', hhalf', ← hhalf]
    split
    · next hlow =>
      rw [Int.emod_eq_of_lt (by omega) hx']
      omega
    · next hhigh =>
      rw [Int.sub_emod_right, Int.emod_eq_of_lt (by omega) hx']
      omega
  · rintro y ⟨hlow, hhigh⟩
    by_cases hneg : y < 0
    · rw [← Int.add_emod_right, Int.emod_eq_of_lt (by omega) (by omega)]
      split <;> omega
    · rw [Int.emod_eq_of_lt (by omega) (by omega)]
      split <;> omega

theorem readUInt32_exact : Exact readUInt32 (fun x => leBytes 4 x.toNat) (fun _ => True) :=
  (readLe_exact 4).map
    (fun x hx => ⟨trivial, by rw [UInt32.toNat_ofNat']; exact Nat.mod_eq_of_lt hx⟩)
    (fun x _ => ⟨x.toNat_lt, UInt32.ofNat_toNat⟩)

variable {bytes rest : List UInt8}

theorem readData_eq_ok {v : List UInt8} :
    readData n bytes = .ok (v, rest) ↔ v.length = n ∧ bytes = v ++ rest := by
  unfold readData
  constructor
  · intro h
    split at h
    · cases h
    · next hlen =>
      cases h
      exact ⟨length_take_of_le (Nat.not_lt.mp hlen), (take_append_drop _ _).symm⟩
  · rintro ⟨rfl, rfl⟩
    rw [if_neg (by rw [length_append]; omega), take_left, drop_left]

theorem readBytes_exact : Exact readBytes serializeBytes (fun v => v.length ≤ MAX_SIZE) := by
  intro v bytes rest
  rw [readBytes, readCompactSize_exact.bind_eq_ok]
  constructor
  · rintro ⟨n, bytes', hn, rfl, hread⟩
    obtain ⟨rfl, rfl⟩ := readData_eq_ok.mp hread
    exact ⟨hn, by rw [serializeBytes, append_assoc]⟩
  · rintro ⟨hn, rfl⟩
    exact ⟨v.length, v ++ rest, hn, by rw [serializeBytes, append_assoc],
      readData_eq_ok.mpr ⟨rfl, rfl⟩⟩

theorem Exact.vector {α : Type} {read : Reader UInt8 IosFailure α} {write : α → List UInt8}
    {P : α → Prop} (h : Exact read write P) :
    Exact (readVector read) (serializeVector write)
      (fun v => v.length ≤ MAX_SIZE ∧ ∀ x ∈ v, P x) := by
  intro v bytes rest
  rw [readVector, readCompactSize_exact.bind_eq_ok]
  constructor
  · rintro ⟨n, bytes', hn, rfl, hmany⟩
    obtain ⟨⟨rfl, hall⟩, rfl⟩ := (h.many n v bytes' rest).mp hmany
    exact ⟨⟨hn, hall⟩, by rw [serializeVector, append_assoc]⟩
  · rintro ⟨⟨hn, hall⟩, rfl⟩
    exact ⟨v.length, v.flatMap write ++ rest, hn, by rw [serializeVector, append_assoc],
      (h.many _).read_write ⟨rfl, hall⟩ rest⟩

theorem COutPoint.unserialize_exact :
    Exact unserialize serialize Fits := by
  intro o bytes rest
  rw [unserialize, (readLe_exact 32).bind_eq_ok]
  constructor
  · rintro ⟨hash, bytes', hhash, rfl, h⟩
    obtain ⟨n, rest', hn, rfl, hok⟩ := (readLe_exact 4).bind_eq_ok.mp h
    cases hok
    exact ⟨⟨hhash, hn⟩, by rw [serialize, append_assoc]⟩
  · rintro ⟨⟨hhash, hn⟩, rfl⟩
    exact ⟨o.hash, leBytes 4 o.n ++ rest, hhash, by rw [serialize, append_assoc],
      (readLe_exact 4).bind_eq_ok.mpr ⟨o.n, rest, hn, rfl, rfl⟩⟩

theorem CTxOut.unserialize_exact : Exact unserialize serialize Fits := by
  intro txout bytes rest
  rw [unserialize, (readLeInt_exact (by decide)).bind_eq_ok]
  constructor
  · rintro ⟨nValue, bytes', hvalue, rfl, h⟩
    obtain ⟨script, rest', hscript, rfl, hok⟩ := readBytes_exact.bind_eq_ok.mp h
    cases hok
    exact ⟨⟨hvalue, hscript⟩, by rw [serialize, append_assoc]⟩
  · rintro ⟨⟨hvalue, hscript⟩, rfl⟩
    exact ⟨txout.nValue, serializeBytes txout.scriptPubKey ++ rest, hvalue,
      by rw [serialize, append_assoc],
      readBytes_exact.bind_eq_ok.mpr ⟨txout.scriptPubKey, rest, hscript, rfl, rfl⟩⟩

theorem CTxIn.unserialize_exact : Exact unserialize serialize
    (fun txin => txin.Fits ∧ txin.scriptWitness = []) := by
  intro txin bytes rest
  rw [CTxIn.unserialize, COutPoint.unserialize_exact.bind_eq_ok]
  constructor
  · rintro ⟨prevout, bytes', hprevout, rfl, h⟩
    obtain ⟨script, bytes', hscript, rfl, hlast⟩ := readBytes_exact.bind_eq_ok.mp h
    obtain ⟨nSequence, rest', -, rfl, hok⟩ := readUInt32_exact.bind_eq_ok.mp hlast
    cases hok
    exact ⟨⟨⟨hprevout, hscript⟩, rfl⟩, by
      rw [serialize, append_assoc, append_assoc]⟩
  · rintro ⟨⟨⟨hprevout, hscript⟩, hwitness⟩, rfl⟩
    obtain ⟨prevout, scriptSig, nSequence, _⟩ := txin
    cases hwitness
    refine ⟨prevout, serializeBytes scriptSig ++ (leBytes 4 nSequence.toNat ++ rest), hprevout,
      by rw [serialize, append_assoc, append_assoc], ?_⟩
    refine readBytes_exact.bind_eq_ok.mpr ⟨scriptSig, _, hscript, rfl, ?_⟩
    exact readUInt32_exact.bind_eq_ok.mpr ⟨nSequence, rest, trivial, rfl, rfl⟩

/-! ## Witnesses -/

/-- An input as it is read before its witness. -/
def CTxIn.strip (txin : CTxIn) : CTxIn := { txin with scriptWitness := [] }

def serializeWitness (vin : List CTxIn) : List UInt8 :=
  vin.flatMap fun txin => serializeVector serializeBytes txin.scriptWitness

theorem readStack_exact :
    Exact (readVector readBytes) (serializeVector serializeBytes) WitnessFits :=
  Exact.vector readBytes_exact

variable {vin vin0 : List CTxIn}

theorem readWitness_eq_ok (hempty : ∀ txin ∈ vin0, txin.scriptWitness = []) :
    readWitness vin0 bytes = .ok (vin, rest) ↔
      (vin.map strip = vin0 ∧ ∀ txin ∈ vin, WitnessFits txin.scriptWitness) ∧
        bytes = serializeWitness vin ++ rest := by
  induction vin0 generalizing vin bytes with
  | nil =>
    constructor
    · intro h
      cases h
      exact ⟨⟨rfl, fun _ h => nomatch h⟩, rfl⟩
    · rintro ⟨⟨hnil, -⟩, rfl⟩
      obtain rfl := map_eq_nil_iff.mp hnil
      rfl
  | cons txin vin0 ih =>
    obtain ⟨hfirst, hrest⟩ := forall_mem_cons.mp hempty
    rw [readWitness, readStack_exact.bind_eq_ok]
    constructor
    · rintro ⟨stack, bytes', hstack, rfl, h⟩
      obtain ⟨⟨vin', rest'⟩, hread, hok⟩ := bind_eq_ok.mp h
      cases hok
      obtain ⟨⟨hstrip, hfits⟩, rfl⟩ := (ih hrest).mp hread
      refine ⟨⟨?_, forall_mem_cons.mpr ⟨hstack, hfits⟩⟩, ?_⟩
      · rw [map_cons, hstrip, strip, ← hfirst]
      · show _ = serializeVector serializeBytes stack ++ serializeWitness vin' ++ rest
        rw [append_assoc]
    · rintro ⟨⟨hstrip, hfits⟩, rfl⟩
      obtain ⟨txin', vin', rfl, rfl, hstrip'⟩ := map_eq_cons_iff.mp hstrip
      obtain ⟨hstack, hfits'⟩ := forall_mem_cons.mp hfits
      refine ⟨txin'.scriptWitness, serializeWitness vin' ++ rest, hstack, ?_, ?_⟩
      · rw [serializeWitness, flatMap_cons, append_assoc]
        rfl
      · exact bind_eq_ok.mpr ⟨(vin', rest), (ih hrest).mpr ⟨⟨hstrip', hfits'⟩, rfl⟩, rfl⟩

/-! ## The two formats -/

def CMutableTransaction.hasWitness (tx : CMutableTransaction) : Bool :=
  tx.vin.any fun txin => !txin.scriptWitness.isEmpty

def serializeInputsOutputs (vin : List CTxIn) (vout : List CTxOut) : List UInt8 :=
  serializeVector CTxIn.serialize vin ++ serializeVector CTxOut.serialize vout

/-- The basic format. -/
def CMutableTransaction.basic (tx : CMutableTransaction) : List UInt8 :=
  leBytesInt 4 tx.nVersion ++ (serializeInputsOutputs tx.vin tx.vout ++ leBytes 4 tx.nLockTime.toNat)

/-- The extended format, whether or not there is a witness. -/
def CMutableTransaction.extended (tx : CMutableTransaction) : List UInt8 :=
  leBytesInt 4 tx.nVersion ++ ([0, 1] ++ (serializeInputsOutputs tx.vin tx.vout ++
    (serializeWitness tx.vin ++ leBytes 4 tx.nLockTime.toNat)))

theorem serialize_ofMutable (hash : List UInt8 → Uint256) (tx : CMutableTransaction) :
    (ofMutable hash tx).serialize true =
      if tx.hasWitness then tx.extended else tx.basic := by
  have hsame : (ofMutable hash tx).hasWitness = tx.hasWitness := rfl
  unfold CTransaction.serialize
  rw [hsame, Bool.true_and]
  cases tx.hasWitness with
  | true =>
    simp only [if_true, CMutableTransaction.extended, serializeInputsOutputs, append_assoc]
    rfl
  | false =>
    simp only [if_true, Bool.false_eq_true, if_false, CMutableTransaction.basic,
      serializeInputsOutputs, append_assoc]
    rfl

theorem readInputs_exact : Exact (readVector CTxIn.unserialize) (serializeVector CTxIn.serialize)
    (fun vin => vin.length ≤ MAX_SIZE ∧ ∀ txin ∈ vin, txin.Fits ∧ txin.scriptWitness = []) :=
  Exact.vector unserialize_exact

theorem readOutputs_exact :
    Exact (readVector CTxOut.unserialize) (serializeVector CTxOut.serialize)
      (fun vout => vout.length ≤ MAX_SIZE ∧ ∀ txout ∈ vout, txout.Fits) :=
  Exact.vector unserialize_exact

theorem readFlags_exact :
    Exact (mapRead UInt8.ofNat (readLe 1)) (leBytes 1 ∘ UInt8.toNat) (fun _ => True) :=
  (readLe_exact 1).map
    (fun x hx => ⟨trivial, by rw [UInt8.toNat_ofNat']; exact Nat.mod_eq_of_lt hx⟩)
    (fun x _ => ⟨x.toNat_lt, UInt8.ofNat_toNat⟩)

theorem readInputsOutputs_eq_ok {flags : UInt8} {vout : List CTxOut} :
    readInputsOutputs true bytes = .ok ((flags, vin, vout), rest) ↔
      (vin.length ≤ MAX_SIZE ∧ ∀ txin ∈ vin, txin.Fits ∧ txin.scriptWitness = []) ∧
      (vout.length ≤ MAX_SIZE ∧ ∀ txout ∈ vout, txout.Fits) ∧
      (flags = 0 ∧ (vin = [] → vout = []) ∧ bytes = serializeInputsOutputs vin vout ++ rest ∨
        flags ≠ 0 ∧ bytes = 0 :: flags :: (serializeInputsOutputs vin vout ++ rest)) := by
  have hflag : ∀ flags : UInt8, leBytes 1 flags.toNat = [flags] := fun flags => by
    rw [leBytes_one, UInt8.ofNat_toNat]
  rw [readInputsOutputs, readInputs_exact.bind_eq_ok]
  constructor
  · rintro ⟨vin0, bytes', hvin0, rfl, h⟩
    simp only [Bool.and_true] at h
    split at h
    · next hnil =>
      -- no inputs: what follows is the flags
      obtain rfl := length_eq_zero_iff.mp (beq_iff_eq.mp hnil)
      obtain ⟨flags', bytes1, -, rfl, h1⟩ := readFlags_exact.bind_eq_ok.mp h
      simp only at h1
      split at h1
      · next hne =>
        obtain ⟨vin', bytes2, hvin, rfl, h2⟩ := readInputs_exact.bind_eq_ok.mp h1
        obtain ⟨vout', rest', hvout, rfl, hok⟩ := readOutputs_exact.bind_eq_ok.mp h2
        cases hok
        refine ⟨hvin, hvout, .inr ⟨hne, ?_⟩⟩
        rw [serializeInputsOutputs, append_assoc, Function.comp_apply, hflag]
        rfl
      · next heq =>
        cases h1
        rw [not_not] at heq
        refine ⟨hvin0, ⟨Nat.zero_le _, fun _ h => nomatch h⟩, .inl ⟨rfl, fun _ => rfl, ?_⟩⟩
        rw [heq]
        rfl
    · next hne =>
      -- inputs: no flags were written
      obtain ⟨vout', rest', hvout, rfl, hok⟩ := readOutputs_exact.bind_eq_ok.mp h
      cases hok
      refine ⟨hvin0, hvout, .inl ⟨rfl, fun hnil => ?_, ?_⟩⟩
      · rw [hnil] at hne
        exact absurd rfl hne
      · rw [serializeInputsOutputs, append_assoc]
  · rintro ⟨hvin, hvout, ⟨rfl, hempty, rfl⟩ | ⟨hne, rfl⟩⟩
    · refine ⟨vin, serializeVector CTxOut.serialize vout ++ rest, hvin,
        by rw [serializeInputsOutputs, append_assoc], ?_⟩
      simp only [Bool.and_true]
      by_cases hnil : vin = []
      · rw [hempty hnil, if_pos (by rw [hnil]; rfl), hnil]
        exact readFlags_exact.bind_eq_ok.mpr ⟨0, rest, trivial, rfl, rfl⟩
      · rw [if_neg (by rwa [beq_iff_eq, length_eq_zero_iff])]
        exact readOutputs_exact.bind_eq_ok.mpr ⟨vout, rest, hvout, rfl, rfl⟩
    · refine ⟨[], flags :: (serializeInputsOutputs vin vout ++ rest),
        ⟨Nat.zero_le _, fun _ h => nomatch h⟩, rfl, ?_⟩
      refine readFlags_exact.bind_eq_ok.mpr
        ⟨flags, serializeInputsOutputs vin vout ++ rest, trivial, ?_, ?_⟩
      · rw [Function.comp_apply, hflag]
        rfl
      · simp only
        rw [if_pos hne]
        refine readInputs_exact.bind_eq_ok.mpr
          ⟨vin, serializeVector CTxOut.serialize vout ++ rest, hvin,
            by rw [serializeInputsOutputs, append_assoc], ?_⟩
        exact readOutputs_exact.bind_eq_ok.mpr ⟨vout, rest, hvout, rfl, rfl⟩

variable {tx : CMutableTransaction}

theorem hasWitness_eq_false : tx.hasWitness = false ↔ ∀ txin ∈ tx.vin, txin.scriptWitness = [] := by
  unfold CMutableTransaction.hasWitness
  rw [any_eq_false]
  simp only [Bool.not_eq_true', Bool.not_eq_false, List.isEmpty_iff]

theorem readWitnessLockTime_eq_ok {flags : UInt8} {nLockTime : UInt32}
    (hempty : ∀ txin ∈ vin0, txin.scriptWitness = []) :
    readWitnessLockTime true flags vin0 bytes = .ok ((vin, nLockTime), rest) ↔
      flags = 0 ∧ vin = vin0 ∧ bytes = leBytes 4 nLockTime.toNat ++ rest ∨
      flags = 1 ∧ (vin.map strip = vin0 ∧ ∀ txin ∈ vin, WitnessFits txin.scriptWitness) ∧
        bytes = serializeWitness vin ++ (leBytes 4 nLockTime.toNat ++ rest) := by
  unfold readWitnessLockTime
  by_cases hbit : flags &&& 1 = 0
  · rw [decide_eq_false (not_not_intro hbit)]
    show (failIf (decide (flags ≠ 0)) _ >>= fun _ => readUInt32 bytes >>= _) = _ ↔ _
    rw [failIf_bind_eq_ok, decide_eq_false_iff_not, not_not, readUInt32_exact.bind_eq_ok]
    constructor
    · rintro ⟨hzero, lock, rest', -, rfl, hok⟩
      cases hok
      exact .inl ⟨hzero, rfl, rfl⟩
    · rintro (⟨hzero, rfl, rfl⟩ | ⟨hone, -⟩)
      · exact ⟨hzero, nLockTime, rest, trivial, rfl, rfl⟩
      · rw [hone] at hbit
        exact absurd hbit (by decide)
  · have hone : flags ^^^ 1 = 0 ↔ flags = 1 := UInt8.xor_eq_zero_iff
    rw [decide_eq_true hbit]
    show (readWitness vin0 bytes >>= fun r => failIf (decide (flags ^^^ 1 ≠ 0)) _ >>= fun _ =>
      readUInt32 r.2 >>= _) = _ ↔ _
    rw [bind_eq_ok]
    constructor
    · rintro ⟨⟨vin', bytes'⟩, hread, h⟩
      rw [failIf_bind_eq_ok, decide_eq_false_iff_not, not_not, hone,
        readUInt32_exact.bind_eq_ok] at h
      obtain ⟨hflags, lock, rest', -, rfl, hok⟩ := h
      cases hok
      exact .inr ⟨hflags, (readWitness_eq_ok hempty).mp hread⟩
    · rintro (⟨hzero, -⟩ | ⟨hflags, hread⟩)
      · rw [hzero] at hbit
        exact absurd rfl hbit
      · refine ⟨(vin, leBytes 4 nLockTime.toNat ++ rest), (readWitness_eq_ok hempty).mpr hread, ?_⟩
        rw [failIf_bind_eq_ok, decide_eq_false_iff_not, not_not, hone,
          readUInt32_exact.bind_eq_ok]
        exact ⟨hflags, nLockTime, rest, trivial, rfl, rfl⟩

theorem serializeInputsOutputs_strip (vin : List CTxIn) (vout : List CTxOut) :
    serializeInputsOutputs (vin.map strip) vout = serializeInputsOutputs vin vout := by
  unfold serializeInputsOutputs serializeVector
  rw [length_map, flatMap_map]
  rfl

theorem unserializeTransaction_eq_ok : unserializeTransaction true bytes = .ok (tx, rest) ↔
      tx.Fits ∧ (tx.hasWitness = false ∧ (tx.vin = [] → tx.vout = []) ∧ bytes = tx.basic ++ rest ∨
        bytes = tx.extended ++ rest) := by
  rw [unserializeTransaction, (readLeInt_exact (by decide)).bind_eq_ok]
  constructor
  · rintro ⟨nVersion, bytes1, hversion, rfl, h⟩
    obtain ⟨⟨⟨flags, vin0, vout⟩, bytes2⟩, hio, h2⟩ := bind_eq_ok.mp h
    obtain ⟨⟨⟨vin, nLockTime⟩, rest'⟩, hwl, hok⟩ := bind_eq_ok.mp h2
    cases hok
    obtain ⟨hvin0, hvout, hformat⟩ := readInputsOutputs_eq_ok.mp hio
    have hempty : ∀ txin ∈ vin0, txin.scriptWitness = [] := fun txin hmem => (hvin0.2 txin hmem).2
    rcases (readWitnessLockTime_eq_ok hempty).mp hwl with ⟨rfl, rfl, rfl⟩ | ⟨rfl, ⟨hstrip, hfits⟩, rfl⟩
    · obtain ⟨-, hnone, rfl⟩ := hformat.resolve_right fun h => h.1 rfl
      refine ⟨⟨hversion, ⟨hvin0.1, fun txin hmem => ⟨(hvin0.2 txin hmem).1, ?_⟩⟩, hvout⟩,
        .inl ⟨hasWitness_eq_false.mpr hempty, hnone, ?_⟩⟩
      · rw [hempty txin hmem]
        exact ⟨Nat.zero_le _, fun _ h => nomatch h⟩
      · simp only [CMutableTransaction.basic, append_assoc]
    · obtain ⟨-, rfl⟩ := hformat.resolve_left fun h => nomatch h.1
      rw [← hstrip, length_map, forall_mem_map] at hvin0
      refine ⟨⟨hversion, ⟨hvin0.1, fun txin hmem => ⟨(hvin0.2 txin hmem).1, hfits txin hmem⟩⟩,
        hvout⟩, .inr ?_⟩
      rw [← hstrip, serializeInputsOutputs_strip]
      simp only [CMutableTransaction.extended, append_assoc]
      rfl
  · rintro ⟨⟨hversion, hinputs, houtputs⟩, ⟨hnone, hboth, rfl⟩ | rfl⟩
    · have hempty := hasWitness_eq_false.mp hnone
      refine ⟨tx.nVersion, _, hversion, append_assoc .., ?_⟩
      refine bind_eq_ok.mpr ⟨((0, tx.vin, tx.vout), leBytes 4 tx.nLockTime.toNat ++ rest),
        readInputsOutputs_eq_ok.mpr ⟨⟨hinputs.1, fun txin hmem =>
          ⟨(hinputs.2 txin hmem).1, hempty txin hmem⟩⟩, houtputs, .inl ⟨rfl, hboth, ?_⟩⟩, ?_⟩
      · rw [append_assoc]
      · exact bind_eq_ok.mpr ⟨((tx.vin, tx.nLockTime), rest),
          (readWitnessLockTime_eq_ok hempty).mpr (.inl ⟨rfl, rfl, rfl⟩), rfl⟩
    · have hempty : ∀ txin ∈ tx.vin.map strip, txin.scriptWitness = [] := by
        rw [forall_mem_map]
        exact fun _ _ => rfl
      refine ⟨tx.nVersion, _, hversion, append_assoc .., ?_⟩
      refine bind_eq_ok.mpr ⟨((1, tx.vin.map strip, tx.vout),
        serializeWitness tx.vin ++ (leBytes 4 tx.nLockTime.toNat ++ rest)),
        readInputsOutputs_eq_ok.mpr ⟨⟨?_, ?_⟩, houtputs, .inr ⟨by decide, ?_⟩⟩, ?_⟩
      · rw [length_map]
        exact hinputs.1
      · rw [forall_mem_map]
        exact fun txin hmem => ⟨(hinputs.2 txin hmem).1, rfl⟩
      · rw [serializeInputsOutputs_strip]
        simp only [append_assoc]
        rfl
      · exact bind_eq_ok.mpr ⟨((tx.vin, tx.nLockTime), rest),
          (readWitnessLockTime_eq_ok hempty).mpr
            (.inr ⟨rfl, ⟨rfl, fun txin hmem => (hinputs.2 txin hmem).2⟩, rfl⟩), rfl⟩

/-! ## Both ways -/

theorem unserialize_eq_ok {hash : List UInt8 → Uint256} {tx : CTransaction} :
    CTransaction.unserialize hash true bytes = .ok (tx, rest) ↔
      ∃ mtx, unserializeTransaction true bytes = .ok (mtx, rest) ∧
        tx = ofMutable hash mtx := by
  rw [CTransaction.unserialize, mapRead, bind_eq_ok]
  constructor
  · rintro ⟨⟨mtx, rest'⟩, hread, hok⟩
    cases hok
    exact ⟨mtx, hread, rfl⟩
  · rintro ⟨mtx, hread, rfl⟩
    exact ⟨(mtx, rest), hread, rfl⟩

/-- The marker and the flag of the extended format. -/
def Flagged (bytes : List UInt8) : Prop := (bytes.drop 4).take 2 = [0, 1]

theorem drop_extended (tx : CMutableTransaction) (rest : List UInt8) :
    Flagged (tx.extended ++ rest) := by
  unfold Flagged CMutableTransaction.extended
  rfl

theorem writeCompactSize_head (hn : n ≠ 0) : ∃ b l, writeCompactSize n = b :: l ∧ b ≠ 0 := by
  unfold writeCompactSize
  split
  · next hlt =>
    refine ⟨UInt8.ofNat n, [], leBytes_one, fun h => hn ?_⟩
    have hbyte := congrArg UInt8.toNat h
    have hzero : n % 256 = 0 := hbyte
    omega
  · split
    · exact ⟨253, _, rfl, by decide⟩
    · split <;> exact ⟨_, _, rfl, by decide⟩

theorem not_flagged_basic (hboth : tx.vin = [] → tx.vout = []) (rest : List UInt8)
    : ¬Flagged (tx.basic ++ rest) := by
  unfold Flagged CMutableTransaction.basic
  intro hflag
  by_cases hnil : tx.vin = []
  · rw [hnil, hboth hnil] at hflag
    cases hflag
  · obtain ⟨b, l, hsize, hb⟩ := writeCompactSize_head (mt length_eq_zero_iff.mp hnil)
    rw [serializeInputsOutputs, serializeVector, hsize] at hflag
    exact hb (List.cons.inj hflag).1

theorem length_extended (tx : CMutableTransaction) :
    tx.basic.length + 2 ≤ tx.extended.length := by
  unfold CMutableTransaction.basic CMutableTransaction.extended
  simp only [length_append, length_cons, length_nil]
  omega

/-- A transaction with an input comes back from its bytes, with its hash; and the bytes that a
    transaction was read from are written for it again unless they are in the extended format
    and it has no witness. -/
theorem transaction_exact (hash : List UInt8 → Uint256) :
    (∀ (mtx : CMutableTransaction) (rest : List UInt8), mtx.Fits → mtx.vin ≠ [] →
      unserialize hash true ((ofMutable hash mtx).serialize true ++ rest) =
        .ok (ofMutable hash mtx, rest)) ∧
    ∀ (bytes rest : List UInt8) (tx : CTransaction),
      unserialize hash true bytes = .ok (tx, rest) →
      (bytes = tx.serialize true ++ rest ↔ (Flagged bytes → tx.hasWitness = true)) := by
  refine ⟨fun mtx rest hfits hne => ?_, fun bytes rest tx h => ?_⟩
  · refine unserialize_eq_ok.mpr ⟨mtx, unserializeTransaction_eq_ok.mpr ⟨hfits, ?_⟩, rfl⟩
    rw [serialize_ofMutable]
    cases hwitness : mtx.hasWitness with
    | true => exact .inr rfl
    | false => exact .inl ⟨rfl, fun hnil => absurd hnil hne, rfl⟩
  · obtain ⟨mtx, hread, rfl⟩ := unserialize_eq_ok.mp h
    have hsame : (ofMutable hash mtx).hasWitness = mtx.hasWitness := rfl
    rw [serialize_ofMutable, hsame]
    obtain ⟨-, ⟨hnone, hboth, rfl⟩ | rfl⟩ := unserializeTransaction_eq_ok.mp hread
    · rw [hnone]
      exact iff_of_true rfl fun hflag => absurd hflag (not_flagged_basic hboth rest)
    · cases hwitness : mtx.hasWitness with
      | true => exact iff_of_true rfl fun _ => rfl
      | false =>
        have hlen := length_extended mtx
        refine iff_of_false (fun heq => ?_) fun h => nomatch h (drop_extended mtx rest)
        have hlen' := congrArg List.length heq
        rw [length_append, if_neg Bool.false_ne_true, length_append] at hlen'
        omega

/-- One input and a witness. -/
theorem transaction_exact_sample :
    unserialize (fun _ => 0) true
        ((ofMutable (fun _ => 0)
          ⟨[⟨⟨1, 0⟩, [], 0, [[7]]⟩], [], 2, 0⟩).serialize true ++ []) =
      .ok (ofMutable (fun _ => 0) ⟨[⟨⟨1, 0⟩, [], 0, [[7]]⟩], [], 2, 0⟩, []) :=
  (transaction_exact fun _ => 0).1 _ []
    ⟨by decide, ⟨by decide, by simp [CTxIn.Fits, COutPoint.Fits, WitnessFits, MAX_SIZE]⟩,
      ⟨by decide, fun _ h => nomatch h⟩⟩
    (by decide)

/-- Version 2, the marker and the flag, no inputs, no outputs and the lock time. -/
theorem empty_input_accepted :
    ¬∀ (hash : List UInt8 → Uint256) (bytes rest : List UInt8) (tx : CTransaction),
      CTransaction.unserialize hash true bytes = .ok (tx, rest) → Flagged bytes →
      bytes = tx.serialize true ++ rest := by
  intro h
  have hread : CTransaction.unserialize (fun _ => 0) true [2, 0, 0, 0, 0, 1, 0, 0, 0, 0, 0, 0] =
      .ok (ofMutable (fun _ => 0) ⟨[], [], 2, 0⟩, []) := by decide +kernel
  exact absurd (h _ _ _ _ hread rfl) (by decide)

end Rcoin
