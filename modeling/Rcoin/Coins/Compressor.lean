/-
  How coins are stored (src/compressor.cpp, src/coins.h, src/undo.h): amounts with their
  decimal exponent, the scripts for a key hash, a script hash and a key without their
  opcodes, and the height with the coinbase flag, as a database record and as an entry
  of the undo data.

  The codes for the height are products of `int`s: from a height of `2 ^ 30` on they
  overflow, and have no value.
-/
import Rcoin.Coins.View
import Rcoin.Script.Interpreter
import Rcoin.UnserializeTransaction
import Rcoin.VarInt

namespace Rcoin

open List

/-! ## Amounts -/

namespace CTxOutCompressor

/-- The value of an unsigned 64-bit expression, and whether an operation in it wrapped
    around: none has a greater result than the last one. -/
def u64 (x : Nat) : Nat × Bool := (x % 2 ^ 64, decide (2 ^ 64 ≤ x))

/-- `while (((n % 10) == 0) && e < 9)`, with `room` digits below the greatest exponent. -/
def stripZeros : Nat → Nat → Nat → Nat × Nat
  | 0, n, e => (n, e)
  | room + 1, n, e => if n % 10 = 0 then stripZeros room (n / 10) (e + 1) else (n, e)

/-- `none` where the assertion fails. -/
def compressAmount (n : Nat) : Option (Nat × Bool) :=
  if n = 0 then some (0, false)
  else
    let (n, e) := stripZeros 9 n 0
    if e < 9 then
      let d := n % 10
      if 1 ≤ d ∧ d ≤ 9 then some (u64 (1 + (n / 10 * 9 + d - 1) * 10 + e)) else none
    else some (u64 (1 + (n - 1) * 10 + 9))

/-- `while (e)`. -/
def timesTen : Nat → Nat → Nat
  | 0, n => n
  | e + 1, n => timesTen e (n * 10)

def decompressAmount (x : Nat) : Nat × Bool :=
  if x = 0 then (0, false)
  else
    let x := x - 1
    let e := x % 10
    let x := x / 10
    let n := if e < 9 then x / 9 * 10 + (x % 9 + 1) else x + 1
    u64 (timesTen e n)

end CTxOutCompressor

open CTxOutCompressor

/-! ## Scripts -/

namespace CScriptCompressor

def nSpecialScripts : Nat := 6

/-- The `n` bytes between `head` and `tail`, if the script is just that. -/
def between (head : List UInt8) (n : Nat) (tail : List UInt8) (script : CScript) :
    Option (List UInt8) :=
  if script.length = head.length + n + tail.length ∧ script.take head.length = head ∧
      script.drop (head.length + n) = tail then
    some ((script.drop head.length).take n)
  else none

def isToKeyID : CScript → Option (List UInt8) :=
  between [OP_DUP, OP_HASH160, 20] 20 [OP_EQUALVERIFY, OP_CHECKSIG]

def isToScriptID : CScript → Option (List UInt8) := between [OP_HASH160, 20] 20 [OP_EQUAL]

def isToPubKey : CScript → Option (List UInt8) :=
  between [UInt8.ofNat PUBLIC_KEY_SIZE] PUBLIC_KEY_SIZE [OP_CHECKSIG]

def compress (script : CScript) : Option (List UInt8) :=
  match isToKeyID script with
  | some keyID => some (0x00 :: keyID)
  | none =>
    match isToScriptID script with
    | some scriptID => some (0x01 :: scriptID)
    | none => (isToPubKey script).map (0x02 :: ·)

def getSpecialSize (nSize : Nat) : Nat :=
  if nSize = 0 ∨ nSize = 1 then 20 else if nSize = 2 then PUBLIC_KEY_SIZE else 0

/-- The script; `none` where it is left as it was. -/
def decompress (nSize : Nat) (vch : List UInt8) : Option CScript :=
  match nSize with
  | 0x00 => some ([OP_DUP, OP_HASH160, 20] ++ vch ++ [OP_EQUALVERIFY, OP_CHECKSIG])
  | 0x01 => some ([OP_HASH160, 20] ++ vch ++ [OP_EQUAL])
  | 0x02 => some ([UInt8.ofNat PUBLIC_KEY_SIZE] ++ vch ++ [OP_CHECKSIG])
  | _ => none

def serialize (script : CScript) : Option (List UInt8) :=
  match compress script with
  | some compr => some compr
  | none => do
    let size ← writeVarInt 4 (script.length + nSpecialScripts : Nat)
    return size ++ script

/-- `CDataStream::ignore`, at an `int`. -/
def ignore (nSize : Nat) (bytes : List UInt8) : Except IosFailure (List UInt8) :=
  if 2 ^ 31 ≤ nSize then .error ⟨"CDataStream::ignore(): nSize negative"⟩
  else if bytes.length < nSize then .error ⟨"CDataStream::ignore(): end of data"⟩
  else .ok (bytes.drop nSize)

/-- Into a script that may hold bytes already. -/
def unserialize (script : CScript) (bytes : List UInt8) :
    Except IosFailure (CScript × List UInt8) := do
  let (nSize, bytes) ← readVarInt (unsignedMax 4) bytes
  if nSize < nSpecialScripts then
    let (vch, bytes) ← readData (getSpecialSize nSize) bytes
    return ((decompress nSize vch).getD script, bytes)
  else
    let nSize := nSize - nSpecialScripts
    if nSize > MAX_SCRIPT_SIZE then
      -- overly long script, replace with a short invalid one
      let bytes ← ignore nSize bytes
      return (script ++ [OP_RETURN], bytes)
    else readData nSize bytes

end CScriptCompressor

/-! ## Outputs -/

namespace CTxOutCompressor

def serialize (txout : CTxOut) : Option (List UInt8) := do
  let (nVal, _) ← compressAmount (txout.nValue % 2 ^ 64).toNat
  let amount ← writeVarInt 8 nVal
  let script ← CScriptCompressor.serialize txout.scriptPubKey
  return amount ++ script

def unserialize (txout : CTxOut) (bytes : List UInt8) :
    Except IosFailure (CTxOut × List UInt8) := do
  let (nVal, bytes) ← readVarInt (unsignedMax 8) bytes
  let (scriptPubKey, bytes) ← CScriptCompressor.unserialize txout.scriptPubKey bytes
  return ({
    nValue := Int.bmod (decompressAmount nVal).1 (2 ^ 64)
    scriptPubKey }, bytes)

end CTxOutCompressor

/-! ## Coins -/

namespace Coin

/-- `nHeight * 2 + fCoinBase`. A bit-field of 31 bits is promoted to `int`; `none` where
    the result is out of range. -/
def code (coin : Coin) : Option Nat :=
  if coin.nHeight * 2 + coin.fCoinBase.toNat < 2 ^ 31 then
    some (coin.nHeight * 2 + coin.fCoinBase.toNat)
  else none

/-- The record in the database; `none` where the assertion fails or the code overflows. -/
def serialize (coin : Coin) : Option (List UInt8) :=
  if coin.isSpent then none
  else do
    let code ← coin.code
    let height ← writeVarInt 4 code
    let out ← CTxOutCompressor.serialize coin.out
    return height ++ out

def unserialize (coin : Coin) (bytes : List UInt8) : Except IosFailure (Coin × List UInt8) := do
  let (code, bytes) ← readVarInt (unsignedMax 4) bytes
  let (out, bytes) ← CTxOutCompressor.unserialize coin.out bytes
  return ({ out, nHeight := code >>> 1, fCoinBase := code % 2 == 1 }, bytes)

end Coin

/-- The greatest value of a signed type. -/
def signedMax (size : Nat) : Nat := 2 ^ (8 * size - 1) - 1

def TxInUndoSerializer.serialize (txout : Coin) : Option (List UInt8) := do
  let code ← txout.code
  let height ← writeVarInt 4 code
  let out ← CTxOutCompressor.serialize txout.out
  -- required to maintain compatibility with older undo format
  return height ++ (if txout.nHeight > 0 then [0] else []) ++ out

def TxInUndoDeserializer.unserialize (txout : Coin) (bytes : List UInt8) :
    Except IosFailure (Coin × List UInt8) := do
  let (nCode, bytes) ← readVarInt (unsignedMax 4) bytes
  let bytes ← if nCode / 2 > 0 then do
      let (_, bytes) ← readVarInt (signedMax 4) bytes
      pure bytes
    else pure bytes
  let (out, bytes) ← CTxOutCompressor.unserialize txout.out bytes
  return ({ out, nHeight := nCode / 2, fCoinBase := nCode % 2 == 1 }, bytes)

/-! ## Amounts, both ways -/

namespace CTxOutCompressor

theorem u64_of_lt {x : Nat} (h : x < 2 ^ 64) : u64 x = (x, false) := by
  rw [u64, Nat.mod_eq_of_lt h, decide_eq_false (Nat.not_le.mpr h)]

theorem timesTen_eq (e n : Nat) : timesTen e n = n * 10 ^ e := by
  induction e generalizing n with
  | zero => rw [timesTen, pow_zero, mul_one]
  | succ e ih => rw [timesTen, ih, pow_succ, mul_assoc, mul_comm 10]

variable {n : Nat}

theorem stripZeros_spec {room e n' e' : Nat} (h : stripZeros room n e = (n', e')) (hn : 0 < n) :
    timesTen (e' - e) n' = n ∧ e ≤ e' ∧ e' ≤ e + room ∧ 0 < n' ∧ n' ≤ n ∧
      (e' < e + room → n' % 10 ≠ 0) := by
  induction room generalizing n e with
  | zero =>
    cases h
    refine ⟨?_, le_refl _, le_refl _, hn, le_refl _, fun hlt => ?_⟩
    · rw [Nat.sub_self, timesTen]
    · exact absurd hlt (lt_irrefl _)
  | succ room ih =>
    rw [stripZeros] at h
    by_cases hzero : n % 10 = 0
    · rw [if_pos hzero] at h
      obtain ⟨htimes, hge, hle, hpos, hsmall, hlast⟩ := ih h (by omega)
      refine ⟨?_, by omega, by omega, hpos, by omega, fun hlt => hlast (by omega)⟩
      have hexp : e' - e = e' - (e + 1) + 1 := by omega
      rw [timesTen_eq] at htimes
      rw [timesTen_eq, hexp, pow_succ, ← mul_assoc, htimes]
      omega
    · rw [if_neg hzero] at h
      cases h
      refine ⟨?_, le_refl _, by omega, hn, le_refl _, fun _ => hzero⟩
      rw [Nat.sub_self, timesTen]

theorem decompressAmount_compressAmount (h : (n : Int) ≤ MAX_MONEY) :
    ∃ x < 2 ^ 64, compressAmount n = some (x, false) ∧ decompressAmount x = (n, false) := by
  have hmax : n ≤ 1000000000000000 := by
    unfold MAX_MONEY COIN at h
    omega
  by_cases hn : n = 0
  · rw [hn]
    exact ⟨0, by decide, by decide, by decide⟩
  · obtain ⟨n', e, hstrip⟩ : ∃ n' e, stripZeros 9 n 0 = (n', e) := ⟨_, _, rfl⟩
    obtain ⟨htimes, -, hle, hpos, hsmall, hlast⟩ := stripZeros_spec hstrip (pos_of_ne_zero hn)
    rw [Nat.sub_zero] at htimes
    rw [compressAmount, if_neg hn, hstrip]
    dsimp only
    by_cases he : e < 9
    · have hdigit := hlast (by omega)
      rw [if_pos he, if_pos (by omega), u64_of_lt (by omega)]
      refine ⟨_, by omega, rfl, ?_⟩
      obtain ⟨x, hx⟩ : ∃ x, n' / 10 * 9 + n' % 10 - 1 = x := ⟨_, rfl⟩
      have hexp : (1 + x * 10 + e - 1) % 10 = e := by omega
      have hrest : (1 + x * 10 + e - 1) / 10 = x := by omega
      have hback : x / 9 * 10 + (x % 9 + 1) = n' := by omega
      rw [hx, decompressAmount, if_neg (by omega)]
      dsimp only
      rw [hexp, hrest, if_pos he, hback, htimes, u64_of_lt (by omega)]
    · have he9 : e = 9 := by omega
      rw [if_neg he, u64_of_lt (by omega)]
      refine ⟨_, by omega, rfl, ?_⟩
      have hexp : (1 + (n' - 1) * 10 + 9 - 1) % 10 = 9 := by omega
      have hrest : (1 + (n' - 1) * 10 + 9 - 1) / 10 = n' - 1 := by omega
      have hback : n' - 1 + 1 = n' := by omega
      rw [decompressAmount, if_neg (by omega)]
      dsimp only
      rw [hexp, hrest, if_neg (by decide), hback, ← he9, htimes, u64_of_lt (by omega)]

end CTxOutCompressor

/-! ## Scripts, both ways -/

theorem varIntBytes_of_lt (h : n < 128) : varIntBytes n = [varIntByte 0 n] := by
  rw [varIntBytes, Nat.div_eq_of_lt h, varIntPrefix_zero, nil_append]

namespace CScriptCompressor

variable {script : CScript}

theorem between_eq_some {head tail : List UInt8} {data : List UInt8}
    (h : between head n tail script = some data) :
    data.length = n ∧ script = head ++ data ++ tail := by
  unfold between at h
  split at h
  next htemplate =>
    obtain ⟨hlen, hhead, htail⟩ := htemplate
    cases h
    refine ⟨?_, ?_⟩
    · rw [length_take, length_drop]
      omega
    · have hrest : (script.drop head.length).take n ++ tail = script.drop head.length := by
        rw [← htail, ← drop_drop, take_append_drop]
      rw [append_assoc, hrest]
      conv_lhs => rw [← take_append_drop head.length script, hhead]
  next => cases h

theorem compress_eq_some {compr : List UInt8} (h : compress script = some compr) :
    ∃ nSize < nSpecialScripts, ∃ vch, compr = varIntBytes nSize ++ vch ∧
      vch.length = getSpecialSize nSize ∧ decompress nSize vch = some script := by
  unfold compress at h
  cases hkey : isToKeyID script with
  | some keyID =>
    rw [hkey] at h
    cases h
    obtain ⟨hlen, hscript⟩ := between_eq_some hkey
    refine ⟨0, by decide, keyID, ?_, hlen, ?_⟩
    · rw [varIntBytes_of_lt (by decide)]
      rfl
    · rw [hscript]
      rfl
  | none =>
    rw [hkey] at h
    cases hid : isToScriptID script with
    | some scriptID =>
      rw [hid] at h
      cases h
      obtain ⟨hlen, hscript⟩ := between_eq_some hid
      refine ⟨1, by decide, scriptID, ?_, hlen, ?_⟩
      · rw [varIntBytes_of_lt (by decide)]
        rfl
      · rw [hscript]
        rfl
    | none =>
      rw [hid] at h
      obtain ⟨pubkey, hpubkey, rfl⟩ := Option.map_eq_some_iff.mp h
      obtain ⟨hlen, hscript⟩ := between_eq_some hpubkey
      refine ⟨2, by decide, pubkey, ?_, hlen, ?_⟩
      · rw [varIntBytes_of_lt (by decide)]
        rfl
      · rw [hscript]
        rfl

theorem unserialize_serialize (h : script.length ≤ MAX_SCRIPT_SIZE) :
    ∃ bytes, serialize script = some bytes ∧
      ∀ old rest, unserialize old (bytes ++ rest) = .ok (script, rest) := by
  have hspecial : nSpecialScripts ≤ unsignedMax 4 := by decide
  unfold serialize
  cases hcompress : compress script with
  | some compr =>
    obtain ⟨nSize, hsize, vch, hcompr, hlen, hback⟩ := compress_eq_some hcompress
    refine ⟨compr, rfl, fun old rest => ?_⟩
    have hdata : readData (getSpecialSize nSize) (vch ++ rest) = .ok (vch, rest) :=
      readData_eq_ok.mpr ⟨hlen, rfl⟩
    rw [hcompr, append_assoc, unserialize, readVarInt_varIntBytes (by omega)]
    show (if nSize < nSpecialScripts then _ else _) = _
    rw [if_pos hsize, hdata]
    show Except.ok ((decompress nSize vch).getD old, rest) = _
    rw [hback]
    rfl
  | none =>
    have hmax : script.length + nSpecialScripts ≤ unsignedMax 4 := by
      have hroom : MAX_SCRIPT_SIZE + nSpecialScripts ≤ unsignedMax 4 := by decide
      omega
    have hwrite := writeVarInt_eq (by decide) hmax
    refine ⟨varIntBytes (script.length + nSpecialScripts) ++ script, ?_, fun old rest => ?_⟩
    · dsimp only
      rw [hwrite]
      rfl
    · rw [append_assoc, unserialize, readVarInt_varIntBytes hmax]
      dsimp only [bind, Except.bind]
      rw [if_neg (by omega), Nat.add_sub_cancel, if_neg (Nat.not_lt.mpr h)]
      exact readData_eq_ok.mpr ⟨rfl, rfl⟩

end CScriptCompressor

/-! ## Outputs and coins, both ways -/

theorem CTxOutCompressor.unserialize_serialize {txout : CTxOut}
    (hvalue : moneyRange txout.nValue = true)
    (hscript : txout.scriptPubKey.length ≤ MAX_SCRIPT_SIZE) :
    ∃ bytes, serialize txout = some bytes ∧
      ∀ old rest, unserialize old (bytes ++ rest) = .ok (txout, rest) := by
  obtain ⟨hlow, hhigh⟩ := moneyRange_iff.mp hvalue
  obtain ⟨n, hn⟩ := Int.eq_ofNat_of_zero_le hlow
  have hmax : (n : Int) ≤ MAX_MONEY := hn ▸ hhigh
  have hsmall : (n : Int) < 2 ^ 63 := Int.lt_of_le_of_lt hmax (by decide)
  obtain ⟨x, hx, hcompress, hdecompress⟩ := decompressAmount_compressAmount hmax
  obtain ⟨script, hserialize, hunserialize⟩ := CScriptCompressor.unserialize_serialize hscript
  have hunsigned : (txout.nValue % 2 ^ 64).toNat = n := by
    omega
  have hxmax : x ≤ unsignedMax 8 := Nat.le_sub_one_of_lt hx
  refine ⟨varIntBytes x ++ script, ?_, fun old rest => ?_⟩
  · rw [serialize, hunsigned, hcompress]
    show (do
      let amount ← writeVarInt 8 x
      let script ← CScriptCompressor.serialize txout.scriptPubKey
      return amount ++ script) = _
    rw [writeVarInt_eq (by decide) hxmax, hserialize]
    rfl
  · have hsigned : Int.bmod n (2 ^ 64) = txout.nValue := by
      rw [hn]
      exact Int.bmod_eq_of_le (by omega) (by omega)
    rw [append_assoc, unserialize, readVarInt_varIntBytes hxmax]
    show (do
      let (scriptPubKey, bytes) ← CScriptCompressor.unserialize old.scriptPubKey (script ++ rest)
      return ({ nValue := Int.bmod (decompressAmount x).1 (2 ^ 64), scriptPubKey }, bytes) :
        Except IosFailure (CTxOut × List UInt8)) = _
    rw [hunserialize, hdecompress]
    show Except.ok (({ nValue := Int.bmod n (2 ^ 64), scriptPubKey := _ } : CTxOut), rest) = _
    rw [hsigned]

namespace Coin

/-- The record comes back into any coin. -/
def RecordRoundTrip (coin : Coin) : Prop :=
  ∃ bytes, coin.serialize = some bytes ∧
    ∀ old rest, unserialize old (bytes ++ rest) = .ok (coin, rest)

/-- So does the entry of the undo data. -/
def UndoRoundTrip (coin : Coin) : Prop :=
  ∃ bytes, TxInUndoSerializer.serialize coin = some bytes ∧
    ∀ old rest, TxInUndoDeserializer.unserialize old (bytes ++ rest) = .ok (coin, rest)

variable {coin : Coin}

theorem code_eq_some (h : coin.code = some n) :
    n < 2 ^ 31 ∧ n / 2 = coin.nHeight ∧ (n % 2 == 1) = coin.fCoinBase := by
  unfold code at h
  split at h
  next hlt =>
    cases h
    refine ⟨hlt, ?_, ?_⟩
    · have hbit : coin.fCoinBase.toNat ≤ 1 := Bool.toNat_le _
      omega
    · cases coin.fCoinBase with
      | false => exact beq_false_of_ne (by rw [Bool.toNat_false]; omega)
      | true => exact beq_iff_eq.mpr (by rw [Bool.toNat_true]; omega)
  next => cases h

theorem isSome_code : coin.code.isSome = true ↔ coin.nHeight < 2 ^ 30 := by
  have hbit : coin.fCoinBase.toNat ≤ 1 := Bool.toNat_le _
  unfold code
  split
  next hlt => exact ⟨fun _ => by omega, fun _ => rfl⟩
  next hge => exact ⟨fun h => (by cases h), fun h => absurd h (by omega)⟩

theorem recordRoundTrip (hcode : coin.code = some n) (hvalue : moneyRange coin.out.nValue = true)
    (hscript : coin.out.scriptPubKey.length ≤ MAX_SCRIPT_SIZE) : coin.RecordRoundTrip := by
  obtain ⟨hlt, hheight, hflag⟩ := code_eq_some hcode
  obtain ⟨out, hserialize, hunserialize⟩ :=
    CTxOutCompressor.unserialize_serialize hvalue hscript
  have hunspent : coin.isSpent = false := by
    have hlow := (moneyRange_iff.mp hvalue).1
    rw [isSpent, CTxOut.isNull, beq_eq_false_iff_ne]
    omega
  have hmax : n ≤ unsignedMax 4 := le_trans (le_of_lt hlt) (by decide)
  refine ⟨varIntBytes n ++ out, ?_, fun old rest => ?_⟩
  · rw [serialize, hunspent, if_neg Bool.false_ne_true, hcode]
    show (do
      let height ← writeVarInt 4 n
      let out ← CTxOutCompressor.serialize coin.out
      return height ++ out) = _
    rw [writeVarInt_eq (by decide) hmax, hserialize]
    rfl
  · rw [append_assoc, unserialize, readVarInt_varIntBytes hmax]
    show (do
      let (out, bytes) ← CTxOutCompressor.unserialize old.out (out ++ rest)
      return ({ out, nHeight := n >>> 1, fCoinBase := n % 2 == 1 }, bytes) :
        Except IosFailure (Coin × List UInt8)) = _
    rw [hunserialize, Nat.shiftRight_eq_div_pow, Nat.pow_one, hheight, hflag]
    rfl

theorem undoRoundTrip (hcode : coin.code = some n) (hvalue : moneyRange coin.out.nValue = true)
    (hscript : coin.out.scriptPubKey.length ≤ MAX_SCRIPT_SIZE) : coin.UndoRoundTrip := by
  obtain ⟨hlt, hheight, hflag⟩ := code_eq_some hcode
  obtain ⟨out, hserialize, hunserialize⟩ :=
    CTxOutCompressor.unserialize_serialize hvalue hscript
  have hmax : n ≤ unsignedMax 4 := le_trans (le_of_lt hlt) (by decide)
  -- the dummy that stands for the version of old records
  have hdummy : ∀ rest, readVarInt (signedMax 4) ([0] ++ rest) = .ok (0, rest) := by
    intro rest
    have hzero : varIntBytes 0 = [0] := by
      rw [varIntBytes_of_lt (by decide)]
      rfl
    rw [← hzero]
    exact readVarInt_varIntBytes (Nat.zero_le _) rest
  refine ⟨varIntBytes n ++ (if coin.nHeight > 0 then [0] else []) ++ out, ?_, fun old rest => ?_⟩
  · rw [TxInUndoSerializer.serialize, hcode]
    show (do
      let height ← writeVarInt 4 n
      let out ← CTxOutCompressor.serialize coin.out
      return height ++ (if coin.nHeight > 0 then [0] else []) ++ out) = _
    rw [writeVarInt_eq (by decide) hmax, hserialize]
    rfl
  · rw [append_assoc, append_assoc, TxInUndoDeserializer.unserialize,
      readVarInt_varIntBytes hmax]
    show (do
      let bytes ← if n / 2 > 0 then do
          let (_, bytes) ← readVarInt (signedMax 4)
            ((if coin.nHeight > 0 then [0] else []) ++ (out ++ rest))
          pure bytes
        else pure ((if coin.nHeight > 0 then [0] else []) ++ (out ++ rest))
      let (out, bytes) ← CTxOutCompressor.unserialize old.out bytes
      return ({ out, nHeight := n / 2, fCoinBase := n % 2 == 1 }, bytes) :
        Except IosFailure (Coin × List UInt8)) = _
    rw [hheight, hflag]
    by_cases hzero : coin.nHeight > 0
    · rw [if_pos hzero, if_pos hzero, hdummy]
      show (do
        let (out, bytes) ← CTxOutCompressor.unserialize old.out (out ++ rest)
        return ({ out, nHeight := coin.nHeight, fCoinBase := coin.fCoinBase }, bytes) :
          Except IosFailure (Coin × List UInt8)) = _
      rw [hunserialize]
      rfl
    · rw [if_neg hzero, if_neg hzero, nil_append]
      show (do
        let (out, bytes) ← CTxOutCompressor.unserialize old.out (out ++ rest)
        return ({ out, nHeight := coin.nHeight, fCoinBase := coin.fCoinBase }, bytes) :
          Except IosFailure (Coin × List UInt8)) = _
      rw [hunserialize]
      rfl

theorem RecordRoundTrip.isSome_code (h : coin.RecordRoundTrip) : coin.code.isSome = true := by
  obtain ⟨bytes, hserialize, -⟩ := h
  cases hcode : coin.code with
  | some n => rfl
  | none =>
    rw [serialize, hcode] at hserialize
    split at hserialize
    next => cases hserialize
    next => cases hserialize

/-! ## Storage -/

/-- Amounts in range come back without an operation that wraps around, and a coin comes
    back, from its record and from its undo entry, exactly if its height is below
    `2 ^ 30`. -/
theorem compressed_storage_iff (coin : Coin) (hvalue : moneyRange coin.out.nValue = true)
    (hscript : coin.out.scriptPubKey.length ≤ MAX_SCRIPT_SIZE) :
    ((∀ n : Nat, moneyRange n = true → ∃ x < 2 ^ 64,
        compressAmount n = some (x, false) ∧
        decompressAmount x = (n, false)) ∧
      coin.RecordRoundTrip ∧ coin.UndoRoundTrip) ↔ coin.nHeight < 2 ^ 30 := by
  constructor
  · rintro ⟨-, hrecord, -⟩
    exact Coin.isSome_code.mp hrecord.isSome_code
  · intro hlow
    obtain ⟨n, hcode⟩ := Option.isSome_iff_exists.mp (Coin.isSome_code.mpr hlow)
    refine ⟨fun n hn => ?_, recordRoundTrip hcode hvalue hscript, undoRoundTrip hcode hvalue hscript⟩
    exact decompressAmount_compressAmount (moneyRange_iff.mp hn).2

namespace Sample

/-- A coin for a key hash. -/
def keyHashCoin (nHeight : Nat) : Coin where
  out := ⟨500000000, [OP_DUP, OP_HASH160, 20] ++ List.replicate 20 7 ++
    [OP_EQUALVERIFY, OP_CHECKSIG]⟩
  nHeight
  fCoinBase := true

theorem compressed_storage_coin :
    (keyHashCoin 100).RecordRoundTrip ∧ (keyHashCoin 100).UndoRoundTrip :=
  ((compressed_storage_iff (keyHashCoin 100) (by decide) (by decide)).mpr (by decide)).2

/-- The least height whose code is out of range. -/
theorem not_recordRoundTrip :
    ¬ ∀ coin : Coin, moneyRange coin.out.nValue = true → coin.nHeight < 2 ^ 31 →
      coin.out.scriptPubKey.length ≤ MAX_SCRIPT_SIZE →
      coin.RecordRoundTrip ∧ coin.UndoRoundTrip := by
  intro hall
  have hrecord := (hall (keyHashCoin (2 ^ 30)) (by decide) (by decide) (by decide)).1
  exact absurd (Coin.isSome_code.mp hrecord.isSome_code) (by decide)

end Sample

end Coin

end Rcoin
