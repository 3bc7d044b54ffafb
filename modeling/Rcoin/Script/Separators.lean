/-
  Code separators: what a signature hash leaves out of a script while it writes it, and
  what `FindAndDelete` removes from a copy.
-/
import Rcoin.Serialize
import Rcoin.Script.Script

namespace Rcoin

open List

/-! ## Writing a script without them -/

/-- Where `GetOp` leaves the position when it fails: behind the opcode, or behind the
    size that is too large. -/
def getOpStop : CScript → CScript
  | [] => []
  | opcode :: pc =>
    let size :=
      if opcode < OP_PUSHDATA1 then some (opcode.toNat, pc)
      else if opcode = OP_PUSHDATA1 then readSize 1 pc
      else if opcode = OP_PUSHDATA2 then readSize 2 pc
      else if opcode = OP_PUSHDATA4 then readSize 4 pc
      else none
    match size with
    | none => pc
    | some (_, pc) => pc

/-- `nCodeSeparators` after the first loop. -/
def countSeparators : Nat → CScript → Nat
  | 0, _ => 0
  | fuel + 1, it =>
    match getOp it with
    | none => 0
    | some (opcode, _, rest) =>
      (if opcode = OP_CODESEPARATOR then 1 else 0) + countSeparators fuel rest

/-- What the second loop writes, and the part behind it; `itBegin` and `it` are what the
    script has from these positions on. -/
def writeScriptCode : Nat → CScript → CScript → List UInt8
  | 0, _, _ => []
  | fuel + 1, itBegin, it =>
    match getOp it with
    | none =>
      if itBegin.isEmpty then [] else itBegin.take (itBegin.length - (getOpStop it).length)
    | some (opcode, _, rest) =>
      if opcode = OP_CODESEPARATOR then
        itBegin.take (itBegin.length - rest.length - 1) ++ writeScriptCode fuel rest rest
      else writeScriptCode fuel itBegin rest

/-- `SerializeScriptCode`; a loop takes at most one pass more than the script has bytes. -/
def serializeScriptCode (scriptCode : CScript) : List UInt8 :=
  writeCompactSize (scriptCode.length - countSeparators (scriptCode.length + 1) scriptCode) ++
    writeScriptCode (scriptCode.length + 1) scriptCode scriptCode

/-! ## The script without them -/

/-- A script of whole instructions. -/
inductive Parses : CScript → Prop
  | nil : Parses []
  | cons {pc rest : CScript} {opcode : Opcodetype} {data : Valtype}
    (hop : getOp pc = some (opcode, data, rest)) (hrest : Parses rest) : Parses pc

/-- The instructions other than separators, and what is behind them. -/
def withoutSeparators : Nat → CScript → CScript
  | 0, _ => []
  | fuel + 1, pc =>
    match getOp pc with
    | none => pc
    | some (opcode, _, rest) =>
      (if opcode = OP_CODESEPARATOR then [] else pc.take (pc.length - rest.length)) ++
        withoutSeparators fuel rest

variable {pc : CScript}

theorem readSize_split {n nSize : Nat} {pc' : CScript} (h : readSize n pc = some (nSize, pc')) :
    ∃ size, pc = size ++ pc' := by
  unfold readSize at h
  split at h
  · cases h
  · cases h
    exact ⟨pc.take n, (take_append_drop n pc).symm⟩

variable {opcode : Opcodetype} {data : Valtype}

theorem getOp_split {rest : CScript} (h : getOp pc = some (opcode, data, rest)) :
    ∃ operand, pc = opcode :: (operand ++ rest) ∧ (¬opcode ≤ OP_PUSHDATA4 → operand = []) := by
  cases pc with
  | nil => cases h
  | cons b pc =>
    rw [getOp] at h
    split at h
    · next hpush =>
      simp only at h
      split at h
      · cases h
      next nSize pc' hsize =>
        have hsplit : ∃ size, pc = size ++ pc' := by
          split at hsize
          · cases hsize
            exact ⟨[], rfl⟩
          split at hsize
          · exact readSize_split hsize
          split at hsize
          · exact readSize_split hsize
          · exact readSize_split hsize
        obtain ⟨size, rfl⟩ := hsplit
        split at h
        · cases h
        · cases h
          refine ⟨size ++ pc'.take nSize, ?_, fun hno => absurd hpush hno⟩
          rw [append_assoc, take_append_drop]
    · cases h
      exact ⟨[], rfl, fun _ => rfl⟩

theorem withoutSeparators_cons {rest operand : CScript} (hop : getOp pc = some (opcode, data, rest))
    (hsplit : pc = opcode :: (operand ++ rest)) (fuel : Nat) : withoutSeparators (fuel + 1) pc =
      (if opcode = OP_CODESEPARATOR then [] else opcode :: operand) ++
        withoutSeparators fuel rest := by
  have htake : pc.take (pc.length - rest.length) = opcode :: operand := by
    rw [hsplit, ← cons_append, length_append, Nat.add_sub_cancel, take_left]
  rw [withoutSeparators, hop]
  simp only [htake]

theorem skipMatches_separator (fuel : Nat) (pc : CScript) :
    skipMatches [OP_CODESEPARATOR] (fuel + 1) (OP_CODESEPARATOR :: pc) =
      skipMatches [OP_CODESEPARATOR] fuel pc := by
  rfl

variable {fuel : Nat}

theorem skipMatches_of_ne (hne : opcode ≠ OP_CODESEPARATOR) :
    skipMatches [OP_CODESEPARATOR] fuel (opcode :: pc) = opcode :: pc := by
  cases fuel with
  | zero => rfl
  | succ fuel =>
    rw [skipMatches, if_neg]
    simpa using hne.symm

theorem findAndDeleteLoop_separator {n : Nat} (hfuel : pc.length < fuel) (hn : pc.length < n) :
    findAndDeleteLoop [OP_CODESEPARATOR] fuel pc = withoutSeparators n pc := by
  induction n generalizing fuel pc with
  | zero => exact absurd hn (Nat.not_lt_zero _)
  | succ n ih =>
    obtain ⟨fuel, rfl⟩ := Nat.exists_eq_add_one.mpr (Nat.zero_lt_of_lt hfuel)
    cases pc with
    | nil => rfl
    | cons b pc =>
      rw [length_cons] at hfuel hn
      by_cases hb : b = OP_CODESEPARATOR
      · -- the separator is skipped in the pass that goes on with the rest
        have hop : getOp (b :: pc) = some (OP_CODESEPARATOR, [], pc) := by
          rw [hb]
          rfl
        have hskip : findAndDeleteLoop [OP_CODESEPARATOR] (fuel + 1) (b :: pc) =
            findAndDeleteLoop [OP_CODESEPARATOR] (fuel + 1) pc := by
          rw [findAndDeleteLoop, findAndDeleteLoop, hb, length_cons, skipMatches_separator]
        have hsplit : b :: pc = OP_CODESEPARATOR :: ([] ++ pc) := by rw [hb]; rfl
        rw [hskip, withoutSeparators_cons hop hsplit, if_pos rfl]
        exact ih (by omega) (by omega)
      · rw [findAndDeleteLoop, skipMatches_of_ne hb]
        cases hop : getOp (b :: pc) with
        | none =>
          rw [withoutSeparators, hop]
        | some instruction =>
          obtain ⟨opcode, data, rest⟩ := instruction
          obtain ⟨operand, hsplit, -⟩ := getOp_split hop
          have hrest := getOp_length hop
          rw [length_cons] at hrest
          rw [withoutSeparators, hop]
          have hopcode : opcode ≠ OP_CODESEPARATOR := by
            cases hsplit
            exact hb
          simp only [hopcode, if_false]
          have hrec : findAndDeleteLoop [OP_CODESEPARATOR] fuel rest = withoutSeparators n rest :=
            ih (by omega) (by omega)
          rw [hrec]

theorem findAndDelete_separator (script : CScript) :
    findAndDelete script [OP_CODESEPARATOR] = withoutSeparators (script.length + 1) script :=
  findAndDeleteLoop_separator (Nat.lt_succ_self _) (Nat.lt_succ_self _)

theorem length_withoutSeparators (h : pc.length < fuel) :
    (withoutSeparators fuel pc).length + countSeparators fuel pc = pc.length := by
  induction fuel generalizing pc with
  | zero => exact absurd h (Nat.not_lt_zero _)
  | succ fuel ih =>
    cases hop : getOp pc with
    | none =>
      rw [withoutSeparators, countSeparators, hop]
      rfl
    | some instruction =>
      obtain ⟨opcode, data, rest⟩ := instruction
      obtain ⟨operand, hsplit, hoperand⟩ := getOp_split hop
      have hrest := getOp_length hop
      have hlength : (withoutSeparators fuel rest).length + countSeparators fuel rest =
          rest.length := ih (by omega)
      rw [withoutSeparators_cons hop hsplit, countSeparators, hop]
      simp only
      split
      · next hsep =>
        have hempty := hoperand (by rw [hsep]; decide)
        rw [hsplit, hempty, nil_append, nil_append, length_cons]
        omega
      · rw [hsplit, length_append, length_cons, length_cons, length_append]
        omega

theorem writeScriptCode_eq {it : CScript} (hparses : Parses it) (h : it.length < fuel)
    (pending : CScript) :
    writeScriptCode fuel (pending ++ it) it = pending ++ withoutSeparators fuel it := by
  induction fuel generalizing it pending with
  | zero => exact absurd h (Nat.not_lt_zero _)
  | succ fuel ih =>
    cases hparses with
    | nil =>
      rw [append_nil, writeScriptCode, withoutSeparators]
      simp only [getOp, getOpStop, length_nil, Nat.sub_zero, take_length]
      cases pending with
      | nil => rfl
      | cons b pending => exact (append_nil _).symm
    | @cons pc rest opcode data hop hrest =>
      obtain ⟨operand, hsplit, hoperand⟩ := getOp_split hop
      have hlength := getOp_length hop
      rw [writeScriptCode, hop, withoutSeparators_cons hop hsplit]
      simp only
      split
      · next hsep =>
        have hpending :
            (pending ++ it).take ((pending ++ it).length - rest.length - 1) = pending := by
          rw [hsplit, hoperand (by rw [hsep]; decide), nil_append, length_append,
            length_cons, show pending.length + (rest.length + 1) - rest.length - 1 =
              pending.length by omega, take_left]
        have hrec := ih hrest (by omega) []
        rw [nil_append, nil_append] at hrec
        rw [hpending, hrec, nil_append]
      · have hbegin : pending ++ it = (pending ++ opcode :: operand) ++ rest := by
          rw [hsplit, append_assoc, cons_append]
        rw [hbegin, ih hrest (by omega), append_assoc]

theorem serializeScriptCode_eq {scriptCode : CScript} (hparses : Parses scriptCode) :
    serializeScriptCode scriptCode =
      serializeBytes (findAndDelete scriptCode [OP_CODESEPARATOR]) := by
  have hlength := length_withoutSeparators (Nat.lt_succ_self scriptCode.length)
  have hwrite := writeScriptCode_eq hparses (Nat.lt_succ_self scriptCode.length) []
  have hsize : scriptCode.length - countSeparators (scriptCode.length + 1) scriptCode =
      (withoutSeparators (scriptCode.length + 1) scriptCode).length :=
    Nat.sub_eq_of_eq_add hlength.symm
  rw [serializeScriptCode, serializeBytes, findAndDelete_separator, hsize]
  exact congrArg _ hwrite

end Rcoin
