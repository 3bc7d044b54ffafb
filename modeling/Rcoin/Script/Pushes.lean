/-
  `PushAll` (src/script/sign.cpp) against the interpreter: what the signer pushes is
  what `EvalScript` finds on the stack.
-/
import Rcoin.Script.Interpreter

namespace Rcoin

open Fallible List UInt8

/-! ## Writing instructions -/

/-- `CScript::EncodeOP_N`, which asserts that the number is at most 16. -/
def encodeOpN (n : Nat) : Option Opcodetype :=
  if n ≤ 16 then some (if n = 0 then OP_0 else ofNat (OP_1.toNat + n - 1)) else none

/-- One round of `PushAll`. -/
def pushValue (v : Valtype) : Option CScript :=
  if v.length == 0 then some [OP_0]
  else if v.length == 1 && 1 ≤ v.getD 0 0 && v.getD 0 0 ≤ 16 then
    (encodeOpN (v.getD 0 0).toNat).map ([·])
  else some (pushVector v)

def pushAll : List Valtype → Option CScript
  | [] => some []
  | v :: values => do return (← pushValue v) ++ (← pushAll values)

/-! ## Reading them back -/

/-- The opcode with which `pushVector` begins. -/
def pushOpcode (b : Valtype) : Opcodetype :=
  if b.length < OP_PUSHDATA1.toNat then ofNat b.length
  else if b.length ≤ 0xff then OP_PUSHDATA1
  else if b.length ≤ 0xffff then OP_PUSHDATA2
  else OP_PUSHDATA4

theorem length_toLE (n v : Nat) : (toLE n v).length = n := by
  induction n generalizing v with
  | zero => rfl
  | succ n ih => rw [toLE, length_cons, ih]

variable {n v : Nat}

theorem ofLE_toLE (h : v < 256 ^ n) : ofLE (toLE n v) = v := by
  induction n generalizing v with
  | zero =>
    exact (Nat.lt_one_iff.mp h).symm
  | succ n ih =>
    have hlow : (ofNat v).toNat = v % 256 := toNat_ofNat'
    rw [toLE, ofLE, ih (by omega), hlow]
    omega

theorem readSize_toLE (h : v < 256 ^ n) (rest : CScript) :
    readSize n (toLE n v ++ rest) = some (v, rest) := by
  have hlen := length_toLE n v
  rw [readSize, if_neg (by rw [length_append, hlen]; omega), take_left' hlen,
    drop_left' hlen, ofLE_toLE h]

variable {opcode : Opcodetype}

theorem getOp_of_lt (h : OP_PUSHDATA4 < opcode) (rest : CScript) :
    getOp (opcode :: rest) = some (opcode, [], rest) := by
  exact if_neg (UInt8.not_le.mpr h)

theorem exists_encodeOpN {k : Nat} (hlow : 1 ≤ k) (hhigh : k ≤ 16) :
    ∃ opcode, encodeOpN k = some opcode ∧ opcode = ofNat (OP_1.toNat + k - 1) ∧
      OP_1 ≤ opcode ∧ opcode ≤ OP_16 ∧ decodeOpN opcode = k := by
  interval_cases k <;> exact ⟨_, rfl, rfl, by decide, by decide, rfl⟩

variable {pc : CScript} {b : Valtype}

theorem getOp_of_size {rest : CScript} (hopcode : opcode ≤ OP_PUSHDATA4)
    (hsize : (if opcode < OP_PUSHDATA1 then some (opcode.toNat, pc)
        else if opcode = OP_PUSHDATA1 then readSize 1 pc
        else if opcode = OP_PUSHDATA2 then readSize 2 pc
        else readSize 4 pc) = some (b.length, b ++ rest)) :
    getOp (opcode :: pc) = some (opcode, b, rest) := by
  unfold getOp
  simp only [if_pos hopcode, hsize]
  rw [if_neg (by rw [length_append]; omega), take_left, drop_left]

theorem pushOpcode_le (b : Valtype) : pushOpcode b ≤ OP_PUSHDATA4 := by
  unfold pushOpcode
  split
  · next hlt =>
    have hlt : b.length < 76 := hlt
    show b.length % 256 ≤ 78
    omega
  · split
    · decide
    · split <;> decide

theorem getOp_pushVector (h : b.length < 256 ^ 4) (rest : CScript) :
    getOp (pushVector b ++ rest) = some (pushOpcode b, b, rest) := by
  have hle := pushOpcode_le b
  by_cases hdirect : b.length < OP_PUSHDATA1.toNat
  · have hlt : b.length < 76 := hdirect
    have hnat : (ofNat b.length).toNat = b.length := by
      rw [toNat_ofNat']
      omega
    rw [pushOpcode, if_pos hdirect] at hle ⊢
    rw [pushVector, if_pos hdirect]
    refine getOp_of_size hle ?_
    rw [if_pos (lt_iff_toNat_lt.mpr (by rw [hnat]; exact hdirect)), hnat]
    rfl
  by_cases hone : b.length ≤ 0xff
  · rw [pushOpcode, pushVector, if_neg hdirect, if_neg hdirect, if_pos hone, if_pos hone]
    refine getOp_of_size (by decide) ?_
    show readSize 1 (toLE 1 b.length ++ (b ++ rest)) = _
    exact readSize_toLE (by omega) (b ++ rest)
  by_cases htwo : b.length ≤ 0xffff
  · rw [pushOpcode, pushVector, if_neg hdirect, if_neg hdirect, if_neg hone, if_neg hone,
      if_pos htwo, if_pos htwo, append_assoc, cons_append]
    refine getOp_of_size (by decide) ?_
    show readSize 2 (toLE 2 b.length ++ (b ++ rest)) = _
    exact readSize_toLE (by omega) (b ++ rest)
  · rw [pushOpcode, pushVector, if_neg hdirect, if_neg hdirect, if_neg hone, if_neg hone,
      if_neg htwo, if_neg htwo, append_assoc, cons_append]
    refine getOp_of_size (by decide) ?_
    exact readSize_toLE h (b ++ rest)

/-! ## Executing them -/

section

variable {ctx : EvalContext} {flags : UInt32}

theorem isDisabledOpcode_of_le (h : opcode ≤ OP_16) : isDisabledOpcode opcode = false := by
  rw [isDisabledOpcode, Bool.eq_false_iff]
  intro hmem
  rw [contains_iff_mem] at hmem
  have hall : ∀ l : List Opcodetype, (l.all fun op => decide (OP_16 < op)) = true →
      opcode ∈ l → OP_16 < opcode :=
    fun l hl hop => of_decide_eq_true (all_eq_true.mp hl opcode hop)
  exact UInt8.not_le.mpr (hall _ rfl hmem) h

variable {v : Valtype}

variable {code : CScript} {stack : List Valtype}

theorem evalInstruction_of_push {data : Valtype} (hop : opcode ≤ OP_16)
    (hdata : data.length ≤ MAX_SCRIPT_ELEMENT_SIZE)
    (heval : evalOpcode ctx flags opcode data pc ⟨stack, [], [], n, code⟩ =
      .ok ⟨v :: stack, [], [], n, code⟩) :
    evalInstruction ctx flags opcode data pc ⟨stack, [], [], n, code⟩ =
      if stack.length + 1 > MAX_STACK_SIZE then .error .stackSize
      else .ok ⟨v :: stack, [], [], n, code⟩ := by
  have hcounted : ¬opcode > OP_16 := UInt8.not_lt.mpr hop
  unfold evalInstruction
  simp only [hcounted, isDisabledOpcode_of_le hop, heval, if_false, decide_false,
    decide_eq_false (not_lt.mpr hdata)]
  show (failIf (decide (stack.length + 1 > MAX_STACK_SIZE)) ScriptError.stackSize >>=
    fun _ => .ok _) = _
  by_cases hfull : stack.length + 1 > MAX_STACK_SIZE
  · rw [if_pos hfull, decide_eq_true hfull]
    rfl
  · rw [if_neg hfull, decide_eq_false hfull]
    rfl

theorem evalOpcode_push (hop : opcode ≤ OP_PUSHDATA4)
    (hminimal : checkMinimalPush v opcode = true) :
    evalOpcode ctx flags opcode v pc ⟨stack, [], [], n, code⟩ =
      .ok ⟨v :: stack, [], [], n, code⟩ := by
  unfold evalOpcode
  simp only [all_nil, Bool.true_and, decide_eq_true hop, hminimal, Bool.not_true,
    Bool.and_false, if_true]
  rfl

theorem evalOpcode_small {k : Nat} (hlow : 1 ≤ k) (hhigh : k ≤ 16) :
    evalOpcode ctx flags (ofNat (OP_1.toNat + k - 1)) [] pc ⟨stack, [], [], n, code⟩ =
      .ok ⟨[ofNat k] :: stack, [], [], n, code⟩ := by
  interval_cases k <;> rfl

/-! ## `PushAll` -/

theorem checkMinimalPush_pushOpcode (hsize : v.length ≤ MAX_SCRIPT_ELEMENT_SIZE)
    (hempty : v.length ≠ 0) (hsmall : (v.length == 1 && 1 ≤ v.getD 0 0 && v.getD 0 0 ≤ 16) = false)
    (hnegate : v ≠ [0x81]) : checkMinimalPush v (pushOpcode v) = true := by
  have hsize : v.length ≤ 520 := hsize
  have hone : (v.length == 1 && v.getD 0 0 == 0x81) = false := by
    rw [Bool.and_eq_false_iff, or_iff_not_imp_left, Bool.not_eq_false, beq_iff_eq, beq_eq_false_iff_ne]
    intro hlen hbyte
    obtain ⟨b, rfl⟩ := length_eq_one_iff.mp hlen
    exact hnegate (congrArg (fun b => [b]) hbyte)
  have hsmall' : (v.length == 1 && decide (v.getD 0 0 ≥ 1) && decide (v.getD 0 0 ≤ 16)) = false :=
    hsmall
  unfold checkMinimalPush
  rw [if_neg (by rwa [beq_iff_eq]), hsmall', hone, if_neg Bool.false_ne_true,
    if_neg Bool.false_ne_true]
  -- the length decides in the same order as where it was written
  unfold pushOpcode
  have hdirect : v.length < OP_PUSHDATA1.toNat ↔ v.length ≤ 75 := Nat.lt_succ_iff
  by_cases h75 : v.length ≤ 75
  · rw [if_pos h75, if_pos (hdirect.mpr h75), beq_iff_eq, toNat_ofNat']
    omega
  rw [if_neg h75, if_neg (mt hdirect.mp h75)]
  by_cases h255 : v.length ≤ 255
  · rw [if_pos h255, if_pos h255]
    rfl
  · rw [if_neg h255, if_neg h255, if_pos (by omega), if_pos (by omega)]
    rfl

variable (ctx flags)

theorem exists_pushValue (hsize : v.length ≤ MAX_SCRIPT_ELEMENT_SIZE) (hnegate : v ≠ [0x81]) :
    ∃ push opcode data, pushValue v = some push ∧ opcode ≤ OP_16 ∧
      data.length ≤ MAX_SCRIPT_ELEMENT_SIZE ∧
      (∀ rest, getOp (push ++ rest) = some (opcode, data, rest)) ∧
      ∀ pc stack n code, evalOpcode ctx flags opcode data pc ⟨stack, [], [], n, code⟩ =
        .ok ⟨v :: stack, [], [], n, code⟩ := by
  unfold pushValue
  by_cases hempty : v.length = 0
  · obtain rfl := length_eq_zero_iff.mp hempty
    exact ⟨[OP_0], OP_0, [], rfl, by decide, by decide, fun rest => rfl,
      fun pc stack n code => evalOpcode_push (by decide) rfl⟩
  rw [if_neg (by rwa [beq_iff_eq])]
  cases hsmall : v.length == 1 && decide (1 ≤ v.getD 0 0) && decide (v.getD 0 0 ≤ 16) with
  | true =>
    rw [Bool.and_eq_true, Bool.and_eq_true, beq_iff_eq] at hsmall
    obtain ⟨⟨hlen, hlow⟩, hhigh⟩ := hsmall
    obtain ⟨b, rfl⟩ := length_eq_one_iff.mp hlen
    have hlow : 1 ≤ b.toNat := le_iff_toNat_le.mp (of_decide_eq_true hlow)
    have hhigh : b.toNat ≤ 16 := le_iff_toNat_le.mp (of_decide_eq_true hhigh)
    obtain ⟨opcode, hencode, hopcode, hop1, hop16, -⟩ := exists_encodeOpN hlow hhigh
    refine ⟨[opcode], opcode, [], ?_, hop16, Nat.zero_le _,
      getOp_of_lt (UInt8.lt_of_lt_of_le (by decide) hop1), fun pc stack n code => ?_⟩
    · show (encodeOpN b.toNat).map _ = _
      rw [hencode]
      rfl
    · rw [hopcode, evalOpcode_small hlow hhigh, UInt8.ofNat_toNat]
  | false =>
    have hpush := pushOpcode_le v
    exact ⟨pushVector v, pushOpcode v, v, rfl, UInt8.le_trans hpush (by decide), hsize,
      getOp_pushVector (by have : v.length ≤ 520 := hsize; omega), fun pc stack n code =>
        evalOpcode_push hpush (checkMinimalPush_pushOpcode hsize hempty hsmall hnegate)⟩

theorem evalLoop_pushAll {values : List Valtype}
    (hsize : ∀ v ∈ values, v.length ≤ MAX_SCRIPT_ELEMENT_SIZE) (hnegate : [0x81] ∉ values) :
    ∃ script, pushAll values = some script ∧
      ∀ (stack : List Valtype) (n : Nat) (code : CScript), stack.length ≤ MAX_STACK_SIZE →
        evalLoop ctx flags script.length script ⟨stack, [], [], n, code⟩ =
          if stack.length + values.length > MAX_STACK_SIZE then .error .stackSize
          else .ok ⟨values.reverse ++ stack, [], [], n, code⟩ := by
  induction values with
  | nil =>
    refine ⟨[], rfl, fun stack n code hfits => ?_⟩
    exact (if_neg (not_lt.mpr hfits)).symm
  | cons v values ih =>
    rw [forall_mem_cons] at hsize
    rw [mem_cons, not_or] at hnegate
    obtain ⟨script, hscript, hrun⟩ := ih hsize.2 hnegate.2
    obtain ⟨push, opcode, data, hpush, hop, hdata, hget, heval⟩ :=
      exists_pushValue ctx flags hsize.1 (Ne.symm hnegate.1)
    refine ⟨push ++ script, ?_, fun stack n code hfits => ?_⟩
    · rw [pushAll, hpush, hscript]
      rfl
    have hlen := getOp_length (hget script)
    obtain ⟨fuel, hfuel⟩ := Nat.exists_eq_add_one.mpr (Nat.lt_of_le_of_lt (Nat.zero_le _) hlen)
    have hne : (push ++ script).isEmpty = false := by
      rw [isEmpty_eq_false_iff, ← length_pos_iff, hfuel]
      exact Nat.succ_pos _
    have hstep := evalInstruction_of_push hop hdata (heval script stack n code)
    rw [hfuel, evalLoop, if_neg (by rw [hne]; exact Bool.false_ne_true)]
    simp only [hget, hstep]
    rw [length_cons, reverse_cons, append_assoc]
    by_cases hfull : stack.length + 1 > MAX_STACK_SIZE
    · rw [if_pos hfull, if_pos (by omega)]
      rfl
    · rw [if_neg hfull]
      show evalLoop ctx flags fuel script ⟨v :: stack, [], [], n, code⟩ = _
      rw [evalLoop_of_le (by omega), hrun (v :: stack) _ _ (not_lt.mp hfull), length_cons,
        add_right_comm, add_assoc]
      rfl

end

/-- With any flags, evaluating what `PushAll` writes succeeds and leaves exactly the given
    strings on the stack, the last one on top, if and only if the script and the stack stay
    within the limits of the interpreter. -/
theorem evalScript_pushAll (ctx : EvalContext) (flags : UInt32) (values : List Valtype)
    (hsize : ∀ v ∈ values, v.length ≤ MAX_SCRIPT_ELEMENT_SIZE) (hnegate : [0x81] ∉ values) :
    ∃ script, pushAll values = some script ∧
      (evalScript ctx flags [] script = .ok values.reverse ↔
        script.length ≤ MAX_SCRIPT_SIZE ∧ values.length ≤ MAX_STACK_SIZE) := by
  obtain ⟨script, hscript, hrun⟩ := evalLoop_pushAll ctx flags hsize hnegate
  refine ⟨script, hscript, ?_⟩
  unfold evalScript
  rw [hrun [] 0 script (Nat.zero_le _), length_nil, Nat.zero_add, append_nil]
  by_cases hlong : script.length > MAX_SCRIPT_SIZE
  · rw [decide_eq_true hlong]
    exact iff_of_false (nomatch ·) fun h => absurd h.1 (Nat.not_le.mpr hlong)
  rw [decide_eq_false hlong]
  by_cases hfull : values.length > MAX_STACK_SIZE
  · rw [if_pos hfull]
    exact iff_of_false (nomatch ·) fun h => absurd h.2 (Nat.not_le.mpr hfull)
  · rw [if_neg hfull]
    exact iff_of_true rfl ⟨Nat.not_lt.mp hlong, Nat.not_lt.mp hfull⟩

/-- The empty string, a small number, and two bytes. -/
theorem evalScript_pushAll_three :
    ∃ script, pushAll [[], [16], [0x81, 0]] = some script ∧
      (evalScript ⟨⟨id, id, id, id, id⟩,
          ⟨fun _ _ _ _ => true, fun _ => true, fun _ => true⟩, .base⟩
          SCRIPT_VERIFY_MINIMALDATA [] script = .ok [[0x81, 0], [16], []] ↔
        script.length ≤ MAX_SCRIPT_SIZE ∧ 3 ≤ MAX_STACK_SIZE) :=
  evalScript_pushAll _ _ [[], [16], [0x81, 0]] (by simp [MAX_SCRIPT_ELEMENT_SIZE]) (by simp)

/-- More strings than the stack holds cannot be left on it. -/
theorem pushAll_overflow :
    ¬∀ (ctx : EvalContext) (values : List Valtype),
      (∀ v ∈ values, v.length ≤ MAX_SCRIPT_ELEMENT_SIZE) →
      ∃ script, pushAll values = some script ∧
        evalScript ctx SCRIPT_VERIFY_MINIMALDATA [] script = .ok values.reverse := by
  intro h
  let ctx : EvalContext :=
    ⟨⟨id, id, id, id, id⟩, ⟨fun _ _ _ _ => true, fun _ => true, fun _ => true⟩, .base⟩
  obtain ⟨n, hn⟩ : ∃ n, n = MAX_STACK_SIZE + 1 := ⟨_, rfl⟩
  have hsize : ∀ v ∈ List.replicate n ([] : Valtype), v.length ≤ MAX_SCRIPT_ELEMENT_SIZE := by
    intro v hv
    rw [eq_of_mem_replicate hv]
    exact Nat.zero_le _
  have hnegate : [0x81] ∉ List.replicate n ([] : Valtype) :=
    fun hmem => nomatch eq_of_mem_replicate hmem
  obtain ⟨script, hscript, hok⟩ := h ctx _ hsize
  obtain ⟨script', hscript', hrun⟩ :=
    evalLoop_pushAll ctx SCRIPT_VERIFY_MINIMALDATA hsize hnegate
  cases hscript.symm.trans hscript'
  unfold evalScript at hok
  rw [hrun [] 0 script (Nat.zero_le _), length_replicate, hn, if_pos (by decide)] at hok
  cases hlong : decide (script.length > MAX_SCRIPT_SIZE) <;>
  · rw [hlong] at hok
    cases hok

end Rcoin
