/-
  Computations that may fail and that count the calls they make on the way; the
  calls made before a failure count as well.
-/
import Rcoin.Lib.Fallible

/-- A result, and how many calls were made for it. -/
structure Costed (ε α : Type) where
  result : Except ε α
  calls : Nat

namespace Costed

variable {ε α β : Type}

/-- A computation that makes no call. -/
def lift (x : Except ε α) : Costed ε α := ⟨x, 0⟩

/-- One call, with its reply. -/
def call (a : α) : Costed ε α := ⟨.ok a, 1⟩

def bind (x : Costed ε α) (f : α → Costed ε β) : Costed ε β :=
  match x.result with
  | .ok a => ⟨(f a).result, x.calls + (f a).calls⟩
  | .error e => ⟨.error e, x.calls⟩

instance : Monad (Costed ε) where
  pure a := lift (.ok a)
  bind := bind

instance : MonadLift (Except ε) (Costed ε) where
  monadLift := lift

variable (a : α)

@[simp] theorem result_pure : (pure a : Costed ε α).result = .ok a := rfl

@[simp] theorem calls_pure : (pure a : Costed ε α).calls = 0 := rfl

@[simp] theorem result_lift (x : Except ε α) : (lift x).result = x := rfl

@[simp] theorem calls_lift (x : Except ε α) : (lift x).calls = 0 := rfl

@[simp] theorem result_liftM (x : Except ε α) : (liftM x : Costed ε α).result = x := rfl

@[simp] theorem calls_liftM (x : Except ε α) : (liftM x : Costed ε α).calls = 0 := rfl

@[simp] theorem result_call : (call a : Costed ε α).result = .ok a := rfl

@[simp] theorem calls_call : (call a : Costed ε α).calls = 1 := rfl

/-- The result does not depend on the counting. -/
@[simp] theorem result_bind (x : Costed ε α) (f : α → Costed ε β) :
    (x >>= f).result = x.result >>= fun a => (f a).result := by
  obtain ⟨result, calls⟩ := x
  cases result <;> rfl

variable {x : Costed ε α} {f : α → Costed ε β}

theorem calls_bind_ok {a : α} (h : x.result = .ok a) : (x >>= f).calls = x.calls + (f a).calls := by
  obtain ⟨result, calls⟩ := x
  cases h
  rfl

theorem calls_bind_error {e : ε} (h : x.result = .error e) : (x >>= f).calls = x.calls := by
  obtain ⟨result, calls⟩ := x
  cases h
  rfl

variable {n : Nat}

theorem calls_bind_le {m : Nat} (hx : x.calls ≤ m) (hf : ∀ a, x.result = .ok a → (f a).calls ≤ n)
    : (x >>= f).calls ≤ m + n := by
  cases h : x.result with
  | ok a =>
    rw [calls_bind_ok h]
    exact Nat.add_le_add hx (hf a h)
  | error e =>
    rw [calls_bind_error h]
    omega

theorem calls_lift_bind_le {x : Except ε α} (hf : ∀ a, x = .ok a → (f a).calls ≤ n)
    : (liftM x >>= f : Costed ε β).calls ≤ n := by
  have hle := calls_bind_le (Nat.le_refl (liftM x : Costed ε α).calls) hf
  rwa [calls_liftM, Nat.zero_add] at hle

theorem calls_ite_le {P : Prop} [Decidable P] {y : Costed ε α} (hx : P → x.calls ≤ n)
    (hy : ¬P → y.calls ≤ n) : (if P then x else y).calls ≤ n := by
  by_cases hP : P
  · rw [if_pos hP]
    exact hx hP
  · rw [if_neg hP]
    exact hy hP

theorem calls_bind_le_left (hx : x.calls ≤ n) (hf : ∀ a, (f a).calls = 0) : (x >>= f).calls ≤ n :=
  calls_bind_le hx fun a _ => Nat.le_of_eq (hf a)

end Costed
