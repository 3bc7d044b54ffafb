/-
  Arithmetic of signed machine integers in which an overflow is a fault.
-/
import Mathlib

namespace Checked

/-- What signed arithmetic has no result for. -/
inductive Fault where
  | overflow
  deriving DecidableEq, Repr

/-- A number of `w` bits. -/
def Fits (w : Nat) (x : Int) : Prop := -2 ^ (w - 1) ≤ x ∧ x < 2 ^ (w - 1)

instance (w : Nat) (x : Int) : Decidable (Fits w x) := inferInstanceAs (Decidable (_ ∧ _))

def signed (w : Nat) (x : Int) : Except Fault Int := if Fits w x then .ok x else .error .overflow

theorem signed_of_fits {w : Nat} {x : Int} (h : Fits w x) : signed w x = .ok x := if_pos h

theorem i64_ok {x : Int} (hlo : -2 ^ 63 ≤ x) (hhi : x < 2 ^ 63) : signed 64 x = .ok x :=
  signed_of_fits ⟨hlo, hhi⟩

theorem bind_of_ok {ε α β : Type} {r : Except ε α} {a : α} (h : r = .ok a)
    (f : α → Except ε β) : (r >>= f) = f a := by
  rw [h]
  rfl

end Checked
