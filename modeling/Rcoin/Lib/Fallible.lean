/-
  Inversion lemmas for computations in `Except`: what is known when a sequence
  of guarded steps has succeeded, and which errors it cannot end in.
-/
import Mathlib

namespace Fallible

variable {ε ε' α β : Type}

/-- A guard: fail with `e` when the condition holds. -/
def failIf (c : Bool) (e : ε) : Except ε Unit := if c then .error e else .ok ⟨⟩

/-- A step that is taken only when the condition holds. -/
def onlyIf (c : Bool) (x : Except ε Unit) : Except ε Unit := if c then x else .ok ⟨⟩

variable {x : Except ε α}

variable {b : β}

theorem bind_eq_ok {f : α → Except ε β} : (x >>= f) = .ok b ↔ ∃ a, x = .ok a ∧ f a = .ok b := by
  cases x with
  | error e => exact ⟨fun h => (nomatch h), fun ⟨_, h, _⟩ => (nomatch h)⟩
  | ok a => exact ⟨fun h => ⟨a, rfl, h⟩, fun ⟨_, ha, h⟩ => by cases ha; exact h⟩

variable {c : Bool} {e : ε}

theorem failIf_eq_ok {u : Unit} : failIf c e = .ok u ↔ c = false := by
  cases c with
  | false => exact ⟨fun _ => rfl, fun _ => rfl⟩
  | true => exact ⟨fun h => (nomatch h), fun h => (nomatch h)⟩

variable {f : Unit → Except ε β}

theorem failIf_bind_eq_ok : (failIf c e >>= f) = .ok b ↔ c = false ∧ f ⟨⟩ = .ok b := by
  rw [bind_eq_ok]
  constructor
  · rintro ⟨u, hu, hf⟩
    exact ⟨failIf_eq_ok.mp hu, hf⟩
  · rintro ⟨hc, hf⟩
    exact ⟨⟨⟩, failIf_eq_ok.mpr hc, hf⟩

theorem onlyIf_bind_eq_ok {x : Except ε Unit} :
    (onlyIf c x >>= f) = .ok b ↔ (c = true → x = .ok ⟨⟩) ∧ f ⟨⟩ = .ok b := by
  cases c with
  | false => exact ⟨fun h => ⟨(nomatch ·), h⟩, fun h => h.2⟩
  | true =>
    rw [bind_eq_ok]
    exact ⟨fun ⟨_, hx, hf⟩ => ⟨fun _ => hx, hf⟩, fun ⟨hx, hf⟩ => ⟨⟨⟩, hx rfl, hf⟩⟩

theorem pure_eq_ok {a b : α} : (pure a : Except ε α) = .ok b ↔ a = b :=
  ⟨fun h => by cases h; rfl, fun h => by rw [h]; rfl⟩

theorem map_bind {γ : Type} (x : Except ε α) (f : α → Except ε β) (g : β → γ) :
    (x >>= f).map g = x >>= fun a => (f a).map g := by
  cases x <;> rfl

theorem bind_map {γ : Type} (x : Except ε α) (g : α → β) (f : β → Except ε γ) :
    (x.map g >>= f) = x >>= fun a => f (g a) := by
  cases x <;> rfl

/-- A loop whose steps look at each element on its own. -/
theorem foldlM_eq_ok {σ : Type} {f : σ → α → Except ε σ} {P : α → Prop} {g : σ → α → σ}
    (h : ∀ s a s', f s a = .ok s' ↔ P a ∧ s' = g s a) {l : List α} {s s' : σ} :
    l.foldlM f s = .ok s' ↔ (∀ a ∈ l, P a) ∧ s' = l.foldl g s := by
  induction l generalizing s with
  | nil =>
    rw [List.foldlM_nil, pure_eq_ok]
    exact ⟨fun heq => ⟨fun a ha => (nomatch ha), heq.symm⟩, fun heq => heq.2.symm⟩
  | cons a l ih =>
    rw [List.foldlM_cons, bind_eq_ok, List.foldl_cons, List.forall_mem_cons]
    constructor
    · rintro ⟨t, ht, hrest⟩
      obtain ⟨hP, rfl⟩ := (h s a t).mp ht
      obtain ⟨hall, heq⟩ := ih.mp hrest
      exact ⟨⟨hP, hall⟩, heq⟩
    · rintro ⟨⟨hP, hall⟩, heq⟩
      exact ⟨g s a, (h s a _).mpr ⟨hP, rfl⟩, ih.mpr ⟨hall, heq⟩⟩

theorem mapError_eq_ok {f : ε → ε'} {a : α} : x.mapError f = .ok a ↔ x = .ok a := by
  cases x with
  | error e => exact ⟨fun h => (nomatch h), fun h => (nomatch h)⟩
  | ok b => exact ⟨fun h => by cases h; rfl, fun h => by cases h; rfl⟩

/-- A success whose result passes a test; it evaluates. -/
def okAnd (x : Except ε α) (p : α → Bool) : Bool :=
  match x with
  | .ok a => p a
  | .error _ => false

theorem exists_of_okAnd {p : α → Bool} (h : okAnd x p = true) : ∃ a, x = .ok a ∧ p a = true := by
  cases x with
  | error e => cases h
  | ok a => exact ⟨a, rfl, h⟩

/-! ## Errors that do not occur -/

/-- The computation does not end in the error. -/
def Avoids (e : ε) (x : Except ε α) : Prop := x ≠ .error e

namespace Avoids

theorem ok (e : ε) (a : α) : Avoids e (.ok a) := fun h => (nomatch h)

theorem error {e' : ε} (h : e' ≠ e) : Avoids e (.error e' : Except ε α) :=
  fun heq => h (Except.error.inj heq)

/-- The second computation has to avoid the error on the results of the first. -/
theorem bind {f : α → Except ε β} (hx : Avoids e x) (hf : ∀ a, x = .ok a → Avoids e (f a))
    : Avoids e (x >>= f) := by
  cases x with
  | error e' => exact fun h => hx (congrArg Except.error (Except.error.inj h))
  | ok a => exact hf a rfl

/-- A guard with another error in front of a computation. -/
theorem failIf {e' : ε} (h : e' ≠ e) (hf : c = false → Avoids e (f ⟨⟩))
    : Avoids e (failIf c e' >>= f) := by
  cases c with
  | false => exact hf rfl
  | true => exact error h

/-- A guard at the end. -/
theorem lastFailIf {e' : ε} (h : e' ≠ e) : Avoids e (Fallible.failIf c e') := by
  cases c with
  | false => exact ok e ()
  | true => exact error h

theorem mapError {e' : ε'} {f : ε → ε'} (h : ∀ e, f e ≠ e') (x : Except ε α) :
    Avoids e' (x.mapError f) := by
  cases x with
  | error e => exact error (h e)
  | ok a => exact ok e' a

theorem onlyIf {x : Except ε Unit} (hx : Avoids e x) (hf : Avoids e (f ⟨⟩))
    : Avoids e (onlyIf c x >>= f) := by
  cases c with
  | false => exact hf
  | true => exact bind hx fun _ _ => hf

end Avoids

/-! ## Stricter computations -/

/-- `x` succeeds only where `y` does, and with the same result. -/
def Stricter (x y : Except ε α) : Prop := ∀ a, x = .ok a → y = .ok a

namespace Stricter

theorem refl (x : Except ε α) : Stricter x x := fun _ h => h

theorem error (e : ε) (y : Except ε α) : Stricter (.error e) y := fun _ h => (nomatch h)

variable {y : Except ε α}

theorem bind {f g : α → Except ε β} (hx : Stricter x y) (hf : ∀ a, Stricter (f a) (g a)) :
    Stricter (x >>= f) (y >>= g) := by
  intro b hb
  obtain ⟨a, ha, hfa⟩ := bind_eq_ok.mp hb
  exact bind_eq_ok.mpr ⟨a, hx a ha, hf a b hfa⟩

theorem mapError (h : Stricter x y) (f : ε → ε') : Stricter (x.mapError f) (y.mapError f) :=
  fun a ha => mapError_eq_ok.mpr (h a (mapError_eq_ok.mp ha))

/-- A guard that fails more often. -/
theorem failIf {c' : Bool} (h : c' = true → c = true) (e e' : ε) :
    Stricter (failIf c e) (Fallible.failIf c' e') := by
  intro u hu
  rw [failIf_eq_ok] at hu ⊢
  exact Bool.eq_false_iff.mpr fun hc' => Bool.eq_false_iff.mp hu (h hc')

/-- A check that is made more often, and is stricter where both are made. -/
theorem onlyIf {c' : Bool} {x y : Except ε Unit} (h : c' = true → c = true)
    (hxy : c' = true → Stricter x y) : Stricter (onlyIf c x) (Fallible.onlyIf c' y) := by
  intro u hu
  cases c' with
  | false => rfl
  | true =>
    rw [h rfl] at hu
    exact hxy rfl u hu

end Stricter

end Fallible
