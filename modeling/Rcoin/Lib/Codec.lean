/-
  Readers that accept exactly what a writer produces: one statement for the round trip
  and for the uniqueness of what is accepted, which is kept by sequencing, by mapping
  and by repetition.
-/
import Rcoin.Lib.Fallible

namespace Codec

variable {σ ε α β γ : Type}

/-- A reader returns a value and what is behind it. -/
abbrev Reader (σ ε α : Type) := List σ → Except ε (α × List σ)

/-- What is read are the values in `P`, from exactly what is written for them. -/
def Exact (read : Reader σ ε α) (write : α → List σ) (P : α → Prop) : Prop :=
  ∀ x input rest, read input = .ok (x, rest) ↔ P x ∧ input = write x ++ rest

variable {read : Reader σ ε α} {write : α → List σ} {P : α → Prop}

theorem Exact.read_write (h : Exact read write P) {x : α} (hx : P x) (rest : List σ) :
    read (write x ++ rest) = .ok (x, rest) :=
  (h x _ rest).mpr ⟨hx, rfl⟩

/-- Reading goes on behind what was written. -/
theorem Exact.bind_eq_ok (h : Exact read write P) {next : α × List σ → Except ε γ}
    {input : List σ} {y : γ} :
    (read input >>= next) = .ok y ↔
      ∃ x rest, P x ∧ input = write x ++ rest ∧ next (x, rest) = .ok y := by
  rw [Fallible.bind_eq_ok]
  constructor
  · rintro ⟨⟨x, rest⟩, hread, hnext⟩
    obtain ⟨hx, hinput⟩ := (h x input rest).mp hread
    exact ⟨x, rest, hx, hinput, hnext⟩
  · rintro ⟨x, rest, hx, hinput, hnext⟩
    exact ⟨(x, rest), (h x input rest).mpr ⟨hx, hinput⟩, hnext⟩

/-- A reader of what the values stand for. -/
def mapRead (f : α → β) (read : Reader σ ε α) : Reader σ ε β := fun input => do
  let (x, rest) ← read input
  return (f x, rest)

/-- Values of another type in one-to-one correspondence. -/
theorem Exact.map {f : α → β} {g : β → α} {Q : β → Prop} (h : Exact read write P)
    (hf : ∀ x, P x → Q (f x) ∧ g (f x) = x) (hg : ∀ y, Q y → P (g y) ∧ f (g y) = y) :
    Exact (mapRead f read) (write ∘ g) Q := by
  intro y input rest
  rw [mapRead, h.bind_eq_ok]
  constructor
  · rintro ⟨x, rest', hx, rfl, hok⟩
    cases hok
    obtain ⟨hy, hback⟩ := hf x hx
    exact ⟨hy, congrArg (write · ++ rest) hback.symm⟩
  · rintro ⟨hy, rfl⟩
    obtain ⟨hx, hback⟩ := hg y hy
    exact ⟨g y, rest, hx, rfl, congrArg (fun y => Except.ok (y, rest)) hback⟩

/-! ## Repetition -/

def readMany (read : Reader σ ε α) : Nat → Reader σ ε (List α)
  | 0, input => .ok ([], input)
  | n + 1, input => do
    let (x, input) ← read input
    let (xs, input) ← readMany read n input
    return (x :: xs, input)

/-- By induction on the number of values. -/
theorem Exact.many (h : Exact read write P) (n : Nat) :
    Exact (readMany read n) (List.flatMap write) (fun xs => xs.length = n ∧ ∀ x ∈ xs, P x) := by
  induction n with
  | zero =>
    intro xs input rest
    constructor
    · intro hread
      cases hread
      exact ⟨⟨rfl, fun x hx => nomatch hx⟩, rfl⟩
    · rintro ⟨⟨hlen, -⟩, hinput⟩
      obtain rfl := List.length_eq_zero_iff.mp hlen
      rw [hinput]
      rfl
  | succ n ih =>
    intro xs input rest
    rw [readMany, h.bind_eq_ok]
    constructor
    · rintro ⟨x, input', hx, rfl, hrest⟩
      obtain ⟨xs', rest', ⟨hlen, hxs⟩, rfl, hok⟩ := ih.bind_eq_ok.mp hrest
      cases hok
      refine ⟨⟨congrArg Nat.succ hlen, List.forall_mem_cons.mpr ⟨hx, hxs⟩⟩, ?_⟩
      rw [List.flatMap_cons, List.append_assoc]
    · rintro ⟨⟨hlen, hxs⟩, rfl⟩
      obtain ⟨x, xs', rfl⟩ := List.exists_cons_of_length_eq_add_one hlen
      obtain ⟨hx, hxs'⟩ := List.forall_mem_cons.mp hxs
      refine ⟨x, xs'.flatMap write ++ rest, hx, ?_, ?_⟩
      · rw [List.flatMap_cons, List.append_assoc]
      · exact ih.bind_eq_ok.mpr ⟨xs', rest, ⟨Nat.succ.inj hlen, hxs'⟩, rfl, rfl⟩

/-- What is written for a value that can be written is read back. -/
def Restores (read : Reader σ ε α) (write : α → Option (List σ)) (x : α) : Prop :=
  ∃ bytes, write x = some bytes ∧ ∀ rest, read (bytes ++ rest) = .ok (x, rest)

theorem Restores.many {write : α → Option (List σ)} {xs : List α}
    (h : ∀ x ∈ xs, Restores read write x) :
    ∃ bytes, xs.mapM write = some bytes ∧
      ∀ rest, readMany read xs.length (bytes.flatten ++ rest) = .ok (xs, rest) := by
  induction xs with
  | nil => exact ⟨[], rfl, fun _ => rfl⟩
  | cons x xs ih =>
    obtain ⟨⟨head, hwrite, hread⟩, hxs⟩ := List.forall_mem_cons.mp h
    obtain ⟨bytes, hwrites, hreads⟩ := ih hxs
    refine ⟨head :: bytes, by rw [List.mapM_cons, hwrite, hwrites]; rfl, fun rest => ?_⟩
    rw [List.flatten_cons, List.append_assoc, List.length_cons, readMany]
    refine Fallible.bind_eq_ok.mpr ⟨_, hread _, ?_⟩
    exact Fallible.bind_eq_ok.mpr ⟨_, hreads rest, rfl⟩

end Codec
