/-
  Absorbing a message block by block, all at once or from pieces through a buffer.
-/
import Mathlib

namespace Sponge

open List

variable {S B : Type*} (absorb : S → List B → S) (rate : Nat)

/-- A block of a message. -/
def block (xs : List B) (i : Nat) : List B := (xs.drop (i * rate)).take rate

/-- The first blocks of a message, absorbed one after the other. -/
def absorbBlocks (blocks : Nat) (s : S) (xs : List B) : S :=
  (List.range blocks).foldl (fun s i => absorb s (block rate xs i)) s

/-- All blocks of a message. -/
def absorbAll (s : S) (xs : List B) : S := absorbBlocks absorb rate (xs.length / rate) s xs

/-- The states that have absorbed a message up to what is in the buffer. -/
structure Absorbed (s0 : S) (message : List B) (s : S) (buffer : List B) : Prop where
  split : ∃ n done, message = done ++ buffer ∧ done.length = n * rate ∧
    s = absorbBlocks absorb rate n s0 done
  lt : buffer.length < rate

variable {absorb rate} {s0 s : S} {message buffer data : List B} {k n : Nat}

@[simp] theorem absorbBlocks_zero (xs : List B) : absorbBlocks absorb rate 0 s xs = s := rfl

theorem absorbBlocks_succ (xs : List B) : absorbBlocks absorb rate (n + 1) s xs =
    absorb (absorbBlocks absorb rate n s xs) (block rate xs n) := by
  rw [absorbBlocks, absorbBlocks, List.range_succ, foldl_append, foldl_cons,
    foldl_nil]

variable {xs ys : List B} {i : Nat}

theorem block_append_left (h : (i + 1) * rate ≤ xs.length) :
    block rate (xs ++ ys) i = block rate xs i := by
  rw [Nat.succ_mul] at h
  rw [block, block, drop_append_of_le_length (by omega),
    take_append_of_le_length (by rw [length_drop]; omega)]

theorem block_append_right (h : xs.length = n * rate) :
    block rate (xs ++ ys) (n + i) = block rate ys i := by
  rw [block, block, Nat.add_mul, ← h, ← drop_drop, drop_left]

/-- What is behind the blocks does not matter. -/
theorem absorbBlocks_append_left (h : n * rate ≤ xs.length) :
    absorbBlocks absorb rate n s (xs ++ ys) = absorbBlocks absorb rate n s xs := by
  induction n with
  | zero => rfl
  | succ n ih =>
    have hprev : n * rate ≤ xs.length := Nat.le_trans (Nat.mul_le_mul_right rate (Nat.le_succ n)) h
    rw [absorbBlocks_succ, absorbBlocks_succ, ih hprev, block_append_left h]

theorem absorbBlocks_append (h : xs.length = n * rate) :
    absorbBlocks absorb rate (n + k) s (xs ++ ys) =
      absorbBlocks absorb rate k (absorbBlocks absorb rate n s xs) ys := by
  induction k with
  | zero => exact absorbBlocks_append_left (Nat.le_of_eq h.symm)
  | succ k ih =>
    rw [← Nat.add_assoc, absorbBlocks_succ, absorbBlocks_succ, ih, block_append_right h]

/-! ## Through a buffer -/

theorem Absorbed.start (hrate : 0 < rate) : Absorbed absorb rate s0 [] s0 [] :=
  ⟨⟨0, [], rfl, (Nat.zero_mul _).symm, rfl⟩, hrate⟩

variable (h : Absorbed absorb rate s0 message s buffer)

include h

/-- Data that does not fill the buffer. -/
theorem Absorbed.fill (hlt : buffer.length + data.length < rate) :
    Absorbed absorb rate s0 (message ++ data) s (buffer ++ data) := by
  obtain ⟨n, done, hmessage, hdone, hs⟩ := h.split
  refine ⟨⟨n, done, ?_, hdone, hs⟩, ?_⟩
  · rw [hmessage, append_assoc]
  · rwa [length_append]

/-- Data that ends, with the buffer, at the end of a block. -/
theorem Absorbed.blocks (hlen : (buffer ++ data).length = k * rate) :
    Absorbed absorb rate s0 (message ++ data) (absorbBlocks absorb rate k s (buffer ++ data))
      [] := by
  obtain ⟨n, done, hmessage, hdone, hs⟩ := h.split
  have hrate := Nat.zero_lt_of_lt h.lt
  refine ⟨⟨n + k, done ++ (buffer ++ data), ?_, ?_, ?_⟩, hrate⟩
  · rw [hmessage, append_nil, append_assoc]
  · rw [length_append, hdone, hlen, Nat.add_mul]
  · rw [absorbBlocks_append hdone, hs]

/-- The padding ends the last block. -/
theorem Absorbed.finish (hlen : (buffer ++ data).length = rate) :
    absorbAll absorb rate s0 (message ++ data) = absorb s (buffer ++ data) := by
  obtain ⟨n, done, hmessage, hdone, hs⟩ := h.split
  have hrate := Nat.zero_lt_of_lt h.lt
  have hmessage' : message ++ data = done ++ (buffer ++ data) := by
    rw [hmessage, append_assoc]
  have hblocks : (done ++ (buffer ++ data)).length / rate = n + 1 := by
    rw [length_append, hdone, hlen, ← Nat.succ_mul, Nat.mul_div_cancel _ hrate]
  have hblock : block rate (buffer ++ data) 0 = buffer ++ data := by
    rw [block, Nat.zero_mul, List.drop_zero, ← hlen, List.take_length]
  rw [absorbAll, hmessage', hblocks, absorbBlocks_append hdone, ← hs, absorbBlocks_succ,
    absorbBlocks_zero, hblock]

/-- The length of the buffer is what the message has beyond its blocks. -/
theorem Absorbed.length_buffer : buffer.length = message.length % rate := by
  obtain ⟨n, done, hmessage, hdone, -⟩ := h.split
  rw [hmessage, length_append, hdone, Nat.mul_comm, Nat.mul_add_mod,
    Nat.mod_eq_of_lt h.lt]

omit h

end Sponge
