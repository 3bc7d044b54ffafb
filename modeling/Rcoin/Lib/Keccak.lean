/-
  SHA3-256 as FIPS 202 defines it: the step mappings of Keccak-f[1600] on a state of
  bits, the sponge over blocks of 1088 bits and the padding 10*1.
-/
import Rcoin.Lib.Sponge

namespace Keccak

/-- The state: the bit at `x`, `y` and `z`. -/
abbrev State := Fin 5 → Fin 5 → Fin 64 → Bool

/-! ## The step mappings -/

/-- The parity of a column. -/
def parity (a : State) (x : Fin 5) (z : Fin 64) : Bool :=
  a x 0 z ^^ a x 1 z ^^ a x 2 z ^^ a x 3 z ^^ a x 4 z

def theta (a : State) : State := fun x y z =>
  a x y z ^^ (parity a (x - 1) z ^^ parity a (x + 1) (z - 1))

/-- The lanes in the order in which `rho` meets them. -/
def lane : Nat → Fin 5 × Fin 5
  | 0 => (1, 0)
  | t + 1 => ((lane t).2, 2 * (lane t).1 + 3 * (lane t).2)

/-- How far `rho` rotates a lane; the one at 0, 0 is not met. -/
def offset (x y : Fin 5) : Nat :=
  match (List.range 24).find? fun t => lane t == (x, y) with
  | some t => (t + 1) * (t + 2) / 2
  | none => 0

/-- The offsets within a lane, for each `x` the ones for all `y`. -/
def rotation (x y : Fin 5) : Nat :=
  let rotations : List (List Nat) := [[0, 36, 3, 41, 18], [1, 44, 10, 45, 2],
    [62, 6, 43, 15, 61], [28, 55, 25, 21, 56], [27, 20, 39, 8, 14]]
  (rotations.getD x []).getD y 0

theorem offset_mod : ∀ x y, offset x y % 64 = rotation x y := by decide +kernel

def rho (a : State) : State := fun x y z => a x y (z - Fin.ofNat 64 (offset x y))

def pi (a : State) : State := fun x y z => a (x + 3 * y) x z

def chi (a : State) : State := fun x y z => a x y z ^^ (!a (x + 1) y z && a (x + 2) y z)

/-- A step of the register that gives the round constants. -/
def shiftRegister (r : List Bool) : List Bool :=
  match r with
  | [r0, r1, r2, r3, r4, r5, r6, r7] => [r7, r0, r1, r2, r3 ^^ r7, r4 ^^ r7, r5 ^^ r7, r6]
  | _ => r

/-- The output of the register after `t` steps. -/
def rc (t : Nat) : Bool :=
  (shiftRegister^[t % 255] [true, false, false, false, false, false, false, false]).headD false

/-- The round constant: the bits at 2^j - 1 are from the register. -/
def roundConstant (ir : Nat) (z : Fin 64) : Bool :=
  (List.range 7).any fun j => z.val + 1 == 2 ^ j && rc (j + 7 * ir)

def iota (ir : Nat) (a : State) : State := fun x y z =>
  if x = 0 ∧ y = 0 then a x y z ^^ roundConstant ir z else a x y z

def round (ir : Nat) (a : State) : State := iota ir (chi (pi (rho (theta a))))

def permutation (a : State) : State := (List.range 24).foldl (fun a ir => round ir a) a

/-! ## The sponge -/

/-- Where a bit of the state is in its string. -/
def index (x y : Fin 5) (z : Fin 64) : Nat := 64 * (5 * y.val + x.val) + z.val

/-- A bit of the state's string. -/
def bit (a : State) (i : Nat) : Bool :=
  a (Fin.ofNat 5 (i / 64)) (Fin.ofNat 5 (i / 64 / 5)) (Fin.ofNat 64 i)

def zero : State := fun _ _ _ => false

/-- A block, with zeros behind it, is added to the state, which is permuted. -/
def absorb (a : State) (block : List Bool) : State :=
  permutation fun x y z => a x y z ^^ block.getD (index x y z) false

/-- The padding of a message of `m` bits to a multiple of `r` bits. -/
def pad101 (r m : Nat) : List Bool :=
  true :: List.replicate ((r - (m + 2) % r) % r) false ++ [true]

def sha3_256 (message : List Bool) : List Bool :=
  let padded := message ++ [false, true]
  let a := Sponge.absorbAll absorb 1088 zero (padded ++ pad101 1088 padded.length)
  (List.range 256).map (bit a)

end Keccak
