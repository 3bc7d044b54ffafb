/-
  Private keys as bytes: `CKey` (src/key.h).
-/
import Rcoin.Lib.Fallible
import Rcoin.Primitives

namespace Rcoin

def PRIVATE_KEY_SIZE : Nat := 64

/-- An encapsulated private key. -/
structure CKey where
  fValid : Bool
  privkey : List UInt8
  size : privkey.length = PRIVATE_KEY_SIZE
  deriving DecidableEq

/-- A public key, 32 bytes. -/
abbrev CPubKey := List UInt8

/-- What an `assert` reports. -/
inductive KeyStoreError where
  | assertFailed (what : String)
  deriving DecidableEq, Repr

theorem CKey.privkey_ne_nil (key : CKey) : key.privkey ≠ [] := by
  intro h
  have hsize := key.size
  rw [h] at hsize
  cases hsize

end Rcoin
