import Mathlib

/-!
# Numbers as bytes

A number is written as `k` bytes, the lowest first, and read back from them. A queue of bytes is a
list; `release` takes bytes from its front.
-/

namespace Matador.Lib

def toBytes : Nat → Nat → List UInt8
  | 0, _ => []
  | k + 1, n => UInt8.ofNat (n % 256) :: toBytes k (n / 256)

def ofBytes : List UInt8 → Nat
  | [] => 0
  | b :: bs => b.toNat + 256 * ofBytes bs

@[simp] theorem length_toBytes (k n : Nat) : (toBytes k n).length = k := by
  induction k generalizing n with
  | zero => rfl
  | succ k ih => rw [toBytes, List.length_cons, ih]

theorem ofBytes_toBytes {k n : Nat} (h : n < 256 ^ k) : ofBytes (toBytes k n) = n := by
  induction k generalizing n with
  | zero =>
    rw [toBytes, ofBytes]
    omega
  | succ k ih =>
    have hdiv : n / 256 < 256 ^ k := by
      rw [Nat.div_lt_iff_lt_mul (by omega)]
      exact h
    have hbyte : (UInt8.ofNat (n % 256)).toNat = n % 256 := by
      rw [UInt8.toNat_ofNat']
      omega
    rw [toBytes, ofBytes, ih hdiv]
    omega

/-- The first `k` bytes and the rest; `none` if there are not so many. -/
def release (k : Nat) (bytes : List UInt8) : Option (List UInt8 × List UInt8) :=
  if k ≤ bytes.length then some (bytes.take k, bytes.drop k) else none

theorem release_append (front rest : List UInt8) :
    release front.length (front ++ rest) = some (front, rest) := by
  rw [release, if_pos (by simp), List.take_left, List.drop_left]

end Matador.Lib
