import Matador.Utils.Identifier

/-!
# The sequencer

`default_sequencer` hands out increasing numbers of 64 bits. `sequence_synchronizer` keeps it ahead
of the integral primary keys that objects bring along.
-/

namespace Matador

inductive IntegralType
  | short | int | long | longLong | unsignedShort | unsignedInt | unsignedLong | unsignedLongLong
  deriving DecidableEq, Repr

namespace IntegralType

def bits : IntegralType → Nat
  | short | unsignedShort => 16
  | int | unsignedInt => 32
  | long | longLong | unsignedLong | unsignedLongLong => 64

def signed : IntegralType → Bool
  | short | int | long | longLong => true
  | unsignedShort | unsignedInt | unsignedLong | unsignedLongLong => false

/-- `static_cast<T>` of an unsigned number. -/
def cast (T : IntegralType) (n : Nat) : Int :=
  let m := n % 2 ^ T.bits
  if T.signed ∧ 2 ^ (T.bits - 1) ≤ m then (m : Int) - 2 ^ T.bits else m

end IntegralType

namespace Sequencer

/-- `default_sequencer::next` for the number the sequencer is at. -/
def next (number : Nat) : Nat := (number + 1) % 2 ^ 64

def update (number id : Nat) : Nat := if number < id then id else number

def syncIntegral (T : IntegralType) (number : Nat) (val : Int) : Nat :=
  if T.cast number < val then update number (val % 2 ^ 64).toNat else number

/-- `sequence_synchronizer::sync`; a string or a null identifier changes nothing. -/
def sync (T : IntegralType) (number : Nat) : Identifier → Nat
  | .integral _ val => syncIntegral T number val
  | _ => number

theorem next_eq {number : Nat} (h : number + 1 < 2 ^ 64) : next number = number + 1 :=
  Nat.mod_eq_of_lt h

theorem le_update (number id : Nat) : number ≤ update number id := by
  unfold update
  split <;> omega

theorem le_sync (T : IntegralType) (number : Nat) (pk : Identifier) :
    number ≤ sync T number pk := by
  cases pk with
  | null => exact Nat.le_refl _
  | string s => exact Nat.le_refl _
  | integral _ val =>
    simp only [sync, syncIntegral]
    split
    · exact le_update _ _
    · exact Nat.le_refl _

theorem cast_of_unsigned {T : IntegralType} (hT : T.signed = false ∧ T.bits = 64) {n : Nat}
    (h : n < 2 ^ 64) : T.cast n = n := by
  simp only [IntegralType.cast, hT.1, hT.2, Bool.false_eq_true, false_and, if_false]
  omega

theorem le_sync_of_unsigned {T : IntegralType} (hT : T.signed = false ∧ T.bits = 64) (bits : Nat)
    {number key : Nat} (hn : number < 2 ^ 64) (hk : key < 2 ^ 64) :
    key ≤ sync T number (.integral bits key) := by
  have hmod : ((key : Int) % 2 ^ 64).toNat = key := by omega
  simp only [sync, syncIntegral, cast_of_unsigned hT hn, Int.ofNat_lt, hmod]
  split
  · next h => exact Nat.le_of_eq (if_pos h).symm
  · next h => exact Nat.le_of_not_lt h

end Sequencer

end Matador
