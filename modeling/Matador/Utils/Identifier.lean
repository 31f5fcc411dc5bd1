import Mathlib

/-!
# Identifiers

The value of a primary key (`matador::identifier`): nothing, a value of an integral type, or a
string. `equal_to` casts the other identifier to its own type without a check. Integral types of one
width have the same layout and are compared by their values; in an identifier of another width the
value is not found where it is looked for.
-/

namespace Matador

/-- `identifier`, with the three members of `identifier_type`. -/
inductive Identifier
  | null
  | integral (bits : Nat) (value : Int)
  | string (value : List Char)
  deriving DecidableEq, Repr

namespace Identifier

def isNull : Identifier → Bool
  | .null => true
  | _ => false

/-- `identifier::is_valid`: a positive number or a nonempty string. -/
def isValid : Identifier → Bool
  | .null => false
  | .integral _ value => decide (0 < value)
  | .string value => !value.isEmpty

def width : Identifier → Option Nat
  | .integral bits _ => some bits
  | _ => none

def isUnsigned : Identifier → Bool
  | .integral bits value => bits = 64 ∧ 0 ≤ value ∧ value < 2 ^ 64
  | _ => false

/-- The value as a statement gets it: in a table the width of the C++ type does not matter. -/
def bound : Identifier → Identifier
  | .integral _ value => .integral 64 value
  | pk => pk

theorem eq_of_bound {a b : Identifier} (hw : a.width = b.width)
    (h : a.bound = b.bound) : a = b := by
  cases a <;> cases b <;> simp_all [width, bound]

end Identifier

end Matador
