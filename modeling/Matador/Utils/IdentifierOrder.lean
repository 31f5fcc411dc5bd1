import Matador.Utils.Identifier

/-!
# The order of identifiers

`pk::less` compares the values the wrong way round, and `null_pk::less` is a comparison for
equality. The operators are derived from `less` and `equal_to`.
-/

namespace Matador.Identifier

/-- `equal_to`; nothing is known if the other identifier is taken for one of this type but is
none. -/
def equalTo : Identifier → Identifier → Option Bool
  | .null, x => some x.isNull
  | .integral bits id, .integral bits' x => if bits' = bits then some (decide (x = id)) else none
  | .string id, .string x => some (decide (x = id))
  | _, _ => none

/-- `less`: `pk` asks whether the other value is less than its own, `null_pk` compares the types. -/
def less : Identifier → Identifier → Option Bool
  | .null, x => some x.isNull
  | .integral bits id, .integral bits' x => if bits' = bits then some (decide (x < id)) else none
  | .string id, .string x => some (decide (x < id))
  | _, _ => none

/-- `operator<=`. -/
def opLe (a b : Identifier) : Option Bool := do return (← a.equalTo b) || (← a.less b)

/-- `operator>`. -/
def opGt (a b : Identifier) : Option Bool := (a.opLe b).map (!·)

/-- `operator>=`. -/
def opGe (a b : Identifier) : Option Bool := (a.less b).map (!·)

/-- The four operators order the identifiers `a` and `b` like `x` and `y`. -/
structure OrdersAs {α : Type} [LinearOrder α] (a b : Identifier) (x y : α) : Prop where
  lt : a.less b = some (decide (x < y))
  le : a.opLe b = some (decide (x ≤ y))
  gt : a.opGt b = some (decide (x > y))
  ge : a.opGe b = some (decide (x ≥ y))

/-- Operators that ask for the converse order are right for equal values only. -/
theorem ordersAs_iff_of_converse {α : Type} [LinearOrder α] {a b : Identifier} {x y : α}
    (heq : a.equalTo b = some (decide (y = x))) (hlt : a.less b = some (decide (y < x))) :
    OrdersAs a b x y ↔ x = y := by
  constructor
  · intro h
    have hsame : (y < x) = (x < y) := by simpa [hlt] using h.lt
    rcases lt_trichotomy x y with hxy | hxy | hxy
    · exact absurd (hsame ▸ hxy) hxy.asymm
    · exact hxy
    · exact absurd (hsame ▸ hxy) hxy.asymm
  · rintro rfl
    constructor <;> simp [opLe, opGt, opGe, heq, hlt]

/-- **The operators are right for equal values only, and a null identifier is less than itself.** -/
theorem ordersAs_iff (bits : Nat) (m n : Int) (s t : List Char) :
    (OrdersAs (.integral bits m) (.integral bits n) m n ↔ m = n) ∧
    (OrdersAs (.string s) (.string t) s t ↔ s = t) ∧ null.less null = some true :=
  ⟨ordersAs_iff_of_converse (if_pos rfl) (if_pos rfl),
    ordersAs_iff_of_converse (by simp [equalTo]) (by simp [less]), rfl⟩

/-- One is not less than two. -/
theorem less_one_two : (integral 32 1).less (integral 32 2) = some false ∧
    null.less null = some true := by
  decide

end Matador.Identifier
