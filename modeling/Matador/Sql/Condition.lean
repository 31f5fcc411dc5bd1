import Matador.Sql.Dialect
import Matador.Lib.BoolExpr

/-!
# Query conditions and their text

A condition is a tree: comparisons of a column with a value, joined by `operator&&`, `operator||`
and `operator!`. `evaluate` renders it for a dialect, recording a host variable for each comparison
it writes in the order column, operator, value. The template parameters of `condition<L, R>` become
constructors, and `t_operand` is split into the comparing operands (`Compare`) and the logical ones
(`Connective`).
-/

namespace Matador.Sql

/-- The members of `t_operand` that compare a column with one value. -/
inductive Compare
  | equal
  | notEqual
  | less
  | lessEqual
  | greater
  | greaterEqual
  | like
  deriving DecidableEq, Repr

/-- The members `OR` and `AND` of `t_operand`. -/
inductive Connective
  | or
  | and
  deriving DecidableEq, Repr

/-- `basic_condition::operands` at a comparing operand. -/
def Compare.operands : Compare → Str
  | .equal => ['=']
  | .notEqual => ['<', '>']
  | .less => ['<']
  | .lessEqual => ['<', '=']
  | .greater => ['>']
  | .greaterEqual => ['>', '=']
  | .like => ['L', 'I', 'K', 'E']

/-- `basic_condition::operands` at a logical operand. -/
def Connective.operands : Connective → Str
  | .or => ['O', 'R']
  | .and => ['A', 'N', 'D']

def isNumberChar (c : Char) : Bool :=
  c.isDigit || c == '-' || c == '+' || c == '.' || c == 'e'

/-- A printed number: a digit or a sign, then digits, points and exponents. -/
def isNumber : Str → Bool
  | [] => false
  | c :: cs => (c.isDigit || c == '-') && cs.all isNumberChar

/--
A value of a scalar type `T`, as far as `operator<<` tells them apart: integral values and
`bool`, finite floating point values (given by the text the stream prints for them), character
types, which are printed as the character itself, and `char *`, which is printed as its text. (A
`const char *` is no scalar here but a string.)
-/
inductive Scalar
  | integral (i : Int)
  | floating (text : { t : Str // isNumber t = true })
  | character (c : Char)
  | chars (text : Str)

def natText (n : Nat) : Str := Nat.toDigits 10 n

theorem natText_injective {m n : Nat} (h : natText m = natText n) : m = n := by
  have hread (k : Nat) : Nat.ofDigitChars 10 (natText k) 0 = k :=
    Nat.ofDigitChars_toDigits (by omega) (by omega)
  rw [← hread m, h, hread n]

/-- The text `std::stringstream` prints for a scalar. -/
def Scalar.print : Scalar → Str
  | .integral (.ofNat n) => natText n
  | .integral (.negSucc n) => '-' :: natText (n + 1)
  | .floating t => t.1
  | .character c => [c]
  | .chars text => text

/-- `basic_column_condition` with its value: the specialisations of `condition` for a column
and a scalar or a string, in either order. -/
inductive ColumnCondition
  | columnScalar (field : Str) (operand : Compare) (value : Scalar)
  | columnString (field : Str) (operand : Compare) (value : Str)
  | scalarColumn (value : Scalar) (operand : Compare) (field : Str)
  | stringColumn (value : Str) (operand : Compare) (field : Str)

/-- `evaluate` of a column condition. With the column on the right no host variable is recorded
and the value is written out in both compile types. -/
def ColumnCondition.evaluate (d : Dialect) : ColumnCondition → Str × Dialect
  | .columnScalar field operand value =>
    let d := d.addHostVar field
    match d.compileType with
    | .direct =>
        (prepareIdentifier d.quoting field ++ ' ' :: operand.operands ++ ' ' :: value.print, d)
    | .prepared =>
        (prepareIdentifier d.quoting field ++ ' ' :: operand.operands ++ ' ' :: d.nextPlaceholder,
          d)
  | .columnString field operand value =>
    let d := d.addHostVar field
    match d.compileType with
    | .direct =>
        (prepareIdentifier d.quoting field ++ ' ' :: operand.operands ++ ' ' ::
          ('\'' :: value ++ ['\'']), d)
    | .prepared =>
        (prepareIdentifier d.quoting field ++ ' ' :: operand.operands ++ ' ' :: d.nextPlaceholder,
          d)
  | .scalarColumn value operand field =>
    (value.print ++ ' ' :: operand.operands ++ ' ' :: prepareIdentifier d.quoting field, d)
  | .stringColumn value operand field =>
    ('\'' :: value ++ ['\''] ++ ' ' :: operand.operands ++ ' ' :: prepareIdentifier d.quoting field,
      d)

/-- A condition tree. `logical` is `condition<condition<L1, R1>, condition<L2, R2>>`, `negation`
is `condition<condition<L, R>, void>`. -/
inductive Condition
  | column (c : ColumnCondition)
  | logical (left right : Condition) (operand : Connective)
  | negation (cond : Condition)

namespace Condition

/-- `operator&&`. -/
def opAnd (l r : Condition) : Condition := .logical l r .and

/-- `operator||`. -/
def opOr (l r : Condition) : Condition := .logical l r .or

/-- `operator!`. -/
def opNot (c : Condition) : Condition := .negation c

def evaluate : Condition → Dialect → Str × Dialect
  | .column c, d => c.evaluate d
  | .logical left right operand, d =>
    -- the left operand first: the host variables are numbered in this order
    let cl := left.evaluate d
    let cr := right.evaluate cl.2
    match operand with
    | .and => ('(' :: cl.1 ++ ' ' :: operand.operands ++ ' ' :: cr.1 ++ [')'], cr.2)
    | .or => (cl.1 ++ ' ' :: operand.operands ++ ' ' :: cr.1, cr.2)
  | .negation cond, d =>
    let c := cond.evaluate d
    ('N' :: 'O' :: 'T' :: ' ' :: '(' :: c.1 ++ [')'], c.2)

end Condition

end Matador.Sql
