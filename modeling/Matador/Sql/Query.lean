import Matador.Sql.Build

/-!
# Queries

The statements that can be written with `query` and the conditions: a command followed by clauses,
with conditions in `WHERE` and with sub-selects in conditions and behind `FROM`, nested to any
depth.

A query is syntax; `Query.sql` are its tokens, in which every condition has become its `evaluate`.
`Condition` is the part of the syntax without lists, ranges and sub-selects
(`evaluate_ofCondition`).
-/

namespace Matador.Sql

/-! ## Text of comparisons -/

/-- `evaluate` of a column condition, in parts. -/
def ColumnCondition.parts (d : Dialect) : ColumnCondition → List Part × Dialect
  | .columnScalar field operand value =>
    let d := d.addHostVar field
    match d.compileType with
    | .direct =>
        ([.sql (prepareIdentifier d.quoting field ++ ' ' :: operand.operands ++ ' ' ::
          value.print)], d)
    | .prepared =>
      ([.sql (prepareIdentifier d.quoting field ++ ' ' :: operand.operands ++ [' ']),
        .placeholder d.nextPlaceholder], d)
  | .columnString field operand value =>
    let d := d.addHostVar field
    match d.compileType with
    | .direct =>
      ([.sql (prepareIdentifier d.quoting field ++ ' ' :: operand.operands ++ ' ' ::
        ('\'' :: value ++ ['\'']))], d)
    | .prepared =>
      ([.sql (prepareIdentifier d.quoting field ++ ' ' :: operand.operands ++ [' ']),
        .placeholder d.nextPlaceholder], d)
  | .scalarColumn value operand field =>
    ([.sql (value.print ++ ' ' :: operand.operands ++ ' ' :: prepareIdentifier d.quoting field)], d)
  | .stringColumn value operand field =>
    ([.sql ('\'' :: value ++ ['\''] ++ ' ' :: operand.operands ++ ' ' ::
      prepareIdentifier d.quoting field)], d)

theorem ColumnCondition.textOf_parts (c : ColumnCondition) (d : Dialect) :
    (textOf (c.parts d).1, (c.parts d).2) = c.evaluate d := by
  cases c with
  | columnScalar _ _ _ | columnString _ _ _ =>
    unfold parts evaluate
    cases h : d.compileType <;> simp [h, Part.str]
  | scalarColumn _ _ _ | stringColumn _ _ _ => simp [parts, evaluate, Part.str]

/-- A value of a list or a range, written with `operator<<`. -/
inductive Streamed
  | scalar (value : Scalar)
  | string (value : Str)

def Streamed.print : Streamed → Str
  | .scalar value => value.print
  | .string value => value

/-- The loop of the `IN` condition over its arguments. -/
def writeArgs (d : Dialect) : List Streamed → List Part
  | [] => []
  | [arg] =>
    match d.compileType with
    | .direct => [.sql arg.print]
    | .prepared => [.placeholder d.nextPlaceholder]
  | arg :: arg' :: args =>
    (match d.compileType with
      | .direct => [.sql (arg.print ++ [','])]
      | .prepared => [.placeholder d.nextPlaceholder, .sql [',']]) ++ writeArgs d (arg' :: args)

/-- `condition<column, std::initializer_list<V>>::evaluate`: all host variables are added before the
first placeholder is asked for. -/
def evaluateInList (field : Str) (args : List Streamed) : Evaluate := fun _ d =>
  let d := args.foldl (fun d _ => d.addHostVar field) d
  (.sql (prepareIdentifier d.quoting field ++ [' ', 'I', 'N', ' ', '(']) :: writeArgs d args ++
    [.sql [')']], d)

/-- `condition<column, std::pair<T, T>>::evaluate`. -/
def evaluateBetween (field : Str) (low high : Streamed) : Evaluate := fun _ d =>
  let d := (d.addHostVar field).addHostVar field
  let between := [' ', 'B', 'E', 'T', 'W', 'E', 'E', 'N', ' ']
  let and := [' ', 'A', 'N', 'D', ' ']
  match d.compileType with
  | .direct =>
      ([.sql (prepareIdentifier d.quoting field ++ between ++ low.print ++ and ++ high.print)], d)
  | .prepared =>
    ([.sql (prepareIdentifier d.quoting field ++ between), .placeholder d.nextPlaceholder, .sql and,
      .placeholder d.nextPlaceholder], d)

/-! ## Syntax -/

/-- The operands a sub-select is compared with. -/
inductive QueryOperand
  | inList
  | equal
  deriving DecidableEq, Repr

def QueryOperand.operands : QueryOperand → Str
  | .inList => inOperand
  | .equal => Compare.equal.operands

mutual

inductive Cond
  | column (c : ColumnCondition)
  | inList (field : Str) (args : List Streamed)
  | query (field : Str) (operand : QueryOperand) (select : Clauses)
  | between (field : Str) (low high : Streamed)
  | logical (left right : Cond) (operand : Connective)
  | negation (cond : Cond)

/-- What follows a command. A sub-select is given by what follows its `SELECT`. -/
inductive Clauses
  | nil
  | clause (c : Clause) (rest : Clauses)
  | «where» (cond : Cond) (rest : Clauses)
  | query (select : Clauses) (rest : Clauses)

end

structure Query where
  command : Command
  clauses : Clauses

/-! ## Tokens -/

/-- `continue_build` of a sub-select. Compiling it is never undefined, and the flags the compiler is
in do not matter (`exists_compile_select`). -/
def continueBuild (select : List SqlToken) : Evaluate := fun db d =>
  match compile db ⟨false, false⟩ (.command .select :: select) with
  | some s => linkTokens db s.result d
  | none => ([], d)

mutual

def Cond.evaluate : Cond → Evaluate
  | .column c => fun _ d => c.parts d
  | .inList field args => evaluateInList field args
  | .query field operand select => fun db d =>
    let q := continueBuild select.tokens db d
    (.sql (prepareIdentifier d.quoting field ++ [' '] ++ operand.operands ++ [' ', '(']) :: q.1 ++
      [.sql [')']], q.2)
  | .between field low high => evaluateBetween field low high
  | .logical left right operand => fun db d =>
    let cl := left.evaluate db d
    let cr := right.evaluate db cl.2
    match operand with
    | .and =>
        (.sql ['('] :: cl.1 ++ .sql (' ' :: operand.operands ++ [' ']) :: cr.1 ++ [.sql [')']],
          cr.2)
    | .or => (cl.1 ++ .sql (' ' :: operand.operands ++ [' ']) :: cr.1, cr.2)
  | .negation cond => fun db d =>
    let c := cond.evaluate db d
    (.sql ['N', 'O', 'T', ' ', '('] :: c.1 ++ [.sql [')']], c.2)

def Clauses.tokens : Clauses → List SqlToken
  | .nil => []
  | .clause c rest => .clause c :: rest.tokens
  | .where cond rest => .where cond.evaluate :: rest.tokens
  | .query select rest => .query (continueBuild select.tokens) :: rest.tokens

end

/-- `query::stmt`. -/
def Query.sql (q : Query) : List SqlToken := .command q.command :: q.clauses.tokens

/-! ## Conditions without lists, ranges and sub-selects -/

/-- A `Condition` as a condition. -/
def Cond.ofCondition : Condition → Cond
  | .column c => .column c
  | .logical left right operand => .logical (ofCondition left) (ofCondition right) operand
  | .negation cond => .negation (ofCondition cond)

theorem Cond.evaluate_ofCondition (c : Condition) (db : Database) (d : Dialect) :
    (textOf ((ofCondition c).evaluate db d).1, ((ofCondition c).evaluate db d).2) =
      c.evaluate d := by
  induction c generalizing d with
  | column c => simpa [ofCondition, evaluate, Condition.evaluate] using c.textOf_parts d
  | logical left right operand ihl ihr =>
    have hl := Prod.mk.inj (ihl d)
    have hr := Prod.mk.inj (ihr (left.evaluate d).2)
    cases operand <;>
      simp [ofCondition, evaluate, Condition.evaluate, Part.str, hl.1, hl.2, hr.1, hr.2]
  | negation c ih =>
    have h := Prod.mk.inj (ih d)
    simp [ofCondition, evaluate, Condition.evaluate, Part.str, h.1, h.2]

end Matador.Sql
