import Matador.Sql.Statement

/-!
# Building a statement

`basic_dialect::build` copies the token list of the statement, lets the compiler of the dialect
rewrite the copy, and links it. The entries of the copy are pointers to the tokens of the statement.
So a token is named by its position in the statement, the copied list is a list of positions, and
what the compiler does to a token it does to the statement.

* MSSQL moves a limit behind its command; this changes the copied list alone
* SQLite and PostgreSQL replace the condition of a limited update or delete by a comparison of the
  row id with a sub-select; this changes the `where` token

`is_update`, `is_delete` of the compilers are not reset between builds; they are an argument here.
-/

namespace Matador.Sql

/-! ## The compilers -/

/-- The flags of the SQLite and PostgreSQL compilers. -/
structure Flags where
  isUpdate : Bool
  isDelete : Bool
  deriving DecidableEq, Repr

/-- The members of the compilers and the copied list up to the token that is visited. -/
structure CompileState where
  sql : List SqlToken
  /-- the copied list up to `current` -/
  tokens : List Nat
  flags : Flags
  tableName : Str
  /-- `where_`; `none` is the end of the list -/
  whereToken : Option Nat
  /-- `commands_` of the MSSQL compiler -/
  commands : List Nat

namespace CompileState

/-- `on_compile_start`. -/
def start (flags : Flags) (sql : List SqlToken) : CompileState := ⟨sql, [], flags, [], none, []⟩

def keep (s : CompileState) (i : Nat) : CompileState := { s with tokens := s.tokens ++ [i] }

end CompileState

/-- The column that names a row, and the operand it is compared with. -/
structure RowId where
  column : Str
  operand : Str

/-- `IN_LIST` of `basic_condition::operands`. -/
def inOperand : Str := ['I', 'N']

def RowId.sqlite : RowId := ⟨['r', 'o', 'w', 'i', 'd'], inOperand⟩

def RowId.postgresql : RowId := ⟨['c', 't', 'i', 'd'], Compare.equal.operands⟩

/-- The tokens of `select({rowid}).from(table).where(cond).limit(limit)`. -/
def rowIdSelect (row : RowId) (table : Str) (cond : Evaluate) (limit : Nat) : List SqlToken :=
  [.command .select, .clause (.columns false [{ name := row.column }]), .clause (.from table),
    .where cond, .clause (.top limit)]

/-- `condition<column, basic_query>::evaluate` for the sub-select above. The nested `compile` is
left out: it gives the sub-select itself, whatever the flags are (`compile_rowIdSelect`). -/
def rowIdCondition (row : RowId) (table : Str) (cond : Evaluate) (limit : Nat) : Evaluate :=
  fun db d =>
    let q := linkTokens db (rowIdSelect row table cond limit) d
    (.sql (prepareIdentifier d.quoting row.column ++ [' '] ++ row.operand ++ [' ', '(']) :: q.1 ++
      [.sql [')']], q.2)

theorem linkTokens_rowIdSelect (db : Database) (row : RowId) (table : Str) (cond : Evaluate)
    (limit : Nat) (d : Dialect) :
    linkTokens db (rowIdSelect row table cond limit) d =
      (db.keyword .select ++ .sql (prepareIdentifier d.quoting row.column) :: .sql [' '] ::
          ((Clause.from table).link db d).1 ++ ((SqlToken.where cond).link db d).1 ++
          linkTop db limit,
        ((SqlToken.where cond).link db d).2) := by
  have hcol : (SqlToken.clause (.columns false [{ name := row.column }])).link db d =
      ([.sql (prepareIdentifier d.quoting row.column), .sql [' ']], d) := by
    simp [SqlToken.link, Clause.link, visitJoined, visitColumn]
  have hsel : (SqlToken.command .select).link db d = (db.keyword .select, d) := rfl
  have hfrom : (SqlToken.clause (.from table)).link db d = (((Clause.from table).link db d).1, d) :=
    rfl
  have htop (d' : Dialect) : (SqlToken.clause (.top limit)).link db d' = (linkTop db limit, d') :=
    rfl
  rw [rowIdSelect, linkTokens, hsel, linkTokens, hcol, linkTokens, hfrom, linkTokens, linkTokens,
    linkTokens, htop]
  simp only [List.append_assoc, List.cons_append, List.nil_append, List.append_nil]

/-- `insert(++command, x)`: the list with `x` behind `command`. -/
def insertBehind {ν : Type} [DecidableEq ν] (command x : ν) : List ν → List ν
  | [] => []
  | y :: ys => if y = command then y :: x :: ys else y :: insertBehind command x ys

namespace CompileState

/-- `visit` of the SQLite and PostgreSQL compilers. A limit without a `where` before it dereferences
the end of the list, which is undefined. -/
def visitLimited (row : RowId) (s : CompileState) (i : Nat) : SqlToken → Option CompileState
  | .command .select => some { s.keep i with flags := ⟨false, false⟩ }
  | .command .update => some { s.keep i with flags := ⟨true, false⟩ }
  | .command .remove => some { s.keep i with flags := ⟨false, true⟩ }
  | .clause (.tablename t) => some { s.keep i with tableName := t }
  | .clause (.from t) => some { s.keep i with tableName := t }
  | .where _ =>
    if s.flags.isUpdate || s.flags.isDelete then some { s.keep i with whereToken := some i }
    else some (s.keep i)
  | .clause (.top limit) =>
    if s.flags.isUpdate || s.flags.isDelete then
      match s.whereToken with
      | none => none
      | some w =>
        match s.sql[w]? with
        | some (.where cond) =>
          -- the limit is erased from the copied list
          some { s with sql := s.sql.set w (.where (rowIdCondition row s.tableName cond limit)) }
        | _ => none
    else some (s.keep i)
  | _ => some (s.keep i)

/-- `visit` of the MSSQL compiler. -/
def visitMssql (s : CompileState) (i : Nat) : SqlToken → CompileState
  | .command .select => { s.keep i with commands := i :: s.commands }
  | .command .update => { s.keep i with commands := i :: s.commands }
  | .command .remove => { s.keep i with commands := i :: s.commands }
  | .clause (.top _) =>
    match s.commands with
    | [] => s.keep i
    | command :: commands =>
        { s with tokens := insertBehind command i s.tokens, commands := commands }
  | _ => s.keep i

/-- `visit` of the compiler of a dialect. -/
def visit (db : Database) (s : CompileState) (i : Nat) : Option CompileState :=
  match s.sql[i]? with
  | none => some s
  | some t =>
    match db.compiler with
    | .basic => some (s.keep i)
    | .sqlite => s.visitLimited .sqlite i t
    | .postgresql => s.visitLimited .postgresql i t
    | .mssql => some (s.visitMssql i t)

def result (s : CompileState) : List SqlToken := s.tokens.filterMap (s.sql[·]?)

end CompileState

/-- `basic_dialect_compiler::compile`: a token that a visit inserts before the current one is not
visited. -/
def compile (db : Database) (flags : Flags) (sql : List SqlToken) : Option CompileState :=
  (List.range sql.length).foldlM (CompileState.visit db) (.start flags sql)

/-! ## Building -/

/-- The text and the host variables of a build, and the statement after it. -/
structure Built where
  parts : List Part
  hostVars : List Str
  sql : List SqlToken

def build (db : Database) (flags : Flags) (compileType : CompileType) (sql : List SqlToken) :
    Option Built :=
  match compile db flags sql with
  | none => none
  | some s =>
    let l := linkTokens db s.result (db.dialect compileType)
    some ⟨l.1, l.2.hostVars, s.sql⟩

end Matador.Sql
