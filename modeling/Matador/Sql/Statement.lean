import Matador.Sql.Condition
import Matador.Utils.Text

/-!
# Statements and the linker

A statement (`sql`) is a list of tokens. The linker visits them from left to right and appends the
text of each one to the result, recording host variables on the way. A condition and a nested
statement are objects with one virtual function that the linker calls with the dialect; they are
embedded as that function (`Evaluate`).

The result is kept in parts, so that a placeholder can be told from the same characters in an
identifier; `textOf` is the string. `columns_`, the column names the linker collects, is left out.
-/

namespace Matador.Sql

/-! ## Text in parts -/

inductive Part
  | sql (text : Str)
  | placeholder (text : Str)
  deriving DecidableEq, Repr

def Part.str : Part → Str
  | .sql text => text
  | .placeholder text => text

def textOf (parts : List Part) : Str := parts.flatMap Part.str

def Part.placeholder? : Part → Option Str
  | .sql _ => none
  | .placeholder text => some text

def placeholdersOf (parts : List Part) : List Str := parts.filterMap Part.placeholder?

@[simp] theorem textOf_nil : textOf [] = [] := rfl

@[simp] theorem textOf_cons (p : Part) (ps : List Part) : textOf (p :: ps) = p.str ++ textOf ps :=
  rfl

@[simp] theorem textOf_append (ps qs : List Part) : textOf (ps ++ qs) = textOf ps ++ textOf qs :=
  List.flatMap_append

@[simp] theorem placeholdersOf_nil : placeholdersOf [] = [] := rfl

@[simp] theorem placeholdersOf_sql (s : Str) (ps : List Part) :
    placeholdersOf (.sql s :: ps) = placeholdersOf ps := rfl

@[simp] theorem placeholdersOf_placeholder (s : Str) (ps : List Part) :
    placeholdersOf (.placeholder s :: ps) = s :: placeholdersOf ps := rfl

@[simp] theorem placeholdersOf_append (ps qs : List Part) :
    placeholdersOf (ps ++ qs) = placeholdersOf ps ++ placeholdersOf qs :=
  List.filterMap_append

/-! ## Dialects -/

/-- The members of `token::t_token` that the linker writes. -/
inductive Keyword
  | createTable | drop | remove | insert | values | update | select | «from» | «where» | orderBy
  | groupBy | asc | desc | top | alias | distinct | set | beginTransaction | commit | rollback
  deriving DecidableEq, Repr

/-- `basic_dialect::tokens`. -/
def Keyword.text : Keyword → Str
  | .createTable => ['C', 'R', 'E', 'A', 'T', 'E', ' ', 'T', 'A', 'B', 'L', 'E']
  | .drop => ['D', 'R', 'O', 'P', ' ', 'T', 'A', 'B', 'L', 'E']
  | .remove => ['D', 'E', 'L', 'E', 'T', 'E']
  | .insert => ['I', 'N', 'S', 'E', 'R', 'T', ' ', 'I', 'N', 'T', 'O']
  | .values => ['V', 'A', 'L', 'U', 'E', 'S']
  | .update => ['U', 'P', 'D', 'A', 'T', 'E']
  | .select => ['S', 'E', 'L', 'E', 'C', 'T']
  | .from => ['F', 'R', 'O', 'M']
  | .where => ['W', 'H', 'E', 'R', 'E']
  | .orderBy => ['O', 'R', 'D', 'E', 'R', ' ', 'B', 'Y']
  | .groupBy => ['G', 'R', 'O', 'U', 'P', ' ', 'B', 'Y']
  | .asc => ['A', 'S', 'C']
  | .desc => ['D', 'E', 'S', 'C']
  | .top => ['L', 'I', 'M', 'I', 'T']
  | .alias => ['A', 'S']
  | .distinct => ['D', 'I', 'S', 'T', 'I', 'N', 'C', 'T']
  | .set => ['S', 'E', 'T']
  | .beginTransaction =>
      ['B', 'E', 'G', 'I', 'N', ' ', 'T', 'R', 'A', 'N', 'S', 'A', 'C', 'T', 'I', 'O', 'N']
  | .commit =>
      ['C', 'O', 'M', 'M', 'I', 'T', ' ', 'T', 'R', 'A', 'N', 'S', 'A', 'C', 'T', 'I', 'O', 'N']
  | .rollback => ['R', 'O', 'L', 'L', 'B', 'A', 'C', 'K', ' ', 'T', 'R', 'A', 'N', 'S', 'A', 'C',
      'T', 'I', 'O', 'N']

/-- `data_type`. -/
inductive DataType
  | char | short | int | long | longLong | unsignedChar | unsignedShort | unsignedInt | unsignedLong
  | unsignedLongLong | float | double | bool | charPointer | varchar | text | date | time | blob
  | null | unknown
  deriving DecidableEq, Repr

/-- The classes derived from `basic_dialect_compiler`, and itself. -/
inductive CompilerKind
  | basic | sqlite | postgresql | mssql
  deriving DecidableEq, Repr

/-- `basic_dialect_linker` and `mssql_dialect_linker`. -/
inductive LinkerKind
  | basic | mssql
  deriving DecidableEq, Repr

/-- What a class derived from `basic_dialect` chooses. -/
structure Database where
  compiler : CompilerKind
  linker : LinkerKind
  quoting : Quoting
  placeholderStyle : PlaceholderStyle
  tokenAt : Keyword → Str
  toDatabaseTypeString : DataType → Str

namespace Database

/-- The dialect when `build` starts: no host variable yet. -/
def dialect (db : Database) (compileType : CompileType) : Dialect :=
  ⟨db.quoting, db.placeholderStyle, compileType, []⟩

variable (typeString : DataType → Str)

/-- `basic_dialect` with its own compiler and linker. -/
def basic : Database := ⟨.basic, .basic, .doubleQuotes, .question, Keyword.text, typeString⟩

/-- `sqlite_dialect`. -/
def sqlite : Database := ⟨.sqlite, .basic, .doubleQuotes, .question, Keyword.text, typeString⟩

/-- `postgresql_dialect`. -/
def postgresql : Database :=
  ⟨.postgresql, .basic, .doubleQuotes, .numbered, Keyword.text, typeString⟩

/-- `mysql_dialect`. -/
def mysql : Database where
  compiler := .basic
  linker := .basic
  quoting := .backQuotes
  placeholderStyle := .question
  tokenAt
    | .beginTransaction =>
        ['S', 'T', 'A', 'R', 'T', ' ', 'T', 'R', 'A', 'N', 'S', 'A', 'C', 'T', 'I', 'O', 'N']
    | .commit => ['C', 'O', 'M', 'M', 'I', 'T']
    | .rollback => ['R', 'O', 'L', 'L', 'B', 'A', 'C', 'K']
    | k => k.text
  toDatabaseTypeString := typeString

/-- `mssql_dialect`. -/
def mssql : Database where
  compiler := .mssql
  linker := .mssql
  quoting := .brackets
  placeholderStyle := .question
  tokenAt
    | .commit => ['C', 'O', 'M', 'M', 'I', 'T']
    | .rollback => ['R', 'O', 'L', 'L', 'B', 'A', 'C', 'K']
    | .top => ['T', 'O', 'P']
    | k => k.text
  toDatabaseTypeString := typeString

end Database

/-! ## Values and columns -/

/-- A value as far as `value_to_string_processor` tells them apart: numbers, given by the text that
is printed for them, strings, dates and times, given by the text of `to_string`, and a value of a
type without a visitor, for which nothing is printed. -/
inductive Value
  | number (text : { t : Str // isNumber t = true })
  | string (text : Str)
  | temporal (text : Str)
  | unvisited

def prepareLiteral (str : Str) : Str := Text.replaceAll str ['\''] (['\''] ++ ['\''])

def Value.toSafeString : Value → Str
  | .number t => t.1
  | .string s => ['\''] ++ prepareLiteral s ++ ['\'']
  | .temporal s => ['\''] ++ prepareLiteral s ++ ['\'']
  | .unvisited => []

def Value.toString : Value → Str
  | .number t => t.1
  | .string s => ['\''] ++ s ++ ['\'']
  | .temporal s => ['\''] ++ s ++ ['\'']
  | .unvisited => []

/-- What a column is written with under the option `with_type`. -/
structure ColumnType where
  type : DataType
  size : Nat
  notNull : Bool
  primaryKey : Bool
  unique : Bool

/-- `column` with its `build_options`. -/
structure Column where
  name : Str
  withQuotes : Bool := true
  withType : Option ColumnType := none
  withValue : Option Value := none

/-! ## Tokens -/

/-- `evaluate` of a condition, or `continue_build` of a nested statement. -/
abbrev Evaluate := Database → Dialect → List Part × Dialect

inductive Command
  | beginTransaction
  | commit
  | rollback
  | create (tableName : Str)
  | drop (tableName : Str)
  | insert (tableName : Str)
  | select
  | update
  | remove

inductive Clause
  | distinct
  | tablename (tableName : Str)
  | set
  | alias (name : Str)
  | top (limit : Nat)
  | values (values : List Value)
  | value (val : Value)
  | orderBy (column : Str)
  | asc
  | desc
  | groupBy (column : Str)
  | «from» (tableName : Str)
  | columns (withBrackets : Bool) (columns : List Column)
  | column (col : Column)

inductive SqlToken
  | command (c : Command)
  | clause (c : Clause)
  | «where» (cond : Evaluate)
  | query (sql : Evaluate)

/-! ## The linker -/

namespace Database

/-- `token_string` and a blank. -/
def keyword (db : Database) (k : Keyword) : List Part := [.sql (db.tokenAt k ++ [' '])]

/-- `token_string`, a prepared name and a blank. -/
def keywordName (db : Database) (d : Dialect) (k : Keyword) (name : Str) : List Part :=
  [.sql (db.tokenAt k ++ [' '] ++ prepareIdentifier d.quoting name ++ [' '])]

end Database

/-- `visit(const value &)`. -/
def visitValue (d : Dialect) (val : Value) : List Part × Dialect :=
  match d.compileType with
  | .direct => ([.sql val.toSafeString], d)
  | .prepared =>
    let d := d.addHostVar val.toString
    ([.placeholder d.nextPlaceholder], d)

/-- The text behind the name of a column that is written with its type. -/
def ColumnType.write (db : Database) (t : ColumnType) : Str :=
  [' '] ++ db.toDatabaseTypeString t.type ++
    (if 0 < t.size then ['('] ++ natText t.size ++ [')'] else []) ++
    (if t.notNull then [' ', 'N', 'O', 'T', ' ', 'N', 'U', 'L', 'L'] else []) ++
    (if t.primaryKey then [' ', 'P', 'R', 'I', 'M', 'A', 'R', 'Y', ' ', 'K', 'E', 'Y'] else []) ++
    (if t.unique then [' ', 'U', 'N', 'I', 'Q', 'U', 'E'] else [])

/-- `visit(const column &)`. -/
def visitColumn (db : Database) (d : Dialect) (col : Column) : List Part × Dialect :=
  let name := if col.withQuotes then prepareIdentifier d.quoting col.name else col.name
  let typed := match col.withType with
    | some t => t.write db
    | none => []
  match col.withValue with
  | none => ([.sql (name ++ typed)], d)
  | some val =>
    let v := visitValue d val
    (.sql (name ++ typed ++ ['=']) :: v.1, v.2)

/-- The loops of `visit(const values &)` and `visit(const columns &)`: the items one after the
other, with a comma between them. -/
def visitJoined {α : Type} (visit : Dialect → α → List Part × Dialect) :
    List α → Dialect → List Part × Dialect
  | [], d => ([], d)
  | [x], d => visit d x
  | x :: y :: xs, d =>
    let v := visit d x
    let w := visitJoined visit (y :: xs) v.2
    (v.1 ++ .sql [',', ' '] :: w.1, w.2)

/-- `visit` of the linker for a command. -/
def Command.link (db : Database) (d : Dialect) : Command → List Part
  | .beginTransaction => db.keyword .beginTransaction
  | .commit => db.keyword .commit
  | .rollback => db.keyword .rollback
  | .create t => db.keywordName d .createTable t
  | .drop t => db.keywordName d .drop t
  | .insert t => db.keywordName d .insert t
  | .select => db.keyword .select
  | .update => db.keyword .update
  | .remove => db.keyword .remove

/-- `visit(const top &)`, overridden by the MSSQL linker. -/
def linkTop (db : Database) (limit : Nat) : List Part :=
  match db.linker with
  | .basic => [.sql (db.tokenAt .top ++ [' '] ++ natText limit ++ [' '])]
  | .mssql => [.sql (db.tokenAt .top ++ [' ', '('] ++ natText limit ++ [')', ' '])]

/-- `visit` of the linker for a clause. -/
def Clause.link (db : Database) (d : Dialect) : Clause → List Part × Dialect
  | .distinct => (db.keyword .distinct, d)
  | .tablename t => ([.sql (prepareIdentifier d.quoting t ++ [' '])], d)
  | .set => (db.keyword .set, d)
  | .alias name => ([.sql (db.tokenAt .alias ++ [' '] ++ name ++ [' '])], d)
  | .top limit => (linkTop db limit, d)
  | .values vs =>
    let v := visitJoined visitValue vs d
    (.sql (db.tokenAt .values ++ [' ', '(']) :: v.1 ++ [.sql [')', ' ']], v.2)
  | .value val => visitValue d val
  | .orderBy col => (db.keywordName d .orderBy col, d)
  | .asc => (db.keyword .asc, d)
  | .desc => (db.keyword .desc, d)
  | .groupBy col => (db.keywordName d .groupBy col, d)
  | .from t => (if t.isEmpty then db.keyword .from else db.keywordName d .from t, d)
  | .columns withBrackets cols =>
    let c := visitJoined (visitColumn db) cols d
    if withBrackets then (.sql ['('] :: c.1 ++ [.sql [')'], .sql [' ']], c.2)
    else (c.1 ++ [.sql [' ']], c.2)
  | .column col => visitColumn db d col

/-- `visit` of the linker. -/
def SqlToken.link (db : Database) (d : Dialect) : SqlToken → List Part × Dialect
  | .command c => (c.link db d, d)
  | .clause c => c.link db d
  | .where cond =>
    let c := cond db d
    (.sql (db.tokenAt .where ++ [' ']) :: c.1 ++ [.sql [' ']], c.2)
  | .query sql =>
    let q := sql db d
    (.sql ['('] :: q.1 ++ [.sql [')', ' ']], q.2)

/-- `basic_dialect_linker::link`. -/
def linkTokens (db : Database) : List SqlToken → Dialect → List Part × Dialect
  | [], d => ([], d)
  | t :: ts, d =>
    let l := t.link db d
    let r := linkTokens db ts l.2
    (l.1 ++ r.1, r.2)

theorem linkTokens_append (db : Database) (ts us : List SqlToken) (d : Dialect) :
    linkTokens db (ts ++ us) d =
      ((linkTokens db ts d).1 ++ (linkTokens db us (linkTokens db ts d).2).1,
        (linkTokens db us (linkTokens db ts d).2).2) := by
  induction ts generalizing d with
  | nil => rfl
  | cons t ts ih => simp only [List.cons_append, linkTokens, ih, List.append_assoc]

end Matador.Sql
