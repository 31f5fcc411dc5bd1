import Matador.Lib.Quoted

/-!
# The dialect state a condition is rendered with

Of `basic_dialect` only what `condition::evaluate` reads and writes is kept: the compile type, the
quote characters with their escape rule, the placeholder style and the host variables collected so
far. Texts (`std::string`) are lists of characters. The dialects differ here in the quotes and in
the placeholder.
-/

namespace Matador.Sql

/-- `std::string`. -/
abbrev Str := List Char

/-- `basic_dialect::t_compile_type`. -/
inductive CompileType
  | direct
  | prepared
  deriving DecidableEq, Repr

/-- `dialect_traits::identifier`. -/
inductive IdentifierEscape
  | escapeBothSame
  | escapeClosingBracket
  deriving DecidableEq, Repr

/-- The two overrides of `next_placeholder`. -/
inductive PlaceholderStyle
  | question
  | numbered
  deriving DecidableEq, Repr

/--
The `START_QUOTE` and `END_QUOTE` tokens of a dialect together with its
`identifier_escape_type`. The last three fields hold for each dialect of the library and exclude
quotes that would clash with the rest of the text.
-/
structure Quoting where
  startQuote : Char
  endQuote : Char
  identifierEscapeType : IdentifierEscape
  opens : startQuote ∈ ['"', '\x60', '[']
  closes : endQuote ∈ ['"', '\x60', ']']
  same : identifierEscapeType = .escapeBothSame → startQuote = endQuote

namespace Quoting

/-- The character `escape_quotes_in_identifier` doubles. -/
def escaped (q : Quoting) : Char :=
  match q.identifierEscapeType with
  | .escapeClosingBracket => q.endQuote
  | .escapeBothSame => q.startQuote

theorem escaped_eq (q : Quoting) : q.escaped = q.endQuote := by
  unfold escaped
  cases h : q.identifierEscapeType with
  | escapeClosingBracket => rfl
  | escapeBothSame => exact q.same h

/-- The quotes of `basic_dialect`, unchanged in SQLite and PostgreSQL. -/
def doubleQuotes : Quoting := ⟨'"', '"', .escapeBothSame, by simp, by simp, fun _ => rfl⟩

/-- The quotes of `mysql_dialect`. -/
def backQuotes : Quoting := ⟨'\x60', '\x60', .escapeBothSame, by simp, by simp, fun _ => rfl⟩

/-- The quotes of `mssql_dialect`. -/
def brackets : Quoting := ⟨'[', ']', .escapeClosingBracket, by simp, by simp, by simp⟩

end Quoting

structure Dialect where
  quoting : Quoting
  placeholderStyle : PlaceholderStyle
  compileType : CompileType
  hostVars : List Str

namespace Dialect

/-- `sqlite_dialect`, with `compile_type_` set by `build` and no host variable yet. -/
def sqlite (t : CompileType) : Dialect := ⟨.doubleQuotes, .question, t, []⟩

/-- `postgresql_dialect`. -/
def postgresql (t : CompileType) : Dialect := ⟨.doubleQuotes, .numbered, t, []⟩

/-- `mysql_dialect`. -/
def mysql (t : CompileType) : Dialect := ⟨.backQuotes, .question, t, []⟩

/-- `mssql_dialect`. -/
def mssql (t : CompileType) : Dialect := ⟨.brackets, .question, t, []⟩

def addHostVar (d : Dialect) (hostVar : Str) : Dialect :=
  { d with hostVars := d.hostVars ++ [hostVar] }

@[simp] theorem addHostVar_quoting (d : Dialect) (v : Str) :
    (d.addHostVar v).quoting = d.quoting := rfl

@[simp] theorem addHostVar_compileType (d : Dialect) (v : Str) :
    (d.addHostVar v).compileType = d.compileType := rfl

/-- `next_placeholder`: `?`, or `$` and the number of host variables for PostgreSQL. -/
def nextPlaceholder (d : Dialect) : Str :=
  match d.placeholderStyle with
  | .question => ['?']
  | .numbered => '$' :: Nat.toDigits 10 d.hostVars.length

end Dialect

/-- `replace_all` for the one-character tokens the dialects use it with. -/
def replaceAll (str : Str) (c : Char) (by' : Str) : Str :=
  str.flatMap fun x => if x = c then by' else [x]

/-- `basic_dialect::prepare_identifier`: escape, then quote. -/
def prepareIdentifier (q : Quoting) (str : Str) : Str :=
  q.startQuote :: (replaceAll str q.escaped [q.escaped, q.escaped] ++ [q.endQuote])

theorem replaceAll_eq_doubled (c : Char) (str : Str) :
    replaceAll str c [c, c] = Lib.doubled c str := by
  induction str with
  | nil => rfl
  | cons x xs ih =>
    have hcons : replaceAll (x :: xs) c [c, c] = (if x = c then [c, c] else [x]) ++
        replaceAll xs c [c, c] := rfl
    rw [hcons, ih, Lib.doubled]
    split <;> rfl

theorem prepareIdentifier_eq (q : Quoting) (str : Str) :
    prepareIdentifier q str = q.startQuote :: (Lib.doubled q.endQuote str ++ [q.endQuote]) := by
  rw [prepareIdentifier, replaceAll_eq_doubled, q.escaped_eq]

end Matador.Sql
