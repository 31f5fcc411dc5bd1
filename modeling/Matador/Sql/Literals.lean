import Matador.Sql.Rebuild
import Matador.Sql.Identifier
import Matador.Sql.ConditionText
import Matador.Lib.Literals

/-!
# String literals of a direct statement

In direct mode the strings of a statement are written into its text. Values of `VALUES` and `SET`
have their quotes doubled by `prepare_literal`. The conditions write themselves: a comparison puts
quotes around its string and doubles none, a list or a range does not even put quotes around.
-/

namespace Matador.Sql

open Database Matador.Sql.Part List

open Lib (QuoteFree Reads doubled)

/-- The literals of a text under the SQL rule, with quoted identifiers set aside. -/
def stringLiterals (text : Str) : Option (List Str) := Lib.literals '\'' '"' text

/-- A text without single and double quotes. -/
abbrev Unquoted (s : Str) : Prop := QuoteFree '\'' '"' s

/-- A text that reads as no literal, whatever follows. -/
abbrev harmless (s : Str) : Bool := Lib.literalFree '\'' '"' false s

/-! ## Strings of a statement -/

def Value.strings : Value → List Str
  | .string s => [s]
  | .temporal s => [s]
  | .number _ => []
  | .unvisited => []

def Column.strings (col : Column) : List Str := (col.withValue.map Value.strings).getD []

def Scalar.strings : Scalar → List Str
  | .chars text => [text]
  | _ => []

def Streamed.strings : Streamed → List Str
  | .scalar s => s.strings
  | .string s => [s]

def Clause.strings : Clause → List Str
  | .values vs => vs.flatMap Value.strings
  | .value v => v.strings
  | .columns _ cols => cols.flatMap Column.strings
  | .column col => col.strings
  | _ => []

def ColumnCondition.strings : ColumnCondition → List Str
  | .columnString _ _ v => [v]
  | .stringColumn v _ _ => [v]
  | .columnScalar _ _ v => v.strings
  | .scalarColumn v _ _ => v.strings

mutual

def Cond.strings : Cond → List Str
  | .column c => c.strings
  | .inList _ args => args.flatMap Streamed.strings
  | .query _ _ select => select.strings
  | .between _ low high => low.strings ++ high.strings
  | .logical left right _ => left.strings ++ right.strings
  | .negation cond => cond.strings

/-- The strings of a statement; dates and times are written as strings. -/
def Clauses.strings : Clauses → List Str
  | .nil => []
  | .clause c rest => c.strings ++ rest.strings
  | .where cond rest => cond.strings ++ rest.strings
  | .query select rest => select.strings ++ rest.strings

end

/-! ## Text that is written as it stands -/

def Scalar.plain : Scalar → Bool
  | .character c => decide (Unquoted [c])
  | _ => true

def Streamed.plain : Streamed → Bool
  | .scalar s => s.plain
  | .string _ => true

def Column.plain (typeString : DataType → Str) (col : Column) : Bool :=
  (col.withQuotes || harmless col.name) &&
    col.withType.all fun t => decide (Unquoted (typeString t.type))

/-- A lone value, and a lone column with one, end with a literal that nothing separates from the
next token; `query` does not write them. -/
def Clause.plain (typeString : DataType → Str) : Clause → Bool
  | .alias name => harmless name
  | .value _ => false
  | .columns _ cols => cols.all (Column.plain typeString)
  | .column col => col.plain typeString && col.withValue.isNone
  | _ => true

def ColumnCondition.plain : ColumnCondition → Bool
  | .columnScalar _ _ v => v.plain
  | .scalarColumn v _ _ => v.plain
  | _ => true

mutual

def Cond.plain (typeString : DataType → Str) : Cond → Bool
  | .column c => c.plain
  | .inList _ args => args.all Streamed.plain
  | .query _ _ select => select.plain typeString
  | .between _ low high => low.plain && high.plain
  | .logical left right _ => left.plain typeString && right.plain typeString
  | .negation cond => cond.plain typeString

def Clauses.plain (typeString : DataType → Str) : Clauses → Bool
  | .nil => true
  | .clause c rest => c.plain typeString && rest.plain typeString
  | .where cond rest => cond.plain typeString && rest.plain typeString
  | .query select rest => select.plain typeString && rest.plain typeString

end

/-! ## Escaped strings -/

def Scalar.escaped : Scalar → Bool
  | .chars _ => false
  | _ => true

def ColumnCondition.escaped : ColumnCondition → Bool
  | .columnString _ _ v => decide ('\'' ∉ v)
  | .stringColumn v _ _ => decide ('\'' ∉ v)
  | .columnScalar _ _ v => v.escaped
  | .scalarColumn v _ _ => v.escaped

def Streamed.escaped : Streamed → Bool
  | .scalar s => s.escaped
  | .string _ => false

mutual

def Cond.escaped : Cond → Bool
  | .column c => c.escaped
  | .inList _ args => args.all Streamed.escaped
  | .query _ _ select => select.escaped
  | .between _ low high => low.escaped && high.escaped
  | .logical left right _ => left.escaped && right.escaped
  | .negation cond => cond.escaped

/-- The strings of comparisons have no quotes, no `char *` is compared, and no list or range has
strings. -/
def Clauses.escaped : Clauses → Bool
  | .nil => true
  | .clause _ rest => rest.escaped
  | .where cond rest => cond.escaped && rest.escaped
  | .query select rest => select.escaped && rest.escaped

end

/-! ## Names -/

def plainName (name : Str) : Bool := decide ('\'' ∉ name)

def Column.named (col : Column) : Bool := plainName col.name

def Clause.named : Clause → Bool
  | .tablename t => plainName t
  | .orderBy col => plainName col
  | .groupBy col => plainName col
  | .from t => plainName t
  | .alias name => plainName name
  | .columns _ cols => cols.all Column.named
  | .column col => col.named
  | _ => true

def ColumnCondition.named : ColumnCondition → Bool
  | .columnScalar field _ _ => plainName field
  | .columnString field _ _ => plainName field
  | .scalarColumn _ _ field => plainName field
  | .stringColumn _ _ field => plainName field

def Command.named : Command → Bool
  | .create t => plainName t
  | .drop t => plainName t
  | .insert t => plainName t
  | _ => true

mutual

def Cond.named : Cond → Bool
  | .column c => c.named
  | .inList field _ => plainName field
  | .query field _ select => plainName field && select.named
  | .between field _ _ => plainName field
  | .logical left right _ => left.named && right.named
  | .negation cond => cond.named

/-- The names of tables and columns and the aliases have no single quotes. -/
def Clauses.named : Clauses → Bool
  | .nil => true
  | .clause c rest => c.named && rest.named
  | .where cond rest => cond.named && rest.named
  | .query select rest => select.named && rest.named

end

/-! ## Pieces of text -/

/-- A piece of SQL text that stands for some strings. -/
abbrev SqlReads (named ok opened : Bool) (s : Str) (vs : List Str) : Prop :=
  Reads '\'' '"' named ok opened s vs

theorem unquoted_number {t : Str} (h : isNumber t) : Unquoted t := by
  have hchar (c : Char) (hc : isNumberChar c) : c ≠ '\'' ∧ c ≠ '"' := by
    constructor <;>
    · rintro rfl
      exact absurd hc (by decide)
  cases t with
  | nil => exact forall_mem_nil _
  | cons c cs =>
    rw [isNumber, Bool.and_eq_true, all_eq_true] at h
    refine forall_mem_cons.mpr ⟨hchar c ?_, fun d hd => hchar d (h.2 d hd)⟩
    rcases (Bool.or_eq_true _ _).mp h.1 with hc | hc <;> simp [isNumberChar, hc]

theorem unquoted_natText (n : Nat) : Unquoted (natText n) := unquoted_number (isNumber_natText n)

theorem Scalar.reads_print {s : Scalar} (h : s.plain) :
    SqlReads true s.escaped false s.print s.strings := by
  cases s with
  | character c => exact .free (of_decide_eq_true h)
  | integral i => exact .free (unquoted_number (Scalar.isNumber_print rfl))
  | floating t => exact .free (unquoted_number t.2)
  | chars text => exact .bare text

theorem reads_identifier (name : Str) :
    SqlReads (plainName name) true false (prepareIdentifier .doubleQuotes name) [] := by
  rw [prepareIdentifier_eq]
  exact .identifier (by decide) name

theorem reads_toSafeString (val : Value) :
    SqlReads true true true val.toSafeString val.strings := by
  have hlit (s : Str) : SqlReads true true true (['\''] ++ prepareLiteral s ++ ['\'']) [s] := by
    have hpre : prepareLiteral s = doubled '\'' s := by
      rw [prepareLiteral, Text.replaceAll_singleton]
      exact replaceAll_eq_doubled '\'' s
    rw [hpre]
    exact .literal s
  cases val with
  | number t => exact (Reads.free (unquoted_number t.2)).weaken
  | string s => exact hlit s
  | temporal s => exact hlit s
  | unvisited => exact (Reads.free (forall_mem_nil _)).weaken

/-- A direct dialect with double quotes around identifiers. -/
structure Dialect.Direct (d : Dialect) : Prop where
  quoting : d.quoting = .doubleQuotes
  compileType : d.compileType = .direct

structure Links (named ok opened : Bool) (r : List Part × Dialect) (vs : List Str) : Prop where
  direct : r.2.Direct
  reads : SqlReads named ok opened (textOf r.1) vs

variable {named ok : Bool} {d : Dialect} {vs : List Str}

theorem Links.of_text {opened : Bool} {ps : List Part} {s : Str}
    (hd : d.Direct) (h : SqlReads named ok opened s vs) (hs : textOf ps = s) :
    Links named ok opened (ps, d) vs :=
  ⟨hd, hs ▸ h⟩

theorem Links.opened {opened : Bool} {r : List Part × Dialect}
    (h : Links named ok opened r vs) : Links named ok true r vs :=
  ⟨h.direct, h.reads.weaken⟩

/-! ## Values and clauses -/

theorem unquoted_keyword (k : Keyword) : Unquoted k.text := by cases k <;> decide

section Link

variable {typeString : DataType → Str} {d : Dialect}

theorem links_visitValue (hd : d.Direct) (val : Value) :
    Links true true true (visitValue d val) val.strings := by
  rw [visitValue, hd.compileType]
  exact ⟨hd, by simpa [str] using reads_toSafeString val⟩

theorem unquoted_write {t : ColumnType} (h : Unquoted (typeString t.type)) :
    Unquoted (t.write (.basic typeString)) := by
  have hite (b : Bool) (s : Str) (hs : Unquoted s) : Unquoted (if b then s else []) := by
    cases b
    · exact forall_mem_nil _
    · exact hs
  have hsize : Unquoted (if 0 < t.size then ['('] ++ natText t.size ++ [')'] else []) := by
    split
    · exact Lib.quoteFree_append.mpr ⟨Lib.quoteFree_append.mpr ⟨by decide, unquoted_natText _⟩,
        by decide⟩
    · exact forall_mem_nil _
  simp only [ColumnType.write, Lib.quoteFree_append]
  exact ⟨⟨⟨⟨⟨by decide, h⟩, hsize⟩, hite _ _ (by decide)⟩, hite _ _ (by decide)⟩,
    hite _ _ (by decide)⟩

theorem reads_columnName (hd : d.Direct) {col : Column} (h : col.plain typeString) :
    SqlReads col.named true false
      (if col.withQuotes then prepareIdentifier d.quoting col.name else col.name) [] := by
  rw [Column.plain, Bool.and_eq_true] at h
  unfold Column.named
  cases hquo : col.withQuotes with
  | true =>
    rw [hd.quoting]
    exact reads_identifier col.name
  | false =>
    rw [hquo, Bool.false_or] at h
    exact .literalFree (by decide) h.1

theorem links_visitColumn (hd : d.Direct) {col : Column} (h : col.plain typeString) :
    Links col.named true col.withValue.isSome (visitColumn (.basic typeString) d col)
      col.strings := by
  have hname := reads_columnName hd h
  have hequ : Unquoted ['='] := by decide
  unfold visitColumn Column.strings
  cases htype : col.withType with
  | none =>
    cases col.withValue with
    | none => exact .of_text hd hname (by simp [str])
    | some val =>
      have hval := links_visitValue hd val
      have hread := hname.append (hval.reads.prepend hequ)
      rw [Bool.and_true] at hread
      exact .of_text hval.direct hread (by simp [str])
  | some t =>
    have htyp : Unquoted (t.write (.basic typeString)) := by
      rw [Column.plain, Bool.and_eq_true, htype, Option.all_some, decide_eq_true_iff] at h
      exact unquoted_write h.2
    cases col.withValue with
    | none =>
      have hread := hname.append (.free htyp)
      rw [Bool.and_true] at hread
      exact .of_text hd hread (by simp [str])
    | some val =>
      have hval := links_visitValue hd val
      have hread := hname.append ((hval.reads.prepend hequ).prepend htyp)
      rw [Bool.and_true] at hread
      exact .of_text hval.direct hread (by simp [str])

theorem links_visitJoined {α : Type} {visit : Dialect → α → List Part × Dialect}
    {named : α → Bool} {strings : α → List Str} (xs : List α)
    (hvis : ∀ {d : Dialect}, d.Direct → ∀ x ∈ xs, Links (named x) true true (visit d x) (strings x))
    (hd : d.Direct) :
    Links (xs.all named) true true (visitJoined visit xs d) (xs.flatMap strings) := by
  fun_induction visitJoined visit xs d with
  | case1 d => exact ⟨hd, (Reads.free (forall_mem_nil _)).weaken⟩
  | case2 x d =>
    have hx := hvis hd x mem_cons_self
    simpa using hx
  | case3 x y xs d v w ih =>
    have hv := hvis hd x mem_cons_self
    have hw := ih (fun hd' z hz => hvis hd' z (mem_cons_of_mem _ hz)) hv.direct
    refine ⟨hw.direct, ?_⟩
    have hcom : Unquoted [',', ' '] := by decide
    have hread := (hv.reads.close hcom).append hw.reads
    simpa [str] using hread

theorem links_values (hd : d.Direct) (vs : List Value) :
    Links true true true (visitJoined visitValue vs d) (vs.flatMap Value.strings) := by
  have h : Links (vs.all fun _ => true) true true (visitJoined visitValue vs d)
      (vs.flatMap Value.strings) :=
    links_visitJoined vs (fun hd' val _ => links_visitValue hd' val) hd
  rwa [all_eq_true.mpr fun _ _ => rfl] at h

theorem reads_keyword (k : Keyword) : SqlReads true true false (k.text ++ [' ']) [] :=
  .free (Lib.quoteFree_append.mpr ⟨unquoted_keyword k, by decide⟩)

theorem reads_keywordName (hd : d.Direct) (k : Keyword) (name : Str) :
    SqlReads (plainName name) true false (textOf ((basic typeString).keywordName d k name)) [] := by
  have hblk : Unquoted [' '] := by decide
  have hread :=
    ((reads_identifier name).close hblk).prepend
      (Lib.quoteFree_append.mpr ⟨unquoted_keyword k, hblk⟩)
  simpa [keywordName, basic, hd.quoting, str] using hread

theorem Command.links (hd : d.Direct) (c : Command) :
    Links c.named true false (c.link (.basic typeString) d, d) [] := by
  refine ⟨hd, ?_⟩
  cases c with
  | create t => exact reads_keywordName hd .createTable t
  | drop t => exact reads_keywordName hd .drop t
  | insert t => exact reads_keywordName hd .insert t
  | beginTransaction => exact reads_keyword .beginTransaction
  | commit => exact reads_keyword .commit
  | rollback => exact reads_keyword .rollback
  | select => exact reads_keyword .select
  | update => exact reads_keyword .update
  | remove => exact reads_keyword .remove

theorem Clause.links (hd : d.Direct) {c : Clause} (h : c.plain typeString) :
    Links c.named true false (c.link (.basic typeString) d) c.strings := by
  have hblk : Unquoted [' '] := by decide
  cases c with
  | distinct => exact ⟨hd, reads_keyword .distinct⟩
  | set => exact ⟨hd, reads_keyword .set⟩
  | asc => exact ⟨hd, reads_keyword .asc⟩
  | desc => exact ⟨hd, reads_keyword .desc⟩
  | orderBy col => exact ⟨hd, reads_keywordName hd .orderBy col⟩
  | groupBy col => exact ⟨hd, reads_keywordName hd .groupBy col⟩
  | tablename t =>
    have hread := (reads_identifier t).close hblk
    exact .of_text hd hread (by simp [hd.quoting, str])
  | «alias» name =>
    have hname : SqlReads (plainName name) true false name [] := .literalFree (by decide) h
    have hread := (hname.close hblk).prepend
      (Lib.quoteFree_append.mpr ⟨unquoted_keyword .alias, hblk⟩)
    exact .of_text hd hread (by simp [basic, str])
  | top limit =>
    have hread := Reads.free (Lib.quoteFree_append.mpr ⟨Lib.quoteFree_append.mpr
      ⟨Lib.quoteFree_append.mpr ⟨unquoted_keyword .top, hblk⟩, unquoted_natText limit⟩, hblk⟩)
    exact .of_text hd hread (by simp [linkTop, basic, str])
  | values vs =>
    have hvs := links_values hd vs
    have hopen : Unquoted (Keyword.values.text ++ [' ', '(']) := by decide
    have hclo : Unquoted [')', ' '] := by decide
    have hread := (hvs.reads.prepend hopen).close hclo
    exact .of_text hvs.direct hread (by simp [basic, str])
  | value val => cases h
  | «from» t =>
    refine ⟨hd, ?_⟩
    cases t with
    | nil => exact reads_keyword .from
    | cons c cs => exact reads_keywordName hd .from (c :: cs)
  | columns withBrackets cols =>
    have hcols : Links (cols.all Column.named) true true
        (visitJoined (visitColumn (.basic typeString)) cols d) (cols.flatMap Column.strings) :=
      links_visitJoined cols (fun hd' col hcol =>
        (links_visitColumn hd' (all_eq_true.mp h col hcol)).opened) hd
    cases withBrackets with
    | true =>
      have hopen : Unquoted ['('] := by decide
      have hclo : Unquoted [')', ' '] := by decide
      have hread := (hcols.reads.prepend hopen).close hclo
      exact .of_text hcols.direct hread (by simp [str])
    | false =>
      have hread := hcols.reads.close hblk
      exact .of_text hcols.direct hread (by simp [str])
  | column col =>
    rw [Clause.plain, Bool.and_eq_true] at h
    have hcol := links_visitColumn hd h.1
    rw [Option.isNone_iff_eq_none.mp h.2] at hcol
    exact hcol

end Link

/-! ## Conditions -/

section Conditions

variable {d : Dialect}

theorem unquoted_compare (operand : Compare) : Unquoted (' ' :: operand.operands ++ [' ']) := by
  cases operand <;> decide

theorem ColumnCondition.links (hd : d.Direct) {c : ColumnCondition} (h : c.plain) :
    Links c.named c.escaped true (c.parts d) c.strings := by
  cases c with
  | columnScalar field operand value =>
    have hdir : (d.addHostVar field).compileType = .direct := hd.compileType
    have hquo : (d.addHostVar field).quoting = .doubleQuotes := hd.quoting
    simp only [parts, hdir, hquo]
    have hread := (reads_identifier field).append
      ((Scalar.reads_print h).prepend (unquoted_compare operand))
    rw [Bool.and_true] at hread
    exact .of_text ⟨hd.quoting, hd.compileType⟩ hread.weaken (by simp [str])
  | columnString field operand value =>
    have hdir : (d.addHostVar field).compileType = .direct := hd.compileType
    have hquo : (d.addHostVar field).quoting = .doubleQuotes := hd.quoting
    simp only [parts, hdir, hquo]
    have hread :=
      (reads_identifier field).append ((Reads.undoubled value).prepend (unquoted_compare operand))
    rw [Bool.and_true] at hread
    exact .of_text ⟨hd.quoting, hd.compileType⟩ hread (by simp [str])
  | scalarColumn value operand field =>
    have hread := ((Scalar.reads_print h).close (unquoted_compare operand)).append
      (reads_identifier field)
    rw [Bool.and_true, Bool.true_and, append_nil] at hread
    exact .of_text hd hread.weaken (by simp [hd.quoting, str])
  | stringColumn value operand field =>
    have hread :=
      ((Reads.undoubled value).close (unquoted_compare operand)).append (reads_identifier field)
    rw [Bool.and_true] at hread
    exact .of_text hd hread.weaken (by simp [hd.quoting, str])

theorem reads_print {arg : Streamed} (h : arg.plain) :
    SqlReads true arg.escaped true arg.print arg.strings := by
  cases arg with
  | scalar value => exact (Scalar.reads_print h).weaken
  | string value => exact .bare value

theorem reads_writeArgs (hd : d.Direct) (args : List Streamed) (h : args.all Streamed.plain) :
    SqlReads true (args.all Streamed.escaped) true (textOf (writeArgs d args))
      (args.flatMap Streamed.strings) := by
  match args with
  | [] => exact (Reads.free (forall_mem_nil _)).weaken
  | [arg] =>
    rw [all_cons, Bool.and_eq_true] at h
    have hread := reads_print h.1
    rw [writeArgs, hd.compileType]
    simpa [str] using hread
  | arg :: arg' :: args =>
    rw [all_cons, Bool.and_eq_true] at h
    have hcom : Unquoted [','] := by decide
    have hread := ((reads_print h.1).close hcom).append (reads_writeArgs hd (arg' :: args) h.2)
    rw [writeArgs, hd.compileType]
    simpa [str] using hread

theorem links_evaluateInList (db : Database) (hd : d.Direct) (field : Str) {args : List Streamed}
    (h : args.all Streamed.plain) :
    Links (plainName field) (args.all Streamed.escaped) true (evaluateInList field args db d)
      (args.flatMap Streamed.strings) := by
  have hd' : (args.foldl (fun d _ => d.addHostVar field) d).Direct :=
    foldlRecOn args _ hd fun d hd arg _ => ⟨hd.quoting, hd.compileType⟩
  have hopen : Unquoted [' ', 'I', 'N', ' ', '('] := by decide
  have hclo : Unquoted [')'] := by decide
  have hread :=
    (reads_identifier field).append (((reads_writeArgs hd' args h).close hclo).prepend hopen)
  rw [Bool.and_true] at hread
  exact .of_text hd' hread.weaken (by simp [hd'.quoting, str])

theorem links_evaluateBetween (db : Database) (hd : d.Direct) (field : Str) {low high : Streamed}
    (hlow : low.plain) (hhigh : high.plain) :
    Links (plainName field) (low.escaped && high.escaped) true (evaluateBetween field low high db d)
      (low.strings ++ high.strings) := by
  have hdir : ((d.addHostVar field).addHostVar field).compileType = .direct := hd.compileType
  have hquo : ((d.addHostVar field).addHostVar field).quoting = .doubleQuotes := hd.quoting
  simp only [evaluateBetween, hdir, hquo]
  have hbet : Unquoted [' ', 'B', 'E', 'T', 'W', 'E', 'E', 'N', ' '] := by decide
  have hand : Unquoted [' ', 'A', 'N', 'D', ' '] := by decide
  have hread := (reads_identifier field).append
    ((((reads_print hlow).close hand).append (reads_print hhigh)).prepend hbet)
  rw [Bool.and_true, Bool.and_true] at hread
  exact .of_text ⟨hquo, hdir⟩ hread (by simp [str])

end Conditions

/-! ## Statements -/

section Statements

variable {typeString : DataType → Str}

theorem links_continueBuild {select : Clauses}
    (h : Links named ok false (linkTokens (.basic typeString) select.tokens d) vs) :
    Links named ok false (continueBuild select.tokens (.basic typeString) d) vs := by
  have hcom : (basic typeString).compiler ≠ .mssql := fun h => nomatch h
  rw [continueBuild_eq_link hcom]
  have hsel : Unquoted (Keyword.select.text ++ [' ']) := by decide
  exact .of_text h.direct (h.reads.prepend hsel)
    (by simp [SqlToken.link, Command.link, keyword, basic, str])

mutual

theorem Cond.links (c : Cond) (h : c.plain typeString) {d : Dialect} (hd : d.Direct) :
    Links c.named c.escaped true (c.evaluate (.basic typeString) d) c.strings := by
  match c with
  | .column c => exact c.links hd h
  | .inList field args => exact links_evaluateInList _ hd field h
  | .query field operand select =>
    have hsel := links_continueBuild (select.links h hd)
    have hopen : Unquoted ([' '] ++ operand.operands ++ [' ', '(']) := by cases operand <;> decide
    have hclo : Unquoted [')'] := by decide
    have hread := (reads_identifier field).append ((hsel.reads.close hclo).prepend hopen)
    exact .of_text hsel.direct hread.weaken (by simp [hd.quoting, str])
  | .between field low high =>
    obtain ⟨hlow, hhigh⟩ := Bool.and_eq_true_iff.mp h
    exact links_evaluateBetween _ hd field hlow hhigh
  | .logical left right operand =>
    obtain ⟨hleft, hrgt⟩ := Bool.and_eq_true_iff.mp h
    have hl := left.links hleft hd
    have hr := right.links hrgt hl.direct
    cases operand with
    | and =>
      have hand : Unquoted [' ', 'A', 'N', 'D', ' '] := by decide
      have hopen : Unquoted ['('] := by decide
      have hclo : Unquoted [')'] := by decide
      have hread := (((hl.reads.close hand).append hr.reads).prepend hopen).close hclo
      exact .of_text hr.direct hread.weaken (by simp [str, Connective.operands])
    | or =>
      have hor : Unquoted [' ', 'O', 'R', ' '] := by decide
      have hread := (hl.reads.close hor).append hr.reads
      exact .of_text hr.direct hread (by simp [str, Connective.operands])
  | .negation cond =>
    have hcond := cond.links h hd
    have hopen : Unquoted ['N', 'O', 'T', ' ', '('] := by decide
    have hclo : Unquoted [')'] := by decide
    exact .of_text hcond.direct ((hcond.reads.prepend hopen).close hclo).weaken (by simp [str])

theorem Clauses.links (cs : Clauses) (h : cs.plain typeString) {d : Dialect} (hd : d.Direct) :
    Links cs.named cs.escaped false (linkTokens (.basic typeString) cs.tokens d) cs.strings := by
  match cs with
  | .nil => exact ⟨hd, .free (forall_mem_nil _)⟩
  | .clause c rest =>
    obtain ⟨hc, hrest⟩ := Bool.and_eq_true_iff.mp h
    have hcla := Clause.links hd hc
    have hlin := rest.links hrest hcla.direct
    exact .of_text hlin.direct (hcla.reads.append hlin.reads) (textOf_append ..)
  | .where cond rest =>
    obtain ⟨hc, hrest⟩ := Bool.and_eq_true_iff.mp h
    have hcond := cond.links hc hd
    have hlin := rest.links hrest hcond.direct
    have hwhe : Unquoted (Keyword.where.text ++ [' ']) := by decide
    have hblk : Unquoted [' '] := by decide
    have hread := ((hcond.reads.prepend hwhe).close hblk).append hlin.reads
    exact .of_text hlin.direct hread (by simp [SqlToken.link, basic, str])
  | .query select rest =>
    obtain ⟨hs, hrest⟩ := Bool.and_eq_true_iff.mp h
    have hsel := links_continueBuild (select.links hs hd)
    have hlin := rest.links hrest hsel.direct
    have hopen : Unquoted ['('] := by decide
    have hclo : Unquoted [')', ' '] := by decide
    have hread := ((hsel.reads.prepend hopen).close hclo).append hlin.reads
    exact .of_text hlin.direct hread (by simp [SqlToken.link, str])

end

theorem Query.links (q : Query) (h : q.clauses.plain typeString) (hd : d.Direct) :
    Links (q.command.named && q.clauses.named) q.clauses.escaped false
      (linkTokens (.basic typeString) q.sql d) q.clauses.strings := by
  have hcmd : Links q.command.named true false (q.command.link (.basic typeString) d, d) [] :=
    q.command.links hd
  have hcla := q.clauses.links h hd
  have hread := hcmd.reads.append hcla.reads
  exact .of_text hcla.direct hread (textOf_append ..)

end Statements

/-! ## The literals of a built statement -/

/-- The text that is built in direct mode has exactly the strings of the statement as literals. -/
def LiteralsRead (typeString : DataType → Str) (flags : Flags) (q : Query) : Prop :=
  ∃ b, build (.basic typeString) flags .direct q.sql = some b ∧
    stringLiterals (textOf b.parts) = some q.clauses.strings

theorem exists_build_direct (typeString : DataType → Str) (flags : Flags) (q : Query)
    (h : q.clauses.plain typeString) :
    ∃ b, build (.basic typeString) flags .direct q.sql = some b ∧
      SqlReads (q.command.named && q.clauses.named) q.clauses.escaped false (textOf b.parts)
        q.clauses.strings := by
  have hcom : (basic typeString).compiler = .basic := rfl
  obtain ⟨s, hs, hsql, htok⟩ := CompileState.exists_compile_basic hcom flags q.sql
  have hres : s.result = q.sql := by
    rw [CompileState.result, hsql, htok]
    exact lookup_range q.sql
  refine ⟨_, build_eq_some.mpr ⟨s, hs, rfl⟩, ?_⟩
  have hd : ((basic typeString).dialect .direct).Direct := ⟨rfl, rfl⟩
  have hlin := q.links h hd
  simp only [hres]
  exact hlin.reads

/-- **A statement whose comparisons hold no quotes and no `char *`, and whose lists and ranges hold
no strings, is read with exactly its strings as literals. Without single quotes in names, no other
statement is.** -/
theorem literals_of_statement (typeString : DataType → Str) (flags : Flags) (q : Query)
    (hplain : q.clauses.plain typeString = true) :
    (q.clauses.escaped = true → LiteralsRead typeString flags q) ∧
    (q.command.named = true ∧ q.clauses.named = true →
        LiteralsRead typeString flags q → q.clauses.escaped = true) := by
  obtain ⟨b, hb, hread⟩ := exists_build_direct typeString flags q hplain
  refine ⟨fun hesc => ⟨b, hb, hread.literals_eq hesc⟩, fun hnam hlit => ?_⟩
  obtain ⟨b', hb', hlit⟩ := hlit
  cases hb.symm.trans hb'
  exact hread.ok_of_literals (by rw [hnam.1, hnam.2]; rfl) hlit

/-- A quote in a value that is inserted: `INSERT INTO "t" ("a") VALUES ('it''s')`. -/
theorem literals_of_inserted_quote : LiteralsRead (fun _ => []) ⟨false, false⟩
      ⟨.insert ['t'], .clause (.columns true [{ name := ['a'] }])
        (.clause (.values [.string ['i', 't', '\'', 's']]) .nil)⟩ :=
  (literals_of_statement _ _ _ (by decide)).1 (by decide)

/-- The same string in a comparison: `SELECT "a" FROM "t" WHERE "a" = 'it's'`. -/
theorem compared_quote_not_read : ¬LiteralsRead (fun _ => []) ⟨false, false⟩
      ⟨.select, .clause (.columns false [{ name := ['a'] }]) (.clause (.from ['t'])
        (.where (.column (.columnString ['a'] .equal ['i', 't', '\'', 's'])) .nil))⟩ := by
  rintro ⟨b, hb, hlit⟩
  obtain ⟨b', hb', hread⟩ := exists_build_direct (fun _ => []) ⟨false, false⟩
    ⟨.select, .clause (.columns false [{ name := ['a'] }]) (.clause (.from ['t'])
      (.where (.column (.columnString ['a'] .equal ['i', 't', '\'', 's'])) .nil))⟩ (by decide)
  cases hb.symm.trans hb'
  have hesc := hread.ok_of_literals rfl hlit
  exact absurd hesc (by decide)

end Matador.Sql
