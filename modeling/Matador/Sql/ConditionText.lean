import Matador.Sql.Reader

/-!
# What the text of a condition denotes

`Condition.toExpr` is the expression tree the C++ operators built, over the comparisons as the
dialect writes them. `ReadsBack d c` says that the text of `c`, read with SQL precedence, denotes
the same boolean function of the same comparisons. Two things can go wrong, and nothing else:

* `evaluate` puts no parentheses around an `OR`, so an `OR` below an `AND` is torn apart;
* a value that is written out (in direct mode, or on the left of a column) is written without
  escaping, so a string with a quote ends early, and a character type or a `char *` prints a bare
  text.
-/

namespace Matador.Sql

open List
open Option hiding map_map all_eq_true

open Lib (BoolExpr)

/-! ## The expression tree of a condition -/

def Scalar.operand : Scalar → Operand
  | .character c => .character [c]
  | .chars text => .character text
  | s => .number s.print

/-- The value of a condition with the column on the left: written out in direct mode, a host
variable in prepared mode. -/
def valueOperand (d : Dialect) (written : Operand) : Operand :=
  match d.compileType with
  | .direct => written
  | .prepared => .placeholder d.nextPlaceholder

def ColumnCondition.comparison (d : Dialect) : ColumnCondition → Comparison
  | .columnScalar field op value =>
      ⟨.column field, op, valueOperand (d.addHostVar field) value.operand⟩
  | .columnString field op value =>
      ⟨.column field, op, valueOperand (d.addHostVar field) (.string value)⟩
  | .scalarColumn value op field => ⟨value.operand, op, .column field⟩
  | .stringColumn value op field => ⟨.string value, op, .column field⟩

def Condition.toExpr : Condition → Dialect → BoolExpr Comparison
  | .column c, d => .atom (c.comparison d)
  | .logical l r .and, d => .and (l.toExpr d) (r.toExpr (l.evaluate d).2)
  | .logical l r .or, d => .or (l.toExpr d) (r.toExpr (l.evaluate d).2)
  | .negation c, d => .not (c.toExpr d)

/-- The text of `c` reads back as the boolean function of its comparisons that `c` is. -/
def ReadsBack (d : Dialect) (c : Condition) : Prop :=
  ∃ e, readCondition d.quoting (c.evaluate d).1 = some e ∧ e.SameFunction (c.toExpr d)

def Condition.isOr : Condition → Bool
  | .logical _ _ .or => true
  | _ => false

/-- No `operator&&` of the condition has an `operator||` as a direct operand. -/
def Condition.grouped : Condition → Bool
  | .column _ => true
  | .logical l r .and => !l.isOr && !r.isOr && l.grouped && r.grouped
  | .logical l r .or => l.grouped && r.grouped
  | .negation c => c.grouped

/-- The scalar is neither of a character type nor a `char *`. -/
def Scalar.isNumeric : Scalar → Bool
  | .character _ | .chars _ => false
  | _ => true

/-- A value that is written out is a number or a string without quotes. -/
def ColumnCondition.literalSafe (t : CompileType) : ColumnCondition → Bool
  | .columnScalar _ _ v => t == .prepared || v.isNumeric
  | .columnString _ _ v => t == .prepared || !v.contains '\''
  | .scalarColumn v _ _ => v.isNumeric
  | .stringColumn v _ _ => !v.contains '\''

def Condition.literalsSafe (t : CompileType) : Condition → Bool
  | .column c => c.literalSafe t
  | .logical l r _ => l.literalsSafe t && r.literalsSafe t
  | .negation c => c.literalsSafe t

theorem Condition.isOr_toExpr (c : Condition) (d : Dialect) : (c.toExpr d).isOr = c.isOr := by
  match c with
  | .column _ => rfl
  | .logical _ _ .and => rfl
  | .logical _ _ .or => rfl
  | .negation _ => rfl

theorem Condition.grouped_toExpr (c : Condition) (d : Dialect) :
    (c.toExpr d).grouped = c.grouped := by
  induction c generalizing d with
  | column c => rfl
  | logical l r op ihl ihr =>
    cases op with
    | and => simp [toExpr, grouped, BoolExpr.grouped, ihl, ihr, isOr_toExpr]
    | or => simp [toExpr, grouped, BoolExpr.grouped, ihl, ihr]
  | negation c ih => exact ih d

/-! ## Rendering changes only the host variables -/

theorem ColumnCondition.evaluate_dialect (d : Dialect) (c : ColumnCondition) :
    (c.evaluate d).2.quoting = d.quoting ∧ (c.evaluate d).2.compileType = d.compileType := by
  cases c with
  | columnScalar _ _ _ | columnString _ _ _ =>
    cases h : d.compileType <;> simp [evaluate, h]
  | scalarColumn _ _ _ | stringColumn _ _ _ => exact ⟨rfl, rfl⟩

theorem Condition.evaluate_dialect (d : Dialect) (c : Condition) :
    (c.evaluate d).2.quoting = d.quoting ∧ (c.evaluate d).2.compileType = d.compileType := by
  induction c generalizing d with
  | column c => exact c.evaluate_dialect d
  | logical l r op ihl ihr =>
    obtain ⟨hq, ht⟩ := ihr (l.evaluate d).2
    rw [(ihl d).1] at hq
    rw [(ihl d).2] at ht
    cases op <;> exact ⟨hq, ht⟩
  | negation c ih => exact ih d

@[simp] theorem Condition.evaluate_quoting (d : Dialect) (c : Condition) :
    (c.evaluate d).2.quoting = d.quoting := (c.evaluate_dialect d).1

@[simp] theorem Condition.evaluate_compileType (d : Dialect) (c : Condition) :
    (c.evaluate d).2.compileType = d.compileType := (c.evaluate_dialect d).2

/-! ## The tokens of the values -/

/-- `text` is the tokens `ts`, whatever delimited text follows. -/
def LexesTo (q : Quoting) (text : Str) (ts : List Token) : Prop :=
  ∀ rest, Delimited rest → tokens q (text ++ rest) = (tokens q rest).map (ts ++ ·)

/-- `text` is never split into tokens whose operands start with `os`. -/
def Garbles (q : Quoting) (text : Str) (os : List Operand) : Prop :=
  ∀ rest, Delimited rest → ∀ ts, tokens q (text ++ rest) = some ts → ¬ os <+: tokenOperands ts

theorem isWordChar_of_isNumberChar {c : Char} (h : isNumberChar c) : isWordChar c := by
  simp only [isNumberChar, Bool.or_eq_true, beq_iff_eq] at h
  rcases h with (((h | rfl) | rfl) | rfl) | rfl
  · simp [isWordChar, Char.isAlphanum, h]
  all_goals decide

variable {t : Str}

theorem lexesTo_number (q : Quoting) (h : isNumber t) : LexesTo q t [.operand (.number t)] := by
  intro rest hrest
  cases t with
  | nil => simp [isNumber] at h
  | cons c cs =>
    have hnum := h
    simp only [isNumber, Bool.and_eq_true, all_eq_true, Bool.or_eq_true, beq_iff_eq] at h
    obtain ⟨hc, hcs⟩ := h
    have hword : (c :: cs).all isWordChar := by
      simp only [all_cons, Bool.and_eq_true, all_eq_true]
      refine ⟨isWordChar_of_isNumberChar ?_, fun x hx => isWordChar_of_isNumberChar (hcs x hx)⟩
      rcases hc with hc | rfl
      · simp [isNumberChar, hc]
      · decide
    -- a number is no keyword
    have hne (w : Str) (hw : isNumber w = false) : c :: cs ≠ w := by
      rintro rfl
      rw [hnum] at hw
      exact absurd hw (by decide)
    rw [tokens_word q hword hrest, wordToken, if_neg (hne _ (by decide)),
      if_neg (hne _ (by decide)),
      if_neg (hne _ (by decide)), if_neg (hne _ (by decide)), if_pos hnum]
    rfl

theorem all_isDigit_natText (n : Nat) : (natText n).all Char.isDigit :=
  all_eq_true.mpr fun _ hc => Nat.isDigit_of_mem_toDigits (by omega) (by omega) hc

theorem isNumber_natText (n : Nat) : isNumber (natText n) := by
  have hall := all_isDigit_natText n
  cases h : natText n with
  | nil => exact absurd h Nat.toDigits_ne_nil
  | cons c cs =>
    rw [h, all_cons, Bool.and_eq_true, all_eq_true] at hall
    simp only [isNumber, hall.1, Bool.true_or, Bool.true_and, all_eq_true]
    exact fun x hx => by simp [isNumberChar, hall.2 x hx]

theorem Scalar.isNumber_print {s : Scalar} (h : s.isNumeric) : isNumber s.print := by
  match s with
  | .integral (.ofNat n) => exact isNumber_natText n
  | .integral (.negSucc n) =>
    have hall := all_isDigit_natText (n + 1)
    rw [all_eq_true] at hall
    simp only [print, isNumber]
    simp only [BEq.rfl, Bool.or_true, Bool.true_and, all_eq_true]
    exact fun x hx => by simp [isNumberChar, hall x hx]
  | .floating t => exact t.2
  | .character _ | .chars _ => simp [isNumeric] at h

theorem lexesTo_scalar (q : Quoting) {s : Scalar} (h : s.isNumeric) :
    LexesTo q s.print [.operand s.operand] := by
  have hop : s.operand = .number s.print := by
    cases s with
    | character _ | chars _ => simp [Scalar.isNumeric] at h
    | _ => rfl
  rw [hop]
  exact lexesTo_number q (Scalar.isNumber_print h)

theorem lexesTo_placeholder (q : Quoting) (d : Dialect) :
    LexesTo q d.nextPlaceholder [.operand (.placeholder d.nextPlaceholder)] := by
  intro rest hrest
  unfold Dialect.nextPlaceholder
  cases d.placeholderStyle with
  | question =>
    rw [tokens_word q (by decide) hrest]
    rfl
  | numbered =>
    have hword : ('$' :: Nat.toDigits 10 d.hostVars.length).all isWordChar := by
      have hall := all_isDigit_natText d.hostVars.length
      rw [all_eq_true] at hall
      simp only [all_cons, Bool.and_eq_true, all_eq_true]
      exact ⟨by decide, fun x hx => isWordChar_of_isNumberChar (by simp [isNumberChar, hall x hx])⟩
    rw [tokens_word q hword hrest]
    rfl

theorem lexesTo_string (q : Quoting) {v : Str} (h : '\'' ∉ v) :
    LexesTo q ('\'' :: v ++ ['\'']) [.operand (.string v)] := by
  intro rest hrest
  rw [cons_append, cons_append, append_assoc, singleton_append, tokens_quote,
    Lib.readQuoted_plain (hrest.notHead (by decide)) h]
  rfl

theorem garbles_string (q : Quoting) {v : Str} (h : '\'' ∈ v) :
    Garbles q ('\'' :: v ++ ['\'']) [.string v] := by
  intro rest hrest ts hts
  rw [cons_append, cons_append, append_assoc] at hts
  obtain ⟨⟨b, r⟩, hread, hts⟩ := bind_eq_some_iff.mp hts
  obtain ⟨us, -, rfl⟩ := map_eq_some_iff.mp hts
  rintro ⟨os, hos⟩
  have hb : v = b := by
    have hhead := congrArg head? hos
    simpa [tokenOperands] using hhead
  subst hb
  exact Lib.readQuoted_raw_ne (hrest.notHead (by decide)) h hread

/-! ## The tokens of a comparison -/

theorem tokenOperands_append (ts us : List Token) :
    tokenOperands (ts ++ us) = tokenOperands ts ++ tokenOperands us := by
  simp [tokenOperands]

variable {q : Quoting} {os : List Operand}

theorem garbles_of_map {text text' : Str} (ts : List Token) (hread : ∀ rest, Delimited rest →
      tokens q (text ++ rest) = (tokens q (text' ++ rest)).map (ts ++ ·))
    (h : Garbles q text' os) : Garbles q text (tokenOperands ts ++ os) := by
  intro rest hrest us hus hpre
  rw [hread rest hrest] at hus
  obtain ⟨vs, hvs, rfl⟩ := map_eq_some_iff.mp hus
  rw [tokenOperands_append, prefix_append_right_inj] at hpre
  exact h rest hrest vs hvs hpre

theorem Garbles.append {text : Str} (h : Garbles q text os) (text' : Str)
    (hd : ∀ rest, Delimited rest → Delimited (text' ++ rest)) (os' : List Operand) :
    Garbles q (text ++ text') (os ++ os') := by
  intro rest hrest ts hts hpre
  rw [append_assoc] at hts
  exact h _ (hd rest hrest) ts hts ((prefix_append os os').trans hpre)

theorem tokens_column_left (q : Quoting) (field : Str) (op : Compare) (value rest : Str) :
    tokens q (prepareIdentifier q field ++ ' ' :: op.operands ++ ' ' :: value ++ rest) =
      (tokens q (value ++ rest)).map ([.operand (.column field), .compare op] ++ ·) := by
  rw [append_assoc, append_assoc, cons_append, cons_append,
    tokens_prepareIdentifier q field (delimited_space _), tokens_space, tokens_operands,
    Option.map_map]
  rfl

theorem tokens_column_right (q : Quoting) (op : Compare) (field : Str) {rest : Str}
    (h : Delimited rest) :
    tokens q (' ' :: op.operands ++ ' ' :: prepareIdentifier q field ++ rest) =
      (tokens q rest).map ([.compare op, .operand (.column field)] ++ ·) := by
  rw [append_assoc, cons_append, cons_append, tokens_space, tokens_operands,
    tokens_prepareIdentifier q field h, Option.map_map]
  rfl

theorem lexesTo_column_left {field : Str} {op : Compare} {value : Str} {o : Operand}
    (h : LexesTo q value [.operand o]) :
    LexesTo q (prepareIdentifier q field ++ ' ' :: op.operands ++ ' ' :: value)
      (exprTokens (.atom ⟨.column field, op, o⟩)) := by
  intro rest hrest
  rw [tokens_column_left, h rest hrest, Option.map_map]
  rfl

theorem lexesTo_column_right {field : Str} {op : Compare} {value : Str}
    {o : Operand} (h : LexesTo q value [.operand o]) :
    LexesTo q (value ++ ' ' :: op.operands ++ ' ' :: prepareIdentifier q field)
      (exprTokens (.atom ⟨o, op, .column field⟩)) := by
  intro rest hrest
  rw [append_assoc, append_assoc, h _ (by simp [Delimited]), ← append_assoc,
    tokens_column_right q op field hrest, Option.map_map]
  rfl

theorem ColumnCondition.lexesTo (d : Dialect) (c : ColumnCondition)
    (h : c.literalSafe d.compileType) :
    LexesTo d.quoting (c.evaluate d).1 (exprTokens (.atom (c.comparison d))) := by
  cases c with
  | columnScalar field op value =>
    simp only [evaluate, comparison, valueOperand, Dialect.addHostVar_compileType]
    cases ht : d.compileType with
    | direct =>
      simp only [ht] at h
      exact lexesTo_column_left (lexesTo_scalar _ h)
    | prepared => exact lexesTo_column_left (lexesTo_placeholder _ _)
  | columnString field op value =>
    simp only [evaluate, comparison, valueOperand, Dialect.addHostVar_compileType]
    cases ht : d.compileType with
    | direct =>
      simp only [literalSafe, ht] at h
      exact lexesTo_column_left (lexesTo_string _ (by simpa using h))
    | prepared => exact lexesTo_column_left (lexesTo_placeholder _ _)
  | scalarColumn value op field => exact lexesTo_column_right (lexesTo_scalar _ h)
  | stringColumn value op field =>
      exact lexesTo_column_right (lexesTo_string _ (by simpa [literalSafe] using h))

theorem ColumnCondition.garbles (d : Dialect) (c : ColumnCondition)
    (h : c.literalSafe d.compileType = false)
    (hchar : ∀ x, Operand.character x ∉ (c.comparison d).operands) :
    Garbles d.quoting (c.evaluate d).1 (c.comparison d).operands := by
  have hdir (hne : d.compileType ≠ .prepared) : d.compileType = .direct := by
    cases hd : d.compileType with
    | direct => rfl
    | prepared => exact absurd hd hne
  cases c with
  | columnScalar field op value =>
    simp only [literalSafe, Bool.or_eq_false_iff, beq_eq_false_iff_ne] at h
    have ht := hdir h.1
    cases value with
    | character _ | chars _ =>
      simp [comparison, Comparison.operands, valueOperand, ht, Scalar.operand] at hchar
    | integral _ | floating _ => exact absurd h.2 (by simp [Scalar.isNumeric])
  | columnString field op value =>
    simp only [literalSafe, Bool.or_eq_false_iff, beq_eq_false_iff_ne] at h
    simp only [evaluate, comparison, valueOperand, Dialect.addHostVar_compileType, hdir h.1]
    exact garbles_of_map _ (fun rest _ => tokens_column_left d.quoting field op _ rest)
      (garbles_string d.quoting (by simpa using h.2))
  | scalarColumn value op field =>
    cases value with
    | character _ | chars _ =>
      simp [comparison, Comparison.operands, Scalar.operand] at hchar
    | integral _ | floating _ => exact absurd h (by simp [literalSafe, Scalar.isNumeric])
  | stringColumn value op field =>
    have hg := garbles_string d.quoting (by simpa [literalSafe] using h)
    have hd (rest : Str) : Delimited (' ' :: op.operands ++
        ' ' :: prepareIdentifier d.quoting field ++ rest) := by simp [Delimited]
    have ha := hg.append _ (fun rest _ => hd rest) [.column field]
    rwa [← append_assoc] at ha

/-! ## The tokens of a condition -/

def Connective.token : Connective → Token
  | .or => .or
  | .and => .and

theorem tokens_connective (q : Quoting) (op : Connective) (cs : Str) :
    tokens q (' ' :: op.operands ++ ' ' :: cs) = (tokens q cs).map (op.token :: ·) := by
  cases op with
  | and =>
    have h := tokens_word q (c := 'A') (w := ['N', 'D']) (by decide) (delimited_space cs)
    rwa [tokens_space] at h
  | or =>
    have h := tokens_word q (c := 'O') (w := ['R']) (by decide) (delimited_space cs)
    rwa [tokens_space] at h

theorem tokens_not (q : Quoting) (cs : Str) :
    tokens q ('N' :: 'O' :: 'T' :: ' ' :: cs) = (tokens q cs).map (Token.not :: ·) := by
  have h := tokens_word q (c := 'N') (w := ['O', 'T']) (by decide) (delimited_space cs)
  rwa [tokens_space] at h

theorem tokens_joined (q : Quoting) (op : Connective) {tl : Str} {tsl : List Token}
    (hl : LexesTo q tl tsl) (tr rest : Str) :
    tokens q (tl ++ ' ' :: op.operands ++ ' ' :: tr ++ rest) =
      (tokens q (tr ++ rest)).map (tsl ++ [op.token] ++ ·) := by
  have hcons : ' ' :: tr ++ rest = ' ' :: (tr ++ rest) := rfl
  rw [append_assoc, append_assoc, hcons, hl _ (by simp [Delimited]), tokens_connective,
    Option.map_map]
  congr 1
  funext ts
  simp

theorem LexesTo.joined {tl tr : Str} {tsl tsr : List Token} (hl : LexesTo q tl tsl)
    (op : Connective) (hr : LexesTo q tr tsr) :
    LexesTo q (tl ++ ' ' :: op.operands ++ ' ' :: tr) (tsl ++ op.token :: tsr) := by
  intro rest hrest
  rw [tokens_joined q op hl, hr rest hrest, Option.map_map]
  congr 1
  funext ts
  simp

theorem LexesTo.paren {ts : List Token} (h : LexesTo q t ts) :
    LexesTo q ('(' :: (t ++ [')'])) (.lparen :: (ts ++ [.rparen])) := by
  intro rest _
  rw [cons_append, append_assoc, singleton_append, tokens_lparen,
    h _ (delimited_rparen _), tokens_rparen, Option.map_map, Option.map_map]
  congr 1
  funext us
  simp

theorem Garbles.paren (h : Garbles q t os) : Garbles q ('(' :: (t ++ [')'])) os := by
  have hr := h.append [')'] (fun rest _ => delimited_rparen rest) []
  rw [append_nil] at hr
  exact garbles_of_map [.lparen] (fun rest _ => tokens_lparen q _) hr

theorem Condition.lexesTo (d : Dialect) (c : Condition) (h : c.literalsSafe d.compileType) :
    LexesTo d.quoting (c.evaluate d).1 (exprTokens (c.toExpr d)) := by
  induction c generalizing d with
  | column c => exact c.lexesTo d h
  | logical l r op ihl ihr =>
    simp only [literalsSafe, Bool.and_eq_true] at h
    have hr := ihr (l.evaluate d).2 (by rw [evaluate_compileType]; exact h.2)
    rw [evaluate_quoting] at hr
    have hj := (ihl d h.1).joined op hr
    cases op with
    | and => simpa only [evaluate, toExpr, exprTokens, Connective.token, cons_append] using hj.paren
    | or => exact hj
  | negation c ih =>
    intro rest hrest
    have hp := (ih d h).paren rest hrest
    simp only [evaluate, cons_append] at hp ⊢
    rw [tokens_not, hp, Option.map_map]
    rfl

theorem tokenOperands_exprTokens (e : BoolExpr Comparison) :
    tokenOperands (exprTokens e) = exprOperands e := by
  have h := tokenOperands_of_parse (parse_exprTokens e)
  rwa [exprOperands, BoolExpr.atoms_regroup] at h

theorem Condition.garbles (d : Dialect) (c : Condition) (h : c.literalsSafe d.compileType = false)
    (hchar : ∀ x, Operand.character x ∉ exprOperands (c.toExpr d)) :
    Garbles d.quoting (c.evaluate d).1 (exprOperands (c.toExpr d)) := by
  induction c generalizing d with
  | column c => exact c.garbles d h hchar
  | logical l r op ihl ihr =>
    have hops : exprOperands (toExpr (.logical l r op) d) =
        exprOperands (l.toExpr d) ++ exprOperands (r.toExpr (l.evaluate d).2) := by
      cases op <;> simp [toExpr]
    rw [hops] at hchar ⊢
    have hj :
      Garbles d.quoting ((l.evaluate d).1 ++ ' ' :: op.operands ++ ' ' ::
        (r.evaluate (l.evaluate d).2).1)
        (exprOperands (l.toExpr d) ++ exprOperands (r.toExpr (l.evaluate d).2)) := by
      cases hl : l.literalsSafe d.compileType with
      | false =>
        have hg := ihl d hl fun x hx => hchar x (mem_append_left _ hx)
        rw [append_assoc]
        exact hg.append _ (fun rest _ => by simp [Delimited]) _
      | true =>
        -- the left operand is read, so the right one must be garbled
        have hr : r.literalsSafe (l.evaluate d).2.compileType = false := by
          rw [evaluate_compileType]
          simpa only [literalsSafe, hl, Bool.true_and] using h
        have hg := ihr (l.evaluate d).2 hr fun x hx => hchar x (mem_append_right _ hx)
        rw [evaluate_quoting] at hg
        have hm :=
          garbles_of_map _ (fun rest _ => tokens_joined d.quoting op (l.lexesTo d hl) _ rest) hg
        have hnil : tokenOperands [op.token] = [] := by cases op <;> rfl
        rwa [tokenOperands_append, tokenOperands_exprTokens, hnil, append_nil] at hm
    cases op with
    | and => simpa only [evaluate, cons_append] using hj.paren
    | or => exact hj
  | negation c ih =>
    have hp := (ih d h hchar).paren
    exact garbles_of_map [.not] (fun rest _ => tokens_not d.quoting _) hp

/-! ## The text denotes the condition -/

theorem readCondition_evaluate (d : Dialect) (c : Condition) (h : c.literalsSafe d.compileType) :
    readCondition d.quoting (c.evaluate d).1 = some (c.toExpr d).regroup := by
  have hlex := c.lexesTo d h [] delimited_nil
  rw [append_nil, tokens_nil, map_some, append_nil] at hlex
  rw [readCondition, hlex, bind_some, parse_exprTokens]

theorem literalsSafe_of_readsBack {d : Dialect} {c : Condition} (h : ReadsBack d c) :
    c.literalsSafe d.compileType := by
  obtain ⟨e, hread, hato, -⟩ := h
  obtain ⟨ts, hts, hpar⟩ := bind_eq_some_iff.mp hread
  have hops : tokenOperands ts = exprOperands (c.toExpr d) := by
    rw [tokenOperands_of_parse hpar, exprOperands, hato, exprOperands]
  by_contra hsafe
  rw [Bool.not_eq_true] at hsafe
  refine c.garbles d hsafe (fun x hx => ?_) [] delimited_nil ts (by rwa [append_nil])
    (hops ▸ prefix_rfl)
  rw [← hops] at hx
  obtain ⟨t, ht, htx⟩ := mem_filterMap.mp hx
  refine character_not_mem_tokens hts (?_ : .operand (.character x) ∈ ts)
  cases t with
  | operand o => cases htx; exact ht
  | _ => simp at htx

/-- **The text of a condition denotes the condition exactly when no `operator&&` has an
`operator||` as a direct operand and every value that is written out is a number or a string
without a quote.** -/
theorem evaluate_readsBack_iff (d : Dialect) (c : Condition) :
    ReadsBack d c ↔ c.grouped = true ∧ c.literalsSafe d.compileType = true := by
  constructor
  · intro h
    have hsafe := literalsSafe_of_readsBack h
    obtain ⟨e, hread, hsame⟩ := h
    rw [readCondition_evaluate d c hsafe] at hread
    cases hread
    rw [BoolExpr.sameFunction_regroup_iff, c.grouped_toExpr d] at hsame
    exact ⟨hsame, hsafe⟩
  · rintro ⟨hgro, hsafe⟩
    refine ⟨_, readCondition_evaluate d c hsafe, ?_⟩
    rwa [BoolExpr.sameFunction_regroup_iff, c.grouped_toExpr d]

/-- `(a == 1 || b == 2) && c == 3`. -/
def orBelowAnd : Condition :=
  .opAnd (.opOr (.column (.columnScalar ['a'] .equal (.integral 1)))
      (.column (.columnScalar ['b'] .equal (.integral 2))))
    (.column (.columnScalar ['c'] .equal (.integral 3)))

/-- It is rendered as `("a" = 1 OR "b" = 2 AND "c" = 3)`, which is true of a row with `a = 1`
alone. -/
theorem orBelowAnd_not_readsBack : ¬ ReadsBack (.sqlite .direct) orBelowAnd := by
  rintro ⟨e, hread, -, hden⟩
  have htext : readCondition Quoting.doubleQuotes (orBelowAnd.evaluate (.sqlite .direct)).1 =
      some (.or (.atom ⟨.column ['a'], .equal, .number ['1']⟩)
        (.and (.atom ⟨.column ['b'], .equal, .number ['2']⟩)
          (.atom ⟨.column ['c'], .equal, .number ['3']⟩))) := by decide
  have he := htext.symm.trans hread
  cases he
  exact absurd (hden fun i => i == 0) (by decide)

end Matador.Sql
