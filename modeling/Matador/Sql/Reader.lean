import Matador.Sql.Condition

/-!
# Reading a condition text with SQL precedence

`tokens` splits the text: parentheses, comparison symbols, words, string literals and quoted
identifiers, the last two ending at the first closing quote that is not followed by another one.
`orExpr`, `andExpr` and `notExpr` parse the tokens with the usual precedence, `NOT` binding tighter
than `AND` and `AND` tighter than `OR`. Nothing here is taken from the library.

The lexer gets the length of its text as fuel and the parser three times the number of tokens;
`lex_fuel` and the parsing lemmas show that this is always enough.
-/

namespace Matador.Sql

open List Option

open Lib (BoolExpr readQuoted)

/-- One side of a comparison as SQL sees it. A `character` is the value of a character type or of a
`char *`; the reader has no token for a text without quotes, so it never produces one. -/
inductive Operand
  | column (name : Str)
  | number (text : Str)
  | string (body : Str)
  | placeholder (text : Str)
  | character (text : Str)
  deriving DecidableEq, Repr

structure Comparison where
  lhs : Operand
  op : Compare
  rhs : Operand
  deriving DecidableEq, Repr

inductive Token
  | lparen
  | rparen
  | and
  | or
  | not
  | compare (op : Compare)
  | operand (o : Operand)
  deriving DecidableEq, Repr

/-! ## Tokens -/

def isSymbolChar (c : Char) : Bool := c == '=' || c == '<' || c == '>'

def isWordChar (c : Char) : Bool :=
  c.isAlphanum || c == '_' || c == '.' || c == '+' || c == '-' || c == '$' || c == '?'

def symbolToken (w : Str) : Option Token :=
  if w = ['='] then some (.compare .equal)
  else if w = ['<', '>'] then some (.compare .notEqual)
  else if w = ['<'] then some (.compare .less)
  else if w = ['<', '='] then some (.compare .lessEqual)
  else if w = ['>'] then some (.compare .greater)
  else if w = ['>', '='] then some (.compare .greaterEqual)
  else none

/-- `?` or `$n`. -/
def isPlaceholder (w : Str) : Bool := w.head? == some '?' || w.head? == some '$'

/-- The token of a run of word characters: a keyword, a number, a placeholder, or an unquoted
column name. -/
def wordToken (w : Str) : Token :=
  if w = ['A', 'N', 'D'] then .and
  else if w = ['O', 'R'] then .or
  else if w = ['N', 'O', 'T'] then .not
  else if w = ['L', 'I', 'K', 'E'] then .compare .like
  else if isNumber w then .operand (.number w)
  else if isPlaceholder w then .operand (.placeholder w)
  else .operand (.column w)

def lex (q : Quoting) : Nat → Str → Option (List Token)
  | _, [] => some []
  | 0, _ :: _ => none
  | n + 1, c :: cs =>
    if c = ' ' then lex q n cs
    else if c = '(' then (lex q n cs).map (Token.lparen :: ·)
    else if c = ')' then (lex q n cs).map (Token.rparen :: ·)
    else if c = '\'' then
      (readQuoted '\'' cs).bind fun r => (lex q n r.2).map (Token.operand (.string r.1) :: ·)
    else if c = q.startQuote then
      (readQuoted q.endQuote cs).bind fun r => (lex q n r.2).map (Token.operand (.column r.1) :: ·)
    else if isSymbolChar c then
      (symbolToken (c :: cs.takeWhile isSymbolChar)).bind fun t =>
        (lex q n (cs.dropWhile isSymbolChar)).map (t :: ·)
    else if isWordChar c then
      (lex q n (cs.dropWhile isWordChar)).map (wordToken (c :: cs.takeWhile isWordChar) :: ·)
    else none

def tokens (q : Quoting) (text : Str) : Option (List Token) := lex q text.length text

variable (q : Quoting)

theorem bind_readQuoted_congr {cs : Str} {g h : Str → Option (List Token)}
    (heq : ∀ r, r.length < cs.length → g r = h r) (e : Char) (f : Str → Token) :
    ((readQuoted e cs).bind fun r => (g r.2).map (f r.1 :: ·)) =
      (readQuoted e cs).bind fun r => (h r.2).map (f r.1 :: ·) := by
  cases hr : readQuoted e cs with
  | none => rfl
  | some r => rw [bind_some, bind_some, heq r.2 (Lib.length_lt_of_readQuoted hr)]

theorem lex_fuel {n m : Nat} {cs : Str} (hn : cs.length ≤ n) (hm : cs.length ≤ m) :
    lex q n cs = lex q m cs := by
  induction n generalizing m cs with
  | zero => rw [length_eq_zero_iff.mp (Nat.le_zero.mp hn), lex, lex]
  | succ n ih =>
    cases cs with
    | nil => rw [lex, lex]
    | cons c cs =>
      cases m with
      | zero => simp at hm
      | succ m =>
        simp only [length_cons, Nat.add_le_add_iff_right] at hn hm
        have hdrop (p : Char → Bool) : lex q n (cs.dropWhile p) = lex q m (cs.dropWhile p) :=
          have hle := (dropWhile_sublist p).length_le
          ih (Nat.le_trans hle hn) (Nat.le_trans hle hm)
        have hquo := bind_readQuoted_congr fun r (hr : r.length < cs.length) =>
          (ih (by omega) (by omega) : lex q n r = lex q m r)
        simp only [lex, ih hn hm, hdrop, hquo '\'' fun b => .operand (.string b),
          hquo q.endQuote fun b => .operand (.column b)]

variable (cs : Str)

theorem tokens_cons (c : Char) : tokens q (c :: cs) = if c = ' ' then tokens q cs
      else if c = '(' then (tokens q cs).map (Token.lparen :: ·)
      else if c = ')' then (tokens q cs).map (Token.rparen :: ·)
      else if c = '\'' then
        (readQuoted '\'' cs).bind fun r => (tokens q r.2).map (Token.operand (.string r.1) :: ·)
      else if c = q.startQuote then
        (readQuoted q.endQuote cs).bind fun r =>
        (tokens q r.2).map (Token.operand (.column r.1) :: ·)
      else if isSymbolChar c then
        (symbolToken (c :: cs.takeWhile isSymbolChar)).bind fun t =>
          (tokens q (cs.dropWhile isSymbolChar)).map (t :: ·)
      else if isWordChar c then
        (tokens q (cs.dropWhile isWordChar)).map (wordToken (c :: cs.takeWhile isWordChar) :: ·)
      else none := by
  have hdrop (p : Char → Bool) : lex q cs.length (cs.dropWhile p) = tokens q (cs.dropWhile p) :=
    lex_fuel q (dropWhile_sublist p).length_le (Nat.le_refl _)
  have hquo := bind_readQuoted_congr fun r (hr : r.length < cs.length) =>
    lex_fuel q (Nat.le_of_lt hr) (Nat.le_refl r.length)
  rw [tokens, length_cons, lex]
  simp only [hdrop, hquo '\'' fun b => .operand (.string b), hquo q.endQuote fun b =>
    .operand (.column b)]
  rfl

/-! ## The tokens of the pieces of a text -/

/-- What may follow a word, an identifier or a literal: a blank, a closing parenthesis, or
the end. -/
def Delimited (rest : Str) : Prop := ∀ c ∈ rest.head?, c = ' ' ∨ c = ')'

theorem delimited_nil : Delimited [] := by simp [Delimited]

theorem delimited_space : Delimited (' ' :: cs) := by simp [Delimited]

theorem delimited_rparen : Delimited (')' :: cs) := by simp [Delimited]

variable {rest : Str} {c : Char}

theorem Delimited.notHead (h : Delimited rest) (hc : c ∉ [' ', ')']) : Lib.NotHead c rest := by
  intro hhead
  simp only [mem_cons, not_mem_nil, or_false] at hc
  exact hc (h c hhead)

theorem Quoting.startQuote_ne (hc : c ∉ ['"', '\x60', '[']) : c ≠ q.startQuote :=
  fun h => hc (h ▸ q.opens)

theorem Quoting.notHead_endQuote (h : Delimited rest) : Lib.NotHead q.endQuote rest := by
  refine h.notHead fun hmem => ?_
  have hc := q.closes
  simp only [mem_cons, not_mem_nil, or_false] at hmem hc
  rcases hmem with hm | hm <;> rw [hm] at hc <;> revert hc <;> decide

@[simp] theorem tokens_nil : tokens q [] = some [] := rfl

@[simp] theorem tokens_space : tokens q (' ' :: cs) = tokens q cs := by
  rw [tokens_cons, if_pos rfl]

@[simp] theorem tokens_lparen : tokens q ('(' :: cs) = (tokens q cs).map (Token.lparen :: ·) := by
  simp [tokens_cons]

@[simp] theorem tokens_rparen : tokens q (')' :: cs) = (tokens q cs).map (Token.rparen :: ·) := by
  simp [tokens_cons]

@[simp] theorem tokens_quote : tokens q ('\'' :: cs) = (readQuoted '\'' cs).bind fun r =>
      (tokens q r.2).map (Token.operand (.string r.1) :: ·) := by
  simp [tokens_cons]

theorem tokens_prepareIdentifier (name : Str) (h : Delimited rest) :
    tokens q (prepareIdentifier q name ++ rest) =
      (tokens q rest).map (Token.operand (.column name) :: ·) := by
  have hne (c : Char) (hc : c ∉ ['"', '\x60', '[']) : q.startQuote ≠ c := (q.startQuote_ne hc).symm
  rw [prepareIdentifier_eq, cons_append, append_assoc, singleton_append,
    tokens_cons, if_neg (hne ' ' (by decide)), if_neg (hne '(' (by decide)),
    if_neg (hne ')' (by decide)), if_neg (hne '\'' (by decide)), if_pos rfl,
    Lib.readQuoted_doubled (q.notHead_endQuote h)]
  rfl

theorem takeWhile_append_delimited {p : Char → Bool} {w : Str} (hw : w.all p)
    (hs : p ' ' = false) (hp : p ')' = false) (h : Delimited rest) :
    (w ++ rest).takeWhile p = w ∧ (w ++ rest).dropWhile p = rest := by
  have hall : ∀ c ∈ w, p c := all_eq_true.mp hw
  rw [takeWhile_append_of_pos hall, dropWhile_append_of_pos hall]
  cases rest with
  | nil => simp
  | cons c cs =>
    have hc : p c = false := by
      rcases h c rfl with rfl | rfl
      · exact hs
      · exact hp
    simp [hc]

theorem tokens_word {w : Str} (hw : (c :: w).all isWordChar) (h : Delimited rest) :
    tokens q (c :: w ++ rest) = (tokens q rest).map (wordToken (c :: w) :: ·) := by
  simp only [all_cons, Bool.and_eq_true] at hw
  obtain ⟨hc, hw⟩ := hw
  -- a word character is none of the characters that start another token
  have hne (x : Char) (hx : isWordChar x = false) : c ≠ x := by
    rintro rfl
    rw [hc] at hx
    exact absurd hx (by decide)
  have hsta : c ≠ q.startQuote := by
    refine hne _ ?_
    have ho := q.opens
    simp only [mem_cons, not_mem_nil, or_false] at ho
    rcases ho with ho | ho | ho <;> rw [ho] <;> decide
  have hsym : isSymbolChar c = false := by
    simp [isSymbolChar, hne '=' (by decide), hne '<' (by decide), hne '>' (by decide)]
  obtain ⟨htake, hdrop⟩ := takeWhile_append_delimited hw (by decide) (by decide) h
  rw [cons_append, tokens_cons, if_neg (hne ' ' (by decide)), if_neg (hne '(' (by decide)),
    if_neg (hne ')' (by decide)), if_neg (hne '\'' (by decide)), if_neg hsta, hsym,
    if_neg Bool.noConfusion, if_pos hc, htake, hdrop]

theorem tokens_operands (op : Compare) :
    tokens q (op.operands ++ ' ' :: cs) = (tokens q cs).map (Token.compare op :: ·) := by
  have hne (c : Char) (hc : c ∉ ['"', '\x60', '[']) : c ≠ q.startQuote := q.startQuote_ne hc
  cases op with
  | like =>
    have h := tokens_word q (c := 'L') (w := ['I', 'K', 'E']) (by decide) (delimited_space cs)
    exact h
  | _ =>
    simp [Compare.operands, tokens_cons, hne '=' (by decide), hne '<' (by decide),
      hne '>' (by decide), isSymbolChar, symbolToken]

variable {ts : List Token}

theorem character_not_mem_tokens {q : Quoting} {text value : Str}
    (h : tokens q text = some ts) : Token.operand (.character value) ∉ ts := by
  rw [tokens] at h
  generalize text.length = n at h
  induction n generalizing text ts with
  | zero =>
    cases text with
    | nil => simp only [lex, Option.some.injEq] at h; simp [← h]
    | cons x xs => simp [lex] at h
  | succ n ih =>
    cases text with
    | nil => simp only [lex, Option.some.injEq] at h; simp [← h]
    | cons x xs =>
      rw [lex] at h
      split_ifs at h
      · exact ih h
      iterate 2
        · obtain ⟨us, hus, rfl⟩ := map_eq_some_iff.mp h
          simpa using ih hus
      iterate 2
        · obtain ⟨r, -, h⟩ := bind_eq_some_iff.mp h
          obtain ⟨us, hus, rfl⟩ := map_eq_some_iff.mp h
          simpa using ih hus
      · obtain ⟨t, ht, h⟩ := bind_eq_some_iff.mp h
        obtain ⟨us, hus, rfl⟩ := map_eq_some_iff.mp h
        simp only [symbolToken] at ht
        split_ifs at ht <;> cases ht <;> simpa using ih hus
      · obtain ⟨us, hus, rfl⟩ := map_eq_some_iff.mp h
        simp only [wordToken]
        split_ifs <;> simpa using ih hus

/-! ## Precedence -/

mutual

/-- `and-expression [OR or-expression]` -/
def orExpr : Nat → List Token → Option (BoolExpr Comparison × List Token)
  | 0, _ => none
  | n + 1, ts =>
    match andExpr n ts with
    | some (l, .or :: ts) => (orExpr n ts).map fun r => (.or l r.1, r.2)
    | r => r

/-- `not-expression [AND and-expression]` -/
def andExpr : Nat → List Token → Option (BoolExpr Comparison × List Token)
  | 0, _ => none
  | n + 1, ts =>
    match notExpr n ts with
    | some (l, .and :: ts) => (andExpr n ts).map fun r => (.and l r.1, r.2)
    | r => r

/-- `NOT not-expression`, a parenthesised expression, or a comparison. -/
def notExpr : Nat → List Token → Option (BoolExpr Comparison × List Token)
  | n + 1, .not :: ts => (notExpr n ts).map fun r => (.not r.1, r.2)
  | n + 1, .lparen :: ts =>
    match orExpr n ts with
    | some (e, .rparen :: ts) => some (e, ts)
    | _ => none
  | _ + 1, .operand a :: .compare op :: .operand b :: ts => some (.atom ⟨a, op, b⟩, ts)
  | _, _ => none

end

def parse (ts : List Token) : Option (BoolExpr Comparison) :=
  match orExpr (3 * ts.length + 2) ts with
  | some (e, []) => some e
  | _ => none

/-! ## Parsing the tokens of an expression -/

/-- The tokens of an expression in which every `AND` and every operand of `NOT` has parentheses
and no other expression has. -/
def exprTokens : BoolExpr Comparison → List Token
  | .atom ⟨a, op, b⟩ => [.operand a, .compare op, .operand b]
  | .and l r => .lparen :: exprTokens l ++ .and :: exprTokens r ++ [.rparen]
  | .or l r => exprTokens l ++ .or :: exprTokens r
  | .not e => .not :: .lparen :: exprTokens e ++ [.rparen]

/-- `ts` is a not-expression that is read as `e`, whatever follows it. -/
def FactorOf (ts : List Token) (e : BoolExpr Comparison) : Prop :=
  ∀ rest n, 3 * ts.length ≤ n → notExpr n (ts ++ rest) = some (e, rest)

/-- `ts` is an and-expression that is read as `e` unless an `AND` follows it. -/
def TermOf (ts : List Token) (e : BoolExpr Comparison) : Prop :=
  ∀ rest n, 3 * ts.length + 1 ≤ n → rest.head? ≠ some .and → andExpr n (ts ++ rest) = some (e, rest)

/-- `ts` consists of pieces joined by `OR`, each with its expression. -/
inductive Joined (P : List Token → BoolExpr Comparison → Prop) :
    List Token → BoolExpr Comparison → List (BoolExpr Comparison) → Prop
  | single {ts e} : P ts e → Joined P ts e []
  | cons {ts e ts' e' es} : P ts e → Joined P ts' e' es → Joined P (ts ++ .or :: ts') e (e' :: es)

variable {e : BoolExpr Comparison}

theorem FactorOf.termOf (h : FactorOf ts e) :
    TermOf ts e := by
  intro rest n hn hrest
  obtain ⟨n, rfl⟩ : ∃ m, n = m + 1 := ⟨n - 1, by omega⟩
  rw [andExpr, h rest n (by omega)]
  cases rest with
  | nil => rfl
  | cons t ts =>
    cases t with
    | and => simp at hrest
    | _ => rfl

variable {us : List Token} {f : BoolExpr Comparison}

theorem FactorOf.and (he : FactorOf ts e) (hf : FactorOf us f) :
    TermOf (ts ++ .and :: us) (.and e f) := by
  intro rest n hn hrest
  simp only [length_append, length_cons] at hn
  obtain ⟨n, rfl⟩ : ∃ m, n = m + 1 := ⟨n - 1, by omega⟩
  rw [append_assoc, cons_append, andExpr, he _ n (by omega)]
  simp only [hf.termOf rest n (by omega) hrest, map_some]

variable {es : List (BoolExpr Comparison)}

theorem Joined.mono {P Q : List Token → BoolExpr Comparison → Prop}
    (hPQ : ∀ {ts e}, P ts e → Q ts e) (h : Joined P ts e es) : Joined Q ts e es := by
  induction h with
  | single h => exact .single (hPQ h)
  | cons h _ ih => exact .cons (hPQ h) ih

theorem Joined.or {P : List Token → BoolExpr Comparison → Prop} {fs : List (BoolExpr Comparison)}
    (he : Joined P ts e es) (hf : Joined P us f fs) :
    Joined P (ts ++ .or :: us) e (es ++ f :: fs) := by
  induction he with
  | single h => exact .cons h hf
  | cons h _ ih =>
    rw [append_assoc]
    exact .cons h ih

theorem Joined.and {fs : List (BoolExpr Comparison)} (he : Joined FactorOf ts e es)
    (hf : Joined FactorOf us f fs) :
    Joined TermOf (ts ++ .and :: us) (BoolExpr.joinAnd e es f fs).1
      (BoolExpr.joinAnd e es f fs).2 := by
  induction he with
  | single h =>
    cases hf with
    | single h' => exact .single (h.and h')
    | cons h' hrest =>
      rw [← cons_append, ← append_assoc]
      exact .cons (h.and h') (hrest.mono FactorOf.termOf)
  | cons h _ ih =>
    rw [append_assoc]
    exact .cons h.termOf ih

theorem orExpr_joined (h : Joined TermOf ts e es) :
    ∀ rest n, 3 * ts.length + 2 ≤ n → rest.head? ≠ some .and → rest.head? ≠ some .or →
      orExpr n (ts ++ rest) = some (BoolExpr.orChain e es, rest) := by
  induction h with
  | single h =>
    intro rest n hn hand hor
    obtain ⟨n, rfl⟩ : ∃ m, n = m + 1 := ⟨n - 1, by omega⟩
    rw [orExpr, h rest n (by omega) hand]
    cases rest with
    | nil => rfl
    | cons t ts =>
      cases t with
      | or => simp at hor
      | _ => rfl
  | cons h _ ih =>
    intro rest n hn hand hor
    simp only [length_append, length_cons] at hn
    obtain ⟨n, rfl⟩ : ∃ m, n = m + 1 := ⟨n - 1, by omega⟩
    rw [append_assoc, cons_append, orExpr, h _ n (by omega) (by simp)]
    simp only [ih rest n (by omega) hand hor]
    rfl

theorem Joined.paren (h : Joined TermOf ts e es) :
    FactorOf (.lparen :: ts ++ [.rparen]) (BoolExpr.orChain e es) := by
  intro rest n hn
  simp only [length_append, length_cons] at hn
  obtain ⟨n, rfl⟩ : ∃ m, n = m + 1 := ⟨n - 1, by omega⟩
  rw [cons_append, cons_append, append_assoc, singleton_append, notExpr,
    orExpr_joined h _ n (by omega) (by simp) (by simp)]

theorem joined_exprTokens (e : BoolExpr Comparison) :
    Joined FactorOf (exprTokens e) e.disjuncts.1 e.disjuncts.2 := by
  induction e with
  | atom c =>
    refine .single fun rest n hn => ?_
    simp only [exprTokens, length_cons] at hn
    obtain ⟨n, rfl⟩ : ∃ m, n = m + 1 := ⟨n - 1, by omega⟩
    rfl
  | and l r ihl ihr =>
    refine .single ?_
    rw [exprTokens, cons_append, cons_append, append_assoc]
    have h := (ihl.and ihr).paren
    rwa [cons_append, append_assoc] at h
  | or l r ihl ihr => exact ihl.or ihr
  | not e ih =>
    refine .single fun rest n hn => ?_
    simp only [exprTokens, length_append, length_cons] at hn
    obtain ⟨n, rfl⟩ : ∃ m, n = m + 1 := ⟨n - 1, by omega⟩
    have h :=
      (ih.mono FactorOf.termOf).paren rest n (by simp only [length_append, length_cons]; omega)
    rw [exprTokens, cons_append, cons_append, notExpr, h]
    rfl

/-- **The parser reads the tokens of `e` as `e` regrouped by precedence.** -/
theorem parse_exprTokens (e : BoolExpr Comparison) : parse (exprTokens e) = some e.regroup := by
  have h := orExpr_joined ((joined_exprTokens e).mono FactorOf.termOf) []
    (3 * (exprTokens e).length + 2) (Nat.le_refl _) (by simp) (by simp)
  rw [append_nil] at h
  rw [parse, h]
  rfl

/-! ## What is read stands in the text -/

def Comparison.operands (c : Comparison) : List Operand := [c.lhs, c.rhs]

/-- The operands of the comparisons of an expression from left to right. -/
def exprOperands (e : BoolExpr Comparison) : List Operand := e.atoms.flatMap Comparison.operands

def tokenOperands (ts : List Token) : List Operand :=
  ts.filterMap fun t => match t with
    | .operand o => some o
    | _ => none

@[simp] theorem exprOperands_and (l r : BoolExpr Comparison) :
    exprOperands (.and l r) = exprOperands l ++ exprOperands r := by
  simp [exprOperands, BoolExpr.atoms]

@[simp] theorem exprOperands_or (l r : BoolExpr Comparison) :
    exprOperands (.or l r) = exprOperands l ++ exprOperands r := by
  simp [exprOperands, BoolExpr.atoms]

@[simp] theorem exprOperands_not (e : BoolExpr Comparison) :
    exprOperands (.not e) = exprOperands e := rfl

theorem operands_of_expr (n : Nat) : (∀ {ts rest e}, orExpr n ts = some (e, rest) →
      tokenOperands ts = exprOperands e ++ tokenOperands rest) ∧
    (∀ {ts rest e}, andExpr n ts = some (e, rest) →
      tokenOperands ts = exprOperands e ++ tokenOperands rest) ∧
    (∀ {ts rest e}, notExpr n ts = some (e, rest) →
      tokenOperands ts = exprOperands e ++ tokenOperands rest) := by
  induction n with
  | zero => refine ⟨?_, ?_, ?_⟩ <;> intro ts rest e h <;> simp [orExpr, andExpr, notExpr] at h
  | succ n ih =>
    obtain ⟨ihor, ihand, ihnot⟩ := ih
    refine ⟨?_, ?_, ?_⟩
    · intro ts rest e h
      rw [orExpr] at h
      split at h
      · next l us hl =>
        obtain ⟨⟨r, rest'⟩, hr, heq⟩ := map_eq_some_iff.mp h
        obtain ⟨rfl, rfl⟩ := Prod.mk.inj heq
        have hor := ihor hr
        rw [ihand hl, exprOperands_or, append_assoc, ← hor]
        rfl
      · exact ihand h
    · intro ts rest e h
      rw [andExpr] at h
      split at h
      · next l us hl =>
        obtain ⟨⟨r, rest'⟩, hr, heq⟩ := map_eq_some_iff.mp h
        obtain ⟨rfl, rfl⟩ := Prod.mk.inj heq
        have hand := ihand hr
        rw [ihnot hl, exprOperands_and, append_assoc, ← hand]
        rfl
      · exact ihnot h
    · intro ts rest e h
      unfold notExpr at h
      split at h
      · next m us hm =>
        cases hm
        obtain ⟨⟨r, rest'⟩, hr, heq⟩ := map_eq_some_iff.mp h
        obtain ⟨rfl, rfl⟩ := Prod.mk.inj heq
        rw [exprOperands_not, ← ihnot hr]
        rfl
      · next m us hm =>
        cases hm
        split at h
        · next e' us' he =>
          obtain ⟨rfl, rfl⟩ := Prod.mk.inj (some.inj h)
          exact (ihor he : tokenOperands us = _)
        · exact absurd h (by simp)
      · obtain ⟨rfl, rfl⟩ := Prod.mk.inj (some.inj h)
        rfl
      · exact absurd h (by simp)

theorem tokenOperands_of_parse (h : parse ts = some e) : tokenOperands ts = exprOperands e := by
  rw [parse] at h
  split at h
  · next e' hor =>
    cases h
    simpa [tokenOperands] using (operands_of_expr _).1 hor
  · exact absurd h (by simp)

def readCondition (q : Quoting) (text : Str) : Option (BoolExpr Comparison) :=
  (tokens q text).bind parse

end Matador.Sql
