import Matador.Sql.Rebuild

/-!
# Placeholders of PostgreSQL

`next_placeholder` of PostgreSQL is `$` and the number of host variables recorded so far. The
placeholders are `$1`, `$2`, … if each host variable is recorded right before its placeholder is
asked for. Values and comparisons do so; an `IN` list records all its host variables before the
first placeholder, and a `BETWEEN` records two before it asks twice.
-/

namespace Matador.Sql

open List Lib

/-! ## Numbered placeholders -/

def placeholdersFrom (k n : Nat) : List Str := (range' (k + 1) n).map fun i => '$' :: natText i

@[simp] theorem length_placeholdersFrom (k n : Nat) : (placeholdersFrom k n).length = n := by
  simp [placeholdersFrom]

theorem placeholdersFrom_add (k m n : Nat) :
    placeholdersFrom k (m + n) = placeholdersFrom k m ++ placeholdersFrom (k + m) n := by
  rw [placeholdersFrom, placeholdersFrom, placeholdersFrom, ← map_append,
    show k + m + 1 = k + 1 + m by omega, range'_append_1]

/-- The same placeholder again and again is in order only if it stands at most once. -/
theorem replicate_eq_placeholdersFrom (k n : Nat) :
    replicate n ('$' :: natText (k + n)) = placeholdersFrom k n ↔ n ≤ 1 := by
  match n with
  | 0 | 1 => simp [placeholdersFrom]
  | n + 2 =>
    refine iff_of_false (fun h => ?_) (by omega)
    have := natText_injective (cons.inj (cons.inj h).1).2
    omega

structure Dialect.Numbers (d : Dialect) : Prop where
  compileType : d.compileType = .prepared
  style : d.placeholderStyle = .numbered

/-- From `d` a piece of a statement is rendered to `r`: the placeholders are as many as the host
variables, and they are in order exactly if `ok`. -/
structure Renders (ok : Bool) (d : Dialect) (r : List Part × Dialect) : Prop where
  numbers : r.2.Numbers
  count : r.2.hostVars.length = d.hostVars.length + (placeholdersOf r.1).length
  numbered : placeholdersOf r.1 = placeholdersFrom d.hostVars.length (placeholdersOf r.1).length ↔
    ok = true

namespace Renders

variable {ok ok' : Bool} {d : Dialect} {r r' : List Part × Dialect}

theorem congr (h : Renders ok d r) (hp : placeholdersOf r'.1 = placeholdersOf r.1)
    (hd : r'.2 = r.2) : Renders ok d r' :=
  ⟨hd ▸ h.numbers, by rw [hp, hd]; exact h.count, by rw [hp]; exact h.numbered⟩

theorem sql (hd : d.Numbers) {ps : List Part} (hp : placeholdersOf ps = []) :
    Renders true d (ps, d) := by
  refine ⟨hd, ?_, ?_⟩ <;> simp [hp, placeholdersFrom]

theorem hostVar (hd : d.Numbers) (v : Str) {ps : List Part}
    (hp : placeholdersOf ps = [(d.addHostVar v).nextPlaceholder]) :
    Renders true d (ps, d.addHostVar v) := by
  have hnext : (d.addHostVar v).nextPlaceholder = '$' :: natText (d.hostVars.length + 1) := by
    have hsty : (d.addHostVar v).placeholderStyle = .numbered := hd.style
    rw [Dialect.nextPlaceholder, hsty]
    simp [Dialect.addHostVar, natText]
  refine ⟨⟨hd.compileType, hd.style⟩, ?_, ?_⟩
  · simp [hp, Dialect.addHostVar]
  · simp [hp, hnext, placeholdersFrom]

theorem append (h : Renders ok d r) (h' : Renders ok' r.2 r') :
    Renders (ok && ok') d (r.1 ++ r'.1, r'.2) := by
  refine ⟨h'.numbers, ?_, ?_⟩
  · rw [h'.count, h.count, placeholdersOf_append, length_append, Nat.add_assoc]
  · have hspl : placeholdersOf r.1 ++ placeholdersOf r'.1 =
        placeholdersFrom d.hostVars.length (placeholdersOf r.1).length ++
          placeholdersFrom r.2.hostVars.length (placeholdersOf r'.1).length ↔
        placeholdersOf r.1 = placeholdersFrom d.hostVars.length (placeholdersOf r.1).length ∧
          placeholdersOf r'.1 = placeholdersFrom r.2.hostVars.length (placeholdersOf r'.1).length :=
      ⟨fun he => append_inj he (by rw [length_placeholdersFrom]), fun he => by rw [← he.1, ← he.2]⟩
    rw [placeholdersOf_append, length_append, placeholdersFrom_add, ← h.count, hspl,
      h.numbered, h'.numbered, Bool.and_eq_true]

theorem surround (h : Renders ok d r) (ps qs : List Part) (hps : placeholdersOf ps = [])
    (hqs : placeholdersOf qs = []) : Renders ok d (ps ++ r.1 ++ qs, r.2) :=
  h.congr (by simp [hps, hqs]) rfl

end Renders

/-! ## Values and clauses -/

section Link

variable {d : Dialect} (db : Database)

theorem renders_visitValue (hd : d.Numbers) (val : Value) : Renders true d (visitValue d val) := by
  rw [visitValue, hd.compileType]
  exact .hostVar hd _ rfl

theorem renders_visitColumn (hd : d.Numbers) (col : Column) :
    Renders true d (visitColumn db d col) := by
  rw [visitColumn]
  cases col.withValue with
  | none => exact .sql hd rfl
  | some val => exact (renders_visitValue hd val).congr (placeholdersOf_sql ..) rfl

theorem renders_visitJoined {α : Type} {visit : Dialect → α → List Part × Dialect}
    (hvis : ∀ {d : Dialect}, d.Numbers → ∀ x, Renders true d (visit d x)) (hd : d.Numbers)
    (xs : List α) : Renders true d (visitJoined visit xs d) := by
  fun_induction visitJoined visit xs d with
  | case1 d => exact .sql hd rfl
  | case2 x d => exact hvis hd x
  | case3 x y xs d v w ih =>
    have hv := hvis hd x
    have hw := ih hv.numbers
    exact (hv.append hw).congr (by simp [v, w]) rfl

theorem placeholdersOf_linkTop (limit : Nat) : placeholdersOf (linkTop db limit) = [] := by
  unfold linkTop
  split <;> rfl

theorem placeholdersOf_command (d : Dialect) (c : Command) : placeholdersOf (c.link db d) = [] := by
  cases c <;> rfl

theorem Clause.renders (hd : d.Numbers) (c : Clause) : Renders true d (c.link db d) := by
  cases c with
  | values vs =>
    exact (renders_visitJoined renders_visitValue hd vs).surround
      [.sql (db.tokenAt .values ++ [' ', '('])] [.sql [')', ' ']] rfl rfl
  | value val => exact renders_visitValue hd val
  | columns withBrackets cols =>
    have hcols := renders_visitJoined (renders_visitColumn db) hd cols
    cases withBrackets with
    | true => exact hcols.surround [.sql ['(']] [.sql [')'], .sql [' ']] rfl rfl
    | false => exact hcols.surround [] [.sql [' ']] rfl rfl
  | column col => exact renders_visitColumn db hd col
  | top limit => exact .sql hd (placeholdersOf_linkTop db limit)
  | «from» t =>
    refine .sql hd ?_
    split <;> rfl
  | _ => exact .sql hd rfl

end Link

/-! ## Conditions -/

section Conditions

variable {d : Dialect}

theorem ColumnCondition.renders (hd : d.Numbers) (c : ColumnCondition) :
    Renders true d (c.parts d) := by
  cases c with
  | columnScalar field _ _ | columnString field _ _ =>
    have hpre : (d.addHostVar field).compileType = .prepared := hd.compileType
    simp only [parts, hpre]
    exact .hostVar hd field rfl
  | scalarColumn value operand field => exact .sql hd rfl
  | stringColumn value operand field => exact .sql hd rfl

theorem foldl_addHostVar {α : Type} (args : List α) (field : Str) (d : Dialect) :
    args.foldl (fun d _ => d.addHostVar field) d =
      { d with hostVars := d.hostVars ++ replicate args.length field } := by
  induction args generalizing d with
  | nil => simp
  | cons arg args ih =>
    rw [foldl_cons, ih]
    simp [Dialect.addHostVar, replicate_succ]

theorem placeholdersOf_writeArgs (hd : d.Numbers) (args : List Streamed) :
    placeholdersOf (writeArgs d args) = replicate args.length d.nextPlaceholder := by
  match args with
  | [] => rfl
  | [arg] =>
    rw [writeArgs, hd.compileType]
    rfl
  | arg :: arg' :: args =>
    rw [writeArgs, hd.compileType, placeholdersOf_append,
      placeholdersOf_writeArgs hd (arg' :: args)]
    rfl

theorem renders_evaluateInList (db : Database) (hd : d.Numbers) (field : Str)
    (args : List Streamed) :
    Renders (decide (args.length ≤ 1)) d (evaluateInList field args db d) := by
  rw [evaluateInList, foldl_addHostVar]
  generalize hd' : ({ d with hostVars := d.hostVars ++ replicate args.length field } : Dialect) = d'
  have hnum : d'.Numbers := hd' ▸ ⟨hd.compileType, hd.style⟩
  have hlen : d'.hostVars.length = d.hostVars.length + args.length := by
    rw [← hd', length_append, length_replicate]
  have hargs := placeholdersOf_writeArgs hnum args
  have hpts :
    placeholdersOf (.sql (prepareIdentifier d'.quoting field ++ [' ', 'I', 'N', ' ', '(']) ::
      writeArgs d' args ++ [.sql [')']]) = replicate args.length d'.nextPlaceholder := by
    simp [hargs]
  have hnext : d'.nextPlaceholder = '$' :: natText (d.hostVars.length + args.length) := by
    rw [Dialect.nextPlaceholder, hnum.style, hlen]
    rfl
  refine ⟨hnum, ?_, ?_⟩
  · show d'.hostVars.length = _
    rw [hpts, hlen, length_replicate]
  · rw [hpts, length_replicate, hnext, replicate_eq_placeholdersFrom, decide_eq_true_iff]

theorem renders_evaluateBetween (db : Database) (hd : d.Numbers) (field : Str)
    (low high : Streamed) : Renders false d (evaluateBetween field low high db d) := by
  have hpre : ((d.addHostVar field).addHostVar field).compileType = .prepared := hd.compileType
  have hsty : ((d.addHostVar field).addHostVar field).placeholderStyle = .numbered := hd.style
  simp only [evaluateBetween, hpre]
  have hnext : ((d.addHostVar field).addHostVar field).nextPlaceholder =
      '$' :: natText (d.hostVars.length + 2) := by
    rw [Dialect.nextPlaceholder, hsty]
    simp [Dialect.addHostVar, natText]
  refine ⟨⟨hpre, hsty⟩, ?_, ?_⟩
  · simp [Dialect.addHostVar]
  · have htwi := replicate_eq_placeholdersFrom d.hostVars.length 2
    simpa [hnext] using htwi

end Conditions

/-! ## Statements -/

mutual

def Cond.sequential : Cond → Bool
  | .column _ => true
  | .inList _ args => decide (args.length ≤ 1)
  | .query _ _ select => select.sequential
  | .between _ _ _ => false
  | .logical left right _ => left.sequential && right.sequential
  | .negation cond => cond.sequential

/-- No range and no list of two or more arguments in the conditions and sub-selects. -/
def Clauses.sequential : Clauses → Bool
  | .nil => true
  | .clause _ rest => rest.sequential
  | .where cond rest => cond.sequential && rest.sequential
  | .query select rest => select.sequential && rest.sequential

end

section Statements

variable {db : Database}

theorem renders_continueBuild (hc : db.compiler ≠ .mssql) {select : Clauses}
    {d : Dialect} {ok : Bool} (h : Renders ok d (linkTokens db select.tokens d)) :
    Renders ok d (continueBuild select.tokens db d) := by
  rw [continueBuild_eq_link hc]
  exact h.surround (db.keyword .select) [] rfl rfl |>.congr (by simp [linkTokens]; rfl) rfl

mutual

theorem Cond.renders (hc : db.compiler ≠ .mssql) (c : Cond) {d : Dialect} (hd : d.Numbers) :
    Renders c.sequential d (c.evaluate db d) := by
  match c with
  | .column c => exact c.renders hd
  | .inList field args => exact renders_evaluateInList db hd field args
  | .query field operand select =>
    have hsel := renders_continueBuild hc (select.renders hc hd)
    exact hsel.surround [_] [_] rfl rfl
  | .between field low high => exact renders_evaluateBetween db hd field low high
  | .logical left right operand =>
    have hl := left.renders hc hd
    have hr := right.renders hc hl.numbers
    cases operand with
    | and | or => exact (hl.append hr).congr (by simp [Cond.evaluate]) rfl
  | .negation cond => exact (cond.renders hc hd).surround [_] [_] rfl rfl

theorem Clauses.renders (hc : db.compiler ≠ .mssql) (cs : Clauses) {d : Dialect} (hd : d.Numbers) :
    Renders cs.sequential d (linkTokens db cs.tokens d) := by
  match cs with
  | .nil => exact .sql hd rfl
  | .clause c rest =>
    have hcla := c.renders db hd
    exact hcla.append (rest.renders hc hcla.numbers)
  | .where cond rest =>
    have hcond : Renders cond.sequential d ((SqlToken.where cond.evaluate).link db d) :=
      (cond.renders hc hd).surround [_] [_] rfl rfl
    exact hcond.append (rest.renders hc hcond.numbers)
  | .query select rest =>
    have hsel :
        Renders select.sequential d ((SqlToken.query (continueBuild select.tokens)).link db d) :=
      (renders_continueBuild hc (select.renders hc hd)).surround [_] [_] rfl rfl
    exact hsel.append (rest.renders hc hsel.numbers)

end

theorem Query.renders (hc : db.compiler ≠ .mssql) (q : Query) {d : Dialect} (hd : d.Numbers) :
    Renders q.clauses.sequential d (linkTokens db q.sql d) :=
  (q.clauses.renders hc hd).congr
    (by simp [Query.sql, linkTokens, SqlToken.link, placeholdersOf_command]) rfl

end Statements

/-! ## Compiling for PostgreSQL -/

/-- The tokens are linked to the same placeholders and host variables. -/
def SamePlaceholders (db : Database) (ts us : List SqlToken) : Prop :=
  ∀ d, placeholdersOf (linkTokens db ts d).1 = placeholdersOf (linkTokens db us d).1 ∧
    (linkTokens db ts d).2 = (linkTokens db us d).2

section Compile

variable {db : Database} {row : RowId} {flags : Flags} {sql : List SqlToken}

theorem SamePlaceholders.append {ts ts' us us' : List SqlToken} (h : SamePlaceholders db ts us)
    (h' : SamePlaceholders db ts' us') : SamePlaceholders db (ts ++ ts') (us ++ us') := by
  intro d
  simp only [linkTokens_append, placeholdersOf_append]
  rw [(h d).1, (h d).2, (h' _).1, (h' _).2]
  exact ⟨rfl, rfl⟩

theorem SamePlaceholders.refl (ts : List SqlToken) : SamePlaceholders db ts ts :=
  fun _ => ⟨rfl, rfl⟩

theorem samePlaceholders_rowIdCondition (table : Str) (cond : Evaluate) (limit : Nat) :
    SamePlaceholders db [.where (rowIdCondition row table cond limit)] [.where cond] := by
  intro d
  have hfrom : placeholdersOf ((Clause.from table).link db d).1 = [] := by
    show placeholdersOf (if table.isEmpty then _ else _) = []
    split <;> rfl
  have hkey (k : Keyword) : placeholdersOf (db.keyword k) = [] := rfl
  simp only [linkTokens, SqlToken.link, rowIdCondition, linkTokens_rowIdSelect,
    placeholdersOf_append, placeholdersOf_sql, hkey, hfrom, placeholdersOf_linkTop]
  simp

theorem samePlaceholders_top (limit : Nat) : SamePlaceholders db [.clause (.top limit)] [] := by
  intro d
  have htop := placeholdersOf_linkTop db limit
  simpa [linkTokens, SqlToken.link, Clause.link] using htop

theorem Rewrite.samePlaceholders {ts us : List SqlToken} (h : Rewrite row ts us) :
    SamePlaceholders db us ts := by
  obtain ⟨ts₁, ts₂, ts₃, table, cond, limit⟩ := h
  have htop : SamePlaceholders db ts₃ (.clause (.top limit) :: ts₃) := fun d => by
    have hera : SamePlaceholders db ([.clause (.top limit)] ++ ts₃) ([] ++ ts₃) :=
      (samePlaceholders_top limit).append (.refl ts₃)
    exact ⟨(hera d).1.symm, (hera d).2.symm⟩
  exact (SamePlaceholders.refl ts₁).append
    ((samePlaceholders_rowIdCondition table cond limit).append
      ((SamePlaceholders.refl ts₂).append htop))

theorem samePlaceholders_of_compile (hrow : db.rowId? = some row) {s : CompileState}
    (h : compile db flags sql = some s) : SamePlaceholders db s.result sql := by
  have hinv : CompileState.Visited db flags sql sql.length s ∧
      SamePlaceholders db (s.copied sql.length sql.length) sql := by
    refine foldlM_range_invariant (fun k s => CompileState.Visited db flags sql k s ∧
      SamePlaceholders db (s.copied k sql.length) sql) h ⟨CompileState.visited_start db flags sql,
        ?_⟩ ?_
    · rw [CompileState.copied_start]
      exact .refl sql
    · rintro k s s' hk ⟨hv, hsame⟩ hs
      refine ⟨hv.step hrow hk hs, ?_⟩
      have ht : s.sql[k]? = some _ := getElem?_eq_getElem (hv.length_sql.symm ▸ hk)
      rw [CompileState.visit_of_rowId hrow ht] at hs
      rcases hv.copied_step hk ht hs with ⟨-, hcop⟩ | ⟨-, hrew⟩
      · rw [hcop]
        exact hsame
      · exact fun d => ⟨(hrew.samePlaceholders d).1.trans (hsame d).1,
          (hrew.samePlaceholders d).2.trans (hsame d).2⟩
  rw [← s.copied_end sql.length]
  exact hinv.2

end Compile

/-! ## Where compiling is defined -/

/-- Each limit of an update or a delete stands behind a `where`; `seen` says that one has been
found. -/
def limitsFollowWhere : Flags → Bool → List SqlToken → Bool
  | _, _, [] => true
  | f, seen, t :: ts =>
      (!(t.isTop && f.on) || seen) && limitsFollowWhere (t.flags f) (seen || t.isWhere && f.on) ts

namespace CompileState

variable {db : Database} {row : RowId} {flags : Flags} {sql : List SqlToken} {s s' : CompileState}

theorem visitLimited_isSome {i : Nat} {t : SqlToken} (h : s.visitLimited row i t = some s') :
    s'.whereToken.isSome = (s.whereToken.isSome || t.isWhere && s.flags.on) ∧
    s'.flags = t.flags s.flags := by
  cases htop : t.isTop && s.flags.on with
  | false =>
    cases t with
    | «where» c =>
      simp only [visitLimited] at h
      split at h
      · next hon =>
        cases h
        simp [SqlToken.isWhere, Flags.on, hon, SqlToken.flags, keep]
      · next hoff =>
        cases h
        have hoff' : s.flags.on = false := Bool.eq_false_iff.mpr hoff
        simp [hoff', SqlToken.flags, keep]
    | clause c =>
      cases c with
      | top limit =>
        have hoff : (s.flags.isUpdate || s.flags.isDelete) = false := by
          simpa [SqlToken.isTop, Flags.on] using htop
        simp only [visitLimited, hoff] at h
        cases h
        exact ⟨(Bool.or_false _).symm, rfl⟩
      | _ =>
        cases h
        exact ⟨(Bool.or_false _).symm, rfl⟩
    | command c =>
      cases c <;> cases h <;> exact ⟨(Bool.or_false _).symm, rfl⟩
    | _ =>
      cases h
      exact ⟨(Bool.or_false _).symm, rfl⟩
  | true =>
    obtain ⟨limit, w, cond, rfl, hw, -, rfl⟩ := visitLimited_top h htop
    exact ⟨by simp [SqlToken.isWhere], rfl⟩

theorem visitLimited_defined {i : Nat} {t : SqlToken} (h : s.visitLimited row i t = some s') :
    (!(t.isTop && s.flags.on) || s.whereToken.isSome) := by
  cases htop : t.isTop && s.flags.on with
  | false => rfl
  | true =>
    obtain ⟨limit, w, cond, -, hw, -⟩ := visitLimited_top h htop
    rw [hw]
    rfl

theorem Visited.limitsFollowWhere_drop {k : Nat} {t : SqlToken} (h : Visited db flags sql k s)
    (hk : k < sql.length) (ht : s.sql[k]? = some t) (f : Flags) (seen : Bool) :
    limitsFollowWhere f seen (sql.drop k) = ((!(t.isTop && f.on) || seen) &&
      limitsFollowWhere (t.flags f) (seen || t.isWhere && f.on) (sql.drop (k + 1))) := by
  have hshp := h.shape_getElem hk ht
  rw [drop_eq_getElem_cons hk, limitsFollowWhere, ← sql[k].isTop_shape, ← sql[k].flags_shape,
    ← sql[k].isWhere_shape, ← hshp, t.isTop_shape, t.flags_shape, t.isWhere_shape]

theorem Visited.limitsFollowWhere_step {k : Nat} (hrow : db.rowId? = some row) (hk : k < sql.length)
    (h : Visited db flags sql k s) (hs : s.visit db k = some s') :
    limitsFollowWhere s.flags s.whereToken.isSome (sql.drop k) =
      limitsFollowWhere s'.flags s'.whereToken.isSome (sql.drop (k + 1)) := by
  have ht : s.sql[k]? = some _ := getElem?_eq_getElem (h.length_sql.symm ▸ hk)
  rw [visit_of_rowId hrow ht] at hs
  obtain ⟨hwhe, hfla⟩ := visitLimited_isSome hs
  have hdef := visitLimited_defined hs
  rw [h.limitsFollowWhere_drop hk ht, hdef, hwhe, hfla, Bool.true_and]

theorem Visited.exists_visit {k : Nat} (hrow : db.rowId? = some row) (hk : k < sql.length)
    (h : Visited db flags sql k s)
    (hlim : limitsFollowWhere s.flags s.whereToken.isSome (sql.drop k)) :
    ∃ s', s.visit db k = some s' := by
  obtain ⟨t, ht⟩ : ∃ t, s.sql[k]? = some t := ⟨_, getElem?_eq_getElem (h.length_sql.symm ▸ hk)⟩
  rw [h.limitsFollowWhere_drop hk ht, Bool.and_eq_true] at hlim
  rw [visit_of_rowId hrow ht]
  cases htop : t.isTop && s.flags.on with
  | false =>
    obtain ⟨s', hs', -⟩ := visitLimited_keep row s k t htop
    exact ⟨s', hs'⟩
  | true =>
    rw [htop] at hlim
    obtain ⟨w, hw⟩ := Option.isSome_iff_exists.mp hlim.1
    obtain ⟨-, cond, hcond⟩ := h.target w hw
    rw [Bool.and_eq_true] at htop
    obtain ⟨limit, rfl⟩ := SqlToken.exists_of_isTop htop.1
    have hon : (s.flags.isUpdate || s.flags.isDelete) := htop.2
    simp only [visitLimited, hon, hw, hcond]
    exact ⟨_, rfl⟩

theorem exists_compile_iff (hrow : db.rowId? = some row) :
    (∃ s, compile db flags sql = some s) ↔ limitsFollowWhere flags false sql := by
  constructor
  · rintro ⟨s, hs⟩
    have hinv : Visited db flags sql sql.length s ∧ limitsFollowWhere flags false sql =
        limitsFollowWhere s.flags s.whereToken.isSome (sql.drop sql.length) :=
      foldlM_range_invariant (fun k s => Visited db flags sql k s ∧
        limitsFollowWhere flags false sql =
          limitsFollowWhere s.flags s.whereToken.isSome (sql.drop k))
        hs ⟨visited_start db flags sql, rfl⟩ fun k s s' hk hv hs =>
          ⟨hv.1.step hrow hk hs, hv.2.trans (hv.1.limitsFollowWhere_step hrow hk hs)⟩
    rw [hinv.2, drop_length]
    rfl
  · intro h
    obtain ⟨s, hs, -⟩ := exists_foldlM_range
      (fun k s => Visited db flags sql k s ∧
        limitsFollowWhere s.flags s.whereToken.isSome (sql.drop k))
      ⟨visited_start db flags sql, h⟩ fun k s hk hv => by
        obtain ⟨s', hs'⟩ := hv.1.exists_visit hrow hk hv.2
        exact ⟨s', hs', hv.1.step hrow hk hs',
          (hv.1.limitsFollowWhere_step hrow hk hs').symm.trans hv.2⟩
    exact ⟨s, hs⟩

end CompileState

/-! ## The placeholders of a statement -/

/-- The placeholders of a built statement are as many as its host variables; they are in order
exactly if the statement records one host variable at a time. -/
theorem placeholders_of_build {typeString : DataType → Str} {flags : Flags} {q : Query} {b : Built}
    (h : build (.postgresql typeString) flags .prepared q.sql = some b) :
    (placeholdersOf b.parts).length = b.hostVars.length ∧
      (placeholdersOf b.parts = placeholdersFrom 0 b.hostVars.length ↔ q.clauses.sequential) := by
  obtain ⟨s, hs, rfl⟩ := build_eq_some.mp h
  have hsame :=
    samePlaceholders_of_compile rfl hs ((Database.postgresql typeString).dialect .prepared)
  have hcom : (Database.postgresql typeString).compiler ≠ .mssql := fun h => nomatch h
  have hd : ((Database.postgresql typeString).dialect .prepared).Numbers := ⟨rfl, rfl⟩
  have hbui := (q.renders hcom hd).congr hsame.1 hsame.2
  have hlen := hbui.count.trans (Nat.zero_add _)
  refine ⟨hlen.symm, ?_⟩
  rw [← hbui.numbered, ← hlen]
  rfl

/-- **The placeholders are `$1`, …, `$n` for `n` host variables exactly if there is no range and no
list of two or more arguments in the statement.** A limit that makes building undefined is
excluded. -/
theorem placeholders_ascend_iff (typeString : DataType → Str) (flags : Flags) (q : Query) :
    (∃ b, build (.postgresql typeString) flags .prepared q.sql = some b ∧
      placeholdersOf b.parts = placeholdersFrom 0 b.hostVars.length) ↔
      q.clauses.sequential = true ∧ limitsFollowWhere flags false q.sql = true := by
  have hrow : (Database.postgresql typeString).rowId? = some .postgresql := rfl
  rw [← CompileState.exists_compile_iff hrow]
  constructor
  · rintro ⟨b, hb, hpla⟩
    obtain ⟨s, hs, -⟩ := build_eq_some.mp hb
    exact ⟨(placeholders_of_build hb).2.mp hpla, s, hs⟩
  · rintro ⟨hseq, s, hs⟩
    obtain ⟨b, hb⟩ : ∃ b, build (.postgresql typeString) flags .prepared q.sql = some b :=
      ⟨_, build_eq_some.mpr ⟨s, hs, rfl⟩⟩
    exact ⟨b, hb, (placeholders_of_build hb).2.mpr hseq⟩

/-- Two arguments: the text is `SELECT "a" FROM "t" WHERE "a" IN ($2,$2)`. -/
theorem in_list_placeholders_not_ascending :
    ¬∃ b, build (.postgresql fun _ => []) ⟨false, false⟩ .prepared
        (Query.sql ⟨.select, .clause (.columns false [{ name := ['a'] }]) (.clause (.from ['t'])
          (.where (.inList ['a'] [.scalar (.integral 1), .scalar (.integral 2)]) .nil))⟩) = some b ∧
      placeholdersOf b.parts = placeholdersFrom 0 b.hostVars.length := by
  rintro ⟨b, hb, hpla⟩
  have hseq := (placeholders_of_build hb).2.mp hpla
  cases hseq

end Matador.Sql
