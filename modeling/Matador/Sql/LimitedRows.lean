import Matador.Sql.Rebuild

/-!
# Limited updates and deletes

For SQLite and PostgreSQL the compiler writes the condition of a limited update or delete into a
sub-select and compares the row id with it: `rowid IN (…)`, but `ctid = (…)`, which fails if the
sub-select has several rows.
-/

namespace Matador.Sql

open List Lib CompileState

/-! ## The first build -/

def SqlToken.table : SqlToken → Option Str
  | .clause (.tablename t) | .clause (.from t) => some t
  | _ => none

/-- An update or a delete with one condition, at `w`, and a limit behind it, at `l`. -/
structure LimitedStatement where
  sql : List SqlToken
  table : Str
  cond : Evaluate
  limit : Nat
  w : Nat
  l : Nat
  command : sql[0]? = some (.command .update) ∨ sql[0]? = some (.command .remove)
  commands : ∀ i c, sql[i]? = some (.command c) → i = 0
  named : sql[1]?.bind SqlToken.table = some table
  names : ∀ t ∈ sql, ∀ u ∈ t.table, u = table
  conditions : ∀ i c, sql[i]? = some (.where c) ↔ i = w ∧ c = cond
  limits : ∀ i n, sql[i]? = some (.clause (.top n)) ↔ i = l ∧ n = limit
  behind : 1 < w ∧ w < l

theorem lookup_erase (sql : List SqlToken) (l : Nat) :
    lookup sql ((range sql.length).erase l) = sql.eraseIdx l := by
  induction sql generalizing l with
  | nil => rfl
  | cons t ts ih =>
    have hmap (is : List Nat) : lookup (t :: ts) (is.map Nat.succ) = lookup ts is :=
      filterMap_map ..
    rw [length_cons, range_succ_eq_map]
    cases l with
    | zero => rw [erase_cons_head, hmap, lookup_range, eraseIdx_zero, tail_cons]
    | succ l =>
      rw [erase_cons_tail (by simp), ← map_erase fun _ _ => Nat.succ.inj, lookup_cons rfl, hmap, ih,
        eraseIdx_cons_succ]

namespace LimitedStatement

variable {q : LimitedStatement} {k : Nat} {row : RowId} {s s' : CompileState}

def replaced (q : LimitedStatement) (cond : Evaluate) : List SqlToken := q.sql.set q.w (.where cond)

def rowCondition (q : LimitedStatement) (row : RowId) : Evaluate :=
  rowIdCondition row q.table q.cond q.limit

/-- The state of the compiler after `k` tokens. -/
structure Compiling (q : LimitedStatement) (row : RowId) (k : Nat) (s : CompileState) : Prop where
  tokens : s.tokens = (range k).erase q.l
  current : s.sql = if q.l < k then q.replaced (q.rowCondition row) else q.sql
  on : k ≠ 0 → s.flags.on = true
  table : 1 < k → s.tableName = q.table
  target : q.w < k → s.whereToken = some q.w

theorem Compiling.keep (h : q.Compiling row k s) (hkl : k ≠ q.l)
    (htok : s'.tokens = s.tokens ++ [k]) (hsql : s'.sql = s.sql) (hon : s'.flags.on)
    (htbl : 1 < k + 1 → s'.tableName = q.table) (htgt : q.w < k + 1 → s'.whereToken = some q.w) :
    q.Compiling row (k + 1) s' := by
  refine ⟨?_, ?_, fun _ => hon, htbl, htgt⟩
  · rw [htok, h.tokens, range_succ, erase_append]
    split
    · rfl
    · next hl => rw [erase_of_not_mem hl, erase_of_not_mem (by simpa using Ne.symm hkl)]
  · have hlt : q.l < k + 1 ↔ q.l < k := by omega
    simp only [hsql, h.current, hlt]

theorem Compiling.step (h : q.Compiling row k s) {t : SqlToken} (ht : q.sql[k]? = some t) :
    ∃ s', s.visitLimited row k t = some s' ∧ q.Compiling row (k + 1) s' := by
  obtain ⟨hw, hwl⟩ := q.behind
  by_cases hzero : k = 0
  · subst hzero
    rcases q.command with hc | hc
    all_goals
      cases ht.symm.trans hc
      exact ⟨_, rfl, h.keep (by omega) rfl rfl rfl (by omega) (by omega)⟩
  · have hon : (s.flags.isUpdate || s.flags.isDelete) := h.on hzero
    have hkl (htop : t.isTop = false) : k ≠ q.l := by
      rintro rfl
      cases ht.symm.trans ((q.limits _ _).mpr ⟨rfl, rfl⟩)
      cases htop
    have htgt (hwhe : t.isWhere = false) (hlt : q.w < k + 1) : s.whereToken = some q.w := by
      refine h.target (Nat.lt_of_le_of_ne (Nat.le_of_lt_succ hlt) ?_)
      rintro rfl
      cases ht.symm.trans ((q.conditions _ _).mpr ⟨rfl, rfl⟩)
      cases hwhe
    have hoth (hv : s.visitLimited row k t = some (s.keep k)) (htop : t.isTop = false)
      (hwhe : t.isWhere = false) (htbl : t.table = none) : ∃ s', s.visitLimited row k t = some s' ∧
          q.Compiling row (k + 1) s' := by
      have hone : k ≠ 1 := by
        rintro rfl
        have hnam := q.named
        rw [ht, Option.bind_some, htbl] at hnam
        cases hnam
      exact ⟨_, hv, h.keep (hkl htop) rfl rfl hon (fun _ => h.table (by omega)) (htgt hwhe)⟩
    cases t with
    | command c => exact absurd (q.commands k c ht) hzero
    | «where» c =>
      obtain ⟨rfl, rfl⟩ := (q.conditions k c).mp ht
      exact ⟨{ s.keep q.w with whereToken := some q.w }, by simp [visitLimited, hon],
        h.keep (hkl rfl) rfl rfl hon (fun _ => h.table hw) fun _ => rfl⟩
    | clause c =>
      cases c with
      | top n =>
        obtain ⟨rfl, rfl⟩ := (q.limits k n).mp ht
        have hsql : s.sql = q.sql := h.current.trans (if_neg (Nat.lt_irrefl _))
        have htbl := h.table (by omega)
        refine ⟨{ s with sql := q.replaced (q.rowCondition row) }, ?_, ?_,
          (if_pos (Nat.lt_succ_self _)).symm, fun _ => hon, fun _ => htbl, fun _ => h.target hwl⟩
        · simp only [visitLimited, hon, h.target hwl, hsql, (q.conditions _ _).mpr ⟨rfl, rfl⟩, htbl]
          rfl
        · rw [range_succ, erase_append_right _ (by simp), erase_cons_head, append_nil]
          exact h.tokens.trans (erase_of_not_mem (by simp))
      | tablename u | «from» u =>
        exact ⟨_, rfl, h.keep (hkl rfl) rfl rfl hon (fun _ =>
          q.names _ (mem_of_getElem? ht) u rfl) (htgt rfl)⟩
      | _ => exact hoth rfl rfl rfl rfl
    | _ => exact hoth rfl rfl rfl rfl

variable {db : Database}

theorem exists_compile (q : LimitedStatement) (hrow : db.rowId? = some row) (flags : Flags) :
    ∃ s, compile db flags q.sql = some s ∧
    s.result = (q.replaced (q.rowCondition row)).eraseIdx q.l := by
  obtain ⟨hw, hwl⟩ := q.behind
  have hl : q.l < q.sql.length := (List.getElem?_eq_some_iff.mp ((q.limits _ _).mpr ⟨rfl, rfl⟩)).1
  obtain ⟨s, hs, hend⟩ := exists_foldlM_range (f := visit db) (s := start flags q.sql)
    (q.Compiling row) ⟨rfl, (if_neg (Nat.not_lt_zero _)).symm, nofun, by omega, by omega⟩
    fun k s hk hs => by
      have hget : s.sql[k]? = some q.sql[k] := by
        rw [hs.current]
        split
        · rw [replaced, getElem?_set_ne (by omega), getElem?_eq_getElem hk]
        · exact getElem?_eq_getElem hk
      rw [visit_of_rowId hrow hget]
      exact hs.step (getElem?_eq_getElem hk)
  refine ⟨s, hs, ?_⟩
  rw [← lookup_erase, replaced, length_set, result, hend.tokens, hend.current, if_pos hl]
  rfl

/-- The first build writes the statement without its limit and with the condition `row IN (SELECT
row FROM table WHERE cond LIMIT limit)`, or `=`; `cond` is written as without the limit. The
sub-select is compiled to itself when it is linked (`compile_rowIdSelect`). -/
def Renders (q : LimitedStatement) (db : Database) (row : RowId) (flags : Flags)
    (compileType : CompileType) : Prop :=
  ∃ condition : Evaluate, (∀ d, condition db d =
      (.sql (prepareIdentifier d.quoting row.column ++ [' '] ++ row.operand ++ [' ', '(']) ::
        (db.keyword .select ++ .sql (prepareIdentifier d.quoting row.column) :: .sql [' '] ::
          ((Clause.from q.table).link db d).1 ++ ((SqlToken.where q.cond).link db d).1 ++
            linkTop db q.limit) ++ [.sql [')']],
        ((SqlToken.where q.cond).link db d).2)) ∧
    ∃ b, build db flags compileType q.sql = some b ∧
      b.parts = (linkTokens db ((q.replaced condition).eraseIdx q.l) (db.dialect compileType)).1

theorem renders (q : LimitedStatement) (hrow : db.rowId? = some row) (flags : Flags)
    (compileType : CompileType) : q.Renders db row flags compileType := by
  obtain ⟨s, hs, hres⟩ := q.exists_compile hrow flags
  refine ⟨q.rowCondition row, fun d => ?_, _, build_eq_some.mpr ⟨s, hs, rfl⟩, by rw [hres]⟩
  simp only [rowCondition, rowIdCondition, linkTokens_rowIdSelect]

end LimitedStatement

/-! ## The rows it affects -/

/-- The row ids of a table, those that meet the condition, and some of them, as many as the limit
allows: the result of the sub-select. -/
structure LimitedSelect (ρ : Type) (limit : Nat) where
  rows : List ρ
  nodup : rows.Nodup
  meets : ρ → Bool
  result : List ρ
  nodup_result : result.Nodup
  matching : ∀ x ∈ result, x ∈ rows ∧ meets x = true
  length : result.length = min limit (rows.countP meets)

namespace LimitedSelect

variable {ρ : Type} [DecidableEq ρ] {limit : Nat}

/-- The rows whose id compares with the sub-select; `=` fails if it has more than one row. -/
def affected (t : LimitedSelect ρ limit) (operand : Str) : Option (List ρ) :=
  if operand = Compare.equal.operands ∧ 1 < t.result.length then none
  else some (t.rows.filter (· ∈ t.result))

/-- As many rows are affected as the limit allows, all of which meet the condition. -/
def Limits (t : LimitedSelect ρ limit) (operand : Str) : Prop :=
  ∃ rows, t.affected operand = some rows ∧ rows.length = min limit (t.rows.countP t.meets) ∧
    ∀ x ∈ rows, t.meets x = true

theorem limits_iff (t : LimitedSelect ρ limit) (operand : Str) :
    t.Limits operand ↔ ¬(operand = Compare.equal.operands ∧ 1 < t.result.length) := by
  unfold Limits affected
  constructor
  · rintro ⟨rows, hrows, -⟩ hfls
    rw [if_pos hfls] at hrows
    cases hrows
  · intro hfls
    have hperm : t.rows.filter (· ∈ t.result) ~ t.result := by
      refine (perm_ext_iff_of_nodup (t.nodup.filter _) t.nodup_result).mpr fun x => ?_
      simpa using fun hx => (t.matching x hx).1
    refine ⟨_, if_neg hfls, hperm.length_eq.trans t.length, fun x hx => ?_⟩
    exact (t.matching x (hperm.mem_iff.mp hx)).2

end LimitedSelect

/-- **The first build for SQLite limits an update or a delete by a sub-select**, and as many rows
are affected as the limit allows. -/
theorem sqlite_limits (q : LimitedStatement) (typeString : DataType → Str) (flags : Flags)
    (compileType : CompileType) {ρ : Type} [DecidableEq ρ] (t : LimitedSelect ρ q.limit) :
    q.Renders (.sqlite typeString) .sqlite flags compileType ∧ t.Limits RowId.sqlite.operand :=
  ⟨q.renders rfl flags compileType, (t.limits_iff _).mpr fun hc => absurd hc.1 (by decide)⟩

/-- **With PostgreSQL the statement does not fail if and only if the limit or the condition leaves
at most one row.** -/
theorem postgresql_limits_iff (q : LimitedStatement) (typeString : DataType → Str) (flags : Flags)
    (compileType : CompileType) {ρ : Type} [DecidableEq ρ] (t : LimitedSelect ρ q.limit) :
    q.Renders (.postgresql typeString) .postgresql flags compileType ∧
      (t.Limits RowId.postgresql.operand ↔ min q.limit (t.rows.countP t.meets) ≤ 1) := by
  refine ⟨q.renders rfl flags compileType, ?_⟩
  rw [t.limits_iff, ← t.length]
  simp [RowId.postgresql]

/-- `DELETE FROM t WHERE cond LIMIT 2` -/
def limitedDelete (cond : Evaluate) : LimitedStatement where
  sql := [.command .remove, .clause (.from ['t']), .where cond, .clause (.top 2)]
  table := ['t']
  cond := cond
  limit := 2
  w := 2
  l := 3
  command := .inr rfl
  commands := by rintro (_ | _ | _ | _ | i) c <;> simp
  named := rfl
  names := by simp [SqlToken.table]
  conditions := by rintro (_ | _ | _ | _ | i) c <;> simp [eq_comm]
  limits := by rintro (_ | _ | _ | _ | i) n <;> simp [eq_comm]
  behind := by decide

/-- It fails with two rows to delete. -/
theorem postgresql_limit_fails : ¬∀ (q : LimitedStatement) (t : LimitedSelect Bool q.limit),
    1 ≤ q.limit → t.Limits RowId.postgresql.operand := by
  intro h
  have hlim := h (limitedDelete fun _ d => ([], d))
    ⟨[true, false], by decide, fun _ => true, [true, false], by decide, by decide, rfl⟩ (by decide)
  exact (LimitedSelect.limits_iff _ _).mp hlim (by decide)

end Matador.Sql
