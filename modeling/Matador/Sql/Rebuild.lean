import Matador.Sql.Query
import Matador.Lib.Run

/-!
# Building a statement twice

The copied token list shares its tokens with the statement. A limited update or delete has the
condition of its `where` token replaced when it is built for SQLite or PostgreSQL, and the limit is
erased from the copy alone. A second build replaces the condition again.
-/

namespace Matador.Sql

open List Lib

/-! ## Limited updates and deletes -/

/-- The compiler takes the statement for an update or a delete. -/
def Flags.on (f : Flags) : Bool := f.isUpdate || f.isDelete

variable {t : SqlToken}

namespace SqlToken

def isTop : SqlToken → Bool
  | .clause (.top _) => true
  | _ => false

def isWhere : SqlToken → Bool
  | .where _ => true
  | _ => false

def flags (f : Flags) : SqlToken → Flags
  | .command .select => ⟨false, false⟩
  | .command .update => ⟨true, false⟩
  | .command .remove => ⟨false, true⟩
  | _ => f

def shape : SqlToken → SqlToken
  | .where _ => .where fun _ d => ([], d)
  | t => t

theorem isTop_shape (t : SqlToken) : t.shape.isTop = t.isTop := by cases t <;> rfl

theorem isWhere_shape (t : SqlToken) : t.shape.isWhere = t.isWhere := by cases t <;> rfl

theorem flags_shape (f : Flags) (t : SqlToken) : t.shape.flags f = t.flags f := by cases t <;> rfl

theorem exists_of_isTop (h : t.isTop) : ∃ limit, t = .clause (.top limit) := by
  unfold isTop at h
  split at h
  · exact ⟨_, rfl⟩
  · cases h

end SqlToken

/-- A limit is visited while the compiler takes the statement for an update or a delete. -/
def limited : Flags → List SqlToken → Bool
  | _, [] => false
  | f, t :: ts => (t.isTop && f.on) || limited (t.flags f) ts

variable {sql : List SqlToken}

theorem limited_congr {sql' : List SqlToken} (h : sql.map SqlToken.shape = sql'.map SqlToken.shape)
    (f : Flags) : limited f sql = limited f sql' := by
  induction sql generalizing sql' f with
  | nil => simp_all
  | cons t ts ih =>
    cases sql' with
    | nil => simp at h
    | cons t' ts' =>
      simp only [map_cons, cons.injEq] at h
      have htop : t.isTop = t'.isTop := by rw [← t.isTop_shape, h.1, t'.isTop_shape]
      have hfla : t.flags f = t'.flags f := by rw [← t.flags_shape, h.1, t'.flags_shape]
      rw [limited, limited, htop, hfla, ih h.2]

/-! ## What a visit does -/

namespace CompileState

variable {s s' : CompileState} {row : RowId} {i : Nat} {t : SqlToken}

theorem visitLimited_keep (row : RowId) (s : CompileState) (i : Nat) (t : SqlToken)
    (h : (t.isTop && s.flags.on) = false) :
    ∃ s', s.visitLimited row i t = some s' ∧ s'.sql = s.sql ∧ s'.tokens = s.tokens ++ [i] ∧
      s'.flags = t.flags s.flags ∧
      (s'.whereToken = s.whereToken ∨ s'.whereToken = some i ∧ ∃ c, t = .where c) := by
  cases t with
  | «where» c =>
    simp only [visitLimited]
    split
    · exact ⟨_, rfl, rfl, rfl, rfl, Or.inr ⟨rfl, c, rfl⟩⟩
    · exact ⟨_, rfl, rfl, rfl, rfl, Or.inl rfl⟩
  | clause c =>
    cases c with
    | top limit =>
      have hoff : (s.flags.isUpdate || s.flags.isDelete) = false := by
        simpa [SqlToken.isTop, Flags.on] using h
      exact ⟨s.keep i, by simp [visitLimited, hoff], rfl, rfl, rfl, Or.inl rfl⟩
    | _ => exact ⟨_, rfl, rfl, rfl, rfl, Or.inl rfl⟩
  | command c => cases c <;> exact ⟨_, rfl, rfl, rfl, rfl, Or.inl rfl⟩
  | _ => exact ⟨_, rfl, rfl, rfl, rfl, Or.inl rfl⟩

theorem visitLimited_top (h : s.visitLimited row i t = some s') (hlim : (t.isTop && s.flags.on)) :
    ∃ limit w cond, t = .clause (.top limit) ∧ s.whereToken = some w ∧
    s.sql[w]? = some (.where cond) ∧
      s' = { s with sql := s.sql.set w (.where (rowIdCondition row s.tableName cond limit)) } := by
  rw [Bool.and_eq_true] at hlim
  obtain ⟨limit, rfl⟩ := SqlToken.exists_of_isTop hlim.1
  have hon : (s.flags.isUpdate || s.flags.isDelete) := hlim.2
  simp only [visitLimited, hon, if_true] at h
  split at h
  · cases h
  · next w hw =>
    split at h
    · next cond hcond =>
      cases h
      exact ⟨limit, w, cond, rfl, hw, hcond, rfl⟩
    · cases h

end CompileState

/-! ## The length of the text -/

variable {i : Nat}

section Length

variable (db : Database)

def linkLength (ts : List SqlToken) (d : Dialect) : Nat := (textOf (linkTokens db ts d).1).length

theorem linkLength_append (ts us : List SqlToken) (d : Dialect) : linkLength db (ts ++ us) d =
      linkLength db ts d + linkLength db us (linkTokens db ts d).2 := by
  simp [linkLength, linkTokens_append]

theorem linkLength_cons (t : SqlToken) (ts : List SqlToken) (d : Dialect) :
    linkLength db (t :: ts) d =
      (textOf (t.link db d).1).length + linkLength db ts (t.link db d).2 := by
  simp [linkLength, linkTokens]

theorem one_le_length_linkTop (limit : Nat) : 1 ≤ (textOf (linkTop db limit)).length := by
  unfold linkTop
  split
  · simp only [textOf_cons, Part.str, length_append, length_cons]
    omega
  · simp only [textOf_cons, Part.str, length_append, length_cons]
    omega

theorem link_rowIdCondition (row : RowId) (table : Str) (cond : Evaluate) (limit : Nat)
    (d : Dialect) : ((SqlToken.where (rowIdCondition row table cond limit)).link db d).2 =
      ((SqlToken.where cond).link db d).2 ∧
      (textOf ((SqlToken.where cond).link db d).1).length + (textOf (linkTop db limit)).length + 1 ≤
        (textOf ((SqlToken.where (rowIdCondition row table cond limit)).link db d).1).length := by
  have hwhe (c : Evaluate) : (SqlToken.where c).link db d =
      (.sql (db.tokenAt .where ++ [' ']) :: (c db d).1 ++ [.sql [' ']], (c db d).2) := rfl
  have hcond : rowIdCondition row table cond limit db d =
      (.sql (prepareIdentifier d.quoting row.column ++ [' '] ++ row.operand ++ [' ', '(']) ::
        (linkTokens db (rowIdSelect row table cond limit) d).1 ++ [.sql [')']],
        (linkTokens db (rowIdSelect row table cond limit) d).2) := rfl
  rw [linkTokens_rowIdSelect] at hcond
  refine ⟨by rw [hwhe (rowIdCondition row table cond limit), hcond], ?_⟩
  rw [hwhe (rowIdCondition row table cond limit), hcond]
  have hclo : (Part.sql [')']).str.length = 1 := rfl
  simp only [textOf_append, textOf_cons, length_append]
  omega

def lookup (sql : List SqlToken) (is : List Nat) : List SqlToken := is.filterMap (sql[·]?)

theorem lookup_append (sql : List SqlToken) (is js : List Nat) :
    lookup sql (is ++ js) = lookup sql is ++ lookup sql js := filterMap_append

theorem lookup_cons (h : sql[i]? = some t) (is : List Nat) :
    lookup sql (i :: is) = t :: lookup sql is := by
  rw [lookup, filterMap_cons, h]
  rfl

theorem lookup_set_of_not_mem {w : Nat} {is : List Nat} (h : w ∉ is)
    (t : SqlToken) : lookup (sql.set w t) is = lookup sql is := by
  refine filterMap_congr fun i hi => ?_
  rw [getElem?_set_ne]
  rintro rfl
  exact h hi

theorem lookup_range (sql : List SqlToken) : lookup sql (range sql.length) = sql := by
  induction sql with
  | nil => rfl
  | cons t ts ih =>
    rw [length_cons, range_succ_eq_map, lookup_cons rfl]
    congr 1
    rw [lookup, filterMap_map]
    exact ih

theorem linkLength_sublist {is js : List Nat} (h : is.Sublist js)
    (hjs : js.Nodup) (htop : ∀ j ∈ js, j ∉ is → ∃ limit, sql[j]? = some (.clause (.top limit)))
    (d : Dialect) :
    linkLength db (lookup sql is) d + js.length ≤ linkLength db (lookup sql js) d + is.length := by
  induction h generalizing d with
  | slnil => exact Nat.le_refl _
  | @cons is js j hsub ih =>
    have hnd := nodup_cons.mp hjs
    have hj : j ∉ is := fun hmem => hnd.1 (hsub.subset hmem)
    obtain ⟨limit, hlim⟩ := htop j mem_cons_self hj
    have hrest := ih hnd.2 (forall_mem_cons.mp htop).2 d
    have hpos := one_le_length_linkTop db limit
    rw [lookup_cons hlim, linkLength_cons, length_cons]
    show _ ≤ (textOf (linkTop db limit)).length + linkLength db (lookup sql js) d + is.length
    omega
  | @cons_cons is js j hsub ih =>
    have hnd := nodup_cons.mp hjs
    have hrest (d : Dialect) := ih hnd.2 (fun k hk hki => htop k (mem_cons_of_mem _ hk) (by
      rw [mem_cons, not_or]
      exact ⟨fun he => hnd.1 (he ▸ hk), hki⟩)) d
    cases hget : sql[j]? with
    | none =>
      have hskip (ks : List Nat) : lookup sql (j :: ks) = lookup sql ks := by
        rw [lookup, filterMap_cons, hget]
        rfl
      rw [hskip, hskip, length_cons, length_cons]
      have := hrest d
      omega
    | some t =>
      rw [lookup_cons hget, lookup_cons hget, linkLength_cons, linkLength_cons, length_cons,
        length_cons]
      have := hrest (t.link db d).2
      omega

/-- The condition of a `where` token is replaced and a limit behind it is erased. -/
inductive Rewrite (row : RowId) : List SqlToken → List SqlToken → Prop
  | limit (ts₁ ts₂ ts₃ : List SqlToken) (table : Str) (cond : Evaluate) (limit : Nat) :
    Rewrite row (ts₁ ++ .where cond :: (ts₂ ++ .clause (.top limit) :: ts₃))
      (ts₁ ++ .where (rowIdCondition row table cond limit) :: (ts₂ ++ ts₃))

theorem linkLength_rewrite {row : RowId} {ts us : List SqlToken} (h : Rewrite row ts us)
    (d : Dialect) : linkLength db ts d + 1 ≤ linkLength db us d := by
  obtain ⟨ts₁, ts₂, ts₃, table, cond, limit⟩ := h
  simp only [linkLength_append, linkLength_cons]
  generalize (linkTokens db ts₁ d).2 = d₁
  obtain ⟨hend, hlen⟩ := link_rowIdCondition db row table cond limit d₁
  rw [hend]
  have htop (d' : Dialect) : (SqlToken.clause (.top limit)).link db d' = (linkTop db limit, d') :=
    rfl
  simp only [htop]
  omega

theorem rewrite_lookup {is₁ is₂ is₃ : List Nat} {w limit : Nat}
    {cond : Evaluate} (hnd : (is₁ ++ w :: (is₂ ++ i :: is₃)).Nodup)
    (hw : sql[w]? = some (.where cond)) (hi : sql[i]? = some (.clause (.top limit))) (row : RowId)
    (table : Str) :
    Rewrite row (lookup sql (is₁ ++ w :: (is₂ ++ i :: is₃)))
      (lookup (sql.set w (.where (rowIdCondition row table cond limit)))
        (is₁ ++ w :: (is₂ ++ is₃))) := by
  have hmem : w ∉ is₁ ∧ w ∉ is₂ ∧ w ∉ is₃ := by
    rw [nodup_append] at hnd
    have hw' := (nodup_cons.mp hnd.2.1).1
    simp only [mem_append, mem_cons, not_or] at hw'
    exact ⟨fun h => hnd.2.2 w h w mem_cons_self rfl, hw'.1, hw'.2.2⟩
  have hset : (sql.set w (.where (rowIdCondition row table cond limit)))[w]? =
      some (.where (rowIdCondition row table cond limit)) := by
    rw [getElem?_set_self]
    exact (List.getElem?_eq_some_iff.mp hw).1
  rw [lookup_append, lookup_cons hw, lookup_append, lookup_cons hi, lookup_append, lookup_cons hset,
    lookup_append, lookup_set_of_not_mem hmem.1, lookup_set_of_not_mem hmem.2.1,
    lookup_set_of_not_mem hmem.2.2]
  exact .limit ..

end Length

/-! ## Compiling for SQLite and PostgreSQL -/

/-- The row id of the dialects that rewrite limited updates and deletes. -/
def Database.rowId? (db : Database) : Option RowId :=
  match db.compiler with
  | .sqlite => some .sqlite
  | .postgresql => some .postgresql
  | .basic => none
  | .mssql => none

variable {s s' : CompileState}

namespace CompileState

variable {db : Database} {row : RowId} {flags : Flags} {sql : List SqlToken}

theorem visit_of_rowId (hrow : db.rowId? = some row)
    (ht : s.sql[i]? = some t) : s.visit db i = s.visitLimited row i t := by
  unfold Database.rowId? at hrow
  unfold visit
  rw [ht]
  cases hc : db.compiler with
  | sqlite | postgresql =>
    rw [hc] at hrow
    cases hrow
    rfl
  | basic => simp [hc] at hrow
  | mssql => simp [hc] at hrow

/-- The copied list after `k` of `n` tokens have been visited. -/
def copied (s : CompileState) (k n : Nat) : List SqlToken :=
  lookup s.sql (s.tokens ++ range' k (n - k))

theorem copied_end (s : CompileState) (n : Nat) : s.copied n n = s.result := by
  rw [copied, Nat.sub_self, range'_zero, append_nil]
  rfl

theorem copied_start (flags : Flags) (sql : List SqlToken) :
    (start flags sql).copied 0 sql.length = sql := by
  show lookup sql (range' 0 (sql.length - 0)) = sql
  rw [Nat.sub_zero, ← range_eq_range', lookup_range]

/-- The compiler has visited the first `k` tokens of `sql`. -/
structure Visited (db : Database) (flags : Flags) (sql : List SqlToken) (k : Nat)
    (s : CompileState) : Prop where
  shape : s.sql.map SqlToken.shape = sql.map SqlToken.shape
  sub : s.tokens.Sublist (range k)
  tops : ∀ j < k, j ∉ s.tokens → ∃ limit, s.sql[j]? = some (.clause (.top limit))
  target : ∀ w, s.whereToken = some w → w ∈ s.tokens ∧ ∃ cond, s.sql[w]? = some (.where cond)
  /-- a limit has been erased, or will be, exactly if the statement is limited -/
  erased : limited flags sql = (decide (s.tokens.length < k) || limited s.flags (sql.drop k))
  /-- the text has grown by at least one character for each erased limit -/
  length : ∀ d, linkLength db sql d + k ≤ linkLength db (s.copied k sql.length) d + s.tokens.length

theorem visited_start (db : Database) (flags : Flags) (sql : List SqlToken) :
    Visited db flags sql 0 (start flags sql) where
  shape := rfl
  sub := List.Sublist.slnil
  tops j hj := absurd hj (Nat.not_lt_zero j)
  target w hw := by cases hw
  erased := by simp [start]
  length d := by
    rw [copied_start]
    exact Nat.le_refl _

variable {k : Nat}

theorem Visited.length_sql (h : Visited db flags sql k s) : s.sql.length = sql.length := by
  have := congrArg List.length h.shape
  rwa [length_map, length_map] at this

theorem Visited.shape_getElem (h : Visited db flags sql k s) (hk : k < sql.length)
    (ht : s.sql[k]? = some t) : t.shape = sql[k].shape := by
  have := congrArg (·[k]?) h.shape
  simp only [getElem?_map, ht, getElem?_eq_getElem hk] at this
  exact Option.some.inj this

theorem Visited.copied_step (h : Visited db flags sql k s) (hk : k < sql.length)
    (ht : s.sql[k]? = some t) (hs : s.visitLimited row k t = some s') :
    s'.tokens = s.tokens ++ [k] ∧ s'.copied (k + 1) sql.length = s.copied k sql.length ∨
    s'.tokens = s.tokens ∧ Rewrite row (s.copied k sql.length) (s'.copied (k + 1) sql.length) := by
  have hrng : range' k (sql.length - k) = k :: range' (k + 1) (sql.length - (k + 1)) := by
    rw [show sql.length - k = (sql.length - (k + 1)) + 1 by omega, range'_succ]
  cases htop : t.isTop && s.flags.on with
  | false =>
    left
    obtain ⟨s₁, hs₁, hsql, htok, -⟩ := visitLimited_keep row s k t htop
    cases hs₁.symm.trans hs
    refine ⟨htok, ?_⟩
    rw [copied, copied, hsql, htok, hrng, append_assoc, singleton_append]
  | true =>
    right
    obtain ⟨limit, w, cond, rfl, hw, hcond, rfl⟩ := visitLimited_top hs htop
    refine ⟨rfl, ?_⟩
    obtain ⟨is₁, is₂, htok⟩ := append_of_mem (h.target w hw).1
    have hnd : (s.tokens ++ range' k (sql.length - k)).Nodup := by
      refine nodup_append.mpr ⟨h.sub.nodup nodup_range, nodup_range', fun j hj j' hj' => ?_⟩
      have h₁ := mem_range.mp (h.sub.subset hj)
      have h₂ := (mem_range'_1.mp hj').1
      omega
    rw [htok, hrng, append_assoc] at hnd
    have hrew := rewrite_lookup hnd hcond ht row s.tableName
    unfold copied
    rw [htok, hrng]
    simp only [append_assoc]
    exact hrew

theorem Visited.step (hrow : db.rowId? = some row) (hk : k < sql.length)
    (h : Visited db flags sql k s) (hs : s.visit db k = some s') :
    Visited db flags sql (k + 1) s' := by
  have hlen := h.length_sql
  obtain ⟨t, ht⟩ : ∃ t, s.sql[k]? = some t := ⟨_, getElem?_eq_getElem (hlen ▸ hk)⟩
  have hshp := h.shape_getElem hk ht
  have hdrop : sql.drop k = sql[k] :: sql.drop (k + 1) := drop_eq_getElem_cons hk
  have hlim : limited s.flags (sql.drop k) =
      ((t.isTop && s.flags.on) || limited (t.flags s.flags) (sql.drop (k + 1))) := by
    rw [hdrop, limited, ← sql[k].isTop_shape, ← sql[k].flags_shape, ← hshp, t.isTop_shape,
      t.flags_shape]
  rw [visit_of_rowId hrow ht] at hs
  have hcop := h.copied_step hk ht hs
  have hleng (d : Dialect) : linkLength db sql d + (k + 1) ≤
      linkLength db (s'.copied (k + 1) sql.length) d + s'.tokens.length := by
    have hd := h.length d
    rcases hcop with ⟨htok, hcop⟩ | ⟨htok, hrew⟩
    · rw [hcop, htok, length_append, length_singleton]
      omega
    · have hgrow := linkLength_rewrite db hrew d
      rw [htok]
      omega
  cases htop : t.isTop && s.flags.on with
  | false =>
    obtain ⟨s₁, hs₁, hsql, htok, hfla, hwhe⟩ := visitLimited_keep row s k t htop
    cases hs₁.symm.trans hs
    refine ⟨hsql ▸ h.shape, ?_, fun j hj hjs => ?_, fun w hw => ?_, ?_, hleng⟩
    · rw [htok, range_succ]
      exact h.sub.append (List.Sublist.refl _)
    · rw [htok, mem_append, mem_singleton, not_or] at hjs
      rw [hsql]
      exact h.tops j (by omega) hjs.1
    · rw [htok, hsql]
      rcases hwhe with hwhe | ⟨hwhe, cond, rfl⟩
      · obtain ⟨hmem, hcond⟩ := h.target w (hwhe ▸ hw)
        exact ⟨mem_append_left _ hmem, hcond⟩
      · cases hwhe.symm.trans hw
        exact ⟨by simp, cond, ht⟩
    · rw [h.erased, hlim, htop, hfla, htok]
      simp
  | true =>
    obtain ⟨limit, w, cond, rfl, hw, hcond, rfl⟩ := visitLimited_top hs htop
    obtain ⟨hmem, -⟩ := h.target w hw
    have hle : s.tokens.length ≤ k := by
      have := h.sub.length_le
      rwa [length_range] at this
    have hwlt : w < s.sql.length := (List.getElem?_eq_some_iff.mp hcond).1
    have hset : (s.sql.set w (.where (rowIdCondition row s.tableName cond limit)))[w]? =
        some (.where (rowIdCondition row s.tableName cond limit)) := getElem?_set_self hwlt
    refine ⟨?_, ?_, fun j hj hjs => ?_, fun w' hw' => ?_, ?_, hleng⟩
    · rw [← h.shape]
      refine ext_getElem? fun j => ?_
      rw [getElem?_map, getElem?_map]
      by_cases hj : w = j
      · subst hj
        rw [hset, hcond]
        rfl
      · rw [getElem?_set_ne hj]
    · exact h.sub.trans (range_sublist.mpr (Nat.le_succ k))
    · have hne : w ≠ j := fun he => hjs (he ▸ hmem)
      rw [getElem?_set_ne hne]
      rcases Nat.lt_succ_iff_lt_or_eq.mp hj with hj | rfl
      · exact h.tops j hj hjs
      · exact ⟨limit, ht⟩
    · cases hw.symm.trans hw'
      exact ⟨hmem, _, hset⟩
    · rw [h.erased, hlim, htop]
      have hlt : s.tokens.length < k + 1 := Nat.lt_succ_of_le hle
      simp [hlt]

theorem visited_of_compile (hrow : db.rowId? = some row)
    (h : compile db flags sql = some s) : Visited db flags sql sql.length s :=
  foldlM_range_invariant _ h (visited_start db flags sql) fun _ _ _ hk hv hs => hv.step hrow hk hs

theorem exists_compile_of_not_limited (hrow : db.rowId? = some row)
    (hlim : limited flags sql = false) :
    ∃ s, compile db flags sql = some s ∧ s.sql = sql ∧ s.tokens = range sql.length := by
  obtain ⟨s, hs, hsql, htok, -⟩ := exists_foldlM_range
    (s := start flags sql) (fun k s => s.sql = sql ∧ s.tokens = range k ∧
      limited s.flags (sql.drop k) = false) ⟨rfl, rfl, hlim⟩ fun k s hk hinv => by
    obtain ⟨hsql, htok, hlim⟩ := hinv
    rw [drop_eq_getElem_cons hk, limited, Bool.or_eq_false_iff] at hlim
    obtain ⟨s', hs', hsql', htok', hfla', -⟩ := visitLimited_keep row s k sql[k] hlim.1
    have ht : s.sql[k]? = some sql[k] := by rw [hsql, getElem?_eq_getElem hk]
    exact ⟨s', (visit_of_rowId hrow ht).trans hs', hsql'.trans hsql,
      by rw [htok', htok, range_succ], by rw [hfla']; exact hlim.2⟩
  exact ⟨s, hs, hsql, htok⟩

end CompileState

/-! ## Compiling for the other dialects -/

namespace CompileState

variable {db : Database}

theorem visitMssql_sql (s : CompileState) (i : Nat) (t : SqlToken) :
    (s.visitMssql i t).sql = s.sql := by
  unfold visitMssql
  split
  · rfl
  · rfl
  · rfl
  · split <;> rfl
  · rfl

theorem visitMssql_flags (s : CompileState) (i : Nat) (t : SqlToken) (f : Flags) :
    { s with flags := f }.visitMssql i t = { s.visitMssql i t with flags := f } := by
  unfold visitMssql
  split
  · rfl
  · rfl
  · rfl
  · simp only
    split <;> rfl
  · rfl

theorem visit_of_no_rowId (hrow : db.rowId? = none) (s : CompileState) (i : Nat) :
    ∃ s', s.visit db i = some s' ∧ s'.sql = s.sql ∧
      ∀ f, { s with flags := f }.visit db i = some { s' with flags := f } := by
  unfold Database.rowId? at hrow
  unfold visit
  cases hget : s.sql[i]? with
  | none => exact ⟨s, rfl, rfl, fun f => by simp only [hget]⟩
  | some t =>
    cases hc : db.compiler with
    | sqlite => simp [hc] at hrow
    | postgresql => simp [hc] at hrow
    | basic => exact ⟨s.keep i, rfl, rfl, fun f => by simp only [hget, keep]⟩
    | mssql =>
      simp only [hget]
      exact ⟨s.visitMssql i t, rfl, visitMssql_sql s i t, fun f =>
        congrArg some (visitMssql_flags s i t f)⟩

theorem foldlM_visit_of_no_rowId (hrow : db.rowId? = none) (is : List Nat) (s : CompileState) :
    ∃ s', is.foldlM (visit db) s = some s' ∧ s'.sql = s.sql ∧
      ∀ f, is.foldlM (visit db) { s with flags := f } = some { s' with flags := f } := by
  induction is generalizing s with
  | nil => exact ⟨s, rfl, rfl, fun f => rfl⟩
  | cons i is ih =>
    obtain ⟨s₁, h₁, hsql₁, hfla₁⟩ := visit_of_no_rowId hrow s i
    obtain ⟨s₂, h₂, hsql₂, hfla₂⟩ := ih s₁
    refine ⟨s₂, ?_, hsql₂.trans hsql₁, fun f => ?_⟩
    · rw [foldlM_cons, h₁]
      exact h₂
    · rw [foldlM_cons, hfla₁ f]
      exact hfla₂ f

end CompileState

/-! ## Sub-selects -/

theorem Clauses.limited_tokens (f : Flags) (hf : f.on = false) (cs : Clauses) :
    limited f cs.tokens = false := by
  match cs with
  | .nil => rfl
  | .clause _ rest | .where _ rest | .query _ rest =>
    have hrest := limited_tokens f hf rest
    simpa [tokens, limited, SqlToken.flags, hf] using hrest

namespace CompileState

variable {db : Database} {flags : Flags}

theorem exists_compile_basic (hc : db.compiler = .basic) (flags : Flags) (sql : List SqlToken) :
    ∃ s, compile db flags sql = some s ∧ s.sql = sql ∧ s.tokens = range sql.length :=
  exists_foldlM_range (s := start flags sql)
    (fun k s => s.sql = sql ∧ s.tokens = range k) ⟨rfl, rfl⟩ fun k s hk hinv => by
    obtain ⟨hsql, htok⟩ := hinv
    refine ⟨s.keep k, ?_, hsql, by rw [keep, htok, range_succ]⟩
    simp only [visit, hsql, getElem?_eq_getElem hk, hc]

theorem exists_compile_self (hc : db.compiler ≠ .mssql) (hlim : limited flags sql = false) :
    ∃ s, compile db flags sql = some s ∧ s.sql = sql ∧ s.result = sql := by
  obtain ⟨s, hs, hsql, htok⟩ : ∃ s, compile db flags sql = some s ∧ s.sql = sql ∧
      s.tokens = range sql.length := by
    cases hkind : db.compiler with
    | basic => exact exists_compile_basic hkind flags sql
    | sqlite =>
      have hrow : db.rowId? = some .sqlite := by rw [Database.rowId?, hkind]
      exact exists_compile_of_not_limited hrow hlim
    | postgresql =>
      have hrow : db.rowId? = some .postgresql := by rw [Database.rowId?, hkind]
      exact exists_compile_of_not_limited hrow hlim
    | mssql => exact absurd hkind hc
  refine ⟨s, hs, hsql, ?_⟩
  rw [result, hsql, htok]
  exact lookup_range sql

end CompileState

theorem continueBuild_eq_link {db : Database} (hc : db.compiler ≠ .mssql) (select : Clauses)
    (d : Dialect) :
    continueBuild select.tokens db d = linkTokens db (.command .select :: select.tokens) d := by
  have hlim : limited ⟨false, false⟩ (.command .select :: select.tokens) = false :=
    select.limited_tokens ⟨false, false⟩ rfl
  obtain ⟨s, hs, -, hres⟩ := CompileState.exists_compile_self hc hlim
  rw [continueBuild, hs]
  exact congrArg (linkTokens db · d) hres

/-- A sub-select is compiled whatever the flags of the compiler are, and linked as with cleared
flags. -/
theorem exists_compile_select (db : Database) (flags : Flags) (select : Clauses) (d : Dialect) :
    ∃ s, compile db flags (.command .select :: select.tokens) = some s ∧
      continueBuild select.tokens db d = linkTokens db s.result d := by
  have hlim (f : Flags) : limited f (.command .select :: select.tokens) = false :=
    select.limited_tokens ⟨false, false⟩ rfl
  cases hrow : db.rowId? with
  | none =>
    obtain ⟨s, hs, -, hfla⟩ := CompileState.foldlM_visit_of_no_rowId hrow
      (range (.command .select :: select.tokens).length) (.start ⟨false, false⟩ _)
    refine ⟨{ s with flags }, hfla flags, ?_⟩
    rw [continueBuild, compile, hs]
    rfl
  | some row =>
    have hc : db.compiler ≠ .mssql := fun hc => by simp [Database.rowId?, hc] at hrow
    obtain ⟨s, hs, -, hres⟩ := CompileState.exists_compile_self hc (hlim flags)
    exact ⟨s, hs, by rw [hres, continueBuild_eq_link hc]⟩

theorem compile_rowIdSelect {db : Database} {row : RowId} (hrow : db.rowId? = some row)
    (flags : Flags) (table : Str) (cond : Evaluate) (limit : Nat) :
    ∃ s, compile db flags (rowIdSelect row table cond limit) = some s ∧
      s.result = rowIdSelect row table cond limit := by
  have hc : db.compiler ≠ .mssql := fun hc => by simp [Database.rowId?, hc] at hrow
  have hlim : limited flags (rowIdSelect row table cond limit) = false := rfl
  obtain ⟨s, hs, -, hres⟩ := CompileState.exists_compile_self hc hlim
  exact ⟨s, hs, hres⟩

/-! ## Building twice -/

/-- The second build of a statement gives the text and the host variables of the first. The flags of
the compiler are arbitrary before each build. -/
def Repeatable (db : Database) (compileType : CompileType) (flags flags' : Flags)
    (sql : List SqlToken) : Prop :=
  ∃ b b', build db flags compileType sql = some b ∧ build db flags' compileType b.sql = some b' ∧
    textOf b'.parts = textOf b.parts ∧ b'.hostVars = b.hostVars

variable {db : Database} {compileType : CompileType} {flags flags' : Flags} {sql : List SqlToken}

theorem build_eq_some {b : Built} : build db flags compileType sql = some b ↔
      ∃ s, compile db flags sql = some s ∧ b = ⟨(linkTokens db s.result (db.dialect compileType)).1,
          (linkTokens db s.result (db.dialect compileType)).2.hostVars, s.sql⟩ := by
  unfold build
  cases compile db flags sql with
  | none => simp
  | some s => simp [eq_comm]

theorem repeatable_of_compile (h : compile db flags sql = some s)
    (hsql : s.sql = sql) (h' : compile db flags' sql = some s') (hres : s'.result = s.result) :
    Repeatable db compileType flags flags' sql :=
  ⟨_, _, build_eq_some.mpr ⟨s, h, rfl⟩, build_eq_some.mpr ⟨s', hsql.symm ▸ h', rfl⟩,
    by rw [hres], by rw [hres]⟩

/-- The text of a second build is at least as long as that of the first, and longer if a limit is
visited in one of them. -/
theorem length_lt_of_limited {row : RowId} (hrow : db.rowId? = some row) {b b' : Built}
    (hb : build db flags compileType sql = some b)
    (hb' : build db flags' compileType b.sql = some b')
    (hlim : limited flags sql ∨ limited flags' sql) :
    (textOf b.parts).length < (textOf b'.parts).length := by
  obtain ⟨s, hs, rfl⟩ := build_eq_some.mp hb
  obtain ⟨s', hs', rfl⟩ := build_eq_some.mp hb'
  replace hs' : compile db flags' s.sql = some s' := hs'
  have hv := CompileState.visited_of_compile hrow hs
  have hv' := CompileState.visited_of_compile hrow hs'
  have hlen := hv.length_sql
  -- erasing the limits from the first text, and the growth of the second
  have hshr := linkLength_sublist db (hlen ▸ hv.sub) nodup_range
    (fun j hj => hv.tops j (hlen ▸ mem_range.mp hj)) (db.dialect compileType)
  have hgrow := hv'.length (db.dialect compileType)
  rw [lookup_range, length_range] at hshr
  rw [CompileState.copied_end] at hgrow
  have hera := hv.erased
  have hera' := hv'.erased
  rw [drop_length, limited, Bool.or_false] at hera hera'
  rw [limited_congr hv.shape] at hera'
  rw [hera, hera', decide_eq_true_iff, decide_eq_true_iff] at hlim
  have hle := hv.sub.length_le
  have hle' := hv'.sub.length_le
  rw [length_range] at hle hle'
  show linkLength db (lookup s.sql s.tokens) _ < linkLength db s'.result _
  omega

/-- **A second build gives the same text and host variables exactly if no limit is visited while the
compiler takes the statement for an update or a delete.** Only SQLite and PostgreSQL look at
limits. -/
theorem repeatable_iff (db : Database) (compileType : CompileType) (flags flags' : Flags)
    (sql : List SqlToken) :
    Repeatable db compileType flags flags' sql ↔
    (db.compiler = .sqlite ∨ db.compiler = .postgresql →
        limited flags sql = false ∧ limited flags' sql = false) := by
  cases hrow : db.rowId? with
  | none =>
    have hcom : ¬(db.compiler = .sqlite ∨ db.compiler = .postgresql) := by
      rintro (h | h) <;> simp [Database.rowId?, h] at hrow
    refine ⟨fun _ h => absurd h hcom, fun _ => ?_⟩
    obtain ⟨s, hs, hsql, hfla⟩ :=
      CompileState.foldlM_visit_of_no_rowId hrow (range sql.length) (.start flags sql)
    exact repeatable_of_compile hs hsql (hfla flags') rfl
  | some row =>
    have hcom : db.compiler = .sqlite ∨ db.compiler = .postgresql := by
      unfold Database.rowId? at hrow
      cases hc : db.compiler <;> simp [hc] at hrow ⊢
    constructor
    · rintro ⟨b, b', hb, hb', htext, -⟩ -
      by_contra hlim
      have hlt := length_lt_of_limited hrow hb hb' (by
        rw [not_and_or, Bool.not_eq_false, Bool.not_eq_false] at hlim
        exact hlim)
      rw [htext] at hlt
      exact Nat.lt_irrefl _ hlt
    · intro h
      obtain ⟨s, hs, hsql, htok⟩ := CompileState.exists_compile_of_not_limited hrow (h hcom).1
      obtain ⟨s', hs', hsql', htok'⟩ := CompileState.exists_compile_of_not_limited hrow (h hcom).2
      refine repeatable_of_compile hs hsql hs' ?_
      rw [CompileState.result, CompileState.result, hsql, hsql', htok, htok']

/-- A limited delete for SQLite: the second text has a sub-select in the sub-select. -/
theorem limited_delete_not_repeatable :
    ¬Repeatable (.sqlite fun _ => []) .direct ⟨false, false⟩ ⟨false, true⟩
      (Query.sql ⟨.remove, .clause (.from ['t']) (.where
        (.column (.columnScalar ['a'] .equal (.integral 1))) (.clause (.top 1) .nil))⟩) := by
  rintro ⟨b, b', hb, hb', htext, -⟩
  have hlt := length_lt_of_limited rfl hb hb' (Or.inl rfl)
  rw [htext] at hlt
  exact Nat.lt_irrefl _ hlt

end Matador.Sql
