import Matador.Orm.SessionTransaction

/-!
# A flush after a failed one

If a statement of `session::flush` fails, the transaction of the database is rolled back and the
queue is kept. But the proxies of the objects whose rows had been removed before are deleted, and a
second flush reads them.
-/

namespace Matador.Orm.TransactionalSession

open List Object

def rolledBack (s : TransactionalSession) : TransactionalSession :=
  { s with rows := s.begun.getD s.rows, begun := none }

def statements (s : TransactionalSession) : List (ActionKind × Entry) :=
  (s.proxyChangeQueue.map ProxyChange.log).filter (·.2.data.node ∈ s.tables)

/-- An UPDATE statement finds the key of its object in `proxy_identifier_map_`, with a type like
that of the key the object has now. -/
def Keyed (s : TransactionalSession) (x : ActionKind × Entry) : Prop :=
  x.1 = .update → ∃ pk ∈ s.proxyIdentifierMap x.2.proxy,
    isSimilarType pk (s.resolve x.2.data.node (s.objects x.2.proxy)) = true

instance (s : TransactionalSession) (x : ActionKind × Entry) : Decidable (s.Keyed x) :=
  inferInstanceAs (Decidable (_ → ∃ _ ∈ _, _))

/-- A queue that can be written: its proxies exist, none is used behind its removal, and the keys
are known. -/
structure Writable (s : TransactionalSession) : Prop where
  exist : ∀ x ∈ s.statements, x.2.proxy ∉ s.deleted
  last : s.statements.Pairwise fun x y => x.1 = .delete → x.2.proxy ≠ y.2.proxy
  keyed : ∀ x ∈ s.statements, s.Keyed x

/-- After a flush whose statement `k` fails, the next one reads proxies that exist, and each change
is written once. -/
def Retries (s : TransactionalSession) (k : Nat) : Prop :=
  ((s.flush (some k)).1.rolledBack.flush none).2 = none ∧
    ((s.flush (some k)).1.rolledBack.flush none).1.rows = (s.flush none).1.rows

variable {s s' : TransactionalSession} {x : ActionKind × Entry} {xs : List (ActionKind × Entry)}
  {D : List ProxyPtr}

def deletedBy (x : ActionKind × Entry) (D : List ProxyPtr) : List ProxyPtr :=
  if x.1 = .delete then x.2.proxy :: D else D

theorem mem_deletedBy {p : ProxyPtr} : p ∈ deletedBy x D ↔
    x.1 = .delete ∧ x.2.proxy = p ∨ p ∈ D := by
  unfold deletedBy
  split <;> simp_all [eq_comm]

theorem statement_ok (h : s.statement true x = .ok s') : x.2.proxy ∉ s.deleted ∧
    s' = { s with rows := s'.rows, updates := s'.updates, deleted := deletedBy x s.deleted } ∧
    ∀ D U, x.2.proxy ∉ D → ∃ U', statement { s with deleted := D, updates := U } true x =
      .ok { s' with deleted := deletedBy x D, updates := U' } := by
  obtain ⟨kind, e⟩ := x
  unfold statement at h ⊢
  simp only at h ⊢
  split at h
  · cases h
  · next hp =>
    refine ⟨hp, ?_⟩
    cases kind with
    | insert | delete =>
      cases h
      exact ⟨rfl, fun D U hD => ⟨U, by rw [if_neg hD]; rfl⟩⟩
    | update =>
      simp only at h
      split at h
      · cases h
      · split at h
        · next hsim =>
          cases h
          exact ⟨rfl, fun D U hD => ⟨_, by simp only [if_neg hD, hsim]; rfl⟩⟩
        · cases h

theorem exists_statement_iff : (∃ s', s.statement true x = .ok s') ↔
    x.2.proxy ∉ s.deleted ∧ s.Keyed x := by
  obtain ⟨kind, e⟩ := x
  unfold statement Keyed
  by_cases hp : e.proxy ∈ s.deleted
  · simp [hp]
  · cases kind with
    | insert | delete => simp [hp]
    | update =>
      cases hpk : s.proxyIdentifierMap e.proxy with
      | none => simp [hp, hpk]
      | some pk =>
        simp only [hp, hpk, if_false]
        split <;> simp_all

theorem executeAll_ok_iff : (executeAll true none xs s).2 = none ↔
    (∀ x ∈ xs.filter (·.2.data.node ∈ s.tables), x.2.proxy ∉ s.deleted) ∧
      (xs.filter (·.2.data.node ∈ s.tables)).Pairwise (fun x y => x.1 = .delete →
        x.2.proxy ≠ y.2.proxy) ∧ ∀ x ∈ xs.filter (·.2.data.node ∈ s.tables), s.Keyed x := by
  induction xs generalizing s with
  | nil => simp [executeAll]
  | cons x xs ih =>
    by_cases hx : x.2.data.node ∈ s.tables
    · rw [filter_cons_of_pos (by simpa using hx), executeAll, if_pos hx, forall_mem_cons,
        forall_mem_cons, pairwise_cons]
      have hsta := exists_statement_iff (s := s) (x := x)
      cases hs : s.statement true x with
      | error m =>
        refine ⟨(by cases ·), ?_⟩
        rintro ⟨⟨hp, -⟩, -, hk, -⟩
        obtain ⟨s', hs'⟩ := hsta.mpr ⟨hp, hk⟩
        rw [hs] at hs'
        cases hs'
      | ok s' =>
        obtain ⟨hp, hk⟩ := hsta.mp ⟨s', hs⟩
        obtain ⟨-, heq, -⟩ := statement_ok hs
        dsimp only
        rw [if_neg (by simp), Option.map_none, ih, heq]
        dsimp only
        generalize xs.filter (·.2.data.node ∈ s.tables) = ys
        -- the proxy of a removed object is deleted for the statements behind it
        have hdel : (∀ y ∈ ys, y.2.proxy ∉ deletedBy x s.deleted) ↔
            (∀ y ∈ ys, x.1 = .delete → x.2.proxy ≠ y.2.proxy) ∧
              ∀ y ∈ ys, y.2.proxy ∉ s.deleted := by
          simp only [mem_deletedBy, not_or, not_and, ne_eq, ← forall₂_and]
        have hkey : (∀ y ∈ ys, Keyed { s with
            rows := s'.rows, updates := s'.updates, deleted := deletedBy x s.deleted } y) ↔
            ∀ y ∈ ys, s.Keyed y := Iff.rfl
        rw [hdel, hkey]
        tauto
    · rw [filter_cons_of_neg (by simpa using hx), executeAll, if_neg hx]
      exact ih

theorem executeAll_of_subset (hD : D ⊆ s.deleted) (U : List Update)
    (h : (executeAll true none xs s).2 = none) :
    (∀ x ∈ xs, x.2.data.node ∈ s.tables → x.2.proxy ∉ s.deleted) ∧
      (executeAll true none xs { s with deleted := D, updates := U }).2 = none ∧
      (executeAll true none xs { s with deleted := D, updates := U }).1.rows =
        (executeAll true none xs s).1.rows := by
  induction xs generalizing s D U with
  | nil => exact ⟨nofun, rfl, rfl⟩
  | cons x xs ih =>
    rw [forall_mem_cons]
    unfold executeAll at h ⊢
    split at h
    · next hx =>
      cases hs : s.statement true x with
      | error m =>
        rw [hs] at h
        cases h
      | ok s' =>
        obtain ⟨hp, heq, hsame⟩ := statement_ok hs
        obtain ⟨U', hs'⟩ := hsame D U fun hmem => hp (hD hmem)
        rw [hs] at h
        rw [if_pos hx, if_pos hx, hs']
        have hsub : deletedBy x D ⊆ s'.deleted := by
          rw [heq]
          exact fun p hp => mem_deletedBy.mpr ((mem_deletedBy.mp hp).imp_right (hD ·))
        obtain ⟨hread, hrest⟩ := ih hsub U' h
        rw [heq] at hread
        exact ⟨⟨fun _ => hp, fun y hy ht hmem => hread y hy ht (mem_deletedBy.mpr (.inr hmem))⟩,
          hrest⟩
    · next hx =>
      rw [if_neg hx, if_neg hx]
      obtain ⟨hread, hrest⟩ := ih hD U h
      exact ⟨⟨fun ht => absurd ht hx, hread⟩, hrest⟩

/-- **What a failed flush leaves.** The proxies of the rows that were removed are deleted. -/
theorem executeAll_failed {k : Nat} (h : (executeAll true (some k) xs s).2 ≠ none) :
    ∃ R D U, (executeAll true (some k) xs s).1 = { s with rows := R, deleted := D, updates := U } ∧
    s.deleted ⊆ D ∧ ((executeAll true none xs s).2 = none → ∀ p, p ∈ D ↔ p ∈ s.deleted ∨
        ∃ x ∈ (xs.filter (·.2.data.node ∈ s.tables)).take k, x.1 = .delete ∧ x.2.proxy = p) := by
  induction xs generalizing s k with
  | nil => exact absurd rfl h
  | cons x xs ih =>
    unfold executeAll at h ⊢
    split at h
    · next hx =>
      rw [filter_cons_of_pos (by simpa using hx), if_pos hx, if_pos hx]
      cases hs : s.statement true x with
      | error m => exact ⟨s.rows, s.deleted, s.updates, rfl, fun _ h => h, (by cases ·)⟩
      | ok s' =>
        obtain ⟨-, heq, -⟩ := statement_ok hs
        rw [hs] at h
        cases k with
        | zero => exact ⟨s.rows, s.deleted, s'.updates, rfl, fun _ h => h, fun _ p => by simp⟩
        | succ k =>
          obtain ⟨R, D, U, hres, hsub, hdel⟩ := ih (k := k) h
          rw [heq] at hsub hdel
          refine ⟨R, D, U, ?_, fun p hp => hsub (mem_deletedBy.mpr (.inr hp)), fun hok p => ?_⟩
          · show (executeAll true (some k) xs s').1 = _
            rw [hres, heq]
          · rw [hdel (heq ▸ hok) p, mem_deletedBy, take_succ_cons]
            simp only [mem_cons, exists_eq_or_imp]
            tauto
    · next hx =>
      rw [filter_cons_of_neg (by simpa using hx), if_neg hx, if_neg hx]
      exact ih h

theorem flush_eq (hbeg : s.begun = none) (fails : Option Nat)
    {r : TransactionalSession × Option String}
    (hr : executeAll true fails (s.proxyChangeQueue.map ProxyChange.log)
      { s with begun := some s.rows } = r) : (s.flush fails).2 = r.2 ∧
      (s.flush fails).1.rows = r.1.rows ∧ (r.2 ≠ none → (s.flush fails).1 = r.1) := by
  have hwri : ¬s.begun.isSome := by simp [hbeg]
  obtain ⟨r, m⟩ := r
  unfold flush write
  rw [if_neg hwri, hr]
  cases m with
  | none => exact ⟨rfl, rfl, fun h => absurd rfl h⟩
  | some m => exact ⟨rfl, rfl, fun _ => rfl⟩

theorem flush_ok_iff (hbeg : s.begun = none) : (s.flush none).2 = none ↔ s.Writable := by
  rw [(flush_eq hbeg none rfl).1, executeAll_ok_iff]
  exact ⟨fun ⟨hex, hlast, hkey⟩ => ⟨hex, hlast, hkey⟩, fun h => ⟨h.exist, h.last, h.keyed⟩⟩

/-- **A queue is written by the second flush exactly if it can be written at all and no row had been
removed before the statement that failed.** -/
theorem retries_iff (s : TransactionalSession) (k : Nat) (hbegun : s.begun = none)
    (hfailed : (s.flush (some k)).2 ≠ none) :
    s.Retries k ↔ s.Writable ∧ ∀ x ∈ s.statements.take k, x.1 ≠ .delete := by
  rw [← flush_ok_iff hbegun]
  obtain ⟨herr, -, hsta⟩ := flush_eq hbegun (some k) rfl
  obtain ⟨hok, hrows, -⟩ := flush_eq hbegun none rfl
  rw [herr] at hfailed
  obtain ⟨R, D, U, hres, hsub, hdel⟩ := executeAll_failed hfailed
  have hback : (s.flush (some k)).1.rolledBack =
      { s with deleted := D, updates := U, begun := none } := by
    rw [hsta hfailed, hres]
    rfl
  obtain ⟨hok', hrows', -⟩ :=
    flush_eq (s := { s with deleted := D, updates := U, begun := none }) rfl none rfl
  rw [Retries, hback, hok, hok', hrows, hrows']
  constructor
  · rintro ⟨hret, -⟩
    obtain ⟨hread, hfst, -⟩ := executeAll_of_subset hsub s.updates hret
    refine ⟨hfst, fun x hx hkind => ?_⟩
    obtain ⟨hmem, htbl⟩ := mem_filter.mp (mem_of_mem_take hx)
    exact hread x hmem (of_decide_eq_true htbl) ((hdel hfst _).mpr (.inr ⟨x, hx, hkind, rfl⟩))
  · rintro ⟨hfst, hnone⟩
    refine (executeAll_of_subset (fun p hp => ?_) U hfst).2
    rcases (hdel hfst p).mp hp with hp | ⟨x, hx, hkind, -⟩
    · exact hp
    · exact absurd hkind (hnone x hx)

def removing : TransactionalSession where
  store := ObjectStore.empty
  objects _ := []
  resolve _ _ := .null
  tables := ["person"]
  transactions := []
  proxyChangeQueue :=
    [⟨⟨3, ⟨0, "P", "person", .integral 64 1⟩⟩, .remove⟩,
      ⟨⟨4, ⟨0, "P", "person", .integral 64 2⟩⟩, .remove⟩]
  proxyIdentifierMap _ := none
  deleted := []
  rows p := if p = 3 ∨ p = 4 then some (.integral 64 p) else none
  begun := none
  updates := []

/-- If its first statement fails, the second flush removes both. -/
theorem retries_first : removing.begun = none ∧ (removing.flush (some 0)).2 ≠ none ∧
    removing.Retries 0 :=
  ⟨rfl, by decide, (retries_iff removing 0 rfl (by decide)).mpr ⟨⟨by decide, by decide, by decide⟩,
    nofun⟩⟩

/-- If its second statement fails, the second flush reads the deleted proxy of the first. -/
theorem second_flush_undefined : (removing.flush (some 1)).2 = some "statement failed" ∧
    ((removing.flush (some 1)).1.rolledBack.flush none).2 = some "undefined" :=
  ⟨by decide, by decide⟩

end Matador.Orm.TransactionalSession
