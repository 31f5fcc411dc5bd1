import Matador.Object.Inserter
import Matador.Object.NestedTransaction
import Matador.Orm.FlushSync

/-!
# Transactions of a session

A change is written to the database by `session::flush`, or, if a transaction is open, when this is
committed. Both execute one statement for each changed object. `table::update` looks for the row
under the key that `persistence::register_proxy_update` has remembered in `proxy_identifier_map_`
when the object was modified first. The map is cleared by `flush` only.

Of the database it is assumed that it rejects `begin` inside a transaction, as SQLite does (MySQL
would commit the open one), and that its `commit` succeeds; any other statement may fail. New
proxies have any address that is not in use. Objects have plain attributes only.
-/

namespace Matador.Orm

open Function Lib Object

structure Update where
  proxy : ProxyPtr
  /-- the key in the WHERE clause -/
  pk : Identifier
  /-- the key under which the row of the object was last written -/
  row : Option Identifier
  deriving DecidableEq

/-- The key in the WHERE clause is that of the row. -/
def Update.Matches (u : Update) : Prop := ∀ k ∈ u.row, u.pk = k

structure OpenTransaction where
  data : Transaction
  committing : Bool

structure TransactionalSession where
  store : ObjectStore
  objects : ProxyPtr → Attributes
  /-- `identifier_resolver`: the value of the primary key field of an object of a type, as a
  statement gets it -/
  resolve : String → Attributes → Identifier
  tables : List String
  /-- `transactions_`, the current one first -/
  transactions : List OpenTransaction
  proxyChangeQueue : List ProxyChange
  proxyIdentifierMap : ProxyPtr → Option Identifier
  /-- proxies that have been deleted -/
  deleted : List ProxyPtr
  /-- the key under which the row of an object was last written -/
  rows : ProxyPtr → Option Identifier
  /-- the rows at the begin of a transaction of the database that is still open -/
  begun : Option (ProxyPtr → Option Identifier)
  updates : List Update

namespace TransactionalSession

abbrev proxies (s : TransactionalSession) : ProxyPtr → Option ObjectProxy := s.store.lists.proxies

def pending (s : TransactionalSession) : List (ActionKind × Entry) :=
  s.proxyChangeQueue.map ProxyChange.log ++ s.transactions.flatMap fun t => logOf t.data.actions

/-- There is a proxy at an address. -/
def InUse (s : TransactionalSession) (p : ProxyPtr) : Prop :=
  (s.proxies p).isSome ∨ p ∉ s.deleted ∧ p ∈ s.pending.map fun x => x.2.proxy

instance (s : TransactionalSession) (p : ProxyPtr) : Decidable (s.InUse p) :=
  inferInstanceAs (Decidable (_ ∨ _ ∧ _))

/-! ## Statements -/

def isSimilarType : Identifier → Identifier → Bool
  | .integral _ _, .integral _ _ | .string _, .string _ | .null, .null => true
  | _, _ => false

/-- `table::insert`, `table::update` and `table::remove`; `flush` deletes the proxy of a removed
object at once. -/
def statement (s : TransactionalSession) (flushing : Bool) (x : ActionKind × Entry) :
    Except String TransactionalSession :=
  let p := x.2.proxy
  let key := s.resolve x.2.data.node (s.objects p)
  if p ∈ s.deleted then .error "undefined"
  else
    match x.1 with
    | .insert => .ok { s with rows := update s.rows p (some key) }
    | .update =>
      match s.proxyIdentifierMap p with
      | none => .error "couldn't find proxy"
      | some pk =>
        if isSimilarType pk key then
          .ok { s with
            rows := update s.rows p (some key)
            updates := s.updates ++ [⟨p, pk.bound, s.rows p⟩] }
        else .error "identifier types aren't equal"
    | .delete =>
      .ok { s with
        rows := update s.rows p none
        deleted := if flushing then p :: s.deleted else s.deleted }

/-- One statement after another; the database may reject the one with the number `fails`. -/
def executeAll (flushing : Bool) (fails : Option Nat) :
    List (ActionKind × Entry) → TransactionalSession → TransactionalSession × Option String
  | [], s => (s, none)
  | x :: xs, s =>
    if x.2.data.node ∈ s.tables then
      match s.statement flushing x with
      | .error m => (s, some m)
      | .ok s' =>
        if fails = some 0 then ({ s with updates := s'.updates }, some "statement failed")
        else executeAll flushing (fails.map (· - 1)) xs s'
    else executeAll flushing fails xs s

/-- The statements inside a transaction of the database, which stays open if one of them fails. -/
def write (s : TransactionalSession) (flushing : Bool) (fails : Option Nat)
    (xs : List (ActionKind × Entry)) : TransactionalSession × Option String :=
  if s.begun.isSome then (s, some "cannot start a transaction within a transaction")
  else
    match executeAll flushing fails xs { s with begun := some s.rows } with
    | (s', some m) => (s', some m)
    | (s', none) => ({ s' with begun := none }, none)

/-- The proxies of the objects that have been removed from their tables. -/
def removed (tables : List String) (xs : List (ActionKind × Entry)) : List ProxyPtr :=
  (xs.filter fun x => x.1 = .delete ∧ x.2.data.node ∈ tables).map (·.2.proxy)

def inserted (xs : List (ActionKind × Entry)) : List ProxyPtr :=
  (xs.filter (·.1 = .insert)).map (·.2.proxy)

/-! ## Calls -/

inductive Op
  /-- `insert` of an object whose proxy gets the address `p`; the attributes are those once the key
  is set -/
  | insert (p : ProxyPtr) (object : NewObject) (attributes : Attributes)
  /-- `object_ptr::modify` and what is assigned through the pointer -/
  | modify (p : ProxyPtr) (attributes : Attributes)
  | save (p : ProxyPtr) (fails : Option Nat)
  | remove (p : ProxyPtr)
  | begin
  | commit (fails : Option Nat)
  | rollback
  | flush (fails : Option Nat)

def insert (s : TransactionalSession) (p : ProxyPtr) (o : NewObject) (attributes : Attributes) :
    TransactionalSession × Option String :=
  if s.InUse p then (s, none)
  else
    let o := TransactionState.resolveKey s.store o
    match s.store.lists.tree.findPrototypeNode o.classname with
    | .error m => (s, some m)
    | .ok none => (s, some "couldn't find object type")
    | .ok (some n) =>
      let r := s.store.linkAt p o n
      let s := { s with
        store := r.1
        objects := update s.objects p attributes
        deleted := s.deleted.filter (· ≠ p)
        -- the new object has no row
        rows := update s.rows p none
        begun := s.begun.map fun rows => update rows p none }
      match s.transactions with
      | [] => ({ s with
          store := r.1.mapProxy p r.2
          -- a change that is queued for a deleted proxy is taken for one of the new proxy
          proxyChangeQueue := registerProxyInsert ⟨p, r.2⟩ (s.proxyChangeQueue.map fun c =>
            if c.entry.proxy = p then { c with entry := ⟨p, r.2⟩ } else c) }, none)
      | t :: ts =>
        match t.data.onInsert ⟨p, r.2⟩ with
        | .error m => (s, some m)
        | .ok data =>
            ({ s with store := r.1.mapProxy p r.2, transactions := { t with data := data } :: ts },
              none)

/-- `transaction::on_update` of the current transaction. -/
def onUpdate (s : TransactionalSession) (e : Entry) : TransactionalSession :=
  match s.transactions with
  | [] => s
  | t :: ts =>
      { s with transactions := { t with data := t.data.onUpdate e (s.objects e.proxy) } :: ts }

/-- `persistence::register_proxy_update`. -/
def register (s : TransactionalSession) (e : Entry) : TransactionalSession :=
  { s with
    proxyIdentifierMap := insertNew s.proxyIdentifierMap e.proxy e.data.pk
    proxyChangeQueue :=
      if s.transactions.isEmpty then registerProxyUpdate e s.proxyChangeQueue
      else s.proxyChangeQueue }

def markModified (s : TransactionalSession) (e : Entry) : TransactionalSession :=
  (s.register e).onUpdate e

def modify (s : TransactionalSession) (p : ProxyPtr) (attributes : Attributes) :
    TransactionalSession :=
  match s.proxies p with
  | none => s
  | some data =>
    { s.markModified ⟨p, data⟩ with
      objects :=
        if attributes.shape = (s.objects p).shape then update s.objects p attributes
        else s.objects }

/-- `object_store::remove` of one object. -/
def remove (s : TransactionalSession) (p : ProxyPtr) : TransactionalSession × Option String :=
  match s.proxies p with
  | none => (s, some "prototype node is nullptr")
  | some data =>
    match s.store.removeProxy p data with
    | .error m => (s, some m)
    | .ok store =>
      match s.transactions with
      | [] =>
        let unwritten := (findChange p s.proxyChangeQueue).any (·.action = .insert)
        ({ s with
          store := store
          proxyChangeQueue := registerProxyDelete ⟨p, data⟩ s.proxyChangeQueue
          deleted := if unwritten then p :: s.deleted else s.deleted }, none)
      | t :: ts =>
        match t.data.onDelete ⟨p, data⟩ (s.objects p) with
        | .error m => ({ s with store := store }, some m)
        | .ok d => ({ s with store := store, transactions := { t with data := d } :: ts }, none)

def flush (s : TransactionalSession) (fails : Option Nat) : TransactionalSession × Option String :=
  match s.write true fails (s.proxyChangeQueue.map ProxyChange.log) with
  | (s', some m) => (s', some m)
  | (s', none) => ({ s' with proxyChangeQueue := [], proxyIdentifierMap := fun _ => none }, none)

/-- `session::save` of an `object_ptr`: with an open transaction the key is not remembered. -/
def save (s : TransactionalSession) (p : ProxyPtr) (fails : Option Nat) :
    TransactionalSession × Option String :=
  match s.proxies p with
  | none => (s, none)
  | some data =>
    if s.transactions.isEmpty then (s.markModified ⟨p, data⟩).flush fails
    else (s.onUpdate ⟨p, data⟩, none)

/-- `transaction::commit` of the current transaction. -/
def commit (s : TransactionalSession) (fails : Option Nat) : TransactionalSession × Option String :=
  match s.transactions with
  | [] => (s, none)
  | t :: ts =>
    let xs := logOf t.data.actions
    match { s with transactions := { t with committing := true } :: ts }.write false fails xs with
    | (s', some m) => (s', some m)
    | (s', none) =>
        ({ s' with transactions := ts, deleted := removed s.tables xs ++ s'.deleted }, none)

/-- The loop of `transaction::rollback`, with the actions that are left if one of them throws. -/
def restoreActions (deleted : List ProxyPtr) :
    List Action → TransactionState → TransactionState × List Action × Option String
  | [], s => (s, [], none)
  | a :: as, s =>
    if a.entries.any (·.proxy ∈ deleted) then (s, as, some "undefined")
    else
      match s.restore a with
      | .error m => (s, as, some m)
      | .ok s => restoreActions deleted as s

/-- `transaction::rollback` of the current transaction. -/
def rollback (s : TransactionalSession) : TransactionalSession × Option String :=
  match s.transactions with
  | [] => (s, some "transaction: transaction isn't current transaction")
  | t :: ts =>
    match restoreActions s.deleted t.data.actions ⟨s.store, s.objects, t.data⟩ with
    | (r, rest, some m) =>
      ({ s with
        store := r.store
        objects := r.objects
        transactions := { t with data := { r.transaction with actions := rest } } :: ts }, some m)
    | (r, _, none) =>
      ({ s with
        store := r.store
        objects := r.objects
        transactions := ts
        deleted := inserted (logOf t.data.actions) ++ s.deleted
        -- `session_transaction_observer::on_rollback`
        rows := if t.committing then s.begun.getD s.rows else s.rows
        begun := if t.committing then none else s.begun }, none)

def call (s : TransactionalSession) : Op → TransactionalSession × Option String
  | .insert p o attributes => s.insert p o attributes
  | .modify p attributes => (s.modify p attributes, none)
  | .save p fails => s.save p fails
  | .remove p => s.remove p
  | .begin => ({ s with transactions := ⟨Transaction.empty, false⟩ :: s.transactions }, none)
  | .commit fails => s.commit fails
  | .rollback => s.rollback
  | .flush fails => s.flush fails

def step (s : TransactionalSession) (op : Op) : TransactionalSession := (s.call op).1

/-! ## The observer of the transactions -/

structure Written where
  rows : ProxyPtr → Option Identifier
  begun : Option (ProxyPtr → Option Identifier)
  updates : List Update

def written (s : TransactionalSession) : Written := ⟨s.rows, s.begun, s.updates⟩

def withWritten (s : TransactionalSession) (w : Written) : TransactionalSession :=
  { s with rows := w.rows, begun := w.begun, updates := w.updates }

/-- `session_transaction_observer`. -/
def observer (s : TransactionalSession) (fails : Option Nat) : Observer Written where
  onCommit actions w :=
    let r := (s.withWritten w).write false fails (logOf actions)
    (r.1.written, r.2)
  onRollback w := ({ w with rows := w.begun.getD w.rows, begun := none }, none)
  marks type := type ∈ s.tables

/-- The transactions under their handles; the first one has the id 0. -/
def handles (s : TransactionalSession) (o : Observer Written) : HandleState Written where
  store := s.store
  objects := s.objects
  transactions := (List.range s.transactions.length).reverse
  logs id := (s.transactions.map OpenTransaction.data).reverse[id]?.getD Transaction.empty
  observers _ := o
  deleted := s.deleted
  world := s.written

theorem statement_written {s s' : TransactionalSession} {x : ActionKind × Entry}
    (h : s.statement false x = .ok s') : s' = s.withWritten s'.written := by
  unfold statement at h
  dsimp only at h
  split at h
  · cases h
  · split at h
    · cases h
      rfl
    · split at h
      · cases h
      · split at h
        · cases h
          rfl
        · cases h
    · cases h
      rfl

theorem executeAll_written (s : TransactionalSession) (fails : Option Nat)
    (xs : List (ActionKind × Entry)) :
    (executeAll false fails xs s).1 = s.withWritten (executeAll false fails xs s).1.written := by
  induction xs generalizing s fails with
  | nil => rfl
  | cons x xs ih =>
    rw [executeAll]
    split
    · cases hst : s.statement false x with
      | error m => rfl
      | ok s' =>
        dsimp only
        split
        · rfl
        · rw [ih s', statement_written hst]
          rfl
    · exact ih s fails

theorem write_written (s : TransactionalSession) (fails : Option Nat)
    (xs : List (ActionKind × Entry)) :
    (s.write false fails xs).1 = s.withWritten (s.write false fails xs).1.written := by
  rw [write]
  split
  · rfl
  · have hexe := executeAll_written { s with begun := some s.rows } fails xs
    cases hr : executeAll false fails xs { s with begun := some s.rows } with
    | mk s' m =>
      rw [hr] at hexe
      cases m with
      | none =>
        dsimp only at hexe ⊢
        rw [hexe]
        rfl
      | some m => exact hexe

theorem update_logs (log : Transaction) (logs : List Transaction) :
    update (fun id => (log :: logs).reverse[id]?.getD Transaction.empty) logs.length
      Transaction.empty = fun id => logs.reverse[id]?.getD Transaction.empty := by
  funext id
  rw [List.reverse_cons, update_apply]
  split
  · next hid => simp [hid]
  · next hid =>
    rcases Nat.lt_or_gt_of_ne hid with hlt | hgt
    · rw [List.getElem?_append_left (by simpa using hlt)]
    · rw [List.getElem?_eq_none (by simpa using hgt), List.getElem?_eq_none (by simpa using hgt.le)]

/-- **The commit of a session** is that of its current transaction, with the observer of the
session. -/
theorem commit_handles {s : TransactionalSession} {t : OpenTransaction} {ts : List OpenTransaction}
    (hs : s.transactions = t :: ts) (fails : Option Nat) :
    let s₁ : TransactionalSession := { s with transactions := { t with committing := true } :: ts }
    (s.handles (s₁.observer fails)).commit ts.length =
      some ((s.commit fails).1.handles (s₁.observer fails), (s.commit fails).2) := by
  intro s₁
  have hlog : (s.handles (s₁.observer fails)).logs ts.length = t.data := by simp [handles, hs]
  have hwri := write_written s₁ fails (logOf t.data.actions)
  have htold : (s.handles (s₁.observer fails)).told ts.length =
      ((s₁.write false fails (logOf t.data.actions)).1.written,
        (s₁.write false fails (logOf t.data.actions)).2) := by
    rw [HandleState.told, hlog]
    rfl
  rw [HandleState.commit, htold, TransactionalSession.commit, hs]
  dsimp only
  cases hr : s₁.write false fails (logOf t.data.actions) with
  | mk s' m =>
    rw [hr] at hwri
    dsimp only at hwri
    cases m with
    | some m =>
      rw [hwri]
      simp only [handles, hs]
      rfl
    | none =>
      have hrem : (s.handles (s₁.observer fails)).removed ts.length =
          removed s.tables (logOf t.data.actions) := by
        rw [HandleState.removed, hlog, removed]
        simp only [handles, observer, decide_eq_true_eq]
        rfl
      have hids : (s.handles (s₁.observer fails)).transactions =
          ts.length :: (List.range ts.length).reverse := by
        simp [handles, hs, List.range_succ]
      have hupd := update_logs t.data (ts.map OpenTransaction.data)
      rw [List.length_map] at hupd
      simp only [HandleState.cleanup, hids, hrem]
      rw [hwri]
      simp only [handles, hs, List.map_cons, hupd]
      rfl

end TransactionalSession

end Matador.Orm
