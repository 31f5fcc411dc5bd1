import Matador.Object.Rollback

/-!
# Nested transactions

The store tells only the transaction on top of its stack of a change. When an inner transaction is
committed its log is cleared and the proxies it has removed are deleted; the transaction below never
hears of its changes. So the rollback of the outer transaction is right if the inner one has changed
only objects that the transaction below has an action for anyway (`Covered`).
-/

namespace Matador.Object

open Function Lib PrototypeTree Option

structure NestedState where
  store : ObjectStore
  objects : ProxyPtr → Attributes
  transactions : List Transaction
  /-- the proxies that have been deleted -/
  deleted : List ProxyPtr

namespace NestedState

def begin (store : ObjectStore) (objects : ProxyPtr → Attributes) : NestedState :=
  ⟨store, objects, [Transaction.empty], []⟩

def current (s : NestedState) (t : Transaction) : TransactionState := ⟨s.store, s.objects, t⟩

/-- The proxies of the `delete_action`s. -/
def removed (t : Transaction) : List ProxyPtr :=
  ((logOf t.actions).filter (·.1 = .delete)).map (·.2.proxy)

inductive Op
  | begin
  | commit
  | call (op : TransactionState.Op)

def step (s : NestedState) : Op → NestedState
  | .begin => { s with transactions := Transaction.empty :: s.transactions }
  | .commit =>
    match s.transactions with
    | [] => s
    | t :: ts => { s with transactions := ts, deleted := removed t ++ s.deleted }
  | .call op =>
    match s.transactions with
    | [] =>
      -- nothing is logged, and a removed proxy is deleted at once
      let r := (s.current Transaction.empty).step op
      { s with
        store := r.store, objects := r.objects, deleted := removed r.transaction ++ s.deleted }
    | t :: ts =>
      let r := (s.current t).step op
      { s with store := r.store, objects := r.objects, transactions := r.transaction :: ts }

/-- `transaction::rollback` of the current transaction. -/
def rollback (s : NestedState) : NestedState × Option String :=
  match s.transactions with
  | [] => (s, some "transaction: transaction isn't current transaction")
  | t :: ts =>
    -- an action of a deleted proxy cannot be restored
    if t.actions.any fun a => a.entries.any (·.proxy ∈ s.deleted) then (s, some "undefined")
    else
      match (s.current t).rollback with
      | (r, none) => (⟨r.store, r.objects, ts, s.deleted⟩, none)
      | (r, some m) => ({ s with store := r.store, objects := r.objects }, some m)

def depth (n : Nat) : Op → Nat
  | .begin => n + 1
  | .commit => n - 1
  | .call _ => n

theorem length_step (s : NestedState) (op : Op) :
    (s.step op).transactions.length = depth s.transactions.length op := by
  cases op with
  | begin => rfl
  | commit =>
    rw [step]
    cases hts : s.transactions with
    | nil => simp [hts, depth]
    | cons t ts => rfl
  | call op =>
    rw [step]
    cases hts : s.transactions with
    | nil => simp [depth]
    | cons t ts => rfl

theorem length_run (s : NestedState) (ops : List Op) :
    (ops.foldl step s).transactions.length = ops.foldl depth s.transactions.length := by
  induction ops generalizing s with
  | nil => rfl
  | cons op ops ih => rw [List.foldl_cons, List.foldl_cons, ih, length_step]

/-- The log of `t` has only updates, and of objects that the transaction below has an action for. -/
def Covered (below t : Transaction) : Prop :=
  ∀ x ∈ logOf t.actions, x.1 = .update ∧ (below.idActionIndexMap x.2.data.id).isSome

instance (below t : Transaction) : Decidable (Covered below t) :=
  inferInstanceAs (Decidable (∀ x ∈ logOf t.actions, _ ∧ _))

/-- The calls a rollback of the outer transaction undoes. -/
def Fits (s : NestedState) : Op → Prop
  | .begin => True
  | .commit => ∃ t ∈ s.transactions[0]?, ∃ below ∈ s.transactions[1]?, Covered below t
  | .call op => ∀ t ∈ s.transactions.head?, (s.current t).Undoable op

instance (s : NestedState) (op : Op) : Decidable (s.Fits op) :=
  match op with
  | .begin => .isTrue trivial
  | .commit => inferInstanceAs (Decidable (∃ _ ∈ _, ∃ _ ∈ _, _))
  | .call _ => inferInstanceAs (Decidable (∀ _ ∈ _, _))

end NestedState

/-! ## What an inner transaction leaves alone -/

theorem Kept.trans {S : List ProxyPtr} {store₀ store₁ store : ObjectStore}
    (h₁ : Kept S store₀ store₁) (h : Kept S store₁ store) : Kept S store₀ store :=
  { h with sigs := h.sigs.trans h₁.sigs, next := h₁.next.trans h.next, seq := h₁.seq.trans h.seq }

namespace TransactionState

/-- Proxies that exist in `s` and are not stored there stay as they are. -/
structure Frame (s s' : TransactionState) : Prop where
  next : s.store.lists.tree.nextProxy ≤ s'.store.lists.tree.nextProxy
  objects : ∀ p < s.store.lists.tree.nextProxy, s.proxies p = none →
    s'.proxies p = none ∧ s'.objects p = s.objects p

theorem Frame.trans {s s' s'' : TransactionState} (h : Frame s s') (h' : Frame s' s'') :
    Frame s s'' where
  next := h.next.trans h'.next
  objects := fun p hp hnone => by
    obtain ⟨hnone', hobs⟩ := h.objects p hp hnone
    obtain ⟨hnone'', hobs'⟩ := h'.objects p (lt_of_lt_of_le hp h.next) hnone'
    exact ⟨hnone'', hobs'.trans hobs⟩

theorem frame_step (s : TransactionState) {op : Op} (hop : s.LogFits op) : Frame s (s.step op) := by
  cases op with
  | insert o attributes =>
    have hfrm {store : ObjectStore} {p : ProxyPtr} {d : ObjectProxy}
        (hlink : s.store.link (resolveKey s.store o) = .ok (store, p, d)) {store' : ObjectStore}
        (hlis : store'.lists = store.lists) (t : Transaction) :
        Frame s ⟨store', update s.objects p attributes, t⟩ := by
      obtain ⟨hp, -, -, hnext, hpxs⟩ := link_store hop hlink
      refine ⟨?_, fun q hq hnone => ?_⟩
      · dsimp only
        rw [hlis, hnext]
        exact Nat.le_succ _
      · have hne : q ≠ p := fun heq => Nat.lt_irrefl _ (hp ▸ heq ▸ hq)
        refine ⟨?_, update_of_ne hne ..⟩
        show store'.lists.proxies q = none
        rw [hlis, hpxs, update_of_ne hne]
        exact hnone
    show Frame s (s.insert o attributes).1
    unfold insert
    split
    · exact ⟨Nat.le_refl _, fun _ _ hnone => ⟨hnone, rfl⟩⟩
    · next store p d hlink =>
      have hmap : (store.mapProxy p d).lists = store.lists := rfl
      split
      · exact hfrm hlink rfl _
      · exact hfrm hlink hmap _
  | modify p attributes =>
    show Frame s (s.modify p attributes).1
    unfold modify
    split
    · exact ⟨Nat.le_refl _, fun _ _ hnone => ⟨hnone, rfl⟩⟩
    · next d hd =>
      refine ⟨Nat.le_refl _, fun q _ hnone => ⟨hnone, ?_⟩⟩
      have hne : q ≠ p := by
        rintro rfl
        rw [hd] at hnone
        cases hnone
      split
      · exact update_of_ne hne ..
      · rfl
  | remove p =>
    show Frame s (s.remove p).1
    unfold remove
    split
    · exact ⟨Nat.le_refl _, fun _ _ hnone => ⟨hnone, rfl⟩⟩
    · split
      · exact ⟨Nat.le_refl _, fun _ _ hnone => ⟨hnone, rfl⟩⟩
      · next store hsto =>
        obtain ⟨-, hnext, hpxs⟩ := removeProxy_store hsto
        have hfrm (t : Transaction) : Frame s { s with store := store, transaction := t } := by
          refine ⟨hnext.ge, fun q _ hnone => ⟨?_, rfl⟩⟩
          show store.lists.proxies q = none
          rw [hpxs, update_apply]
          split
          · rfl
          · exact hnone
        split
        · exact hfrm _
        · exact hfrm _

/-! ## Dropping a covered log -/

section Commit

variable {S : List ProxyPtr} {s₀ s₁ s : TransactionState} {done done' : List Op}

theorem UndoInv.beginOk (h : UndoInv S s₀ done s) (hbeg : BeginOk s₀.store) : BeginOk s.store where
  mapped := h.log.mapped
  ids := fun p d hd => by
    rcases h.log.net.old_or_new hd with hold | hnew
    · exact hbeg.ids p d hold
    · exact Nat.ne_of_gt (Nat.zero_lt_of_lt hnew)
  keyed := h.undo.kept.keyed
  nulls := h.undo.kept.nulls

theorem UndoInv.proxies_eq (h : UndoInv S s₀ done s)
    (hupd : ∀ x ∈ logOf s.transaction.actions, x.1 = .update) : s.proxies = s₀.proxies :=
  funext fun p => h.undo.net.rest p fun _ e he hkind => absurd (hupd (_, e) he) hkind

/-- **A covered log may be dropped**: the transaction below still undoes everything. -/
theorem UndoInv.commit (h₁ : UndoInv S s₀ done s₁)
    (h : UndoInv S (begin s₁.store s₁.objects) done' s) (hfrm : Frame s₁ s)
    (hcov : NestedState.Covered s₁.transaction s.transaction) :
    UndoInv S s₀ done ⟨s.store, s.objects, s₁.transaction⟩ := by
  have hpxs : s.proxies = s₁.proxies := h.proxies_eq fun x hx => (hcov x hx).1
  have hkeys : s.store.lists.tree.idMapOf = s₁.store.lists.tree.idMapOf := by
    funext type k
    exact h.undo.keys.rest type k fun _ e he hkind => absurd (hcov (_, e) he).1 hkind
  -- what the inner transaction has changed is in the log of the outer one
  have hinn {p : ProxyPtr} (hp : p ∈ (logOf s.transaction.actions).map fun x => x.2.proxy) :
      p ∈ (logOf s₁.transaction.actions).map fun x => x.2.proxy := by
    obtain ⟨⟨kind, e⟩, he, rfl⟩ := List.mem_map.mp hp
    obtain ⟨hkind, hind⟩ := hcov (kind, e) he
    subst hkind
    exact h₁.log.recorded e.proxy e.data (h.undo.net.update e he).1 hind
  exact {
    log := {
      mapped := h.log.mapped
      net := hpxs.symm ▸ h₁.log.net
      inserts := h₁.log.inserts
      types := h₁.log.types
      indexed := h₁.log.indexed
      recorded := fun p d hd => h₁.log.recorded p d (hpxs ▸ hd)
      bounded := fun i hi => (h₁.log.bounded i hi).trans h.log.seq_le
      modified := fun p attributes d hmem hd => h₁.log.modified p attributes d hmem (hpxs ▸ hd)
      addresses := fun p hp => h₁.log.addresses p (hfrm.next.trans hp)
      seq_le := h₁.log.seq_le.trans h.log.seq_le }
    undo := {
      kept := h₁.undo.kept.trans h.undo.kept
      net := hpxs.symm ▸ h₁.undo.net
      keys := hkeys.symm ▸ h₁.undo.keys
      resolves := h₁.undo.resolves
      shapes := fun p hp => by
        refine Eq.trans ?_ (h₁.undo.shapes p hp)
        by_cases hstd : (s₁.proxies p).isSome
        · exact h.undo.shapes p hstd
        · have hlt : p < s₁.store.lists.tree.nextProxy := by
            by_contra hle
            rw [h₁.log.addresses p (Nat.le_of_not_lt hle)] at hp
            cases hp
          exact congrArg _ (hfrm.objects p hlt (not_isSome_iff_eq_none.mp hstd)).2
      values := fun p hp hout => by
        have hstd : (s₁.proxies p).isSome := by
          rw [h₁.undo.net.eq_before hout]
          exact hp
        exact (h.undo.values p hstd fun hin => hout (hinn hin)).trans (h₁.undo.values p hp hout)
      buffer := h₁.undo.buffer } }

/-! ## The stack of transactions -/

/-- Every transaction of the stack can be undone down to the state in which it began: `s` is the
store with the current transaction, and the others are those below it. -/
inductive Layers (S : List ProxyPtr) (s₀ : TransactionState) :
    TransactionState → List Transaction → Prop
  | outer {s : TransactionState} {done : List Op} : UndoInv S s₀ done s → Layers S s₀ s []
  | inner {s₁ s : TransactionState} {done : List Op} {ts : List Transaction} : Layers S s₀ s₁ ts →
      UndoInv S (begin s₁.store s₁.objects) done s → Frame s₁ s →
        Layers S s₀ s (s₁.transaction :: ts)

variable {ts : List Transaction}

theorem Layers.beginOk (h : Layers S s₀ s ts) (hbeg : BeginOk s₀.store) : BeginOk s.store := by
  induction h with
  | outer h => exact h.beginOk hbeg
  | inner _ h _ ih => exact h.beginOk ih

theorem Layers.lists (h : Layers S s₀ s ts) :
    ∃ own segs, ListsInv own segs s.store.lists ∧ sentinels segs = S := by
  cases h with
  | outer h | inner _ h _ => exact h.undo.kept.lists

theorem Layers.call (h : Layers S s₀ s ts) {op : Op} (hop : s.Undoable op) :
    Layers S s₀ (s.step op) ts := by
  cases h with
  | outer h => exact .outer (step_undoInv _ s op h hop)
  | inner h₁ h hfrm => exact .inner h₁ (step_undoInv _ s op h hop) (hfrm.trans (frame_step s hop.1))

theorem Layers.begin (h : Layers S s₀ s ts) (hbeg : BeginOk s₀.store) :
    Layers S s₀ (begin s.store s.objects) (s.transaction :: ts) := by
  obtain ⟨own, segs, hinv, rfl⟩ := h.lists
  exact .inner h (undoInv_begin (h.beginOk hbeg) s.objects hinv) ⟨Nat.le_refl _, fun _ _ hnone =>
    ⟨hnone, rfl⟩⟩

theorem Layers.commit {below : Transaction} (h : Layers S s₀ s (below :: ts))
    (hcov : NestedState.Covered below s.transaction) :
    Layers S s₀ ⟨s.store, s.objects, below⟩ ts := by
  cases h with
  | inner h₁ h hfrm =>
    cases h₁ with
    | outer h₁ => exact .outer (h₁.commit h hfrm hcov)
    | inner h₂ h₁ hfrm₁ =>
      exact .inner h₂ (h₁.commit h hfrm hcov) ⟨(hfrm₁.trans hfrm).next, (hfrm₁.trans hfrm).objects⟩

end Commit

end TransactionState

namespace NestedState

open TransactionState

/-- All open transactions can be undone, and no proxy has been deleted. -/
structure Nested (S : List ProxyPtr) (s₀ : TransactionState) (s : NestedState) : Prop where
  layers : ∃ t ts, s.transactions = t :: ts ∧ Layers S s₀ (s.current t) ts
  deleted : s.deleted = []

theorem removed_of_updates {t : Transaction} (h : ∀ x ∈ logOf t.actions, x.1 = .update) :
    removed t = [] := by
  rw [removed, List.map_eq_nil_iff, List.filter_eq_nil_iff]
  intro x hx
  rw [h x hx]
  decide

/-- **Every call that fits keeps the stack undoable.** -/
theorem Nested.step {S : List ProxyPtr} {s₀ : TransactionState} (hbeg : BeginOk s₀.store)
    (s : NestedState) (op : Op) (h : Nested S s₀ s) (hop : s.Fits op) :
    Nested S s₀ (s.step op) := by
  obtain ⟨⟨t, ts, hts, hlay⟩, hdel⟩ := h
  cases op with
  | begin =>
    refine ⟨⟨Transaction.empty, s.transactions, rfl, ?_⟩, hdel⟩
    rw [hts]
    exact hlay.begin hbeg
  | commit =>
    obtain ⟨t', ht', below, hbel, hop⟩ := hop
    rw [hts] at ht' hbel
    obtain rfl : t = t' := some.inj ht'
    rw [NestedState.step, hts]
    cases ts with
    | nil => cases hbel
    | cons below' ts =>
      obtain rfl : below' = below := some.inj hbel
      refine ⟨⟨below', ts, rfl, hlay.commit hop⟩, ?_⟩
      dsimp only
      rw [removed_of_updates fun x hx => (hop x hx).1, hdel]
      rfl
  | call op =>
    rw [Fits, hts] at hop
    rw [NestedState.step, hts]
    exact ⟨⟨_, ts, rfl, hlay.call (hop t rfl)⟩, hdel⟩

theorem rollback_of_closed {store : ObjectStore} (hbegin : BeginOk store)
    {objects : ProxyPtr → Attributes} {ops : List Op}
    (h : RunMeets step Fits (begin store objects) ops) {t : Transaction}
    (ht : (ops.foldl step (begin store objects)).transactions = [t])
    (hread : ∀ x ∈ logOf t.actions, x.1 ≠ .insert →
      ((ops.foldl step (begin store objects)).objects x.2.proxy).Restorable (objects x.2.proxy)) :
    (ops.foldl step (begin store objects)).deleted = [] ∧
      ((ops.foldl step (begin store objects)).current t).rollback.2 = none ∧
      SameObjects (TransactionState.begin store objects)
        ((ops.foldl step (begin store objects)).current t).rollback.1 := by
  obtain ⟨own, segs, hinv⟩ := hbegin.mapped.lists
  have hsta :
      Nested (sentinels segs) (TransactionState.begin store objects) (begin store objects) :=
    ⟨⟨Transaction.empty, [], rfl, .outer (undoInv_begin hbegin objects hinv)⟩, rfl⟩
  obtain ⟨⟨t', ts, hts, hlay⟩, hdel⟩ := RunMeets.invariant (Nested.step hbegin) hsta h
  generalize ops.foldl step (begin store objects) = s at *
  -- only the outer transaction is open
  obtain ⟨rfl, rfl⟩ := List.cons.inj (hts.symm.trans ht)
  cases hlay with
  | outer hundo =>
    obtain ⟨hok, hrest⟩ := restoreAll_spec hbegin ⟨own, segs, hinv, rfl⟩ _ hundo.undo
      fun k e he hk => hread (k, e) he hk
    exact ⟨hdel, hok, hrest.sameObjects hbegin⟩

/-- **The rollback of the outer transaction.** After any run of calls that fit, in which
transactions have been begun inside and committed, the rollback leaves the objects of the store with
the ids and values they had when the outer transaction began, if what has been saved of them can be
read back. -/
theorem outer_rollback_of_run {store : ObjectStore} (hbegin : BeginOk store)
    (objects : ProxyPtr → Attributes) (ops : List Op)
    (h : RunMeets step Fits (begin store objects) ops) (hclosed : ops.foldl depth 1 = 1)
    (hread : ∀ t ∈ (ops.foldl step (begin store objects)).transactions.head?, ∀ x ∈ logOf t.actions,
      x.1 ≠ .insert →
        ((ops.foldl step (begin store objects)).objects x.2.proxy).Restorable (objects x.2.proxy)) :
    (ops.foldl step (begin store objects)).rollback.2 = none ∧
    SameObjects (TransactionState.begin store objects)
        (TransactionState.begin (ops.foldl step (begin store objects)).rollback.1.store
          (ops.foldl step (begin store objects)).rollback.1.objects) := by
  obtain ⟨t, hts⟩ :=
    List.length_eq_one_iff.mp ((length_run (begin store objects) ops).trans hclosed)
  obtain ⟨hdel, hok, hsame⟩ := rollback_of_closed hbegin h hts (hread t (by rw [hts]; rfl))
  generalize ops.foldl step (begin store objects) = s at *
  have hund : (t.actions.any fun a => a.entries.any (·.proxy ∈ s.deleted)) = false := by simp [hdel]
  have hrol :
    s.rollback = (⟨(s.current t).rollback.1.store, (s.current t).rollback.1.objects, [], s.deleted⟩,
      none) := by
    rw [NestedState.rollback, hts]
    dsimp only
    rw [hund]
    have hpair : (s.current t).rollback = ((s.current t).rollback.1, none) := Prod.ext rfl hok
    rw [hpair]
    rfl
  rw [hrol]
  exact ⟨rfl, hsame.findProxy, hsame.proxies, hsame.linked, hsame.get, hsame.values⟩

/-- The book on the shelf is modified, and again in an inner transaction, in which another book is
inserted and removed; at last it is removed. -/
def retitled : List Op :=
  [.call (.modify 7 [.scalar [2]]), .begin, .call (.modify 7 [.scalar [3]]),
    .call (.insert ⟨"B", .long, .integral 64 0⟩ [.scalar [4]]), .call (.remove 8), .commit,
    .call (.remove 7)]

theorem outer_rollback_of_retitled :
    SameObjects (TransactionState.begin shelf fun _ => [.scalar [1]])
      (TransactionState.begin
        (retitled.foldl step (begin shelf fun _ => [.scalar [1]])).rollback.1.store
          (retitled.foldl step (begin shelf fun _ => [.scalar [1]])).rollback.1.objects) :=
  (outer_rollback_of_run beginOk_shelf _ retitled (by decide) (by decide) (by decide)).2

/-- A book that is removed in an inner transaction is lost. -/
theorem book_removed_inside_is_lost :
    let s := ([.begin, .call (.remove 7), .commit] : List Op).foldl step (begin shelf fun _ => [])
    ¬SameObjects (TransactionState.begin shelf fun _ => [])
      (TransactionState.begin s.rollback.1.store s.rollback.1.objects) := by
  intro s h
  have hfind := h.findProxy 1
  revert hfind
  decide

end NestedState

/-! ## Transactions under their handles -/

/-- The observer of a transaction, in a world such as a database. -/
structure Observer (ω : Type) where
  /-- `on_commit`: what becomes of the world, and the exception -/
  onCommit : List Action → ω → ω × Option String
  onRollback : ω → ω × Option String
  /-- the types whose removed objects it marks as deleted -/
  marks : String → Bool

/-- A store with the ids of its `transactions_`, the current one first. The handles of a transaction
share its log and its observer. -/
structure HandleState (ω : Type) where
  store : ObjectStore
  objects : ProxyPtr → Attributes
  transactions : List Nat
  logs : Nat → Transaction
  observers : Nat → Observer ω
  /-- the proxies that have been deleted -/
  deleted : List ProxyPtr
  world : ω

namespace HandleState

open TransactionState

variable {ω : Type} {s : HandleState ω} {id : Nat}

def nested (s : HandleState ω) : NestedState :=
  ⟨s.store, s.objects, s.transactions.map s.logs, s.deleted⟩

/-- `transaction::cleanup`: the transaction on top of the stack is popped, whichever it is. To pop
from an empty stack is undefined. -/
def cleanup (s : HandleState ω) (id : Nat) : Option (HandleState ω × Option String) :=
  match s.transactions with
  | [] => none
  | _ :: ids =>
      some ({ s with transactions := ids, logs := update s.logs id Transaction.empty }, none)

def removed (s : HandleState ω) (id : Nat) : List ProxyPtr :=
  ((logOf (s.logs id).actions).filter fun x => x.1 = .delete ∧
    (s.observers id).marks x.2.data.node).map (·.2.proxy)

def told (s : HandleState ω) (id : Nat) : ω × Option String :=
  (s.observers id).onCommit (s.logs id).actions s.world

def commit (s : HandleState ω) (id : Nat) : Option (HandleState ω × Option String) :=
  match s.told id with
  | (w, some m) => some ({ s with world := w }, some m)
  | (w, none) => cleanup { s with deleted := s.removed id ++ s.deleted, world := w } id

/-- What the observer does in a rollback; it is told if a `commit` has been left by an exception. -/
def undone (s : HandleState ω) (id : Nat) (committing : Bool) : ω × Option String :=
  if committing then (s.observers id).onRollback s.world else (s.world, none)

/-- `transaction::rollback`. What an exception leaves of the log is left out. -/
def rollback (s : HandleState ω) (id : Nat) (committing : Bool) :
    Option (HandleState ω × Option String) :=
  if s.transactions.head? ≠ some id then
    some (s, some "transaction: transaction isn't current transaction")
  else
    let s' := { s with store := s.nested.rollback.1.store, objects := s.nested.rollback.1.objects }
    match s.nested.rollback.2, s.undone id committing with
    | none, (w, none) => cleanup { s' with world := w } id
    | none, (w, some m) => some ({ s' with world := w }, some m)
    | some m, _ => if m = "undefined" then none else some (s', some m)

/-- A call that ends the transaction `id` and no other, or throws and changes nothing if this is not
the current one. -/
def Ends (s : HandleState ω) (id : Nat) (result : Option (HandleState ω × Option String)) : Prop :=
  if s.transactions.head? = some id then
    ∃ s', result = some (s', none) ∧ s'.transactions = s.transactions.erase id ∧
      ∀ other, other ≠ id → s'.logs other = s.logs other
  else ∃ m, result = some (s, some m)

/-- The observer accepts the log of the current transaction; that of any other one it refuses,
without any effect. -/
def Accepts (s : HandleState ω) (id : Nat) : Prop :=
  if s.transactions.head? = some id then (s.told id).2 = none
  else ∃ m, s.told id = (s.world, some m)

end HandleState

end Matador.Object
