import Matador.Object.InsertGraph
import Matador.Orm.Load

/-!
# What the loaded fields refer to

Whatever order the tables are loaded in, each has_one field comes to refer to the proxy with its
foreign key. `address` is where this proxy is: in the node of its type once its row has been read,
else among the parked proxies of its table. It never changes, since the row is read into the parked
proxy.

A key that is not valid (0 or less, or an empty string) breaks this: `object_store::insert` gives
the proxy another one, and a field that refers to it is read as an empty one. So does a key of type
`long` that does not fit into an `int`.
-/

namespace Matador.Orm

open Function List Lib Object PrototypeTree

namespace Loader

/-! ## Where a proxy is -/

abbrev idMapOf (s : Loader) : String → Identifier → Option ProxyPtr := s.store.lists.tree.idMapOf

def address (s : Loader) (name : String) (pk : Identifier) : Option ProxyPtr :=
  (s.idMapOf name pk).or (s.parked name pk)

structure Free (S : List ProxyPtr) (s : Loader) (p : ProxyPtr) : Prop where
  proxy : s.proxies p = none
  sentinel : p ∉ S
  lower : 0 < p
  upper : p < s.next

/-- The state between two rows when the rows of `done` have been read; `s₀` is the state before the
first. -/
structure Core (types : List TableType) (S : List ProxyPtr) (s₀ : Loader)
    (done : List (TableType × Row)) (s : Loader) : Prop where
  lists : s.store.ListsWith S
  sigs : s.store.lists.tree.nodes.map PrototypeNode.sig =
    s₀.store.lists.tree.nodes.map PrototypeNode.sig
  found : ∀ t ∈ types, ∃ n, s₀.store.lists.tree.findPrototypeNode t.classname = .ok (some n) ∧
    n.type = t.name
  parked : ∀ name pk p, s.idMapOf name pk = none → s.parked name pk = some p → Free S s p
  unique : ∀ name name' pk pk' p, s.idMapOf name pk = none → s.parked name pk = some p →
    s.idMapOf name' pk' = none → s.parked name' pk' = some p → name = name' ∧ pk = pk'
  stored : ∀ x ∈ done, ∃ p, s.idMapOf x.1.name x.2.key = some p ∧ s.Holds x.1 x.2 p
  only : ∀ p d, s.proxies p = some d → ∃ x ∈ done, s.idMapOf x.1.name x.2.key = some p ∧
    s.Holds x.1 x.2 p
  keys : ∀ name pk p, s.idMapOf name pk = some p → ∃ x ∈ done, x.1.name = name ∧ x.2.key = pk

/-- Fields are resolved: other proxies may be parked. -/
structure Extends (s s' : Loader) : Prop where
  proxies : s'.proxies = s.proxies
  object : s'.object = s.object
  idMapOf : s'.idMapOf = s.idMapOf
  parked : ∀ name pk p, s.parked name pk = some p → s'.parked name pk = some p

theorem Extends.refl (s : Loader) : Extends s s := ⟨rfl, rfl, rfl, fun _ _ _ h => h⟩

variable {s' : Loader}

theorem Extends.trans {s s'' : Loader} (h : Extends s s') (h' : Extends s' s'') :
    Extends s s'' where
  proxies := h'.proxies.trans h.proxies
  object := h'.object.trans h.object
  idMapOf := h'.idMapOf.trans h.idMapOf
  parked name pk p hp := h'.parked name pk p (h.parked name pk p hp)

variable {name : String} {pk : Identifier}

theorem Extends.address {s : Loader} (h : Extends s s') {p : ProxyPtr}
    (hp : s.address name pk = some p) : s'.address name pk = some p := by
  unfold Loader.address at hp ⊢
  rw [h.idMapOf]
  cases hmap : s.idMapOf name pk with
  | some q =>
    rw [hmap] at hp
    exact hp
  | none =>
    rw [hmap] at hp
    exact h.parked name pk p hp

variable {database : String → List Row} {order : List TableType} {stable : Bool}

section Core

variable {types : List TableType} {S : List ProxyPtr} {s₀ s : Loader}
  {done : List (TableType × Row)} {classname : String} {pk : Identifier}

theorem Core.find (h : Core types S s₀ done s) {u : TableType} (hu : u ∈ types) :
    ∃ n, s.store.lists.tree.findPrototypeNode u.classname = .ok (some n) ∧ n.type = u.name ∧
    n.idMap = s.idMapOf u.name := by
  obtain ⟨n₀, hn₀, hname⟩ := h.found u hu
  obtain ⟨n, hn, hsig⟩ := findPrototypeNode_congr h.sigs hn₀
  have htype : n.type = u.name := (congrArg Prod.fst hsig).trans hname
  obtain ⟨own, segs, hinv, -⟩ := h.lists
  refine ⟨n, hn, htype, ?_⟩
  rw [← htype]
  exact (idMapIn_of_mem hinv.layout.types_nodup (findPrototypeNode_mem hn)).symm

theorem Core.alloc (h : Core types S s₀ done s) : Core types S s₀ done s.alloc :=
  { h with
    lists := by
      obtain ⟨own, segs, hinv, hsent⟩ := h.lists
      exact ⟨own, segs, hinv.alloc.1, hsent⟩
    parked := fun name pk p hmap hp => by
      have hfree := h.parked name pk p hmap hp
      exact { hfree with upper := Nat.lt_succ_of_lt hfree.upper } }

theorem Core.alloc_free (h : Core types S s₀ done s) : Free S s.alloc s.next ∧
    ∀ name pk, s.idMapOf name pk = none → s.parked name pk ≠ some s.next := by
  refine ⟨?_, fun name pk hmap hp => (h.parked name pk s.next hmap hp).upper.ne rfl⟩
  obtain ⟨own, segs, hinv, rfl⟩ := h.lists
  exact ⟨hinv.proxies_nextProxy, fun hc => hinv.alloc.2 (mem_cells_iff.mpr (.inl hc)),
    hinv.layout.next_pos, Nat.lt_succ_self _⟩

theorem parked_setParked (s : Loader) (name : String) (pk : Identifier) (p : Option ProxyPtr)
    (name' : String) (pk' : Identifier) : (s.setParked name pk p).parked name' pk' =
      if name' = name ∧ pk' = pk then p else s.parked name' pk' := by
  show update s.parked name (update (s.parked name) pk p) name' pk' = _
  by_cases hname : name' = name
  · subst hname
    rw [update_self, update_apply]
    simp
  · rw [update_of_ne hname, if_neg fun hc => hname hc.1]

theorem Core.park (h : Core types S s₀ done s) (hpkd : s.parked name pk = none) :
    Core types S s₀ done (s.alloc.setParked name pk (some s.next)) ∧
      Extends s (s.alloc.setParked name pk (some s.next)) := by
  obtain ⟨hfree, hnew⟩ := h.alloc_free
  have hget := parked_setParked s.alloc name pk (some s.next)
  refine ⟨{ h.alloc with
    parked := fun name' pk' p hmap hp => by
      rw [hget] at hp
      split at hp
      · cases hp
        exact { hfree with }
      · exact { h.alloc.parked name' pk' p hmap hp with }
    unique := fun name₁ name₂ pk₁ pk₂ p hmap₁ hp₁ hmap₂ hp₂ => by
      rw [hget] at hp₁ hp₂
      split at hp₁
      · next h₁ =>
        split at hp₂
        · next h₂ => exact ⟨h₁.1.trans h₂.1.symm, h₁.2.trans h₂.2.symm⟩
        · cases hp₁
          exact absurd hp₂ (hnew name₂ pk₂ hmap₂)
      · split at hp₂
        · cases hp₂
          exact absurd hp₁ (hnew name₁ pk₁ hmap₁)
        · exact h.unique name₁ name₂ pk₁ pk₂ p hmap₁ hp₁ hmap₂ hp₂ }, rfl, rfl, rfl,
        fun name' pk' p hp => ?_⟩
  rw [hget, if_neg]
  · exact hp
  · rintro ⟨rfl, rfl⟩
    rw [hpkd] at hp
    cases hp

theorem Core.onHasOne (h : Core types S s₀ done s) {u : TableType} (hu : u ∈ types)
    (pk : Identifier) :
    ∃ s' f, onHasOne types s u.classname pk = .ok (s', f) ∧ Core types S s₀ done s' ∧ Extends s s' ∧
      (∀ name ≠ u.name, s'.parked name = s.parked name) ∧
      (pk ≠ .null → ∃ q, f = .proxy q ∧ s'.address u.name pk = some q) := by
  obtain ⟨n, hn, htype, hmap⟩ := h.find hu
  unfold Loader.onHasOne
  by_cases hnull : pk.isNull
  · rw [if_pos hnull]
    refine ⟨s, _, rfl, h, .refl s, fun _ _ => rfl, fun hne => ?_⟩
    cases pk with
    | null => exact absurd rfl hne
    | integral bits v => cases hnull
    | string v => cases hnull
  · have htbl : ¬∀ v ∈ types, v.name ≠ u.name := fun hc => hc u hu rfl
    rw [if_neg hnull, hn]
    simp only [hmap, htype]
    rw [if_neg htbl]
    cases hstd : s.idMapOf u.name pk with
    | some q =>
      refine ⟨s, _, rfl, h, .refl s, fun _ _ => rfl, fun _ => ⟨q, rfl, ?_⟩⟩
      rw [address, hstd, Option.some_or]
    | none =>
      cases hpkd : s.parked u.name pk with
      | some q =>
        refine ⟨s, _, rfl, h, .refl s, fun _ _ => rfl, fun _ => ⟨q, rfl, ?_⟩⟩
        rw [address, hstd, Option.none_or, hpkd]
      | none =>
        obtain ⟨hcore, hext⟩ := h.park hpkd
        refine ⟨_, _, rfl, hcore, hext, fun name hne => update_of_ne hne _ _, fun _ => ⟨_, rfl, ?_⟩⟩
        rw [address, hext.idMapOf, hstd, Option.none_or]
        rw [parked_setParked, if_pos ⟨rfl, rfl⟩]

theorem Core.resolve (h : Core types S s₀ done s) (xs : List (String × Identifier))
    (hcla : ∀ x ∈ xs, x.2 ≠ .null → ∃ u ∈ types, u.classname = x.1) :
    ∃ s' fs, resolve types s xs = .ok (s', fs) ∧ Core types S s₀ done s' ∧ Extends s s' ∧
      (∀ name, (∀ x ∈ xs, x.2 ≠ .null → ∃ u ∈ types, u.classname = x.1 ∧ u.name ≠ name) →
        s'.parked name = s.parked name) ∧
      ∀ (i : Nat) (classname : String) (pk : Identifier), xs[i]? = some (classname, pk) →
      pk ≠ .null → ∃ q, fs[i]? = some (.proxy q) ∧ ∀ u ∈ types, u.classname = classname →
        s'.address u.name pk = some q := by
  induction xs generalizing s with
  | nil => exact ⟨s, [], rfl, h, .refl s, fun _ _ => rfl, fun i classname pk hi => by simp at hi⟩
  | cons x xs ih =>
    obtain ⟨classname, pk⟩ := x
    have hfie : ∃ s' f, Loader.onHasOne types s classname pk = .ok (s', f) ∧
        Core types S s₀ done s' ∧ Extends s s' ∧
        (∀ name, (pk ≠ .null → ∃ u ∈ types, u.classname = classname ∧ u.name ≠ name) →
          s'.parked name = s.parked name) ∧
        (pk ≠ .null → ∃ q, f = .proxy q ∧ ∀ u ∈ types, u.classname = classname →
          s'.address u.name pk = some q) := by
      by_cases hpk : pk = .null
      · subst hpk
        exact ⟨s, .read .null, rfl, h, .refl s, fun _ _ => rfl, fun hne => absurd rfl hne⟩
      · obtain ⟨u, hu, rfl⟩ := hcla (classname, pk) mem_cons_self hpk
        obtain ⟨s', f, hres, hcore, hext, hpkd, hf⟩ := h.onHasOne hu pk
        -- one class has one table
        have hone {v : TableType} (hv : v ∈ types) (hcls : v.classname = u.classname) :
            v.name = u.name := by
          obtain ⟨n, hn, htype, -⟩ := h.find hu
          obtain ⟨m, hm, htype', -⟩ := h.find hv
          rw [hcls, hn] at hm
          cases hm
          rw [← htype', htype]
        refine ⟨s', f, hres, hcore, hext, fun name hname => ?_, fun hne => ?_⟩
        · obtain ⟨v, hv, hcls, hne⟩ := hname hpk
          exact hpkd name (hone hv hcls ▸ hne.symm)
        · obtain ⟨q, hq, hadd⟩ := hf hne
          exact ⟨q, hq, fun v hv hcls => by rw [hone hv hcls, hadd]⟩
    obtain ⟨s₁, f, hres, hcore, hext, hpkd, hf⟩ := hfie
    obtain ⟨s₂, fs, hres', hcore', hext', hpkd', hfs⟩ := ih hcore (forall_mem_cons.mp hcla).2
    refine ⟨s₂, f :: fs, ?_, hcore', hext.trans hext', fun name hname => ?_,
      fun i classname' pk' hi hne => ?_⟩
    · rw [Loader.resolve]
      simp only [hres, hres']
    · obtain ⟨hx, hxs⟩ := forall_mem_cons.mp hname
      rw [hpkd' name hxs, hpkd name hx]
    · cases i with
      | zero =>
        obtain ⟨rfl, rfl⟩ := hi
        obtain ⟨q, rfl, hadd⟩ := hf hne
        exact ⟨q, rfl, fun u hu hcls => hext'.address (hadd u hu hcls)⟩
      | succ i => exact hfs i classname' pk' hi hne

/-! ## One row -/

variable {t : TableType} {row : Row} {p : ProxyPtr}

theorem Core.acquire (h : Core types S s₀ done s) (hkey : s.idMapOf t.name row.key = none) :
    ∃ s' p, s.acquire t row = (s', p) ∧ Core types S s₀ done s' ∧ Extends s s' ∧
    s'.parked = s.parked ∧ Free S s' p ∧
      (s.parked t.name row.key = none ∨ s.parked t.name row.key = some p) ∧
      ∀ name pk, s.idMapOf name pk = none → s.parked name pk = some p →
      name = t.name ∧ pk = row.key := by
  unfold Loader.acquire
  cases hpkd : s.parked t.name row.key with
  | some p =>
    exact ⟨s, p, rfl, h, .refl s, rfl, h.parked _ _ p hkey hpkd, .inr rfl,
      fun name pk hmap hp => h.unique _ _ _ _ p hmap hp hkey hpkd⟩
  | none =>
    obtain ⟨hfree, hnew⟩ := h.alloc_free
    exact ⟨s.alloc, s.next, rfl, h.alloc, ⟨rfl, rfl, rfl, fun _ _ _ hp => hp⟩, rfl, hfree, .inl rfl,
      fun name pk hmap hp => absurd hp (hnew name pk hmap)⟩

structure Inserts (S : List ProxyPtr) (s s' : Loader) (t : TableType) (row : Row)
    (p : ProxyPtr) : Prop where
  lists : s'.store.ListsWith S
  sigs : s'.store.lists.tree.nodes.map PrototypeNode.sig =
    s.store.lists.tree.nodes.map PrototypeNode.sig
  next : s'.next = s.next
  idMapOf : ∀ name pk, s'.idMapOf name pk =
    if name = t.name ∧ pk = row.key then some p else s.idMapOf name pk
  proxies : ∃ d, d.node = t.name ∧ d.pk = row.key ∧ s'.proxies = update s.proxies p (some d)
  object : ∃ o, o.row = row ∧ s'.object = update s.object p (some o)
  parked : s'.parked = s.parked

theorem Inserts.holds_self (h : Inserts S s s' t row p) : s'.Holds t row p := by
  obtain ⟨d, hnode, hpk, hd⟩ := h.proxies
  obtain ⟨o, ho, hobj⟩ := h.object
  exact ⟨⟨d, by rw [hd, update_self], hnode, hpk⟩, o, by rw [hobj, update_self], ho⟩

variable {q : ProxyPtr}

theorem Inserts.holds_of_ne (h : Inserts S s s' t row p) {t' : TableType} {row' : Row}
    (hq : q ≠ p) : s'.Holds t' row' q ↔ s.Holds t' row' q := by
  obtain ⟨d, -, -, hd⟩ := h.proxies
  obtain ⟨o, -, hobj⟩ := h.object
  unfold Holds
  rw [hd, hobj, update_of_ne hq, update_of_ne hq]

theorem Holds.ne_free {t' : TableType} {row' : Row} (h : s.Holds t' row' q)
    (hp : s.proxies p = none) : q ≠ p := by
  rintro rfl
  obtain ⟨⟨d, hd, -⟩, -⟩ := h
  rw [hp] at hd
  cases hd

theorem ne_null_of_isValid (h : pk.isValid) : pk ≠ .null := by
  rintro rfl
  cases h

theorem Core.exists_insertRow (h : Core types S s₀ done s) (ht : t ∈ types) (hvld : row.key.isValid)
    (hfree : Free S s p) (hkey : s.idMapOf t.name row.key = none) :
    ∃ s', s.insertRow t p row = .ok s' ∧ Inserts S s s' t row p := by
  obtain ⟨n, hn, htype, -⟩ := h.find ht
  obtain ⟨own, segs, hinv, hS⟩ := h.lists
  have hmem := findPrototypeNode_mem hn
  have hpk (id : Nat) : (⟨t.classname, t.keyType, row.key⟩ : NewObject).pk id = row.key :=
    if_pos (.inr hvld)
  obtain ⟨own', segs', hinv', hS'⟩ :=
    hinv.insertAt_free (o := ⟨Sequencer.next s.store.seq, t.classname, n.type, row.key⟩) hmem
      hfree.proxy hS hfree.sentinel ⟨hfree.lower, hfree.upper⟩ rfl
  unfold Loader.insertRow
  simp only [hn, ObjectStore.linkAt, hpk]
  exact ⟨_, rfl, {
    lists := ⟨own', segs', hinv', hS'⟩
    sigs := insertProxy_sigs ..
    next := PrototypeTree.insertProxy_nextProxy ..
    idMapOf := fun name pk => by
      refine (congrFun₂ (idMapOf_insertProxy hinv.layout.types_nodup hmem) name pk).trans ?_
      rw [withKey_of_free fun _ => htype ▸ hkey, htype]
      simp only [ne_eq, ne_null_of_isValid hvld, not_false_eq_true, true_and]
    proxies := ⟨_, htype, rfl, rfl⟩
    object := ⟨_, rfl, rfl⟩
    parked := rfl }⟩

theorem Core.inserts (h : Core types S s₀ done s) (hins : Inserts S s s' t row p)
    (hfree : Free S s p) (hkey : s.idMapOf t.name row.key = none)
    (halo : ∀ name pk, s.idMapOf name pk = none → s.parked name pk = some p →
      name = t.name ∧ pk = row.key) :
    Core types S s₀ ((t, row) :: done) s' := by
  have hold (name : String) (pk : Identifier) (hmap : s'.idMapOf name pk = none) :
      ¬(name = t.name ∧ pk = row.key) ∧ s.idMapOf name pk = none := by
    rw [hins.idMapOf] at hmap
    split at hmap
    · cases hmap
    · next hne => exact ⟨hne, hmap⟩
  have hkept {x : TableType × Row} {q : ProxyPtr} (hmap : s.idMapOf x.1.name x.2.key = some q)
      (hq : s.Holds x.1 x.2 q) : s'.idMapOf x.1.name x.2.key = some q ∧ s'.Holds x.1 x.2 q := by
    refine ⟨?_, (hins.holds_of_ne (hq.ne_free hfree.proxy)).mpr hq⟩
    rw [hins.idMapOf, if_neg]
    · exact hmap
    · rintro ⟨hname, hpk'⟩
      rw [hname, hpk', hkey] at hmap
      cases hmap
  have hself : s'.idMapOf t.name row.key = some p := by rw [hins.idMapOf, if_pos ⟨rfl, rfl⟩]
  exact {
    lists := hins.lists
    sigs := hins.sigs.trans h.sigs
    found := h.found
    parked := fun name pk q hmap hq => by
      obtain ⟨hne, hmap⟩ := hold name pk hmap
      rw [hins.parked] at hq
      have hqfr := h.parked name pk q hmap hq
      obtain ⟨d, -, -, hd⟩ := hins.proxies
      refine ⟨?_, hqfr.sentinel, hqfr.lower, hqfr.upper.trans_eq hins.next.symm⟩
      rw [hd, update_of_ne, hqfr.proxy]
      rintro rfl
      exact hne (halo name pk hmap hq)
    unique := fun name₁ name₂ pk₁ pk₂ q hmap₁ hq₁ hmap₂ hq₂ => by
      rw [hins.parked] at hq₁ hq₂
      exact h.unique name₁ name₂ pk₁ pk₂ q (hold _ _ hmap₁).2 hq₁ (hold _ _ hmap₂).2 hq₂
    stored := fun x hx => by
      rcases mem_cons.mp hx with rfl | hx
      · exact ⟨p, hself, hins.holds_self⟩
      · obtain ⟨q, hmap, hq⟩ := h.stored x hx
        exact ⟨q, hkept hmap hq⟩
    only := fun q d hd => by
      by_cases hqp : q = p
      · subst hqp
        exact ⟨(t, row), mem_cons_self, hself, hins.holds_self⟩
      · obtain ⟨d', -, -, hd'⟩ := hins.proxies
        rw [hd', update_of_ne hqp] at hd
        obtain ⟨x, hx, hmap, hq⟩ := h.only q d hd
        exact ⟨x, mem_cons_of_mem _ hx, hkept hmap hq⟩
    keys := fun name pk q hmap => by
      rw [hins.idMapOf] at hmap
      split at hmap
      · next heq => exact ⟨(t, row), mem_cons_self, heq.1.symm, heq.2.symm⟩
      · obtain ⟨x, hx, hname, hpk'⟩ := h.keys name pk q hmap
        exact ⟨x, mem_cons_of_mem _ hx, hname, hpk'⟩ }

theorem Inserts.address (h : Inserts S s s' t row p) (hkey : s.idMapOf t.name row.key = none)
    (hpkd : s.parked t.name row.key = none ∨ s.parked t.name row.key = some p) {pk : Identifier}
    (hq : s.address name pk = some q) : s'.address name pk = some q := by
  unfold Loader.address at hq ⊢
  rw [h.idMapOf, h.parked]
  split
  · next heq =>
    rw [heq.1, heq.2, hkey] at hq
    rcases hpkd with hpkd | hpkd
    · rw [hpkd] at hq
      cases hq
    · rw [hpkd] at hq
      exact hq
  · exact hq

theorem Core.setObject (h : Core types S s₀ done s) {o : RowObject} (ho : s.object p = some o)
    (o' : RowObject) (hrow : o'.row = o.row) :
    Core types S s₀ done { s with object := update s.object p (some o') } := by
  have hhld {t : TableType} {row : Row} {q : ProxyPtr} (hq : s.Holds t row q) :
      ({ s with object := update s.object p (some o') } : Loader).Holds t row q := by
    obtain ⟨hd, o'', ho'', hrow''⟩ := hq
    refine ⟨hd, ?_⟩
    by_cases hqp : q = p
    · subst hqp
      cases ho.symm.trans ho''
      exact ⟨o', update_self .., hrow.trans hrow''⟩
    · exact ⟨o'', (update_of_ne hqp ..).trans ho'', hrow''⟩
  exact { h with
    parked := fun name pk q hmap hq => { h.parked name pk q hmap hq with }
    stored := fun x hx => by
      obtain ⟨q, hmap, hq⟩ := h.stored x hx
      exact ⟨q, hmap, hhld hq⟩
    only := fun q d hd => by
      obtain ⟨x, hx, hmap, hq⟩ := h.only q d hd
      exact ⟨x, hx, hmap, hhld hq⟩ }

theorem Core.erase (h : Core types S s₀ done s) (name : String) (pk : Identifier) :
    Core types S s₀ done (s.setParked name pk none) := by
  have hold {name' : String} {pk' : Identifier} {q : ProxyPtr}
      (hq : (s.setParked name pk none).parked name' pk' = some q) :
        s.parked name' pk' = some q := by
    rw [parked_setParked] at hq
    split at hq
    · cases hq
    · exact hq
  exact { h with
    parked := fun name' pk' q hmap hq => { h.parked name' pk' q hmap (hold hq) with }
    unique := fun name₁ name₂ pk₁ pk₂ q hmap₁ hq₁ hmap₂ hq₂ =>
      h.unique name₁ name₂ pk₁ pk₂ q hmap₁ (hold hq₁) hmap₂ (hold hq₂) }

theorem address_erase (hmap : s.idMapOf t.name row.key = some p) (name : String) (pk : Identifier) :
    (s.setParked t.name row.key none).address name pk = s.address name pk := by
  unfold Loader.address
  rw [parked_setParked]
  show (s.idMapOf name pk).or _ = _
  split
  · next heq => rw [heq.1, heq.2, hmap, Option.some_or, Option.some_or]
  · rfl

/-! ## The fields -/

def Resolved (types : List TableType) (s : Loader) (t : TableType) (row : Row)
    (p : ProxyPtr) : Prop :=
  ∀ (i : Nat) (classname : String) (pk : Identifier), t.fields[i]? = some classname →
    row.foreignKeys[i]? = some pk →
    pk ≠ .null → ∃ o q, s.object p = some o ∧ o.fields[i]? = some (.proxy q) ∧
      ∀ u ∈ types, u.classname = classname → s.address u.name pk = some q

theorem Resolved.mono (h : Resolved types s t row p) (hobj : s'.object p = s.object p)
    (hadd : ∀ name pk q, s.address name pk = some q → s'.address name pk = some q) :
    Resolved types s' t row p := by
  intro i classname pk hcls hpk hne
  obtain ⟨o, q, ho, hq, hu⟩ := h i classname pk hcls hpk hne
  exact ⟨o, q, hobj.trans ho, hq, fun u hmem hu' => hadd _ _ q (hu u hmem hu')⟩

/-- The state between two rows, with the fields of the objects. -/
structure Loaded (types : List TableType) (S : List ProxyPtr) (s₀ : Loader)
    (done : List (TableType × Row)) (s : Loader) : Prop extends Core types S s₀ done s where
  fields : ∀ x ∈ done, ∀ p, s.idMapOf x.1.name x.2.key = some p → Resolved types s x.1 x.2 p

/-- What is asked of a row: its key and its foreign keys are valid, and it is read as it is. -/
structure RowFits (stable : Bool) (types : List TableType) (t : TableType) (row : Row) : Prop where
  key : row.key.isValid
  foreign : ∀ (i : Nat) (classname : String) (pk : Identifier), t.fields[i]? = some classname →
    row.foreignKeys[i]? = some pk → pk ≠ .null →
      pk.isValid ∧ ∃ u ∈ types, u.classname = classname ∧ (stable = true ∨ u.name ≠ t.name)

theorem parksIn_eq_false {xs : List (String × Identifier)} (h : s'.parked name = s.parked name) :
    parksIn name s s' xs = false := by
  rw [parksIn, h]
  simp

theorem readForeignObject_ne_null (h : readForeignObject pk ≠ .null) :
    readForeignObject pk = pk ∧ pk.isValid := by
  unfold readForeignObject at h ⊢
  split
  · next hvld => exact ⟨rfl, hvld⟩
  · next hvld =>
    rw [if_neg hvld] at h
    exact absurd rfl h

theorem Loaded.loadRow (h : Loaded types S s₀ done s) (ht : t ∈ types)
    (hrow : RowFits stable types t row) (hnew : ∀ x ∈ done, x.1.name = t.name → x.2.key ≠ row.key) :
    ∃ s', loadRow stable types t s row = .ok s' ∧ Loaded types S s₀ ((t, row) :: done) s' := by
  have hkey : s.idMapOf t.name row.key = none := by
    cases hmap : s.idMapOf t.name row.key with
    | none => rfl
    | some q =>
      obtain ⟨x, hx, hname, hpk⟩ := h.keys _ _ q hmap
      exact absurd hpk (hnew x hx hname)
  obtain ⟨s₁, p, hacq, hcore₁, hext₁, hpkd₁, hfree, hpkd, halo⟩ := h.toCore.acquire hkey
  have hkey₁ : s₁.idMapOf t.name row.key = none := by rw [hext₁.idMapOf, hkey]
  obtain ⟨s₂, hinse, hins⟩ := hcore₁.exists_insertRow ht hrow.key hfree hkey₁
  have hcore₂ := hcore₁.inserts hins hfree hkey₁ fun name pk hmap hp =>
    halo name pk (by rw [← hext₁.idMapOf, hmap]) (by rw [← hpkd₁, hp])
  -- the fields
  have hzip (i : Nat) (classname : String) (pk : Identifier) :
      (t.fields.zip (row.foreignKeys.map readForeignObject))[i]? = some (classname, pk) ↔
        t.fields[i]? = some classname ∧ ∃ pk', row.foreignKeys[i]? = some pk' ∧
          readForeignObject pk' = pk := by
    rw [getElem?_zip_eq_some, getElem?_map, Option.map_eq_some_iff]
  have hrefers : ∀ x ∈ t.fields.zip (row.foreignKeys.map readForeignObject), x.2 ≠ .null →
      ∃ u ∈ types, u.classname = x.1 ∧ (stable = true ∨ u.name ≠ t.name) := by
    intro x hx hne
    obtain ⟨i, hi⟩ := mem_iff_getElem?.mp hx
    obtain ⟨hcls, pk', hpk', hread⟩ := (hzip i x.1 x.2).mp hi
    obtain ⟨heq, hvld⟩ := readForeignObject_ne_null (hread.trans_ne hne)
    exact (hrow.foreign i x.1 pk' hcls hpk' (ne_null_of_isValid hvld)).2
  obtain ⟨s₃, fields, hres, hcore₃, hext₃, hpkd₃, hfie⟩ := hcore₂.resolve _ fun x hx hne => by
    obtain ⟨u, hu, hucl, -⟩ := hrefers x hx hne
    exact ⟨u, hu, hucl⟩
  obtain ⟨o, ho, hobj⟩ := hins.object
  have ho₃ : s₃.object p = some o := by rw [hext₃.object, hobj, update_self]
  have hcore₄ := hcore₃.setObject ho₃ ⟨row, fields⟩ ho.symm
  have hmap₃ : s₃.idMapOf t.name row.key = some p := by
    rw [hext₃.idMapOf, hins.idMapOf, if_pos ⟨rfl, rfl⟩]
  -- all addresses stay
  have hadd (name : String) (pk : Identifier) (q : ProxyPtr) (hq : s.address name pk = some q) :
      s₃.address name pk = some q :=
    hext₃.address (hins.address hkey₁ (hpkd₁ ▸ hpkd) (hext₁.address hq))
  have hloa : Loaded types S s₀ ((t, row) :: done)
      { s₃ with object := update s₃.object p (some ⟨row, fields⟩) } := {
    hcore₄ with
    fields := fun x hx q hq => by
      rcases mem_cons.mp hx with rfl | hx
      · cases hmap₃.symm.trans hq
        intro i classname pk hcls hpk hne
        obtain ⟨hvld, -⟩ := hrow.foreign i classname pk hcls hpk hne
        obtain ⟨q', hq', hadd'⟩ := hfie i classname pk
          ((hzip i classname pk).mpr ⟨hcls, pk, hpk, if_pos hvld⟩) hne
        exact ⟨_, q', update_self .., hq', hadd'⟩
      · obtain ⟨q', hmap, hhld⟩ := h.stored x hx
        have hmap₃' : s₃.idMapOf x.1.name x.2.key = some q' := by
          rw [hext₃.idMapOf, hins.idMapOf, if_neg fun heq => hnew x hx heq.1 heq.2,
            hext₁.idMapOf, hmap]
        cases hmap₃'.symm.trans hq
        have hqp : q ≠ p := hhld.ne_free (hext₁.proxies ▸ hfree.proxy)
        refine (h.fields x hx q hmap).mono ?_ hadd
        show update s₃.object p _ q = _
        rw [update_of_ne hqp, hext₃.object, hobj, update_of_ne hqp, hext₁.object] }
  -- the iterator is still valid
  have hiter : (!stable && parksIn t.name s₂
      { s₃ with object := update s₃.object p (some ⟨row, fields⟩) }
      (t.fields.zip (row.foreignKeys.map readForeignObject))) = false := by
    cases hst : stable with
    | true => rfl
    | false =>
      refine parksIn_eq_false (show s₃.parked t.name = _ from ?_)
      refine hpkd₃ t.name fun x hx hne => ?_
      obtain ⟨u, hu, hucl, hst' | hname⟩ := hrefers x hx hne
      · rw [hst] at hst'
        cases hst'
      · exact ⟨u, hu, hucl, hname⟩
  unfold Loader.loadRow
  simp only [hacq, hinse, hres, hiter, Bool.false_eq_true, if_false]
  split
  · refine ⟨_, rfl, { hloa.toCore.erase t.name row.key with
      fields := fun x hx q hq => (hloa.fields x hx q hq).mono rfl fun name pk q' hq' => ?_ }⟩
    exact (address_erase hmap₃ name pk).trans hq'
  · exact ⟨_, rfl, hloa⟩

/-! ## Whole tables -/

end Core

/-! ## Keys that are not valid -/

section Invalid

variable {types : List TableType} {s s' : Loader} {t : TableType} {row : Row}

theorem onHasOne_keeps {classname : String} {f : HasOneField}
    (h : onHasOne types s classname pk = .ok (s', f)) :
    s'.proxies = s.proxies ∧ s'.store.seq = s.store.seq := by
  unfold onHasOne at h
  split at h
  · cases h
    exact ⟨rfl, rfl⟩
  · split at h
    · cases h
    · cases h
    · split at h
      · cases h
        exact ⟨rfl, rfl⟩
      · split at h
        · cases h
        · split at h <;> cases h <;> exact ⟨rfl, rfl⟩

theorem resolve_keeps {xs : List (String × Identifier)} {fs : List HasOneField}
    (h : resolve types s xs = .ok (s', fs)) :
    s'.proxies = s.proxies ∧ s'.store.seq = s.store.seq := by
  induction xs generalizing s fs with
  | nil =>
    cases h
    exact ⟨rfl, rfl⟩
  | cons x xs ih =>
    rw [resolve] at h
    split at h
    · cases h
    · next s₁ f hfie =>
      split at h
      · cases h
      · next s₂ fs' hfiel =>
        cases h
        obtain ⟨hpxs, hseq⟩ := onHasOne_keeps hfie
        obtain ⟨hpxs', hseq'⟩ := ih hfiel
        exact ⟨hpxs'.trans hpxs, hseq'.trans hseq⟩

theorem loadRow_keeps (h : loadRow stable types t s row = .ok s') :
    (∃ p d, d.pk = (⟨t.classname, t.keyType, row.key⟩ : NewObject).pk (Sequencer.next s.store.seq) ∧
      s'.proxies = update s.proxies p (some d)) ∧
    s'.store.seq = (⟨t.classname, t.keyType, row.key⟩ : NewObject).seqAfter
      (Sequencer.next s.store.seq) := by
  have hacq : (s.acquire t row).1.proxies = s.proxies ∧
      (s.acquire t row).1.store.seq = s.store.seq := by
    unfold acquire
    split <;> exact ⟨rfl, rfl⟩
  unfold loadRow at h
  simp only at h
  split at h
  · cases h
  · next s₁ hins =>
    split at h
    · cases h
    · next s₂ fields hres =>
      obtain ⟨hpxs, hseq⟩ := resolve_keeps hres
      unfold insertRow at hins
      split at hins
      · cases hins
      · cases hins
      · next n _ =>
        cases hins
        rw [← hacq.1, ← hacq.2]
        refine ⟨⟨(s.acquire t row).2,
          ((s.acquire t row).1.store.linkAt (s.acquire t row).2 _ n).2, rfl, ?_⟩, ?_⟩
        · split_ifs at h <;> cases h <;> exact hpxs
        · split_ifs at h <;> cases h <;> exact hseq

/-- After `n` rows all proxies have valid keys. -/
structure ValidKeys (M n : Nat) (s : Loader) : Prop where
  seq : s.store.seq ≤ M + n
  keys : ∀ p d, s.proxies p = some d → d.pk.isValid

theorem isValid_pk {o : NewObject} {id : Nat} (hkey : o.key ≠ .null) (hid : 0 < id) :
    (o.pk id).isValid := by
  unfold NewObject.pk
  split
  · next h =>
    rcases h with h | h
    · cases hk : o.key with
      | null => exact absurd hk hkey
      | integral bits v => cases hk ▸ h
      | string v => cases hk ▸ h
    · exact h
  · exact decide_eq_true (Int.natCast_pos.mpr hid)

variable {M n : Nat}

theorem ValidKeys.loadRow (h : ValidKeys M n s) (hrow : row.key ≠ .null)
    (hkey : ∀ bits v, row.key = .integral bits v → (v % 2 ^ 64).toNat ≤ M)
    (hbou : M + n + 1 < 2 ^ 64) (hload : loadRow stable types t s row = .ok s') :
    ValidKeys M (n + 1) s' := by
  have hle := h.seq
  obtain ⟨⟨p, d, hpk, hpxs⟩, hseq⟩ := loadRow_keeps hload
  rw [Sequencer.next_eq (by omega)] at hpk hseq
  refine ⟨?_, fun q d' hd' => ?_⟩
  · rw [hseq]
    exact NewObject.seqAfter_le (by omega) fun bits v hv => (hkey bits v hv).trans (by omega)
  · by_cases hqp : q = p
    · rw [hpxs, hqp, update_self, Option.some.injEq] at hd'
      rw [← hd', hpk]
      exact isValid_pk hrow (Nat.succ_pos _)
    · rw [hpxs, update_of_ne hqp] at hd'
      exact h.keys q d' hd'

end Invalid

/-! ## A catalogue -/

def author : TableType := ⟨"author", "A", .long, []⟩

end Loader

end Matador.Orm
