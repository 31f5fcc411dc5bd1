import Matador.Object.InsertGraph

/-!
# The inserter of the two stores

`HasOneStore` and `GraphStore` both model `object_inserter`: the first one for stores whose
references are counted, the second one with the lists, the ids and the transaction of the store.
Where no object brings a key of its own, the first one shows what the second one does.
-/

namespace Matador.Object

open Function List Lib

namespace GraphStore

/-- What a store of has_one fields shows of a store. -/
structure Shows (g : GraphStore) (h : HasOneStore) : Prop where
  fields : h.fields = g.fields
  count : h.count = g.count
  stored : ∀ p, p ∈ h.stored ↔ g.Stored p
  id : ∀ p, g.Stored p → h.id p = g.id p
  seq : h.seq = g.store.seq

variable {g : GraphStore} {h : HasOneStore} {p q : ProxyPtr} {i : Nat} {f : HasOne}

theorem Shows.setField (hsho : g.Shows h) (p : ProxyPtr) (i : Nat) (f : HasOne) :
    (g.setField p i f).Shows (h.setField p i f) :=
  { hsho with fields := by rw [GraphStore.setField, HasOneStore.setField, hsho.fields] }

theorem Shows.addCount (hsho : g.Shows h) (p : ProxyPtr) (n : Int) :
    (g.addCount p n).Shows (h.addCount p n) :=
  { hsho with count := by rw [GraphStore.addCount, HasOneStore.addCount, hsho.count] }

theorem Shows.link (hsho : g.Shows h) {o : NewObject} (n : PrototypeNode)
    (hkey : ∀ id, o.seqAfter id = id) (hseq : g.store.seq + 1 < 2 ^ 64) :
    { g with store := (g.store.linkAt q o n).1 }.Shows (h.link q) := by
  have hnext : Sequencer.next g.store.seq = h.seq + 1 := by rw [Sequencer.next_eq hseq, hsho.seq]
  have hpxs : (g.store.linkAt q o n).1.lists.proxies =
      update g.proxies q (some (g.store.linkAt q o n).2) := rfl
  exact {
    fields := hsho.fields
    count := hsho.count
    stored := fun p => by
      rw [Stored, proxies, hpxs, HasOneStore.link, mem_append, mem_singleton, hsho.stored, Stored,
        update_apply]
      split <;> simp_all
    id := fun p hp => by
      rw [Stored, proxies, hpxs, update_apply] at hp
      show update h.id q (h.seq + 1) p = _
      rw [GraphStore.id, proxies, hpxs, update_apply, update_apply]
      split
      · exact hnext.symm
      · next hne =>
        rw [if_neg hne] at hp
        exact hsho.id p hp
    seq := by
      show h.seq + 1 = o.seqAfter (Sequencer.next g.store.seq)
      rw [hkey, hnext] }

def Call.field? : Call → Option (ProxyPtr × Nat)
  | .field p i => some (p, i)
  | .leave _ _ => none

theorem filterMap_positions (hsho : g.Shows h) (p : ProxyPtr) :
    (g.positions p).filterMap Call.field? = h.positions p := by
  rw [positions, HasOneStore.positions, filterMap_map, hsho.fields, ← filterMap_eq_map]
  rfl

/-- The states of the two inserters. -/
def Alike (t : Inserting) (u : HasOneStore.Inserting) : Prop :=
  t.graph.Shows u.store ∧ u.seen = t.seen

variable {t t' : Inserting} {u : HasOneStore.Inserting} {calls calls' : List Call}

theorem Alike.insertProxy (h : Alike t u) (hid : ¬0 < t.graph.id q)
    (hkey : ∀ o, t.graph.object q = some o → ∀ id, o.seqAfter id = id)
    (hseq : t.graph.store.seq + 1 < 2 ^ 64) (hcall : insertProxy t q = .ok (t', calls)) :
    Alike t' { u with store := u.store.link q } ∧
    calls.filterMap Call.field? = (u.store.link q).positions q := by
  unfold GraphStore.insertProxy at hcall
  split at hcall
  · cases hcall
  · next o ho =>
    split at hcall
    · cases hcall
    · cases hcall
    · next n hn =>
      rw [if_neg hid] at hcall
      obtain ⟨rfl, rfl⟩ := Prod.mk.inj (Except.ok.inj hcall)
      refine ⟨⟨h.1.link n (hkey o ho) hseq, h.2⟩, ?_⟩
      rw [filterMap_append, filterMap_positions h.1]
      exact append_nil _

/-- **A visit of a field.** Every field refers to an object, and an id tells whether a proxy is in
the store. -/
theorem Alike.insertObject (h : Alike t u)
    (htar : ∀ f ∈ t.graph.fields p, ∀ q ∈ f.target, (t.graph.object q).isSome)
    (hid : ∀ q, 0 < t.graph.id q ↔ t.graph.Stored q)
    (hkey : ∀ q o, t.graph.object q = some o → ∀ id, o.seqAfter id = id)
    (hseq : ∀ q, (t.graph.object q).isSome → ¬t.graph.Stored q → t.graph.store.seq + 1 < 2 ^ 64)
    (hcall : insertObject t p i = .ok (t', calls)) :
    Alike t' (HasOneStore.insertObject u (p, i)).1 ∧
      calls.filterMap Call.field? = (HasOneStore.insertObject u (p, i)).2 := by
  unfold GraphStore.insertObject at hcall
  rw [HasOneStore.insertObject, h.1.fields, h.2]
  cases hf : (t.graph.fields p)[i]? with
  | none =>
    rw [hf] at hcall
    cases hcall
    exact ⟨h, rfl⟩
  | some f =>
    rw [hf] at hcall
    dsimp only at hcall ⊢
    by_cases hins : f.isInserted
    · rw [if_pos hins] at hcall ⊢
      cases hcall
      exact ⟨h, rfl⟩
    · rw [if_neg hins] at hcall ⊢
      have hset := h.1.setField p i { f with isInserted := true }
      generalize ({ f with isInserted := true } : HasOne) = f' at hset hcall ⊢
      cases htgt : f.target with
      | none =>
        rw [htgt] at hcall
        cases hcall
        exact ⟨⟨hset, rfl⟩, rfl⟩
      | some q =>
        rw [htgt] at hcall
        dsimp only at hcall ⊢
        have hobj := htar f (mem_of_getElem? hf) q htgt
        have hsome : ¬((t.graph.setField p i f').object q).isNone := by
          show ¬(t.graph.object q).isNone
          rw [← Option.not_isSome, hobj]
          decide
        rw [if_neg hsome] at hcall
        have hadd := hset.addCount q 1
        by_cases hseen : q ∈ t.seen
        · rw [if_pos hseen] at hcall ⊢
          cases hcall
          exact ⟨⟨hadd, rfl⟩, rfl⟩
        · rw [if_neg hseen] at hcall ⊢
          by_cases hinse : f.inserts
          · rw [if_pos hinse] at hcall ⊢
            have hid' : 0 < ((t.graph.setField p i f').addCount q 1).id q ↔ t.graph.Stored q :=
              hid q
            by_cases hstd : t.graph.Stored q
            · rw [if_pos (hid'.mpr hstd)] at hcall
              rw [if_pos ((hadd.stored q).mpr hstd)]
              cases hcall
              exact ⟨⟨hadd, rfl⟩, filterMap_positions hadd q⟩
            · rw [if_neg (mt hid'.mp hstd)] at hcall
              rw [if_neg (mt (hadd.stored q).mp hstd)]
              have hvis : Alike ⟨_, q :: t.seen⟩ ⟨_, q :: t.seen⟩ := ⟨hadd, rfl⟩
              exact hvis.insertProxy (mt hid'.mp hstd) (hkey q) (hseq q hobj hstd) hcall
          · rw [if_neg hinse] at hcall ⊢
            cases hcall
            exact ⟨⟨hadd, rfl⟩, rfl⟩

theorem Alike.leave (h : Alike t u) {d : ObjectProxy} (hcall : leave t p d = .ok (t', calls)) :
    Alike t' u ∧ calls = [] := by
  unfold GraphStore.leave at hcall
  split at hcall
  · cases hcall
    exact ⟨⟨{ h.1 with }, h.2⟩, rfl⟩
  · split at hcall
    · cases hcall
    · cases hcall
      exact ⟨⟨{ h.1 with }, h.2⟩, rfl⟩

theorem Walk.targets {S : List ProxyPtr} {M : Nat} {o : ProxyPtr} (ht : Walk S M g o calls t)
    (hs : Ready S g) (p : ProxyPtr) : ∀ f ∈ t.graph.fields p, ∀ q ∈ f.target,
    (t.graph.object q).isSome := by
  intro f hf q hq
  obtain ⟨_, -, hw⟩ := ht.walk
  obtain ⟨i, hi⟩ := getElem?_of_mem hf
  obtain ⟨f₀, hf₀, heq, -⟩ := hw.same p i f hi
  rw [ht.object]
  exact hs.targets p f₀ (mem_of_getElem? hf₀) q (by rwa [heq] at hq)

section Insert

variable {S : List ProxyPtr} {M : Nat} {o : ProxyPtr} (hs : Ready S g) (hM : Fits g M)
  (hkey : ∀ q a, g.object q = some a → ∀ id, a.seqAfter id = id)

include hs hM hkey

theorem Alike.visit_field (h : Alike t u) (ht : Walk S M g o (.field p i :: calls) t)
    (hcall : GraphStore.insertObject t p i = .ok (t', calls')) :
    Alike t' (HasOneStore.insertObject u (p, i)).1 ∧
      calls'.filterMap Call.field? = (HasOneStore.insertObject u (p, i)).2 := by
  refine h.insertObject (ht.targets hs p) (fun q => ht.id_pos hs) (by rwa [ht.object])
    (fun q hobj hstd => ?_) hcall
  rw [ht.object] at hobj
  obtain ⟨a, ha⟩ := Option.isSome_iff_exists.mp hobj
  exact ht.seq_lt hs hM ha hstd

/-- **What an insertion does is shown**, when both models come to an end (`exists_insert`,
`accurate_insert`). -/
theorem shows_insert (hobject : (g.object o).isSome) (ho : ¬g.Stored o) (hsho : g.Shows h)
    {g' : GraphStore} {h' : HasOneStore} (hg : g.insert o = some (.ok g'))
    (hh : h.insert o = some h') : g'.Shows h' := by
  obtain ⟨a, ha⟩ := Option.isSome_iff_exists.mp hobject
  obtain ⟨n, hn, hwalk⟩ := Walk.start hs hM ha ho
  rw [insert, insertProxy_new ha ho hn] at hg
  rw [HasOneStore.insert, if_neg (mt (hsho.stored o).mp ho)] at hh
  obtain ⟨e, hrun, he⟩ := Option.map_eq_some_iff.mp hg
  obtain ⟨u', hrun', rfl⟩ := Option.map_eq_some_iff.mp hh
  have hseq := (Walk.empty (o := o) hs hM).seq_lt hs hM ha ho
  have hstart : Alike ⟨{ g with store := (g.store.linkAt o a n).1 }, []⟩ ⟨h.link o, []⟩ :=
    ⟨hsho.link n (hkey o a ha) hseq, rfl⟩
  -- the ends of the insertions are left out of the second walk
  obtain ⟨u, hsim, t, rfl, -, halike⟩ := Worklist.run_simulates HasOneStore.insertObject
    Call.field? (fun calls e u => ∃ t, e = .ok t ∧ Walk S M g o calls t ∧ Alike t u)
    (by
      rintro c calls e u hc ⟨t, rfl, ht, halike⟩
      obtain ⟨t', calls', hcall, ht', -⟩ := ht.step hs hM
      cases c with
      | field p i => cases hc
      | leave p d =>
        obtain ⟨halike', rfl⟩ := halike.leave hcall
        rw [visit_of_call hcall]
        exact ⟨⟨t', rfl, ht', halike'⟩, rfl⟩)
    (by
      rintro c x calls e u hc ⟨t, rfl, ht, halike⟩
      obtain ⟨t', calls', hcall, ht', -⟩ := ht.step hs hM
      cases c with
      | leave p d => cases hc
      | field p i =>
        cases hc
        obtain ⟨halike', heq⟩ := Alike.visit_field hs hM hkey halike ht hcall
        rw [visit_of_call hcall]
        exact ⟨⟨t', rfl, ht', halike'⟩, heq⟩)
    hrun ⟨_, rfl, hwalk, hstart⟩
  cases he
  rw [filterMap_append, filterMap_positions hsho, filterMap_cons_none rfl, filterMap_nil,
    append_nil] at hsim
  rw [Worklist.run_unique hrun' hsim]
  exact halike.1

end Insert

end GraphStore

end Matador.Object
