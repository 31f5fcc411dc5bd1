import Matador.Object.NodeKeys

/-!
# Finding objects by their keys

`get` looks a key up in the `id_map_` of the node of a type. The map keeps the first object that was
inserted under a key, and `prototype_node::remove` erases the key of the removed object, whichever
object it leads to: another object with this key is not found any more.

An object without a key gets its id as key, an identifier of type `unsigned long long`. A key of
another width is not found equal to it.
-/

namespace Matador.Object

open Function Lib PrototypeTree Option

/-- The keys have the type of the keys of their node, and are valid unless the type has 64 bits. -/
def NewObjects.Typed (width : String → Option Nat) (t : PrototypeTree) : NewObjects → Prop
  | .nil => True
  | .cons o cascade next =>
    (∀ n ∈ (t.findPrototypeNode o.classname).toOption.join, o.key = .null ∨
      o.key.width = width n.type ∧ (o.key.isValid ∨ width n.type = some 64)) ∧
    cascade.Typed width t ∧ next.Typed width t

instance NewObjects.decidableTyped (width : String → Option Nat) (t : PrototypeTree) :
    ∀ objects : NewObjects, Decidable (objects.Typed width t)
  | .nil => .isTrue trivial
  | .cons _ cascade next =>
    have := decidableTyped width t cascade
    have := decidableTyped width t next
    inferInstanceAs (Decidable (_ ∧ _ ∧ _))

namespace ObjectStore

/-- Inserting objects with what they cascade to, removing an object. -/
inductive KeyOp where
  | insert (objects : NewObjects)
  | remove (proxy : ProxyPtr)

def keyStep (s : ObjectStore) : KeyOp → ObjectStore
  | .insert objects => s.step (.insert objects)
  | .remove p => s.step (.remove [p])

/-- Types are attached, but nothing is inserted. -/
structure Unused (s : ObjectStore) : Prop where
  types : (s.lists.tree.nodes.map PrototypeNode.type).Nodup
  maps : ∀ n ∈ s.lists.tree.nodes, n.idMap = fun _ => none
  proxies : s.lists.proxies = fun _ => none

/-- A stored object of the type has a key with the value of `k`. -/
def HasKey (s : ObjectStore) (type : String) (k : Identifier) : Prop :=
  ∃ p o, s.lists.proxies p = some o ∧ o.node = type ∧ o.pk.bound = k.bound

/-- For every type with a primary key and every key of its type (`width`), `get` returns an object
with the key, or an empty pointer if there is none. -/
def GetsByKey (s : ObjectStore) (width : String → Option Nat) : Prop :=
  ∀ classname n k, s.lists.tree.findPrototypeNode classname = .ok (some n) →
    n.hasPrimaryKey = true → k ≠ .null → k.width = width n.type →
    (s.HasKey n.type k → ∃ p o, s.get classname k = .ok (some p) ∧ s.lists.proxies p = some o ∧
      o.node = n.type ∧ o.pk.bound = k.bound) ∧
    (¬s.HasKey n.type k → s.get classname k = .ok none)

/-- A key is given to the object unless its type has 64 bits; no other object of the type has the
key of the one that is removed. -/
def KeepsKeys (width : String → Option Nat) (s : ObjectStore) : KeyOp → Prop
  | .insert objects => objects.Typed width s.lists.tree
  | .remove p => ∀ o ∈ s.lists.proxies p, o.pk ≠ .null → ∀ q < s.lists.tree.nextProxy, q ≠ p →
      ∀ o' ∈ s.lists.proxies q, ¬(o'.node = o.node ∧ o'.pk = o.pk)

instance (width : String → Option Nat) (s : ObjectStore) : ∀ op, Decidable (s.KeepsKeys width op)
  | .insert objects => inferInstanceAs (Decidable (objects.Typed width s.lists.tree))
  | .remove p => inferInstanceAs (Decidable (∀ o ∈ s.lists.proxies p, o.pk ≠ .null →
      ∀ q < s.lists.tree.nextProxy, q ≠ p → ∀ o' ∈ s.lists.proxies q,
        ¬(o'.node = o.node ∧ o'.pk = o.pk)))

end ObjectStore

/-! ## The maps of the nodes -/

/-- In the nodes with a primary key, a key leads to an object that has it, and every key of an
object leads to one. -/
structure KeysInv (width : String → Option Nat) (l : ObjectLists) : Prop where
  types : (l.tree.nodes.map PrototypeNode.type).Nodup
  allocated : ∀ p o, l.proxies p = some o → p < l.tree.nextProxy
  attached : ∀ p o, l.proxies p = some o → o.node ∈ l.tree.nodes.map PrototypeNode.type
  leads : ∀ n ∈ l.tree.nodes, n.hasPrimaryKey = true → ∀ k p, l.tree.idMapOf n.type k = some p →
    ∃ o, l.proxies p = some o ∧ o.node = n.type ∧ o.pk = k
  found : ∀ n ∈ l.tree.nodes, n.hasPrimaryKey = true → ∀ p o, l.proxies p = some o →
    o.node = n.type →
    o.pk ≠ .null → (l.tree.idMapOf n.type o.pk).isSome = true
  typed : ∀ p o, l.proxies p = some o → o.pk = .null ∨ o.pk.width = width o.node

section Maps

variable {width : String → Option Nat} {l : ObjectLists} {n : PrototypeNode}

theorem exists_node_of_sigs {t t' : PrototypeTree}
    (h : t'.nodes.map PrototypeNode.sig = t.nodes.map PrototypeNode.sig) (hn : n ∈ t'.nodes) :
    ∃ m ∈ t.nodes, m.type = n.type ∧ m.hasPrimaryKey = n.hasPrimaryKey := by
  have hsig : n.sig ∈ t.nodes.map PrototypeNode.sig := h ▸ List.mem_map_of_mem hn
  obtain ⟨m, hm, hmn⟩ := List.mem_map.mp hsig
  simp only [PrototypeNode.sig, Prod.mk.injEq] at hmn
  exact ⟨m, hm, hmn.1, hmn.2.2.1⟩

theorem NewObjects.Typed.congr {t t' : PrototypeTree}
    (hsig : t'.nodes.map PrototypeNode.sig = t.nodes.map PrototypeNode.sig) :
    ∀ {objects : NewObjects}, objects.Typed width t → objects.Typed width t'
  | .nil, _ => trivial
  | .cons o cascade next, ⟨ho, hcas, hnext⟩ => by
    refine ⟨fun n' hn' => ?_, hcas.congr hsig, hnext.congr hsig⟩
    obtain ⟨n, hn, hsig'⟩ := findPrototypeNode_congr hsig.symm (toOption_join_eq.mp hn')
    have htype : n.type = n'.type := congrArg Prod.fst hsig'
    exact htype ▸ ho n (toOption_join_eq.mpr hn)

theorem KeysInv.insertAt (h : KeysInv width l) (hn : n ∈ l.tree.nodes) {o : ObjectProxy}
    (ho : o.node = n.type) (htyped : o.pk = .null ∨ o.pk.width = width o.node) :
    KeysInv width (l.alloc.insertAt l.tree.nextProxy o) := by
  have hsigs := insertProxy_sigs l.alloc.tree o.node l.tree.nextProxy o.pk
  have htys := congrArg (List.map Prod.fst) hsigs
  rw [← types_of_sigs, ← types_of_sigs] at htys
  have hnext := PrototypeTree.insertProxy_nextProxy l.alloc.tree o.node l.tree.nextProxy o.pk
  have hmap : (l.alloc.insertAt l.tree.nextProxy o).tree.idMapOf =
      withKey l.tree.idMapOf o.node o.pk l.tree.nextProxy := by
    rw [ho]
    exact ho ▸ idMapOf_insertProxy (t := l.alloc.tree) h.types hn
  have hpxs (q : ProxyPtr) (d : ObjectProxy) :
    (l.alloc.insertAt l.tree.nextProxy o).proxies q = some d →
      q = l.tree.nextProxy ∧ d = o ∨ l.proxies q = some d := by
    simp only [ObjectLists.alloc, ObjectLists.insertAt]
    grind
  have hkept (q : ProxyPtr) (d : ObjectProxy) (hd : l.proxies q = some d) :
      (l.alloc.insertAt l.tree.nextProxy o).proxies q = some d :=
    (update_of_ne (Nat.ne_of_lt (h.allocated q d hd)) _ _).trans hd
  refine ⟨htys ▸ h.types, fun q d hd => hnext ▸ ?_, fun q d hd => htys ▸ ?_,
    fun m hm hkey k p hp => ?_, fun m hm hkey q d hd hnode hpk => ?_, fun q d hd => ?_⟩
  · rcases hpxs q d hd with ⟨rfl, -⟩ | hd
    · exact Nat.lt_succ_self _
    · exact (h.allocated q d hd).trans (Nat.lt_succ_self _)
  · rcases hpxs q d hd with ⟨-, rfl⟩ | hd
    · exact ho ▸ List.mem_map_of_mem hn
    · exact h.attached q d hd
  · obtain ⟨m', hm', htype, hkey'⟩ := exists_node_of_sigs hsigs hm
    have hold (hp : l.tree.idMapOf m.type k = some p) :
        ∃ d, (l.alloc.insertAt l.tree.nextProxy o).proxies p = some d ∧ d.node = m.type ∧
          d.pk = k := by
      obtain ⟨d, hd, hdk⟩ := h.leads m' hm' (hkey'.trans hkey) k p (htype ▸ hp)
      exact ⟨d, hkept p d hd, htype ▸ hdk⟩
    rcases ite_eq_iff.mp ((congrFun₂ hmap m.type k).symm.trans hp) with ⟨hcase, hp⟩ | ⟨-, hp⟩
    · rcases or_eq_some_iff.mp hp with hp | ⟨-, hp⟩
      · exact hold hp
      · cases hp
        exact ⟨o, update_self .., hcase.2.1.symm, hcase.2.2.symm⟩
    · exact hold hp
  · obtain ⟨m', hm', htype, hkey'⟩ := exists_node_of_sigs hsigs hm
    rw [hmap, withKey]
    rcases hpxs q d hd with ⟨-, rfl⟩ | hd
    · rw [if_pos ⟨hpk, hnode.symm, rfl⟩, isSome_or, isSome_some, Bool.or_true]
    · have hfnd := h.found m' hm' (hkey'.trans hkey) q d hd (hnode.trans htype.symm) hpk
      rw [htype] at hfnd
      split
      · rw [isSome_or, hfnd, Bool.true_or]
      · exact hfnd
  · rcases hpxs q d hd with ⟨-, rfl⟩ | hd
    · exact htyped
    · exact h.typed q d hd

theorem KeysInv.removeAt (h : KeysInv width l) {p : ProxyPtr} {o : ObjectProxy}
    (ho : l.proxies p = some o)
    (hsole : o.pk ≠ .null → ∀ q o', l.proxies q = some o' → q ≠ p →
      ¬(o'.node = o.node ∧ o'.pk = o.pk)) :
    KeysInv width (l.removeAt p o) := by
  obtain ⟨n, hn, hnt⟩ := List.mem_map.mp (h.attached p o ho)
  have hsigs := removeProxy_sigs l.tree o.node p o.pk
  have htys := congrArg (List.map Prod.fst) hsigs
  rw [← types_of_sigs, ← types_of_sigs] at htys
  have hmap : (l.tree.removeProxy n.type p o.pk).idMapOf = _ := removeProxy_idMapOf h.types hn
  rw [hnt] at hmap
  -- the map of a type with a key loses the key of the object
  have hget (m : PrototypeNode) (hm : m ∈ l.tree.nodes) (hkey : m.hasPrimaryKey) (k : Identifier) :
      (l.tree.removeProxy o.node p o.pk).idMapOf m.type k =
        if m.type = o.node ∧ k = o.pk then none else l.tree.idMapOf m.type k := by
    rw [hmap, update_apply]
    split
    · next ht =>
      obtain rfl := List.inj_on_of_nodup_map h.types hm hn (ht.trans hnt.symm)
      rw [if_pos hkey, show l.tree.idMapOf m.type = m.idMap from idMapIn_of_mem h.types hm, erase,
        update_apply]
      simp [ht]
    · next ht => rw [if_neg fun hc => ht hc.1]
  refine ⟨htys ▸ h.types, fun q d hd => ?_, fun q d hd =>
    htys ▸ h.attached q d (removeAt_proxies.mp hd).2,
    fun m hm hkey k q hq => ?_, fun m hm hkey q d hd hnode hpk => ?_,
    fun q d hd => h.typed q d (removeAt_proxies.mp hd).2⟩
  · rw [show (l.removeAt p o).tree.nextProxy = l.tree.nextProxy from removeProxy_nextProxy ..]
    exact h.allocated q d (removeAt_proxies.mp hd).2
  · obtain ⟨m', hm', htype, hkey'⟩ := exists_node_of_sigs hsigs hm
    rw [← htype] at hq ⊢
    rcases ite_eq_iff.mp ((hget m' hm' (hkey'.trans hkey) k).symm.trans hq) with ⟨-, hq⟩ | ⟨hne, hq⟩
    · cases hq
    · obtain ⟨d, hd, hnode, hpk⟩ := h.leads m' hm' (hkey'.trans hkey) k q hq
      refine ⟨d, removeAt_proxies.mpr ⟨?_, hd⟩, hnode, hpk⟩
      rintro rfl
      obtain rfl := some.inj (ho.symm.trans hd)
      exact hne ⟨hnode.symm, hpk.symm⟩
  · obtain ⟨m', hm', htype, hkey'⟩ := exists_node_of_sigs hsigs hm
    obtain ⟨hqp, hd⟩ := removeAt_proxies.mp hd
    rw [← htype] at hnode ⊢
    show (PrototypeTree.idMapOf (l.tree.removeProxy ..) m'.type d.pk).isSome
    rw [hget m' hm' (hkey'.trans hkey), if_neg]
    · exact h.found m' hm' (hkey'.trans hkey) q d hd hnode hpk
    · exact fun hc => hsole (hc.2 ▸ hpk) q d hd hqp ⟨hnode.trans hc.1, hc.2⟩

end Maps

/-! ## Runs -/

namespace ObjectStore

variable {s : ObjectStore} {width : String → Option Nat}

theorem typed_pk {o : NewObject} {type : String} (id : Nat) (h : o.key = .null ∨
    o.key.width = width type ∧ (o.key.isValid ∨ width type = some 64)) :
    o.pk id = .null ∨ (o.pk id).width = width type := by
  unfold NewObject.pk
  split
  · exact h.imp_right And.left
  · next hnot =>
    rcases h with h | ⟨-, h | h⟩
    · simp [h, Identifier.isNull] at hnot
    · simp [h] at hnot
    · exact .inr h.symm

theorem keysInv_insert (objects : NewObjects) {s : ObjectStore} (h : KeysInv width s.lists)
    (htyped : objects.Typed width s.lists.tree) : KeysInv width (s.insert objects).1.lists ∧
      (s.insert objects).1.lists.tree.nodes.map PrototypeNode.sig =
        s.lists.tree.nodes.map PrototypeNode.sig := by
  induction objects generalizing s with
  | nil => exact ⟨h, rfl⟩
  | cons o cascade next ihc ihn =>
    obtain ⟨ho, hcas, hnext⟩ := htyped
    rw [insert]
    cases hlink : s.link o with
    | error e => exact ⟨h, rfl⟩
    | ok r =>
      obtain ⟨s₁, p, d⟩ := r
      obtain ⟨n, hn, rfl, hd, hs₁⟩ := link_ok hlink
      have hpk := typed_pk (Sequencer.next s.seq) (ho n (toOption_join_eq.mpr hn))
      have h₁ : KeysInv width s₁.lists :=
        hs₁ ▸ h.insertAt (findPrototypeNode_mem hn) (by rw [hd]) (by rw [hd]; exact hpk)
      have hsig₁ : s₁.lists.tree.nodes.map PrototypeNode.sig =
          s.lists.tree.nodes.map PrototypeNode.sig := hs₁ ▸ insertProxy_sigs ..
      obtain ⟨h₂, hsig₂⟩ := ihc h₁ (hcas.congr hsig₁)
      dsimp only
      cases hins : s₁.insert cascade with
      | mk s₂ error =>
        rw [hins] at h₂ hsig₂
        cases error with
        | some e => exact ⟨h₂, hsig₂.trans hsig₁⟩
        | none =>
          obtain ⟨h₃, hsig₃⟩ := ihn (s := s₂.mapProxy _ d) h₂ (hnext.congr (hsig₂.trans hsig₁))
          exact ⟨h₃, hsig₃.trans (hsig₂.trans hsig₁)⟩

theorem keysInv_step (s : ObjectStore) (op : KeyOp) (h : KeysInv width s.lists)
    (hop : s.KeepsKeys width op) : KeysInv width (s.keyStep op).lists := by
  cases op with
  | insert objects => exact (keysInv_insert objects h hop).1
  | remove p =>
    show KeysInv width (s.remove [p]).1.lists
    rw [remove, removeSingle]
    cases ho : s.lists.proxies p with
    | none => exact h
    | some o =>
      dsimp only
      cases hrem : s.removeProxy p o with
      | error e => exact h
      | ok s' =>
        obtain ⟨-, rfl⟩ := removeProxy_ok hrem
        exact h.removeAt ho fun hpk q o' ho' hqp => hop o ho hpk q (h.allocated q o' ho') hqp o' ho'

theorem Unused.keysInv (h : s.Unused) : KeysInv width s.lists where
  types := h.types
  allocated := by simp [h.proxies]
  attached := by simp [h.proxies]
  leads := fun n hn _ k p hp => by
    have hmap : s.lists.tree.idMapOf n.type = n.idMap := idMapIn_of_mem h.types hn
    rw [hmap, h.maps n hn] at hp
    cases hp
  found := by simp [h.proxies]
  typed := by simp [h.proxies]

theorem getsByKey_of_keysInv (h : KeysInv width s.lists) : s.GetsByKey width := by
  intro classname n k hfind hkey hk hwidth
  have hn := findPrototypeNode_mem hfind
  have hget : s.get classname k = .ok (s.lists.tree.idMapOf n.type k) := by
    rw [get, hfind, show s.lists.tree.idMapOf n.type = n.idMap from idMapIn_of_mem h.types hn]
  rw [hget]
  refine ⟨?_, fun hnot => ?_⟩
  · rintro ⟨q, o, ho, hnode, hbound⟩
    -- a key of the type with the value of `k` is `k`
    have hpk : o.pk = k := by
      rcases h.typed q o ho with hnull | htyped
      · rw [hnull] at hbound
        cases k <;> simp_all [Identifier.bound]
      · exact Identifier.eq_of_bound (by rw [htyped, hnode, hwidth]) hbound
    subst hpk
    obtain ⟨p, hp⟩ := isSome_iff_exists.mp (h.found n hn hkey q o ho hnode hk)
    obtain ⟨o', ho', hnode', hpk'⟩ := h.leads n hn hkey o.pk p hp
    exact ⟨p, o', by rw [hp], ho', hnode', by rw [hpk']⟩
  · cases hp : s.lists.tree.idMapOf n.type k with
    | none => rfl
    | some p =>
      obtain ⟨o, ho, hnode, hpk⟩ := h.leads n hn hkey k p hp
      exact absurd ⟨p, o, ho, hnode, by rw [hpk]⟩ hnot

/-- **`get` finds an object with the key whenever there is one**, in every run that removes no
object whose key another object of its type has and in which only keys of 64 bits are left to the
store. -/
theorem gets_of_run (width : String → Option Nat) (hs : s.Unused) (ops : List KeyOp)
    (h : RunMeets keyStep (KeepsKeys width) s ops) : (ops.foldl keyStep s).GetsByKey width :=
  getsByKey_of_keysInv
    (@RunMeets.invariant _ _ _ _ s ops (fun s => KeysInv width s.lists) keysInv_step hs.keysInv h)

def persons : ObjectStore := empty.step (.attach "person" "P" true none)

theorem unused_persons : persons.Unused where
  types := by decide
  maps := by
    rintro n (_ | ⟨_, ⟨⟩⟩)
    rfl
  proxies := rfl

/-- A given key, and one that is the id of its object; the given one is used again once its object
is removed. -/
def reusedKey : List KeyOp :=
  [.insert (.cons ⟨"P", .long, .integral 64 7⟩ .nil .nil),
    .insert (.cons ⟨"P", .long, .integral 64 0⟩ .nil .nil), .remove 3,
    .insert (.cons ⟨"P", .long, .integral 64 7⟩ .nil .nil)]

theorem gets_of_persons : RunMeets keyStep (KeepsKeys fun _ => some 64) persons reusedKey ∧
    (reusedKey.foldl keyStep persons).GetsByKey fun _ => some 64 :=
  ⟨by decide, gets_of_run _ unused_persons _ (by decide)⟩

/-- Two persons have the key 7. When the second one is removed, the first one is not found. A person
with an `int` key that is left to the store is not found either. -/
theorem first_person_lost :
    ¬([.insert (.cons ⟨"P", .int, .integral 32 7⟩ .nil .nil),
      .insert (.cons ⟨"P", .int, .integral 32 7⟩ .nil .nil),
      .remove 4].foldl keyStep persons).GetsByKey (fun _ => some 32) ∧
    ¬([.insert (.cons ⟨"P", .int, .integral 32 0⟩ .nil .nil)].foldl keyStep persons).GetsByKey
      fun _ => some 32 := by
  constructor
  · intro h
    obtain ⟨p, o, hp, -⟩ :=
      (h "P" _ (.integral 32 7) rfl rfl (by decide) rfl).1 ⟨3, _, rfl, rfl, rfl⟩
    cases hp
  · intro h
    obtain ⟨p, o, hp, -⟩ :=
      (h "P" _ (.integral 32 1) rfl rfl (by decide) rfl).1 ⟨3, _, rfl, rfl, rfl⟩
    cases hp

end ObjectStore

end Matador.Object
