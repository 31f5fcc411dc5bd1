import Matador.Object.NodeClear

/-!
# The map of the object store

`object_map_` and the lists of the nodes should hold the same proxies (`MapAgrees`). Within an
insertion they do not: a proxy is linked first and entered into the map only after the objects it
cascades to. `Mapped pending s` is the invariant that allows for such proxies.

`detach` and `clear(type)` leave the deleted objects in the map; an insertion that fails in a
cascade leaves linked proxies outside the map. `ObjectStore.Allowed` excludes these calls.
-/

namespace Matador.Object

open PrototypeNode Function List Lib PrototypeTree Option

/-! ## What is linked -/

/-- The proxy is met on the way from `op_first` to `op_marker` of some node. -/
def ObjectLists.Linked (s : ObjectLists) (p : ProxyPtr) : Prop :=
  ∃ n ∈ s.tree.nodes, ∃ fuel l, walk s.tree.links.next fuel n.opFirst n.opMarker = some l ∧ p ∈ l

variable {n : PrototypeNode}

section Linked

variable {own : Own} {segs : List Segment} {s : ObjectLists}

section

variable (h : ListsInv own segs s) (hn : n ∈ s.tree.nodes)

include h hn

theorem ListsInv.walk_eq :
    walk s.tree.links.next ((own n.type).length + 1) n.opFirst n.opMarker = some (own n.type) := by
  obtain ⟨pre₀, post₀, hnds⟩ := append_of_mem hn
  obtain ⟨G₁, S, G₂, pre, post, rfl, hS, rfl, rfl⟩ := h.layout.exists_split hnds
  have hl := h.layout.linked_split hS
  have hnd := h.layout.nodup_split hS
  obtain ⟨rest, hrest⟩ := h.layout.behind_eq hS
  obtain ⟨front, hfrt⟩ := h.layout.before_eq hS
  rw [hrest, hfrt] at hl
  rw [hrest] at hnd
  have hl' : Lib.Linked s.tree.links (n.opFirst :: own n.type ++ [n.opMarker]) := by
    refine Linked.part front rest ?_
    simpa using hl
  refine walk_of_linked hl' (fun hc => ?_) (Nat.lt_succ_self _)
  exact (nodup_append.mp hnd).2.2 _ (mem_append_right _ hc) _ (by simp) rfl

theorem ListsInv.eq_own {fuel : Nat}
    {l : List ProxyPtr} (hl : walk s.tree.links.next fuel n.opFirst n.opMarker = some l) :
    l = own n.type := by
  have hl' := walk_mono hl (Nat.le_add_right fuel ((own n.type).length + 1))
  rw [walk_mono (h.walk_eq hn) (Nat.le_add_left _ fuel), Option.some.injEq] at hl'
  exact hl'.symm

theorem ListsInv.count_own {p : ProxyPtr}
    {d : ObjectProxy} (hd : s.proxies p = some d) (hnode : d.node = n.type) :
    (own n.type).count p = 1 := by
  obtain ⟨pre₀, post₀, hnds⟩ := append_of_mem hn
  obtain ⟨G₁, S, G₂, pre, post, rfl, hS, rfl, rfl⟩ := h.layout.exists_split hnds
  exact count_eq_one_of_mem (h.layout.nodup_own hS) ((h.stored p n.type).mpr ⟨d, hd, hnode⟩)

end

theorem ListsInv.linked_iff (h : ListsInv own segs s) {p : ProxyPtr} :
    s.Linked p ↔ ∃ o, s.proxies p = some o := by
  constructor
  · rintro ⟨n, hn, fuel, l, hl, hp⟩
    rw [h.eq_own hn hl] at hp
    obtain ⟨o, ho, -⟩ := (h.stored p n.type).mp hp
    exact ⟨o, ho⟩
  · rintro ⟨o, ho⟩
    obtain ⟨n, hn, hnt⟩ := mem_map.mp (h.attached p o ho)
    exact ⟨n, hn, _, _, h.walk_eq hn, (h.stored p n.type).mpr ⟨o, ho, hnt.symm⟩⟩

end Linked

/-! ## Types are found by their signatures -/

/-- `find_prototype_node` on signatures. -/
def findSig (sigs : List (String × String × Bool × Nat)) (type : String) :
    Except String (Option (String × String × Bool × Nat)) :=
  match sigs.find? (·.1 = type) with
  | some x => .ok (some x)
  | none =>
    match sigs.filter (·.2.1 = type) with
    | [] => .ok none
    | [x] => .ok (some x)
    | _ => .error "type id not unique"

theorem findPrototypeNode_sig (t : PrototypeTree) (type : String) :
    (t.findPrototypeNode type).map (Option.map sig) = findSig (t.nodes.map sig) type := by
  have hfind : (t.nodes.map sig).find? (·.1 = type) = (t.nodes.find? (·.type = type)).map sig :=
    find?_map ..
  have hfil : (t.nodes.map sig).filter (·.2.1 = type) =
      (t.nodes.filter (·.typeId = type)).map sig := filter_map ..
  unfold findPrototypeNode findSig
  rw [hfind, hfil]
  cases t.nodes.find? (·.type = type) with
  | some n => rfl
  | none =>
    generalize t.nodes.filter (fun n => decide (n.typeId = type)) = ns
    rcases ns with _ | ⟨n, _ | ⟨m, ns⟩⟩
    · rfl
    · rfl
    · rfl

theorem findPrototypeNode_congr {t t' : PrototypeTree} {type : String}
    (hsig : t'.nodes.map sig = t.nodes.map sig) (h : t.findPrototypeNode type = .ok (some n)) :
    ∃ n', t'.findPrototypeNode type = .ok (some n') ∧ n'.sig = n.sig := by
  have heq := findPrototypeNode_sig t' type
  rw [hsig, ← findPrototypeNode_sig t type, h] at heq
  cases hfind : t'.findPrototypeNode type with
  | error e =>
    rw [hfind] at heq
    simp [Except.map] at heq
  | ok r =>
    rw [hfind] at heq
    cases r with
    | none => simp [Except.map] at heq
    | some n' =>
      simp only [Except.map, map_some, Except.ok.injEq, Option.some.injEq] at heq
      exact ⟨n', rfl, heq⟩

/-! ## The invariant -/

/-- The map holds the linked proxies apart from those of `pending`; ids are unique and the sequencer
has passed them. -/
structure Mapped (pending : List ProxyPtr) (s : ObjectStore) : Prop where
  lists : ∃ own segs, ListsInv own segs s.lists
  map : ∀ i p, s.objectMap i = some p ↔ (∃ o, s.lists.proxies p = some o ∧ o.id = i) ∧ p ∉ pending
  ids : ∀ p o, s.lists.proxies p = some o → o.id ≤ s.seq
  unique : ∀ p q o o', s.lists.proxies p = some o → s.lists.proxies q = some o' →
    o.id = o'.id → p = q
  stored : ∀ p ∈ pending, ∃ o, s.lists.proxies p = some o

theorem mapped_empty : Mapped [] ObjectStore.empty where
  lists := ⟨_, _, listsInv_empty⟩
  map := by simp [ObjectStore.empty, ObjectLists.empty]
  ids := by simp [ObjectStore.empty, ObjectLists.empty]
  unique := by simp [ObjectStore.empty, ObjectLists.empty]
  stored := by simp

theorem Mapped.of_proxies {pending : List ProxyPtr} {s : ObjectStore} (h : Mapped pending s)
    {lists : ObjectLists} (hlis : ∃ own segs, ListsInv own segs lists)
    (hpxs : ∀ p o, lists.proxies p = some o ↔ s.lists.proxies p = some o) :
    Mapped pending { s with lists := lists } where
  lists := hlis
  map := by simpa only [hpxs] using h.map
  ids := by simpa only [hpxs] using h.ids
  unique := by simpa only [hpxs] using h.unique
  stored := by simpa only [hpxs] using h.stored

/-! ## Inserting -/

namespace NewObjects

def seqEnd : Nat → NewObjects → Nat
  | seq, .nil => seq
  | seq, .cons o cascade next => next.seqEnd (cascade.seqEnd (o.seqAfter (seq + 1)))

/-- The sequencer does not run over its 64 bits. -/
def SeqFits : Nat → NewObjects → Prop
  | _, .nil => True
  | seq, .cons o cascade next =>
    seq + 1 < 2 ^ 64 ∧ cascade.SeqFits (o.seqAfter (seq + 1)) ∧
      next.SeqFits (cascade.seqEnd (o.seqAfter (seq + 1)))

def Resolves (t : PrototypeTree) : NewObjects → Prop
  | .nil => True
  | .cons o cascade next =>
    ((t.findPrototypeNode o.classname).toOption.join).isSome ∧ cascade.Resolves t ∧ next.Resolves t

instance decidableSeqFits : ∀ seq objects, Decidable (SeqFits seq objects)
  | _, .nil => .isTrue trivial
  | seq, .cons o cascade next =>
    have := decidableSeqFits (o.seqAfter (seq + 1)) cascade
    have := decidableSeqFits (cascade.seqEnd (o.seqAfter (seq + 1))) next
    inferInstanceAs (Decidable (seq + 1 < 2 ^ 64 ∧ _ ∧ _))

instance decidableResolves (t : PrototypeTree) : ∀ objects, Decidable (Resolves t objects)
  | .nil => .isTrue trivial
  | .cons o cascade next =>
    have := decidableResolves t cascade
    have := decidableResolves t next
    inferInstanceAs (Decidable (((t.findPrototypeNode o.classname).toOption.join).isSome ∧ _ ∧ _))

theorem Resolves.congr {t t' : PrototypeTree} (hsig : t'.nodes.map sig = t.nodes.map sig) :
    ∀ {objects : NewObjects}, objects.Resolves t → objects.Resolves t'
  | .nil, _ => trivial
  | .cons o cascade next, ⟨ho, hcas, hnext⟩ => by
    refine ⟨?_, Resolves.congr hsig hcas, Resolves.congr hsig hnext⟩
    obtain ⟨n, hn⟩ := isSome_iff_exists.mp ho
    cases hfind : t.findPrototypeNode o.classname with
    | error e => simp [hfind, Except.toOption] at hn
    | ok r =>
      simp only [hfind, Except.toOption, join_some] at hn
      obtain ⟨n', hn', -⟩ := findPrototypeNode_congr hsig (hfind.trans (by rw [hn]))
      simp [hn', Except.toOption]

end NewObjects

theorem NewObject.le_seqAfter (o : NewObject) (id : Nat) : id ≤ o.seqAfter id := by
  unfold NewObject.seqAfter
  split
  · exact Sequencer.le_sync _ _ _
  · exact Nat.le_refl _

section Insert

variable {pending : List ProxyPtr} {s s' : ObjectStore} {o : NewObject} {p : ProxyPtr}
  {d : ObjectProxy}

theorem link_ok (h : s.link o = .ok (s', p, d)) :
    ∃ n, s.lists.tree.findPrototypeNode o.classname = .ok (some n) ∧ p = s.lists.tree.nextProxy ∧
      d = ⟨Sequencer.next s.seq, o.classname, n.type, o.pk (Sequencer.next s.seq)⟩ ∧
      s' = { s with
        lists := s.lists.alloc.insertAt p d
        seq := o.seqAfter (Sequencer.next s.seq) } := by
  unfold ObjectStore.link at h
  split at h
  · cases h
  · cases h
  · next n hn =>
    cases h
    exact ⟨n, hn, rfl, rfl, rfl⟩

theorem link_store (hseq : s.seq + 1 < 2 ^ 64) (h : s.link o = .ok (s', p, d)) :
    p = s.lists.tree.nextProxy ∧ d.id = s.seq + 1 ∧ s.seq + 1 ≤ s'.seq ∧
      s'.lists.tree.nextProxy = s.lists.tree.nextProxy + 1 ∧
      s'.lists.proxies = update s.lists.proxies p (some d) := by
  obtain ⟨n, -, rfl, rfl, rfl⟩ := link_ok h
  rw [Sequencer.next_eq hseq]
  exact ⟨rfl, rfl, o.le_seqAfter _, PrototypeTree.insertProxy_nextProxy .., rfl⟩

theorem insertProxy_sigs (t : PrototypeTree) (type : String) (p : ProxyPtr) (pk : Identifier) :
    (t.insertProxy type p pk).nodes.map sig = t.nodes.map sig := by
  cases hloc : locate type t.nodes with
  | none => rw [insertProxy, hloc]
  | some r =>
    rw [map_of_bodies (fun _ => rfl) (insertProxy_bodies hloc p pk), (locate_eq hloc).1,
      map_append, map_append]
    rfl

theorem removeProxy_sigs (t : PrototypeTree) (type : String) (p : ProxyPtr) (pk : Identifier) :
    (t.removeProxy type p pk).nodes.map sig = t.nodes.map sig := by
  cases hloc : locate type t.nodes with
  | none => rw [removeProxy, hloc]
  | some r =>
    rw [map_of_bodies (fun _ => rfl) (removeProxy_bodies hloc p pk), (locate_eq hloc).1,
      map_append, map_append]
    rfl

theorem Mapped.insertAt (h : Mapped pending s) {seq : Nat}
    (hlis : ∃ own segs, ListsInv own segs (s.lists.insertAt p d))
    (hp : s.lists.proxies p = none) (hid : d.id ≤ seq) (hseq : s.seq ≤ seq)
    (hnew : ∀ q d', s.lists.proxies q = some d' → d'.id ≠ d.id) :
    Mapped (p :: pending) { s with lists := s.lists.insertAt p d, seq := seq } := by
  have hpxs : ∀ q d', (s.lists.insertAt p d).proxies q = some d' ↔
      q = p ∧ d = d' ∨ q ≠ p ∧ s.lists.proxies q = some d' := by
    intro q d'
    by_cases hq : q = p
    · subst hq
      simp [ObjectLists.insertAt]
    · simp [ObjectLists.insertAt, hq]
  refine ⟨hlis, ?_, ?_, ?_, ?_⟩
  · intro i q
    simp only [hpxs]
    by_cases hq : q = p
    · subst hq
      refine iff_of_false (fun hi => ?_) (by simp)
      obtain ⟨⟨d', hd', -⟩, -⟩ := (h.map i _).mp hi
      rw [hp] at hd'
      cases hd'
    · simp only [hq, false_and, ne_eq, not_false_eq_true, true_and, false_or, mem_cons]
      exact h.map i q
  · intro q d' hd'
    rcases (hpxs q d').mp hd' with ⟨-, rfl⟩ | ⟨-, hd'⟩
    · exact hid
    · exact (h.ids q d' hd').trans hseq
  · -- the new id differs from all others
    intro q r d₁ d₂ hd₁ hd₂ he
    rcases (hpxs q d₁).mp hd₁ with ⟨rfl, rfl⟩ | ⟨-, hq⟩
    · rcases (hpxs r d₂).mp hd₂ with ⟨rfl, -⟩ | ⟨-, hr⟩
      · rfl
      · exact absurd he.symm (hnew r d₂ hr)
    · rcases (hpxs r d₂).mp hd₂ with ⟨rfl, rfl⟩ | ⟨-, hr⟩
      · exact absurd he (hnew q d₁ hq)
      · exact h.unique q r d₁ d₂ hq hr he
  · intro q hq
    by_cases hqp : q = p
    · exact ⟨d, (hpxs q d).mpr (.inl ⟨hqp, rfl⟩)⟩
    · obtain ⟨d', hd'⟩ := h.stored q ((mem_cons.mp hq).resolve_left hqp)
      exact ⟨d', (hpxs q d').mpr (.inr ⟨hqp, hd'⟩)⟩

theorem ListsInv.proxies_nextProxy {own : Own} {segs : List Segment} {l : ObjectLists}
    (h : ListsInv own segs l) : l.proxies l.tree.nextProxy = none := by
  cases hp : l.proxies l.tree.nextProxy with
  | none => rfl
  | some o => exact absurd (h.mem_cells ((h.stored _ _).mpr ⟨o, hp, rfl⟩)) h.alloc.2

theorem Mapped.link (h : Mapped pending s) (hseq : s.seq + 1 < 2 ^ 64)
    (hlink : s.link o = .ok (s', p, d)) :
    Mapped (p :: pending) s' ∧ s'.lists.proxies p = some d ∧ s'.seq = o.seqAfter (s.seq + 1) ∧
      s'.lists.tree.nodes.map sig = s.lists.tree.nodes.map sig ∧
      p ∉ pending ∧ ∀ q d, s.lists.proxies q = some d → s'.lists.proxies q = some d := by
  obtain ⟨n, hfind, rfl, rfl, rfl⟩ := link_ok hlink
  obtain ⟨own, segs, hinv⟩ := h.lists
  obtain ⟨hall, hfsh⟩ := hinv.alloc
  obtain ⟨pre, post, hnds⟩ := append_of_mem (findPrototypeNode_mem hfind)
  rw [Sequencer.next_eq hseq]
  obtain ⟨own', segs', hinv', -, -⟩ := hall.insertAt
    (o := ⟨s.seq + 1, o.classname, n.type, o.pk (s.seq + 1)⟩) hnds hfsh
    ⟨hinv.layout.next_pos, Nat.lt_succ_self _⟩ rfl
  have hall' : Mapped pending { s with lists := s.lists.alloc } :=
    h.of_proxies ⟨own, segs, hall⟩ fun _ _ => Iff.rfl
  have hle := o.le_seqAfter (s.seq + 1)
  refine ⟨hall'.insertAt ⟨own', segs', hinv'⟩ hinv.proxies_nextProxy hle
    ((Nat.le_succ _).trans hle) fun q d hd he => ?_, update_self .., rfl, insertProxy_sigs _ _ _ _,
    fun hc => ?_, fun q d hd => ?_⟩
  · have hold : d.id ≤ s.seq := h.ids q d hd
    simp only at he
    omega
  · obtain ⟨d, hd⟩ := h.stored _ hc
    rw [hinv.proxies_nextProxy] at hd
    cases hd
  · refine (update_of_ne ?_ _ _).trans hd
    rintro rfl
    rw [hinv.proxies_nextProxy] at hd
    cases hd

theorem Mapped.mapProxy (h : Mapped (p :: pending) s) (hp : p ∉ pending)
    (hd : s.lists.proxies p = some d) : Mapped pending (s.mapProxy p d) := by
  have hnone : s.objectMap d.id = none := by
    cases hq : s.objectMap d.id with
    | none => rfl
    | some q =>
      obtain ⟨⟨d', hd', hid⟩, hq'⟩ := (h.map d.id q).mp hq
      exact absurd (h.unique q p d' d hd' hd hid) fun he => hq' (by simp [he])
  rw [ObjectStore.mapProxy, insertNew_of_none hnone]
  refine ⟨h.lists, ?_, h.ids, h.unique, fun q hq => h.stored q (by simp [hq])⟩
  intro i q
  by_cases hi : i = d.id
  · subst hi
    simp only [update_self, Option.some.injEq]
    constructor
    · rintro rfl
      exact ⟨⟨d, hd, rfl⟩, hp⟩
    · rintro ⟨⟨d', hd', hid⟩, -⟩
      exact h.unique p q d d' hd hd' hid.symm
  · simp only [update_of_ne hi, h.map, mem_cons, not_or]
    refine and_congr_right fun ⟨d', hd', hid⟩ => and_iff_right ?_
    rintro rfl
    rw [hd, Option.some.injEq] at hd'
    exact hi (hd' ▸ hid.symm)

/-- **An insertion keeps the map**, by induction on the objects and their cascades. -/
theorem insert_spec (objects : NewObjects) {pending : List ProxyPtr} {s : ObjectStore}
    (h : Mapped pending s) (hres : objects.Resolves s.lists.tree) (hseq : objects.SeqFits s.seq) :
    (s.insert objects).2 = none ∧ Mapped pending (s.insert objects).1 ∧
      (s.insert objects).1.seq = objects.seqEnd s.seq ∧
      (s.insert objects).1.lists.tree.nodes.map sig = s.lists.tree.nodes.map sig ∧
      ∀ p d, s.lists.proxies p = some d → (s.insert objects).1.lists.proxies p = some d := by
  induction objects generalizing pending s with
  | nil => exact ⟨rfl, h, rfl, rfl, fun _ _ hd => hd⟩
  | cons o cascade next ihc ihn =>
    obtain ⟨hfind, hresc, hresn⟩ := hres
    obtain ⟨hlt, hseqc, hseqn⟩ := hseq
    obtain ⟨s₁, p, d, hlink⟩ : ∃ s₁ p d, s.link o = .ok (s₁, p, d) := by
      unfold ObjectStore.link
      obtain ⟨n, hn⟩ := isSome_iff_exists.mp hfind
      cases hf : s.lists.tree.findPrototypeNode o.classname with
      | error e => simp [hf, Except.toOption] at hn
      | ok r =>
        simp only [hf] at hn
        subst hn
        exact ⟨_, _, _, rfl⟩
    obtain ⟨hmap₁, hd₁, hseq₁, hsig₁, hp, hkeep₁⟩ := h.link hlt hlink
    obtain ⟨herr₂, hmap₂, hseq₂, hsig₂, hkeep₂⟩ := ihc hmap₁ (hresc.congr hsig₁) (hseq₁ ▸ hseqc)
    have hmap₃ := hmap₂.mapProxy hp (hkeep₂ p d hd₁)
    have hins : s.insert (.cons o cascade next) =
        ((s₁.insert cascade).1.mapProxy p d).insert next := by
      have hpair : s₁.insert cascade = ((s₁.insert cascade).1, none) := Prod.ext rfl herr₂
      rw [ObjectStore.insert, hlink]
      simp only
      rw [hpair]
    have hsig : ((s₁.insert cascade).1.mapProxy p d).lists.tree.nodes.map sig =
        s.lists.tree.nodes.map sig := hsig₂.trans hsig₁
    have hseq₃ : ((s₁.insert cascade).1.mapProxy p d).seq =
        cascade.seqEnd (o.seqAfter (s.seq + 1)) :=
      hseq₂.trans (by rw [hseq₁])
    obtain ⟨herr₄, hmap₄, hseq₄, hsig₄, hkeep₄⟩ := ihn hmap₃ (hresn.congr hsig) (hseq₃ ▸ hseqn)
    rw [hins]
    refine ⟨herr₄, hmap₄, ?_, hsig₄.trans hsig, fun q d' hd' =>
      hkeep₄ q d' (hkeep₂ q d' (hkeep₁ q d' hd'))⟩
    rw [hseq₄, hseq₃]
    rfl

end Insert

/-! ## Removing -/

section Remove

variable {s s' : ObjectStore} {p : ProxyPtr}

theorem removeProxy_ok {o : ObjectProxy} (h : s.removeProxy p o = .ok s') :
    (s.objectMap o.id).isSome ∧
      s' = { s with lists := s.lists.removeAt p o, objectMap := erase s.objectMap o.id } := by
  unfold ObjectStore.removeProxy at h
  split at h
  · cases h
  · next hi =>
    cases h
    exact ⟨by simpa [isSome_iff_ne_none] using hi, rfl⟩

theorem removeProxy_store {d : ObjectProxy} (h : s.removeProxy p d = .ok s') :
    s'.seq = s.seq ∧ s'.lists.tree.nextProxy = s.lists.tree.nextProxy ∧
      s'.lists.proxies = update s.lists.proxies p none := by
  obtain ⟨-, rfl⟩ := removeProxy_ok h
  exact ⟨rfl, removeProxy_nextProxy .., rfl⟩

theorem removeAt_proxies {l : ObjectLists} {o d : ObjectProxy} {q : ProxyPtr} :
    (l.removeAt p o).proxies q = some d ↔ q ≠ p ∧ l.proxies q = some d := by
  by_cases hq : q = p
  · subst hq
    simp [ObjectLists.removeAt]
  · simp [ObjectLists.removeAt, hq]

theorem Mapped.removeProxy (h : Mapped [] s) {o : ObjectProxy} (ho : s.lists.proxies p = some o)
    (hrem : s.removeProxy p o = .ok s') : Mapped [] s' := by
  obtain ⟨-, rfl⟩ := removeProxy_ok hrem
  obtain ⟨own, segs, hinv⟩ := h.lists
  obtain ⟨n, hn, hnt⟩ := mem_map.mp (hinv.attached p o ho)
  obtain ⟨pre, post, hnds⟩ := append_of_mem hn
  obtain ⟨own', segs', hinv', -, -⟩ := hinv.removeAt hnds ho hnt.symm
  refine ⟨⟨own', segs', hinv'⟩, ?_, ?_, ?_, by simp⟩
  · intro i q
    simp only [removeAt_proxies]
    by_cases hi : i = o.id
    · subst hi
      refine iff_of_false (by simp) ?_
      rintro ⟨⟨o', ⟨hq, ho'⟩, hid⟩, -⟩
      exact hq (h.unique q p o' o ho' ho hid)
    · rw [erase_of_ne hi, h.map]
      refine and_congr_left fun _ => exists_congr fun o' => and_congr_left fun hid =>
        ⟨fun ho' => ⟨?_, ho'⟩, fun ho' => ho'.2⟩
      rintro rfl
      rw [ho, Option.some.injEq] at ho'
      exact hi (ho' ▸ hid.symm)
  · intro q o' ho'
    exact h.ids q o' (removeAt_proxies.mp ho').2
  · intro q r o₁ o₂ ho₁ ho₂
    exact h.unique q r o₁ o₂ (removeAt_proxies.mp ho₁).2 (removeAt_proxies.mp ho₂).2

theorem Mapped.remove (ps : List ProxyPtr) {s : ObjectStore} (h : Mapped [] s) :
    Mapped [] (s.remove ps).1 := by
  induction ps generalizing s with
  | nil => exact h
  | cons p ps ih =>
    rw [ObjectStore.remove, ObjectStore.removeSingle]
    cases ho : s.lists.proxies p with
    | none => exact h
    | some o =>
      simp only
      cases hrem : s.removeProxy p o with
      | error e => exact h
      | ok s' => exact ih (h.removeProxy ho hrem)

theorem Mapped.removePrototypeNode (h : Mapped [] s)
    {pre post : List PrototypeNode} (hnds : s.lists.tree.nodes = pre ++ n :: post) {fuel : Nat}
    (hfuel : (descendants n.depth post).length < fuel)
    (hcou : ∀ m ∈ n :: descendants n.depth post, m.count = 0) :
    Mapped [] { s with lists := s.lists.removePrototypeNode fuel n.type } := by
  obtain ⟨own, segs, hinv⟩ := h.lists
  obtain ⟨hlis, hpxs⟩ := removePrototypeNode_at hinv hnds hfuel
  refine h.of_proxies hlis fun p o => (hpxs p o).trans (and_iff_left_of_imp fun ho hnode => ?_)
  -- a node of the subtree has no objects
  obtain ⟨m, hm, hmo⟩ := mem_map.mp hnode
  have hmem : m ∈ s.lists.tree.nodes := by
    rw [hnds]
    rcases mem_cons.mp hm with rfl | hm
    · simp
    · exact mem_append_right _ (mem_cons_of_mem _ ((takeWhile_sublist _).subset hm))
  obtain ⟨pre₀, post₀, hnds'⟩ := append_of_mem hmem
  obtain ⟨G₁, S, G₂, pre₁, post₁, rfl, hS, -, -⟩ := hinv.layout.exists_split hnds'
  have hlen := hinv.layout.count_eq hS
  rw [hcou m hm] at hlen
  have hp := (hinv.stored p m.type).mpr ⟨o, ho, hmo.symm⟩
  rw [eq_nil_of_length_eq_zero hlen.symm] at hp
  exact absurd hp (by simp)

end Remove

/-! ## Runs -/

namespace ObjectStore

/-- `object_map_` finds `p` under `i` exactly when `p` has the id `i` and is linked in the list of
some node. -/
def MapAgrees (s : ObjectStore) : Prop :=
  ∀ i p, s.findProxy i = some p ↔ (∃ o, s.lists.proxies p = some o ∧ o.id = i) ∧ s.lists.Linked p

/-- The calls that keep the map and the lists together. -/
def Allowed (s : ObjectStore) : Op → Prop
  -- `op_last` of the parent is the end of its subtree
  | .attach _ _ _ parent =>
    ∀ name ∈ parent, ∀ n ∈ (s.lists.tree.findParent name).toOption,
      ∀ m ∈ (s.lists.tree.subtree n.type).getLast?, n.opLast = m.opMarker
  | .insert objects => objects.Resolves s.lists.tree ∧ objects.SeqFits s.seq
  | .remove _ => True
  -- a type without children and without objects
  | .clearType type =>
    ∃ n ∈ (s.lists.tree.findPrototypeNode type).toOption.join,
      ObjectLists.firstChild s.lists.tree n.type = none ∧
        ∀ m ∈ s.lists.tree.subtree n.type, m.count = 0
  | .clear _ => True
  -- no objects of the type or its subtypes
  | .detach type =>
    ∀ n ∈ (s.lists.tree.findPrototypeNode type).toOption.join,
      ∀ m ∈ s.lists.tree.subtree n.type, m.count = 0

instance (s : ObjectStore) : ∀ op, Decidable (s.Allowed op)
  | .attach _ _ _ parent => inferInstanceAs (Decidable (∀ name ∈ parent,
      ∀ n ∈ (s.lists.tree.findParent name).toOption,
        ∀ m ∈ (s.lists.tree.subtree n.type).getLast?, n.opLast = m.opMarker))
  | .insert objects =>
      inferInstanceAs (Decidable (objects.Resolves s.lists.tree ∧ objects.SeqFits s.seq))
  | .remove _ => .isTrue trivial
  | .clearType type => inferInstanceAs (Decidable (∃ n ∈
      (s.lists.tree.findPrototypeNode type).toOption.join,
      ObjectLists.firstChild s.lists.tree n.type = none ∧
          ∀ m ∈ s.lists.tree.subtree n.type, m.count = 0))
  | .clear _ => .isTrue trivial
  | .detach type => inferInstanceAs (Decidable (∀ n ∈
      (s.lists.tree.findPrototypeNode type).toOption.join, ∀ m ∈ s.lists.tree.subtree n.type,
      m.count = 0))

end ObjectStore

section Steps

variable {own : Own} {segs : List Segment} {s : ObjectStore}

theorem opMarker_last (h : ListsInv own segs s.lists) {m : PrototypeNode}
    {G₁ G₂ : List Segment} {S : Segment} {pre post : List PrototypeNode}
    (hsegs : segs = G₁ ++ S :: G₂) (hS : S.nodes = pre ++ n :: post)
    (hm : (s.lists.tree.subtree n.type).getLast? = some m) :
    m.opMarker = firstOf (ownOf own) (behind n.depth post) S.tail := by
  subst hsegs
  rw [subtree_eq h.layout.types_nodup (h.layout.nodes_split hS),
    (descendants_append h.layout.roots post).1] at hm
  obtain ⟨l, hl⟩ := getLast?_eq_some_iff.mp hm
  have hS' : S.nodes = (pre ++ l) ++ m :: behind n.depth post := by
    rw [hS]
    nth_rewrite 1 [← descendants_append_behind n.depth post]
    rw [← cons_append, hl]
    simp
  exact h.layout.opMarker_eq hS'

theorem toOption_join_eq {ε α : Type*} {e : Except ε (Option α)} {a : α} :
    a ∈ e.toOption.join ↔ e = .ok (some a) := by
  cases e with
  | error _ | ok _ => simp [Except.toOption]

theorem foldl_clearNode (types : List String) {own : Own} {segs : List Segment} {s : ObjectLists}
    (h : ListsInv own segs s) (htys : ∀ type ∈ types, type ∈ s.tree.nodes.map PrototypeNode.type) :
    (∃ own' segs', ListsInv own' segs' (types.foldl ObjectLists.clearNode s)) ∧
      ∀ p o, (types.foldl ObjectLists.clearNode s).proxies p = some o →
      s.proxies p = some o ∧ o.node ∉ types := by
  induction types generalizing own segs s with
  | nil => exact ⟨⟨own, segs, h⟩, fun p o ho => ⟨ho, by simp⟩⟩
  | cons type types ih =>
    obtain ⟨own₁, segs₁, hinv₁, -, hpxs₁⟩ := h.clearNode (htys type (by simp))
    have hnam : (s.clearNode type).tree.nodes.map PrototypeNode.type =
        s.tree.nodes.map PrototypeNode.type := by
      rw [types_of_sigs, clearNode_sigs, ← types_of_sigs]
    obtain ⟨hinv', hpxs'⟩ := ih hinv₁ fun k hk => hnam ▸ htys k (by simp [hk])
    refine ⟨hinv', fun p o ho => ?_⟩
    obtain ⟨ho₁, hnot⟩ := hpxs' p o ho
    obtain ⟨ho₀, hne⟩ := (hpxs₁ p o).mp ho₁
    exact ⟨ho₀, by simp [hne, hnot]⟩

theorem mapped_clear (h : Mapped [] s) (full : Bool) : Mapped [] (s.clear full) := by
  obtain ⟨own, segs, hinv⟩ := h.lists
  have hnone : (∃ own' segs', ListsInv own' segs' (s.clear full).lists) ∧
      ∀ p o, (s.clear full).lists.proxies p ≠ some o := by
    cases full with
    | false =>
      obtain ⟨hinv', hpxs⟩ := foldl_clearNode _ hinv fun _ ht => ht
      refine ⟨hinv', fun p o ho => ?_⟩
      obtain ⟨ho', hnot⟩ := hpxs p o ho
      exact hnot (hinv.attached p o ho')
    | true =>
      obtain ⟨own', segs', hinv', hnil⟩ := removeAllNodes_spec hinv (Nat.le_refl _)
      refine ⟨⟨own', segs', hinv'⟩, fun p o ho => ?_⟩
      have hatt := hinv'.attached p o ho
      rw [hnil] at hatt
      exact absurd hatt (by simp)
  obtain ⟨hlis, hno⟩ := hnone
  refine ⟨hlis, fun i p => iff_of_false ?_ ?_, fun p o ho => absurd ho (hno p o),
    fun p _ o _ ho => absurd ho (hno p o), by simp⟩
  · simp [ObjectStore.clear]
  · rintro ⟨⟨o, ho, -⟩, -⟩
    exact hno p o ho

/-- **Every allowed call keeps the map.** -/
theorem step_mapped (s : ObjectStore) (op : ObjectStore.Op) (h : Mapped [] s) (hop : s.Allowed op) :
    Mapped [] (s.step op) := by
  cases op with
  | attach type typeId hasPrimaryKey parent =>
    simp only [ObjectStore.step, ObjectStore.attach]
    cases hatt : s.lists.tree.attach type typeId hasPrimaryKey parent with
    | error e => exact h
    | ok t =>
      obtain ⟨own, segs, hinv⟩ := h.lists
      obtain ⟨segs', hinv', -⟩ := hinv.attach hatt (by
        intro name n hname hpar G₁ S G₂ pre post hsegs hS
        obtain ⟨m, hm⟩ : ∃ m, (s.lists.tree.subtree n.type).getLast? = some m := by
          subst hsegs
          rw [subtree_eq hinv.layout.types_nodup (hinv.layout.nodes_split hS)]
          exact ⟨_, getLast?_cons⟩
        rw [← opMarker_last hinv hsegs hS hm]
        exact hop name hname n (by rw [hpar]; rfl) m hm)
      exact h.of_proxies ⟨own, segs', hinv'⟩ fun p o => Iff.rfl
  | insert objects => exact (insert_spec objects h hop.1 hop.2).2.1
  | remove ps => exact h.remove ps
  | clearType type =>
    obtain ⟨n, hn, hchd, hcou⟩ := hop
    obtain ⟨own, segs, hinv⟩ := h.lists
    have hfind := toOption_join_eq.mp hn
    obtain ⟨pre, post, hnds⟩ := append_of_mem (findPrototypeNode_mem hfind)
    have hstep :
        s.step (.clearType type) = { s with lists := s.lists.removePrototypeNode 1 n.type } := by
      simp only [ObjectStore.step, ObjectStore.clearType, hfind, hchd]
      rfl
    rw [hstep]
    refine h.removePrototypeNode hnds ?_ (subtree_eq hinv.layout.types_nodup hnds ▸ hcou)
    rw [(firstChild_eq_none hinv.layout.types_nodup hnds).mp hchd]
    exact Nat.one_pos
  | clear full => exact mapped_clear h full
  | detach type =>
    simp only [ObjectStore.step, ObjectStore.detach]
    cases hfind : s.lists.tree.findPrototypeNode type with
    | error e => exact h
    | ok r =>
      cases r with
      | none => exact h
      | some n =>
        obtain ⟨own, segs, hinv⟩ := h.lists
        obtain ⟨pre, post, hnds⟩ := append_of_mem (findPrototypeNode_mem hfind)
        refine h.removePrototypeNode hnds ?_
          (subtree_eq hinv.layout.types_nodup hnds ▸ hop n (toOption_join_eq.mpr hfind))
        have hle : (descendants n.depth post).length ≤ post.length :=
          (takeWhile_sublist _).length_le
        rw [hnds, length_append, length_cons]
        omega

end Steps

namespace ObjectStore

theorem mapAgrees_of_mapped {s : ObjectStore} (h : Mapped [] s) : s.MapAgrees := by
  obtain ⟨own, segs, hinv⟩ := h.lists
  intro i p
  rw [findProxy, h.map, hinv.linked_iff]
  constructor
  · rintro ⟨⟨o, ho, hid⟩, -⟩
    exact ⟨⟨o, ho, hid⟩, o, ho⟩
  · rintro ⟨ho, -⟩
    exact ⟨ho, by simp⟩

/-- **In every run of allowed calls the map and the lists agree.** -/
theorem mapAgrees_of_run (ops : List Op) (h : RunMeets step Allowed empty ops) :
    (ops.foldl step empty).MapAgrees :=
  mapAgrees_of_mapped (RunMeets.invariant step_mapped mapped_empty h)

/-- A run with all kinds of calls: a cascading insertion, a removal, and nodes that are removed when
they are empty. -/
def lending : List Op :=
  [.attach "person" "P" true none, .attach "student" "S" true (some "person"),
    .attach "book" "B" true none,
    .insert (.cons ⟨"B", .long, .integral 64 0⟩
      (.cons ⟨"P", .long, .integral 64 7⟩ .nil .nil) .nil),
    .insert (.cons ⟨"P", .long, .integral 64 0⟩ .nil .nil), .remove [5], .clearType "student",
    .clear false, .detach "book", .clear true]

theorem mapAgrees_of_library :
    RunMeets step Allowed empty lending ∧ (lending.foldl step empty).MapAgrees :=
  ⟨by decide, mapAgrees_of_run _ (by decide)⟩

def detached : ObjectStore :=
  [Op.attach "person" "P" true none, .insert (.cons ⟨"P", .long, .integral 64 0⟩ .nil .nil),
    .detach "person"].foldl step empty

/-- `detach` deletes the objects of the type, but `find_proxy` still finds them. -/
theorem detach_leaves_map_entry : ¬detached.MapAgrees := by
  intro h
  have hfnd : detached.findProxy 1 = some 3 := by decide
  obtain ⟨⟨o, ho, -⟩, -⟩ := (h 1 3).mp hfnd
  have hdel : detached.lists.proxies 3 = none := by decide
  rw [hdel] at ho
  cases ho

end ObjectStore

end Matador.Object
