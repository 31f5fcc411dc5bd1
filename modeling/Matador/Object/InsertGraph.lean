import Matador.Object.HasOneCount
import Matador.Object.Inserter
import Matador.Object.Rollback

/-!
# The objects an insertion adds

`object_store::insert` of a new object adds the new objects that can be reached from it over new
objects: it comes to an end, whatever circles the references form, links each of them once, gives
each an id of its own and counts each of their fields once. The walk ends at stored objects, whose
fields have been visited when they got there; new objects assigned to these since then are not
inserted.
-/

namespace Matador.Object

open GraphStore HasOneStore Function List Lib PrototypeTree Relation Option

/-! ## Linking a proxy -/

/-- The lists are in order, with the sentinels `S`. -/
def ObjectStore.ListsWith (S : List ProxyPtr) (s : ObjectStore) : Prop :=
  ∃ own segs, ListsInv own segs s.lists ∧ sentinels segs = S

structure LinksAt (S pending : List ProxyPtr) (s s' : ObjectStore) (p : ProxyPtr) (o : NewObject)
    (n : PrototypeNode) (d : ObjectProxy) : Prop where
  mapped : Mapped (p :: pending) s'
  lists : s'.ListsWith S
  sigs : s'.lists.tree.nodes.map PrototypeNode.sig = s.lists.tree.nodes.map PrototypeNode.sig
  next : s'.lists.tree.nextProxy = s.lists.tree.nextProxy
  proxies : s'.lists.proxies = update s.lists.proxies p (some d)
  id : d.id = s.seq + 1
  node : d.node = n.type
  seq : s'.seq = o.seqAfter (s.seq + 1)
  objectMap : s'.objectMap = s.objectMap
  fresh : p ∉ pending

variable {p : ProxyPtr}

theorem linksAt_linkAt {S pending : List ProxyPtr} {s : ObjectStore} {o : NewObject}
    {n : PrototypeNode} (h : Mapped pending s) (hlis : s.ListsWith S)
    (hp : s.lists.proxies p = none) (hpS : p ∉ S) (hlt : 0 < p ∧ p < s.lists.tree.nextProxy)
    (hn : s.lists.tree.findPrototypeNode o.classname = .ok (some n)) (hseq : s.seq + 1 < 2 ^ 64) :
    LinksAt S pending s (s.linkAt p o n).1 p o n (s.linkAt p o n).2 := by
  obtain ⟨own, segs, hinv, hS⟩ := hlis
  have hle := o.le_seqAfter (s.seq + 1)
  obtain ⟨own', segs', hinv', hS'⟩ := hinv.insertAt_free (findPrototypeNode_mem hn) hp hS hpS hlt
    (o := ⟨s.seq + 1, o.classname, n.type, o.pk (s.seq + 1)⟩) rfl
  have hmap := h.insertAt ⟨own', segs', hinv'⟩ hp hle ((Nat.le_succ _).trans hle)
    fun q d hd he => by
      have hold : d.id ≤ s.seq := h.ids q d hd
      simp only at he
      omega
  unfold ObjectStore.linkAt
  rw [Sequencer.next_eq hseq]
  exact {
    mapped := hmap
    lists := ⟨own', segs', hinv', hS'⟩
    sigs := insertProxy_sigs ..
    next := PrototypeTree.insertProxy_nextProxy ..
    proxies := rfl
    id := rfl
    node := rfl
    seq := rfl
    objectMap := rfl
    fresh := fun hc => by
      obtain ⟨d, hd⟩ := h.stored p hc
      rw [hp] at hd
      cases hd }

theorem NewObject.seqAfter_le {o : NewObject} {id M : Nat} (hid : id ≤ M)
    (hkey : ∀ bits v, o.key = .integral bits v → (v % 2 ^ 64).toNat ≤ M) : o.seqAfter id ≤ M := by
  unfold NewObject.seqAfter
  split
  · cases hk : o.key with
    | null => exact hid
    | string text => exact hid
    | integral bits v =>
      simp only [Sequencer.sync, Sequencer.syncIntegral, Sequencer.update]
      split
      · split
        · exact hkey bits v hk
        · exact hid
      · exact hid
  · exact hid

variable {d : ObjectProxy}

theorem linkedOnce_of_mapped {s : ObjectStore} {pending : List ProxyPtr} (h : Mapped pending s)
    (hd : s.lists.proxies p = some d) {n : PrototypeNode} (hn : n ∈ s.lists.tree.nodes)
    (hnode : d.node = n.type) : GraphStore.LinkedOnce s p n := by
  obtain ⟨own, segs, hinv⟩ := h.lists
  refine ⟨⟨_, _, hinv.walk_eq hn, hinv.count_own hn hd hnode⟩, fun m hm hne fuel l hl hp => ?_⟩
  rw [hinv.eq_own hm hl] at hp
  obtain ⟨d', hd', hnode'⟩ := (hinv.stored p m.type).mp hp
  rw [hd, Option.some.injEq] at hd'
  exact hne (by rw [← hnode', ← hd', hnode])

namespace GraphStore

/-! ## Stores an object is inserted into -/

def news (s : GraphStore) : List ProxyPtr :=
  (range s.store.lists.tree.nextProxy).filter fun p => (s.object p).isSome ∧ ¬s.Stored p

/-- A store in order, the types of all objects attached, all fields with an insertion that cascades;
the fields of the stored objects have been visited and those of the new ones not. -/
structure Ready (S : List ProxyPtr) (s : GraphStore) : Prop where
  mapped : Mapped [] s.store
  lists : s.store.ListsWith S
  positive : ∀ p d, s.proxies p = some d → 0 < d.id
  objects : ∀ p o, s.object p = some o → p ∉ S ∧ 0 < p ∧ p < s.store.lists.tree.nextProxy
  attached : ∀ p o, s.object p = some o →
    ∃ n, s.store.lists.tree.findPrototypeNode o.classname = .ok (some n)
  targets : ∀ p, ∀ f ∈ s.fields p, ∀ q ∈ f.target, (s.object q).isSome
  inserts : ∀ p, ∀ f ∈ s.fields p, f.inserts = true
  inserted : ∀ p, s.Stored p → ∀ f ∈ s.fields p, f.isInserted = true
  pending : ∀ p, ¬s.Stored p → ∀ f ∈ s.fields p, f.isInserted = false
  /-- the transaction knows no id that is still to come -/
  log : ∀ log ∈ s.transaction, ∀ id, log.idActionIndexMap id ≠ none → id ≤ s.store.seq

/-- The sequencer does not pass 64 bits: `M` is not below its number and the keys of the new
objects. -/
structure Fits (s : GraphStore) (M : Nat) : Prop where
  seq : s.store.seq ≤ M
  keys : ∀ p o, s.object p = some o → ¬s.Stored p → ∀ bits v, o.key = .integral bits v →
    (v % 2 ^ 64).toNat ≤ M
  room : M + s.news.length < 2 ^ 64

/-- How many objects of `s` are not in the store yet. -/
def remaining (s : GraphStore) (t : GraphStore) : Nat := s.news.countP fun p => ¬t.Stored p

def leaving : List Call → List ProxyPtr
  | [] => []
  | .field _ _ :: calls => leaving calls
  | .leave p _ :: calls => p :: leaving calls

theorem leaving_append (calls calls' : List Call) :
    leaving (calls ++ calls') = leaving calls ++ leaving calls' := by
  induction calls with
  | nil => rfl
  | cons c calls ih =>
    cases c with
    | field p i => exact ih
    | leave p d => rw [cons_append, leaving, leaving, ih, cons_append]

theorem leaving_positions (s : GraphStore) (p : ProxyPtr) : leaving (s.positions p) = [] := by
  unfold positions
  induction range (s.fields p).length with
  | nil => rfl
  | cons i is ih => exact ih

theorem mem_leaving {calls : List Call} (h : .leave p d ∈ calls) : p ∈ leaving calls := by
  induction calls with
  | nil => cases h
  | cons c calls ih =>
    rcases mem_cons.mp h with rfl | hmem
    · exact mem_cons_self
    · cases c with
      | field q i => exact ih hmem
      | leave q e => exact mem_cons_of_mem q (ih hmem)

/-! ## The walk -/

structure Walk (S : List ProxyPtr) (M : Nat) (s : GraphStore) (o : ProxyPtr) (calls : List Call)
    (t : Inserting) : Prop where
  mapped : Mapped (leaving calls) t.graph.store
  lists : t.graph.store.ListsWith S
  sigs : t.graph.store.lists.tree.nodes.map PrototypeNode.sig =
    s.store.lists.tree.nodes.map PrototypeNode.sig
  next : t.graph.store.lists.tree.nextProxy = s.store.lists.tree.nextProxy
  object : t.graph.object = s.object
  kept : ∀ p d, s.proxies p = some d → t.graph.proxies p = some d
  new : ∀ p d, t.graph.proxies p = some d → s.Stored p ∨ s.ReachesNew o p ∧ s.store.seq < d.id ∧
    ∃ o n, s.object p = some o ∧ s.store.lists.tree.findPrototypeNode o.classname = .ok (some n) ∧
      d.node = n.type
  leaves : ∀ p d, .leave p d ∈ calls → t.graph.proxies p = some d ∧ ¬s.Stored p
  unique : (leaving calls).Nodup
  seq : s.store.seq ≤ t.graph.store.seq
  room : t.graph.store.seq + s.remaining t.graph ≤ M + s.news.length
  log : ∀ log ∈ t.graph.transaction, ∀ id, log.idActionIndexMap id ≠ none →
    id ≤ s.store.seq ∨ ∃ p, t.graph.store.objectMap id = some p
  seen : ∀ p ∈ t.seen, t.graph.Stored p
  /-- the objects that have been added, and the fields -/
  walk : ∃ added, (∀ p, p ∈ added ↔ t.graph.Stored p ∧ ¬s.Stored p) ∧
    FieldWalk s.fields t.graph.fields s.count t.graph.count added t.graph.Stored fun p i =>
      .field p i ∈ calls

variable {a : NewObject} {f : HasOne}

section Walk

variable {S : List ProxyPtr} {M : Nat} {s : GraphStore} {o p q : ProxyPtr}
  {calls calls' : List Call} {t : Inserting}

theorem stored_iff : s.Stored p ↔ ∃ d, s.proxies p = some d := isSome_iff_exists

theorem not_stored_iff : ¬s.Stored p ↔ s.proxies p = none := by
  rw [Stored, Bool.not_eq_true, isSome_eq_false_iff, isNone_iff_eq_none]

theorem mem_news : p ∈ s.news ↔ p < s.store.lists.tree.nextProxy ∧ (s.object p).isSome ∧
    ¬s.Stored p := by
  rw [news, mem_filter, mem_range, decide_eq_true_eq]

theorem nodup_news (s : GraphStore) : s.news.Nodup := nodup_range.filter _

theorem Ready.mem_news (hs : Ready S s) (ha : s.object p = some a) (hp : ¬s.Stored p) :
    p ∈ s.news :=
  GraphStore.mem_news.mpr ⟨(hs.objects p a ha).2.2, by rw [ha]; rfl, hp⟩

theorem Walk.id_pos (h : Walk S M s o calls t) (hs : Ready S s) :
    0 < t.graph.id p ↔ t.graph.Stored p := by
  rw [stored_iff]
  cases hp : t.graph.proxies p with
  | none => simp [id, hp]
  | some d =>
    have hpos : 0 < d.id := by
      obtain hold | ⟨-, hnew, -⟩ := h.new p d hp
      · obtain ⟨d', hd'⟩ := stored_iff.mp hold
        obtain rfl : d' = d := some.inj ((h.kept p d' hd').symm.trans hp)
        exact hs.positive p d' hd'
      · omega
    simp [id, hp, hpos]

theorem Walk.mono (h : Walk S M s o calls t) (hlea : leaving calls' = leaving calls)
    (hcal : ∀ p i, .field p i ∈ calls → .field p i ∈ calls')
    (hown : ∀ p i, .field p i ∈ calls' → t.graph.Stored p)
    (hleav : ∀ p d, .leave p d ∈ calls' → .leave p d ∈ calls) : Walk S M s o calls' t :=
  { h with
    mapped := hlea ▸ h.mapped
    unique := hlea ▸ h.unique
    leaves := fun p d hd => h.leaves p d (hleav p d hd)
    walk := h.walk.imp fun _ hw => ⟨hw.1, hw.2.retarget (fun p i hp => .inl (hcal p i hp)) hown⟩ }

variable {i : Nat}

theorem Walk.lengths (h : Walk S M s o calls t) (p : ProxyPtr) :
    (t.graph.fields p).length = (s.fields p).length := by
  obtain ⟨_, -, hw⟩ := h.walk
  exact hw.lengths p

theorem Walk.owners (h : Walk S M s o calls t) (hp : .field p i ∈ calls) : t.graph.Stored p := by
  obtain ⟨_, -, hw⟩ := h.walk
  exact hw.owners p i hp

theorem mem_cons_field {j : Nat} : .field q j ∈ .field p i :: calls ↔
    .field q j ∈ calls ∨ q = p ∧ j = i := by
  rw [mem_cons, or_comm, Call.field.injEq]

theorem Walk.skip (h : Walk S M s o (.field p i :: calls) t)
    (hp : ∀ f, (t.graph.fields p)[i]? = some f → f.isInserted) : Walk S M s o calls t :=
  { h with
    leaves := fun q d hd => h.leaves q d (mem_cons_of_mem _ hd)
    walk := h.walk.imp fun _ hw => ⟨hw.1, hw.2.skip (fun _ _ => mem_cons_field) hp⟩ }

theorem Walk.see (h : Walk S M s o calls t) (hq : t.graph.Stored q) :
    Walk S M s o calls { t with seen := q :: t.seen } :=
  { h with
    seen := fun r hr => by
      rcases mem_cons.mp hr with rfl | hr
      · exact hq
      · exact h.seen r hr }

theorem Walk.visit (h : Walk S M s o (.field p i :: calls) t) (hs : Ready S s)
    (hf : (t.graph.fields p)[i]? = some f) (hnot : f.isInserted = false)
    {fields : ProxyPtr → List HasOne} {count : ProxyPtr → Int} (hvis : ∀ added, p ∈ added →
      FieldWalk s.fields t.graph.fields s.count t.graph.count added t.graph.Stored
      (fun q j => .field q j ∈ .field p i :: calls) →
      FieldWalk s.fields fields s.count count added t.graph.Stored fun q j => .field q j ∈ calls) :
    Walk S M s o calls { t with graph := { t.graph with fields := fields, count := count } } := by
  obtain ⟨added, hadd, hw⟩ := h.walk
  obtain ⟨g, hg, -, hvisi⟩ := hw.same p i f hf
  have hp : p ∈ added := by
    refine (hadd p).mpr ⟨h.owners mem_cons_self, fun hold => ?_⟩
    rw [hvisi (hs.inserted p hold g (mem_of_getElem? hg))] at hnot
    cases hnot
  exact { h with
    leaves := fun q d hd => h.leaves q d (mem_cons_of_mem _ hd)
    walk := ⟨added, hadd, hvis added hp hw⟩ }

theorem remaining_link {u u' : GraphStore} (hq : q ∈ s.news) (hnot : ¬u.Stored q)
    (hstd : ∀ p, u'.Stored p ↔ u.Stored p ∨ p = q) : s.remaining u' + 1 = s.remaining u := by
  obtain ⟨pre, post, hspl⟩ := append_of_mem hq
  have hnd := s.nodup_news
  rw [hspl] at hnd
  have hnoti : q ∉ pre ++ post := (nodup_cons.mp (perm_middle.nodup_iff.mp hnd)).1
  have hsame {l : List ProxyPtr} (hl : ∀ p ∈ l, p ∈ pre ++ post) :
      l.countP (fun p => ¬u'.Stored p) = l.countP fun p => ¬u.Stored p := by
    refine countP_congr fun p hp => ?_
    have hne : p ≠ q := by
      rintro rfl
      exact hnoti (hl p hp)
    simp [hstd, hne]
  have hself : u'.Stored q := (hstd q).mpr (.inr rfl)
  rw [remaining, remaining, hspl, countP_append, countP_cons,
    hsame fun p hp => mem_append_left _ hp, hsame fun p hp => mem_append_right _ hp]
  simp [hself, hnot]
  omega

theorem remaining_le (s u : GraphStore) : s.remaining u ≤ s.news.length := countP_le_length

theorem Walk.remaining_pos (h : Walk S M s o calls t) (hs : Ready S s) (ha : s.object q = some a)
    (hq : ¬t.graph.Stored q) : 0 < s.remaining t.graph := by
  have hmem : q ∈ s.news := hs.mem_news ha fun hc => by
    obtain ⟨d, hd⟩ := stored_iff.mp hc
    exact hq (stored_iff.mpr ⟨d, h.kept q d hd⟩)
  exact countP_pos_iff.mpr ⟨q, hmem, by simpa using hq⟩

theorem Walk.seq_lt (h : Walk S M s o calls t) (hs : Ready S s) (hM : Fits s M)
    (ha : s.object q = some a) (hq : ¬t.graph.Stored q) : t.graph.store.seq + 1 < 2 ^ 64 := by
  have hrem := h.remaining_pos hs ha hq
  have hroom := h.room
  have hfits := hM.room
  omega

theorem Walk.link (h : Walk S M s o calls t) (hs : Ready S s) (hM : Fits s M)
    (ha : s.object q = some a) (hq : ¬t.graph.Stored q) (hnew : s.ReachesNew o q) :
    ∃ n, t.graph.store.lists.tree.findPrototypeNode a.classname = .ok (some n) ∧
      Walk S M s o (t.graph.positions q ++ .leave q (t.graph.store.linkAt q a n).2 :: calls)
        { t with graph := { t.graph with store := (t.graph.store.linkAt q a n).1 } } := by
  obtain ⟨n₀, hn₀⟩ := hs.attached q a ha
  obtain ⟨n, hn, hsig⟩ := findPrototypeNode_congr h.sigs hn₀
  have hold : ¬s.Stored q := fun hc => by
    obtain ⟨d, hd⟩ := stored_iff.mp hc
    exact hq (stored_iff.mpr ⟨d, h.kept q d hd⟩)
  have hnone := not_stored_iff.mp hq
  obtain ⟨hqS, hpos, hlt⟩ := hs.objects q a ha
  have hmem : q ∈ s.news := hs.mem_news ha hold
  have hrem := h.remaining_pos hs ha hq
  have hroom := h.room
  have hseq := h.seq_lt hs hM ha hq
  have hlink := linksAt_linkAt h.mapped h.lists hnone hqS ⟨hpos, h.next ▸ hlt⟩ hn hseq
  refine ⟨n, hn, ?_⟩
  generalize hsto : (t.graph.store.linkAt q a n).1 = store at hlink ⊢
  generalize hdata : (t.graph.store.linkAt q a n).2 = d at hlink ⊢
  have hpxs (p : ProxyPtr) : store.lists.proxies p = if p = q then some d
      else t.graph.proxies p := by
    rw [hlink.proxies, update_apply]
  have hstd (p : ProxyPtr) : ({ t.graph with store := store } : GraphStore).Stored p ↔
      t.graph.Stored p ∨ p = q := by
    show (store.lists.proxies p).isSome ↔ _
    rw [hpxs]
    by_cases hpq : p = q
    · simp [hpq]
    · simp [hpq, Stored]
  have hlea : leaving (t.graph.positions q ++ .leave q d :: calls) = q :: leaving calls := by
    rw [leaving_append, leaving_positions]
    rfl
  have hfsh := remaining_link hmem hq hstd
  have hnode : d.node = n₀.type := by
    rw [hlink.node]
    exact congrArg Prod.fst hsig
  have hle := a.le_seqAfter (t.graph.store.seq + 1)
  have hmono := h.seq
  exact {
    mapped := hlea ▸ hlink.mapped
    lists := hlink.lists
    sigs := hlink.sigs.trans h.sigs
    next := hlink.next.trans h.next
    object := h.object
    kept := fun p e he => by
      have hpq : p ≠ q := by
        rintro rfl
        exact hold (stored_iff.mpr ⟨e, he⟩)
      show store.lists.proxies p = some e
      rw [hpxs, if_neg hpq]
      exact h.kept p e he
    new := fun p e he => by
      have he' : store.lists.proxies p = some e := he
      rw [hpxs] at he'
      split at he'
      · next hpq =>
        subst hpq
        cases he'
        refine .inr ⟨hnew, ?_, a, n₀, ha, hn₀, hnode⟩
        rw [hlink.id]
        omega
      · exact h.new p e he'
    leaves := fun p e he => by
      rcases mem_append.mp he with he | he
      · obtain ⟨i, -, hi⟩ := mem_map.mp he
        cases hi
      · show store.lists.proxies p = some e ∧ _
        rw [hpxs]
        rcases mem_cons.mp he with he | hlat
        · cases he
          exact ⟨if_pos rfl, hold⟩
        · obtain ⟨hp, hpnew⟩ := h.leaves p e hlat
          have hpq : p ≠ q := by
            rintro rfl
            exact hlink.fresh (mem_leaving hlat)
          exact ⟨(if_neg hpq).trans hp, hpnew⟩
    unique := hlea ▸ nodup_cons.mpr ⟨hlink.fresh, h.unique⟩
    seq := by
      rw [hlink.seq]
      omega
    room := by
      show store.seq + s.remaining { t.graph with store := store } ≤ _
      have hall := remaining_le s t.graph
      have hbou : a.seqAfter (t.graph.store.seq + 1) ≤
        M + s.news.length - s.remaining { t.graph with store := store } := by
        refine NewObject.seqAfter_le (by omega) fun bits v hv => ?_
        have hkey := hM.keys q a ha hold bits v hv
        omega
      rw [hlink.seq]
      omega
    log := fun log hlog id hid => by
      rcases h.log log hlog id hid with hid | ⟨p, hp⟩
      · exact .inl hid
      · exact .inr ⟨p, by rw [hlink.objectMap, hp]⟩
    seen := fun p hp => (hstd p).mpr (.inl (h.seen p hp))
    walk := by
      obtain ⟨added, hadd, hw⟩ := h.walk
      refine ⟨added ++ [q], fun p => ?_,
        hw.link hq (fun hmem => hq ((hadd q).mp hmem).1) hstd fun p j => ?_⟩
      · rw [mem_append, hadd, hstd, mem_singleton, or_and_right]
        exact or_congr_right ⟨fun hpq => ⟨hpq, hpq ▸ hold⟩, And.left⟩
      · simp [positions, or_comm, eq_comm, and_comm] }

theorem Walk.leave (h : Walk S M s o (.leave p d :: calls) t) :
    ∃ t', leave t p d = .ok (t', []) ∧ Walk S M s o calls t' ∧ t'.seen = t.seen ∧
      t'.graph.proxies = t.graph.proxies := by
  obtain ⟨hp, hpnew⟩ := h.leaves p d mem_cons_self
  obtain ⟨hnot, huni⟩ := nodup_cons.mp (show (p :: leaving calls).Nodup from h.unique)
  have hmapp : Mapped (leaving calls) (t.graph.store.mapProxy p d) :=
    Mapped.mapProxy (show Mapped (p :: leaving calls) _ from h.mapped) hnot hp
  have hid : t.graph.store.objectMap d.id = none := by
    cases hmap : t.graph.store.objectMap d.id with
    | none => rfl
    | some q =>
      obtain ⟨⟨d', hd', hid'⟩, hq⟩ := (h.mapped.map d.id q).mp hmap
      obtain rfl := h.mapped.unique q p d' d hd' hp hid'
      exact absurd mem_cons_self hq
  have hmap : (t.graph.store.mapProxy p d).objectMap =
      update t.graph.store.objectMap d.id (some p) :=
    insertNew_of_none hid p
  have hwalk (transaction : Option Transaction)
    (hlog : ∀ log ∈ transaction, ∀ id, log.idActionIndexMap id ≠ none →
        id ≤ s.store.seq ∨ ∃ q, (t.graph.store.mapProxy p d).objectMap id = some q) :
      Walk S M s o calls
        { t with
          graph := { t.graph with
            store := t.graph.store.mapProxy p d, transaction := transaction } } :=
    { h with
      mapped := hmapp
      unique := huni
      leaves := fun q e he => h.leaves q e (mem_cons_of_mem _ he)
      log := hlog
      walk := h.walk.imp fun _ hw => ⟨hw.1, hw.2.retarget (fun q i hq => .inl (by simpa using hq))
        fun q i hq => hw.2.owners q i (mem_cons_of_mem _ hq)⟩ }
  have hkeep {id : Nat} (hsome : ∃ q, t.graph.store.objectMap id = some q) :
      ∃ q, (t.graph.store.mapProxy p d).objectMap id = some q := by
    rw [hmap]
    by_cases heq : id = d.id
    · exact ⟨p, by rw [heq, update_self]⟩
    · rwa [update_of_ne heq]
  unfold GraphStore.leave
  split
  · next hnone =>
    refine ⟨_, rfl, ?_, rfl, rfl⟩
    have hnol := hwalk none fun log hlog => by cases hlog
    rwa [← hnone] at hnol
  · next log hlog =>
    -- the id is new, so the transaction has no action for it
    have hfree : log.idActionIndexMap d.id = none := by
      by_contra hne
      rcases h.log log hlog d.id hne with hle | ⟨q, hq⟩
      · obtain hold | ⟨-, hlt, -⟩ := h.new p d hp
        · exact hpnew hold
        · omega
      · rw [hid] at hq
        cases hq
    rw [Transaction.onInsert, hfree]
    refine ⟨_, rfl, hwalk _ fun log' hlog' id hne => ?_, rfl, rfl⟩
    cases hlog'
    by_cases heq : id = d.id
    · exact .inr ⟨p, by rw [hmap, heq, update_self]⟩
    · have hold :
        insertNew log.idActionIndexMap d.id (Transaction.addInsert ⟨p, d⟩ log.actions).2 id =
          log.idActionIndexMap id := by
        rw [insertNew_of_none hfree, update_of_ne heq]
      have hne' : log.idActionIndexMap id ≠ none := fun hc => hne (hold.trans hc)
      exact (h.log log hlog id hne').imp_right hkeep

/-! ## The calls -/

def unseen (s : GraphStore) (t : Inserting) : Nat :=
  Worklist.unvisited (fun p => (s.fields p).length + 1) (fun p => decide (p ∈ t.seen))
    (range s.store.lists.tree.nextProxy)

theorem unseen_see (hq : q < s.store.lists.tree.nextProxy) (hnot : q ∉ t.seen) (g : GraphStore) :
    (s.fields q).length + 1 + s.unseen ⟨g, q :: t.seen⟩ ≤ s.unseen t :=
  Worklist.unvisited_visit (fun p => (s.fields p).length + 1) (mem_range.mpr hq)
    (decide_eq_false hnot)
    (decide_eq_true mem_cons_self) fun _ hu =>
      decide_eq_true (mem_cons_of_mem _ (of_decide_eq_true hu))

/-- The field `f` of `p` has been visited, and the reference to `q` counted. -/
def visited (g : GraphStore) (p : ProxyPtr) (i : Nat) (f : HasOne) (q : ProxyPtr) : GraphStore :=
  (g.setField p i { f with isInserted := true }).addCount q 1

theorem insertObject_eq (hf : (t.graph.fields p)[i]? = some f) (hnot : f.isInserted = false)
    (hq : f.target = some q) (hobject : (t.graph.object q).isSome) (hins : f.inserts) :
    insertObject t p i = if q ∈ t.seen then .ok ({ t with graph := t.graph.visited p i f q }, [])
      else if 0 < t.graph.id q then
        .ok (⟨t.graph.visited p i f q, q :: t.seen⟩, (t.graph.visited p i f q).positions q)
      else insertProxy ⟨t.graph.visited p i f q, q :: t.seen⟩ q := by
  have hsome : ¬((t.graph.setField p i { f with isInserted := true }).object q).isNone := by
    show ¬(t.graph.object q).isNone
    rw [isNone_iff_eq_none]
    rintro hnone
    rw [hnone] at hobject
    cases hobject
  rw [insertObject, hf]
  dsimp only
  rw [if_neg (by rw [hnot]; decide)]
  split
  · next hnone =>
    rw [hq] at hnone
    cases hnone
  · next q' hq' =>
    obtain rfl : q' = q := some.inj (hq'.symm.trans hq)
    rw [if_neg hsome, if_pos hins]
    rfl

theorem Walk.visited (h : Walk S M s o (.field p i :: calls) t) (hs : Ready S s)
    (hf : (t.graph.fields p)[i]? = some f) (hnot : f.isInserted = false) (hq : f.target = some q)
    (hstd : t.graph.Stored q) : Walk S M s o calls { t with graph := t.graph.visited p i f q } :=
  h.visit hs hf hnot fun _ hp hw => hw.visited hp (fun _ _ => mem_cons_field) hf hnot hq hstd

theorem positions_congr {g g' : GraphStore} (h : (g.fields p).length = (g'.fields p).length) :
    g.positions p = g'.positions p := by
  rw [positions, positions, h]

theorem length_visited {g : GraphStore} (r : ProxyPtr) :
    ((g.visited p i f q).fields r).length = (g.fields r).length :=
  length_setField ..

theorem length_positions (g : GraphStore) (p : ProxyPtr) :
    (g.positions p).length = (g.fields p).length := by
  rw [positions, length_map, length_range]

theorem Walk.target_new (h : Walk S M s o (.field p i :: calls) t) (hs : Ready S s)
    (hf : (t.graph.fields p)[i]? = some f) (hnot : f.isInserted = false) (hq : f.target = some q) :
    (s.object q).isSome ∧ f.inserts ∧ (¬t.graph.Stored q → s.ReachesNew o q) := by
  obtain ⟨_, -, hw⟩ := h.walk
  obtain ⟨g, hg, hfg, hvis⟩ := hw.same p i f hf
  have hgmem := mem_of_getElem? hg
  have hgta : g.target = some q := by rw [← hq, hfg]
  refine ⟨hs.targets p g hgmem q hgta, ?_, fun hqnot => ?_⟩
  · rw [hfg]
    exact hs.inserts p g hgmem
  · obtain ⟨d, hd⟩ := stored_iff.mp (h.owners mem_cons_self)
    obtain hold | ⟨hrea, -⟩ := h.new p d hd
    · rw [hvis (hs.inserted p hold g hgmem)] at hnot
      cases hnot
    · refine hrea.tail ⟨fun hc => hqnot ?_, g, hgmem, hgta⟩
      obtain ⟨e, he⟩ := stored_iff.mp hc
      exact stored_iff.mpr ⟨e, h.kept q e he⟩

/-- **Every call keeps the state of the insertion.** -/
theorem Walk.step {c : Call} (h : Walk S M s o (c :: calls) t) (hs : Ready S s) (hM : Fits s M) :
    ∃ t' calls', call t c = .ok (t', calls') ∧ Walk S M s o (calls' ++ calls) t' ∧
      (∀ r, t.graph.Stored r → t'.graph.Stored r) ∧ calls'.length + s.unseen t' ≤ s.unseen t := by
  cases c with
  | leave p d =>
    obtain ⟨t', hlea, hwalk, hseen, hpxs⟩ := h.leave
    refine ⟨t', [], hlea, hwalk, fun r hr => by rwa [Stored, hpxs], ?_⟩
    rw [unseen, unseen, hseen, length_nil, Nat.zero_add]
  | field p i =>
    show ∃ t' calls', insertObject t p i = .ok (t', calls') ∧ _
    cases hf : (t.graph.fields p)[i]? with
    | none =>
      refine ⟨t, [], by rw [insertObject,
        hf], h.skip fun f hf' => ?_, fun _ hr => hr, Nat.le_of_eq (Nat.zero_add _)⟩
      rw [hf] at hf'
      cases hf'
    | some f =>
      cases hins : f.isInserted with
      | true =>
        refine ⟨t, [], ?_, h.skip fun f' hf' => ?_, fun _ hr => hr, Nat.le_of_eq (Nat.zero_add _)⟩
        · rw [insertObject, hf]
          simp only [hins, if_true]
        · rw [hf] at hf'
          rw [← some.inj hf', hins]
      | false =>
        cases htgt : f.target with
        | none =>
          refine ⟨{ t with graph := t.graph.setField p i { f with isInserted := true } }, [], ?_,
            h.visit hs hf hins fun _ hp hw =>
            hw.visited_none hp (fun _ _ => mem_cons_field) hf hins htgt,
            fun _ hr => hr, Nat.le_of_eq (Nat.zero_add _)⟩
          rw [insertObject, hf]
          simp only [hins, htgt, Bool.false_eq_true, if_false]
        | some q =>
          obtain ⟨hobject, hinse, hrea⟩ := h.target_new hs hf hins htgt
          obtain ⟨a, ha⟩ := isSome_iff_exists.mp hobject
          rw [insertObject_eq hf hins htgt (by rw [h.object]; exact hobject) hinse]
          by_cases hseen : q ∈ t.seen
          · rw [if_pos hseen]
            exact ⟨_, [], rfl, h.visited hs hf hins htgt (h.seen q hseen), fun _ hr => hr,
              Nat.le_of_eq (Nat.zero_add _)⟩
          · have hpaid := unseen_see (hs.objects q a ha).2.2 hseen
            rw [if_neg hseen]
            by_cases hstd : t.graph.Stored q
            · -- its fields are visited again
              rw [if_pos ((h.id_pos hs).mpr hstd)]
              have hvis := (h.visited hs hf hins htgt hstd).see hstd
              refine ⟨_, _, rfl,
                hvis.mono ?_ (fun r j hr => mem_append_right _ hr) (fun r j hr => ?_)
                (fun r d hr => ?_), fun _ hr => hr, ?_⟩
              · rw [leaving_append, leaving_positions, nil_append]
              · rcases mem_append.mp hr with hr | hr
                · obtain ⟨k, -, hk⟩ := mem_map.mp hr
                  cases hk
                  exact hstd
                · exact hvis.owners hr
              · rcases mem_append.mp hr with hr | hr
                · obtain ⟨k, -, hk⟩ := mem_map.mp hr
                  cases hk
                · exact hr
              · rw [length_positions, length_visited, h.lengths]
                have := hpaid (t.graph.visited p i f q)
                omega
            · -- the new object is linked first: the order does not matter for the result
              rw [if_neg fun hc => hstd ((h.id_pos hs).mp hc)]
              obtain ⟨n, hn, hlink⟩ := h.link hs hM ha hstd (hrea hstd)
              have hpos : (t.graph.visited p i f q).positions q = t.graph.positions q :=
                positions_congr (length_visited q)
              have hvisi : insertProxy ⟨t.graph.visited p i f q, q :: t.seen⟩ q =
                  .ok (⟨{ t.graph.visited p i f q with store := (t.graph.store.linkAt q a n).1 },
                    q :: t.seen⟩,
                    t.graph.positions q ++ [.leave q (t.graph.store.linkAt q a n).2]) := by
                have hid : ¬0 < (t.graph.visited p i f q).id q :=
                  fun hc => hstd ((h.id_pos hs).mp hc)
                have hobj : (t.graph.visited p i f q).object q = some a := by
                  show t.graph.object q = some a
                  rw [h.object, ha]
                have hfind : (t.graph.visited p i f q).store.lists.tree.findPrototypeNode
                    a.classname = .ok (some n) := hn
                rw [insertProxy]
                simp only [hobj, hfind, if_neg hid, hpos]
                rfl
              have hlink' : Walk S M s o
                  (.field p i ::
                    (t.graph.positions q ++ .leave q (t.graph.store.linkAt q a n).2 :: calls))
                  { t with graph := { t.graph with store := (t.graph.store.linkAt q a n).1 } } := by
                refine hlink.mono ?_ (fun r j hr => ?_) (fun r j hr => ?_) (fun r d hr => ?_)
                · rw [leaving_append, leaving, leaving_append]
                  rfl
                · simp only [mem_append, mem_cons] at hr ⊢
                  tauto
                · refine hlink.owners (i := j) ?_
                  simp only [mem_append, mem_cons] at hr ⊢
                  tauto
                · simp only [mem_append, mem_cons] at hr ⊢
                  tauto
              have hqs :
                  ({ t.graph with store := (t.graph.store.linkAt q a n).1 } : GraphStore).Stored
                    q := by
                show (update t.graph.proxies q _ q).isSome
                rw [update_self]
                rfl
              have hvis := (hlink'.visited hs hf hins htgt hqs).see hqs
              refine ⟨_, _, hvisi, ?_, fun r hr => ?_, ?_⟩
              · rw [append_assoc]
                exact hvis
              · show (update t.graph.proxies q _ r).isSome
                rw [update_apply]
                split
                · rfl
                · exact hr
              · rw [length_append, length_positions, h.lengths]
                exact hpaid _

theorem Walk.empty (hs : Ready S s) (hM : Fits s M) : Walk S M s o [] ⟨s, []⟩ where
  mapped := hs.mapped
  lists := hs.lists
  sigs := rfl
  next := rfl
  object := rfl
  kept _ _ h := h
  new p d hd := .inl (stored_iff.mpr ⟨d, hd⟩)
  leaves _ _ h := by cases h
  unique := nodup_nil
  seq := Nat.le_refl _
  room := Nat.add_le_add hM.seq (remaining_le s s)
  log log hlog id hid := .inl (hs.log log hlog id hid)
  seen _ h := by cases h
  walk := ⟨[], fun p => by simp, {
    nodup := nodup_nil
    lengths := fun _ => rfl
    same := fun p i f hf => ⟨f, hf, rfl, fun h => h⟩
    pending := hs.pending
    ahead := fun p hp i f hf hnot => by
      rw [hs.inserted p hp f (mem_of_getElem? hf)] at hnot
      cases hnot
    owners := fun _ _ h => by cases h
    closed := fun _ h => by cases h
    counts := fun q => (add_zero _).symm }⟩

theorem Walk.start (hs : Ready S s) (hM : Fits s M) (ha : s.object o = some a) (ho : ¬s.Stored o) :
    ∃ n, s.store.lists.tree.findPrototypeNode a.classname = .ok (some n) ∧
      Walk S M s o (s.positions o ++ [.leave o (s.store.linkAt o a n).2])
        ⟨{ s with store := (s.store.linkAt o a n).1 }, []⟩ :=
  (Walk.empty hs hM).link hs hM ha ho .refl

theorem Walk.adds (h : Walk S M s o [] t) (hs : Ready S s) (ho : t.graph.Stored o)
    (hnew : ¬s.Stored o) : s.Adds t.graph (s.ReachesNew o) := by
  obtain ⟨added, hadd, hw⟩ := h.walk
  have hind {p : ProxyPtr} (hp : t.graph.Stored p) : ∀ f ∈ t.graph.fields p, f.isInserted :=
    hw.inserted (fun _ _ => not_mem_nil) hp
  have hrea {p : ProxyPtr} (hp : s.ReachesNew o p) : t.graph.Stored p ∧ ¬s.Stored p := by
    induction hp with
    | refl => exact ⟨ho, hnew⟩
    | @tail p q _ hstep ih =>
      obtain ⟨hq, g, hg, htgt⟩ := hstep
      obtain ⟨i, hi⟩ := getElem?_of_mem hg
      -- the field is that of the walk
      obtain ⟨f, hf⟩ : ∃ f, (t.graph.fields p)[i]? = some f := by
        obtain ⟨hlt, -⟩ := List.getElem?_eq_some_iff.mp hi
        exact ⟨_, getElem?_eq_getElem (by rw [h.lengths]; exact hlt)⟩
      obtain ⟨g', hg', hfg, -⟩ := hw.same p i f hf
      obtain rfl : g' = g := some.inj (hg'.symm.trans hi)
      have hmem := mem_of_getElem? hf
      refine ⟨hw.closed p ((hadd p).mpr ih) f hmem (hind ih.1 f hmem) q ?_, hq⟩
      rw [hfg, mem_def, htgt]
  have hstd (p : ProxyPtr) : t.graph.Stored p ↔ s.Stored p ∨ s.ReachesNew o p := by
    constructor
    · intro hp
      obtain ⟨d, hd⟩ := stored_iff.mp hp
      exact (h.new p d hd).imp_right And.left
    · rintro (hp | hp)
      · obtain ⟨d, hd⟩ := stored_iff.mp hp
        exact stored_iff.mpr ⟨d, h.kept p d hd⟩
      · exact (hrea hp).1
  have hdata {p : ProxyPtr} (hp : s.ReachesNew o p) :
    ∃ d, t.graph.proxies p = some d ∧ s.store.seq < d.id ∧
      ∃ o n, s.object p = some o ∧ s.store.lists.tree.findPrototypeNode o.classname = .ok (some n) ∧
        d.node = n.type := by
    obtain ⟨d, hd⟩ := stored_iff.mp (hrea hp).1
    obtain hold | ⟨-, hid, hnode⟩ := h.new p d hd
    · exact absurd hold (hrea hp).2
    · exact ⟨d, hd, hid, hnode⟩
  exact {
    kept := h.kept
    stored := hstd
    linked := fun p hp => by
      obtain ⟨d, hd, -, a, n, ha, hn, hnode⟩ := hdata hp
      obtain ⟨n', hn', hsig⟩ := findPrototypeNode_congr h.sigs hn
      refine ⟨a, n', ha, hn', linkedOnce_of_mapped h.mapped hd (findPrototypeNode_mem hn') ?_⟩
      exact hnode.trans (congrArg Prod.fst hsig).symm
    ids := fun p hp => by
      obtain ⟨d, hd, hid, -⟩ := hdata hp
      refine ⟨d, hd, ?_, (h.mapped.map d.id p).mpr ⟨⟨d, hd, rfl⟩, not_mem_nil⟩, fun q d' hd' heq =>
        h.mapped.unique q p d' d hd' hd heq⟩
      cases hfind : s.store.findProxy d.id with
      | none => rfl
      | some q =>
        obtain ⟨⟨d', hd', hid'⟩, -⟩ := (hs.mapped.map d.id q).mp hfind
        have hle := hs.mapped.ids q d' hd'
        omega
    counts := by
      refine ⟨added, hw.nodup, fun p =>
        (hadd p).trans ⟨fun hp => ((hstd p).mp hp.1).resolve_left hp.2, hrea⟩,
          fun q => ?_⟩
      rw [hw.counts, tally]
      congr 3
      refine map_congr_left fun p hp => ?_
      have htar : (t.graph.fields p).map HasOne.target = (s.fields p).map HasOne.target := by
        refine ext_getElem? fun i => ?_
        rw [getElem?_map, getElem?_map]
        cases hf : (t.graph.fields p)[i]? with
        | none =>
          have hlen := getElem?_eq_none_iff.mp hf
          rw [h.lengths] at hlen
          rw [getElem?_eq_none_iff.mpr hlen]
        | some f =>
          obtain ⟨g, hg, hfg, -⟩ := hw.same p i f hf
          rw [hg, map_some, map_some, hfg]
      have href (l : List HasOne) : l.countP (refersTo q) =
          (l.map HasOne.target).countP fun target => decide (target = some q) := by
        rw [countP_map]
        rfl
      rw [href (s.fields p), ← htar, ← href]
      refine countP_congr fun f hf => ?_
      rw [countedFor, hind ((hadd p).mp hp).1 f hf, Bool.true_and] }

end Walk

/-! ## Inserting an object -/

variable {s : GraphStore}

theorem insertProxy_new {o : ProxyPtr} {n : PrototypeNode} (ha : s.object o = some a)
    (ho : ¬s.Stored o) (hn : s.store.lists.tree.findPrototypeNode a.classname = .ok (some n)) :
    insertProxy ⟨s, []⟩ o = .ok (⟨{ s with store := (s.store.linkAt o a n).1 }, []⟩,
      s.positions o ++ [.leave o (s.store.linkAt o a n).2]) := by
  have hid : ¬0 < s.id o := by
    rw [id, not_stored_iff.mp ho]
    exact Nat.lt_irrefl 0
  rw [insertProxy]
  simp only [ha, hn, if_neg hid]

theorem visit_of_call {t t' : Inserting} {c : Call} {calls : List Call}
    (h : call t c = .ok (t', calls)) : visit (.ok t) c = (.ok t', calls) := by
  rw [visit, h]

/-- The insertion of a new object comes to an end and adds the objects that can be reached over new
ones. -/
theorem exists_insert {S : List ProxyPtr} {M : Nat} {o : ProxyPtr} (hs : Ready S s) (hM : Fits s M)
    (hobject : (s.object o).isSome) (ho : ¬s.Stored o) :
    ∃ s', s.insert o = some (.ok s') ∧ s.Adds s' (s.ReachesNew o) := by
  obtain ⟨a, ha⟩ := isSome_iff_exists.mp hobject
  obtain ⟨n, hn, hwalk⟩ := Walk.start hs hM ha ho
  have hpro := insertProxy_new ha ho hn
  have hlkd : ({ s with store := (s.store.linkAt o a n).1 } : GraphStore).Stored o := by
    show (update s.proxies o _ o).isSome
    rw [update_self]
    rfl
  -- the object itself stays in the store
  let inv (calls : List Call) (e : Except Thrown Inserting) : Prop :=
    ∃ t, e = .ok t ∧ Walk S M s o calls t ∧ t.graph.Stored o
  let size (e : Except Thrown Inserting) : Nat := e.toOption.elim 0 s.unseen
  obtain ⟨e, hrun, t, rfl, ht, hto⟩ : ∃ e, Worklist.run visit ((s.fields o).length + 1 + s.fuel)
      (s.positions o ++ [.leave o (s.store.linkAt o a n).2])
      (.ok ⟨{ s with store := (s.store.linkAt o a n).1 }, []⟩) = some e ∧ inv [] e := by
    refine Worklist.exists_run inv size (fun c calls e => ?_) ⟨_, rfl, hwalk, hlkd⟩ ?_
    · rintro ⟨t, rfl, ht, hto⟩
      obtain ⟨t', calls', hcall, ht', hmono, hsize⟩ := ht.step hs hM
      rw [visit_of_call hcall]
      exact ⟨⟨t', rfl, ht', hmono o hto⟩, hsize⟩
    · simp [size, unseen, fuel, Worklist.unvisited, length_positions, Except.toOption]
  refine ⟨t.graph, ?_, ht.adds hs hto ho⟩
  rw [insert, hpro]
  simp only [hrun]
  rfl

theorem Adds.unique {s' : GraphStore} {new new' : ProxyPtr → Prop} (h : s.Adds s' new)
    (h' : s.Adds s' new') (hp : ¬s.Stored p) : new p ↔ new' p := by
  have hboth := (h.stored p).symm.trans (h'.stored p)
  constructor
  · intro hnew
    exact (hboth.mp (.inr hnew)).resolve_left hp
  · intro hnew
    exact (hboth.mpr (.inr hnew)).resolve_left hp

theorem ReachesNew.reaches {o : ProxyPtr} (h : s.ReachesNew o p) (ho : ¬s.Stored o) :
    ¬s.Stored p ∧ s.Reaches o p := by
  induction h with
  | refl => exact ⟨ho, .refl⟩
  | tail _ hstep ih => exact ⟨hstep.1, ih.2.tail hstep.2⟩

section Insert

variable {S : List ProxyPtr} {M : Nat} {s : GraphStore} {o : ProxyPtr} (hs : Ready S s)
  (hM : Fits s M) (hobject : (s.object o).isSome) (ho : ¬s.Stored o)

include hs hM hobject ho

/-- A new object that is reached over stored objects only is not inserted. -/
theorem not_adds (hp : ¬s.Stored p) (hrea : s.Reaches o p) (hnot : ¬s.ReachesNew o p) :
    ¬∃ s', s.insert o = some (.ok s') ∧ s.Adds s' fun p => ¬s.Stored p ∧ s.Reaches o p := by
  rintro ⟨s', hins, hadds⟩
  obtain ⟨s'', hins', hadds'⟩ := exists_insert hs hM hobject ho
  obtain rfl : s'' = s' := by
    rw [hins] at hins'
    exact (Except.ok.inj (some.inj hins')).symm
  exact hnot ((hadds'.unique hadds hp).mpr ⟨hp, hrea⟩)

/-- **`insert` comes to an end and adds the new objects that can be reached over new objects.** It
adds exactly the new objects that can be reached at all if and only if no other can be. -/
theorem insert_adds_iff : (∃ s', s.insert o = some (.ok s') ∧ s.Adds s' (s.ReachesNew o)) ∧
      ((∃ s', s.insert o = some (.ok s') ∧ s.Adds s' fun p => ¬s.Stored p ∧ s.Reaches o p) ↔
        ∀ p, ¬s.Stored p → s.Reaches o p → s.ReachesNew o p) := by
  obtain ⟨s', hins, hadds⟩ := exists_insert hs hM hobject ho
  refine ⟨⟨s', hins, hadds⟩, fun h p hp hrea => ?_, fun h => ⟨s', hins, ?_⟩⟩
  · by_contra hnot
    exact not_adds hs hM hobject ho hp hrea hnot h
  · have hsame : (fun p => ¬s.Stored p ∧ s.Reaches o p) = s.ReachesNew o := by
      funext p
      exact propext ⟨fun hp => h p hp.1 hp.2, fun hp => hp.reaches ho⟩
    rw [hsame]
    exact hadds

end Insert

/-! ## A library -/

def authored : ObjectStore :=
  [ObjectStore.Op.attach "shelf" "S" true none, .attach "author" "A" true none,
    .attach "book" "B" true none,
    .insert (.cons ⟨"A", .long, .integral 64 0⟩ .nil .nil)].foldl ObjectStore.step ObjectStore.empty

/-- A stored author, and a shelf and a book that are new. The shelf refers to the author; another
field of it and the field of the author may refer to the book. -/
def library (shelf author : Option ProxyPtr) : GraphStore where
  store := { authored with lists := authored.lists.alloc.alloc }
  object p :=
    if p = 7 then some ⟨"A", .long, .integral 64 0⟩
    else if p = 8 then some ⟨"S", .long, .integral 64 0⟩
    else if p = 9 then some ⟨"B", .long, .integral 64 0⟩
    else none
  fields p :=
    if p = 7 then [⟨author, true, true, true, false, 0⟩]
    else if p = 8 then [⟨some 7, false, true, true, false, 1⟩, ⟨shelf, false, true, true, false, 0⟩]
    else []
  count _ := 0
  transaction := none

section Library

variable {shelf author : Option ProxyPtr}

theorem proxies_library : (library shelf author).proxies =
    update (fun _ => none) 7 (some ⟨1, "A", "author", .integral 64 1⟩) := rfl

theorem stored_library : (library shelf author).Stored p ↔ p = 7 := by
  rw [stored_iff, proxies_library]
  constructor
  · rintro ⟨d, hd⟩
    by_contra hp
    rw [update_of_ne hp] at hd
    cases hd
  · rintro rfl
    exact ⟨_, update_self ..⟩

theorem mem_fields_library (hf : f ∈ (library shelf author).fields p) :
    p = 7 ∧ f = ⟨author, true, true, true, false, 0⟩ ∨
      p = 8 ∧
      (f = ⟨some 7, false, true, true, false, 1⟩ ∨ f = ⟨shelf, false, true, true, false, 0⟩) := by
  have hf' : f ∈ if p = 7 then [⟨author, true, true, true, false, 0⟩]
      else if p = 8 then [⟨some 7, false, true, true, false, 1⟩,
        ⟨shelf, false, true, true, false, 0⟩] else [] := hf
  split at hf'
  · next hp => exact .inl ⟨hp, mem_singleton.mp hf'⟩
  · split at hf'
    · next hp => exact .inr ⟨hp, by simpa using hf'⟩
    · cases hf'

theorem object_library (ha : (library shelf author).object p = some a) :
    p = 7 ∧ a = ⟨"A", .long, .integral 64 0⟩ ∨ p = 8 ∧ a = ⟨"S", .long, .integral 64 0⟩ ∨
      p = 9 ∧ a = ⟨"B", .long, .integral 64 0⟩ := by
  have ha' :
    (if p = 7 then some ⟨"A", .long, .integral 64 0⟩
      else if p = 8 then some ⟨"S", .long, .integral 64 0⟩
      else if p = 9 then some ⟨"B", .long, .integral 64 0⟩ else none :
      Option NewObject) = some a := ha
  split_ifs at ha' with hp hp hp
  · exact .inl ⟨hp, (some.inj ha').symm⟩
  · exact .inr (.inl ⟨hp, (some.inj ha').symm⟩)
  · exact .inr (.inr ⟨hp, (some.inj ha').symm⟩)

theorem ready_library (shelf author : Option ProxyPtr) (hshe : shelf = none ∨ shelf = some 9)
    (haut : author = none ∨ author = some 9) : ∃ S, Ready S (library shelf author) := by
  have hrun : Mapped [] authored :=
    RunMeets.invariant step_mapped mapped_empty
      (show RunMeets ObjectStore.step ObjectStore.Allowed ObjectStore.empty _ by decide)
  obtain ⟨own, segs, hinv⟩ := hrun.lists
  have hall := hinv.alloc.1.alloc.1
  have hmap : Mapped [] (library shelf author).store :=
    hrun.of_proxies ⟨own, segs, hall⟩ fun _ _ => Iff.rfl
  have hsma : ∀ p ∈ sentinels segs, p < 8 := by
    intro p hp
    exact (hinv.layout.cells_lt p (mem_cells_iff.mpr (.inl hp))).2
  exact ⟨sentinels segs, {
    mapped := hmap
    lists := ⟨own, segs, hall, rfl⟩
    positive := fun p d hd => by
      rw [proxies_library, update_apply] at hd
      split at hd
      · cases hd
        decide
      · cases hd
    objects := fun p a ha => by
      have hnext : (library shelf author).store.lists.tree.nextProxy = 10 := rfl
      rcases object_library ha with ⟨rfl, -⟩ | ⟨rfl, -⟩ | ⟨rfl, -⟩
      · exact ⟨hall.not_mem_sentinels rfl, by decide, by rw [hnext]; decide⟩
      · exact ⟨fun hp => absurd (hsma 8 hp) (by decide), by decide, by rw [hnext]; decide⟩
      · exact ⟨fun hp => absurd (hsma 9 hp) (by decide), by decide, by rw [hnext]; decide⟩
    attached := fun p a ha => by
      rcases object_library ha with ⟨-, rfl⟩ | ⟨-, rfl⟩ | ⟨-, rfl⟩ <;> exact ⟨_, rfl⟩
    targets := fun p f hf q hq => by
      have htgt : q = 7 ∨ q = 9 := by
        rcases mem_fields_library hf with ⟨-, rfl⟩ | ⟨-, rfl | rfl⟩
        · rcases haut with rfl | rfl
          · cases hq
          · exact .inr (some.inj hq).symm
        · exact .inl (some.inj hq).symm
        · rcases hshe with rfl | rfl
          · cases hq
          · exact .inr (some.inj hq).symm
      rcases htgt with rfl | rfl <;> rfl
    inserts := fun p f hf => by
      rcases mem_fields_library hf with ⟨-, rfl⟩ | ⟨-, rfl | rfl⟩ <;> rfl
    inserted := fun p hp f hf => by
      rw [stored_library] at hp
      rcases mem_fields_library hf with ⟨-, rfl⟩ | ⟨hp', -⟩
      · rfl
      · exact absurd (hp.symm.trans hp') (by decide)
    pending := fun p hp f hf => by
      rw [stored_library] at hp
      rcases mem_fields_library hf with ⟨hp', -⟩ | ⟨-, rfl | rfl⟩
      · exact absurd hp' hp
      · rfl
      · rfl
    log := fun log hlog => by cases hlog }⟩

theorem fits_library : Fits (library shelf author) 10 where
  seq := by
    show 1 ≤ 10
    decide
  keys p a ha _ bits v hv := by
    have hkey : a.key = .integral 64 0 := by
      rcases object_library ha with ⟨-, rfl⟩ | ⟨-, rfl⟩ | ⟨-, rfl⟩ <;> rfl
    rw [hkey] at hv
    cases hv
    decide
  room := by
    have hlen : (library shelf author).news.length ≤ 10 := length_filter_le _ (range 10)
    omega

end Library

/-- The shelf refers to the stored author and to the new book. -/
theorem insert_adds_shelf : ∃ s', (library (some 9) none).insert 8 = some (.ok s') ∧
      (library (some 9) none).Adds s' fun p => ¬(library (some 9) none).Stored p ∧
      (library (some 9) none).Reaches 8 p := by
  obtain ⟨S, hs⟩ := ready_library (some 9) none (.inr rfl) (.inl rfl)
  refine (insert_adds_iff hs fits_library rfl (by rw [stored_library]; decide)).2.mpr
    fun p hp hrea => ?_
  have hbook : (library (some 9) none).ReachesNew 8 9 :=
    .single ⟨by rw [stored_library]; decide, ⟨some 9, false, true, true, false, 0⟩,
      mem_cons_of_mem _ mem_cons_self, rfl⟩
  have hcas : p = 8 ∨ p = 7 ∨ p = 9 := by
    clear hp
    induction hrea with
    | refl => exact .inl rfl
    | tail _ hstep ih =>
      obtain ⟨f, hf, htgt⟩ := hstep
      rcases mem_fields_library hf with ⟨-, rfl⟩ | ⟨-, rfl | rfl⟩
      · cases htgt
      · exact .inr (.inl (some.inj htgt).symm)
      · exact .inr (.inr (some.inj htgt).symm)
  rcases hcas with rfl | rfl | rfl
  · exact .refl
  · exact absurd (stored_library.mpr rfl) hp
  · exact hbook

/-- The book is assigned to the author, who is in the store already: it is not inserted with the
shelf. -/
theorem insert_misses_book : (library none (some 9)).Reaches 8 9 ∧
    ¬(library none (some 9)).Stored 9 ∧ ¬∃ s', (library none (some 9)).insert 8 = some (.ok s') ∧
        (library none (some 9)).Adds s' fun p => ¬(library none (some 9)).Stored p ∧
        (library none (some 9)).Reaches 8 p := by
  obtain ⟨S, hs⟩ := ready_library none (some 9) (.inl rfl) (.inr rfl)
  have hnew : ¬(library none (some 9)).Stored 9 := by
    rw [stored_library]
    decide
  have hrea : (library none (some 9)).Reaches 8 9 :=
    .tail (.single ⟨⟨some 7, false, true, true, false, 1⟩, mem_cons_self, rfl⟩)
      ⟨⟨some 9, true, true, true, false, 0⟩, mem_cons_self, rfl⟩
  refine ⟨hrea, hnew,
    not_adds hs fits_library rfl (by rw [stored_library]; decide) hnew hrea fun h => ?_⟩
  -- the only object behind the shelf is stored
  have honly {p : ProxyPtr} (hp : (library none (some 9)).ReachesNew 8 p) : p = 8 := by
    induction hp with
    | refl => rfl
    | tail _ hstep ih =>
      obtain ⟨hnot, f, hf, htgt⟩ := hstep
      rcases mem_fields_library hf with ⟨hb, -⟩ | ⟨-, rfl | rfl⟩
      · exact absurd (hb.symm.trans ih) (by decide)
      · exact absurd (stored_library.mpr (some.inj htgt).symm) hnot
      · cases htgt
  exact absurd (honly h) (by decide)

end GraphStore

end Matador.Object
