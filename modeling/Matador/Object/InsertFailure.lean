import Matador.Object.Transaction

/-!
# Insertions that fail

`object_store::insert` links the proxy of an object before the fields of the object are visited, the
objects they lead to are inserted and the transaction is notified. If one of these throws, `insert(T
*)` deletes the proxy, but nobody takes it out of the list of its node again.

What the fields of an object lead to is part of the operation here, so all kinds of relations are
covered.
-/

namespace Matador.Object

open PrototypeNode Lib PrototypeTree

inductive Visits
  | done
  | count (p : ProxyPtr) (n : Int) (next : Visits)
  /-- the visitor throws -/
  | throw (error : String)
  /-- a new object is inserted, and its fields are visited -/
  | insert (object : NewObject) (fields next : Visits)

structure CountedStore where
  store : ObjectStore
  count : ProxyPtr → Int
  transaction : Option Transaction

namespace CountedStore

/-- The end of `object_store::insert`. -/
def leave (s : CountedStore) (p : ProxyPtr) (data : ObjectProxy) : Except String CountedStore :=
  match s.transaction with
  | none => .ok { s with store := s.store.mapProxy p data }
  | some log =>
    match log.onInsert ⟨p, data⟩ with
    | .error e => .error e
    | .ok log => .ok { s with store := s.store.mapProxy p data, transaction := some log }

def visit : CountedStore → Visits → CountedStore × Option String
  | s, .done => (s, none)
  | s, .count p n next => visit { s with count := Function.update s.count p (s.count p + n) } next
  | s, .throw e => (s, some e)
  | s, .insert o fields next =>
    match s.store.link o with
    | .error e => (s, some e)
    | .ok (store, p, data) =>
      match visit { s with store := store } fields with
      | (s, some e) => (s, some e)
      | (s, none) =>
        match s.leave p data with
        | .error e => (s, some e)
        | .ok s => visit s next

/-- `object_store::insert(T *)`: the store behind it, and what is thrown. -/
def insert (s : CountedStore) (o : NewObject) (fields : Visits) : CountedStore × Option String :=
  s.visit (.insert o fields .done)

/-- Lists, node counts and key maps, `object_map_` and the reference counters are the same. -/
structure Unchanged (s s' : CountedStore) : Prop where
  nodes : s'.store.lists.tree.nodes = s.store.lists.tree.nodes
  links : s'.store.lists.tree.links = s.store.lists.tree.links
  objectMap : s'.store.objectMap = s.store.objectMap
  count : s'.count = s.count

def Finds (t : PrototypeTree) (o : NewObject) : Prop :=
  ∃ n, t.findPrototypeNode o.classname = .ok (some n)

end CountedStore

namespace Visits

/-- No visitor throws, and the types of all objects are found. -/
def Completes (t : PrototypeTree) : Visits → Prop
  | done => True
  | count _ _ next => next.Completes t
  | throw _ => False
  | insert o fields next => CountedStore.Finds t o ∧ fields.Completes t ∧ next.Completes t

def seqEnd : Nat → Visits → Nat
  | seq, done => seq
  | seq, count _ _ next => next.seqEnd seq
  | seq, throw _ => seq
  | seq, insert o fields next => next.seqEnd (fields.seqEnd (o.seqAfter (seq + 1)))

/-- The sequencer does not run over its 64 bits. -/
def SeqFits : Nat → Visits → Prop
  | _, done => True
  | seq, count _ _ next => next.SeqFits seq
  | _, throw _ => True
  | seq, insert o fields next =>
    seq + 1 < 2 ^ 64 ∧ fields.SeqFits (o.seqAfter (seq + 1)) ∧
      next.SeqFits (fields.seqEnd (o.seqAfter (seq + 1)))

theorem Completes.congr {t t' : PrototypeTree} (hsig : t'.nodes.map sig = t.nodes.map sig) :
    ∀ {v : Visits}, v.Completes t → v.Completes t'
  | done, _ => trivial
  | count _ _ next, h => Completes.congr (v := next) hsig h
  | insert o fields next, ⟨⟨n, hn⟩, hfie, hnext⟩ => by
    obtain ⟨n', hn', -⟩ := findPrototypeNode_congr hsig hn
    exact ⟨⟨n', hn'⟩, hfie.congr hsig, hnext.congr hsig⟩

end Visits

namespace CountedStore

/-! ## Linked objects stay linked -/

def total (t : PrototypeTree) : Nat := (t.nodes.map PrototypeNode.count).sum

theorem total_insertProxy {t : PrototypeTree} {n : PrototypeNode} (hn : n ∈ t.nodes) (p : ProxyPtr)
    (pk : Identifier) : total (t.insertProxy n.type p pk) = total t + 1 := by
  obtain ⟨⟨pre, m, post⟩, hloc⟩ : ∃ r, locate n.type t.nodes = some r := by
    refine Option.ne_none_iff_exists'.mp fun hnone => ?_
    exact locate_eq_none.mp hnone n hn rfl
  rw [total, total, map_of_bodies (fun _ => rfl) (insertProxy_bodies hloc p pk), (locate_eq hloc).1]
  simp only [List.map_append, List.map_cons, List.sum_append, List.sum_cons]
  omega

variable {o : NewObject} {p : ProxyPtr} {d : ObjectProxy}

theorem total_link {s s' : ObjectStore} (h : s.link o = .ok (s', p, d)) :
    total s'.lists.tree = total s.lists.tree + 1 := by
  obtain ⟨n, hn, rfl, rfl, rfl⟩ := link_ok h
  have hmem : n ∈ s.lists.alloc.tree.nodes := findPrototypeNode_mem hn
  exact total_insertProxy hmem s.lists.tree.nextProxy (o.pk (Sequencer.next s.seq))

variable {s : CountedStore}

theorem leave_lists {s' : CountedStore} (h : s.leave p d = .ok s') :
    s'.store = s.store.mapProxy p d := by
  unfold leave at h
  split at h
  · cases h
    rfl
  · split at h
    · cases h
    · cases h
      rfl

theorem total_visit (v : Visits) (s : CountedStore) :
    total s.store.lists.tree ≤ total (s.visit v).1.store.lists.tree := by
  induction v generalizing s with
  | done => exact Nat.le_refl _
  | count p n next ih => exact ih { s with count := Function.update s.count p (s.count p + n) }
  | throw e => exact Nat.le_refl _
  | insert o fields next ihf ihn =>
    unfold visit
    split
    · exact Nat.le_refl _
    · next store p data hlink =>
      have hfie := ihf { s with store := store }
      have hlkd := total_link hlink
      split
      · next s₂ e hvis =>
        rw [hvis] at hfie
        simp only at hfie ⊢
        omega
      · next s₂ hvis =>
        rw [hvis] at hfie
        split
        · simp only at hfie ⊢
          omega
        · next s₃ hlea =>
          have hnext := ihn s₃
          rw [leave_lists hlea] at hnext
          have hmap : (s₂.store.mapProxy p data).lists = s₂.store.lists := rfl
          rw [hmap] at hnext
          simp only at hfie
          omega

/-- **A failed insertion changes the store, unless the type of the object is not found.** -/
theorem unchanged_iff_of_thrown {fields : Visits} {e : String}
    (h : (s.insert o fields).2 = some e) :
    s.Unchanged (s.insert o fields).1 ↔ ¬Finds s.store.lists.tree o := by
  cases hlink : s.store.link o with
  | error e' =>
    have hins : s.insert o fields = (s, some e') := by rw [insert, visit, hlink]
    refine iff_of_true (hins ▸ ⟨rfl, rfl, rfl, rfl⟩) ?_
    rintro ⟨n, hn⟩
    rw [ObjectStore.link, hn] at hlink
    cases hlink
  | ok r =>
    obtain ⟨store, p, data⟩ := r
    have hlkd := total_link hlink
    obtain ⟨n, hn, -⟩ := link_ok hlink
    refine iff_of_false (fun hunc => ?_) (not_not.mpr ⟨n, hn⟩)
    have hsame : total (s.insert o fields).1.store.lists.tree = total s.store.lists.tree :=
      congrArg (fun nodes => (nodes.map PrototypeNode.count).sum) hunc.nodes
    -- the object is linked when its fields are visited
    have hmore : total s.store.lists.tree + 1 ≤ total (s.insert o fields).1.store.lists.tree := by
      have hfie := total_visit fields { s with store := store }
      rw [insert, visit, hlink] at h ⊢
      simp only at h ⊢
      generalize visit { s with store := store } fields = r at h hfie ⊢
      obtain ⟨s₂, _ | e₂⟩ := r
      · simp only at h hfie ⊢
        split at h
        · simp only
          omega
        · cases h
      · simp only at hfie ⊢
        omega
    omega

/-! ## What throws -/

/-- All ids the transaction knows have been given. -/
def LogBefore (s : CountedStore) (seq : Nat) : Prop :=
  ∀ log ∈ s.transaction, ∀ id, log.idActionIndexMap id ≠ none → id ≤ seq

/-- The store behind visits that nothing ended. The transaction has got to know only ids given by
the sequencer. -/
structure Completed (s : CountedStore) (v : Visits) (s' : CountedStore) : Prop where
  seq : s'.store.seq = v.seqEnd s.store.seq
  sigs : s'.store.lists.tree.nodes.map PrototypeNode.sig =
    s.store.lists.tree.nodes.map PrototypeNode.sig
  log : ∀ log' ∈ s'.transaction, ∀ id, log'.idActionIndexMap id ≠ none →
    (∃ log ∈ s.transaction, log.idActionIndexMap id ≠ none) ∨ s.store.seq < id ∧ id ≤ s'.store.seq

theorem le_seqEnd (v : Visits) (seq : Nat) : seq ≤ v.seqEnd seq := by
  induction v generalizing seq with
  | done => exact Nat.le_refl _
  | count p n next ih => exact ih seq
  | throw e => exact Nat.le_refl _
  | insert o fields next ihf ihn =>
    calc seq ≤ o.seqAfter (seq + 1) := (Nat.le_succ seq).trans (o.le_seqAfter _)
      _ ≤ fields.seqEnd (o.seqAfter (seq + 1)) := ihf _
      _ ≤ next.seqEnd (fields.seqEnd (o.seqAfter (seq + 1))) := ihn _

theorem exists_leave (hfree : ∀ log ∈ s.transaction, log.idActionIndexMap d.id = none) :
    ∃ s', s.leave p d = .ok s' ∧ s'.store = s.store.mapProxy p d ∧
      ∀ log' ∈ s'.transaction, ∀ id, log'.idActionIndexMap id ≠ none →
        id = d.id ∨ ∃ log ∈ s.transaction, log.idActionIndexMap id ≠ none := by
  unfold leave
  split
  · next hnone =>
    refine ⟨_, rfl, rfl, fun log' hlog' => ?_⟩
    rw [show ({ s with store := s.store.mapProxy p d } : CountedStore).transaction =
      none from hnone] at hlog'
    cases hlog'
  · next log hlog =>
    rw [Transaction.onInsert, hfree log hlog]
    refine ⟨_, rfl, rfl, fun log' hlog' id hid => ?_⟩
    cases hlog'
    by_cases heq : id = d.id
    · exact .inl heq
    · refine .inr ⟨log, hlog, fun hc => hid ?_⟩
      show insertNew log.idActionIndexMap d.id _ id = none
      rw [insertNew_of_none (hfree log hlog), Function.update_of_ne heq, hc]

theorem exists_link {s : ObjectStore} (h : Finds s.lists.tree o) :
    ∃ s' p d, s.link o = .ok (s', p, d) := by
  obtain ⟨n, hn⟩ := h
  rw [ObjectStore.link, hn]
  exact ⟨_, _, _, rfl⟩

theorem visit_spec (v : Visits) (s : CountedStore) (hfits : v.SeqFits s.store.seq)
    (hlog : s.LogBefore s.store.seq) :
    (v.Completes s.store.lists.tree ∧ (s.visit v).2 = none ∧ s.Completed v (s.visit v).1) ∨
      (¬v.Completes s.store.lists.tree ∧ (s.visit v).2 ≠ none) := by
  induction v generalizing s with
  | done => exact .inl ⟨trivial, rfl, rfl, rfl, fun log hmem id hid => .inl ⟨log, hmem, hid⟩⟩
  | count p n next ih =>
    have hnext := ih { s with count := Function.update s.count p (s.count p + n) } hfits hlog
    exact hnext.imp_left fun ⟨hcom, hnone, hdone⟩ => ⟨hcom, hnone, hdone.seq, hdone.sigs, hdone.log⟩
  | throw e => exact .inr ⟨id, by nofun⟩
  | insert o fields next ihf ihn =>
    by_cases hfin : Finds s.store.lists.tree o
    · obtain ⟨store, p, d, hlink⟩ := exists_link hfin
      obtain ⟨hseq, hfit, hfitsn⟩ := hfits
      obtain ⟨-, hid, hle, -, -⟩ := link_store hseq hlink
      obtain ⟨hseq₁, hsigs₁⟩ : store.seq = o.seqAfter (s.store.seq + 1) ∧
          store.lists.tree.nodes.map sig = s.store.lists.tree.nodes.map sig := by
        obtain ⟨n, -, -, -, hsto⟩ := link_ok hlink
        rw [Sequencer.next_eq hseq] at hsto
        rw [hsto]
        exact ⟨rfl, insertProxy_sigs ..⟩
      have hlog₁ : LogBefore { s with store := store } store.seq := fun log hmem id hid =>
        (hlog log hmem id hid).trans (by omega)
      rw [visit, hlink]
      simp only
      rcases ihf { s with store := store } (hseq₁ ▸ hfit) hlog₁ with ⟨hfie, hnone,
        hdone⟩ | ⟨hfie, hthr⟩
      · generalize visit { s with store := store } fields = r at hnone hdone ⊢
        obtain ⟨s₂, e⟩ := r
        simp only at hnone hdone
        subst hnone
        -- the objects the fields lead to have later ids
        have hfree : ∀ log ∈ s₂.transaction, log.idActionIndexMap d.id = none := by
          intro log hmem
          by_contra hne
          rcases hdone.log log hmem d.id hne with ⟨log', hmem', hne'⟩ | ⟨hlt, -⟩
          · have hold := hlog log' hmem' d.id hne'
            omega
          · simp only at hlt
            omega
        obtain ⟨s₃, hlea, hsto₃, hlog₃⟩ := exists_leave (p := p) hfree
        simp only [hlea]
        have hseq₂ : s₃.store.seq = fields.seqEnd (o.seqAfter (s.store.seq + 1)) := by
          rw [hsto₃]
          exact hdone.seq.trans (by rw [hseq₁])
        have hsigs₃ : s₃.store.lists.tree.nodes.map sig = s.store.lists.tree.nodes.map sig := by
          rw [hsto₃]
          exact hdone.sigs.trans hsigs₁
        have hmono : store.seq ≤ s₃.store.seq := by
          rw [hseq₂, hseq₁]
          exact le_seqEnd _ _
        -- what the transaction knows now
        have hkno : ∀ log ∈ s₃.transaction, ∀ id, log.idActionIndexMap id ≠ none →
            (∃ log' ∈ s.transaction, log'.idActionIndexMap id ≠ none) ∨ s.store.seq < id ∧
              id ≤ s₃.store.seq := by
          intro log hmem id hne
          rcases hlog₃ log hmem id hne with rfl | ⟨log', hmem', hne'⟩
          · exact .inr (by omega)
          · rcases hdone.log log' hmem' id hne' with hold | ⟨hlt, hle'⟩
            · exact .inl hold
            · refine .inr ?_
              rw [hsto₃]
              show s.store.seq < id ∧ id ≤ s₂.store.seq
              simp only at hlt
              omega
        have hbef : LogBefore s₃ s₃.store.seq := fun log hmem id hne => by
          rcases hkno log hmem id hne with ⟨log', hmem', hne'⟩ | ⟨-, hle'⟩
          · have hold := hlog log' hmem' id hne'
            omega
          · exact hle'
        have hcon := ihn s₃ (hseq₂ ▸ hfitsn) hbef
        rcases hcon with ⟨hnext, hnone, hdone'⟩ | ⟨hnext, hthr⟩
        · refine .inl ⟨⟨hfin, hfie.congr hsigs₁.symm, hnext.congr hsigs₃.symm⟩, hnone, ?_,
            hdone'.sigs.trans hsigs₃, ?_⟩
          · rw [hdone'.seq, hseq₂]
            rfl
          · intro log hmem id hne
            rcases hdone'.log log hmem id hne with ⟨log', hmem', hne'⟩ | ⟨hlt, hle'⟩
            · have hend : s₃.store.seq ≤ (s₃.visit next).1.store.seq := by
                rw [hdone'.seq]
                exact le_seqEnd _ _
              rcases hkno log' hmem' id hne' with hold | hnew
              · exact .inl hold
              · exact .inr (by omega)
            · exact .inr (by omega)
        · exact .inr ⟨fun hc => hnext (hc.2.2.congr hsigs₃), hthr⟩
      · refine .inr ⟨fun hc => hfie (hc.2.1.congr hsigs₁), ?_⟩
        generalize visit { s with store := store } fields = r at hthr ⊢
        obtain ⟨s₂, _ | e⟩ := r
        · exact absurd rfl hthr
        · nofun
    · refine .inr ⟨fun hc => hfin hc.1, ?_⟩
      cases hlink : s.store.link o with
      | error e =>
        rw [visit, hlink]
        nofun
      | ok r =>
        obtain ⟨n, hn, -⟩ := link_ok hlink
        exact absurd ⟨n, hn⟩ hfin

/-- **When a failed insertion leaves the store unchanged.** An insertion that throws leaves the
store as it was if and only if the type of the object itself is not found. As long as ids are given
once, this comes down to: the type of the object is not found, or nothing throws at all. -/
theorem insert_unchanged_iff (s : CountedStore) (o : NewObject) (fields : Visits) :
    (∀ e, (s.insert o fields).2 = some e →
      (s.Unchanged (s.insert o fields).1 ↔ ¬Finds s.store.lists.tree o)) ∧
    ((Visits.insert o fields .done).SeqFits s.store.seq → s.LogBefore s.store.seq →
      ((∀ e, (s.insert o fields).2 = some e → s.Unchanged (s.insert o fields).1) ↔
        ¬Finds s.store.lists.tree o ∨
        (Visits.insert o fields .done).Completes s.store.lists.tree)) := by
  refine ⟨fun e h => unchanged_iff_of_thrown h, fun hfits hlog => ?_⟩
  rcases visit_spec (.insert o fields .done) s hfits hlog with ⟨hcom, hnone, -⟩ | ⟨hcom, hthr⟩
  · refine iff_of_true (fun e h => ?_) (.inr hcom)
    rw [insert, hnone] at h
    cases h
  · obtain ⟨e, he⟩ := Option.ne_none_iff_exists'.mp hthr
    have hiff := unchanged_iff_of_thrown he
    constructor
    · intro h
      exact .inl (hiff.mp (h e he))
    · rintro (hfin | hc) e' he'
      · exact hiff.mpr hfin
      · exact absurd hc hcom

def authorsOnly : CountedStore where
  store := [ObjectStore.Op.attach "author" "A" true none].foldl ObjectStore.step ObjectStore.empty
  count _ := 0
  transaction := some .empty

/-- A book cannot be inserted, and nothing happens. -/
theorem insert_unchanged_book :
    (authorsOnly.insert ⟨"B", .long, .integral 64 0⟩ .done).2 = some "couldn't find object type" ∧
      authorsOnly.Unchanged (authorsOnly.insert ⟨"B", .long, .integral 64 0⟩ .done).1 := by
  have hthr : (authorsOnly.insert ⟨"B", .long, .integral 64 0⟩ .done).2 =
      some "couldn't find object type" := by decide
  have hfits :
      (Visits.insert ⟨"B", .long, .integral 64 0⟩ .done .done).SeqFits authorsOnly.store.seq :=
    ⟨by decide, trivial, trivial⟩
  have hlog : authorsOnly.LogBefore authorsOnly.store.seq := by
    intro log hlog id hid
    cases hlog
    exact absurd rfl hid
  refine ⟨hthr, ((insert_unchanged_iff _ _ _).2 hfits hlog).mpr (.inl ?_) _ hthr⟩
  rintro ⟨n, hn⟩
  cases hn

/-- An author that cascades to a book. -/
def authorOfBook : CountedStore × Option String :=
  authorsOnly.insert ⟨"A", .long, .integral 64 0⟩ (.insert ⟨"B", .long, .integral 64 0⟩ .done .done)

/-- The insertion fails, but the author stays linked. -/
theorem failed_insert_stays_linked : authorOfBook.2 = some "couldn't find object type" ∧
    authorOfBook.1.store.lists.tree.nodes.map PrototypeNode.count = [1] ∧
    ¬authorsOnly.Unchanged authorOfBook.1 := by
  refine ⟨by decide, by decide, fun h => ?_⟩
  have hcou := congrArg (List.map PrototypeNode.count) h.nodes
  revert hcou
  decide

end CountedStore

end Matador.Object
