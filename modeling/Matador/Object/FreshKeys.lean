import Matador.Object.StoreMap

/-!
# Ids and primary keys of inserted objects

Ids and primary keys come from one counter. An object with an unset key takes its id as key; an
object that brings a key along pushes the counter forward to it.
-/

namespace Matador.Object

open List

structure Insertion where
  object : NewObject
  proxy : ObjectProxy

/-- The number the sequencer is at once the object has its id and its key. -/
def Insertion.counter (e : Insertion) : Nat := e.object.seqAfter e.proxy.id

namespace NewObject

/-- The object has a primary key of an unsigned type of 64 bits. -/
def HasUnsignedKey (o : NewObject) : Prop :=
  (o.keyType.signed = false ∧ o.keyType.bits = 64) ∧ o.key.isUnsigned

instance (o : NewObject) : Decidable o.HasUnsignedKey := inferInstanceAs (Decidable (_ ∧ _))

theorem HasUnsignedKey.exists_key {o : NewObject} (h : o.HasUnsignedKey) :
    ∃ key : Nat, key < 2 ^ 64 ∧ o.key = .integral 64 key := by
  cases hkey : o.key with
  | null | string _ => simp [HasUnsignedKey, hkey, Identifier.isUnsigned] at h
  | integral bits value =>
    obtain ⟨rfl, hpos, hlt⟩ : bits = 64 ∧ 0 ≤ value ∧ value < 2 ^ 64 := by
      simpa [hkey, Identifier.isUnsigned] using h.2
    obtain ⟨key, rfl⟩ := Int.eq_ofNat_of_zero_le hpos
    exact ⟨key, by omega, rfl⟩

end NewObject

namespace ObjectStore

/-- What `insert` links for new objects. An object keeps its place if an object it cascades to
fails. -/
def linked (s : ObjectStore) : NewObjects → List Insertion
  | .nil => []
  | .cons o cascade next =>
    match s.link o with
    | .error _ => []
    | .ok (s₁, p, data) =>
      ⟨o, data⟩ :: s₁.linked cascade ++ match s₁.insert cascade with
        | (_, some _) => []
        | (s₂, none) => (s₂.mapProxy p data).linked next

/-- What a sequence of calls of `insert` inserts; a call that throws does not end the sequence. -/
def insertions (s : ObjectStore) : List NewObjects → List Insertion
  | [] => []
  | call :: calls => s.linked call ++ (s.insert call).1.insertions calls

end ObjectStore

/-! ## Insertions on the counter -/

/-- The insertions take the counter from `lo` to `hi`: each one starts behind the place where the
one before it has left the counter. -/
structure Ascends (lo hi : Nat) (es : List Insertion) : Prop where
  le : lo ≤ hi
  above : ∀ e ∈ es, lo < e.proxy.id
  below : ∀ e ∈ es, e.counter ≤ hi
  order : es.Pairwise fun a b => a.counter < b.proxy.id

namespace Ascends

variable {lo mid hi : Nat} {es es' : List Insertion}

theorem nil (lo : Nat) : Ascends lo lo [] := ⟨Nat.le_refl lo, by simp, by simp, .nil⟩

theorem append (h : Ascends lo mid es) (h' : Ascends mid hi es') : Ascends lo hi (es ++ es') where
  le := h.le.trans h'.le
  above e he := by
    rcases mem_append.mp he with he | he
    · exact h.above e he
    · exact h.le.trans_lt (h'.above e he)
  below e he := by
    rcases mem_append.mp he with he | he
    · exact (h.below e he).trans h'.le
    · exact h'.below e he
  order := pairwise_append.mpr ⟨h.order, h'.order, fun a ha b hb =>
    (h.below a ha).trans_lt (h'.above b hb)⟩

theorem singleton {e : Insertion} (he : lo < e.proxy.id) : Ascends lo e.counter [e] where
  le := he.le.trans (e.object.le_seqAfter _)
  above a ha := by rwa [mem_singleton.mp ha]
  below a ha := by rw [mem_singleton.mp ha]
  order := pairwise_singleton _ _

theorem cons {e : Insertion} (he : lo < e.proxy.id) (h : Ascends e.counter hi es) :
    Ascends lo hi (e :: es) :=
  (singleton he).append h

end Ascends

namespace ObjectStore

variable {s s' : ObjectStore} {o : NewObject} {p : ProxyPtr} {d : ObjectProxy}

theorem link_counter (hseq : s.seq < 2 ^ 64 - 1) (h : s.link o = .ok (s', p, d)) :
    s.seq < d.id ∧ d.pk = o.pk d.id ∧ s'.seq = o.seqAfter d.id := by
  obtain ⟨n, -, rfl, rfl, rfl⟩ := link_ok h
  refine ⟨?_, rfl, rfl⟩
  rw [Sequencer.next_eq (by omega)]
  exact Nat.lt_succ_self _

theorem ascends_linked (objects : NewObjects) (s : ObjectStore) (hs : s.seq < 2 ^ 64 - 1)
    (hseq : ∀ e ∈ s.linked objects, e.counter < 2 ^ 64 - 1) :
    Ascends s.seq (s.insert objects).1.seq (s.linked objects) ∧
    (s.insert objects).1.seq < 2 ^ 64 - 1 ∧
      ∀ e ∈ s.linked objects, e.proxy.pk = e.object.pk e.proxy.id := by
  induction objects generalizing s with
  | nil => exact ⟨Ascends.nil _, hs, by simp [linked]⟩
  | cons o cascade next ihCascade ihNext =>
    rw [linked] at hseq ⊢
    rw [insert]
    cases hlink : s.link o with
    | error m => exact ⟨Ascends.nil _, hs, by simp⟩
    | ok r =>
      obtain ⟨s₁, p, data⟩ := r
      obtain ⟨hid, hpk, hs₁⟩ := link_counter hs hlink
      simp only [hlink, cons_append, forall_mem_cons, forall_mem_append] at hseq ⊢
      obtain ⟨hcou, hcas, hnext⟩ := hseq
      have hlt₁ : s₁.seq < 2 ^ 64 - 1 := by rw [hs₁]; exact hcou
      obtain ⟨hasc, hlt₂, hpks⟩ := ihCascade s₁ hlt₁ hcas
      rw [hs₁] at hasc
      cases hins : s₁.insert cascade with
      | mk s₂ err =>
        rw [hins] at hasc hlt₂ hnext
        cases err with
        | some m =>
          refine ⟨Ascends.cons hid ?_, hlt₂, hpk, hpks, by simp⟩
          rw [append_nil]
          exact hasc
        | none =>
          -- entering the proxy into the map leaves the counter as it is
          obtain ⟨hasc', hlt₃, hpks'⟩ := ihNext (s₂.mapProxy p data) hlt₂ hnext
          exact ⟨Ascends.cons hid (hasc.append hasc'), hlt₃, hpk, hpks, hpks'⟩

theorem ascends_insertions (calls : List NewObjects) (s : ObjectStore) (hs : s.seq < 2 ^ 64 - 1)
    (hseq : ∀ e ∈ s.insertions calls, e.counter < 2 ^ 64 - 1) :
    (∃ hi, Ascends s.seq hi (s.insertions calls)) ∧
      ∀ e ∈ s.insertions calls, e.proxy.pk = e.object.pk e.proxy.id := by
  induction calls generalizing s with
  | nil => exact ⟨⟨_, Ascends.nil _⟩, by simp [insertions]⟩
  | cons call calls ih =>
    rw [insertions] at hseq ⊢
    rw [forall_mem_append] at hseq
    obtain ⟨hasc, hlt, hpks⟩ := ascends_linked call s hs hseq.1
    obtain ⟨⟨hi, hasc'⟩, hpks'⟩ := ih _ hlt hseq.2
    exact ⟨⟨hi, hasc.append hasc'⟩, forall_mem_append.mpr ⟨hpks, hpks'⟩⟩

end ObjectStore

/-! ## Keys -/

theorem Insertion.exists_pk_le_counter {e : Insertion} (hkey : e.object.HasUnsignedKey)
    (hpk : e.proxy.pk = e.object.pk e.proxy.id) (hid : e.proxy.id < 2 ^ 64) :
    ∃ key : Nat, e.proxy.pk = .integral 64 key ∧ key ≤ e.counter := by
  obtain ⟨key, hlt, hval⟩ := hkey.exists_key
  by_cases hpos : 0 < key
  · have hvld : e.object.key.isValid := by simp [hval, Identifier.isValid, hpos]
    refine ⟨key, ?_, ?_⟩
    · rw [hpk, NewObject.pk, if_pos (Or.inr hvld), hval]
    · rw [counter, NewObject.seqAfter, if_pos hvld, hval]
      exact Sequencer.le_sync_of_unsigned hkey.1 64 hid hlt
  · refine ⟨e.proxy.id, ?_, e.object.le_seqAfter _⟩
    rw [hpk, NewObject.pk, if_neg (by simp [hval, Identifier.isNull, Identifier.isValid]; omega)]

/-- **Ids increase, and an object whose key is unset gets a key that no object before it has.** -/
theorem freshKeys_of_inserts (s : ObjectStore) (calls : List NewObjects)
    (hkeys : ∀ e ∈ s.insertions calls, e.object.HasUnsignedKey) (hs : s.seq < 2 ^ 64 - 1)
    (hseq : ∀ e ∈ s.insertions calls, e.counter < 2 ^ 64 - 1) :
    (s.insertions calls).Pairwise fun a b =>
      a.proxy.id < b.proxy.id ∧ (b.object.key = .integral 64 0 → b.proxy.pk ≠ a.proxy.pk) := by
  obtain ⟨⟨hi, hasc⟩, hpks⟩ := ObjectStore.ascends_insertions calls s hs hseq
  refine hasc.order.imp_of_mem fun {a b} ha hb hab => ?_
  have hida : a.proxy.id ≤ a.counter := a.object.le_seqAfter _
  refine ⟨hida.trans_lt hab, fun huns heq => ?_⟩
  have hidlt : a.proxy.id < 2 ^ 64 := by have := hseq a ha; omega
  obtain ⟨key, hkey, hle⟩ := Insertion.exists_pk_le_counter (hkeys a ha) (hpks a ha) hidlt
  -- the key of `b` is its id, which lies behind the counter of `a`
  have hb : b.proxy.pk = .integral 64 b.proxy.id := by
    rw [hpks b hb, NewObject.pk, huns]
    rfl
  rw [hb, hkey] at heq
  have hcast := (Identifier.integral.inj heq).2
  omega

/-- Three persons, of whom the second brings a key along. -/
def threePersons : List Insertion :=
  (ObjectStore.empty.step (.attach "person" "P" true none)).insertions
    [.cons ⟨"P", .unsignedLongLong, .integral 64 0⟩ .nil .nil,
      .cons ⟨"P", .unsignedLongLong, .integral 64 7⟩ .nil .nil,
      .cons ⟨"P", .unsignedLongLong, .integral 64 0⟩ .nil .nil]

theorem freshKeys_of_three_persons :
    threePersons.map (·.proxy.pk) = [.integral 64 1, .integral 64 7, .integral 64 8] ∧
    threePersons.Pairwise fun a b =>
      a.proxy.id < b.proxy.id ∧ (b.object.key = .integral 64 0 → b.proxy.pk ≠ a.proxy.pk) :=
  ⟨by decide, freshKeys_of_inserts _ _ (by decide) (by decide) (by decide)⟩

end Matador.Object
