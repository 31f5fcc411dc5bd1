import Matador.Object.Transaction

/-!
# The log of a transaction

The actions of a transaction, seen as a list of entries with their kinds (`logOf`), describe how the
store differs from the store at `begin` (`Net`): inserted objects are new and stored, updated ones
were and are stored, deleted ones were stored, and all other objects are as before.
-/

namespace Matador.Object

open Transaction Function List Lib PrototypeTree

/-! ## The log -/

inductive ActionKind
  | insert | update | delete
  deriving DecidableEq

namespace Action

def kind : Action → ActionKind
  | .insert _ _ => .insert
  | .update _ => .update
  | .delete _ => .delete

def log (a : Action) : List (ActionKind × Entry) := a.entries.map fun e => (a.kind, e)

def insertType : Action → Option String
  | .insert type _ => some type
  | _ => none

end Action

def logOf (actions : List Action) : List (ActionKind × Entry) := actions.flatMap Action.log

variable {x : ActionKind × Entry}

section Log

variable (as bs : List Action)

theorem logOf_append : logOf (as ++ bs) = logOf as ++ logOf bs :=
  flatMap_append

theorem logOf_cons (a : Action) : logOf (a :: as) = a.log ++ logOf as :=
  flatMap_cons ..

variable {a : Action}

theorem logOf_concat (ha : a.log = [x]) (as : List Action) :
    logOf (as ++ [a]) = logOf as ++ [x] := by
  rw [logOf_append, logOf_cons, ha]
  rfl

theorem logOf_concat_perm (ha : a.log = [x]) (as : List Action) :
    (logOf (as ++ [a])).Perm (x :: logOf as) := by
  rw [logOf_concat ha]
  exact perm_append_comm

theorem mem_logOf {actions : List Action} {k : ActionKind} {e : Entry} :
    (k, e) ∈ logOf actions ↔ ∃ a ∈ actions, a.kind = k ∧ e ∈ a.entries := by
  simp only [logOf, Action.log, mem_flatMap, mem_map, Prod.mk.injEq]
  constructor
  · rintro ⟨a, ha, e', he', hk, rfl⟩
    exact ⟨a, ha, hk, he'⟩
  · rintro ⟨a, ha, hk, he⟩
    exact ⟨a, ha, e, he, hk, rfl⟩

variable (type : String) (es : List Entry)

theorem log_insert : (Action.insert type es).log = es.map fun e => (.insert, e) := rfl

variable (e : Entry)

theorem log_update : (Action.update e).log = [(.update, e)] := rfl

theorem log_delete : (Action.delete e).log = [(.delete, e)] := rfl

/-- What is left of an `insert_action`: it is erased when it gets empty. -/
def leftInsert (type : String) (es : List Entry) : List Action :=
  if es.isEmpty then [] else [.insert type es]

theorem logOf_leftInsert : logOf (leftInsert type es) = es.map fun e => (.insert, e) := by
  unfold leftInsert
  split
  · next h =>
    rw [isEmpty_iff.mp h]
    rfl
  · rw [logOf_cons]
    exact append_nil _

theorem removeAction_insert :
    removeAction e as.length (.insert type es) (as ++ .insert type es :: bs) =
      as ++ (leftInsert type (es.eraseP (·.data.id = e.data.id)) ++ bs) := by
  simp only [removeAction, leftInsert]
  split
  · rw [eraseIdx_append_of_length_le (Nat.le_refl _), Nat.sub_self]
    rfl
  · rw [set_append_right _ _ (Nat.le_refl _), Nat.sub_self]
    rfl

theorem removeAction_update : removeAction e as.length (.update e) (as ++ .update e :: bs) =
      as ++ .delete e :: bs := by
  rw [removeAction, if_pos rfl, set_append_right _ _ (Nat.le_refl _), Nat.sub_self]
  rfl

theorem mem_leftInsert {type : String} {es : List Entry}
    (h : a ∈ leftInsert type es) : es ≠ [] ∧ a = .insert type es := by
  unfold leftInsert at h
  split at h
  · cases h
  · next hes => exact ⟨by simpa using hes, mem_singleton.mp h⟩

theorem insertType_leftInsert :
    ((leftInsert type es).filterMap Action.insertType).Sublist [type] := by
  unfold leftInsert
  split
  · exact nil_sublist _
  · exact List.Sublist.refl _

theorem addInsert_cases (actions : List Action) :
    (∃ as es bs, actions = as ++ .insert e.data.node es :: bs ∧
      (addInsert e actions).1 = as ++ .insert e.data.node (es ++ [e]) :: bs) ∨
    e.data.node ∉ actions.filterMap Action.insertType ∧
      (addInsert e actions).1 = actions ++ [.insert e.data.node [e]] := by
  induction actions with
  | nil => exact .inr ⟨by simp, rfl⟩
  | cons a as ih =>
    by_cases ha : a.insertType = some e.data.node
    · cases a with
      | insert type es =>
        simp only [Action.insertType, Option.some.injEq] at ha
        subst ha
        refine .inl ⟨[], es, as, rfl, ?_⟩
        rw [addInsert, if_pos rfl]
        rfl
      | update _ | delete _ => simp [Action.insertType] at ha
    · have hcons : (addInsert e (a :: as)).1 = a :: (addInsert e as).1 := by
        cases a with
        | insert type es => rw [addInsert, if_neg fun hc => ha (by rw [hc]; rfl)]
        | update u => rfl
        | delete u => rfl
      rw [hcons]
      rcases ih with ⟨bs, es, cs, has, hadd⟩ | ⟨hnot, hadd⟩
      · exact .inl ⟨a :: bs, es, cs, by rw [has]; rfl, by rw [hadd]; rfl⟩
      · refine .inr ⟨?_, by rw [hadd]; rfl⟩
        rw [filterMap_cons]
        cases ht : a.insertType with
        | none => exact hnot
        | some type =>
          rw [mem_cons, not_or]
          exact ⟨fun hc => ha (by rw [ht, hc]), hnot⟩

theorem logOf_middle (ha : a.log = [x]) (as bs : List Action) :
    (logOf (as ++ a :: bs)).Perm (x :: (logOf as ++ logOf bs)) := by
  rw [logOf_append, logOf_cons, ha]
  exact perm_middle

theorem logOf_leave (es₁ es₂ : List Entry) :
    (logOf (as ++ .insert type (es₁ ++ e :: es₂) :: bs)).Perm
      ((.insert, e) :: logOf (as ++ (leftInsert type (es₁ ++ es₂) ++ bs))) := by
  rw [logOf_append, logOf_cons, log_insert, logOf_append, logOf_append, logOf_leftInsert,
    map_append, map_append]
  refine List.Perm.trans (List.Perm.append_left _ ?_) perm_middle
  simp only [append_assoc]
  exact perm_middle

theorem logOf_addInsert (actions : List Action) :
    (logOf (addInsert e actions).1).Perm ((.insert, e) :: logOf actions) := by
  rcases addInsert_cases e actions with ⟨as, es, bs, rfl, hadd⟩ | ⟨-, hadd⟩
  · rw [hadd, logOf_append, logOf_append, logOf_cons, log_insert, map_append, append_assoc]
    refine List.Perm.trans ?_ perm_middle
    exact List.Perm.append_left _ perm_middle
  · rw [hadd, logOf_append]
    exact perm_append_comm

end Log

/-! ## The net effect -/

/-- The log `L` describes the change of the proxies from `before` to `now`; ids above `seq` are
new. -/
structure Net (before now : ProxyPtr → Option ObjectProxy) (seq : Nat)
    (L : List (ActionKind × Entry)) : Prop where
  nodup : (L.map fun x => x.2.proxy).Nodup
  insert : ∀ e, (.insert, e) ∈ L → before e.proxy = none ∧ now e.proxy = some e.data ∧
    seq < e.data.id
  update : ∀ e, (.update, e) ∈ L → before e.proxy = some e.data ∧ now e.proxy = some e.data
  delete : ∀ e, (.delete, e) ∈ L → before e.proxy = some e.data ∧ now e.proxy = none
  rest : ∀ p, (∀ k e, (k, e) ∈ L → k ≠ .update → e.proxy ≠ p) → now p = before p

namespace Net

variable {before now now' : ProxyPtr → Option ObjectProxy} {seq : Nat}
  {L L' : List (ActionKind × Entry)} {e : Entry}

theorem perm (h : Net before now seq L) (hL : L'.Perm L) : Net before now seq L' where
  nodup := (hL.map _).nodup_iff.mpr h.nodup
  insert := fun e he => h.insert e (hL.mem_iff.mp he)
  update := fun e he => h.update e (hL.mem_iff.mp he)
  delete := fun e he => h.delete e (hL.mem_iff.mp he)
  rest := fun p hp => h.rest p fun k e he => hp k e (hL.mem_iff.mpr he)

theorem data_eq (h : Net before now seq L) {k : ActionKind} (he : (k, e) ∈ L) {d : ObjectProxy}
    (hd : now e.proxy = some d) : d = e.data ∧ k ≠ .delete := by
  cases k with
  | insert => exact ⟨Option.some.inj (hd.symm.trans (h.insert e he).2.1), by simp⟩
  | update => exact ⟨Option.some.inj (hd.symm.trans (h.update e he).2), by simp⟩
  | delete =>
    rw [(h.delete e he).2] at hd
    cases hd

variable {p : ProxyPtr}

theorem eq_before (h : Net before now seq L) (hp : p ∉ L.map fun x => x.2.proxy) :
    now p = before p := by
  refine h.rest p fun k e he _ hep => hp ?_
  exact mem_map.mpr ⟨(k, e), he, hep⟩

theorem not_mem_of_none (h : Net before now seq L) (hbef : before p = none)
    (hnow : now p = none) : p ∉ L.map fun x => x.2.proxy := by
  intro hp
  obtain ⟨⟨k, e⟩, he, rfl⟩ := mem_map.mp hp
  cases k with
  | insert =>
    rw [(h.insert e he).2.1] at hnow
    cases hnow
  | update =>
    rw [(h.update e he).1] at hbef
    cases hbef
  | delete =>
    rw [(h.delete e he).1] at hbef
    cases hbef

theorem old_or_new (h : Net before now seq L) {d : ObjectProxy}
    (hd : now p = some d) : before p = some d ∨ seq < d.id := by
  by_cases hp : p ∈ L.map fun x => x.2.proxy
  · obtain ⟨⟨k, e⟩, he, rfl⟩ := mem_map.mp hp
    obtain ⟨rfl, hk⟩ := h.data_eq he hd
    cases k with
    | insert => exact .inr (h.insert e he).2.2
    | update => exact .inl (h.update e he).1
    | delete => exact absurd rfl hk
  · exact .inl ((h.eq_before hp).symm.trans hd)

/-- What an entry says about its proxy. -/
def Effect (before now : Option ObjectProxy) (seq : Nat) (e : Entry) : ActionKind → Prop
  | .insert => before = none ∧ now = some e.data ∧ seq < e.data.id
  | .update => before = some e.data ∧ now = some e.data
  | .delete => before = some e.data ∧ now = none

variable {k : ActionKind}

theorem effect (h : Net before now seq L) (he : (k, e) ∈ L) :
    Effect (before e.proxy) (now e.proxy) seq e k := by
  cases k with
  | insert => exact h.insert e he
  | update => exact h.update e he
  | delete => exact h.delete e he

theorem of_effect (hnd : (L.map fun x => x.2.proxy).Nodup)
    (heff : ∀ k e, (k, e) ∈ L → Effect (before e.proxy) (now e.proxy) seq e k)
    (hrest : ∀ p, (∀ k e, (k, e) ∈ L → k ≠ .update → e.proxy ≠ p) → now p = before p) :
    Net before now seq L :=
  ⟨hnd, heff .insert, heff .update, heff .delete, hrest⟩

theorem cons (h : Net before now seq L) (hnew : e.proxy ∉ L.map fun x => x.2.proxy)
    {value : Option ObjectProxy} (hk : Effect (before e.proxy) value seq e k) :
    Net before (Function.update now e.proxy value) seq ((k, e) :: L) := by
  refine of_effect (nodup_cons.mpr ⟨hnew, h.nodup⟩) (fun k' e' he' => ?_) fun p hp => ?_
  · rcases mem_cons.mp he' with he' | he'
    · cases he'
      rwa [update_self]
    · rw [update_of_ne fun hc => hnew (mem_map.mpr ⟨(k', e'), he', hc⟩)]
      exact h.effect he'
  · by_cases hpe : p = e.proxy
    · rw [hpe, update_self]
      cases k with
      | insert | delete => exact absurd hpe.symm (hp _ e mem_cons_self nofun)
      | update => exact hk.2.trans hk.1.symm
    · rw [update_of_ne hpe]
      exact h.rest p fun k e' he' => hp k e' (mem_cons_of_mem _ he')

theorem cons_update (h : Net before now seq L) (hnow : now e.proxy = some e.data)
    (hnew : e.proxy ∉ L.map fun x => x.2.proxy) : Net before now seq ((.update, e) :: L) := by
  have hcons := h.cons (k := .update) hnew ⟨(h.eq_before hnew).symm.trans hnow, rfl⟩
  rwa [← hnow, update_eq_self] at hcons

theorem tail (h : Net before now seq (x :: L)) :
    Net before (Function.update now x.2.proxy (before x.2.proxy)) seq L := by
  obtain ⟨hnew, hnd⟩ := nodup_cons.mp h.nodup
  refine of_effect hnd (fun k e he => ?_) fun p hp => ?_
  · rw [update_of_ne fun hc => hnew (mem_map.mpr ⟨(k, e), he, hc⟩)]
    exact h.effect (mem_cons_of_mem x he)
  · by_cases hpx : p = x.2.proxy
    · rw [hpx, update_self]
    · rw [update_of_ne hpx]
      refine h.rest p fun k e' he' hk => ?_
      rcases mem_cons.mp he' with he' | he'
      · rw [show e' = x.2 by rw [← he']]
        exact Ne.symm hpx
      · exact hp k e' he' hk

theorem tail_insert (h : Net before now seq ((.insert, e) :: L)) :
    Net before (Function.update now e.proxy none) seq L := by
  have htail := h.tail
  simpa only [(h.insert e mem_cons_self).1] using htail

theorem update_to_delete (h : Net before now seq ((.update, e) :: L)) :
    Net before (Function.update now e.proxy none) seq ((.delete, e) :: L) := by
  obtain ⟨hbef, hnow⟩ := h.update e mem_cons_self
  -- the entry leaves the log and comes back as a deletion
  have htail := h.tail
  simp only [hbef, ← hnow, update_eq_self] at htail
  exact htail.cons (nodup_cons.mp h.nodup).1 ⟨hbef, rfl⟩

end Net

end Matador.Object
