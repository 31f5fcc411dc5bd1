import Matador.Lib.Run
import Matador.Object.HasOneRemove

/-!
# Runs of calls on a store with has_one fields

A program creates objects, assigns their fields, inserts them into the store and removes them. The
counters, by which `remove` decides, are right after any such run if in every call

* the fields of an object that gets into the store refer to stored objects, or cascade the
  insertion,
* a field of a stored object gets a stored object or none,
* no reference is moved out of the field of an object.
-/

namespace Matador.Object

open Lib

namespace HasOneStore

/-! ## The calls of a program -/

structure State where
  store : HasOneStore
  deleter : Deleter
  /-- no call has used a null pointer or failed to end -/
  defined : Bool

def State.empty : State := ⟨HasOneStore.empty, Deleter.empty, true⟩

inductive Op
  | create (types : List HasOneType)
  | insert (p : ProxyPtr)
  /-- copies a pointer into field `i` of `p`, moves one there that is no field, or clears the
  field -/
  | assign (p : ProxyPtr) (i : Nat) (target : Option ProxyPtr)
  /-- moves field `j` of `q` into field `i` of `p` -/
  | moveAssign (p : ProxyPtr) (i : Nat) (q : ProxyPtr) (j : Nat)
  | remove (p : ProxyPtr)

/-- A call. There is no pointer to an object that has not been created. -/
def State.step (s : State) : Op → State
  | .create types => { s with store := s.store.create types }
  | .insert p =>
    if p < s.store.next then
      match s.store.insert p with
      | some store => { s with store := store }
      | none => { s with defined := false }
    else s
  | .assign p i target =>
      if target.all (· < s.store.next) then { s with store := s.store.reset p i target } else s
  | .moveAssign p i q j => { s with store := s.store.moveAssign p i q j }
  | .remove p =>
    let r := s.store.remove s.deleter p
    ⟨r.1, r.2.1, s.defined && r.2.2 != .undefined⟩

/-- The call leaves no field of a stored object without a counted reference. -/
def Counted (s : State) : Op → Prop
  | .insert p => s.store.InsertsAll p
  | .assign p _ target => p ∈ s.store.stored → ∀ q ∈ target, q ∈ s.store.stored
  | .moveAssign _ _ q j => ∀ f ∈ (s.store.fields q)[j]?, f.target = none
  | .create _ | .remove _ => True

/-! ## Right counters -/

/-- What every call keeps that meets `Counted`. -/
structure State.Sound (s : State) : Prop where
  accurate : s.store.Accurate
  clean : s.deleter.Clean s.store.graph
  defined : s.defined = true

theorem sound_empty : State.empty.Sound := ⟨accurate_empty, Deleter.clean_empty _, rfl⟩

theorem clean_of_length {s t : HasOneStore} {d : Deleter} (hd : d.Clean s.graph)
    (hlen : ∀ q, (s.fields q).length ≤ (t.fields q).length) : d.Clean t.graph :=
  { hd with
    queued := fun r hr => by
      have hr' : r.member < (s.graph.members r.owner).length := hd.queued r hr
      show r.member < (t.graph.members r.owner).length
      rw [graph, List.length_map] at hr' ⊢
      exact hr'.trans_le (hlen r.owner) }

theorem moveAssign_of_null {s : HasOneStore} {p q : ProxyPtr} {i j : Nat}
    (hnull : ∀ f ∈ (s.fields q)[j]?, f.target = none) :
    s.moveAssign p i q j = s ∨ s.moveAssign p i q j = s.reset p i none := by
  unfold moveAssign
  split
  · exact .inl rfl
  · next x hx =>
    split
    · exact .inl rfl
    · -- the source field is in no list and stays as it is
      have hsame : { x with isListed := x.isListed && x.target.isNone } = x := by
        have hlis : (x.isListed && x.target.isNone) = x.isListed := by
          rw [hnull x hx, Option.isNone_none, Bool.and_true]
        rw [hlis]
      have hset : s.setField q j x = s := by
        obtain ⟨hj, hget⟩ := List.getElem?_eq_some_iff.mp hx
        rw [setField, ← hget, List.set_getElem_self, Function.update_eq_self]
      rw [hsame, hnull x hx]
      exact .inr (congrArg (reset · p i none) hset)

theorem State.Sound.step {s : State} (hs : s.Sound) {op : Op} (h : Counted s op) :
    (s.step op).Sound := by
  cases op with
  | create types =>
    refine ⟨accurate_create hs.accurate types, clean_of_length hs.clean fun q => ?_, hs.defined⟩
    show _ ≤ (Function.update s.store.fields s.store.next _ q).length
    rw [Function.update_apply]
    split
    · next hq => simp [hq, hs.accurate.created _ (Nat.le_refl _)]
    · exact Nat.le_refl _
  | insert p =>
    rw [State.step]
    split
    · next hnext =>
      obtain ⟨store, hins, hsto, hlen⟩ := accurate_insert hs.accurate hnext h
      rw [hins]
      exact ⟨hsto, clean_of_length hs.clean fun q => (hlen q).ge, hs.defined⟩
    · exact hs
  | assign p i target =>
    rw [State.step]
    split
    · next hnext =>
      refine ⟨accurate_reset hs.accurate (fun q hq => ?_) h,
        clean_of_length hs.clean fun q => (length_fields_reset q).ge, hs.defined⟩
      rw [hq] at hnext
      exact of_decide_eq_true hnext
    · exact hs
  | moveAssign p i q j =>
    rw [State.step]
    rcases moveAssign_of_null h with heq | heq
    · rw [heq]
      exact hs
    · rw [heq]
      exact ⟨accurate_reset hs.accurate nofun fun _ => nofun,
        clean_of_length hs.clean fun q => (length_fields_reset q).ge, hs.defined⟩
  | remove p =>
    obtain ⟨hdef, hcle⟩ := remove_defined hs.accurate hs.clean
    refine ⟨accurate_remove hs.accurate s.deleter, hcle, ?_⟩
    rw [State.step]
    rw [hs.defined]
    exact bne_iff_ne.mpr hdef

/-- **The counters are right after every run.** Whatever a program does, if all its calls meet
`Counted` then every call is defined, and the counter of each stored object is the number of fields
of stored objects that refer to it. -/
theorem counts_of_run (ops : List Op) (h : RunMeets State.step Counted State.empty ops) :
    (ops.foldl State.step State.empty).defined = true ∧
    ∀ p ∈ (ops.foldl State.step State.empty).store.stored,
        (ops.foldl State.step State.empty).store.count p =
          (ops.foldl State.step State.empty).store.references
            (ops.foldl State.step State.empty).store.stored p := by
  have hsou : (ops.foldl State.step State.empty).Sound :=
    RunMeets.invariant (fun _ _ hs hop => hs.step hop) sound_empty h
  exact ⟨hsou.defined, fun p _ => hsou.accurate.counts p⟩

/-- Two objects that refer to a third, one by an insertion that cascades. The first is removed. -/
def sharing : List Op :=
  [.create [⟨true, false, 0⟩], .create [], .create [⟨false, false, 0⟩], .assign 1 0 (some 2),
    .insert 1, .insert 3, .assign 3 0 (some 2), .remove 1]

theorem counts_sharing : (sharing.foldl State.step State.empty).store.count 2 = 1 ∧
      ∀ p ∈ (sharing.foldl State.step State.empty).store.stored,
        (sharing.foldl State.step State.empty).store.count p =
          (sharing.foldl State.step State.empty).store.references
            (sharing.foldl State.step State.empty).store.stored p := by
  refine ⟨by decide, (counts_of_run sharing ⟨trivial, trivial, trivial, fun hmem => ?_, ?_, ?_,
      ?_, trivial,
    trivial⟩).2⟩
  · cases hmem
  · exact insertsAll_of_subset [1, 2] (by decide) (by decide)
  · exact insertsAll_of_subset [3] (by decide) (by decide)
  · intro _ q hq
    cases hq
    decide

/-- A stored object gets a reference to an object that is inserted afterwards: it is never
counted. -/
theorem assigned_before_insert_not_counted :
    let ops : List Op :=
      [.create [⟨false, false, 0⟩], .create [], .insert 1, .assign 1 0 (some 2), .insert 2]
    let s := ops.foldl State.step State.empty
    2 ∈ s.store.stored ∧ s.store.references s.store.stored 2 = 1 ∧ s.store.count 2 = 0 := by
  decide

end HasOneStore

end Matador.Object
