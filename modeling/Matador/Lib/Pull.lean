import Mathlib

/-!
# Pull machines

A machine gives its values one by one: `process` moves to the next value and says whether there is
one, `value` reads it. A loop over a machine (`search`) goes on until its body stops it. A `stage`
is a machine that runs such a loop over another one each time it is asked.
-/

namespace Matador.Lib

/-- What a loop does behind its body: go on, or return. -/
inductive Signal
  | next
  | done (b : Bool)

/-- A machine. What is undefined has no result. -/
structure Pull (α : Type) where
  State : Type
  start : State
  process : State → Option (Bool × State)
  value : State → Option α
  wf : WellFounded fun s' s => process s = some (true, s')

namespace Pull

variable {α β σ : Type} (P : Pull α)

/-- One step to a value. -/
abbrev Steps (s' s : P.State) : Prop := P.process s = some (true, s')

/-- The loop `while (process()) body`. -/
def search (body : σ → Option α → Option (Signal × σ)) (s : P.State) (x : σ) :
    Option (Bool × P.State × σ) :=
  match _h : P.process s with
  | none => none
  | some (false, s') => some (false, s', x)
  | some (true, s') =>
    match body x (P.value s') with
    | none => none
    | some (.next, x') => search body s' x'
    | some (.done b, x') => some (b, s', x')
termination_by P.wf.wrap s
decreasing_by assumption

variable {P}

section Search

variable {body : σ → Option α → Option (Signal × σ)} {s s' : P.State} {x x' : σ}

theorem search_of_finished (body : σ → Option α → Option (Signal × σ)) (x : σ)
    (h : P.process s = some (false, s')) : P.search body s x = some (false, s', x) := by
  unfold search
  split
  · next h' => cases h.symm.trans h'
  · next h' =>
    cases h.symm.trans h'
    rfl
  · next h' => cases h.symm.trans h'

theorem search_of_valid (body : σ → Option α → Option (Signal × σ)) (x : σ)
    (h : P.process s = some (true, s')) : P.search body s x = match body x (P.value s') with
      | none => none
      | some (.next, x') => P.search body s' x'
      | some (.done b, x') => some (b, s', x') := by
  rw [search]
  split
  · next h' => cases h.symm.trans h'
  · next h' => cases h.symm.trans h'
  · next h' =>
    cases h.symm.trans h'
    rfl

theorem transGen_of_search (h : P.search body s x = some (true, s', x')) :
    Relation.TransGen P.Steps s' s := by
  induction s using P.wf.induction generalizing x with
  | _ s ih =>
    cases hp : P.process s with
    | none =>
      unfold search at h
      split at h
      · cases h
      · next h' => cases hp.symm.trans h'
      · next h' => cases hp.symm.trans h'
    | some r =>
      obtain ⟨b, t⟩ := r
      cases b with
      | false =>
        rw [search_of_finished body x hp] at h
        cases h
      | true =>
        rw [search_of_valid body x hp] at h
        split at h
        · cases h
        · exact .tail (ih t hp h) hp
        · cases h
          exact .single hp

end Search

/-! ## The values of a machine -/

/-- The machine gives the values `xs` and then has no more. -/
inductive Yields (P : Pull α) : P.State → List α → Prop
  | done {s s' : P.State} (h : P.process s = some (false, s')) : Yields P s []
  | next {s s' : P.State} {x : α} {xs : List α} (h : P.process s = some (true, s'))
      (hx : P.value s' = some x) (hxs : Yields P s' xs) : Yields P s (x :: xs)

theorem Yields.congr {s t : P.State} {xs : List α} (h : P.Yields t xs)
    (hst : P.process s = P.process t) : P.Yields s xs := by
  cases h with
  | done h => exact .done (hst.trans h)
  | next h hx hxs => exact .next (hst.trans h) hx hxs

def scan (body : σ → Option α → Option (Signal × σ)) : σ → List α → Option (Bool × σ)
  | x, [] => some (false, x)
  | x, a :: as =>
    match body x (some a) with
    | none => none
    | some (.next, x') => scan body x' as
    | some (.done b, x') => some (b, x')

theorem search_of_yields (body : σ → Option α → Option (Signal × σ)) {s : P.State} {xs : List α}
    (h : P.Yields s xs) (x : σ) :
    (P.search body s x).map (fun r => (r.1, r.2.2)) = scan body x xs := by
  induction h generalizing x with
  | done h => rw [search_of_finished body x h, scan, Option.map_some]
  | next h hx hxs ih =>
    rw [search_of_valid body x h, hx, scan]
    split
    · rfl
    · exact ih _
    · rfl

/-! ## Stages -/

/-- A machine that runs a loop over `P`; `finish` is done when the loop has found nothing. -/
def stage (P : Pull α) (init : σ) (body : σ → Option α → Option (Signal × σ)) (value : σ → Option β)
    (finish : σ → σ) : Pull β where
  State := P.State × σ
  start := (P.start, init)
  process s := (P.search body s.1 s.2).map fun r =>
    (r.1, r.2.1, if r.1 then r.2.2 else finish r.2.2)
  value s := value s.2
  wf := by
    refine Subrelation.wf ?_ (InvImage.wf Prod.fst P.wf.transGen)
    intro s' s h
    obtain ⟨⟨b, t, x⟩, hsearch, heq⟩ := Option.map_eq_some_iff.mp h
    cases heq
    exact transGen_of_search hsearch

def feed (body : σ → Option α → Option (Signal × σ)) (value : σ → Option β) :
    σ → List α → Option (List β)
  | _, [] => some []
  | x, a :: as =>
    match body x (some a) with
    | none => none
    | some (.next, x') => feed body value x' as
    | some (.done true, x') => (value x').bind fun y => (feed body value x' as).map (y :: ·)
    | some (.done false, _) => some []

/-- **The values of a stage.** -/
theorem Yields.stage {init : σ} {body : σ → Option α → Option (Signal × σ)} {value : σ → Option β}
    {finish : σ → σ} {s : P.State} {xs : List α} (h : P.Yields s xs) {x : σ} {ys : List β}
    (hfeed : feed body value x xs = some ys) :
    (P.stage init body value finish).Yields (s, x) ys := by
  induction h generalizing x ys with
  | @done s s' h =>
    cases hfeed
    have hfin : (P.stage init body value finish).process (s, x) = some (false, s', finish x) := by
      show (P.search body s x).map _ = _
      rw [search_of_finished body x h]
      rfl
    exact .done hfin
  | @next s s' a as h ha has ih =>
    have hsea := search_of_valid body x h
    rw [ha] at hsea
    rw [feed] at hfeed
    cases hbody : body x (some a) with
    | none => simp only [hbody, reduceCtorEq] at hfeed
    | some r =>
      obtain ⟨signal, x'⟩ := r
      rw [hbody] at hfeed hsea
      match signal with
      | .next =>
        -- the loop goes on, as if it had started behind this value
        refine (ih hfeed).congr ?_
        show (P.search body s x).map _ = (P.search body s' x').map _
        rw [hsea]
      | .done true =>
        obtain ⟨y, hy, hrest⟩ := Option.bind_eq_some_iff.mp hfeed
        obtain ⟨ys', hys', rfl⟩ := Option.map_eq_some_iff.mp hrest
        have hvld : (P.stage init body value finish).process (s, x) = some (true, s', x') := by
          show (P.search body s x).map _ = _
          rw [hsea]
          rfl
        exact .next hvld hy (ih hys')
      | .done false =>
        cases hfeed
        have hfin : (P.stage init body value finish).process (s, x) =
            some (false, s', finish x') := by
          show (P.search body s x).map _ = _
          rw [hsea]
          rfl
        exact .done hfin

end Pull

end Matador.Lib
