import Mathlib

/-!
# Worklists

A recursive walk over a graph is a loop over a list of what is still to be visited: the items found
by a visit are put in front of the others.
-/

namespace Matador.Lib

open List

namespace Worklist

section Run

variable {σ α : Type*} (step : σ → α → σ × List α)

def run : Nat → List α → σ → Option σ
  | _, [], s => some s
  | 0, _ :: _, _ => none
  | n + 1, a :: as, s => run n ((step s a).2 ++ as) (step s a).1

variable {step}

/-- **The rule of the loop.** -/
theorem exists_run (inv : List α → σ → Prop) (size : σ → Nat)
    (hstep : ∀ a as s, inv (a :: as) s → inv ((step s a).2 ++ as) (step s a).1 ∧
      (step s a).2.length + size (step s a).1 ≤ size s)
    {n : Nat} {as : List α} {s : σ} (hinv : inv as s) (hn : as.length + size s ≤ n) :
    ∃ s', run step n as s = some s' ∧ inv [] s' := by
  induction n generalizing as s with
  | zero =>
    cases as with
    | nil => exact ⟨s, rfl, hinv⟩
    | cons a as =>
      rw [length_cons] at hn
      omega
  | succ n ih =>
    cases as with
    | nil => exact ⟨s, rfl, hinv⟩
    | cons a as =>
      obtain ⟨hinv', hsize⟩ := hstep a as s hinv
      refine ih hinv' ?_
      rw [length_append]
      rw [length_cons] at hn
      omega

theorem run_mono {n m : Nat} {as : List α} {s s' : σ} (h : run step n as s = some s')
    (hle : n ≤ m) : run step m as s = some s' := by
  induction n generalizing as s m with
  | zero =>
    cases as with
    | nil => cases m <;> exact h
    | cons a as => cases h
  | succ n ih =>
    obtain ⟨m, rfl⟩ : ∃ k, m = k + 1 := Nat.exists_eq_add_one.mpr (by omega)
    cases as with
    | nil => exact h
    | cons a as =>
      rw [run] at h ⊢
      exact ih h (by omega)

theorem run_unique {n m : Nat} {as : List α} {s s₁ s₂ : σ} (h₁ : run step n as s = some s₁)
    (h₂ : run step m as s = some s₂) : s₁ = s₂ :=
  Option.some.inj ((run_mono h₁ (Nat.le_max_left n m)).symm.trans
    (run_mono h₂ (Nat.le_max_right n m)))

/-- **Two loops in step.** The second one has the items that `f` keeps; it stands still where the
first one visits another item. -/
theorem run_simulates {τ β : Type*} (step' : τ → β → τ × List β) (f : α → Option β)
    (R : List α → σ → τ → Prop) (hstill : ∀ a as s t, f a = none → R (a :: as) s t →
      R ((step s a).2 ++ as) (step s a).1 t ∧ (step s a).2.filterMap f = [])
    (hstep : ∀ a b as s t, f a = some b → R (a :: as) s t →
      R ((step s a).2 ++ as) (step s a).1 (step' t b).1 ∧ (step s a).2.filterMap f = (step' t b).2)
    {n : Nat} {as : List α} {s s' : σ} {t : τ} (h : run step n as s = some s') (hR : R as s t) :
    ∃ t', run step' n (as.filterMap f) t = some t' ∧ R [] s' t' := by
  induction n generalizing as s t with
  | zero =>
    cases as with
    | nil =>
      cases h
      exact ⟨t, rfl, hR⟩
    | cons a as => cases h
  | succ n ih =>
    cases as with
    | nil =>
      cases h
      exact ⟨t, rfl, hR⟩
    | cons a as =>
      cases hf : f a with
      | none =>
        obtain ⟨hR', hnil⟩ := hstill a as s t hf hR
        obtain ⟨t', hrun, hend⟩ := ih h hR'
        rw [filterMap_append, hnil, nil_append] at hrun
        rw [filterMap_cons_none hf]
        exact ⟨t', run_mono hrun (Nat.le_succ n), hend⟩
      | some b =>
        obtain ⟨hR', heq⟩ := hstep a b as s t hf hR
        obtain ⟨t', hrun, hend⟩ := ih h hR'
        rw [filterMap_append, heq] at hrun
        rw [filterMap_cons_some hf]
        exact ⟨t', hrun, hend⟩

end Run

section Unvisited

variable {V : Type*}

/-- How many parts the vertices of `vs` that are not visited have. -/
def unvisited (parts : V → Nat) (visited : V → Bool) (vs : List V) : Nat :=
  (vs.map fun v => if visited v then 0 else parts v).sum

variable {parts : V → Nat} {visited visited' : V → Bool} {vs : List V}

theorem unvisited_le (hold : ∀ u, visited u → visited' u) :
    unvisited parts visited' vs ≤ unvisited parts visited vs := by
  refine sum_le_sum fun u _ => ?_
  by_cases hu : visited u
  · rw [if_pos hu, if_pos (hold u hu)]
  · rw [if_neg hu]
    split
    · exact Nat.zero_le _
    · exact Nat.le_refl _

theorem unvisited_visit (parts : V → Nat) {v : V} (hv : v ∈ vs) (hnew : visited v = false)
    (hself : visited' v) (hold : ∀ u, visited u → visited' u) :
    parts v + unvisited parts visited' vs ≤ unvisited parts visited vs := by
  obtain ⟨pre, post, rfl⟩ := append_of_mem hv
  have hpre : unvisited parts visited' pre ≤ unvisited parts visited pre := unvisited_le hold
  have hpost : unvisited parts visited' post ≤ unvisited parts visited post := unvisited_le hold
  simp only [unvisited, map_append, map_cons, sum_append, sum_cons, hnew, hself,
    if_true, Bool.false_eq_true, if_false] at *
  omega

end Unvisited

end Worklist

end Matador.Lib
