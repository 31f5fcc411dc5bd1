import Mathlib

/-!
# Runs of a state machine and maps with first-come insertion

A run applies a list of operations one after the other. `RunMeets step cond s as` says that every
operation meets `cond` in the state it is applied to; `RunMeets.invariant` is the rule by which
every invariant of a run is proved. A loop over the first numbers has such rules too.

A map is a function to `Option`; `insertNew` never overwrites an entry. A computation that may throw
is taken apart by `bind_eq_ok` and `map_eq_ok`.
-/

namespace Matador.Lib

open Function List

section Run

variable {σ α : Type*}

/-- Every operation meets `cond` in the state in which it is applied. -/
def RunMeets (step : σ → α → σ) (cond : σ → α → Prop) : σ → List α → Prop
  | _, [] => True
  | s, a :: as => cond s a ∧ RunMeets step cond (step s a) as

instance decidableRunMeets {step : σ → α → σ} {cond : σ → α → Prop}
    [∀ s a, Decidable (cond s a)] : ∀ s as, Decidable (RunMeets step cond s as)
  | _, [] => .isTrue trivial
  | s, a :: as =>
    have := @decidableRunMeets step cond _ (step s a) as
    inferInstanceAs (Decidable (cond s a ∧ RunMeets step cond (step s a) as))

variable {step : σ → α → σ} {cond : σ → α → Prop} {s : σ} {as : List α}

/-- **What every step keeps holds at the end of the run.** -/
theorem RunMeets.invariant {inv : σ → Prop} (hstep : ∀ s a, inv s → cond s a → inv (step s a))
    (hs : inv s) (h : RunMeets step cond s as) : inv (as.foldl step s) := by
  induction as generalizing s with
  | nil => exact hs
  | cons a as ih => exact ih (hstep s a hs h.1) h.2

theorem RunMeets.invariant_trace {inv : List α → σ → Prop}
    (hstep : ∀ done s a, inv done s → cond s a → inv (done ++ [a]) (step s a)) {done : List α}
    (hs : inv done s) (h : RunMeets step cond s as) :
    inv (done ++ as) (as.foldl step s) := by
  induction as generalizing done s with
  | nil => rwa [append_nil]
  | cons a as ih =>
    have hrest := ih (hstep done s a hs h.1) h.2
    rwa [append_assoc] at hrest

theorem RunMeets.split {bs : List α} {a : α} (h : RunMeets step cond s (as ++ a :: bs)) :
    RunMeets step cond s as ∧ cond (as.foldl step s) a := by
  induction as generalizing s with
  | nil => exact ⟨trivial, h.1⟩
  | cons b as ih =>
    obtain ⟨has, ha⟩ := ih h.2
    exact ⟨⟨h.1, has⟩, ha⟩

end Run

section Loop

variable {σ : Type*} {f : σ → Nat → Option σ} {n : Nat} {s : σ}

theorem foldlM_range_invariant (inv : Nat → σ → Prop) {s' : σ} (h : (range n).foldlM f s = some s')
    (hs : inv 0 s) (hstep : ∀ k s s', k < n → inv k s → f s k = some s' → inv (k + 1) s') :
    inv n s' := by
  induction n generalizing s' with
  | zero =>
    cases h
    exact hs
  | succ n ih =>
    rw [range_succ, foldlM_append] at h
    obtain ⟨s₁, h₁, h₂⟩ := Option.bind_eq_some_iff.mp h
    have hs₁ := ih h₁ fun k s s' hk => hstep k s s' (Nat.lt_succ_of_lt hk)
    obtain ⟨s₂, h₂, h₃⟩ := Option.bind_eq_some_iff.mp h₂
    cases h₃
    exact hstep n s₁ _ (Nat.lt_succ_self n) hs₁ h₂

theorem exists_foldlM_range (inv : Nat → σ → Prop) (hs : inv 0 s)
    (hstep : ∀ k s, k < n → inv k s → ∃ s', f s k = some s' ∧ inv (k + 1) s') :
    ∃ s', (range n).foldlM f s = some s' ∧ inv n s' := by
  induction n with
  | zero => exact ⟨s, rfl, hs⟩
  | succ n ih =>
    obtain ⟨s₁, h₁, hs₁⟩ := ih fun k s hk => hstep k s (Nat.lt_succ_of_lt hk)
    obtain ⟨s₂, h₂, hs₂⟩ := hstep n s₁ (Nat.lt_succ_self n) hs₁
    refine ⟨s₂, ?_, hs₂⟩
    rw [range_succ, foldlM_append, h₁]
    simp [h₂]

end Loop

section Maps

variable {κ β : Type*} [DecidableEq κ]

/-- `std::map::insert`: an entry that exists is kept. -/
def insertNew (m : κ → Option β) (k : κ) (v : β) : κ → Option β :=
  if (m k).isSome then m else update m k (some v)

def erase (m : κ → Option β) (k : κ) : κ → Option β := update m k none

variable {m : κ → Option β} {k : κ}

theorem insertNew_of_none (h : m k = none) (v : β) : insertNew m k v = update m k (some v) := by
  rw [insertNew, h]
  rfl

theorem isSome_insertNew {v : β} {i : κ} : (insertNew m k v i).isSome ↔ i = k ∨ (m i).isSome := by
  unfold insertNew
  by_cases hi : i = k
  · subst hi
    split
    · simpa
    · simp
  · split
    · simp [hi]
    · simp [hi]

theorem insertNew_of_ne {k' : κ} (h : k' ≠ k) (v : β) : insertNew m k v k' = m k' := by
  unfold insertNew
  split
  · rfl
  · rw [update_of_ne h]

@[simp] theorem erase_self (m : κ → Option β) (k : κ) : erase m k k = none :=
  update_self ..

theorem erase_of_ne {k' : κ} (h : k' ≠ k) : erase m k k' = m k' :=
  update_of_ne h ..

end Maps

section Except

variable {ε α β : Type}

theorem bind_eq_ok {x : Except ε α} {f : α → Except ε β} {r : β} :
    (x >>= f) = .ok r ↔ ∃ a, x = .ok a ∧ f a = .ok r := by
  cases x <;> simp [bind, Except.bind]

theorem map_eq_ok {x : Except ε α} {f : α → β} {r : β} :
    x.map f = .ok r ↔ ∃ a, x = .ok a ∧ f a = r := by
  cases x <;> simp [Except.map]

end Except

end Matador.Lib
