import Mathlib

/-!
# Boolean expressions over atoms, and what is left of them without parentheses

`BoolExpr α` is an expression of `AND`, `OR` and `NOT` over atoms; its meaning is a function of the
truth values of its atoms. Two occurrences of an equal atom are two variables: `e.denote v n` reads
the atom at place `i` of `e` as `v (n + i)`.

`regroup e` is what a reader gets that lets `AND` bind tighter than `OR`, if the writer has put
parentheses around every `AND` and every operand of `NOT`, but not around an `OR` below an `AND`.
`sameFunction_regroup_iff` says when nothing is lost: exactly when no `AND` of `e` has an `OR` as an
operand.
-/

namespace Matador.Lib

open List

variable {α : Type*}

inductive BoolExpr (α : Type*)
  | atom (a : α)
  | and (l r : BoolExpr α)
  | or (l r : BoolExpr α)
  | not (e : BoolExpr α)
  deriving DecidableEq, Repr

namespace BoolExpr

def atoms : BoolExpr α → List α
  | .atom a => [a]
  | .and l r | .or l r => l.atoms ++ r.atoms
  | .not e => e.atoms

def size (e : BoolExpr α) : Nat := e.atoms.length

/-- The truth value of `e`, its first atom being the `n`-th variable of `v`. -/
def denote (v : Nat → Bool) : Nat → BoolExpr α → Bool
  | n, .atom _ => v n
  | n, .and l r => l.denote v n && r.denote v (n + l.size)
  | n, .or l r => l.denote v n || r.denote v (n + l.size)
  | n, .not e => !e.denote v n

/-- The same atoms at the same places, and the same function of their truth values. -/
def SameFunction (e f : BoolExpr α) : Prop :=
  e.atoms = f.atoms ∧ ∀ v, e.denote v 0 = f.denote v 0

@[simp] theorem size_atom (a : α) : (atom a).size = 1 := rfl
@[simp] theorem size_and (l r : BoolExpr α) : (and l r).size = l.size + r.size := by
  simp [size, atoms]
@[simp] theorem size_or (l r : BoolExpr α) : (or l r).size = l.size + r.size := by
  simp [size, atoms]

variable {v : Nat → Bool} {n : Nat}

theorem denote_congr {w : Nat → Bool} {e : BoolExpr α}
    (h : ∀ i, n ≤ i → i < n + e.size → v i = w i) : e.denote v n = e.denote w n := by
  induction e generalizing n with
  | atom a => exact h n (Nat.le_refl n) (by simp)
  | and l r ihl ihr =>
    simp only [size_and] at h
    rw [denote, denote, ihl fun i hi hlt => h i hi (by omega), ihr fun i hi hlt =>
      h i (by omega) (by omega)]
  | or l r ihl ihr =>
    simp only [size_or] at h
    rw [denote, denote, ihl fun i hi hlt => h i hi (by omega), ihr fun i hi hlt =>
      h i (by omega) (by omega)]
  | not e ih => rw [denote, denote, ih h]

/-! ## Reading without the parentheses around `OR` -/

/-- A chain `x OR y OR …`, nested to the right. -/
def orChain : BoolExpr α → List (BoolExpr α) → BoolExpr α
  | x, [] => x
  | x, y :: ys => .or x (orChain y ys)

/-- The chain `x OR xs` followed by `AND` and the chain `y OR ys`. The `AND` takes only its
two neighbours. -/
def joinAnd : BoolExpr α → List (BoolExpr α) → BoolExpr α → List (BoolExpr α) →
    BoolExpr α × List (BoolExpr α)
  | x, [], y, ys => (.and x y, ys)
  | x, z :: zs, y, ys => (x, (joinAnd z zs y ys).1 :: (joinAnd z zs y ys).2)

/-- The disjuncts a reader finds in the text of `e`, the first and the others. -/
def disjuncts : BoolExpr α → BoolExpr α × List (BoolExpr α)
  | .atom a => (.atom a, [])
  | .or l r => (l.disjuncts.1, l.disjuncts.2 ++ r.disjuncts.1 :: r.disjuncts.2)
  | .and l r =>
    let j := joinAnd l.disjuncts.1 l.disjuncts.2 r.disjuncts.1 r.disjuncts.2
    (orChain j.1 j.2, [])
  | .not e => (.not (orChain e.disjuncts.1 e.disjuncts.2), [])

def regroup (e : BoolExpr α) : BoolExpr α := orChain e.disjuncts.1 e.disjuncts.2

def isOr : BoolExpr α → Bool
  | .or _ _ => true
  | _ => false

/-- No `AND` has an `OR` as a direct operand. -/
def grouped : BoolExpr α → Bool
  | .atom _ => true
  | .and l r => !l.isOr && !r.isOr && l.grouped && r.grouped
  | .or l r => l.grouped && r.grouped
  | .not e => e.grouped

/-! ## The atoms stay where they are -/

theorem atoms_orChain (x : BoolExpr α) (xs : List (BoolExpr α)) :
    (orChain x xs).atoms = (x :: xs).flatMap atoms := by
  induction xs generalizing x with
  | nil => simp [orChain]
  | cons y ys ih => rw [orChain, atoms, ih]; rfl

theorem atoms_joinAnd (x : BoolExpr α) (xs : List (BoolExpr α)) (y : BoolExpr α)
    (ys : List (BoolExpr α)) : ((joinAnd x xs y ys).1 :: (joinAnd x xs y ys).2).flatMap atoms =
      (x :: xs).flatMap atoms ++ (y :: ys).flatMap atoms := by
  induction xs generalizing x with
  | nil => simp [joinAnd, atoms]
  | cons z zs ih => rw [joinAnd, flatMap_cons, ih z, ← append_assoc]; rfl

theorem atoms_disjuncts (e : BoolExpr α) :
    (e.disjuncts.1 :: e.disjuncts.2).flatMap atoms = e.atoms := by
  induction e with
  | atom a => rfl
  | and l r ihl ihr =>
    simp only [disjuncts, flatMap_cons, flatMap_nil, append_nil]
    rw [atoms_orChain, atoms_joinAnd, ihl, ihr, atoms]
  | or l r ihl ihr =>
    rw [disjuncts, atoms, ← ihl, ← ihr]
    simp
  | not e ih =>
    simp only [disjuncts, flatMap_cons, flatMap_nil, append_nil, atoms]
    rw [atoms_orChain, ih]

@[simp] theorem atoms_regroup (e : BoolExpr α) : e.regroup.atoms = e.atoms := by
  rw [regroup, atoms_orChain, atoms_disjuncts]

@[simp] theorem size_regroup (e : BoolExpr α) : e.regroup.size = e.size := by
  rw [size, atoms_regroup, size]

/-! ## The meaning of a chain -/

/-- One of the expressions is true, their atoms being numbered through. -/
def anyDenote (v : Nat → Bool) : Nat → List (BoolExpr α) → Bool
  | _, [] => false
  | n, x :: xs => x.denote v n || anyDenote v (n + x.size) xs

theorem denote_orChain (v : Nat → Bool) (n : Nat) (x : BoolExpr α) (xs : List (BoolExpr α)) :
    (orChain x xs).denote v n = anyDenote v n (x :: xs) := by
  induction xs generalizing x n with
  | nil => simp [orChain, anyDenote]
  | cons y ys ih => rw [orChain, denote, ih]; rfl

theorem anyDenote_append (v : Nat → Bool) (n : Nat) (xs ys : List (BoolExpr α)) :
    anyDenote v n (xs ++ ys) =
      (anyDenote v n xs || anyDenote v (n + (xs.flatMap atoms).length) ys) := by
  induction xs generalizing n with
  | nil => simp [anyDenote]
  | cons x xs ih =>
    simp only [cons_append, anyDenote, ih, flatMap_cons, length_append, Bool.or_assoc, size,
      Nat.add_assoc]

theorem denote_regroup (v : Nat → Bool) (n : Nat) (e : BoolExpr α) :
    e.regroup.denote v n = anyDenote v n (e.disjuncts.1 :: e.disjuncts.2) := by
  rw [regroup, denote_orChain]

@[simp] theorem denote_regroup_or (v : Nat → Bool) (n : Nat) (l r : BoolExpr α) :
    (or l r).regroup.denote v n = (l.regroup.denote v n || r.regroup.denote v (n + l.size)) := by
  simp only [denote_regroup, disjuncts]
  rw [← cons_append, anyDenote_append, atoms_disjuncts, size]

@[simp] theorem denote_regroup_not (v : Nat → Bool) (n : Nat) (e : BoolExpr α) :
    (not e).regroup.denote v n = !e.regroup.denote v n := by
  simp [denote_regroup, disjuncts, anyDenote, denote, denote_orChain]

theorem denote_regroup_and (v : Nat → Bool) (n : Nat) (l r : BoolExpr α) :
    (and l r).regroup.denote v n =
      anyDenote v n ((joinAnd l.disjuncts.1 l.disjuncts.2 r.disjuncts.1 r.disjuncts.2).1 ::
        (joinAnd l.disjuncts.1 l.disjuncts.2 r.disjuncts.1 r.disjuncts.2).2) := by
  rw [regroup, disjuncts, orChain, denote_orChain]

/-! ## The meaning of an `AND` between two chains -/

theorem joinAnd_append_left (x : BoolExpr α) (xs : List (BoolExpr α)) (z : BoolExpr α)
    (zs : List (BoolExpr α)) (y : BoolExpr α) (ys : List (BoolExpr α)) :
    joinAnd x (xs ++ z :: zs) y ys = (x, xs ++ (joinAnd z zs y ys).1 :: (joinAnd z zs y ys).2) := by
  induction xs generalizing x with
  | nil => rfl
  | cons w ws ih => rw [cons_append, joinAnd, ih]; rfl

theorem joinAnd_append_right (x : BoolExpr α) (xs : List (BoolExpr α)) (y : BoolExpr α)
    (ys zs : List (BoolExpr α)) :
    joinAnd x xs y (ys ++ zs) = ((joinAnd x xs y ys).1, (joinAnd x xs y ys).2 ++ zs) := by
  induction xs generalizing x with
  | nil => rfl
  | cons w ws ih => rw [joinAnd, ih]; rfl

theorem anyDenote_joinAnd {x : BoolExpr α} {xs : List (BoolExpr α)}
    {y : BoolExpr α} {ys : List (BoolExpr α)} {b : Bool}
    (hl : anyDenote v n (x :: xs) = b)
    (hr : anyDenote v (n + ((x :: xs).flatMap atoms).length) (y :: ys) = b) :
    anyDenote v n ((joinAnd x xs y ys).1 :: (joinAnd x xs y ys).2) = b := by
  induction xs generalizing x n with
  | nil =>
    simp only [flatMap_cons, flatMap_nil, append_nil] at hr
    simp only [joinAnd, anyDenote, denote, size_and, ← Nat.add_assoc] at hl hr ⊢
    rw [← size] at hr
    cases b <;> simp_all
  | cons z zs ih =>
    simp only [anyDenote] at hl ⊢
    simp only [joinAnd]
    have hlen : ((x :: z :: zs).flatMap atoms).length =
        x.size + ((z :: zs).flatMap atoms).length := by
      rw [flatMap_cons, length_append, size]
    rw [hlen, ← Nat.add_assoc] at hr
    cases hx : x.denote v n with
    | true => rw [hx] at hl; simpa using hl
    | false =>
      rw [hx] at hl
      exact ih hl hr

theorem denote_regroup_and_of_eq {l r : BoolExpr α} {b : Bool}
    (hl : l.regroup.denote v n = b) (hr : r.regroup.denote v (n + l.size) = b) :
    (and l r).regroup.denote v n = b := by
  rw [denote_regroup] at hl hr
  rw [denote_regroup_and]
  exact anyDenote_joinAnd hl (by rwa [atoms_disjuncts])

theorem denote_regroup_and_or_left {l₁ l₂ r : BoolExpr α}
    (h : l₁.regroup.denote v n) : (and (or l₁ l₂) r).regroup.denote v n := by
  rw [denote_regroup] at h
  rw [denote_regroup_and, disjuncts, joinAnd_append_left, ← cons_append, anyDenote_append, h,
    Bool.true_or]

theorem denote_regroup_and_or_right {l r₁ r₂ : BoolExpr α}
    (h : r₂.regroup.denote v (n + (l.size + r₁.size))) : (and l (or r₁ r₂)).regroup.denote v n := by
  rw [denote_regroup] at h
  rw [denote_regroup_and, disjuncts, joinAnd_append_right, ← cons_append, anyDenote_append,
    atoms_joinAnd, atoms_disjuncts, atoms_disjuncts, length_append]
  rw [size, size] at h
  rw [h, Bool.or_true]

theorem disjuncts_of_not_isOr {e : BoolExpr α} (h : e.isOr = false) : e.disjuncts.2 = [] := by
  cases e with
  | or l r => simp [isOr] at h
  | atom a => rfl
  | and l r => rfl
  | not e => rfl

theorem regroup_and {l r : BoolExpr α} (hl : l.isOr = false) (hr : r.isOr = false) :
    (and l r).regroup = and l.regroup r.regroup := by
  simp [regroup, disjuncts, disjuncts_of_not_isOr hl, disjuncts_of_not_isOr hr, joinAnd, orChain]

/-! ## When nothing is lost -/

theorem exists_splice (l r : BoolExpr α) {m : Nat} (hm : n + l.size ≤ m) (v w : Nat → Bool) :
    ∃ u, l.denote u n = l.denote v n ∧ l.regroup.denote u n = l.regroup.denote v n ∧
      r.denote u m = r.denote w m ∧ r.regroup.denote u m = r.regroup.denote w m := by
  refine ⟨fun i => if i < m then v i else w i, denote_congr fun i _ hi => ?_,
    denote_congr fun i _ hi => ?_, denote_congr fun i hi _ => ?_, denote_congr fun i hi _ => ?_⟩
  · rw [if_pos (by omega)]
  · rw [size_regroup] at hi
    rw [if_pos (by omega)]
  · rw [if_neg (Nat.not_lt.mpr hi)]
  · rw [if_neg (Nat.not_lt.mpr hi)]

theorem exists_denote_eq (e : BoolExpr α) (n : Nat) (b : Bool) :
    ∃ v, e.denote v n = b ∧ e.regroup.denote v n = b := by
  induction e generalizing n b with
  | atom a => exact ⟨fun _ => b, rfl, rfl⟩
  | and l r ihl ihr =>
    obtain ⟨v, hl, hl'⟩ := ihl n b
    obtain ⟨w, hr, hr'⟩ := ihr (n + l.size) b
    obtain ⟨u, h₁, h₂, h₃, h₄⟩ := exists_splice l r (Nat.le_refl _) v w
    refine ⟨u, ?_, denote_regroup_and_of_eq (h₂.trans hl') (h₄.trans hr')⟩
    rw [denote, h₁, h₃, hl, hr, Bool.and_self]
  | or l r ihl ihr =>
    obtain ⟨v, hl, hl'⟩ := ihl n b
    obtain ⟨w, hr, hr'⟩ := ihr (n + l.size) b
    obtain ⟨u, h₁, h₂, h₃, h₄⟩ := exists_splice l r (Nat.le_refl _) v w
    refine ⟨u, ?_, ?_⟩
    · rw [denote, h₁, h₃, hl, hr, Bool.or_self]
    · rw [denote_regroup_or, h₂, h₄, hl', hr', Bool.or_self]
  | not e ih =>
    obtain ⟨v, h, h'⟩ := ih n (!b)
    exact ⟨v, by rw [denote, h, Bool.not_not], by rw [denote_regroup_not, h', Bool.not_not]⟩

theorem denote_regroup_of_grouped {e : BoolExpr α} (h : e.grouped) (v : Nat → Bool)
    (n : Nat) : e.regroup.denote v n = e.denote v n := by
  induction e generalizing n with
  | atom a => rfl
  | and l r ihl ihr =>
    simp only [grouped, Bool.and_eq_true, Bool.not_eq_true'] at h
    obtain ⟨⟨⟨hlo, hro⟩, hl⟩, hr⟩ := h
    rw [regroup_and hlo hro, denote, denote, ihl hl, ihr hr, size_regroup]
  | or l r ihl ihr =>
    simp only [grouped, Bool.and_eq_true] at h
    rw [denote_regroup_or, denote, ihl h.1, ihr h.2]
  | not e ih => rw [denote_regroup_not, denote, ih h]

/-- An `OR` on the left of an `AND` is torn apart: its first operand true, the right side
false. -/
theorem exists_denote_ne_or_left (l₁ l₂ r : BoolExpr α) (n : Nat) :
    ∃ v, (and (or l₁ l₂) r).regroup.denote v n ≠ (and (or l₁ l₂) r).denote v n := by
  obtain ⟨v, -, hl⟩ := exists_denote_eq l₁ n true
  obtain ⟨w, hr, -⟩ := exists_denote_eq r (n + (or l₁ l₂).size) false
  obtain ⟨u, -, h₂, h₃, -⟩ :=
    exists_splice l₁ r (show n + l₁.size ≤ n + (or l₁ l₂).size by rw [size_or]; omega) v w
  refine ⟨u, ?_⟩
  rw [denote_regroup_and_or_left (h₂.trans hl), denote, h₃, hr, Bool.and_false]
  exact Bool.noConfusion

/-- An `OR` on the right of an `AND` is torn apart: its second operand true, the left side
false. -/
theorem exists_denote_ne_or_right (l r₁ r₂ : BoolExpr α) (n : Nat) :
    ∃ v, (and l (or r₁ r₂)).regroup.denote v n ≠ (and l (or r₁ r₂)).denote v n := by
  obtain ⟨v, hl, -⟩ := exists_denote_eq l n false
  obtain ⟨w, -, hr⟩ := exists_denote_eq r₂ (n + (l.size + r₁.size)) true
  obtain ⟨u, h₁, -, -, h₄⟩ :=
    exists_splice l r₂ (show n + l.size ≤ n + (l.size + r₁.size) by omega) v w
  refine ⟨u, ?_⟩
  rw [denote_regroup_and_or_right (h₄.trans hr), denote, h₁, hl]
  exact Bool.noConfusion

/-- A misreading inside an operand shows if the other operand has the neutral value `b`. -/
theorem exists_op_ne {op : Bool → Bool → Bool} {b : Bool} (hleft : ∀ x, op x b = x)
    (hrgt : ∀ x, op b x = x) {l r : BoolExpr α} (h : (∃ v, l.regroup.denote v n ≠ l.denote v n) ∨
      ∃ v, r.regroup.denote v (n + l.size) ≠ r.denote v (n + l.size)) :
    ∃ u, op (l.regroup.denote u n) (r.regroup.denote u (n + l.size)) ≠
      op (l.denote u n) (r.denote u (n + l.size)) := by
  rcases h with ⟨v, hv⟩ | ⟨w, hw⟩
  · obtain ⟨w, hw, hw'⟩ := exists_denote_eq r (n + l.size) b
    obtain ⟨u, h₁, h₂, h₃, h₄⟩ := exists_splice l r (Nat.le_refl _) v w
    exact ⟨u, by rwa [h₁, h₂, h₃, h₄, hw, hw', hleft, hleft]⟩
  · obtain ⟨v, hv, hv'⟩ := exists_denote_eq l n b
    obtain ⟨u, h₁, h₂, h₃, h₄⟩ := exists_splice l r (Nat.le_refl _) v w
    exact ⟨u, by rwa [h₁, h₂, h₃, h₄, hv, hv', hrgt, hrgt]⟩

theorem exists_denote_ne {e : BoolExpr α} (h : e.grouped = false) (n : Nat) :
    ∃ v, e.regroup.denote v n ≠ e.denote v n := by
  induction e generalizing n with
  | atom a => simp [grouped] at h
  | and l r ihl ihr =>
    cases hl : l.isOr with
    | true =>
      cases l with
      | or l₁ l₂ => exact exists_denote_ne_or_left l₁ l₂ r n
      | _ => simp [isOr] at hl
    | false =>
      cases hr : r.isOr with
      | true =>
        cases r with
        | or r₁ r₂ => exact exists_denote_ne_or_right l r₁ r₂ n
        | _ => simp [isOr] at hr
      | false =>
        -- the `AND` keeps its operands, so the misreading is inside one of them
        simp only [grouped, hl, hr, Bool.not_false, Bool.true_and, Bool.and_eq_false_iff] at h
        rw [regroup_and hl hr]
        simp only [denote, size_regroup]
        exact exists_op_ne Bool.and_true Bool.true_and (h.imp (fun h => ihl h n) fun h => ihr h _)
  | or l r ihl ihr =>
    simp only [grouped, Bool.and_eq_false_iff] at h
    simp only [denote_regroup_or]
    exact exists_op_ne Bool.or_false Bool.false_or (h.imp (fun h => ihl h n) fun h => ihr h _)
  | not e ih =>
    obtain ⟨v, hv⟩ := ih h n
    refine ⟨v, ?_⟩
    rw [denote]
    simpa using hv

/-- **What is read back is the expression itself, up to association, exactly when no `AND` has
an `OR` as an operand.** -/
theorem sameFunction_regroup_iff (e : BoolExpr α) : SameFunction e.regroup e ↔ e.grouped := by
  constructor
  · intro ⟨_, h⟩
    by_contra hg
    obtain ⟨v, hv⟩ := exists_denote_ne (Bool.not_eq_true _ ▸ hg) 0
    exact hv (h v)
  · intro h
    exact ⟨e.atoms_regroup, fun v => denote_regroup_of_grouped h v 0⟩

end BoolExpr

end Matador.Lib
