import Mathlib

/-!
# Tables of rows keyed by a primary key

A table is a map from keys to rows. Inserting a row fails when the key is taken, updating rewrites
the row of a key and fails when the new key is taken by another row, deleting removes the row of a
key.

`Stores t I key row` says that `t` holds one row for every member of `I` and no others. Each
statement on the row of one member keeps this for the changed family.
-/

namespace Matador.Lib

open Function

variable {ι κ ρ : Type*}

/-- Rows by their keys. -/
abbrev KeyedTable (κ ρ : Type*) := κ → Option ρ

namespace KeyedTable

variable [DecidableEq κ]

/-- `INSERT`; `none` stands for a violation of the key. -/
def insertRow (t : KeyedTable κ ρ) (k : κ) (r : ρ) : Option (KeyedTable κ ρ) :=
  if (t k).isSome then none else some (update t k (some r))

/-- `UPDATE … WHERE key = k`, where the new row has the key `k'`. -/
def updateRow (t : KeyedTable κ ρ) (k k' : κ) (r : ρ) : Option (KeyedTable κ ρ) :=
  if (t k).isNone then some t
  else if k' ≠ k ∧ (t k').isSome then none
  else some (update (update t k none) k' (some r))

/-- `DELETE … WHERE key = k`. -/
def deleteRow (t : KeyedTable κ ρ) (k : κ) : KeyedTable κ ρ := update t k none

end KeyedTable

/-- The rows of `t` are those of the members of `I`. -/
structure Stores (t : KeyedTable κ ρ) (I : Set ι) (key : ι → κ) (row : ι → ρ) : Prop where
  rows : ∀ k r, t k = some r ↔ ∃ i ∈ I, key i = k ∧ row i = r
  inj : Set.InjOn key I

namespace Stores

variable {t : KeyedTable κ ρ} {I I' : Set ι} {key key' : ι → κ} {row row' : ι → ρ} {i : ι}

theorem congr (h : Stores t I key row) (hI : I' = I) (hkey : Set.EqOn key' key I)
    (hrow : Set.EqOn row' row I) : Stores t I' key' row' := by
  subst hI
  refine ⟨fun k r => ?_, fun a ha b hb hab => h.inj ha hb ?_⟩
  · rw [h.rows]
    constructor
    · rintro ⟨i, hi, rfl, rfl⟩
      exact ⟨i, hi, hkey hi, hrow hi⟩
    · rintro ⟨i, hi, rfl, rfl⟩
      exact ⟨i, hi, (hkey hi).symm, (hrow hi).symm⟩
  · rw [← hkey ha, ← hkey hb, hab]

theorem apply_key (h : Stores t I key row) (hi : i ∈ I) : t (key i) = some (row i) :=
  (h.rows _ _).mpr ⟨i, hi, rfl, rfl⟩

theorem eq_none (h : Stores t I key row) {k : κ} (hk : ∀ j ∈ I, key j ≠ k) : t k = none := by
  cases hr : t k with
  | none => rfl
  | some r =>
    obtain ⟨j, hj, hjk, -⟩ := (h.rows k r).mp hr
    exact absurd hjk (hk j hj)

variable [DecidableEq κ]

/-- **A new member is inserted under a free key.** -/
theorem insertRow (h : Stores t I key row) (hi : i ∉ I) (key' : ι → κ) (row' : ι → ρ)
    (hI : I' = insert i I) (hkey : Set.EqOn key' key I) (hrow : Set.EqOn row' row I)
    (hfree : ∀ j ∈ I, key j ≠ key' i) :
    ∃ t', t.insertRow (key' i) (row' i) = some t' ∧ Stores t' I' key' row' := by
  subst hI
  refine ⟨update t (key' i) (some (row' i)), ?_, fun k r => ?_, ?_⟩
  · rw [KeyedTable.insertRow, h.eq_none hfree]
    rfl
  · by_cases hk : k = key' i
    · subst hk
      rw [update_self, Option.some.injEq]
      constructor
      · rintro rfl
        exact ⟨i, Set.mem_insert _ _, rfl, rfl⟩
      · rintro ⟨j, hj | hj, hjk, rfl⟩
        · rw [hj]
        · exact absurd ((hkey hj).symm.trans hjk) (hfree j hj)
    · rw [update_of_ne hk, h.rows]
      constructor
      · rintro ⟨j, hj, rfl, rfl⟩
        exact ⟨j, Set.mem_insert_of_mem _ hj, hkey hj, hrow hj⟩
      · rintro ⟨j, hj | hj, hjk, rfl⟩
        · exact absurd (hj ▸ hjk).symm hk
        · exact ⟨j, hj, (hkey hj).symm.trans hjk, (hrow hj).symm⟩
  · have hinj : Set.InjOn key' I :=
      fun a ha b hb hab => h.inj ha hb (by rw [← hkey ha, ← hkey hb, hab])
    refine (Set.injOn_insert hi).mpr ⟨hinj, ?_⟩
    rintro ⟨j, hj, hji⟩
    exact hfree j hj ((hkey hj).symm.trans hji)

/-- **A member is deleted by its key.** -/
theorem deleteRow (h : Stores t I key row) (hi : i ∈ I) (hI : I' = I \ {i})
    (hkey : Set.EqOn key' key I') (hrow : Set.EqOn row' row I') :
    Stores (t.deleteRow (key i)) I' key' row' := by
  subst hI
  have hsto : Stores (t.deleteRow (key i)) (I \ {i}) key row := by
    refine ⟨fun k r => ?_, h.inj.mono Set.sdiff_subset⟩
    by_cases hk : k = key i
    · subst hk
      rw [KeyedTable.deleteRow]
      refine iff_of_false (by simp) ?_
      rintro ⟨j, ⟨hj, hji⟩, hjk, -⟩
      exact hji (h.inj hj hi hjk)
    · rw [KeyedTable.deleteRow, update_of_ne hk, h.rows]
      constructor
      · rintro ⟨j, hj, hjk, hr⟩
        exact ⟨j, ⟨hj, fun hji => hk (by rw [← hjk, hji])⟩, hjk, hr⟩
      · rintro ⟨j, ⟨hj, -⟩, hjk, hr⟩
        exact ⟨j, hj, hjk, hr⟩
  exact hsto.congr rfl hkey hrow

/-- **The row of a member is rewritten**, under a key that no other member has. -/
theorem updateRow (h : Stores t I key row) (hi : i ∈ I) (key' : ι → κ) (row' : ι → ρ)
    (hkey : Set.EqOn key' key (I \ {i})) (hrow : Set.EqOn row' row (I \ {i}))
    (hfree : ∀ j ∈ I, j ≠ i → key j ≠ key' i) :
    ∃ t', t.updateRow (key i) (key' i) (row' i) = some t' ∧ Stores t' I key' row' := by
  have hdel : Stores (t.deleteRow (key i)) (I \ {i}) key row :=
    h.deleteRow hi rfl (fun _ _ => rfl) fun _ _ => rfl
  have hI : I = insert i (I \ {i}) := by rw [Set.insert_sdiff_singleton, Set.insert_eq_of_mem hi]
  obtain ⟨t', ht', hsto⟩ :=
    hdel.insertRow (by simp) key' row' hI hkey hrow fun j hj => hfree j hj.1 hj.2
  refine ⟨t', ?_, hsto⟩
  have hnone : ¬(key' i ≠ key i ∧ (t (key' i)).isSome) := by
    rintro ⟨hne, hsome⟩
    obtain ⟨r, hr⟩ := Option.isSome_iff_exists.mp hsome
    obtain ⟨j, hj, hjk, -⟩ := (h.rows _ _).mp hr
    by_cases hji : j = i
    · exact hne (by rw [← hjk, hji])
    · exact hfree j hj hji hjk
  rw [KeyedTable.updateRow, if_neg (by simp [h.apply_key hi]), if_neg hnone, ← ht',
    KeyedTable.insertRow, hdel.eq_none fun j hj => hfree j hj.1 hj.2]
  rfl

end Stores

end Matador.Lib
