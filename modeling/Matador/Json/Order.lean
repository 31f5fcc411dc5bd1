import Matador.Json.Value

/-!
# The order of JSON values

`operator<` compares values of one type by their contents and others by a table of their types. Maps
and vectors are compared as `std::lexicographical_compare` does it, which asks for `<` in both
directions before it goes on.

How reals are compared is left open. Without them the order is that of lists of numbers: a value is
written as a list (`tokens`) that no other value begins with, so the first difference of two lists
is the one the comparison finds.
-/

namespace Matador.Json

open List

/-- How `double` values are compared, by their texts. -/
structure Reals where
  lt : Str → Str → Bool
  eq : Str → Str → Bool
  ofInteger : LongLong → Str

/-- The table `order`. -/
def rank : Json → Nat
  | .null => 0
  | .boolean _ => 1
  | .integer _ => 2
  | .real _ => 2
  | .object _ => 3
  | .array _ => 4
  | .string _ => 5

variable (r : Reals)

mutual

/-- `operator<`. -/
def lt : Json → Json → Bool
  | .object a, .object b => ltFields a b
  | .array a, .array b => ltItems a b
  | .null, .null => false
  | .boolean a, .boolean b => decide (a < b)
  | .string a, .string b => decide (a < b)
  | .real a, .real b => r.lt a b
  | .integer a, .integer b => decide (a.1 < b.1)
  | .integer a, .real b => r.lt (r.ofInteger a) b
  | .real a, .integer b => r.lt a (r.ofInteger b)
  | a, b => decide (a.rank < b.rank)
termination_by a b => sizeOf a + sizeOf b

/-- `operator<` of two maps. -/
def ltFields : List (Str × Json) → List (Str × Json) → Bool
  | _, [] => false
  | [], _ :: _ => true
  | (k, v) :: as, (l, w) :: bs =>
    if k < l ∨ ¬l < k ∧ lt v w then true
    else if l < k ∨ ¬k < l ∧ lt w v then false
    else ltFields as bs
termination_by as bs => sizeOf as + sizeOf bs

/-- `operator<` of two vectors. -/
def ltItems : List Json → List Json → Bool
  | _, [] => false
  | [], _ :: _ => true
  | x :: xs, y :: ys => if lt x y then true else if lt y x then false else ltItems xs ys
termination_by xs ys => sizeOf xs + sizeOf ys

end

mutual

/-- `operator==`. -/
def eq : Json → Json → Bool
  | .object a, .object b => eqFields a b
  | .array a, .array b => eqItems a b
  | .null, .null => true
  | .boolean a, .boolean b => a == b
  | .string a, .string b => a == b
  | .real a, .real b => r.eq a b
  | .integer a, .integer b => a.1 == b.1
  | _, _ => false

def eqFields : List (Str × Json) → List (Str × Json) → Bool
  | [], [] => true
  | (k, v) :: as, (l, w) :: bs => k == l && eq v w && eqFields as bs
  | _, _ => false

def eqItems : List Json → List Json → Bool
  | [], [] => true
  | x :: xs, y :: ys => eq x y && eqItems xs ys
  | _, _ => false

end

def le (a b : Json) : Bool := !lt r b a

def gt (a b : Json) : Bool := !le r a b

def ge (a b : Json) : Bool := !lt r a b

mutual

def noReals : Json → Bool
  | .real _ => false
  | .object fields => noRealFields fields
  | .array items => noRealItems items
  | _ => true

def noRealFields : List (Str × Json) → Bool
  | [] => true
  | (_, v) :: fields => noReals v && noRealFields fields

def noRealItems : List Json → Bool
  | [] => true
  | item :: items => noReals item && noRealItems items

end

/-! ## Values as lists of numbers -/

def stringTokens (s : Str) : List Int := s.map (fun c => (c.toNat : Int)) ++ [-1]

mutual

def tokens : Json → List Int
  | .null => [0]
  | .boolean b => [1, if b then 1 else 0]
  | .integer i => [2, i.1]
  | .real _ => [2]
  | .object fields => 3 :: fieldTokens fields
  | .array items => 4 :: itemTokens items
  | .string s => 5 :: stringTokens s

def fieldTokens : List (Str × Json) → List Int
  | [] => [-1]
  | (k, v) :: fields => 0 :: (stringTokens k ++ (tokens v ++ fieldTokens fields))

def itemTokens : List Json → List Int
  | [] => [-1]
  | item :: items => tokens item ++ itemTokens items

end

theorem stringTokens_lt (s t : Str) (x y : List Int) :
    stringTokens s ++ x < stringTokens t ++ y ↔ s < t ∨ s = t ∧ x < y := by
  induction s generalizing t with
  | nil =>
    cases t with
    | nil => simp [stringTokens]
    | cons d t =>
      have hend : (-1 : Int) < d.toNat := by omega
      simp [stringTokens, cons_lt_cons_iff, hend]
  | cons c s ih =>
    cases t with
    | nil =>
      simp [stringTokens, cons_lt_cons_iff]
    | cons d t =>
      have hlt : (c.toNat : Int) < d.toNat ↔ c < d := Int.ofNat_lt
      have heq : (c.toNat : Int) = d.toNat ↔ c = d := by rw [Int.ofNat_inj, Char.toNat_inj]
      show (c.toNat : Int) :: (stringTokens s ++ x) < (d.toNat : Int) :: (stringTokens t ++ y) ↔ _
      rw [cons_lt_cons_iff, cons_lt_cons_iff, ih, cons.injEq]
      tauto

/-- The lists of two values differ where the comparison finds a difference, whatever stands behind
them. -/
def Agree (a b : Json) : Prop :=
  ∀ x y : List Int, tokens a ++ x < tokens b ++ y ↔ lt r a b = true ∨ a = b ∧ x < y

variable {r} {a b : Json}

theorem exists_tokens (j : Json) : ∃ rest, tokens j = (j.rank : Int) :: rest := by
  cases j <;> exact ⟨_, rfl⟩

theorem agree_of_rank (ha : a.noReals) (hb : b.noReals) (h : a.rank ≠ b.rank) : Agree r a b := by
  have hlt : lt r a b = decide (a.rank < b.rank) := by
    cases a <;> cases b <;> simp_all [lt, rank]
  intro x y
  obtain ⟨as, has⟩ := exists_tokens a
  obtain ⟨bs, hbs⟩ := exists_tokens b
  have hne : a ≠ b := fun hab => h (hab ▸ rfl)
  rw [has, hbs, hlt, cons_append, cons_append, cons_lt_cons_iff, Int.ofNat_inj]
  simp [h, hne]

theorem Agree.eq_of_not_lt (hab : Agree r a b) (hba : Agree r b a) (h : lt r a b = false)
    (h' : lt r b a = false) : a = b := by
  by_contra hne
  have hsame (x y : List Int) : tokens a ++ x = tokens b ++ y := by
    refine le_antisymm (not_lt.mp fun hlt => ?_) (not_lt.mp fun hlt => ?_)
    · simpa [h', Ne.symm hne] using (hba y x).mp hlt
    · simpa [h, hne] using (hab x y).mp hlt
  have hlen := congrArg length ((hsame [] []).symm.trans (hsame [] [0]))
  simp at hlen

theorem Agree.next (hab : Agree r a b) (hba : Agree r b a) (rest : Bool) (p q : Prop) :
    lt r a b ∨ a = b ∧ (rest ∨ p ∧ q) ↔
      (if lt r a b then true else if lt r b a then false else rest) ∨ (a = b ∧ p) ∧ q := by
  cases hlt : lt r a b with
  | true => simp
  | false =>
    cases hgt : lt r b a with
    | true =>
      have hne : a ≠ b := by
        rintro rfl
        cases hlt.symm.trans hgt
      simp [hne]
    | false => simp [hab.eq_of_not_lt hba hlt hgt]

mutual

theorem agree (a b : Json) (ha : a.noReals) (hb : b.noReals) : Agree r a b := by
  cases a <;> cases b
  case null.null => simp [Agree, tokens, lt]
  case boolean.boolean a b => cases a <;> cases b <;> simp [Agree, tokens, lt, cons_lt_cons_iff]
  case integer.integer a b => simp [Agree, tokens, lt, cons_lt_cons_iff, Subtype.ext_iff]
  case string.string a b => simp [Agree, tokens, lt, stringTokens_lt]
  case object.object a b =>
    have hfie := agreeFields a b ha hb
    simp [Agree, tokens, lt, hfie]
  case array.array a b =>
    have hitm := agreeItems a b ha hb
    simp [Agree, tokens, lt, hitm]
  case integer.real => cases hb
  case real.integer | real.real => cases ha
  all_goals exact agree_of_rank ha hb (by simp [rank])
termination_by sizeOf a + sizeOf b

theorem agreeFields (as bs : List (Str × Json)) (ha : noRealFields as) (hb : noRealFields bs)
    (x y : List Int) : fieldTokens as ++ x < fieldTokens bs ++ y ↔
    ltFields r as bs ∨ as = bs ∧ x < y := by
  match as, bs with
  | [], [] => simp [fieldTokens, ltFields]
  | [], _ :: _ | _ :: _, [] => simp [fieldTokens, ltFields, cons_lt_cons_iff]
  | (k, a) :: as, (l, b) :: bs =>
    rw [noRealFields, Bool.and_eq_true] at ha hb
    have hab : Agree r a b := agree a b ha.1 hb.1
    have hba : Agree r b a := agree b a hb.1 ha.1
    simp only [fieldTokens, cons_append, append_assoc, cons_lt_cons_iff, lt_irrefl,
      false_or, true_and,
      stringTokens_lt, hab _ _, agreeFields as bs ha.2 hb.2, ltFields, cons.injEq, Prod.mk.injEq]
    rcases lt_trichotomy k l with hkl | rfl | hkl
    · simp [hkl]
    · simpa using hab.next hba (ltFields r as bs) (as = bs) (x < y)
    · simp [hkl, hkl.not_gt, hkl.ne']
termination_by sizeOf as + sizeOf bs

theorem agreeItems (as bs : List Json) (ha : noRealItems as) (hb : noRealItems bs)
    (x y : List Int) : itemTokens as ++ x < itemTokens bs ++ y ↔
    ltItems r as bs ∨ as = bs ∧ x < y := by
  match as, bs with
  | [], [] => simp [itemTokens, ltItems]
  | [], b :: _ =>
    obtain ⟨rest, hrest⟩ := exists_tokens b
    have hend : (-1 : Int) < b.rank := by omega
    simp [itemTokens, ltItems, hrest, cons_lt_cons_iff, hend]
  | a :: _, [] =>
    obtain ⟨rest, hrest⟩ := exists_tokens a
    have hend : (-1 : Int) < a.rank := by omega
    simp [itemTokens, ltItems, hrest, cons_lt_cons_iff, hend.le, hend.ne']
  | a :: as, b :: bs =>
    rw [noRealItems, Bool.and_eq_true] at ha hb
    have hab : Agree r a b := agree a b ha.1 hb.1
    have hba : Agree r b a := agree b a hb.1 ha.1
    rw [itemTokens, itemTokens, append_assoc, append_assoc, hab, agreeItems as bs ha.2 hb.2,
      ltItems, cons.injEq]
    exact hab.next hba ..
termination_by sizeOf as + sizeOf bs

end

theorem lt_iff_tokens (ha : a.noReals) (hb : b.noReals) : lt r a b ↔ tokens a < tokens b := by
  have h : Agree r a b := agree a b ha hb
  simpa using (h [] []).symm

theorem tokens_inj (r : Reals) (ha : a.noReals) (hb : b.noReals)
    (h : tokens a = tokens b) : a = b := by
  refine (agree a b ha hb).eq_of_not_lt (agree b a hb ha) (r := r) ?_ ?_
  · rw [← Bool.not_eq_true, lt_iff_tokens ha hb, h]
    exact lt_irrefl _
  · rw [← Bool.not_eq_true, lt_iff_tokens hb ha, h]
    exact lt_irrefl _

/-! ## Equality -/

mutual

theorem eq_iff (a b : Json) (ha : a.noReals) : eq r a b ↔ a = b := by
  cases a <;> cases b
  case object.object a b => rw [eq, eqFields_iff a b ha, Json.object.injEq]
  case array.array a b => rw [eq, eqItems_iff a b ha, Json.array.injEq]
  case real.real => cases ha
  all_goals simp [eq, Subtype.ext_iff]

theorem eqFields_iff (as bs : List (Str × Json)) (ha : noRealFields as) :
    eqFields r as bs ↔ as = bs := by
  match as, bs with
  | [], [] | [], _ :: _ | _ :: _, [] => simp [eqFields]
  | (k, a) :: as, (l, b) :: bs =>
    rw [noRealFields, Bool.and_eq_true] at ha
    simp [eqFields, eq_iff a b ha.1, eqFields_iff as bs ha.2]

theorem eqItems_iff (as bs : List Json) (ha : noRealItems as) : eqItems r as bs ↔ as = bs := by
  match as, bs with
  | [], [] | [], _ :: _ | _ :: _, [] => simp [eqItems]
  | a :: as, b :: bs =>
    rw [noRealItems, Bool.and_eq_true] at ha
    simp [eqItems, eq_iff a b ha.1, eqItems_iff as bs ha.2]

end

/-- Exactly one of `a < b`, `a == b` and `b < a` holds. -/
inductive Trichotomy (r : Reals) (a b : Json) : Prop
  | less (h : lt r a b = true) (hne : eq r a b = false) (hnot : lt r b a = false)
  | equal (h : lt r a b = false) (heq : eq r a b = true) (hnot : lt r b a = false)
  | greater (h : lt r a b = false) (hne : eq r a b = false) (hlt : lt r b a = true)

/-- **`operator<` is a strict total order that fits `operator==`**, and the other operators are
derived from it. -/
theorem lt_strict_total (r : Reals) (a b c : Json) (ha : a.noReals = true) (hb : b.noReals = true)
    (hc : c.noReals = true) :
    lt r a a = false ∧ (lt r a b = true → lt r b c = true → lt r a c = true) ∧ Trichotomy r a b ∧
      (le r a b = true ↔ lt r a b = true ∨ eq r a b = true) ∧ gt r a b = lt r b a ∧
      ge r a b = le r b a := by
  have hab : lt r a b = decide (tokens a < tokens b) := by
    rw [Bool.eq_iff_iff, lt_iff_tokens ha hb, decide_eq_true_eq]
  have hba : lt r b a = decide (tokens b < tokens a) := by
    rw [Bool.eq_iff_iff, lt_iff_tokens hb ha, decide_eq_true_eq]
  have heq : eq r a b = decide (tokens a = tokens b) := by
    rw [Bool.eq_iff_iff, eq_iff a b ha, decide_eq_true_eq]
    exact ⟨congrArg tokens, tokens_inj r ha hb⟩
  refine ⟨?_, ?_, ?_, ?_, ?_, rfl⟩
  · rw [← Bool.not_eq_true, lt_iff_tokens ha ha]
    exact lt_irrefl _
  · rw [lt_iff_tokens ha hb, lt_iff_tokens hb hc, lt_iff_tokens ha hc]
    exact lt_trans
  · rcases lt_trichotomy (tokens a) (tokens b) with h | h | h
    · exact .less (by simpa [hab]) (by simpa [heq] using h.ne) (by simpa [hba] using h.le)
    · exact .equal (by simp [hab, h]) (by simpa [heq]) (by simp [hba, h])
    · exact .greater (by simpa [hab] using h.le) (by simpa [heq] using h.ne') (by simpa [hba])
  · simp [le, hab, hba, heq, le_iff_lt_or_eq]
  · simp [gt, le]

def equalReals : Reals := ⟨fun _ _ => false, fun _ _ => true, fun _ => []⟩

/-- `[1]`, `[1, {}]` and `"a"`. -/
theorem lt_strict_total_values :
    lt equalReals (.array [.integer ⟨1, by decide⟩])
      (.array [.integer ⟨1, by decide⟩, .object []]) = true ∧
      lt equalReals (.array [.integer ⟨1, by decide⟩]) (.string ['a']) = true := by
  have hlon : lt equalReals (.array [.integer ⟨1, by decide⟩])
      (.array [.integer ⟨1, by decide⟩, .object []]) := by
    simp [lt, ltItems]
  have hstr : lt equalReals (.array [.integer ⟨1, by decide⟩, .object []]) (.string ['a']) := by
    simp [lt, rank]
  exact ⟨hlon, (lt_strict_total equalReals _ _ _ rfl rfl rfl).2.1 hlon hstr⟩

end Matador.Json
