import Matador.Lib.Quoted

/-!
# The literals of a text

A text with two kinds of quoted tokens: literals, quoted with `q`, and identifiers, quoted with `i`.
Everything else is plain. `demand_le_count` says that a text cannot be read as literals it has not
enough quotes for.
-/

namespace Matador.Lib

open List

variable {α : Type*} [DecidableEq α]

def literals (q i : α) : List α → Option (List (List α))
  | [] => some []
  | c :: cs =>
    if c = q then
      match _h : readQuoted q cs with
      | none => none
      | some r => (literals q i r.2).map (r.1 :: ·)
    else if c = i then
      match _h : readQuoted i cs with
      | none => none
      | some r => literals q i r.2
    else literals q i cs
termination_by cs => cs.length
decreasing_by
  · exact Nat.lt_succ_of_lt (length_lt_of_readQuoted _h)
  · exact Nat.lt_succ_of_lt (length_lt_of_readQuoted _h)
  · exact Nat.lt_succ_self _

variable {q i : α}

@[simp] theorem literals_nil : literals q i [] = some [] := by rw [literals]

theorem literals_quote (cs : List α) : literals q i (q :: cs) =
    (readQuoted q cs).bind fun r => (literals q i r.2).map (r.1 :: ·) := by
  rw [literals, if_pos rfl]
  split <;> simp [*]

theorem literals_identifier_quote (hqi : i ≠ q) (cs : List α) :
    literals q i (i :: cs) = (readQuoted i cs).bind fun r => literals q i r.2 := by
  rw [literals, if_neg hqi, if_pos rfl]
  split <;> simp [*]

theorem literals_cons {c : α} (hq : c ≠ q) (hi : c ≠ i) (cs : List α) :
    literals q i (c :: cs) = literals q i cs := by
  rw [literals, if_neg hq, if_neg hi]

/-- A text without quotes. -/
def QuoteFree (q i : α) (s : List α) : Prop := ∀ c ∈ s, c ≠ q ∧ c ≠ i

instance (q i : α) (s : List α) : Decidable (QuoteFree q i s) :=
  inferInstanceAs (Decidable (∀ c ∈ s, c ≠ q ∧ c ≠ i))

omit [DecidableEq α] in
theorem quoteFree_append {s t : List α} : QuoteFree q i (s ++ t) ↔
    QuoteFree q i s ∧ QuoteFree q i t :=
  forall_mem_append

theorem literals_append_of_quoteFree {s : List α} (h : QuoteFree q i s) (rest : List α) :
    literals q i (s ++ rest) = literals q i rest := by
  induction s with
  | nil => rfl
  | cons c cs ih =>
    have hc := h c mem_cons_self
    rw [cons_append, literals_cons hc.1 hc.2, ih (forall_mem_cons.mp h).2]

theorem count_of_quoteFree {s : List α} (h : QuoteFree q i s) : s.count q = 0 :=
  count_eq_zero.mpr fun hmem => (h q hmem).1 rfl

/-- The text has no literal and all its identifiers end; `inside` says that it starts in one. A
doubled quote ends an identifier and starts the next. -/
def literalFree (q i : α) : Bool → List α → Bool
  | inside, [] => !inside
  | false, c :: cs => c ≠ q && literalFree q i (c = i) cs
  | true, c :: cs => literalFree q i (c ≠ i) cs

/-! ## Doubled bodies -/

theorem readQuoted_doubled_append (body rest : List α) : readQuoted q (doubled q body ++ rest) =
      (readQuoted q rest).map fun r => (body ++ r.1, r.2) := by
  induction body with
  | nil => simp [doubled]
  | cons c cs ih =>
    by_cases hc : c = q
    · subst hc
      simp [doubled, readQuoted_quote_quote, ih, Function.comp_def]
    · simp [doubled, hc, readQuoted_cons_of_ne hc, ih, Function.comp_def]

theorem count_doubled_self (body : List α) : (doubled q body).count q = 2 * body.count q := by
  induction body with
  | nil => rfl
  | cons c cs ih =>
    by_cases hc : c = q
    · subst hc
      simp only [doubled, if_true, count_cons_self]
      omega
    · simp [doubled, hc, ih]

theorem count_doubled_of_ne (hqi : i ≠ q) (body : List α) :
    (doubled i body).count q = body.count q := by
  induction body with
  | nil => rfl
  | cons c cs ih =>
    by_cases hc : c = i
    · subst hc
      simp [doubled, hqi, ih]
    · simp [doubled, hc, count_cons, ih]

theorem literals_literal {rest : List α} (h : NotHead q rest) (v : List α) :
    literals q i (q :: doubled q v ++ q :: rest) = (literals q i rest).map (v :: ·) := by
  rw [cons_append, literals_quote, readQuoted_doubled h]
  rfl

/-- The end of an identifier. What follows may start with its quote: then the two are read as one
identifier. -/
theorem literals_identifier_end (hqi : i ≠ q) (rest : List α) :
    ((readQuoted i (i :: rest)).bind fun r => literals q i r.2) = literals q i rest := by
  by_cases h : NotHead i rest
  · rw [readQuoted_close h]
    rfl
  · obtain ⟨cs, rfl⟩ : ∃ cs, rest = i :: cs := by
      cases rest with
      | nil => exact absurd (notHead_nil i) h
      | cons c cs =>
        rw [notHead_cons, not_not] at h
        exact ⟨cs, by rw [h]⟩
    rw [readQuoted_quote_quote, literals_identifier_quote hqi, Option.bind_map]
    rfl

theorem literals_identifier (hqi : i ≠ q) (name rest : List α) :
    literals q i (i :: doubled i name ++ i :: rest) = literals q i rest := by
  rw [cons_append, literals_identifier_quote hqi, readQuoted_doubled_append, Option.bind_map]
  exact literals_identifier_end hqi rest

theorem literals_append_of_literalFree (hqi : i ≠ q) (rest : List α) (inside : Bool) {s : List α}
    (h : literalFree q i inside s) :
    (if inside then (readQuoted i (s ++ rest)).bind fun r => literals q i r.2
      else literals q i (s ++ rest)) = literals q i rest := by
  induction s generalizing inside with
  | nil =>
    cases inside with
    | false => rfl
    | true => cases h
  | cons c cs ih =>
    cases inside with
    | false =>
      simp only [literalFree, Bool.and_eq_true, decide_eq_true_iff] at h
      have hcs := ih _ h.2
      by_cases hc : c = i
      · subst hc
        simpa [literals_identifier_quote hqi] using hcs
      · simpa [hc, literals_cons h.1 hc] using hcs
    | true =>
      have hcs := ih _ h
      by_cases hc : c = i
      · subst hc
        simpa [literals_identifier_end hqi] using hcs
      · simpa [hc, readQuoted_cons_of_ne hc, Option.bind_map, Function.comp_def] using hcs

/-! ## The quotes a text needs -/

/-- The quotes of some literals: two around each, and two for each quote inside. -/
def demand (q : α) (vs : List (List α)) : Nat := (vs.map fun v => 2 + 2 * v.count q).sum

@[simp] theorem demand_nil : demand q [] = 0 := rfl

@[simp] theorem demand_cons (v : List α) (vs : List (List α)) :
    demand q (v :: vs) = 2 + 2 * v.count q + demand q vs := rfl

@[simp] theorem demand_append (vs ws : List (List α)) :
    demand q (vs ++ ws) = demand q vs + demand q ws := by
  simp [demand]

theorem demand_le_count {s : List α} {vs : List (List α)} (h : literals q i s = some vs) :
    demand q vs ≤ s.count q := by
  induction hn : s.length using Nat.strongRecOn generalizing s vs with
  | ind n ih =>
    match s with
    | [] =>
      rw [literals_nil] at h
      cases h
      exact Nat.le_refl 0
    | c :: cs =>
      rw [length_cons] at hn
      by_cases hq : c = q
      · subst hq
        rw [literals_quote] at h
        obtain ⟨r, hr, h⟩ := Option.bind_eq_some_iff.mp h
        obtain ⟨ws, hws, rfl⟩ := Option.map_eq_some_iff.mp h
        have hlen := length_lt_of_readQuoted hr
        have hrest := ih r.2.length (by omega) hws rfl
        rw [eq_doubled_of_readQuoted hr, demand_cons, count_cons_self, count_append,
          count_cons_self, count_doubled_self]
        omega
      · by_cases hi : c = i
        · subst hi
          rw [literals_identifier_quote hq] at h
          obtain ⟨r, hr, h⟩ := Option.bind_eq_some_iff.mp h
          have hlen := length_lt_of_readQuoted hr
          have hrest := ih r.2.length (by omega) h rfl
          rw [eq_doubled_of_readQuoted hr, count_cons_of_ne hq, count_append, count_cons_of_ne hq]
          omega
        · rw [literals_cons hq hi] at h
          rw [count_cons_of_ne hq]
          exact ih cs.length (by omega) h rfl

/-! ## Pieces of text -/

/-- A piece of a text that stands for the literals `vs`.

* If `ok`, it is read as these literals. An `opened` piece may end with a literal; then what follows
  must not start with a quote.
* If `counted`, it has no more quotes than the literals need, and if it is not `ok`, it has
  fewer. -/
structure Reads (q i : α) (counted ok opened : Bool) (s : List α) (vs : List (List α)) : Prop where
  read : ok = true → ∀ rest, (opened = true → NotHead q rest) →
    literals q i (s ++ rest) = (literals q i rest).map (vs ++ ·)
  count : counted = true → s.count q ≤ demand q vs
  lost : counted = true → ok = false → s.count q < demand q vs

namespace Reads

variable {counted counted' ok ok' opened : Bool} {s t : List α} {vs ws : List (List α)}

theorem free (h : QuoteFree q i s) : Reads q i true true false s [] where
  read _ rest _ := by
    rw [literals_append_of_quoteFree h]
    simp
  count _ := Nat.le_of_eq (count_of_quoteFree h)
  lost _ hok := nomatch hok

theorem identifier (hqi : i ≠ q) (name : List α) :
    Reads q i (decide (q ∉ name)) true false (i :: doubled i name ++ [i]) [] where
  read _ rest _ := by
    rw [append_assoc, singleton_append, literals_identifier hqi]
    simp
  count hname := by
    rw [count_append, count_cons_of_ne hqi, count_doubled_of_ne hqi,
      count_eq_zero.mpr (of_decide_eq_true hname), count_cons_of_ne hqi]
    exact Nat.le_refl _
  lost _ hok := nomatch hok

theorem literalFree (hqi : i ≠ q) (h : Lib.literalFree q i false s) :
    Reads q i (decide (q ∉ s)) true false s [] where
  read _ rest _ := by
    rw [show Lib.literals q i (s ++ rest) = _ from literals_append_of_literalFree hqi rest false h]
    simp
  count hs := Nat.le_of_eq (count_eq_zero.mpr (of_decide_eq_true hs))
  lost _ hok := nomatch hok

theorem literal (v : List α) : Reads q i true true true (q :: doubled q v ++ [q]) [v] where
  read _ rest hrest := by
    rw [append_assoc, singleton_append, literals_literal (hrest rfl)]
    rfl
  count _ := by
    simp only [count_append, count_cons_self, count_doubled_self, demand_cons, count_nil]
    omega
  lost _ hok := nomatch hok

theorem undoubled (v : List α) : Reads q i true (decide (q ∉ v)) true (q :: v ++ [q]) [v] where
  read hv rest hrest := by
    have := literals_literal (i := i) (hrest rfl) v
    rw [doubled_of_not_mem (of_decide_eq_true hv)] at this
    rw [append_assoc, singleton_append, this]
    rfl
  count _ := by
    simp only [count_append, count_cons_self, demand_cons, count_nil]
    omega
  lost _ hv := by
    have hpos : 0 < v.count q := by simpa using hv
    simp only [count_append, count_cons_self, demand_cons, count_nil]
    omega

theorem bare (v : List α) : Reads q i true false opened v [v] where
  read hok := nomatch hok
  count _ := by
    rw [demand_cons]
    omega
  lost _ _ := by
    rw [demand_cons]
    omega

theorem weaken (h : Reads q i counted ok opened s vs) : Reads q i counted ok true s vs :=
  ⟨fun hok rest hrest => h.read hok rest fun _ => hrest rfl, h.count, h.lost⟩

theorem append (h : Reads q i counted ok false s vs) (h' : Reads q i counted' ok' opened t ws) :
    Reads q i (counted && counted') (ok && ok') opened (s ++ t) (vs ++ ws) where
  read hok rest hrest := by
    rw [Bool.and_eq_true] at hok
    rw [append_assoc, h.read hok.1 _ nofun, h'.read hok.2 _ hrest]
    simp [Function.comp_def]
  count hctd := by
    rw [Bool.and_eq_true] at hctd
    rw [count_append, demand_append]
    exact Nat.add_le_add (h.count hctd.1) (h'.count hctd.2)
  lost hctd hok := by
    rw [Bool.and_eq_true] at hctd
    rw [count_append, demand_append]
    rcases (Bool.and_eq_false_iff).mp hok with hok | hok
    · exact Nat.add_lt_add_of_lt_of_le (h.lost hctd.1 hok) (h'.count hctd.2)
    · exact Nat.add_lt_add_of_le_of_lt (h.count hctd.1) (h'.lost hctd.2 hok)

theorem prepend (h : Reads q i counted ok opened t vs) (hs : QuoteFree q i s) :
    Reads q i counted ok opened (s ++ t) vs := by
  have := (free hs).append h
  rwa [Bool.true_and] at this

section

variable (h : Reads q i counted ok opened s vs)

include h

theorem close {c : α} (hc : QuoteFree q i (c :: t)) :
    Reads q i counted ok false (s ++ c :: t) vs where
  read hok rest _ := by
    have hhead : NotHead q (c :: t ++ rest) := notHead_cons.mpr (hc c mem_cons_self).1
    rw [append_assoc, h.read hok _ fun _ => hhead, literals_append_of_quoteFree hc]
  count hctd := by
    rw [count_append, count_of_quoteFree hc]
    exact h.count hctd
  lost hctd hok := by
    rw [count_append, count_of_quoteFree hc]
    exact h.lost hctd hok

theorem literals_eq (hok : ok) : literals q i s = some vs := by
  have := h.read hok [] fun _ => notHead_nil q
  rwa [append_nil, literals_nil, Option.map_some, append_nil] at this

theorem ok_of_literals (hctd : counted) (hread : literals q i s = some vs) : ok := by
  by_contra hok
  have hlt := h.lost hctd (Bool.eq_false_iff.mpr hok)
  have hle := demand_le_count hread
  omega

end

end Reads

end Matador.Lib
