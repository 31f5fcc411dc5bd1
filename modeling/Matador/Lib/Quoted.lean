import Mathlib

/-!
# Quoted tokens with doubled quotes

A quoted token is a body between two quote characters. Inside the body the closing quote `q` is
written twice (`doubled`), and the token ends at the first `q` that is not followed by another `q`
(`readQuoted`).

The two fit together when the text after the token does not start with `q`. A body that is written
without doubling is read back as itself only if it contains no `q` at all.
-/

namespace Matador.Lib

open List Option

variable {α : Type*}

/-- `rest` does not start with `q`. -/
def NotHead (q : α) (rest : List α) : Prop := rest.head? ≠ some q

theorem notHead_nil (q : α) : NotHead q [] := by simp [NotHead]

variable {q : α} {rest : List α}

theorem notHead_cons {c : α} : NotHead q (c :: rest) ↔ c ≠ q := by
  simp [NotHead]

variable [DecidableEq α]

/-- Every occurrence of `q` doubled. -/
def doubled (q : α) : List α → List α
  | [] => []
  | c :: cs => if c = q then q :: q :: doubled q cs else c :: doubled q cs

/-- The body of a quoted token, read up to the first `q` not followed by another `q`. -/
def readQuoted (q : α) : List α → Option (List α × List α)
  | [] => none
  | [c] => if c = q then some ([], []) else none
  | c :: d :: cs =>
    if c = q then
      if d = q then (readQuoted q cs).map fun r => (q :: r.1, r.2) else some ([], d :: cs)
    else (readQuoted q (d :: cs)).map fun r => (c :: r.1, r.2)

variable {body : List α}

theorem doubled_of_not_mem (h : q ∉ body) : doubled q body = body := by
  induction body with
  | nil => rfl
  | cons c cs ih =>
    simp only [mem_cons, not_or] at h
    rw [doubled, if_neg (Ne.symm h.1), ih h.2]

theorem readQuoted_close (h : NotHead q rest) : readQuoted q (q :: rest) = some ([], rest) := by
  cases rest with
  | nil => simp [readQuoted]
  | cons d ds => simp [readQuoted, notHead_cons.mp h]

theorem readQuoted_quote_quote (q : α) (cs : List α) :
    readQuoted q (q :: q :: cs) = (readQuoted q cs).map fun r => (q :: r.1, r.2) := by
  simp [readQuoted]

theorem readQuoted_cons_of_ne {c : α} (h : c ≠ q) (cs : List α) :
    readQuoted q (c :: cs) = (readQuoted q cs).map fun r => (c :: r.1, r.2) := by
  cases cs with
  | nil | cons _ _ => simp [readQuoted, h]

/-- **Reading undoes doubling.** -/
theorem readQuoted_doubled (h : NotHead q rest) (body : List α) :
    readQuoted q (doubled q body ++ q :: rest) = some (body, rest) := by
  induction body with
  | nil => exact readQuoted_close h
  | cons c cs ih =>
    by_cases hc : c = q
    · subst hc
      simp [doubled, readQuoted_quote_quote, ih]
    · simp [doubled, hc, readQuoted_cons_of_ne hc, ih]

theorem readQuoted_plain (h : NotHead q rest) (hb : q ∉ body) :
    readQuoted q (body ++ q :: rest) = some (body, rest) := by
  have := readQuoted_doubled h body
  rwa [doubled_of_not_mem hb] at this

theorem eq_doubled_of_readQuoted : ∀ {cs body rest : List α},
    readQuoted q cs = some (body, rest) → cs = doubled q body ++ q :: rest := by
  intro cs
  induction cs using readQuoted.induct q with
  | case1 => intro body rest h; simp [readQuoted] at h
  | case2 => intro body rest h; simp_all [readQuoted, doubled]
  | case3 c hc => intro body rest h; simp [readQuoted, hc] at h
  | case4 cs ih =>
    intro body rest h
    rw [readQuoted_quote_quote] at h
    obtain ⟨⟨b, r⟩, hr, heq⟩ := map_eq_some_iff.mp h
    obtain ⟨rfl, rfl⟩ := Prod.mk.inj heq
    simp [doubled, ih hr]
  | case5 d cs hd =>
    intro body rest h
    rw [readQuoted_close (notHead_cons.mpr hd)] at h
    obtain ⟨rfl, rfl⟩ := Prod.mk.inj (some.inj h)
    rfl
  | case6 c d cs hc ih =>
    intro body rest h
    rw [readQuoted_cons_of_ne hc] at h
    obtain ⟨⟨b, r⟩, hr, heq⟩ := map_eq_some_iff.mp h
    obtain ⟨rfl, rfl⟩ := Prod.mk.inj heq
    simp [doubled, hc, ih hr]

theorem length_lt_of_readQuoted {cs : List α} {r : List α × List α}
    (h : readQuoted q cs = some r) : r.2.length < cs.length := by
  rw [eq_doubled_of_readQuoted h]
  simp only [length_append, length_cons]
  omega

/-- A surplus of quotes on the doubled side is never made up for by the raw side. -/
theorem raw_ne_doubled {rest' : List α} (h : NotHead q rest) : ∀ (body : List α) (n : Nat),
      body ++ q :: rest ≠ replicate (n + 1) q ++ (doubled q body ++ q :: rest') := by
  intro body
  induction body with
  | nil =>
    intro n heq
    -- the raw side has one quote, the other at least two
    simp only [nil_append, replicate_succ, cons_append, cons.injEq, true_and] at heq
    cases n with
    | zero | succ _ => exact h (by rw [heq]; rfl)
  | cons c cs ih =>
    intro n heq
    simp only [replicate_succ, cons_append, cons.injEq] at heq
    obtain ⟨rfl, heq⟩ := heq
    refine ih (n + 1) ?_
    rw [heq, doubled, if_pos rfl, replicate_succ', replicate_succ', append_assoc, append_assoc]
    rfl

/-- **A quote inside an undoubled body is never read back.** -/
theorem readQuoted_raw_ne {rest' : List α} (h : NotHead q rest)
    (hb : q ∈ body) : readQuoted q (body ++ q :: rest) ≠ some (body, rest') := by
  intro hread
  have heq := eq_doubled_of_readQuoted hread
  clear hread
  induction body with
  | nil => simp at hb
  | cons c cs ih =>
    by_cases hc : c = q
    · subst hc
      simp only [doubled, if_pos, cons_append, cons.injEq, true_and] at heq
      exact raw_ne_doubled h cs 0 heq
    · simp only [doubled, if_neg hc, cons_append, cons.injEq, true_and] at heq
      exact ih ((mem_cons.mp hb).resolve_left (Ne.symm hc)) heq

end Matador.Lib
