import Mathlib

/-!
# Messages that arrive in pieces

A reader is given a message in one or more calls. The head is read by a machine, one character after
the other, until the machine says that it has ended. The head tells how much is missing of the body,
and what follows is added to it until nothing is missing.
-/

namespace Matador.Lib

open List

/-- What a machine says about a character. -/
inductive Verdict
  | accept
  | reject
  | finish
  | throw
  deriving DecidableEq, Repr

/-- What a call returns, or that it throws. -/
inductive Outcome
  | invalid
  | more
  | finish
  | thrown
  deriving DecidableEq, Repr

structure Reader (α σ : Type) where
  /-- What is done at the start of a call. -/
  enter : σ → σ
  /-- The characters that end a call in the head. -/
  stop : α → Bool
  step : α → σ → Verdict × σ
  inBody : σ → Bool
  /-- Whether the message may have a body. -/
  hasBody : σ → Bool
  /-- How much is missing of the body, if this can be said. -/
  missing : σ → Option Nat
  append : List α → σ → σ
  complete : σ → σ
  /-- What is done with a body that is not expected. -/
  assign : List α → σ → σ
  /-- What is done at the end of a message. -/
  leave : σ → σ

namespace Reader

variable {α σ : Type} (R : Reader α σ)

/-- The loop over the head: the last verdict, the state, and what has not been read. -/
def scan : List α → σ → Verdict × σ × List α
  | [], s => (.accept, s, [])
  | c :: cs, s =>
    if R.stop c then (.accept, s, [])
    else
      match R.step c s with
      | (.accept, s') => scan cs s'
      | (v, s') => (v, s', cs)

def readBody (result : Outcome) (rest : List α) (s : σ) : Outcome × σ :=
  if R.hasBody s then
    match R.missing s with
    | none => (.thrown, s)
    | some n =>
      if 0 < n then
        if rest.length = n then (.finish, R.complete (R.append rest s))
        else if rest.length < n then (.more, R.append rest s)
        else (result, R.append rest s)
      else if rest.isEmpty then (result, s)
      else (.finish, R.assign rest s)
  else (result, s)

def process (msg : List α) (s : σ) : Outcome × σ :=
  if R.inBody s then R.readBody .more msg s
  else
    match R.scan msg s with
    | (.accept, s', _) => (.more, s')
    | (.reject, s', _) => (.invalid, s')
    | (.throw, s', _) => (.thrown, s')
    | (.finish, s', rest) => R.readBody .finish rest s'

def close (r : Outcome × σ) : Outcome × σ := if r.1 = .finish then (.finish, R.leave r.2) else r

def parse (msg : List α) (s : σ) : Outcome × σ := R.close (R.process msg (R.enter s))

/-- One call for each piece, up to the first that does not ask for more. -/
def feed : List (List α) → σ → Outcome × σ
  | [], s => (.more, s)
  | p :: ps, s =>
    match R.parse p s with
    | (.more, s') => feed ps s'
    | r => r

/-- Calls, one after the other: their outcomes, with what `out` shows of the states, and the last
state. -/
def calls {β : Type} (out : σ → β) : List (List α) → σ → List (Outcome × β) × σ
  | [], s => ([], s)
  | p :: ps, s =>
    (((R.parse p s).1, out (R.parse p s).2) :: (calls out ps (R.parse p s).2).1,
      (calls out ps (R.parse p s).2).2)

/-- Messages, one after the other: each is given in calls of its own, behind `renew`. -/
def talk {β : Type} (out : σ → β) (renew : σ → σ) :
    List (List (List α)) → σ → List (List (Outcome × β))
  | [], _ => []
  | ps :: pss, s => (R.calls out ps (renew s)).1 :: talk out renew pss (R.calls out ps (renew s)).2

/-- No character ends a call within the head. -/
def Passes (s : σ) (text : List α) : Prop :=
  ∀ u c v, u ++ c :: v = text → (R.scan u s).1 = .accept → R.stop c = false

/-- No beginning of the text is a message, and no character ends a call within the head. -/
structure Single (s : σ) (text : List α) : Prop where
  stop : R.Passes s text
  finish : ∀ u v, u ++ v = text → v ≠ [] → (R.process u s).1 ≠ .finish

variable {R}

theorem close_fst (r : Outcome × σ) : (R.close r).1 = r.1 := by
  unfold close
  split
  · next h => exact h.symm
  · rfl

theorem parse_of_calls {β : Type} {out : σ → β} {p : List α} {s t : σ}
    (h : (R.calls out [p] s).1 = (R.calls out [p] t).1) :
    (R.parse p s).1 = (R.parse p t).1 ∧ out (R.parse p s).2 = out (R.parse p t).2 :=
  Prod.ext_iff.mp (cons.inj h).1

theorem calls_finish {β : Type} {out : σ → β} {ps : List (List α)} {s : σ} {os : List Outcome}
    (h : (R.calls out ps s).1.map Prod.fst = os ++ [.finish]) :
    ∃ t, (R.calls out ps s).2 = R.leave t := by
  induction ps generalizing s os with
  | nil => simp [calls] at h
  | cons p ps ih =>
    cases os with
    | cons o os => exact ih (cons.inj h).2
    | nil =>
      obtain ⟨hp, hps⟩ := cons.inj h
      obtain rfl : ps = [] := by
        cases ps with
        | nil => rfl
        | cons q ps => cases hps
      exact ⟨_, congrArg Prod.snd (show R.parse p s = _ from if_pos ((close_fst _).symm.trans hp))⟩

theorem close_of_ne {r : Outcome × σ} (h : r.1 ≠ .finish) : R.close r = r := if_neg h

variable {s : σ}

theorem not_finish_of_take {text : List α}
    (h : ∀ n < text.length, (R.parse (text.take n) s).1 ≠ .finish) (u v : List α)
    (huv : u ++ v = text) (hv : v ≠ []) : (R.parse u s).1 ≠ .finish := by
  subst huv
  have hlt : u.length < (u ++ v).length := by simpa using length_pos_of_ne_nil hv
  have hu := h u.length hlt
  rwa [take_left] at hu

variable {u : List α}

theorem Passes.of_append {v : List α} (h : R.Passes s (u ++ v)) : R.Passes s u :=
  fun w c x hwx => h w c (x ++ v) (by rw [← hwx, append_assoc, cons_append])

theorem Single.of_append {v : List α} (h : R.Single s (u ++ v)) : R.Single s u where
  stop := h.stop.of_append
  finish w x hwx hx := h.finish w (x ++ v) (by rw [← append_assoc, hwx]) (by simp [hx])

theorem feed_cons_of_more {s' : σ} {p : List α} (ps : List (List α))
    (h : R.parse p s = (.more, s')) : R.feed (p :: ps) s = R.feed ps s' := by
  rw [feed, h]

theorem feed_cons_of_ne {p : List α} (ps : List (List α)) (h : (R.parse p s).1 ≠ .more) :
    R.feed (p :: ps) s = R.parse p s := by
  rw [feed]
  split
  · next heq => exact absurd (congrArg Prod.fst heq) h
  · rfl

theorem calls_snd {β : Type} {out : σ → β} {ps : List (List α)}
    (h : ∀ qs rs, ps = qs ++ rs → rs ≠ [] → (R.feed qs s).1 = .more) :
    (R.calls out ps s).2 = (R.feed ps s).2 := by
  induction ps generalizing s with
  | nil => rfl
  | cons p ps ih =>
    rw [calls]
    by_cases hmore : (R.parse p s).1 = .more
    · have hp : R.parse p s = (.more, (R.parse p s).2) := Prod.ext hmore rfl
      rw [feed_cons_of_more ps hp]
      refine ih fun qs rs hps hrs => ?_
      rw [← feed_cons_of_more qs hp]
      exact h (p :: qs) rs (by rw [hps]; rfl) hrs
    · -- then it is the last one
      obtain rfl : ps = [] := by
        by_contra hps
        have hfst := h [p] ps rfl hps
        rw [feed_cons_of_ne [] hmore] at hfst
        exact hmore hfst
      rw [feed_cons_of_ne [] hmore]
      rfl

theorem Passes.head {c : α} (h : R.Passes s (c :: u)) : ¬ R.stop c := by
  simp [h [] c u rfl rfl]

theorem Passes.tail {c : α} {s' : σ} (h : R.Passes s (c :: u))
    (hstep : R.step c s = (.accept, s')) : R.Passes s' u := by
  intro v d w hvw hv
  refine h (c :: v) d w (congrArg (c :: ·) hvw) ?_
  rwa [scan, if_neg h.head, hstep]

theorem scan_append (hstop : R.Passes s u) (v : List α) : R.scan (u ++ v) s = match R.scan u s with
      | (.accept, s', _) => R.scan v s'
      | (w, s', rest) => (w, s', rest ++ v) := by
  induction u generalizing s with
  | nil => rfl
  | cons c u ih =>
    rw [cons_append, scan, scan, if_neg hstop.head, if_neg hstop.head]
    match hstep : R.step c s with
    | (.accept, s') => exact ih (hstop.tail hstep)
    | (.reject, s') => rfl
    | (.finish, s') => rfl
    | (.throw, s') => rfl

theorem passes_of_finish {t : σ} (h : R.scan u s = (.finish, t, [])) (v : List α) :
    R.Passes s (u ++ v) := by
  induction u generalizing s with
  | nil => cases h
  | cons c u ih =>
    rw [scan] at h
    split at h
    · cases h
    · next hc =>
      intro w d x hwx hw
      cases w with
      | nil =>
        obtain ⟨rfl, -⟩ := cons.inj hwx
        simpa using hc
      | cons c' w =>
        obtain ⟨rfl, htail⟩ := cons.inj hwx
        rw [scan, if_neg hc] at hw
        match hstep : R.step c' s, h, hw with
        | (.accept, s'), h, hw => exact ih h w d x htail hw

variable {rest : List α}

/-- What accepted characters preserve holds at the end of the text, or before the character at which
the loop is left. -/
theorem scan_cases (Inv : List α → σ → Prop)
    (hstep : ∀ c u s s', Inv u s → R.step c s = (.accept, s') → Inv (u ++ [c]) s') (u₀ : List α)
    (h₀ : Inv u₀ s) (hstop : R.Passes s u) :
    (∃ t, R.scan u s = (.accept, t, []) ∧ Inv (u₀ ++ u) t) ∨
    ∃ v t u' c s' rest, R.scan u s = (v, t, rest) ∧
      v ≠ .accept ∧ u = u' ++ c :: rest ∧ Inv (u₀ ++ u') s' ∧ R.step c s' = (v, t) := by
  induction u generalizing u₀ s with
  | nil => exact .inl ⟨s, rfl, by rwa [append_nil]⟩
  | cons c u ih =>
    rw [scan, if_neg hstop.head]
    match hc' : R.step c s with
    | (.accept, s') =>
      rcases ih _ (hstep c u₀ s s' h₀ hc') (hstop.tail hc') with
        ⟨t, ht, hinv⟩ | ⟨v, t, u', c', s'', rest, ht, hv, rfl, hinv, hs''⟩
      · exact .inl ⟨t, ht, by rwa [append_assoc] at hinv⟩
      · exact .inr ⟨v, t, c :: u', c', s'', rest, ht, hv, rfl, by rwa [append_assoc] at hinv, hs''⟩
    | (.reject, _) | (.finish, _) | (.throw, _) =>
      exact .inr ⟨_, _, [], c, s, u, rfl, nofun, rfl, by rwa [append_nil], hc'⟩

theorem readBody_full {result : Outcome} (hbody : R.hasBody s)
    (hmis : R.missing s = some rest.length) (hrest : rest ≠ []) :
    R.readBody result rest s = (.finish, R.complete (R.append rest s)) := by
  unfold readBody
  rw [if_pos hbody, hmis]
  simp only [if_pos (length_pos_of_ne_nil hrest), if_true]

theorem readBody_nil {result : Outcome} (hmis : R.missing s = some 0) :
    R.readBody result [] s = (result, s) := by
  unfold readBody
  rw [hmis]
  split <;> rfl

theorem readBody_part {result : Outcome} {n : Nat} (hbody : R.hasBody s) (hn : R.missing s = some n)
    (hrest : rest.length < n) : R.readBody result rest s = (.more, R.append rest s) := by
  unfold readBody
  rw [if_pos hbody, hn]
  simp only [if_pos (Nat.zero_lt_of_lt hrest), if_neg (Nat.ne_of_lt hrest), if_pos hrest]

theorem single_of_finish {t : σ} {n : Nat} (hs : R.inBody s = false)
    (h : R.scan u s = (.finish, t, [])) (hbody : R.hasBody t) (hn : R.missing t = some n)
    (hrest : rest.length ≤ n) : R.Single s (u ++ rest) where
  stop := passes_of_finish h rest
  finish v w hvw hw hfin := by
    have hpart (x y : List α) (hxy : x ++ y = rest) (hy : y ≠ []) :
        (R.readBody .finish x t).1 ≠ .finish := by
      have := length_pos_of_ne_nil hy
      rw [← hxy, length_append] at hrest
      simp [readBody_part hbody hn (show x.length < n by omega)]
    rw [process, if_neg (by simp [hs])] at hfin
    have hstop := passes_of_finish h rest
    rw [← hvw] at hstop
    rcases append_eq_append_iff.mp hvw with ⟨x, rfl, rfl⟩ | ⟨x, rfl, rfl⟩
    · rw [scan_append hstop.of_append] at h
      match hv : R.scan v s, h, hfin with
      | (.finish, s', r), h, hfin =>
        simp only [Prod.mk.injEq, append_eq_nil_iff, true_and] at h
        obtain ⟨rfl, rfl, rfl⟩ := h
        exact hpart [] rest rfl hw hfin
    · rw [scan_append hstop.of_append.of_append, h] at hfin
      exact hpart x w rfl hw hfin

theorem readBody_finish (s : σ) :
    (R.hasBody s ∧ R.missing s = none ∧ ∀ rest, R.readBody .finish rest s = (.thrown, s)) ∨
      ∀ rest, (R.readBody .finish rest s).1 ≠ .invalid ∧
      (R.readBody .finish rest s).1 ≠ .thrown := by
  by_cases hbody : R.hasBody s
  · cases hn : R.missing s with
    | none => exact .inl ⟨hbody, rfl, fun rest => by simp [readBody, hbody, hn]⟩
    | some n =>
      refine .inr fun rest => ?_
      simp only [readBody, hn]
      split_ifs <;> exact ⟨nofun, nofun⟩
  · exact .inr fun rest => by simp [readBody, hbody]

theorem exists_step_of_throw (h : (R.scan u s).1 = .throw) :
    ∃ u' c t rest, u = u' ++ c :: rest ∧ R.scan u' s = (.accept, t, []) ∧
    (R.step c t).1 = .throw := by
  induction u generalizing s with
  | nil => cases h
  | cons c u ih =>
    rw [scan] at h
    split at h
    · cases h
    · next hc =>
      match hstep : R.step c s, h with
      | (.accept, s'), h =>
        obtain ⟨u', c', t, rest, rfl, hu', hc'⟩ := ih h
        exact ⟨c :: u', c', t, rest, rfl, by rwa [scan, if_neg hc, hstep], hc'⟩
      | (.throw, s'), _ => exact ⟨[], c, s, u, rfl, rfl, by rw [hstep]⟩

/-- The body can be read in parts: what has been read is no longer missing. -/
structure Counted (R : Reader α σ) : Prop where
  append_append : ∀ p q s, R.append q (R.append p s) = R.append (p ++ q) s
  missing_append : ∀ p s n, R.missing s = some n → p.length ≤ n →
    R.missing (R.append p s) = some (n - p.length)
  hasBody_append : ∀ p s, R.hasBody (R.append p s) = R.hasBody s
  inBody_append : ∀ p s, R.inBody (R.append p s) = R.inBody s
  inBody_finish : ∀ c s s', R.step c s = (.finish, s') → R.inBody s' = true
  inBody_accept : ∀ c s s', R.step c s = (.accept, s') → R.inBody s' = false

namespace Counted

variable (hR : R.Counted) {s t : σ} {u p : List α}
include hR

theorem readBody_append {n : Nat} (hbody : R.hasBody s) (hn : R.missing s = some n)
    (hrest : rest.length < n) (hfit : rest.length + p.length ≤ n) :
    R.readBody .finish (rest ++ p) s = R.readBody .more p (R.append rest s) := by
  have hbody' : R.hasBody (R.append rest s) := by rw [hR.hasBody_append, hbody]
  have hmis := hR.missing_append rest s n hn (Nat.le_of_lt hrest)
  rw [← length_append] at hfit
  rcases Nat.lt_or_eq_of_le hfit with hlt | rfl
  · rw [readBody_part hbody hn hlt, readBody_part hbody' hmis (by simp at hlt; omega),
      hR.append_append]
  · rw [length_append, Nat.add_sub_cancel_left] at hmis
    have hp : p ≠ [] := by
      rintro rfl
      simp at hrest
    rw [readBody_full hbody hn (by simp [hp]), readBody_full hbody' hmis hp, hR.append_append]

omit hR in
theorem more_of_readBody (h : R.readBody .finish rest s = (.more, t)) :
    R.hasBody s ∧ ∃ n, R.missing s = some n ∧ rest.length < n ∧ t = R.append rest s := by
  unfold readBody at h
  split at h
  · next hbody =>
    split at h
    · cases h
    · next n hn =>
      split at h
      · split at h
        · cases h
        · split at h
          · next hlt =>
            cases h
            exact ⟨hbody, n, hn, hlt, rfl⟩
          · cases h
      · split at h <;> cases h
  · cases h

/-- **A call may be made as two, if nothing is done at the start of the second.** -/
theorem process_append (hs : R.inBody s = false) (htext : R.Single s (u ++ p))
    (h : R.process u s = (.more, t)) : R.process (u ++ p) s = R.process p t := by
  have hhead : ¬ R.inBody s := by simp [hs]
  rw [process, if_neg hhead, scan_append htext.of_append.stop]
  rw [process, if_neg hhead] at h
  rcases scan_cases (fun _ s => R.inBody s = false) (fun _ _ _ _ _ => hR.inBody_accept _ _ _) [] hs
    htext.of_append.stop with ⟨t', hu, ht'⟩ | ⟨v, s', _, c, _, rest, hu, hv, -, -, hc⟩
  · rw [hu] at h ⊢
    cases h
    rw [process, if_neg (by simp [ht'])]
  rw [hu] at h ⊢
  cases v with
  | accept => exact absurd rfl hv
  | reject | throw => cases h
  | finish =>
    obtain ⟨hbody, n, hn, hlt, rfl⟩ := more_of_readBody h
    have hin : R.inBody (R.append rest s') := by rw [hR.inBody_append, hR.inBody_finish _ _ _ hc]
    rw [process, if_pos hin]
    refine hR.readBody_append hbody hn hlt (Nat.le_of_not_lt fun hover => ?_)
    -- the message would end within `p`
    have hcut : p.take (n - rest.length) ++ p.drop (n - rest.length) = p := take_append_drop _ _
    refine htext.finish (u ++ p.take (n - rest.length)) (p.drop (n - rest.length)) ?_ ?_ ?_
    · rw [append_assoc, hcut]
    · rw [Ne, drop_eq_nil_iff]
      omega
    · rw [process, if_neg hhead, scan_append htext.of_append.stop, hu]
      have hcou : (rest ++ p.take (n - rest.length)).length = n := by
        rw [length_append, length_take]
        omega
      have hne : rest ++ p.take (n - rest.length) ≠ [] := ne_nil_of_length_pos (by omega)
      exact congrArg Prod.fst (readBody_full hbody (by rw [hn, hcou]) hne)

theorem scan_of_more (hs : R.inBody s = false) (hstop : R.Passes s u)
    (h : R.process u s = (.more, t)) (ht : R.inBody t = false) : (R.scan u s).1 = .accept := by
  by_contra hne
  rcases scan_cases (fun _ _ => True) (fun _ _ _ _ _ _ => trivial) [] trivial hstop with
    ⟨t', hu, -⟩ | ⟨v, s', _, c, _, rest, hu, hv, -, -, hc⟩
  · exact hne (by rw [hu])
  rw [process, if_neg (by simp [hs]), hu] at h
  cases v with
  | accept => exact hv rfl
  | reject | throw => cases h
  | finish =>
    obtain ⟨-, -, -, -, rfl⟩ := more_of_readBody h
    rw [hR.inBody_append, hR.inBody_finish _ _ _ hc] at ht
    cases ht

omit hR in
theorem process_append_of_stable (hstop : R.Passes s u) (hs : R.inBody s = false)
    (h : (R.process u s).1 = .invalid ∨ (R.process u s).1 = .thrown) (p : List α) :
    R.process (u ++ p) s = R.process u s := by
  have hhead : ¬ R.inBody s := by simp [hs]
  rw [process, process, if_neg hhead, if_neg hhead, scan_append hstop]
  rw [process, if_neg hhead] at h
  match hu : R.scan u s, h with
  | (.accept, s', rest), h => simp at h
  | (.reject, s', rest), h => rfl
  | (.throw, s', rest), h => rfl
  | (.finish, s', rest), h =>
    rcases readBody_finish (R := R) s' with ⟨-, -, hthr⟩ | hnei
    · simp only [hthr]
    · exact absurd h (not_or.mpr (hnei rest))

theorem process_cases (Inv : List α → σ → Prop)
    (hstep : ∀ c u s s', Inv u s → R.step c s = (.accept, s') → Inv (u ++ [c]) s') (h₀ : Inv [] s)
    (hs : R.inBody s = false) (hstop : R.Passes s u) :
    (∃ t, R.process u s = (.more, t) ∧ Inv u t) ∨ (R.process u s).1 = .invalid ∨
      (∃ u' c s' v t rest, u = u' ++ c :: rest ∧ Inv u' s' ∧ R.step c s' = (v, t) ∧
        (v = .finish ∨ v = .throw)) ∧ ∀ t, R.process u s = (.more, t) → R.inBody t := by
  have hhead : ¬ R.inBody s := by simp [hs]
  rw [process, if_neg hhead]
  rcases scan_cases Inv hstep [] h₀ hstop with ⟨t, hu, ht⟩ | ⟨v, t, u', c, s', rest, hu, hv,
    hu', hinv, hc⟩
  · rw [hu]
    exact .inl ⟨t, rfl, ht⟩
  rw [hu]
  cases v with
  | accept => exact absurd rfl hv
  | reject => exact .inr (.inl rfl)
  | throw => exact .inr (.inr ⟨⟨u', c, s', _, t, rest, hu', hinv, hc, .inr rfl⟩, nofun⟩)
  | finish =>
    refine .inr (.inr ⟨⟨u', c, s', _, t, rest, hu', hinv, hc, .inl rfl⟩, fun t' ht' => ?_⟩)
    obtain ⟨-, n, -, -, rfl⟩ := more_of_readBody ht'
    rw [hR.inBody_append, hR.inBody_finish _ _ _ hc]

omit hR in
theorem more_of_single (hs : R.inBody s = false) (htext : R.Single s (u ++ p)) (hp : p ≠ [])
    (hfin : (R.process (u ++ p) s).1 = .finish) : (R.process u s).1 = .more := by
  have hsta := process_append_of_stable (p := p) htext.of_append.stop hs
  cases hu : (R.process u s).1 with
  | more => rfl
  | finish => exact absurd hu (htext.finish u p rfl hp)
  | invalid | thrown =>
    rw [hsta (by simp [hu]), hu] at hfin
    cases hfin

omit hR in
theorem valid_of_append (hstop : R.Passes s u) (hs : R.inBody s = false)
    (h : (R.process (u ++ p) s).1 ≠ .invalid) : (R.process u s).1 ≠ .invalid := by
  intro hinv
  rw [process_append_of_stable hstop hs (.inl hinv)] at h
  exact h hinv

end Counted

/-! ## Pieces -/

/-- The same outcome, in the same state. -/
def Related {ω : Type} (Same : σ → σ → Prop) (x y : ω × σ) : Prop := x.1 = y.1 ∧ Same x.2 y.2

/-- What the start of a call may change: `Same` states are read on in the same way, and the start of
a call leads to the same state but where the state is `Torn`; from there it is rejected what was
accepted. States that are `Alike` are the same at the start of the next call. -/
structure Coherent (R : Reader α σ) (Same Alike : σ → σ → Prop) (Torn : σ → Prop) :
    Prop extends R.Counted where
  refl : ∀ s, Same s s
  alike : ∀ s t, Same s t → Alike s t
  step : ∀ c s t, Same s t → Related Same (R.step c s) (R.step c t)
  inBody : ∀ s t, Same s t → R.inBody s = R.inBody t
  hasBody : ∀ s t, Same s t → R.hasBody s = R.hasBody t
  missing : ∀ s t, Same s t → R.missing s = R.missing t
  append : ∀ p s t, Same s t → Same (R.append p s) (R.append p t)
  complete : ∀ s t, Same s t → Alike (R.complete s) (R.complete t)
  assign : ∀ p s t, Same s t → Alike (R.assign p s) (R.assign p t)
  leave : ∀ s t, Alike s t → Alike (R.leave s) (R.leave t)
  enter : ∀ s t, Same s t → ¬ Torn t → Same (R.enter s) t
  enter_alike : ∀ s t, Alike s t → Same (R.enter s) (R.enter t)
  torn : ∀ c s t, Same s t → Torn t → R.inBody t = false ∧ R.inBody (R.enter s) = false ∧
      ((R.step c t).1 = .reject ∨ (R.step c (R.enter s)).1 = .reject)

/-- The same outcome with the same message, in the same state where more is read. -/
structure Agree (Same Alike : σ → σ → Prop) (x y : Outcome × σ) : Prop where
  fst : x.1 = y.1
  alike : Alike x.2 y.2
  same : x.1 = .more → Same x.2 y.2

namespace Coherent

variable {Same Alike : σ → σ → Prop} {Torn : σ → Prop} (hR : R.Coherent Same Alike Torn) {s t : σ}
include hR

theorem agree_of_same (o : Outcome) (h : Same s t) : Agree Same Alike (o, s) (o, t) :=
  ⟨rfl, hR.alike s t h, fun _ => h⟩

theorem scan_same (u : List α) (h : Same s t) :
    (R.scan u s).1 = (R.scan u t).1 ∧ Same (R.scan u s).2.1 (R.scan u t).2.1 ∧
      (R.scan u s).2.2 = (R.scan u t).2.2 := by
  induction u generalizing s t with
  | nil => exact ⟨rfl, h, rfl⟩
  | cons c u ih =>
    unfold scan
    split
    · exact ⟨rfl, h, rfl⟩
    · obtain ⟨hver, hsta⟩ := hR.step c s t h
      match hs : R.step c s, ht : R.step c t, hver, hsta with
      | (.accept, s'), (.accept, t'), _, hsta => exact ih hsta
      | (.reject, s'), (.reject, t'), _, hsta => exact ⟨rfl, hsta, rfl⟩
      | (.finish, s'), (.finish, t'), _, hsta => exact ⟨rfl, hsta, rfl⟩
      | (.throw, s'), (.throw, t'), _, hsta => exact ⟨rfl, hsta, rfl⟩

theorem readBody_same (result : Outcome) (rest : List α) (h : Same s t) :
    Agree Same Alike (R.readBody result rest s) (R.readBody result rest t) := by
  unfold readBody
  rw [hR.hasBody s t h, hR.missing s t h]
  have happ := hR.append rest s t h
  split
  · split
    · exact hR.agree_of_same _ h
    · split
      · split
        · exact ⟨rfl, hR.complete _ _ happ, nofun⟩
        · split
          · exact hR.agree_of_same _ happ
          · exact hR.agree_of_same _ happ
      · split
        · exact hR.agree_of_same _ h
        · exact ⟨rfl, hR.assign rest s t h, nofun⟩
  · exact hR.agree_of_same _ h

theorem process_same (p : List α) (h : Same s t) :
    Agree Same Alike (R.process p s) (R.process p t) := by
  unfold process
  rw [hR.inBody s t h]
  split
  · exact hR.readBody_same .more p h
  · obtain ⟨hver, hsta, hrest⟩ := hR.scan_same p h
    match hs : R.scan p s, ht : R.scan p t, hver, hsta, hrest with
    | (.accept, s', r), (.accept, t', r'), _, hsta, _ => exact hR.agree_of_same _ hsta
    | (.reject, s', r), (.reject, t', r'), _, hsta, _ => exact hR.agree_of_same _ hsta
    | (.throw, s', r), (.throw, t', r'), _, hsta, _ => exact hR.agree_of_same _ hsta
    | (.finish, s', r), (.finish, t', r'), _, hsta, hrest =>
      cases hrest
      exact hR.readBody_same .finish r hsta

theorem close_same {x y : Outcome × σ} (h : Agree Same Alike x y) :
    Agree Same Alike (R.close x) (R.close y) := by
  unfold close
  rw [h.fst]
  split
  · exact ⟨rfl, hR.leave _ _ h.alike, nofun⟩
  · exact h

variable {s₀ : σ} {u : List α} {pieces : List (List α)}

/-- **Pieces that are not torn are read like the whole text.** The pieces behind `u` are read from a
state like the one in which a call with `u` ends. -/
theorem feed_agree (hs₀ : R.inBody s₀ = false) (hne : ∀ p ∈ pieces, p ≠ [])
    (htext : R.Single s₀ (u ++ pieces.flatten))
    (hcuts : ∀ qs rs, pieces = qs ++ rs → rs ≠ [] →
      ∀ t', R.process (u ++ qs.flatten) s₀ = (.more, t') → ¬ Torn t')
    (hu : R.process u s₀ = (.more, t)) (hst : Same s t) :
    Agree Same Alike (R.feed pieces s) (R.close (R.process (u ++ pieces.flatten) s₀)) := by
  induction pieces generalizing u s t with
  | nil =>
    rw [flatten_nil, append_nil, hu]
    exact hR.agree_of_same .more hst
  | cons p ps ih =>
    have htorn : ¬ Torn t := hcuts [] (p :: ps) rfl (by simp) t (by simpa using hu)
    have hspl : u ++ (p :: ps).flatten = (u ++ p) ++ ps.flatten := by simp
    rw [hspl] at htext ⊢
    have hcall := hR.process_same p (hR.enter s t hst htorn)
    rw [← hR.process_append hs₀ htext.of_append hu] at hcall
    have hclo : Agree Same Alike (R.parse p s) _ := hR.close_same hcall
    match hwhl : R.process (u ++ p) s₀, hclo with
    | (.more, t'), hclo =>
      rw [feed_cons_of_more ps (Prod.ext hclo.fst rfl : R.parse p s = (.more, (R.parse p s).2))]
      refine ih (forall_mem_cons.mp hne).2 htext ?_ hwhl (hclo.same hclo.fst)
      intro qs rs heq hrs t'' ht''
      refine hcuts (p :: qs) rs (by rw [heq]; rfl) hrs t'' ?_
      rw [flatten_cons, ← append_assoc]
      exact ht''
    | (.finish, t'), hclo =>
      -- the text ends here
      have hlast : ps.flatten = [] := by
        by_contra hps
        exact htext.finish (u ++ p) ps.flatten rfl hps (by rw [hwhl])
      rw [feed_cons_of_ne ps (by rw [hclo.fst]; exact Outcome.noConfusion), hlast, append_nil, hwhl]
      exact hclo
    | (.invalid, t'), hclo | (.thrown, t'), hclo =>
      rw [feed_cons_of_ne ps (by rw [hclo.fst]; exact Outcome.noConfusion),
        Counted.process_append_of_stable htext.of_append.stop hs₀ (by simp [hwhl]), hwhl]
      exact hclo

omit hR in
theorem more_of_append {v w : List α} (hs₀ : R.inBody s₀ = false)
    (htext : R.Single s₀ (u ++ v ++ w)) (hw : w ≠ []) (h : (R.process (u ++ v) s₀).1 = .more) :
    (R.process u s₀).1 = .more := by
  have hsta := Counted.process_append_of_stable (p := v) htext.of_append.of_append.stop hs₀
  cases hu : (R.process u s₀).1 with
  | more => rfl
  | finish => exact absurd hu (htext.finish u (v ++ w) (append_assoc u v w).symm (by simp [hw]))
  | invalid | thrown =>
    rw [hsta (by simp [hu]), hu] at h
    cases h

omit hR in
theorem process_of_reject {c : α} (p : List α) (hs : R.inBody s = false) (hc : R.stop c = false)
    (h : (R.step c s).1 = .reject) : (R.process (c :: p) s).1 = .invalid := by
  rw [process, if_neg (by simp [hs]), scan, if_neg (by simp [hc])]
  match hstep : R.step c s, h with
  | (.reject, s'), _ => rfl

/-- **A text that is torn is rejected**, unless it is rejected anyway. -/
theorem feed_torn (hs₀ : R.inBody s₀ = false) (hne : ∀ p ∈ pieces, p ≠ [])
    (htext : R.Single s₀ (u ++ pieces.flatten)) {qs rs : List (List α)} (hpcs : pieces = qs ++ rs)
    (hrs : rs ≠ []) {t' : σ} (hcut : R.process (u ++ qs.flatten) s₀ = (.more, t')) (htorn : Torn t')
    (hwhl : (R.process (u ++ pieces.flatten) s₀).1 ≠ .invalid)
    (hu : R.process u s₀ = (.more, t)) (hst : Same s t) : (R.feed pieces s).1 = .invalid := by
  induction pieces generalizing u s t qs with
  | nil => exact absurd (append_eq_nil_iff.mp hpcs.symm).2 hrs
  | cons p ps ih =>
    have hspl : u ++ (p :: ps).flatten = (u ++ p) ++ ps.flatten := by simp
    by_cases htt : Torn t
    · obtain ⟨c, p', rfl⟩ := exists_cons_of_ne_nil (hne p mem_cons_self)
      obtain ⟨ht, hs, hstep⟩ := hR.torn c s t hst htt
      have hc : R.stop c = false :=
        htext.stop u c (p' ++ ps.flatten) (by simp) (hR.scan_of_more hs₀ htext.of_append.stop hu ht)
      rw [hR.process_append hs₀ htext hu] at hwhl
      have hrej : (R.step c (R.enter s)).1 = .reject :=
        hstep.resolve_left fun h => hwhl (process_of_reject (p' ++ ps.flatten) ht hc h)
      have hpar : (R.parse (c :: p') s).1 = .invalid :=
        (close_fst _).trans (process_of_reject p' hs hc hrej)
      rw [feed_cons_of_ne ps (by rw [hpar]; exact Outcome.noConfusion), hpar]
    · match qs with
      | [] =>
        rw [flatten_nil, append_nil, hu] at hcut
        cases hcut
        exact absurd htorn htt
      | q :: qs =>
        obtain ⟨rfl, hps⟩ := cons.inj (hpcs.trans cons_append)
        subst hps
        rw [hspl] at htext hwhl
        rw [flatten_cons, ← append_assoc] at hcut
        have hcall : Agree Same Alike (R.parse p s) _ :=
          hR.close_same (hR.process_same p (hR.enter s t hst htt))
        rw [← hR.process_append hs₀ htext.of_append hu] at hcall
        have hrest : rs.flatten ≠ [] := by
          obtain ⟨r, rs, rfl⟩ := exists_cons_of_ne_nil hrs
          simp [hne r (by simp)]
        have hmore : (R.process (u ++ p) s₀).1 = .more := by
          refine more_of_append hs₀ ?_ hrest (congrArg Prod.fst hcut)
          rwa [flatten_append, ← append_assoc] at htext
        rw [close_of_ne (by rw [hmore]; exact Outcome.noConfusion)] at hcall
        rw [feed_cons_of_more _ (Prod.ext (hcall.fst.trans hmore) rfl : R.parse p s =
          (.more, (R.parse p s).2))]
        exact ih (forall_mem_cons.mp hne).2 htext rfl hcut hwhl (Prod.ext hmore rfl)
          (hcall.same (hcall.fst.trans hmore))

/-- **The pieces of a text**, read from the start: they are read like the whole where none ends in a
torn state, and, unless the whole is rejected, only there. -/
theorem feed_pieces (hs₀ : R.inBody s₀ = false) (hent : R.enter s₀ = s₀)
    (hne : ∀ p ∈ pieces, p ≠ []) (htext : R.Single s₀ pieces.flatten) :
    ((∀ qs rs, pieces = qs ++ rs → rs ≠ [] → ∀ t, R.process qs.flatten s₀ = (.more, t) → ¬ Torn t) →
        Agree Same Alike (R.feed pieces s₀) (R.parse pieces.flatten s₀)) ∧
      ((R.parse pieces.flatten s₀).1 ≠ .invalid →
        (R.feed pieces s₀).1 = (R.parse pieces.flatten s₀).1 →
          ∀ qs rs, pieces = qs ++ rs → rs ≠ [] → ∀ t, R.process qs.flatten s₀ = (.more, t) →
          ¬ Torn t) := by
  have hsta : R.process [] s₀ = (.more, s₀) := by rw [process, if_neg (by simp [hs₀]), scan]
  rw [parse, hent]
  refine ⟨fun hcuts => ?_, fun hwhl hsame qs rs hpcs hrs t hcut htorn => ?_⟩
  · exact hR.feed_agree (u := []) hs₀ hne htext hcuts hsta (hR.refl s₀)
  · rw [close_fst] at hwhl hsame
    have hinv := hR.feed_torn (u := []) hs₀ hne htext hpcs hrs hcut htorn hwhl hsta (hR.refl s₀)
    exact hwhl (hsame ▸ hinv)

/-! ## Messages one after the other -/

section Messages

variable {β : Type} {out : σ → β} {renew : σ → σ}

theorem parse_alike (p : List α) (h : Alike s t) : Agree Same Alike (R.parse p s) (R.parse p t) :=
  hR.close_same (hR.process_same p (hR.enter_alike s t h))

theorem calls_alike (hout : ∀ s t, Alike s t → out s = out t) (ps : List (List α)) (h : Alike s t) :
    Related Alike (R.calls out ps s) (R.calls out ps t) := by
  induction ps generalizing s t with
  | nil => exact ⟨rfl, h⟩
  | cons p ps ih =>
    have hcall := hR.parse_alike p h
    obtain ⟨hrest, hend⟩ := ih hcall.alike
    refine ⟨?_, hend⟩
    rw [calls, calls, hcall.fst, hout _ _ hcall.alike, hrest]

/-- **What a message leaves behind does not matter** to the next ones if it is like the start. -/
theorem talk_alike (hout : ∀ s t, Alike s t → out s = out t) {s₀ : σ} {pss : List (List (List α))}
    (hleft : ∀ ps ∈ pss, ∀ t, Alike t (R.calls out ps s₀).2 → Alike (renew t) s₀)
    (h : Alike (renew s) s₀) (ps : List (List α)) :
    R.talk out renew (pss ++ [ps]) s = (pss ++ [ps]).map fun ps => (R.calls out ps s₀).1 := by
  induction pss generalizing s with
  | nil => exact congrArg (fun r => [r]) (hR.calls_alike hout ps h).1
  | cons qs pss ih =>
    obtain ⟨hfst, hend⟩ := hR.calls_alike hout qs h
    rw [cons_append, talk, hfst]
    exact congrArg _ (ih (forall_mem_cons.mp hleft).2 (hleft qs mem_cons_self _ hend))

end Messages

end Coherent

end Reader

end Matador.Lib
