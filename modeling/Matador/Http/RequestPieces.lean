import Matador.Http.RequestParser

/-!
# Requests in pieces

A request that arrives in several pieces is read like the whole, but for a piece that ends within
the word `HTTP` or right behind it: the next piece is then rejected.
-/

namespace Matador.Http

open List Lib Reader

/-- What a caller sees of a request, with the outcome of the last call. -/
def RequestParser.seen (r : Outcome × RequestParser) :
    Outcome × Method × Str × ParamMap × Version × ParamMap × Str :=
  (r.1, r.2.req.method, r.2.req.url, r.2.req.queryParams, r.2.req.version, r.2.req.headers,
    r.2.req.body)

/-- The text ends one to four characters behind its second blank, that is within the word
`HTTP/`. -/
def InVersionWord (u : Str) : Prop :=
  ∃ a b w, ' ' ∉ a ∧ ' ' ∉ b ∧ u = a ++ ' ' :: (b ++ ' ' :: w) ∧ 0 < w.length ∧ w.length ≤ 4

/-- No piece but the last ends within the word `HTTP/`. -/
def VersionUncut (pieces : List Str) : Prop :=
  ∀ qs rs, pieces = qs ++ rs → rs ≠ [] → ¬ InVersionWord qs.flatten

/-- The text holds nothing behind a request. -/
def NothingAfter (text : Str) : Prop :=
  ∀ u v, u ++ v = text → v ≠ [] → (requestReader.parse u {}).1 ≠ .finish

namespace RequestParser

/-! ## Where the text ends -/

/-- The text ends at this place. -/
def EndsAt (u : Str) : Place → Prop
  | .method => ' ' ∉ u
  | .url => ∃ a b, ' ' ∉ a ∧ ' ' ∉ b ∧ u = a ++ ' ' :: b
  | .word i => ∃ a b w, ' ' ∉ a ∧ ' ' ∉ b ∧ u = a ++ ' ' :: (b ++ ' ' :: w) ∧ w.length = i ∧ i ≤ 4
  | .behind => True

theorem EndsAt.next {u : Str} {p : Place} (h : EndsAt u p) (c : Char) :
    EndsAt (u ++ [c]) (p.next c) := by
  cases p with
  | method =>
    rw [Place.next]
    split
    · next hc => exact ⟨u, [], h, not_mem_nil, by rw [hc]⟩
    · next hc => exact fun hmem => (mem_append.mp hmem).elim h (by simpa using Ne.symm hc)
  | url =>
    obtain ⟨a, b, ha, hb, rfl⟩ := h
    rw [Place.next]
    split
    · next hc => exact ⟨a, b, [], ha, hb, by simp [hc], rfl, Nat.zero_le 4⟩
    · next hc => exact ⟨a, b ++ [c], ha, by simp [hb, Ne.symm hc], by simp⟩
  | word i =>
    obtain ⟨a, b, w, ha, hb, rfl, rfl, -⟩ := h
    rw [Place.next]
    split
    · next hlt => exact ⟨a, b, w ++ [c], ha, hb, by simp, by simp, hlt⟩
    · trivial
  | behind => trivial

theorem EndsAt.foldl {u : Str} {p : Place} (h : EndsAt u p) (v : Str) :
    EndsAt (u ++ v) (v.foldl Place.next p) := by
  induction v generalizing u p with
  | nil => rwa [append_nil]
  | cons c v ih =>
    have hv := ih (h.next c)
    rwa [append_assoc] at hv

theorem foldl_of_notMem {a : Str} (ha : ' ' ∉ a) {p : Place} (hp : ∀ c, c ≠ ' ' → p.next c = p) :
    a.foldl Place.next p = p := by
  induction a with
  | nil => rfl
  | cons c a ih =>
    rw [mem_cons, not_or] at ha
    rw [foldl_cons, hp c (Ne.symm ha.1), ih ha.2]

theorem inVersionWord_iff {u : Str} : InVersionWord u ↔
    ∃ i, 0 < i ∧ u.foldl Place.next .method = .word i := by
  constructor
  · rintro ⟨a, b, w, ha, hb, rfl, hpos, hle⟩
    refine ⟨w.length, hpos, ?_⟩
    have hw := Place.foldl_word w (Nat.zero_le 4)
    rw [Nat.zero_add, if_pos hle] at hw
    have hmtd : a.foldl Place.next .method = .method := foldl_of_notMem ha fun c hc => if_neg hc
    have hurl : b.foldl Place.next .url = .url := foldl_of_notMem hb fun c hc => if_neg hc
    rw [foldl_append, hmtd, foldl_cons, foldl_append,
      show Place.next .method ' ' = .url from rfl, hurl]
    exact hw
  · rintro ⟨i, hpos, hi⟩
    have hends := EndsAt.foldl (p := .method) not_mem_nil u
    rw [hi] at hends
    obtain ⟨a, b, w, ha, hb, hu, rfl, hle⟩ := hends
    exact ⟨a, b, w, ha, hb, hu, hpos, hle⟩

/-! ## Where a piece ends -/

variable {u : Str} {t : RequestParser}

theorem passes_of_notMem (hnul : '\x00' ∉ u) : requestReader.Passes t u := by
  rintro v c w rfl -
  have : c ≠ '\x00' := fun h => hnul (by simp [h])
  simpa [requestReader] using this

theorem single_fresh {text : Str} (hnul : '\x00' ∉ text) (hsgl : NothingAfter text) :
    requestReader.Single {} text where
  stop := passes_of_notMem hnul
  finish u v huv hv := by
    have h := hsgl u v huv hv
    rwa [parse, close_fst] at h

theorem inWord_of_inVersionWord (hnul : '\x00' ∉ u) (hu : InVersionWord u)
    (hvld : (requestReader.process u {}).1 ≠ .invalid) :
    ∃ t, requestReader.process u {} = (.more, t) ∧ Place.InWord place t := by
  obtain ⟨i, hpos, hi⟩ := inVersionWord_iff.mp hu
  obtain ⟨t, ht, hplc⟩ :=
    follows.more_of_word coherent.toCounted (show requestReader.inBody {} = false from rfl)
    (passes_of_notMem hnul) hi hvld
  exact ⟨t, ht, i, hpos, hplc⟩

theorem inVersionWord_of_process (hstop : requestReader.Passes {} u)
    (h : requestReader.process u {} = (.more, t)) (hword : Place.InWord place t) :
    InVersionWord u := by
  obtain ⟨i, hpos, hplc⟩ := hword
  exact inVersionWord_iff.mpr ⟨i, hpos, follows.word_of_more coherent.toCounted rfl hstop h hplc⟩

theorem seen_eq_of_agree {x y : Outcome × RequestParser} (h : Agree Same Alike x y) :
    seen x = seen y := by
  rw [seen, h.fst, h.alike.req]
  rfl

end RequestParser

open RequestParser

/-- **The pieces of a request are read like the whole if no piece ends within the word `HTTP/`**,
and, unless the whole is rejected, only then. -/
theorem seen_feed_iff (pieces : List Str) (hne : ∀ p ∈ pieces, p ≠ [])
    (hnul : ∀ p ∈ pieces, '\x00' ∉ p) (hsingle : NothingAfter pieces.flatten) :
    (VersionUncut pieces → seen (requestReader.feed pieces {}) =
      seen (requestReader.parse pieces.flatten {})) ∧
      ((requestReader.parse pieces.flatten {}).1 ≠ .invalid →
        (seen (requestReader.feed pieces {}) = seen (requestReader.parse pieces.flatten {}) ↔
          VersionUncut pieces)) := by
  have htext : '\x00' ∉ pieces.flatten := by simpa [mem_flatten] using hnul
  have hfree {qs rs : List Str} (h : pieces = qs ++ rs) : '\x00' ∉ qs.flatten := by
    subst h
    exact fun hmem => htext (by rw [flatten_append]; exact mem_append_left _ hmem)
  obtain ⟨hsame, hcuts⟩ := coherent.feed_pieces (by rfl) (by rfl) hne (single_fresh htext hsingle)
  have hunc (h : VersionUncut pieces) :
      seen (requestReader.feed pieces {}) = seen (requestReader.parse pieces.flatten {}) :=
    seen_eq_of_agree (hsame fun qs rs hpcs hrs t ht hword =>
      h qs rs hpcs hrs (inVersionWord_of_process (passes_of_notMem (hfree hpcs)) ht hword))
  refine ⟨hunc, fun hwhl => ⟨fun heq qs rs hpcs hrs hword => ?_, hunc⟩⟩
  have hvld : (requestReader.process qs.flatten {}).1 ≠ .invalid := by
    refine Counted.valid_of_append (p := rs.flatten) (passes_of_notMem (hfree hpcs)) rfl ?_
    rwa [← flatten_append, ← hpcs, ← close_fst]
  obtain ⟨t, ht, hin⟩ := inWord_of_inVersionWord (hfree hpcs) hword hvld
  have hfst := congrArg Prod.fst heq
  exact hcuts hwhl hfst qs rs hpcs hrs t ht hin

def tornRequest : List Str := ["GET / HT".toList, "TP/1.1\r\nHost: x\r\n\r\n".toList]

theorem nothingAfter_tornRequest : NothingAfter tornRequest.flatten :=
  not_finish_of_take (by decide)

theorem tornRequest_nonempty : (∀ p ∈ tornRequest, p ≠ []) ∧
    ∀ p ∈ tornRequest, '\x00' ∉ p := by decide

theorem seen_tornRequest_iff :
    seen (requestReader.feed tornRequest {}) = seen (requestReader.parse tornRequest.flatten {}) ↔
      VersionUncut tornRequest :=
  (seen_feed_iff tornRequest tornRequest_nonempty.1 tornRequest_nonempty.2
    nothingAfter_tornRequest).2 (by decide)

/-- The whole is a request; in two pieces it is rejected. -/
theorem torn_request_rejected :
    (∀ p ∈ tornRequest, p ≠ []) ∧ (∀ p ∈ tornRequest, '\x00' ∉ p) ∧
    NothingAfter tornRequest.flatten ∧ (requestReader.parse tornRequest.flatten {}).1 = .finish ∧
      (requestReader.feed tornRequest {}).1 = .invalid := by
  refine ⟨tornRequest_nonempty.1, tornRequest_nonempty.2, nothingAfter_tornRequest, ?_, ?_⟩ <;>
    decide

end Matador.Http
