import Matador.Http.ResponseParser

/-!
# Responses in pieces

A response that arrives in pieces is read like the whole if the first piece holds the word `HTTP/`;
otherwise the next one is rejected.
-/

namespace Matador.Http

open List Lib Reader

/-- What a caller sees of a response, with the outcome of the last call. -/
def ResponseParser.seen (r : Outcome × ResponseParser) :
    Outcome × Status × Version × ParamMap × Str :=
  (r.1, r.2.resp.status, r.2.resp.version, r.2.resp.headers, r.2.resp.body)

/-- The first of several pieces has the length of `HTTP/` at least. -/
def FirstHoldsWord (pieces : List Str) : Prop := ∀ p q ps, pieces = p :: q :: ps → 5 ≤ p.length

/-- The text holds nothing behind a response. -/
def NothingAfterResponse (text : Str) : Prop :=
  ∀ u v, u ++ v = text → v ≠ [] → (responseReader.parse u {}).1 ≠ .finish

namespace ResponseParser

/-! ## Where a piece ends -/

theorem single_fresh {text : Str} (hsgl : NothingAfterResponse text) :
    responseReader.Single {} text where
  stop _ _ _ _ _ := rfl
  finish u v huv hv := by
    have h := hsgl u v huv hv
    rwa [parse, close_fst] at h

theorem inWord_of_length {u : Str} (hu : u ≠ []) (hle : u.length ≤ 4)
    (hvld : (responseReader.process u {}).1 ≠ .invalid) :
    ∃ t, responseReader.process u {} = (.more, t) ∧ Place.InWord place t := by
  have hword := Place.foldl_word u (Nat.zero_le 4)
  rw [Nat.zero_add, if_pos hle] at hword
  obtain ⟨t, ht, hplc⟩ :=
    follows.more_of_word coherent.toCounted (show responseReader.inBody {} = false from rfl)
    (fun _ _ _ _ _ => rfl) hword hvld
  exact ⟨t, ht, u.length, length_pos_of_ne_nil hu, hplc⟩

theorem length_of_process {u : Str} {t : ResponseParser}
    (h : responseReader.process u {} = (.more, t)) (hword : Place.InWord place t) :
    0 < u.length ∧ u.length ≤ 4 := by
  obtain ⟨i, hpos, hplc⟩ := hword
  have hi := follows.word_of_more coherent.toCounted rfl (fun _ _ _ _ _ => rfl) h hplc
  have hfold : _ = Place.word i := (Place.foldl_word u (Nat.zero_le 4)).symm.trans hi
  rw [Nat.zero_add] at hfold
  split at hfold
  · next hle =>
    cases hfold
    exact ⟨hpos, hle⟩
  · cases hfold

theorem not_inWord_of_first {pieces qs rs : List Str} (h : FirstHoldsWord pieces)
    (hpcs : pieces = qs ++ rs) (hrs : rs ≠ []) {t : ResponseParser}
    (ht : responseReader.process qs.flatten {} = (.more, t)) : ¬Place.InWord place t := by
  intro hword
  obtain ⟨hpos, hle⟩ := length_of_process ht hword
  cases qs with
  | nil => simp at hpos
  | cons p qs =>
    obtain ⟨q, ps, hps⟩ := exists_cons_of_ne_nil (show qs ++ rs ≠ [] by simp [hrs])
    have hlong := h p q ps (by rw [hpcs, cons_append, hps])
    rw [flatten_cons, length_append] at hle
    omega

theorem seen_eq_of_agree {x y : Outcome × ResponseParser} (h : Agree Same Alike x y) :
    seen x = seen y := by
  rw [seen, h.fst, h.alike.resp]
  rfl

end ResponseParser

open ResponseParser

/-- **The pieces of a response are read like the whole if the first piece holds the word `HTTP/`**
or is the only one, and, unless the whole is rejected, only then. -/
theorem seen_feed_iff_first (pieces : List Str) (hne : ∀ p ∈ pieces, p ≠ [])
    (hsingle : NothingAfterResponse pieces.flatten) :
    (FirstHoldsWord pieces → seen (responseReader.feed pieces {}) =
      seen (responseReader.parse pieces.flatten {})) ∧
      ((responseReader.parse pieces.flatten {}).1 ≠ .invalid →
        (seen (responseReader.feed pieces {}) = seen (responseReader.parse pieces.flatten {}) ↔
          FirstHoldsWord pieces)) := by
  obtain ⟨hsame, hcuts⟩ := coherent.feed_pieces (by rfl) (by rfl) hne (single_fresh hsingle)
  have hfir (h : FirstHoldsWord pieces) :
      seen (responseReader.feed pieces {}) = seen (responseReader.parse pieces.flatten {}) :=
    seen_eq_of_agree (hsame fun qs rs hpcs hrs t ht => not_inWord_of_first h hpcs hrs ht)
  refine ⟨hfir, fun hwhl => ⟨fun heq p q ps hpcs => ?_, hfir⟩⟩
  by_contra hsho
  have hvld : (responseReader.process p {}).1 ≠ .invalid := by
    refine Counted.valid_of_append (p := (q :: ps).flatten) (fun _ _ _ _ _ => rfl) rfl ?_
    rwa [← flatten_cons, ← hpcs, ← close_fst]
  obtain ⟨t, ht, hin⟩ := inWord_of_length (hne p (by simp [hpcs])) (by omega) hvld
  have hfst := congrArg Prod.fst heq
  exact hcuts hwhl hfst [p] (q :: ps) hpcs nofun t (by simpa using ht) hin

def tornResponse : List Str := ["HT".toList, "TP/1.1 200 OK\r\nHost: x\r\n\r\n".toList]

theorem nothingAfter_tornResponse : NothingAfterResponse tornResponse.flatten :=
  not_finish_of_take (by decide)

theorem tornResponse_nonempty : ∀ p ∈ tornResponse, p ≠ [] := by decide

theorem seen_tornResponse_iff :
    seen (responseReader.feed tornResponse {}) =
      seen (responseReader.parse tornResponse.flatten {}) ↔ FirstHoldsWord tornResponse :=
  (seen_feed_iff_first tornResponse tornResponse_nonempty nothingAfter_tornResponse).2 (by decide)

/-- The whole is a response; in two pieces it is rejected. -/
theorem torn_response_rejected : (∀ p ∈ tornResponse, p ≠ []) ∧
    NothingAfterResponse tornResponse.flatten ∧
      (responseReader.parse tornResponse.flatten {}).1 = .finish ∧
      (responseReader.feed tornResponse {}).1 = .invalid := by
  refine ⟨tornResponse_nonempty, nothingAfter_tornResponse, ?_, ?_⟩ <;> decide

end Matador.Http
