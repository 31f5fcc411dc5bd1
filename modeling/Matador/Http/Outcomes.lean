import Matador.Http.RequestParser
import Matador.Http.ResponseParser

/-!
# What a call returns

A call of `parse` throws where the content length is not a number (`std::stoul`), and where a status
code is not in the map (`to_status`). It reports neither as `INVALID`.
-/

namespace Matador.Http

open Lib Reader

/-- The call returns, and it reports a content length that is not a number. -/
def Reports {σ : Type} (R : Reader Char σ) (length : σ → Str) (s : σ) (bytes : Str) : Prop :=
  (R.parse bytes s).1 ≠ .thrown ∧
    ∀ t rest, R.scan bytes s = (.finish, t, rest) → ¬ IsLength (length t) →
      (R.parse bytes s).1 = .invalid

/-- The status code is not in the map. -/
def UnknownStatus (bytes : Str) : Prop :=
  ∃ u c t rest, bytes = u ++ c :: rest ∧ responseReader.scan u {} = (.accept, t, []) ∧
    t.EndsUnknown c

theorem reports_iff {σ : Type} {R : Reader Char σ} {length : σ → Str} {s : σ} (bytes : Str)
    (hs : R.inBody s = false) (hent : R.enter s = s)
    (hmis : ∀ t, IsLength (length t) → R.missing t ≠ none) :
    Reports R length s bytes ↔ (R.scan bytes s).1 ≠ .throw ∧
      ∀ t rest, R.scan bytes s = (.finish, t, rest) → IsLength (length t) := by
  rw [Reports, parse, close_fst, hent, process, if_neg (by simp [hs])]
  obtain ⟨v, t, rest⟩ := R.scan bytes s
  cases v with
  | accept | reject | throw => simp
  | finish =>
    constructor
    · rintro ⟨hret, hrep⟩
      refine ⟨by simp, fun t' rest' heq => ?_⟩
      by_contra hbad
      have hinv := hrep t' rest' heq hbad
      rcases readBody_finish t with ⟨-, -, hthr⟩ | hnei
      · exact hret (congrArg Prod.fst (hthr rest))
      · exact (hnei rest).1 hinv
    · rintro ⟨-, hlen⟩
      refine ⟨?_, fun t' rest' heq hbad => absurd (hlen t' rest' heq) hbad⟩
      rcases readBody_finish t with ⟨-, hnone, -⟩ | hnei
      · exact absurd hnone (hmis t (hlen t rest rfl))
      · exact (hnei rest).2

theorem missingOf_ne_none {length : Str} (body : Str) (h : IsLength length) :
    missingOf length body ≠ none := by
  simp [missingOf, stoul_of_isLength h]

theorem scan_throw_iff (bytes : Str) : (responseReader.scan bytes {}).1 = .throw ↔
    UnknownStatus bytes := by
  constructor
  · intro h
    obtain ⟨u, c, t, rest, rfl, hu, hc⟩ := exists_step_of_throw h
    exact ⟨u, c, t, rest, rfl, hu,
      (ResponseParser.follows.moves (Prod.ext hc rfl : _ = (Verdict.throw, _))).2⟩
  · rintro ⟨u, c, t, rest, rfl, hu, rfl, hsta, hnone⟩
    have hstep : responseReader.step ' ' t = (.throw, t) := by
      simp [responseReader, ResponseParser.step, ResponseParser.parseStatusCode, hsta, hnone]
    rw [scan_append (fun _ _ _ _ _ => rfl), hu]
    simp only [scan, hstep]
    rfl

/-- **A call of a fresh parser returns and reports what is malformed** if the status code is in the
map and the content length of a complete head is a number, and only then. -/
theorem parse_reports_iff (bytes : Str) : (Reports requestReader (·.req.content.length) {} bytes ↔
      ∀ t rest, requestReader.scan bytes {} = (.finish, t, rest) → IsLength t.req.content.length) ∧
    (Reports responseReader (·.resp.content.length) {} bytes ∧
        (UnknownStatus bytes → (responseReader.parse bytes {}).1 = .invalid) ↔
      ¬ UnknownStatus bytes ∧ ∀ t rest, responseReader.scan bytes {} = (.finish, t, rest) →
        IsLength t.resp.content.length) := by
  constructor
  · have hret : (requestReader.scan bytes {}).1 ≠ .throw := by
      intro h
      obtain ⟨-, c, t, -, -, -, hc⟩ := exists_step_of_throw h
      exact (RequestParser.follows.moves (Prod.ext hc rfl : _ = (Verdict.throw, _))).2
    rw [reports_iff bytes rfl rfl fun t => missingOf_ne_none t.req.body]
    exact and_iff_right hret
  · rw [reports_iff bytes rfl rfl fun t => missingOf_ne_none t.resp.body, Ne, scan_throw_iff]
    exact and_iff_left_of_imp fun h hunk => absurd hunk h.1

/-- A length that is not a number, and a status code that is not in the map. -/
theorem malformed_throws :
    (requestReader.parse "POST / HTTP/1.1\r\nContent-Length: x\r\n\r\n".toList {}).1 = .thrown ∧
      (responseReader.parse "HTTP/1.1 299 X".toList {}).1 = .thrown := by
  decide

end Matador.Http
