import Matador.Http.RequestPieces

/-!
# Bodies of requests

The body is read as announced if a piece ends where it ends. A piece that goes on behind it becomes
part of the body, and if the head was read before, the request does not end.
-/

namespace Matador.Http

open List Lib Reader

namespace RequestParser

variable {s t : RequestParser} {c : Char}

theorem body_parseUrlQueryField : (parseUrlQueryField c s).2.req.body = s.req.body := by
  unfold parseUrlQueryField
  split_ifs <;> rfl

theorem body_parseUrlQueryValue {insert : Str → Str → Request → Request}
    (hins : ∀ k v req, (insert k v req).body = req.body) :
    (parseUrlQueryValue insert c s).2.req.body = s.req.body := by
  simp only [parseUrlQueryValue, parseValueChar, insertParam]
  split_ifs <;> simp [hins]

theorem body_insertHeader (key value : Str) (req : Request) :
    (req.insertHeader key value).body = req.body := by
  unfold Request.insertHeader
  split_ifs <;> rfl

theorem body_step : (step c s).2.req.body = s.req.body := by
  unfold step
  cases s.state with
  | urlQueryField => exact body_parseUrlQueryField
  | urlQueryValue => exact body_parseUrlQueryValue fun _ _ _ => rfl
  | line state =>
    have hlines {r} (h : Lines.step isValueChar Request.insertHeader c state s.lines s.req =
      some r) : r.2.2.body = s.req.body := Lines.frame_step Request.body body_insertHeader h
    simp only [parseLine, Lines.read]
    split
    · next h => exact hlines h
    · rfl
  | _ =>
    simp only [parseMethod, parseUrlPath, parseUrlFragment, parseVersion, parseVersionWord,
      parseMajorVersion, parseMinorVersion, parseVersionDigit]
    split_ifs <;> rfl

theorem body_scan (u : Str) : (requestReader.scan u s).2.1.req.body = s.req.body := by
  induction u generalizing s with
  | nil => rfl
  | cons c u ih =>
    rw [← @body_step s c, scan]
    split
    · exact body_step.symm
    · obtain ⟨v, s', h⟩ : ∃ v s', requestReader.step c s = (v, s') := ⟨_, _, rfl⟩
      rw [h, show step c s = _ from h]
      cases v with
      | accept => exact ih
      | reject | finish | throw => rfl

theorem body_processBody : s.processBody.req.body = s.req.body := by
  have hloop (cs : Str) (ret : Bool) (s : RequestParser) :
      (formLoop cs ret s).2.req.body = s.req.body := by
    induction cs generalizing ret s with
    | nil => rfl
    | cons c cs ih =>
      have hstep : (formStep c s).2.req.body = s.req.body := by
        unfold formStep
        split
        · exact body_parseUrlQueryField
        · exact body_parseUrlQueryValue fun _ _ _ => rfl
        · rfl
      rw [formLoop]
      split_ifs
      · rfl
      · rw [ih, hstep]
      · exact hstep
  unfold processBody parseFormData formEnd
  split_ifs
  · exact hloop ..
  · exact hloop ..
  · rfl

end RequestParser

open RequestParser

/-- The head of a request with a body of `n` bytes. -/
structure Head (head : Str) (n : Nat) (t : RequestParser) : Prop where
  scan : requestReader.scan head {} = (.finish, t, [])
  method : t.req.method = .post ∨ t.req.method = .put
  length : stoul t.req.content.length = some n
  pos : 0 < n

/-- **A request with a body ends with its last byte, and has it as its body**, if no piece goes on
behind it and none but the last ends within the word `HTTP/`. -/
theorem body_of_pieces {head body : Str} {t : RequestParser} {pieces : List Str}
    (h : Head head body.length t) (hne : ∀ p ∈ pieces, p ≠ [])
    (htext : pieces.flatten <+: head ++ body) (huncut : VersionUncut pieces) :
    ((requestReader.feed pieces {}).1 = .finish ↔ pieces.flatten = head ++ body) ∧
      ((requestReader.feed pieces {}).1 = .finish →
        (requestReader.feed pieces {}).2.req.body = body) := by
  have hbody : requestReader.hasBody t := by
    rcases h.method with hm | hm <;> simp [requestReader, hm]
  have hemp : t.req.body = [] := by
    have := @body_scan {} head
    rwa [h.scan] at this
  have hn : requestReader.missing t = some body.length := by
    rw [← missingOf_nil h.length, ← hemp]
    rfl
  have hsgl := single_of_finish rfl h.scan hbody hn (Nat.le_refl _)
  obtain ⟨rest, hrest⟩ := htext
  have hread := (hrest ▸ hsgl).of_append
  have hagr := (coherent.feed_pieces rfl rfl hne hread).1 fun qs rs hpcs hrs t ht hword =>
    huncut qs rs hpcs hrs (inVersionWord_of_process ?_ ht hword)
  · rw [parse, show requestReader.enter {} = {} from rfl] at hagr
    by_cases hr : rest = []
    · rw [hr, append_nil] at hrest
      have hpro : requestReader.process (head ++ body) {} =
          requestReader.readBody .finish body t := by
        rw [process, scan_append (passes_of_finish h.scan body).of_append, h.scan]
        rfl
      rw [hrest, hpro, readBody_full hbody hn (length_pos_iff.mp h.pos)] at hagr
      refine ⟨iff_of_true hagr.fst hrest, fun _ => ?_⟩
      rw [hagr.alike.req]
      refine body_processBody.trans ?_
      show t.req.body ++ body = body
      rw [hemp, nil_append]
    · have hopen := hsgl.finish _ _ hrest hr
      rw [← close_fst, ← hagr.fst] at hopen
      exact ⟨iff_of_false hopen fun h => hr (by simpa [← hrest] using h), fun h => absurd h hopen⟩
  · rw [hpcs, flatten_append] at hread
    exact hread.stop.of_append

def oneByteHead : Str := "PUT / HTTP/1.1\r\nContent-Length: 1\r\n\r\n".toList

theorem head_oneByteHead : ∃ t, Head oneByteHead 1 t := ⟨_, rfl, .inr rfl, by decide, by decide⟩

theorem body_of_oneByteHead :
    (requestReader.feed [oneByteHead, ['x']] {}).1 = .finish ∧
    (requestReader.feed [oneByteHead, ['x']] {}).2.req.body = ['x'] := by
  obtain ⟨t, ht⟩ := head_oneByteHead
  have h := @body_of_pieces _ ['x'] _ [oneByteHead, ['x']] ht (by decide) prefix_rfl
    fun qs rs hpcs hrs hword => ?_
  · exact ⟨h.1.mpr rfl, h.2 (h.1.mpr rfl)⟩
  · obtain ⟨i, -, hi⟩ := inVersionWord_iff.mp hword
    rcases qs with _ | ⟨p, _ | ⟨q, qs⟩⟩
    · cases hi
    · obtain ⟨rfl, -⟩ := cons.inj hpcs
      rw [show [oneByteHead].flatten.foldl Place.next .method = .behind by decide] at hi
      cases hi
    · simp_all

/-- The byte comes with another one: behind the head the request does not end, in the same call both
are its body. -/
theorem byte_not_alone : (∃ t, Head oneByteHead 1 t) ∧
    (requestReader.feed [oneByteHead, ['x', 'y']] {}).1 = .more ∧
      (requestReader.feed [oneByteHead ++ ['x', 'y']] {}).1 = .finish ∧
      (requestReader.feed [oneByteHead ++ ['x', 'y']] {}).2.req.body = ['x', 'y'] :=
  ⟨head_oneByteHead, by decide, by decide, by decide⟩

end Matador.Http
