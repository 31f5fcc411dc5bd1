import Matador.Http.RequestParser

/-!
# Writing requests

`request::to_buffers` writes a request, and a fresh `request_parser` reads it back.
-/

namespace Matador.Http

open Request RequestParser Lines List Lib Reader

/-! ## The text of a request -/

def httpVersion : Str := ['H', 'T', 'T', 'P', '/', '1', '.', '1']

namespace Request

/-- `request::body`. -/
def setBody (content : Str) (r : Request) : Request :=
  { r with body := content, content.type := textPlain, content.length := natText content.length }

def toBuffers (r : Request) : List Str :=
  [r.method.toString, [' '], r.url, [' '], httpVersion, crlf] ++
    buffers r.headers.entries r.content r.body

def lines (r : Request) : List (Str × Str) := withContent r.headers.entries r.content r.body

theorem flatten_toBuffers (r : Request) :
    r.toBuffers.flatten = r.method.toString ++ ' ' :: (r.url ++ ' ' :: (httpVersion ++ crlf ++
      (r.lines.flatMap text ++ '\r' :: '\n' :: r.body))) := by
  rw [toBuffers, flatten_append, flatten_buffers, lines]
  simp

end Request

/-! ## Reading the request line -/

namespace RequestParser

theorem step_nul (state : LineState) (l : Lines) (req : Request) :
    Lines.step isValueChar insertHeader '\x00' state l req = none := by
  cases state <;> rfl

theorem readsLines (s : RequestParser) :
    Lines.ReadsLines isValueChar insertHeader requestReader s.put :=
  .of_read (fun _ _ _ _ => rfl) fun c st l m r h => by
    by_contra hstop
    have hc : c = '\x00' := by simpa [requestReader] using hstop
    rw [hc, step_nul] at h
    cases h

theorem scan_cons {c : Char} {s s' : RequestParser} (hc : c ≠ '\x00') (h : step c s = (.accept, s'))
    (rest : Str) : requestReader.scan (c :: rest) s = requestReader.scan rest s' := by
  rw [scan, if_neg (by simpa [requestReader] using hc), show requestReader.step c s = _ from h]

theorem scan_method {w : Str} (hw : ∀ c ∈ w, c.isUpper) {s : RequestParser} (hs : s.state = .method)
    (rest : Str) :
    requestReader.scan (w ++ rest) s =
      requestReader.scan rest { s with currentMethod := s.currentMethod ++ w } := by
  induction w generalizing s with
  | nil => simp
  | cons c w ih =>
    have hc := hw c mem_cons_self
    have hnul : c ≠ '\x00' := by
      rintro rfl
      exact absurd hc (by decide)
    have hstep : step c s = (.accept, { s with currentMethod := s.currentMethod ++ [c] }) := by
      have hmtd : step c s = parseMethod c s := by rw [step, hs]
      rw [hmtd, parseMethod, if_pos hc]
    rw [cons_append, scan_cons hnul hstep]
    refine (ih (s := { s with currentMethod := s.currentMethod ++ [c] }) (forall_mem_cons.mp hw).2
      hs).trans ?_
    simp

theorem scan_url {w : Str} (hw : ∀ c ∈ w, isUrlChar c ∧ c ≠ '?' ∧ c ≠ '\x00') {s : RequestParser}
    (hs : s.state = .urlPath) (rest : Str) :
    requestReader.scan (w ++ rest) s =
      requestReader.scan rest { s with req.url := s.req.url ++ w } := by
  induction w generalizing s with
  | nil => simp
  | cons c w ih =>
    obtain ⟨hc, hqry, hnul⟩ := hw c mem_cons_self
    have hstep : step c s = (.accept, { s with req.url := s.req.url ++ [c] }) := by
      have hpath : step c s = parseUrlPath c s := by rw [step, hs]
      rw [hpath, parseUrlPath, if_neg hqry, if_pos hc]
    rw [cons_append, scan_cons hnul hstep]
    refine (ih (s := { s with req.url := s.req.url ++ [c] }) (forall_mem_cons.mp hw).2 hs).trans ?_
    simp

theorem scan_version (s : RequestParser) (rest : Str) :
    requestReader.scan (httpVersion ++ crlf ++ rest)
      { s with state := .version, httpPrefixIndex := 0 } = requestReader.scan rest
        ({ s with httpPrefixIndex := 4 }.put .headerKey
          { s.lines with currentKey := [], currentValue := [] }
            { s.req with version := ⟨1, 1⟩ }) := rfl

/-- The characters of a url without a query. -/
def IsUrl (url : Str) : Prop :=
  url ≠ [] ∧ ∀ c ∈ url, (c.isAlphanum = true ∨ c ∈ urlSpecialChar) ∧ c ≠ '?'

theorem isUrlChar_of_mem {url : Str} (h : IsUrl url) :
    ∀ c ∈ url, isUrlChar c ∧ c ≠ '?' ∧ c ≠ '\x00' := by
  intro c hc
  obtain ⟨hcls, hqry⟩ := h.2 c hc
  refine ⟨?_, hqry, ?_⟩
  · rcases hcls with hcls | hcls
    · simp [isUrlChar, hcls]
    · simp [isUrlChar, strchr, hcls]
  · rintro rfl
    revert hcls
    decide

theorem isUpper_of_mem_method (m : Method) : ∀ c ∈ m.toString, c.isUpper := by
  cases m <;> exact all_eq_true.mp rfl

theorem toMethod_toString (m : Method) : toMethod m.toString = m := by
  cases m <;> decide

def afterLine (m : Method) (url : Str) : RequestParser :=
  { httpPrefixIndex := 4
    state := .line .headerKey
    req := { method := m, url, version := ⟨1, 1⟩ } }

theorem scan_line (m : Method) {url : Str} (hurl : IsUrl url) (rest : Str) :
    requestReader.scan (m.toString ++ ' ' :: (url ++ ' ' :: (httpVersion ++ crlf ++ rest))) {} =
      requestReader.scan rest (afterLine m url) := by
  have hblk : step ' ' { currentMethod := m.toString } =
      (.accept, { state := .urlPath, req := { method := m } }) := by
    show parseMethod ' ' _ = _
    rw [parseMethod, if_neg (by decide), if_pos rfl, toMethod_toString]
  have hend : step ' ' { state := .urlPath, req := { method := m, url } } =
      (.accept, { state := .version, httpPrefixIndex := 0, req := { method := m, url } }) := rfl
  rw [scan_method (isUpper_of_mem_method m) rfl]
  refine (scan_cons (by decide) hblk _).trans ?_
  rw [scan_url (isUrlChar_of_mem hurl) rfl]
  refine (scan_cons (by decide) hend _).trans ?_
  exact scan_version { req := { method := m, url } } rest

end RequestParser

/-! ## Inserting the headers -/

namespace Request

theorem insertHeader_frame (key value : Str) (r : Request) :
    ((r.insertHeader key value).method, (r.insertHeader key value).url,
      (r.insertHeader key value).body) = (r.method, r.url, r.body) := by
  unfold insertHeader
  split_ifs <;> rfl

theorem holds : Holds insertHeader headers content where
  headers key value r := by
    unfold insertHeader
    split_ifs <;> rfl
  plain key value r h := by
    obtain ⟨htype, hlen, hmd5⟩ := h
    unfold insertHeader
    simp only [htype, hlen, hmd5, Bool.false_eq_true, if_false]
    split_ifs <;> rfl
  length value r := by
    unfold insertHeader
    rw [if_neg (by decide), if_pos (by decide)]
  type value r := by
    unfold insertHeader
    rw [if_pos (by decide)]

end Request

/-! ## The round trip -/

/-- A request with a url, headers and a body that can be sent. The length of a body is a
`std::size_t`. -/
structure Sendable (r : Request) : Prop where
  url : RequestParser.IsUrl r.url
  some_header : r.headers.entries ≠ []
  name : ∀ header ∈ r.headers.entries, Lines.IsName header.1
  plain : ∀ header ∈ r.headers.entries, Lines.IsPlainName header.1
  value : ∀ header ∈ r.headers.entries, Lines.IsValue header.2
  body : r.body = [] ∨
    (r.method = .post ∨ r.method = .put) ∧ ∃ r₀ content, r = Request.setBody content r₀ ∧
      content.length < 2 ^ 64

namespace Sendable

variable {r : Request} (hr : Sendable r)
include hr

theorem content_eq (hbody : r.body ≠ []) :
    (r.method = .post ∨ r.method = .put) ∧ r.content.length = natText r.body.length ∧
    r.content.type = textPlain ∧ r.body.length < 2 ^ 64 := by
  obtain ⟨hmtd, r₀, content, rfl, hlen⟩ := hr.body.resolve_left hbody
  exact ⟨hmtd, rfl, rfl, hlen⟩

theorem isName_lines : ∀ header ∈ r.lines, Lines.IsName header.1 :=
  forall_withContent hr.name fun _ => ⟨isName_contentLength, isName_contentType⟩

theorem isValue_lines : ∀ header ∈ r.lines, Lines.IsValue header.2 := by
  refine forall_withContent hr.value fun hbody => ?_
  obtain ⟨-, hlen, htype, -⟩ := hr.content_eq hbody
  rw [hlen, htype]
  exact ⟨isValue_natText _, by decide, all_eq_true.mp rfl, by decide, by decide⟩

theorem lines_ne_nil : r.lines ≠ [] := by
  intro h
  exact hr.some_header (append_eq_nil_iff.mp h).1

theorem scan_request : ∃ l, requestReader.scan r.toBuffers.flatten {} =
    (.finish, (afterLine r.method r.url).put .body l
      (insertAll insertHeader r.lines (afterLine r.method r.url).req), r.body) := by
  rw [flatten_toBuffers, scan_line _ hr.url]
  exact (readsLines (afterLine r.method r.url)).scan_lines (fun _ h => h) (by decide)
    hr.lines_ne_nil hr.isName_lines hr.isValue_lines rfl rfl _ r.body

theorem content_insertAll (m : Request) (hm : m.content = {}) :
    (insertAll insertHeader r.lines m).content =
      if r.body = [] then {} else { length := natText r.body.length, type := textPlain } := by
  refine (holds.content_withContent m hr.plain).trans (ite_congr rfl (fun _ => hm) fun hbody => ?_)
  obtain ⟨-, hlen, htype, -⟩ := hr.content_eq hbody
  rw [hm, hlen, htype]

omit hr in
theorem textPlain_ne_formUrlencoded : textPlain ≠ formUrlencoded := by decide

theorem readBody_request {s : RequestParser} (hmtd : s.req.method = r.method)
    (hbody : s.req.body = [])
    (hcon : s.req.content = if r.body = [] then {}
      else { length := natText r.body.length, type := textPlain }) :
    requestReader.close (requestReader.readBody .finish r.body s) =
      (.finish, restart { s with req.body := r.body }) := by
  by_cases hr' : r.body = []
  · rw [if_pos hr'] at hcon
    have hmis : requestReader.missing s = some 0 := by
      show missingOf s.req.content.length s.req.body = _
      rw [hcon, hbody]
      decide
    rw [hr', readBody_nil hmis, ← hbody]
    rfl
  · rw [if_neg hr'] at hcon
    obtain ⟨hpost, -, -, hlen⟩ := hr.content_eq hr'
    have hhas : requestReader.hasBody s := by
      show (s.req.method == .post || s.req.method == .put)
      rw [hmtd]
      simpa using hpost
    have hmis : requestReader.missing s = some r.body.length := by
      show missingOf s.req.content.length s.req.body = _
      rw [hcon, hbody, missingOf_nil (stoul_natText hlen)]
    have happ : requestReader.append r.body s = { s with req.body := r.body } := by
      show ({ s with req.body := s.req.body ++ r.body } : RequestParser) = _
      rw [hbody, nil_append]
    have hpln : ({ s with req.body := r.body } : RequestParser).processBody =
        { s with req.body := r.body } := by
      refine if_neg ?_
      rw [hcon]
      exact textPlain_ne_formUrlencoded
    rw [readBody_full hhas hmis hr', happ]
    show requestReader.close (.finish, restart (processBody _)) = _
    rw [hpln]
    rfl

omit hr in
theorem find_header (m : Request) (hm : m.headers = .empty) {header : Str × Str}
    (h : header ∈ r.headers.entries) :
    (insertAll Request.insertHeader r.lines m).headers.find header.1 = some header.2 := by
  rw [holds.headers_insertAll, hm, Request.lines]
  exact UnorderedMap.find_foldl_entries h

end Sendable

open Sendable

/-- **A request is read back as it was written**: its method, its url, its body and every header. -/
theorem parse_toBuffers (r : Request) (hr : Sendable r) :
    (requestReader.parse r.toBuffers.flatten {}).1 = .finish ∧
      (requestReader.parse r.toBuffers.flatten {}).2.req.method = r.method ∧
      (requestReader.parse r.toBuffers.flatten {}).2.req.url = r.url ∧
      (requestReader.parse r.toBuffers.flatten {}).2.req.body = r.body ∧
      ∀ header ∈ r.headers.entries,
        (requestReader.parse r.toBuffers.flatten {}).2.req.headers.find header.1 =
          some header.2 := by
  obtain ⟨l, hscan⟩ := hr.scan_request
  generalize hm :
    Lines.insertAll Request.insertHeader r.lines (RequestParser.afterLine r.method r.url).req =
      m at hscan
  have hfrm : (m.method, m.url, m.body) = (r.method, r.url, []) :=
    hm ▸ Lines.insertAll_eq (fun m : Request => (m.method, m.url, m.body))
      (fun header _ => Request.insertHeader_frame header.1 header.2) _
  obtain ⟨hmtd, hurl, hbody⟩ : m.method = r.method ∧ m.url = r.url ∧ m.body = [] := by
    simpa using hfrm
  have hfind {header : Str × Str} (h : header ∈ r.headers.entries) :
      m.headers.find header.1 = some header.2 :=
    hm ▸ find_header _ rfl h
  have hpar : requestReader.parse r.toBuffers.flatten {} = (.finish,
      RequestParser.restart
        { (RequestParser.afterLine r.method r.url).put .body l m with req.body := r.body }) := by
    rw [parse, process, show requestReader.enter {} = {} from rfl, hscan]
    exact hr.readBody_request hmtd hbody (hm ▸ hr.content_insertAll _ rfl)
  rw [hpar]
  exact ⟨rfl, hmtd, hurl, rfl, fun header h => hfind h⟩

/-- A request with a body that looks like header lines. -/
def postRequest : Request :=
  Request.setBody ['a', ':', '\r', '\n', '\r', '\n']
    { method := .post, url := ['/', 'a'], headers := ⟨[(hostName, ['x', ' ', 'y'])], by decide⟩ }

theorem sendable_postRequest : Sendable postRequest where
  url := ⟨by decide, all_iff_forall_prop.mp rfl⟩
  some_header := by decide
  name := by
    intro header h
    obtain rfl : header = (hostName, ['x', ' ', 'y']) := mem_singleton.mp h
    exact ⟨by decide, all_eq_true.mp rfl⟩
  plain := by
    intro header h
    obtain rfl : header = (hostName, ['x', ' ', 'y']) := mem_singleton.mp h
    exact ⟨by decide, by decide, by decide⟩
  value := by
    intro header h
    obtain rfl : header = (hostName, ['x', ' ', 'y']) := mem_singleton.mp h
    exact ⟨by decide, all_eq_true.mp rfl, by decide, by decide⟩
  body := .inr ⟨.inl rfl, _, _, rfl, by decide⟩

theorem parse_postRequest : (requestReader.parse postRequest.toBuffers.flatten {}).1 = .finish ∧
      (requestReader.parse postRequest.toBuffers.flatten {}).2.req.body =
        ['a', ':', '\r', '\n', '\r', '\n'] :=
  ⟨(parse_toBuffers postRequest sendable_postRequest).1,
    (parse_toBuffers postRequest sendable_postRequest).2.2.2.1⟩

end Matador.Http
