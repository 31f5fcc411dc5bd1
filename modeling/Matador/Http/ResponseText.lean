import Matador.Http.ResponseParser

/-!
# Writing responses

`response::to_string` and `response::to_buffers` write the same text of a response, and a fresh
`response_parser` reads it back.
-/

namespace Matador.Http

open Response Lines List Lib Reader

/-! ## Responses -/

/-- `response_header::DATE`. -/
def dateName : Str := "Date".toList

/-- `SERVER`. -/
def serverName : Str := "Server".toList

/-- `CONNECTION`. -/
def connectionName : Str := "Connection".toList

namespace Response

/-- `create(status)`, at a time of which this is the text. -/
def create (date : Str) (status : Status) : Response where
  status := status
  version := ⟨1, 1⟩
  headers :=
    ((UnorderedMap.empty.insert dateName date).insert serverName "Matador/0.7.0".toList).insert
    connectionName "Closed".toList

/-- `create(status, body, type)`. -/
def createWith (date : Str) (status : Status) (body : Str) (type : MimeType) : Response :=
  { create date status with
    body, content.type := type.fromType, content.length := natText body.length }

def lines (r : Response) : List (Str × Str) := withContent r.headers.entries r.content r.body

def toString (r : Response) : Str :=
  "HTTP/".toList ++ natText r.version.major ++ ['.'] ++ natText r.version.minor ++ [' '] ++
    natText r.status.code ++ [' '] ++ r.status.toString ++ crlf ++
    r.headers.entries.flatMap (fun p => p.1 ++ [':', ' '] ++ p.2 ++ crlf) ++
    (if r.body.isEmpty then []
      else contentLengthName ++ [':', ' '] ++ r.content.length ++ crlf ++
        (contentTypeName ++ [':', ' '] ++ r.content.type ++ crlf)) ++
    crlf ++ r.body

def toBuffers (r : Response) : List Str :=
  [r.status.toRequestString] ++ buffers r.headers.entries r.content r.body

/-! ## One text -/

theorem flatten_toBuffers_lines (r : Response) :
    r.toBuffers.flatten = r.status.toRequestString ++
      (r.lines.flatMap text ++ '\r' :: '\n' :: r.body) := by
  rw [toBuffers, flatten_append, flatten_buffers, lines]
  simp

theorem statusLine_eq (status : Status) :
    "HTTP/".toList ++ natText 1 ++ ['.'] ++ natText 1 ++ [' '] ++ natText status.code ++ [' '] ++
      status.toString ++ crlf = status.toRequestString := by
  cases status <;> decide

theorem toString_lines {r : Response} (hver : r.version = ⟨1, 1⟩) :
    r.toString = r.status.toRequestString ++ (r.lines.flatMap text ++ '\r' :: '\n' :: r.body) := by
  have htext : (fun p : Str × Str => p.1 ++ [':', ' '] ++ p.2 ++ crlf) = text := by
    funext p
    simp [text, crlf]
  unfold toString lines withContent
  rw [hver, statusLine_eq, htext]
  cases hbody : r.body.isEmpty with
  | true => simp [crlf]
  | false => simp [text, crlf]

end Response

/-! ## Reading the status line -/

namespace ResponseParser

theorem readsLines (s : ResponseParser) :
    Lines.ReadsLines isValueChar insertHeader responseReader s.put :=
  .of_read (fun _ _ _ _ => rfl) fun _ _ _ _ _ _ => rfl

def afterLine (status : Status) : ResponseParser :=
  { httpPrefixIndex := 4, state := .line .headerKey, resp := { status, version := ⟨1, 1⟩ } }

theorem scan_line (status : Status) (rest : Str) :
    responseReader.scan (status.toRequestString ++ rest) {} =
      responseReader.scan rest (afterLine status) := by
  cases status <;> rfl

end ResponseParser

/-! ## Inserting the headers -/

namespace Response

theorem insertHeader_frame (key value : Str) (r : Response) :
    ((r.insertHeader key value).status, (r.insertHeader key value).body) = (r.status, r.body) := by
  unfold insertHeader
  split_ifs <;> rfl

theorem holds : Holds insertHeader headers content where
  headers key value r := by
    unfold insertHeader
    split_ifs <;> rfl
  plain key value r h := by
    obtain ⟨htype, hlen, hmd5⟩ := h
    unfold insertHeader
    simp only [htype, hlen, hmd5, Bool.false_eq_true, if_false]
  length value r := by
    unfold insertHeader
    rw [if_neg (by decide), if_pos (by decide)]
  type value r := by
    unfold insertHeader
    rw [if_pos (by decide)]

end Response

/-! ## The round trip -/

/-- A response as `create` makes it, with the headers in any order of the map. The length of a body
is a `std::size_t`. -/
inductive Created (date : Str) : Response → Prop
  | plain (status : Status) (headers : ParamMap)
      (h : headers.entries.Perm (Response.create date status).headers.entries) :
      Created date { Response.create date status with headers }
  | withBody (status : Status) (body : Str) (type : MimeType) (headers : ParamMap)
      (h : headers.entries.Perm (Response.create date status).headers.entries)
        (hlt : body.length < 2 ^ 64) :
      Created date { Response.createWith date status body type with headers }

theorem isValue_fromType (type : MimeType) : Lines.IsValue type.fromType := by
  cases type <;> exact ⟨by decide, all_eq_true.mp rfl, by decide, by decide⟩

namespace Created

variable {date : Str} {r : Response} (hr : Created date r)
include hr

theorem perm : r.headers.entries.Perm
    [(dateName, date), (serverName, "Matador/0.7.0".toList),
      (connectionName, "Closed".toList)] := by
  cases hr with
  | plain _ _ h => exact h
  | withBody _ _ _ _ h _ => exact h

theorem version : r.version = ⟨1, 1⟩ := by cases hr <;> rfl

theorem content_eq (hbody : r.body ≠ []) :
    r.content.length = natText r.body.length ∧ (∃ type : MimeType, r.content.type = type.fromType) ∧
      r.body.length < 2 ^ 64 := by
  cases hr with
  | plain => exact absurd rfl hbody
  | withBody _ _ type _ _ hlt => exact ⟨rfl, ⟨type, rfl⟩, hlt⟩

theorem of_three {P : Str × Str → Prop} (hdate : P (dateName, date))
    (hser : P (serverName, "Matador/0.7.0".toList)) (hcon : P (connectionName, "Closed".toList)) :
    ∀ header ∈ r.headers.entries, P header := by
  intro header hmem
  have hthr := hr.perm.mem_iff.mp hmem
  simp only [mem_cons, not_mem_nil, or_false] at hthr
  rcases hthr with rfl | rfl | rfl
  · exact hdate
  · exact hser
  · exact hcon

theorem isName_lines : ∀ header ∈ r.lines, Lines.IsName header.1 := by
  have hdate : Lines.IsName dateName := ⟨by decide, all_eq_true.mp rfl⟩
  exact forall_withContent
    (hr.of_three hdate ⟨by decide, all_eq_true.mp rfl⟩ ⟨by decide, all_eq_true.mp rfl⟩)
    fun _ => ⟨isName_contentLength, isName_contentType⟩

theorem isPlainName : ∀ header ∈ r.headers.entries, Lines.IsPlainName header.1 := by
  have hdate : Lines.IsPlainName dateName := ⟨by decide, by decide, by decide⟩
  exact hr.of_three hdate ⟨by decide, by decide, by decide⟩ ⟨by decide, by decide, by decide⟩

theorem isValue_lines (hdate : Lines.IsValue date) :
    ∀ header ∈ r.lines, Lines.IsValue header.2 := by
  refine forall_withContent (hr.of_three hdate
    ⟨by decide, all_eq_true.mp rfl, by decide, by decide⟩
      ⟨by decide, all_eq_true.mp rfl, by decide, by decide⟩)
    fun hbody => ?_
  obtain ⟨hlen, ⟨type, htype⟩, -⟩ := hr.content_eq hbody
  rw [hlen, htype]
  exact ⟨isValue_natText _, isValue_fromType type⟩

theorem lines_ne_nil : r.lines ≠ [] := by
  intro h
  have hnil := (append_eq_nil_iff.mp h).1
  have hperm := hr.perm
  rw [hnil] at hperm
  exact absurd hperm.length_eq nofun

theorem scan_response (hdate : Lines.IsValue date) : ∃ l, responseReader.scan r.toString {} =
    (.finish, (ResponseParser.afterLine r.status).put .body l
      (insertAll insertHeader r.lines (ResponseParser.afterLine r.status).resp), r.body) := by
  rw [toString_lines hr.version, ResponseParser.scan_line]
  exact (ResponseParser.readsLines (ResponseParser.afterLine r.status)).scan_lines
    (fun _ h => by simp [ResponseParser.isValueChar, h]) (by decide) hr.lines_ne_nil hr.isName_lines
    (hr.isValue_lines hdate) rfl rfl _ r.body

theorem content_insertAll (m : Response) (hm : m.content = {}) :
    (insertAll insertHeader r.lines m).content.length =
      if r.body = [] then ['0'] else natText r.body.length := by
  refine (congrArg Content.length (holds.content_withContent m hr.isPlainName)).trans ?_
  split_ifs with hbody
  · rw [hm]
  · exact (hr.content_eq hbody).1

theorem readBody_response {s : ResponseParser} (hbody : s.resp.body = [])
    (hcon : s.resp.content.length = if r.body = [] then ['0'] else natText r.body.length) :
    ∃ s', responseReader.close (responseReader.readBody .finish r.body s) = (.finish, s') ∧
      s'.resp = { s.resp with body := r.body } := by
  by_cases hr' : r.body = []
  · rw [if_pos hr'] at hcon
    have hmis : responseReader.missing s = some 0 := by
      show missingOf s.resp.content.length s.resp.body = _
      rw [hcon, hbody]
      decide
    rw [hr', readBody_nil hmis, ← hbody]
    exact ⟨s, rfl, rfl⟩
  · rw [if_neg hr'] at hcon
    have hmis : responseReader.missing s = some r.body.length := by
      show missingOf s.resp.content.length s.resp.body = _
      rw [hcon, hbody, missingOf_nil (stoul_natText (hr.content_eq hr').2.2)]
    rw [readBody_full rfl hmis hr']
    refine ⟨_, rfl, ?_⟩
    show { s.resp with body := s.resp.body ++ r.body } = _
    rw [hbody, nil_append]

end Created

/-- **A response is written as one text and read back**: its status, its body and every header. -/
theorem parse_toString (date : Str) (hdate : Lines.IsValue date) (r : Response)
    (hr : Created date r) :
    r.toBuffers.flatten = r.toString ∧ (responseReader.parse r.toString {}).1 = .finish ∧
      (responseReader.parse r.toString {}).2.resp.status = r.status ∧
      (responseReader.parse r.toString {}).2.resp.body = r.body ∧
      ∀ header ∈ r.headers.entries,
        (responseReader.parse r.toString {}).2.resp.headers.find header.1 = some header.2 := by
  obtain ⟨l, hscan⟩ := hr.scan_response hdate
  generalize hm :
    Lines.insertAll Response.insertHeader r.lines (ResponseParser.afterLine r.status).resp =
      m at hscan
  have hfrm : (m.status, m.body) = (r.status, []) :=
    hm ▸ Lines.insertAll_eq (fun m : Response => (m.status, m.body))
      (fun header _ => Response.insertHeader_frame header.1 header.2) _
  obtain ⟨hsta, hbody⟩ : m.status = r.status ∧ m.body = [] := by simpa using hfrm
  have hhea : m.headers = r.lines.foldl (fun m e => m.insert e.1 e.2) .empty :=
    hm ▸ Response.holds.headers_insertAll _ r.lines
  obtain ⟨s', hread, hresp⟩ := hr.readBody_response
    (s := (ResponseParser.afterLine r.status).put .body l m) hbody (hm ▸ hr.content_insertAll _ rfl)
  have hpar : responseReader.parse r.toString {} = (.finish, s') := by
    rw [parse, process, show responseReader.enter {} = {} from rfl, hscan]
    exact hread
  rw [hpar]
  refine ⟨?_, rfl, ?_, ?_, fun header h => ?_⟩
  · rw [Response.flatten_toBuffers_lines, Response.toString_lines hr.version]
  · rw [hresp]
    exact hsta
  · rw [hresp]
  · rw [hresp]
    show m.headers.find header.1 = _
    rw [hhea]
    exact UnorderedMap.find_foldl_entries h

def notFound : Response :=
  Response.createWith ['n', 'o', 'w'] .notFound ['n', 'o', ' ', 'p', 'a', 'g', 'e'] .textPlain

theorem parse_notFound : (responseReader.parse notFound.toString {}).1 = .finish ∧
      (responseReader.parse notFound.toString {}).2.resp.status = .notFound ∧
      (responseReader.parse notFound.toString {}).2.resp.body =
        ['n', 'o', ' ', 'p', 'a', 'g', 'e'] ∧
      (responseReader.parse notFound.toString {}).2.resp.headers.find connectionName =
        some "Closed".toList := by
  have hdate : Lines.IsValue ['n', 'o', 'w'] :=
    ⟨by decide, all_eq_true.mp rfl, by decide, by decide⟩
  obtain ⟨-, hfin, hsta, hbody, hhea⟩ := parse_toString ['n', 'o', 'w'] hdate notFound
    (.withBody .notFound _ .textPlain _ (.refl _) (by decide))
  exact ⟨hfin, hsta, hbody, hhea (connectionName, "Closed".toList) (by decide)⟩

end Matador.Http
