import Matador.Http.RequestText

/-!
# A request parser that is used again

`parse_form_data` clears the query field twice and the query value never, `reset` clears neither of
them nor the state of an escape, and a line that continues a header with nothing but blanks leaves
`skip_blanks_` set. A later request finds these members as they are.
-/

namespace Matador.Http

open List Lib Reader

namespace RequestParser

def reset (s : RequestParser) : RequestParser :=
  { s with state := .method, httpPrefixIndex := 0, currentMethod := [], lines := {} }

def renew (s : RequestParser) : RequestParser := { s with req := {} }

/-- Nothing is left of a method, a query or a header line that a later request finds. -/
structure Clean (s : RequestParser) : Prop where
  method : s.currentMethod = []
  field : s.currentQueryField = []
  value : s.currentQueryValue = []
  escape : s.hexParseState = .finished
  blanks : s.lines.skipBlanks = false

variable {s t : RequestParser}

theorem alike_field (hsta : s.state = .method) (hmtd : s.currentMethod = [])
    (hval : s.currentQueryValue = []) (hesc : s.hexParseState = .finished)
    (hbla : s.lines.skipBlanks = false) :
    Alike s.renew { currentQueryField := s.currentQueryField } := by
  obtain ⟨state, i, method, l, field, value, escape, hex, req⟩ := s
  cases hsta
  cases hmtd
  cases hval
  cases hesc
  exact ⟨i, hex, l, rfl, fun h => absurd rfl h, hbla⟩

/-! ## Requests that find what is left -/

def queryProbe : Str := "GET /?= HTTP/1.1\r\nA: b c\r\n\r\n".toList

theorem eq_get_of_toMethod {str : Str} (h : toMethod str = .get) : str = ['G', 'E', 'T'] := by
  have hget : ∀ e ∈ stringMethodMap, e.2 = .get → e.1 = ['G', 'E', 'T'] := by decide
  unfold toMethod at h
  cases hfind : stringMethodMap.lookup str with
  | none => simp [hfind] at h
  | some m =>
    rw [hfind] at h
    obtain ⟨l₁, l₂, hmap, -⟩ := lookup_eq_some_iff.mp hfind
    exact hget (str, m) (by simp [hmap]) h

set_option maxRecDepth 2000 in
theorem scan_queryProbe (hsta : s.state = .method) (hreq : s.req = {})
    (hesc : s.hexParseState = .finished) :
    ∃ t, requestReader.scan queryProbe (requestReader.enter s) = (.finish, t, []) ∧
      missingOf t.req.content.length t.req.body = some 0 ∧
      t.req.method = toMethod (s.currentMethod ++ ['G', 'E', 'T']) ∧
      t.req.queryParams.entries = [([], s.currentQueryValue)] ∧
      t.req.headers.entries =
        [(['A'], if s.lines.skipBlanks then ['b', 'c'] else ['b', ' ', 'c'])] := by
  obtain ⟨state, i, method, ⟨key, value, blanks, skip⟩, field, query, escape, hex, req⟩ := s
  cases hsta
  cases hreq
  cases hesc
  have hword : method ++ ['G'] ++ ['E'] ++ ['T'] = method ++ ['G', 'E', 'T'] := by simp
  cases skip with
  | _ => exact ⟨_, rfl, missingOf_nil (stoul_natText (n := 0) (by decide)),
      congrArg toMethod hword, rfl, rfl⟩

theorem parse_queryProbe_of_escape (hsta : s.state = .method) (hesc : s.hexParseState ≠ .finished) :
    (requestReader.parse queryProbe s).1 = .invalid := by
  obtain ⟨state, i, method, lines, field, query, escape, hex, req⟩ := s
  cases hsta
  cases escape with
  | first | second => rfl
  | finished => exact absurd rfl hesc

theorem clean_of_queryProbe (hsta : s.state = .method) (hreq : s.req = {})
    (h : (requestReader.calls req [queryProbe] s).1 = (requestReader.calls req [queryProbe] {}).1) :
    s.currentMethod = [] ∧ s.currentQueryValue = [] ∧ s.hexParseState = .finished ∧
    s.lines.skipBlanks = false := by
  obtain ⟨hout, hread⟩ := parse_of_calls h
  have hesc : s.hexParseState = .finished := by
    by_contra hne
    have hinv := parse_queryProbe_of_escape hsta hne
    exact absurd (hinv.symm.trans hout) (by decide)
  obtain ⟨t, hscan, hmis, hmtd, hqry, hhea⟩ := scan_queryProbe hsta hreq hesc
  have hpar : requestReader.parse queryProbe s = (.finish, t.restart) := by
    rw [parse, process, if_neg (by simp [requestReader, hsta]), hscan]
    exact congrArg requestReader.close (readBody_nil hmis)
  have hreq' : t.req = (requestReader.parse queryProbe {}).2.req :=
    (congrArg (·.2.req) hpar).symm.trans hread
  rw [hreq'] at hmtd hqry hhea
  refine ⟨?_, ?_, hesc, ?_⟩
  · simpa using eq_get_of_toMethod (hmtd.symm.trans (by decide))
  · have hval : [([], s.currentQueryValue)] = [(([] : Str), ([] : Str))] :=
      hqry.symm.trans (by decide)
    simpa using hval
  · cases hskip : s.lines.skipBlanks with
    | false => rfl
    | true =>
      rw [hskip] at hhea
      exact absurd hhea (by decide)

def formHeaders (length : Str) : List (Str × Str) :=
  [(contentTypeName, formUrlencoded), (contentLengthName, length)]

def formText (length body : Str) : Str :=
  "POST / HTTP/1.1\r\n".toList ++ ((formHeaders length).flatMap Lines.text ++ '\r' :: '\n' :: body)

theorem formHeaders_valid : ∀ header ∈ formHeaders ['1'], Lines.IsName header.1 ∧
    Lines.IsValue header.2 := by
  refine forall_mem_cons.mpr ⟨⟨Lines.isName_contentType, ?_⟩,
    forall_mem_singleton.mpr ⟨Lines.isName_contentLength, ?_⟩⟩
  · exact ⟨by decide, all_eq_true.mp rfl, by decide, by decide⟩
  · exact Lines.isValue_natText 1

theorem parse_formText (field : Str) :
    (requestReader.parse (formText ['1'] ['='])
      { currentQueryField := field }).2.req.formData.entries =
      if field = [] then [] else [(field, [])] := by
  have hline (rest : Str) :
    requestReader.scan ("POST / HTTP/1.1\r\n".toList ++ rest) { currentQueryField := field } =
        requestReader.scan rest
          ({ httpPrefixIndex := 4, currentQueryField := field : RequestParser }.put .headerKey {}
            { method := .post, url := ['/'], version := ⟨1, 1⟩ }) := rfl
  obtain ⟨l, hscan⟩ := (readsLines { httpPrefixIndex := 4, currentQueryField := field }).scan_lines
    (fun _ h => h) (by decide) (by decide) (fun header h => (formHeaders_valid header h).1)
    (fun header h => (formHeaders_valid header h).2) (l := {}) rfl rfl
    { method := .post, url := ['/'], version := ⟨1, 1⟩ } ['=']
  rw [← hline] at hscan
  generalize ht : put _ .body l _ = t at hscan
  have hmis : requestReader.missing t = some 1 :=
    ht ▸ missingOf_nil (stoul_natText (n := 1) (by decide))
  have hpro : requestReader.process (formText ['1'] ['=']) { currentQueryField := field } =
      requestReader.readBody .finish ['='] t := by
    unfold process formText
    rw [if_neg (by simp [requestReader]), hscan]
  rw [parse, show requestReader.enter _ = { currentQueryField := field } from rfl, hpro,
    readBody_full (by rw [← ht]; rfl) hmis (by simp), ← ht]
  cases field with
  | _ => rfl

theorem clean_of_probes (hsta : s.state = .method)
    (hqry : (requestReader.calls req [queryProbe] s.renew).1 =
      (requestReader.calls req [queryProbe] {}).1)
    (hform : (requestReader.calls req [formText ['1'] ['=']] s.renew).1 =
      (requestReader.calls req [formText ['1'] ['=']] {}).1) : Clean s := by
  obtain ⟨hmtd, hval, hesc, hbla⟩ := clean_of_queryProbe (s := s.renew) hsta rfl hqry
  have hali := alike_field hsta hmtd hval hesc hbla
  have hread := (coherent.parse_alike (formText ['1'] ['=']) hali).alike.req
  have hdata := parse_formText s.currentQueryField
  rw [← hread, (parse_of_calls hform).2, parse_formText []] at hdata
  refine ⟨hmtd, ?_, hval, hesc, hbla⟩
  by_contra hne
  rw [if_neg hne] at hdata
  cases hdata

theorem req_alike (s t : RequestParser) (h : Alike s t) : s.req = t.req := h.req

theorem Clean.of_alike (hs : Clean s) (h : Alike t s) : Clean t := by
  obtain ⟨i, hex, l, rfl, -, hl⟩ := h
  exact ⟨hs.method, hs.field, hs.value, hs.escape, hl.skipBlanks.trans hs.blanks⟩

theorem alike_fresh (hsta : s.state = .method) (h : Clean s) : Alike s.renew {} := by
  have hali := alike_field hsta h.method h.value h.escape h.blanks
  rwa [h.field] at hali

/-! ## Reset -/

/-- **After `reset` a parser behaves like a new one if it has left nothing of a query**, and only
then. -/
theorem reset_iff (s : RequestParser) :
    (∀ ps, (requestReader.calls req ps s.reset.renew).1 = (requestReader.calls req ps {}).1) ↔
      s.currentQueryField = [] ∧ s.currentQueryValue = [] ∧ s.hexParseState = .finished := by
  constructor
  · intro h
    have hcle : Clean s.reset := clean_of_probes rfl (h _) (h _)
    exact ⟨hcle.field, hcle.value, hcle.escape⟩
  · rintro ⟨hfie, hval, hesc⟩ ps
    have hcle : Clean s.reset := ⟨rfl, hfie, hval, hesc, rfl⟩
    exact (coherent.calls_alike req_alike ps (alike_fresh rfl hcle)).1

/-- A value that was not read to its end is found in the next query. -/
theorem reset_keeps_value :
    (requestReader.calls req [queryProbe]
      (requestReader.parse "GET /?a=b".toList {}).2.reset.renew).1 ≠
      (requestReader.calls req [queryProbe] {}).1 := by
  decide

/-! ## Requests one after the other -/

/-- The calls ask for more, and the last one ends the request. -/
def Complete (ps : List Str) : Prop :=
  ∃ k, (requestReader.calls req ps {}).1.map Prod.fst = replicate k .more ++ [.finish]

theorem state_of_complete {ps : List Str} (h : Complete ps) :
    (requestReader.calls req ps {}).2.state = .method := by
  obtain ⟨k, hk⟩ := h
  obtain ⟨t, ht⟩ := calls_finish hk
  rw [ht]
  rfl

theorem complete_queryProbe : Complete [queryProbe] := ⟨0, by decide⟩

theorem complete_formText : Complete [formText ['1'] ['=']] := ⟨0, by decide +kernel⟩

/-- **Requests are read like by new parsers as long as each leaves nothing behind**, and a request
that leaves something is found by a next one. -/
theorem keepAlive_iff (pss : List (List Str)) (ps qs : List Str) :
    ((∀ qs ∈ pss, Complete qs ∧ Clean (requestReader.calls req qs {}).2) →
      requestReader.talk req renew (pss ++ [ps]) {} = (pss ++ [ps]).map fun qs =>
      (requestReader.calls req qs {}).1) ∧
    (Complete qs → ((∀ ps, Complete ps → requestReader.talk req renew [qs, ps] {} =
          [(requestReader.calls req qs {}).1, (requestReader.calls req ps {}).1]) ↔
        Clean (requestReader.calls req qs {}).2)) := by
  have hrun (pss : List (List Str)) (ps : List Str)
      (h : ∀ qs ∈ pss, Complete qs ∧ Clean (requestReader.calls req qs {}).2) :
      requestReader.talk req renew (pss ++ [ps]) {} = (pss ++ [ps]).map fun qs =>
        (requestReader.calls req qs {}).1 :=
    coherent.talk_alike (s := {}) req_alike (fun qs hqs t ht =>
      alike_fresh (ht.state.trans (state_of_complete (h qs hqs).1))
      ((h qs hqs).2.of_alike ht)) (Same.refl {}).1 ps
  refine ⟨hrun pss ps, fun hqs => ⟨fun h => ?_, fun hcle ps _ => ?_⟩⟩
  · have hnext {ps : List Str} (hps : Complete ps) :
        (requestReader.calls req ps (requestReader.calls req qs {}).2.renew).1 =
          (requestReader.calls req ps {}).1 :=
      (cons.inj (cons.inj (h ps hps)).2).1
    exact clean_of_probes (state_of_complete hqs) (hnext complete_queryProbe)
      (hnext complete_formText)
  · exact hrun [qs] ps (forall_mem_singleton.mpr ⟨hqs, hcle⟩)

/-- The last value of a form is found in the next query. -/
theorem form_leaves_value : Complete [formText ['3'] ['a', '=', '1']] ∧ Complete [queryProbe] ∧
      requestReader.talk req renew [[formText ['3'] ['a', '=', '1']], [queryProbe]] {} ≠
        [(requestReader.calls req [formText ['3'] ['a', '=', '1']] {}).1,
          (requestReader.calls req [queryProbe] {}).1] :=
  ⟨⟨0, by decide +kernel⟩, complete_queryProbe, by decide +kernel⟩

end RequestParser

end Matador.Http
