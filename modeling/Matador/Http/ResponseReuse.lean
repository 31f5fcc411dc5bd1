import Matador.Http.ResponsePieces

/-!
# A response parser that is used again

`response_parser` returns to its start behind a body only. A response without one leaves it in the
body, and the next response is taken for that body. As in a request, a line that continues a header
with nothing but blanks leaves `skip_blanks_` set.
-/

namespace Matador.Http

open List Lib Reader

/-! ## Lines of blanks -/

/-- Where a text is in a line: within it, at its start, behind blanks at its start, or behind a line
of blanks only. -/
inductive LineStart
  | within | start | blanks | blankLine
  deriving DecidableEq

def LineStart.next : LineStart → Char → LineStart
  | .blankLine, _ => .blankLine
  | b, c =>
    if c = '\r' then (if b = .blanks then .blankLine else .start)
    else if c = '\n' then .start
    else if c = ' ' ∨ c = '\t' then (if b = .within then .within else .blanks)
    else .within

/-- A line of the text continues the one before it with nothing but blanks. -/
def HasBlankLine (text : Str) : Prop := text.foldl LineStart.next .within = .blankLine

instance (text : Str) : Decidable (HasBlankLine text) := inferInstanceAs (Decidable (_ = _))

/-- As long as there was no such line, `skip_blanks_` is set in blanks at the start of a line
only. -/
def LineStart.Tracks (b : LineStart) (state : LineState) (l : Lines) : Prop :=
  b = .blankLine ∨ (l.skipBlanks = true → b = .blanks ∧ state = .headerValue) ∧
    (state = .headerNewline → b = .start)

theorem Lines.skipBlanks_fold (l : Lines) : l.fold.skipBlanks = false := by
  unfold Lines.fold
  split_ifs with hblk hskip
  · simp only [Bool.and_eq_true, Bool.not_eq_true'] at hblk
    exact hblk.2
  · rfl
  · exact Bool.eq_false_of_not_eq_true hskip

namespace LineStart

theorem Tracks.skipBlanks {b : LineStart} {state : LineState} {l : Lines} (h : b.Tracks state l)
    (hb : b ≠ .blankLine) (hst : state ≠ .headerValue) : l.skipBlanks = false := by
  by_contra hskip
  exact hst ((h.resolve_left hb).1 (Bool.eq_true_of_not_eq_false hskip)).2

theorem tracks_of_skipBlanks {b : LineStart} {state : LineState} {l : Lines}
    (hskip : l.skipBlanks = false) (hst : state ≠ .headerNewline) : b.Tracks state l :=
  .inr ⟨fun h => absurd (hskip.symm.trans h) nofun, fun h => absurd h hst⟩

variable {M : Type} {valueChar : Char → Bool} {insertHeader : Str → Str → M → M}

theorem next_return {b : LineStart} : b.next '\r' = .blankLine ∨ b.next '\r' = .start := by
  cases b <;> decide

theorem Tracks.step {b : LineStart} {state state' : LineState} {l l' : Lines} {m m' : M} {c : Char}
    (h : b.Tracks state l)
    (hstep : Lines.step valueChar insertHeader c state l m = some (state', l', m')) :
    (b.next c).Tracks state' l' := by
  by_cases hb : b = .blankLine
  · rw [hb]
    exact .inl rfl
  cases state with
  | headerValue =>
    simp only [Lines.step, Lines.parseHeaderValue] at hstep
    split_ifs at hstep with hblk hval hcr
    · cases hstep
      refine .inr ⟨fun hskip => ⟨?_, rfl⟩, fun hst => by cases hst⟩
      obtain ⟨rfl, -⟩ := (h.resolve_left hb).1 hskip
      rcases (by simpa using hblk : c = ' ' ∨ c = '\t') with rfl | rfl <;> rfl
    · cases hstep
      exact tracks_of_skipBlanks (Lines.skipBlanks_fold l) fun h => by cases h
    · cases hstep
      subst hcr
      by_cases hskip : l.skipBlanks = true
      · obtain ⟨rfl, -⟩ := (h.resolve_left hb).1 hskip
        exact .inl rfl
      · exact next_return.imp_right fun hstart => ⟨fun h => absurd h hskip, fun _ => hstart⟩
    · cases hstep
  | headerNewline =>
    have hskip := h.skipBlanks hb (by decide)
    obtain rfl := (h.resolve_left hb).2 rfl
    simp only [Lines.step, Lines.parseHeaderNewline] at hstep
    split_ifs at hstep with hlf hblk
    · cases hstep
      subst hlf
      exact .inr ⟨fun h => absurd (hskip.symm.trans h) Bool.false_ne_true, fun _ => rfl⟩
    · cases hstep
      refine .inr ⟨fun _ => ⟨?_, rfl⟩, fun hst => by cases hst⟩
      rcases (by simpa using hblk : c = ' ' ∨ c = '\t') with rfl | rfl <;> rfl
    · cases hstep
      exact tracks_of_skipBlanks hskip (by decide)
    · cases hstep
      exact tracks_of_skipBlanks hskip (by decide)
  | body => cases hstep
  | _ =>
    have hskip := h.skipBlanks hb (by decide)
    simp only [Lines.step, Lines.parseHeader, Lines.parseHeaderKey, Lines.parseHeaderValueBegin,
      Lines.parseHeaderFinish] at hstep
    split_ifs at hstep
    all_goals first
      | cases hstep; done
      | cases hstep; exact tracks_of_skipBlanks hskip fun h => by cases h

end LineStart

namespace ResponseParser

/-! ## What a head leaves -/

variable {s t : ResponseParser}

/-- The parser behind a text: the status is forgotten behind its line, and no blanks are to be
skipped but in a line that begins with them. -/
structure Behind (text : Str) (s : ResponseParser) : Prop where
  status : ∀ state, s.state = .line state → s.currentStatus = []
  body : s.resp.body = []
  lines : (text.foldl LineStart.next .within).Tracks s.lineState s.lines

theorem behind_start : Behind [] {} := ⟨nofun, rfl, .inr ⟨nofun, nofun⟩⟩

theorem body_insertHeader (key value : Str) (r : Response) :
    (r.insertHeader key value).body = r.body := by
  unfold Response.insertHeader
  split_ifs <;> rfl

theorem Behind.of_status {text : Str} {c : Char} (h : Behind text s) (hs : s.lineState = .header)
    (ht : t.lineState = .header) (hlines : t.lines = s.lines) (hbody : t.resp.body = s.resp.body)
    (hstatus : ∀ state, t.state = .line state → t.currentStatus = []) : Behind (text ++ [c]) t where
  status := hstatus
  body := hbody.trans h.body
  lines := by
    have htr := h.lines
    rw [hs] at htr
    rw [foldl_append, ht, hlines]
    by_cases hb : text.foldl LineStart.next .within = .blankLine
    · rw [hb]
      exact .inl rfl
    · exact LineStart.tracks_of_skipBlanks (htr.skipBlanks hb nofun) nofun

theorem Behind.step {text : Str} {c : Char} {v : Verdict} (h : Behind text s)
    (hstep : step c s = (v, t)) (hv : v = .accept ∨ v = .finish) : Behind (text ++ [c]) t := by
  obtain ⟨state, index, status, lines, resp⟩ := s
  cases state with
  | line state =>
    simp only [ResponseParser.step, parseLine, Lines.read] at hstep
    have hsome {r} (hr : Lines.step isValueChar Response.insertHeader c state lines resp = some r) :
        Behind (text ++ [c]) ⟨.line r.1, index, status, r.2.1, r.2.2⟩ := by
      refine ⟨fun _ _ => h.status state rfl,
        (Lines.frame_step Response.body body_insertHeader hr).trans h.body, ?_⟩
      rw [foldl_append]
      exact h.lines.step hr
    split at hstep
    · next hr =>
      cases hstep
      exact hsome hr
    · cases hstep
      cases hv <;> contradiction
  | _ =>
    simp only [ResponseParser.step, parseVersion, parseVersionWord, parseMajorVersion,
      parseMinorVersion, parseVersionDigit, parseStatusCode, parseStatusText] at hstep
    split_ifs at hstep
    all_goals try split at hstep
    all_goals
      cases hstep
      exact h.of_status rfl rfl rfl rfl (by simp)

/-- **A head without a line of blanks leaves nothing behind.** -/
theorem scan_head {head : Str} (h : responseReader.scan head {} = (.finish, t, []))
    (hblk : ¬HasBlankLine head) :
    t.state = .line .body ∧ t.resp.body = [] ∧ t.currentStatus = [] ∧
    t.lines.skipBlanks = false := by
  rcases scan_cases Behind (fun c u s s' hs hst => hs.step hst (.inl rfl)) [] behind_start
    (passes_of_finish h []).of_append with ⟨t', ht', -⟩ | ⟨v, t', u, c, s, rest, ht', -,
      hu, hs, hst⟩
  · rw [h] at ht'
    cases ht'
  · rw [h] at ht'
    cases ht'
    have hend := hs.step hst (.inr rfl)
    rw [nil_append, ← hu] at hend
    have hbody : t.state = .line .body := beq_iff_eq.mp (follows.moves hst).2
    exact ⟨hbody, hend.body, hend.status _ hbody,
      hend.lines.skipBlanks hblk (by rw [lineState, hbody]; decide)⟩

/-! ## Responses one after the other -/

def renew (s : ResponseParser) : ResponseParser := { s with resp := {} }

/-- The parser is at its start, and nothing is left of a status or a header line. -/
structure Clean (s : ResponseParser) : Prop where
  state : s.state = .version
  status : s.currentStatus = []
  blanks : s.lines.skipBlanks = false

theorem Clean.of_alike (hs : Clean s) (h : Alike t s) : Clean t := by
  obtain ⟨i, l, rfl, hl⟩ := h
  exact ⟨hs.state, hs.status, hl.skipBlanks.trans hs.blanks⟩

theorem alike_fresh (h : Clean s) : Alike s.renew {} := by
  obtain ⟨state, i, status, l, resp⟩ := s
  cases h.state
  cases h.status
  exact ⟨i, l, rfl, h.blanks⟩

/-- A response in pieces: its head has no line of blanks and announces the length of the body, and
the first piece holds the word `HTTP/`. -/
structure Delivered (head body : Str) (pieces : List Str) : Prop where
  length : ∃ t, responseReader.scan head {} = (.finish, t, []) ∧
    stoul t.resp.content.length = some body.length
  blanks : ¬HasBlankLine head
  text : pieces.flatten = head ++ body
  nonempty : ∀ p ∈ pieces, p ≠ []
  first : FirstHoldsWord pieces

/-- The parser behind a response: only a body makes it return to its start. -/
theorem Delivered.exists_alike {head body : Str} {pieces : List Str}
    (h : Delivered head body pieces) :
    ∃ t : ResponseParser, t.state = .line .body ∧ t.currentStatus = [] ∧
    t.lines.skipBlanks = false ∧ Alike (responseReader.calls resp pieces {}).2
        (if body = [] then t else { t with resp.body := body, state := .version }) := by
  obtain ⟨t, hscan, hlen⟩ := h.length
  obtain ⟨hstate, hemp, hstatus, hskip⟩ := scan_head hscan h.blanks
  have hmis : responseReader.missing t = some body.length := by
    rw [← missingOf_nil hlen, ← hemp]
    rfl
  have hsgl := single_of_finish (R := responseReader) rfl hscan rfl hmis (Nat.le_refl _)
  rw [← h.text] at hsgl
  have hpro : responseReader.process pieces.flatten {} =
      (.finish, if body = [] then t else { t with resp.body := body, state := .version }) := by
    rw [h.text, process, scan_append (passes_of_finish hscan body).of_append, hscan]
    show responseReader.readBody .finish body t = _
    split_ifs with hbody
    · subst hbody
      exact readBody_nil hmis
    · rw [readBody_full rfl hmis hbody]
      show (_, { t with resp.body := t.resp.body ++ body, state := .version }) = _
      rw [hemp, nil_append]
  have hfeed (qs rs : List Str) (hpcs : pieces = qs ++ rs) :
      Agree Same Alike (responseReader.feed qs {}) (responseReader.parse qs.flatten {}) := by
    have hsgl' := hsgl
    rw [hpcs, flatten_append] at hsgl'
    refine (coherent.feed_pieces rfl rfl (fun p hp => h.nonempty p (by simp [hpcs, hp]))
      hsgl'.of_append).1
      fun us vs hqs hvs t' ht' =>
        not_inWord_of_first h.first (?_ : pieces = us ++ (vs ++ rs)) (by simp [hvs]) ht'
    rw [hpcs, hqs, append_assoc]
  refine ⟨t, hstate, hstatus, hskip, ?_⟩
  rw [calls_snd fun qs rs hpcs hrs => ?_]
  · have hagr := hfeed pieces [] (append_nil _).symm
    rw [parse, show responseReader.enter {} = {} from rfl, hpro] at hagr
    exact hagr.alike
  · have hne : rs.flatten ≠ [] := by
      obtain ⟨r, rs, rfl⟩ := exists_cons_of_ne_nil hrs
      simp [h.nonempty r (by simp [hpcs])]
    rw [hpcs, flatten_append] at hsgl hpro
    rw [(hfeed qs rs hpcs).fst, parse, close_fst]
    exact Counted.more_of_single rfl hsgl hne
      (by rw [show responseReader.enter {} = {} from rfl, hpro])

theorem Delivered.clean {head body : Str} {pieces : List Str} (h : Delivered head body pieces)
    (hbody : body ≠ []) : Clean (responseReader.calls resp pieces {}).2 := by
  obtain ⟨t, -, hstatus, hskip, halike⟩ := h.exists_alike
  rw [if_neg hbody] at halike
  have hcle : Clean { t with resp.body := body, state := .version } := ⟨rfl, hstatus, hskip⟩
  exact hcle.of_alike halike

def shortResponse (length : Char) (body : Str) : Str :=
  "HTTP/1.1 404 N\r\nContent-Length: ".toList ++ length :: "\r\n\r\n".toList ++ body

theorem delivered_short : Delivered (shortResponse '0' []) [] [shortResponse '0' []] where
  length := ⟨_, rfl, by decide⟩
  blanks := by decide
  text := rfl
  nonempty := by decide
  first := by rintro p q ps ⟨⟩

theorem calls_of_body (hs : s.state = .line .body) :
    (responseReader.calls resp [shortResponse '0' []] s.renew).1 =
      [(.finish, { body := shortResponse '0' [] })] := by
  have hbody : responseReader.inBody s.renew = true := by simp [responseReader, renew, hs]
  have hent : responseReader.enter s.renew = s.renew := if_pos hs
  have hmis : responseReader.missing s.renew = some 0 :=
    missingOf_nil (stoul_natText (n := 0) (by decide))
  have hread : responseReader.readBody .more (shortResponse '0' []) s.renew =
      (.finish, responseReader.assign (shortResponse '0' []) s.renew) := by
    unfold readBody
    rw [hmis]
    rfl
  rw [calls, parse, hent, process, if_pos hbody, hread]
  rfl

/-- **Responses with bodies are read like by new parsers**, and behind a response without a body the
next one is not. -/
theorem responses_iff (pss : List (List Str)) (ps qs : List Str) (head body : Str) :
    ((∀ qs ∈ pss, ∃ head body, Delivered head body qs ∧ body ≠ []) →
      responseReader.talk resp renew (pss ++ [ps]) {} = (pss ++ [ps]).map fun qs =>
      (responseReader.calls resp qs {}).1) ∧
    (Delivered head body qs → ((∀ ps, (∃ head body, Delivered head body ps) →
        responseReader.talk resp renew [qs, ps] {} =
          [(responseReader.calls resp qs {}).1, (responseReader.calls resp ps {}).1]) ↔
          body ≠ [])) := by
  have hrun (pss : List (List Str)) (ps : List Str)
    (h : ∀ qs ∈ pss, ∃ head body, Delivered head body qs ∧ body ≠ []) :
      responseReader.talk resp renew (pss ++ [ps]) {} =
        (pss ++ [ps]).map fun qs => (responseReader.calls resp qs {}).1 := by
    refine coherent.talk_alike (s := {}) (fun s t h => h.resp) (fun qs hqs t ht => ?_)
      (Same.refl {}).1 ps
    obtain ⟨head, body, hdel, hbody⟩ := h qs hqs
    exact alike_fresh ((hdel.clean hbody).of_alike ht)
  refine ⟨hrun pss ps, fun hqs => ⟨fun h hbody => ?_, fun hbody ps _ => ?_⟩⟩
  · obtain ⟨t, hstate, -, -, halike⟩ := hqs.exists_alike
    rw [if_pos hbody] at halike
    have hnext :
        (responseReader.calls resp [shortResponse '0' []]
          (responseReader.calls resp qs {}).2.renew).1 = _ :=
      (cons.inj (cons.inj (h _ ⟨_, _, delivered_short⟩)).2).1
    rw [calls_of_body (halike.state.trans hstate)] at hnext
    revert hnext
    decide +kernel
  · exact hrun [qs] ps (forall_mem_singleton.mpr ⟨head, body, hqs, hbody⟩)

theorem responses_behind_body :
    responseReader.talk resp renew [[shortResponse '1' ['x']], [shortResponse '0' []]] {} =
      [(responseReader.calls resp [shortResponse '1' ['x']] {}).1,
        (responseReader.calls resp [shortResponse '0' []] {}).1] :=
  (responses_iff [[shortResponse '1' ['x']]] [shortResponse '0' []] [] [] []).1
    (forall_mem_singleton.mpr
      ⟨shortResponse '1' [], ['x'],
        ⟨⟨_, rfl, by decide⟩, by decide, rfl, by decide, by rintro p q ps ⟨⟩⟩, nofun⟩)

/-- A response is taken for the body of the one before it, and has the status of a fresh one. -/
theorem response_taken_for_body :
    (responseReader.calls resp [shortResponse '0' []] {}).1.map (Prod.map id (·.status)) =
      [(.finish, .notFound)] ∧
      (responseReader.talk resp renew [[shortResponse '0' []], [shortResponse '0' []]] {}).map
          (·.map (Prod.map id (·.status))) = [[(.finish, .notFound)], [(.finish, .ok)]] := by
  decide +kernel

end ResponseParser

end Matador.Http
