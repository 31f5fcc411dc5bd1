import Matador.Json.Commas

/-!
# Objects that do not close

What the serializer makes of an object that does not close, if no name and no string of it has a
comma (erasing a comma of these does no harm): `erase` throws, or the buffer is lost.
-/

namespace Matador.Json

open List Rfc Spot Option

/-! ## Frames -/

variable {s s' : JsonSerializer} {cs : Str} {a : Attribute}

namespace JsonSerializer

structure Frame (s s' : JsonSerializer) : Prop where
  depth : s'.depth = s.depth
  isArray : s.isArray = false → s'.isArray = false
  balanced : Balanced s.json → Balanced s'.json
  lost : Balanced s.json → Lost s.json → Lost s'.json

theorem Frame.isArray_before (h : Frame s s') (harra : s'.isArray) : s.isArray := by
  cases harr : s.isArray with
  | true => rfl
  | false =>
    rw [h.isArray harr] at harra
    cases harra

theorem Frame.refl (s : JsonSerializer) : Frame s s := ⟨rfl, id, id, fun _ => id⟩

theorem Frame.trans {s'' : JsonSerializer} (h : Frame s s') (h' : Frame s' s'') : Frame s s'' where
  depth := h'.depth.trans h.depth
  isArray := fun ha => h'.isArray (h.isArray ha)
  balanced := fun hb => h'.balanced (h.balanced hb)
  lost := fun hb hl => h'.lost (h.balanced hb) (h.lost hb hl)

theorem frame_write {text : Str} (h : Balanced text) (s : JsonSerializer) :
    Frame s (s.write text) where
  depth := rfl
  isArray := id
  balanced := fun hs => hs.append h
  lost := fun _ hl => hl.append text

variable (f : JsonFormat)

theorem balanced_quoted (s : PlainText) : Balanced (quoted s.chars) := by
  refine balanced_of_run (fun p hp => ?_) ?_
  · have hrun : p.run (stringText s.strChars) = .value := by
      rcases hp with rfl | rfl | rfl <;> exact (reads_string (.inl rfl) s.strChars).run
    rw [← stringText_strChars, hrun]
    exact .inr (.inr rfl)
  · simp only [quoted, mem_append, mem_cons, not_mem_nil, or_false]
    rintro ((h | h) | h)
    · cases h
    · exact (s.plain _ h).2.2 rfl
    · cases h

theorem balanced_numeral (n : Numeral) : Balanced n.text := by
  rw [← text_number]
  refine balanced_of_run (fun s hs => ?_) fun hmem =>
    absurd (isAtom_number n.number _ hmem) (by decide)
  rw [(reads_number hs n.number).run]
  exact .inr (.inr rfl)

def indentationWs (d : Nat) : Ws :=
  ⟨indentation f d, fun c hc => (lineWs f d).ws c (mem_append_right _ hc)⟩

def lineBreakWs : Ws := ⟨lineBreak f, fun c hc => (lineWs f 0).ws c (mem_append_left _ hc)⟩

theorem frame_newline (s : JsonSerializer) : Frame s (s.newline f) := by
  rw [newline_eq]
  exact frame_write (balanced_ws (lineBreakWs f)) s

theorem frame_writeId (id : PlainText) (s : JsonSerializer) : Frame s (s.writeId f id) := by
  rw [writeId_eq]
  exact frame_write ((balanced_ws (indentationWs f _)).append
    ((balanced_quoted id).append ⟨by decide, by decide⟩)) s

/-- A call that may throw. -/
def Frames (g : JsonSerializer → Option JsonSerializer) : Prop := ∀ s s', g s = some s' → Frame s s'

theorem beginObject_json (s : JsonSerializer) :
    (s.beginObject f).json = s.json ++ '{' :: lineBreak f := by
  simp [beginObject, newline_eq, write]

theorem endObject_eq (s : JsonSerializer) : s.endObject f =
    ⟨s.json ++ (indentation f (s.depth - 1) ++
        '}' :: if 0 < s.depth - 1 ∧ s.isArray = false then [','] else []),
      s.depth - 1, s.isArray⟩ := by
  by_cases h : 0 < s.depth - 1 ∧ s.isArray = false
  · simp [endObject, indent, write, indentation, h]
  · rw [if_neg h]
    exact (if_neg h).trans (by simp [indent, write, indentation])

theorem endArray_eq (s : JsonSerializer) :
    s.endArray = ⟨s.json ++ ']' :: (if 0 < s.depth then [','] else []), s.depth, false⟩ := by
  by_cases h : 0 < s.depth
  · simp [endArray, write, if_pos h]
  · simp [endArray, write, if_neg h]

theorem appendWith_eq_some {body : JsonSerializer → Option JsonSerializer}
    (h : appendWith f body s = some s') :
    ∃ s₁ json, body (s.beginObject f) = some s₁ ∧ eraseLastComma s₁.json = some json ∧
      s' = endObject f { s₁ with json := json } := by
  obtain ⟨s₁, hbody, hend⟩ := bind_eq_some_iff.mp h
  obtain ⟨json, hera, rfl⟩ := map_eq_some_iff.mp hend
  exact ⟨s₁, json, hbody, hera, rfl⟩

theorem balanced_beginObject (h : Balanced s.json) : Balanced (s.beginObject f).json := by
  have hbra : Balanced ['{'] := ⟨by decide, by decide⟩
  rw [beginObject_json]
  exact h.append (hbra.append (balanced_ws (lineBreakWs f)))

theorem frames_appendWith {body : JsonSerializer → Option JsonSerializer} (h : Frames body) :
    Frames (appendWith f body) := by
  intro s s' hs
  obtain ⟨s₁, json, hbody, hera, rfl⟩ := appendWith_eq_some f hs
  have hfrm := h _ _ hbody
  have hbeg (hs : Balanced s.json) : Balanced (s.beginObject f).json := balanced_beginObject f hs
  rw [endObject_eq]
  refine ⟨?_, fun ha => ?_, fun hb => ?_, fun hb hl => ?_⟩
  · show s₁.depth - 1 = s.depth
    rw [hfrm.depth, beginObject_depth, Nat.add_sub_cancel]
  · exact hfrm.isArray (by rw [beginObject_isArray, ha])
  · refine ((hfrm.balanced (hbeg hb)).eraseLastComma hera).append
      ((balanced_ws (indentationWs f _)).append ?_)
    split <;> exact ⟨by decide, by decide⟩
  · have hlost : Lost (s.beginObject f).json := by
      rw [beginObject_json]
      exact hl.append _
    exact ((hfrm.lost (hbeg hb) hlost).eraseLastComma (hfrm.balanced (hbeg hb)).backslash
      hera).append _

theorem frames_onContainer {items : JsonSerializer → Option JsonSerializer} (h : Frames items)
    (id : PlainText) (hs : s.onContainer f id items = some s') : Frame (s.writeId f id) s' := by
  obtain ⟨s₁, hitm, rfl⟩ := map_eq_some_iff.mp hs
  have hfrm := h _ _ hitm
  have hbeg : Frame (s.writeId f id) ((s.writeId f id).write ['[']) :=
    frame_write ⟨by decide, by decide⟩ _
  have hend : Frame s₁ (s₁.write (']' :: if 0 < s₁.depth then [','] else [])) :=
    frame_write (by split <;> exact ⟨by decide, by decide⟩) _
  rw [endArray_eq]
  refine Frame.trans ⟨?_, fun _ => rfl, fun hb => ?_, fun hb hl => ?_⟩ (frame_newline f _)
  · exact hfrm.depth
  · exact hend.balanced (hfrm.balanced (hbeg.balanced hb))
  · exact hend.lost (hfrm.balanced (hbeg.balanced hb))
      (hfrm.lost (hbeg.balanced hb) (hbeg.lost hb hl))

theorem frame_join {texts : List Str} (h : ∀ t ∈ texts, Balanced t) (s : JsonSerializer) :
    Frame s (s.join texts) := by
  have hfold (ts : List Str) (hts : ∀ t ∈ ts, Balanced t) (s : JsonSerializer) :
      Frame s (ts.foldl (fun s text => (s.write [',']).write text) s) := by
    induction ts generalizing s with
    | nil => exact .refl s
    | cons t ts ih =>
      obtain ⟨ht, hts⟩ := forall_mem_cons.mp hts
      have hwri : Frame s ((s.write [',']).write t) :=
        (frame_write ⟨by decide, by decide⟩ s).trans (frame_write ht _)
      exact hwri.trans (ih hts _)
  cases texts with
  | nil => exact .refl s
  | cons t ts =>
    obtain ⟨ht, hts⟩ := forall_mem_cons.mp h
    exact (frame_write ht s).trans (hfold ts hts _)

theorem frame_onPlain {text : Str} (h : Balanced text) (id : PlainText) (s : JsonSerializer) :
    Frame (s.writeId f id) (s.onPlain f id text) :=
  ((frame_write h _).trans (frame_write ⟨by decide, by decide⟩ _)).trans (frame_newline f _)

theorem onAttribute_of_not_writes (h : a.writes = false) (id : PlainText) (s : JsonSerializer) :
    onAttribute f a id s = some s := by
  cases a with
  | string str =>
    have hemp : str.chars.isEmpty := by simpa [Attribute.writes] using h
    rw [onAttribute, if_pos hemp]
  | number _ | boolean _ | primaryKey _ | object _ | numbers _ | strings _ | objects _ => cases h

theorem process_of_not_writes {fields : List (PlainText × Attribute)}
    (h : fields.any (·.2.writes) = false) (s : JsonSerializer) : process f fields s = some s := by
  induction fields with
  | nil => rfl
  | cons field fields ih =>
    rw [any_cons, Bool.or_eq_false_iff] at h
    rw [process, onAttribute_of_not_writes f h.1, bind_some, ih h.2]

theorem joinObjects_cons {first : Bool} {o : List (PlainText × Attribute)}
    {os : List (List (PlainText × Attribute))} (h : joinObjects f first (o :: os) s = some s') :
    ∃ s₀ s₁, s₀ = (if first then s else s.write [',']) ∧ Frame s s₀ ∧
    appendWith f (process f o) s₀ = some s₁ ∧ joinObjects f false os s₁ = some s' := by
  obtain ⟨s₁, hobj, hrest⟩ := bind_eq_some_iff.mp h
  refine ⟨_, s₁, rfl, ?_, hobj, hrest⟩
  split
  · exact .refl s
  · exact frame_write ⟨by decide, by decide⟩ s

mutual

theorem frame_onAttribute (a : Attribute) (h : a.writes) (id : PlainText) {s s' : JsonSerializer}
    (hs : onAttribute f a id s = some s') : Frame (s.writeId f id) s' := by
  match a with
  | .number n =>
    cases hs
    exact frame_onPlain f (balanced_numeral n) id s
  | .boolean true | .boolean false =>
    cases hs
    exact frame_onPlain f ⟨by decide, by decide⟩ id s
  | .string str =>
    have hemp : str.chars.isEmpty = false := by simpa [Attribute.writes] using h
    rw [onAttribute, if_neg (by rw [hemp]; decide)] at hs
    cases hs
    exact frame_onPlain f (balanced_quoted str) id s
  | .primaryKey str =>
    cases hs
    exact frame_onPlain f (balanced_quoted str) id s
  | .object fields =>
    obtain ⟨s₁, hobj, rfl⟩ := map_eq_some_iff.mp hs
    exact (frames_appendWith f (frames_process fields) _ _ hobj).trans (frame_newline f s₁)
  | .numbers ns =>
    rw [onAttribute] at hs
    refine frames_onContainer f ?_ id hs
    intro t t' ht
    cases ht
    exact frame_join (fun text htext => by
      obtain ⟨n, -, rfl⟩ := mem_map.mp htext
      exact balanced_numeral n) t
  | .strings ss =>
    rw [onAttribute] at hs
    refine frames_onContainer f ?_ id hs
    intro t t' ht
    cases ht
    exact frame_join (fun text htext => by
      obtain ⟨str, -, rfl⟩ := mem_map.mp htext
      exact balanced_quoted str) t
  | .objects os => exact frames_onContainer f (frames_joinObjects true os) id hs

theorem frames_process (fields : List (PlainText × Attribute)) : Frames (process f fields) := by
  intro s s' hs
  match fields with
  | [] =>
    cases hs
    exact .refl s
  | (id, a) :: fields =>
    obtain ⟨s₁, hatt, hrest⟩ := bind_eq_some_iff.mp hs
    refine Frame.trans ?_ (frames_process fields _ _ hrest)
    cases hwrs : a.writes with
    | true => exact (frame_writeId f id s).trans (frame_onAttribute a hwrs id hatt)
    | false =>
      rw [onAttribute_of_not_writes f hwrs] at hatt
      cases hatt
      exact .refl s

theorem frames_joinObjects (first : Bool) (os : List (List (PlainText × Attribute))) :
    Frames (joinObjects f first os) := by
  intro s s' hs
  match os with
  | [] =>
    cases hs
    exact .refl s
  | o :: os =>
    obtain ⟨s₀, s₁, -, hfrm, hobj, hrest⟩ := joinObjects_cons f hs
    exact (hfrm.trans (frames_appendWith f (frames_process o) _ _ hobj)).trans
      (frames_joinObjects false os _ _ hrest)

end

end JsonSerializer

/-! ## Where the last comma is -/

/-- Behind the last comma, if there is one, begins a value, and in front of it ends one. -/
def Solid (cs : Str) : Prop :=
  ',' ∉ cs ∨ ∃ a b, cs = a ++ ',' :: b ∧ ',' ∉ b ∧ Spot.run .opening a = .value ∧ Begins b

theorem Solid.lost {cs' : Str} (h : Solid cs) (he : eraseLastComma cs = some cs') : Lost cs' := by
  obtain ⟨a, b, rfl, hb, rfl⟩ := eraseLastComma_eq_some he
  rcases h with h | ⟨a', b', heq, hb', hval, hbeg⟩
  · exact absurd (mem_append_right _ mem_cons_self) h
  · have he' := eraseLastComma_append hb a
    rw [heq, eraseLastComma_append hb' a'] at he'
    rw [← some.inj he']
    exact .juxtaposed (juxtaposes_of_begins hval hbeg)

variable {t : Str}

theorem Solid.append (h : Solid cs) (ht : ',' ∉ t) : Solid (cs ++ t) := by
  rcases h with h | ⟨a, b, rfl, hb, hval, hbeg⟩
  · exact .inl (not_mem_append h ht)
  · exact .inr ⟨a, b ++ t, by simp, not_mem_append hb ht, hval, hbeg.append t⟩

/-- Behind an opening bracket. -/
structure Opened (cs : Str) : Prop where
  solid : Solid cs
  run : Spot.run .opening cs = .opening

/-- Behind the comma of a field. -/
def Behind (cs : Str) : Prop :=
  ∃ (a : Str) (ws : Ws), cs = a ++ ',' :: ws.chars ∧ Spot.run .opening a = .value

/-- Behind a value, without a comma. -/
structure Closed (cs : Str) : Prop where
  solid : Solid cs
  run : Spot.run .opening cs = .value

/-- Where a field may stand. -/
def Ready (cs : Str) : Prop := Opened cs ∨ Behind cs

theorem expects_of_behind (h : Behind cs) : Spot.run .opening cs = .comma := by
  obtain ⟨a, ws, rfl, ha⟩ := h
  rw [run_append, ha]
  exact (reads_ws (.inr (.inl rfl)) ws).run

theorem expects_of_ready (h : Ready cs) : (Spot.run .opening cs).expects := by
  rcases h with h | h
  · exact .inl h.run
  · exact .inr (expects_of_behind h)

theorem solid_of_ready (h : Ready cs) (hbeg : Begins t) (ht : ',' ∉ t) : Solid (cs ++ t) := by
  rcases h with h | ⟨a, ws, rfl, ha⟩
  · exact h.solid.append ht
  · obtain ⟨ws', c, rest, rfl, hc⟩ := hbeg
    exact .inr ⟨a, ws.chars ++ (ws'.chars ++ c :: rest),
      by simp, not_mem_append (not_comma_mem_ws ws) ht, ha,
      ⟨⟨ws.chars ++ ws'.chars, forall_mem_append.mpr ⟨ws.ws, ws'.ws⟩⟩, c, rest, by simp, hc⟩⟩

theorem lost_of_closed (h : Closed cs) (hbeg : Begins t) : Lost (cs ++ t) :=
  .juxtaposed (juxtaposes_of_begins h.run hbeg)

/-! ## Objects without commas in their texts -/

mutual

def Attribute.commaFree : Attribute → Prop
  | .string s => ',' ∉ s.chars
  | .primaryKey s => ',' ∉ s.chars
  | .object fields => fieldsCommaFree fields
  | .objects os => elementsCommaFree os
  | _ => True

def fieldsCommaFree : List (PlainText × Attribute) → Prop
  | [] => True
  | (id, a) :: fields => ',' ∉ id.chars ∧ a.commaFree ∧ fieldsCommaFree fields

def elementsCommaFree : List (List (PlainText × Attribute)) → Prop
  | [] => True
  | o :: os => fieldsCommaFree o ∧ elementsCommaFree os

end

theorem not_comma_mem_quoted {s : PlainText} (h : ',' ∉ s.chars) : ',' ∉ quoted s.chars := by
  simp [quoted, h]

theorem not_comma_mem_number (n : Numeral) : ',' ∉ n.number.text :=
  fun hmem => absurd (isAtom_number n.number _ hmem) (by decide)

namespace JsonSerializer

variable (f : JsonFormat)

theorem not_comma_mem_indentation (d : Nat) : ',' ∉ indentation f d :=
  fun hmem => absurd (eq_of_mem_replicate hmem) (by decide)

theorem not_comma_mem_value (hpln : a.isPlain) (hfree : a.commaFree) (d : Nat) :
    ',' ∉ (a.value f d).text := by
  cases a with
  | number n => exact not_comma_mem_number n
  | boolean b => cases b <;> simp [Attribute.value, Value.text]
  | string _ | primaryKey _ =>
    rw [Attribute.value, Value.text, stringText_strChars]
    exact not_comma_mem_quoted hfree
  | object _ | numbers _ | strings _ | objects _ => cases hpln

/-- What `write_id` writes. -/
def idText (d : Nat) (id : PlainText) : Str := indentation f d ++ (quoted id.chars ++ [':', ' '])

theorem begins_idText (d : Nat) (id : PlainText) : Begins (idText f d id) :=
  ⟨indentationWs f d, '"', id.chars ++ ['"'] ++ [':', ' '], rfl, .inl rfl⟩

theorem reads_idText {s : Spot} (hs : s.expects) (d : Nat) (id : PlainText) :
    Reads s (idText f d id) .opening := by
  have hquo : Reads s (quoted id.chars) .value := by
    rw [← stringText_strChars]
    exact reads_string hs _
  exact (reads_ws hs.outside (indentationWs f d)).append (hquo.append ⟨rfl, rfl, rfl⟩)

variable {id : PlainText}

theorem not_comma_mem_idText (h : ',' ∉ id.chars) (d : Nat) : ',' ∉ idText f d id := by
  simp [idText, not_comma_mem_indentation, quoted, h]

theorem writeId_json (id : PlainText) (s : JsonSerializer) :
    (s.writeId f id).json = s.json ++ idText f s.depth id := by
  rw [writeId_eq]
  rfl

theorem fieldText_eq (d : Nat) (id : PlainText) (v : Value) :
    fieldText f d (id, v) = idText f d id ++ v.text := by
  simp [fieldText, idText]

theorem opened_brace (h : Ready cs) : Opened (cs ++ '{' :: lineBreak f) := by
  have hbeg : Begins ('{' :: lineBreak f) := ⟨⟨[], ws_nil⟩, '{', lineBreak f, rfl, .inr rfl⟩
  have hcom : ',' ∉ '{' :: lineBreak f := by simp [not_comma_mem_lineBreak]
  refine ⟨solid_of_ready h hbeg hcom, ?_⟩
  have hbra : Reads (Spot.run .opening cs) ['{'] .opening := by
    rcases expects_of_ready h with h | h <;> (rw [h]; exact ⟨rfl, rfl, rfl⟩)
  rw [run_append]
  exact (hbra.append (reads_ws (.inl rfl) (lineBreakWs f))).run

theorem opened_beginObject (h : Ready s.json) : Opened (s.beginObject f).json := by
  rw [beginObject_json]
  exact opened_brace f h

theorem opened_field (h : Ready cs) (hid : ',' ∉ id.chars) (d : Nat) :
    Opened (cs ++ idText f d id) := by
  refine ⟨solid_of_ready h (begins_idText f d id) (not_comma_mem_idText f hid d), ?_⟩
  rw [run_append]
  exact (reads_idText f (expects_of_ready h) d id).run

theorem opened_writeId (h : Ready s.json) (hid : ',' ∉ id.chars) :
    Opened (s.writeId f id).json := by
  rw [writeId_json]
  exact opened_field f h hid _

/-! ## Elements of a container -/

/-- In an object of an element, behind its brace or a field. -/
def Fresh (cs : Str) : Prop :=
  Opened cs ∨ ∃ (a : Str) (ws : Ws), cs = a ++ ',' :: ws.chars ∧ Closed a

theorem Fresh.ready (h : Fresh cs) : Ready cs := by
  rcases h with h | ⟨a, ws, rfl, ha⟩
  · exact .inl h
  · exact .inr ⟨a, ws, rfl, ha.run⟩

/-- In an object of an element, whose fields are plain if `p`. -/
structure Inside (p : Bool) (cs : Str) : Prop where
  balanced : Balanced cs
  place : Lost cs ∨ Closed cs ∨ Fresh cs ∧ p = true

variable {p : Bool}

theorem end_inside (h : Inside p s.json) (harr : s.isArray) {json : Str}
    (he : eraseLastComma s.json = some json) :
    Lost (endObject f { s with json := json }).json ∨
      Closed (endObject f { s with json := json }).json ∧ p ∧
      Spot.run .opening s.json = .comma := by
  have hend : (endObject f { s with json := json }).json =
      json ++ (indentation f (s.depth - 1) ++ ['}']) := by
    simp [endObject_eq, harr]
  rw [hend]
  rcases h.place with hlost | hcld | ⟨hope | ⟨a, ws, hcs, hcld⟩, hp⟩
  · exact .inl ((hlost.eraseLastComma h.balanced.backslash he).append _)
  · exact .inl ((hcld.solid.lost he).append _)
  · exact .inl ((hope.solid.lost he).append _)
  · rw [hcs, eraseLastComma_append (not_comma_mem_ws ws)] at he
    rw [← some.inj he]
    have hcom : ',' ∉ ws.chars ++ (indentation f (s.depth - 1) ++ ['}']) := by
      simp [not_comma_mem_ws, not_comma_mem_indentation]
    have hrds : Reads .value (ws.chars ++ (indentation f (s.depth - 1) ++ ['}'])) .value :=
      (reads_ws (.inr (.inr rfl)) ws).append
        ((reads_ws (.inr (.inr rfl)) (indentationWs f _)).append
          (reads_close (.inr rfl) (.inl rfl)))
    refine .inr ⟨?_, hp, expects_of_behind ⟨a, ws, hcs, hcld.run⟩⟩
    rw [append_assoc]
    refine ⟨hcld.solid.append hcom, ?_⟩
    rw [run_append, hcld.run]
    exact hrds.run

theorem append_inside {body : JsonSerializer → Option JsonSerializer}
    (hbody : ∀ s s', body s = some s' → s'.isArray → Inside true s.json → Inside p s'.json)
    (hb : Balanced s.json) (hrdy : Ready s.json) (hs : appendWith f body s = some s')
    (harr : s'.isArray) :
    Lost s'.json ∨ Closed s'.json ∧ p ∧ body (s.beginObject f) ≠ some (s.beginObject f) := by
  obtain ⟨s₁, json, hs₁, hera, rfl⟩ := appendWith_eq_some f hs
  have harr₁ : s₁.isArray := by simpa [endObject_eq] using harr
  have hope := opened_beginObject f hrdy
  have hins := hbody _ _ hs₁ harr₁ ⟨balanced_beginObject f hb, .inr (.inr ⟨.inl hope, rfl⟩)⟩
  rcases end_inside f hins harr₁ hera with h | ⟨h, hp, hrun⟩
  · exact .inl h
  · refine .inr ⟨h, hp, fun hsame => ?_⟩
    rw [hs₁] at hsame
    rw [some.inj hsame, hope.run] at hrun
    cases hrun

theorem closed_newline (h : Closed cs) : Closed (cs ++ lineBreak f) := by
  refine ⟨h.solid.append (not_comma_mem_lineBreak f), ?_⟩
  rw [run_append, h.run]
  exact (reads_ws (.inr (.inr rfl)) (lineBreakWs f)).run

theorem plain_inside (hpln : a.isPlain) (hid : ',' ∉ id.chars) (hfree : a.commaFree)
    (hs : onAttribute f a id s = some s') (h : Fresh s.json) : Fresh s'.json := by
  rw [onAttribute_of_isPlain f hpln, written] at hs
  cases hs
  split
  · have hid := opened_field f h.ready hid s.depth
    refine .inr ⟨s.json ++ idText f s.depth id ++ (a.value f s.depth).text, lineBreakWs f, ?_,
      hid.solid.append (not_comma_mem_value f hpln hfree _), ?_⟩
    · simp [write, written, fieldsText, fieldText_eq, lineBreakWs]
    · rw [run_append, hid.run]
      exact (reads_value _ (.inl rfl)).run
  · rw [written, fieldsText, flatMap_nil, write_nil]
    exact h

mutual

theorem onAttribute_inside (a : Attribute) {id : PlainText} (hid : ',' ∉ id.chars)
    (hfree : a.commaFree) {p : Bool} {s s' : JsonSerializer} (hs : onAttribute f a id s = some s')
    (harr : s'.isArray) (h : Inside p s.json) : Inside (p && a.isPlain) s'.json := by
  have hfrm : Frame s s' := frames_process f [(id, a)] s s' (by rw [process, hs]; rfl)
  have hbid := (frame_writeId f id s).balanced h.balanced
  refine ⟨hfrm.balanced h.balanced, ?_⟩
  rcases h.place with hlost | hcld | ⟨hfsh, rfl⟩
  · exact .inl (hfrm.lost h.balanced hlost)
  · cases hwrs : a.writes with
    | false =>
      rw [onAttribute_of_not_writes f hwrs] at hs
      cases hs
      exact .inr (.inl hcld)
    | true =>
      have hlost : Lost (s.writeId f id).json := by
        rw [writeId_json]
        exact lost_of_closed hcld (begins_idText f _ id)
      exact .inl ((frame_onAttribute f a hwrs id hs).lost hbid hlost)
  · have hcon {items : JsonSerializer → Option JsonSerializer}
        (h : s.onContainer f id items = some s') : False := by
      obtain ⟨s₁, -, rfl⟩ := map_eq_some_iff.mp h
      rw [newline_eq, write_isArray, endArray_eq] at harr
      cases harr
    match a with
    | .object fields =>
      obtain ⟨s₂, hobj, rfl⟩ := map_eq_some_iff.mp hs
      rw [newline_eq] at harr ⊢
      rcases append_inside f (fun _ _ =>
        process_inside fields hfree) hbid (.inl (opened_writeId f hfsh.ready hid))
        hobj harr with h | ⟨h, -⟩
      · exact .inl (h.append _)
      · exact .inr (.inl (closed_newline f h))
    | .numbers _ | .strings _ | .objects _ =>
      rw [onAttribute] at hs
      exact (hcon hs).elim
    | .number _ | .boolean _ | .string _ | .primaryKey _ =>
        exact .inr (.inr ⟨plain_inside f rfl hid hfree hs hfsh, rfl⟩)

theorem process_inside (fields : List (PlainText × Attribute))
    (hfree : fieldsCommaFree fields) {p : Bool} {s s' : JsonSerializer}
    (hs : process f fields s = some s') (harr : s'.isArray) (h : Inside p s.json) :
    Inside (p && fields.all (·.2.isPlain)) s'.json := by
  match fields with
  | [] =>
    cases hs
    rw [all_nil, Bool.and_true]
    exact h
  | (id, a) :: fields =>
    obtain ⟨s₁, hatt, hrest⟩ := bind_eq_some_iff.mp hs
    have harr₁ := (frames_process f fields _ _ hrest).isArray_before harr
    rw [all_cons, ← Bool.and_assoc]
    exact process_inside fields hfree.2.2 hrest harr
      (onAttribute_inside a hfree.1 hfree.2.1 hatt harr₁ h)

end

def isElement (o : List (PlainText × Attribute)) : Bool := o.any (·.2.writes) && o.all (·.2.isPlain)

variable {o : List (PlainText × Attribute)}

theorem element_inside (hfree : fieldsCommaFree o) (hb : Balanced s.json) (hrdy : Ready s.json)
    (hs : appendWith f (process f o) s = some s') (harr : s'.isArray) :
    Lost s'.json ∨ Closed s'.json ∧ isElement o := by
  rcases append_inside f (fun _ _ => process_inside f o hfree) hb hrdy hs harr with h | ⟨h, hpln,
    hwri⟩
  · exact .inl h
  · refine .inr ⟨h, ?_⟩
    cases hwrs : o.any (·.2.writes) with
    | true =>
      rw [isElement, hwrs]
      exact hpln
    | false => exact absurd (process_of_not_writes f hwrs _) hwri

/-- Behind an object that a comma has been written behind. -/
def BehindObject (s : JsonSerializer) : Prop := s.isArray = false ∧ ∃ z, s.json = z ++ ['}', ',']

theorem element_behind (hdep : 0 < s.depth)
    (hs : appendWith f (process f o) s = some s') (harr : s'.isArray = false) :
    BehindObject s' := by
  refine ⟨harr, ?_⟩
  obtain ⟨s₁, json, hbody, -, rfl⟩ := appendWith_eq_some f hs
  have hdep₁ : s₁.depth = s.depth + 1 := by
    rw [(frames_process f o _ _ hbody).depth, beginObject_depth]
  have harr₁ : s₁.isArray = false := by simpa [endObject_eq] using harr
  refine ⟨json ++ indentation f (s₁.depth - 1), ?_⟩
  rw [endObject_eq, if_pos ⟨by show 0 < s₁.depth - 1; omega, harr₁⟩, append_assoc]

theorem joinObjects_behind {os : List (List (PlainText × Attribute))} {first : Bool}
    (hdep : 0 < s.depth) (h : BehindObject s) (hs : joinObjects f first os s = some s') :
    BehindObject s' := by
  induction os generalizing first s with
  | nil =>
    cases hs
    exact h
  | cons o os ih =>
    obtain ⟨s₀, s₁, -, hsta, hobj, hrest⟩ := joinObjects_cons f hs
    have hfrm := frames_appendWith f (frames_process f o) _ _ hobj
    have hdep₀ : 0 < s₀.depth := hsta.depth ▸ hdep
    exact ih (hfrm.depth ▸ hdep₀) (element_behind f hdep₀ hobj (hfrm.isArray (hsta.isArray h.1)))
      hrest

theorem joinObjects_misclosed {os : List (List (PlainText × Attribute))}
    (hfree : elementsCommaFree os) (hbad : os.all isElement = false) (first : Bool)
    {s s' : JsonSerializer} (hdep : 0 < s.depth) (hb : Balanced s.json)
    (hrdy : if first then Opened s.json else Closed s.json)
    (hs : joinObjects f first os s = some s') : Lost s'.json ∨ BehindObject s' := by
  induction os generalizing first s with
  | nil => cases hbad
  | cons o os ih =>
    obtain ⟨s₀, s₁, hs₀, hsta, hobj, hrest⟩ := joinObjects_cons f hs
    have hfrm := frames_appendWith f (frames_process f o) _ _ hobj
    have hrdy₀ : Ready s₀.json := by
      cases first with
      | true => exact hs₀ ▸ .inl hrdy
      | false => exact hs₀ ▸ .inr ⟨s.json, ⟨[], ws_nil⟩, rfl, hrdy.run⟩
    have hdep₀ : 0 < s₀.depth := hsta.depth ▸ hdep
    have hdep₁ : 0 < s₁.depth := hfrm.depth ▸ hdep₀
    have hb₀ := hsta.balanced hb
    have hb₁ := hfrm.balanced hb₀
    cases harr : s₁.isArray with
    | false => exact .inr (joinObjects_behind f hdep₁ (element_behind f hdep₀ hobj harr) hrest)
    | true =>
      rcases element_inside f hfree.1 hb₀ hrdy₀ hobj harr with h | ⟨h, hele⟩
      · exact .inl ((frames_joinObjects f false os _ _ hrest).lost hb₁ h)
      · rw [all_cons, hele] at hbad
        exact @ih hfree.2 hbad false s₁ hdep₁ hb₁ h hrest

/-! ## Objects outside containers -/

/-- Behind the comma of a field, with a comma in front of a bracket before it. -/
def Torn (cs : Str) : Prop :=
  ∃ (a : Str) (ws : Ws), cs = a ++ ',' :: ws.chars ∧ meets trails .opening a = true ∧
    Spot.run .opening a = .value

/-- Behind a field that does not close. -/
def Fails (s : JsonSerializer) : Prop := Lost s.json ∨ Torn s.json ∧ s.isArray = false

theorem Torn.newline (h : Torn cs) : Torn (cs ++ lineBreak f) := by
  obtain ⟨a, ws, rfl, htra, hval⟩ := h
  exact ⟨a, ⟨ws.chars ++ lineBreak f, forall_mem_append.mpr ⟨ws.ws, (lineBreakWs f).ws⟩⟩,
    by simp, htra, hval⟩

theorem Fails.newline (h : Fails s) : Fails (s.newline f) := by
  rw [newline_eq]
  rcases h with h | ⟨h, harr⟩
  · exact .inl (h.append _)
  · exact .inr ⟨Torn.newline f h, harr⟩

theorem torn_endArray (hdep : 0 < s.depth) (hb : Balanced s.json) (h : BehindObject s) :
    Torn s.endArray.json := by
  obtain ⟨-, z, hz⟩ := h
  -- behind a comma that is not in a string
  have hcom : Spot.run .opening s.json = .comma := by
    have hout : (Spot.run .opening s.json).outside := hb.outside (.inl rfl)
    rw [hz, append_cons, run_append] at hout ⊢
    revert hout
    cases Spot.run .opening (z ++ ['}']) <;> decide
  refine ⟨s.json ++ [']'], ⟨[], ws_nil⟩, ?_, ?_, ?_⟩
  · rw [endArray_eq, if_pos hdep]
    simp
  · rw [meets_append, hcom]
    simp [meets, trails]
  · rw [run_append, hcom]
    rfl

/-- Outside containers, behind fields that close if `p`. -/
structure Outside (p : Bool) (s : JsonSerializer) : Prop where
  balanced : Balanced s.json
  depth : 0 < s.depth
  place : Fails s ∨ s.isArray = false ∧ Ready s.json ∧ p = true

theorem Outside.fails (h : Outside p s) (hp : p = false) : Fails s := by
  rcases h.place with h | ⟨-, -, h⟩
  · exact h
  · rw [hp] at h
    cases h

theorem end_fails (hb : Balanced s.json) (h : Fails s) (hdep : 1 < s.depth) {json : Str}
    (he : eraseLastComma s.json = some json) : Fails (endObject f { s with json := json }) := by
  rcases h with h | ⟨⟨a, ws, hcs, htra, hval⟩, harr⟩
  · rw [endObject_eq]
    exact .inl ((h.eraseLastComma hb.backslash he).append _)
  · rw [hcs, eraseLastComma_append (not_comma_mem_ws ws)] at he
    rw [endObject_eq]
    refine .inr ⟨⟨a ++ (ws.chars ++ (indentation f (s.depth - 1) ++ ['}'])), ⟨[], ws_nil⟩, ?_,
      ?_, ?_⟩, harr⟩
    · rw [← some.inj he, if_pos ⟨by show 0 < s.depth - 1; omega, harr⟩]
      simp
    · rw [meets_append, htra, Bool.true_or]
    · rw [run_append, hval]
      exact ((reads_ws (.inr (.inr rfl)) ws).append
        ((reads_ws (.inr (.inr rfl)) (indentationWs f _)).append
          (reads_close (.inr rfl) (.inl rfl)))).run

theorem ready_of_closes (h : a.closes) (hdep : 0 < s.depth)
    (harr : s.isArray = false) (hrdy : Ready s.json) (hs : onAttribute f a id s = some s') :
    Opened s'.json ∨ Behind s'.json := by
  rw [onAttribute_of_closes f a h id hdep harr] at hs
  cases hs
  cases hwrs : a.writes with
  | false =>
    rw [written, hwrs, if_neg (by decide), written, fieldsText, flatMap_nil, write_nil]
    exact hrdy
  | true =>
    rw [written, hwrs, written]
    refine .inr ⟨s.json ++ fieldText f s.depth (id, a.value f s.depth), lineBreakWs f, ?_, ?_⟩
    · simp [write, fieldsText, lineBreakWs]
    · rw [run_append, fieldText_eq]
      exact ((reads_idText f (expects_of_ready hrdy) _ id).append (reads_value _ (.inl rfl))).run

theorem onAttribute_fails (hb : Balanced s.json) (h : Fails s)
    (hs : onAttribute f a id s = some s') : Fails s' := by
  cases hwrs : a.writes with
  | false =>
    rw [onAttribute_of_not_writes f hwrs] at hs
    cases hs
    exact h
  | true =>
    have hlost : Lost (s.writeId f id).json := by
      rw [writeId_json]
      rcases h with h | ⟨⟨a, ws, hcs, htra, hval⟩, -⟩
      · exact h.append _
      · obtain ⟨ws', c, rest, htext, hc⟩ := begins_idText f s.depth id
        rw [hcs]
        refine .trailing a (ws.chars ++ idText f s.depth id) (by simp) htra hval ?_
        exact ⟨⟨ws.chars ++ ws'.chars, forall_mem_append.mpr ⟨ws.ws, ws'.ws⟩⟩, c, rest,
          by simp [htext], hc⟩
    exact .inl ((frame_onAttribute f a hwrs id hs).lost ((frame_writeId f id s).balanced hb) hlost)

mutual

theorem onAttribute_outside (a : Attribute) {id : PlainText} (hid : ',' ∉ id.chars)
    (hfree : a.commaFree) {p : Bool} {s s' : JsonSerializer} (hs : onAttribute f a id s = some s')
    (h : Outside p s) : Outside (p && a.closes) s' := by
  have hfrm : Frame s s' := frames_process f [(id, a)] s s' (by rw [process, hs]; rfl)
  refine ⟨hfrm.balanced h.balanced, hfrm.depth ▸ h.depth, ?_⟩
  rcases h.place with hfls | ⟨harr, hrdy, rfl⟩
  · exact .inl (onAttribute_fails f h.balanced hfls hs)
  cases hclo : a.closes with
  | true => exact .inr ⟨hfrm.isArray harr, ready_of_closes f hclo h.depth harr hrdy hs, rfl⟩
  | false =>
    refine .inl ?_
    have hbid := (frame_writeId f id s).balanced h.balanced
    have hwri : (s.writeId f id).depth = s.depth ∧ (s.writeId f id).isArray = false := by
      simp [writeId_eq, harr]
    have hope := opened_writeId f hrdy hid
    match a with
    | .object fields =>
      obtain ⟨s₂, hobj, rfl⟩ := map_eq_some_iff.mp hs
      refine Fails.newline f ?_
      obtain ⟨s₁, json, hbody, hera, rfl⟩ := appendWith_eq_some f hobj
      have hope' := opened_beginObject f (.inl hope)
      cases hwrs : fields.any (·.2.writes) with
      | false =>
        -- nothing is written, so the comma in front of the object goes
        rw [process_of_not_writes f hwrs] at hbody
        cases hbody
        rw [Fails, endObject_eq]
        exact .inl ((hope'.solid.lost hera).append _)
      | true =>
        rw [Attribute.closes, hwrs, Bool.true_and] at hclo
        have hfie :=
          process_outside fields hfree hbody ⟨balanced_beginObject f hbid,
            by rw [beginObject_depth]; omega,
            .inr ⟨(beginObject_isArray f _).trans hwri.2, .inl hope', rfl⟩⟩
        refine end_fails f hfie.balanced (hfie.fails hclo) ?_ hera
        rw [(frames_process f fields _ _ hbody).depth, beginObject_depth, hwri.1]
        exact Nat.succ_lt_succ h.depth
    | .objects os =>
      obtain ⟨s₁, hitm, rfl⟩ := map_eq_some_iff.mp hs
      refine Fails.newline f ?_
      have hbra : Balanced ['['] := ⟨by decide, by decide⟩
      have hope' : Opened (s.writeId f id).beginArray.json := by
        refine ⟨hope.solid.append (by decide), ?_⟩
        show Spot.run .opening ((s.writeId f id).json ++ ['[']) = .opening
        rw [run_append, hope.run]
        rfl
      have hite := frames_joinObjects f true os _ _ hitm
      have hdep : 0 < (s.writeId f id).beginArray.depth := hwri.1 ▸ h.depth
      rcases joinObjects_misclosed f hfree hclo true hdep (hbid.append hbra) hope' hitm with h | h
      · rw [Fails, endArray_eq]
        exact .inl (h.append _)
      · refine .inr ⟨torn_endArray (hite.depth ▸ hdep) (hite.balanced (hbid.append hbra)) h, ?_⟩
        rw [endArray_eq]
    | .number _ | .boolean _ | .string _ | .primaryKey _ | .numbers _ | .strings _ => cases hclo

theorem process_outside (fields : List (PlainText × Attribute))
    (hfree : fieldsCommaFree fields) {p : Bool} {s s' : JsonSerializer}
    (hs : process f fields s = some s') (h : Outside p s) :
    Outside (p && Attribute.allClose fields) s' := by
  match fields with
  | [] =>
    cases hs
    rw [Attribute.allClose, Bool.and_true]
    exact h
  | (id, a) :: fields =>
    obtain ⟨s₁, hatt, hrest⟩ := bind_eq_some_iff.mp hs
    rw [Attribute.allClose, ← Bool.and_assoc]
    exact process_outside fields hfree.2.2 hrest (onAttribute_outside a hfree.1 hfree.2.1 hatt h)

end

/-- **The text of an object that does not close is no JSON text.** -/
theorem not_isText_of_toJson (hfree : fieldsCommaFree o)
    (hclo : (Attribute.object o).closes = false) (harr : s.isArray = false)
    (hs : toJson f o s = some s') : ¬ IsText s'.json := by
  obtain ⟨s₂, hobj, rfl⟩ := map_eq_some_iff.mp hs
  obtain ⟨s₁, json, hbody, hera, rfl⟩ := appendWith_eq_some f hobj
  have hemp : Balanced [] := ⟨by decide, by decide⟩
  have hbeg := balanced_beginObject f (s := { s with json := [] }) hemp
  have hope := opened_beginObject f (s := { s with json := [] }) (.inl ⟨.inl not_mem_nil, rfl⟩)
  rw [newline_eq, endObject_eq]
  cases hwrs : o.any (·.2.writes) with
  | false =>
    rw [process_of_not_writes f hwrs] at hbody
    cases hbody
    exact (((hope.solid.lost hera).append _).append _).not_isText
  | true =>
    rw [Attribute.closes, hwrs] at hclo
    have hfie := process_outside f o hfree hbody
      ⟨hbeg, by rw [beginObject_depth]; omega, .inr ⟨(beginObject_isArray f _).trans harr,
        .inl hope, rfl⟩⟩
    rcases hfie.fails hclo with h | ⟨⟨a, ws, hcs, htra, -⟩, -⟩
    · exact (((h.eraseLastComma hfie.balanced.backslash hera).append _).append _).not_isText
    · intro htext
      rw [hcs, eraseLastComma_append (not_comma_mem_ws ws)] at hera
      have htra' := (reads_of_isText htext).trails
      rw [← some.inj hera] at htra'
      simp only [write, meets_append, htra] at htra'
      cases htra'

end JsonSerializer

end Matador.Json
