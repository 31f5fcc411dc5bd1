import Matador.Http.TemplateParser
import Matador.Lib.Run

/-!
# What a template means

Syntax trees of templates with the blanks of their tags, the texts they are written as, and their
meaning. It is defined where the data fit: at the point of use a variable names a string, a loop an
array, and a condition a boolean or nothing.

`place` computes the parts from the tree; the parser that has read the text of a tree is where
`place` says (`passes_trees`), and these parts are rendered as the tree means (`rendered_placeAll`).
-/

namespace Matador.Http

open List Json Lib Option

namespace Template

/-! ## Syntax trees -/

structure Blank where
  chars : Str
  space : ∀ c ∈ chars, Json.isSpace c = true

structure Gap extends Blank where
  ne_nil : chars ≠ []

structure Name where
  chars : Str
  ne_nil : chars ≠ []
  alnum : ∀ c ∈ chars, c.isAlphanum = true

structure Path where
  first : Name
  rest : List Name

structure Plain where
  chars : Str
  brace : '{' ∉ chars
  nul : '\x00' ∉ chars

structure Tag where
  lead : Blank
  trail : Blank

/-- `{% if path %}` and `{% elif path %}`. -/
structure CondTag where
  lead : Blank
  gap : Gap
  path : Path
  trail : Blank

/-- `{% for name in path %}`. -/
structure LoopTag where
  lead : Blank
  gap : Gap
  name : Name
  name_ne : name.chars ≠ "forloop".toList
  beforeIn : Gap
  behindIn : Gap
  path : Path
  trail : Blank

inductive Tree
  | plain (text : Plain)
  | variable (tag : Tag) (path : Path)
  | loop (tag : LoopTag) (body : List Tree) (empty : Option (Tag × List Tree)) (close : Tag)
  | branch (tag : CondTag) (body : List Tree) (elifs : List (CondTag × List Tree))
    (otherwise : Option (Tag × List Tree)) (close : Tag)

/-! ## Concrete syntax -/

def Path.text (p : Path) : Str := p.first.chars ++ (p.rest.map Name.chars).flatMap ('.' :: ·)

/-- A tag up to its end, `%}`. -/
def Tag.text (tag : Tag) (word : Str) : Str :=
  '{' :: '%' :: (tag.lead.chars ++ word ++ tag.trail.chars)

def CondTag.words (tag : CondTag) : Str := tag.gap.chars ++ tag.path.text ++ tag.trail.chars

def CondTag.text (tag : CondTag) (word : Str) : Str :=
  '{' :: '%' :: (tag.lead.chars ++ word ++ tag.words)

def LoopTag.words (tag : LoopTag) : Str :=
  tag.gap.chars ++ tag.name.chars ++ tag.beforeIn.chars ++ "in".toList ++ tag.behindIn.chars ++
    tag.path.text ++
    tag.trail.chars

def LoopTag.text (tag : LoopTag) : Str :=
  '{' :: '%' :: (tag.lead.chars ++ "for".toList ++ tag.words)

def tagEnd : Str := ['%', '}']

mutual

def Tree.text : Tree → Str
  | .plain text => text.chars
  | .variable tag path =>
      '{' :: '{' :: (tag.lead.chars ++ path.text ++ tag.trail.chars ++ ['}', '}'])
  | .loop tag body empty close =>
    tag.text ++ tagEnd ++ textAll body ++ textOption "empty".toList empty ++
      close.text "endfor".toList ++ tagEnd
  | .branch tag body elifs otherwise close =>
    tag.text "if".toList ++ tagEnd ++ textAll body ++ textElifs elifs ++
      textOption "else".toList otherwise ++
      close.text "endif".toList ++ tagEnd

def textAll : List Tree → Str
  | [] => []
  | t :: ts => t.text ++ textAll ts

def textOption (word : Str) : Option (Tag × List Tree) → Str
  | none => []
  | some (tag, ts) => tag.text word ++ tagEnd ++ textAll ts

def textElifs : List (CondTag × List Tree) → Str
  | [] => []
  | (tag, ts) :: elifs => tag.text "elif".toList ++ tagEnd ++ textAll ts ++ textElifs elifs

end

/-! ## Meaning -/

def field (name : Str) : Json → Option Json
  | .object fields => SortedMap.get name fields
  | _ => none

def Path.find (p : Path) (data : Json) : Option Json :=
  (p.first :: p.rest).foldlM (fun j name => field name.chars j) data

def Path.test (p : Path) (data : Json) : Option Bool :=
  match p.find data with
  | none => some false
  | some (.boolean b) => some b
  | some _ => none

/-- `{name: elem, forloop: {parent: data}}`. -/
def loopData (name : Str) (elem data : Json) : Json :=
  .object (SortedMap.set "forloop".toList (.object [("parent".toList, data)]) [(name, elem)])

mutual

def Tree.meaning : Tree → Json → Option Str
  | .plain text, _ => some text.chars
  | .variable _ path, data =>
    match path.find data with
    | some (.string s) => some s
    | _ => none
  | .loop tag body empty _, data =>
    match tag.path.find data with
    | some (.array []) => meaningOption empty data
    | some (.array items) =>
        (items.mapM fun elem => meaningAll body (loopData tag.name.chars elem data)).map flatten
    | _ => none
  | .branch tag body elifs otherwise _, data =>
    match tag.path.test data with
    | some true => meaningAll body data
    | some false => meaningElifs elifs (meaningOption otherwise data) data
    | none => none

def meaningAll : List Tree → Json → Option Str
  | [], _ => some []
  | t :: ts, data => do
    let text ← t.meaning data
    let rest ← meaningAll ts data
    some (text ++ rest)

def meaningOption : Option (Tag × List Tree) → Json → Option Str
  | none, _ => some []
  | some (_, ts), data => meaningAll ts data

def meaningElifs : List (CondTag × List Tree) → Option Str → Json → Option Str
  | [], otherwise, _ => otherwise
  | (tag, ts) :: elifs, otherwise, data =>
    match tag.path.test data with
    | some true => meaningAll ts data
    | some false => meaningElifs elifs otherwise data
    | none => none

end

/-! ## The parts of a template -/

/-- The parts that are finished and the text of the one that is not. -/
abbrev Placed := List Part × Str

def closed (acc : Placed) : List Part := acc.1 ++ [.static acc.2]

def push (part : Part) (acc : Placed) : Placed := (closed acc ++ [part], [])

mutual

def Tree.place : Tree → Placed → Placed
  | .plain text, acc => (acc.1, acc.2 ++ text.chars)
  | .variable _ path, acc => push (.variable path.text []) acc
  | .loop tag body empty _, acc =>
    push (.loop (placeOption empty) (some (closed (placeAll body ([], [])))) tag.path.text
      tag.name.chars) acc
  | .branch tag body elifs otherwise _, acc =>
    push (.branch ((.value tag.path.text, closed (placeAll body ([], []))) :: placeElifs elifs)
      (placeOption otherwise)) acc

def placeAll : List Tree → Placed → Placed
  | [], acc => acc
  | t :: ts, acc => placeAll ts (t.place acc)

def placeOption : Option (Tag × List Tree) → List Part
  | none => []
  | some (_, ts) => closed (placeAll ts ([], []))

def placeElifs : List (CondTag × List Tree) → List (Expression × List Part)
  | [] => []
  | (tag, ts) :: elifs => (.value tag.path.text, closed (placeAll ts ([], []))) :: placeElifs elifs

end

/-! ## Reading words -/

variable {c : Char}

theorem isTokenChar_of_isAlphanum (h : c.isAlphanum) : isTokenChar c := by
  simp [isTokenChar, h]

theorem not_isTokenChar_of_isSpace (h : Json.isSpace c) : isTokenChar c = false := by
  simp only [Json.isSpace, Bool.or_eq_true, beq_iff_eq] at h
  rcases h with ((((rfl | rfl) | rfl) | rfl) | rfl) | rfl <;> decide

theorem not_isSpace_of_isTokenChar (h : isTokenChar c) : Json.isSpace c = false := by
  by_contra hspc
  rw [not_isTokenChar_of_isSpace (by simpa using hspc)] at h
  cases h

variable {lead rest : Str}

theorem skipWs_append (hlead : ∀ c ∈ lead, Json.isSpace c)
    (hrest : Json.isSpace (current rest) = false) : skipWs (lead ++ rest) = rest :=
  (span_append hlead hrest).2

/-- A word as `parse_token` reads it. -/
structure IsWord (word : Str) : Prop where
  ne_nil : word ≠ []
  token : ∀ c ∈ word, isTokenChar c = true

variable {word : Str}

theorem IsWord.not_isSpace (hword : IsWord word) (rest : Str) :
    Json.isSpace (current (word ++ rest)) = false := by
  obtain ⟨c, word, rfl⟩ := exists_cons_of_ne_nil hword.ne_nil
  exact not_isSpace_of_isTokenChar (hword.token c mem_cons_self)

/-- What follows a word: no blank, and no character of a word if it follows at once. -/
structure Follows (trail rest : Str) : Prop where
  space : ∀ c ∈ trail, Json.isSpace c = true
  notSpace : Json.isSpace (current rest) = false
  notToken : trail = [] → isTokenChar (current rest) = false

variable {trail : Str}

theorem Follows.current_append (h : Follows trail rest) :
    isTokenChar (current (trail ++ rest)) = false := by
  cases trail with
  | nil => exact h.notToken rfl
  | cons c trail => exact not_isTokenChar_of_isSpace (h.space c mem_cons_self)

theorem parseToken_append (hlead : ∀ c ∈ lead, Json.isSpace c) (hword : IsWord word)
    (hfol : Follows trail rest) :
    parseToken (lead ++ (word ++ (trail ++ rest))) = (word, rest) := by
  have hskip : skipWs (lead ++ (word ++ (trail ++ rest))) = word ++ (trail ++ rest) :=
    skipWs_append hlead (hword.not_isSpace _)
  obtain ⟨htake, hdrop⟩ := span_append hword.token hfol.current_append
  unfold parseToken parseWord
  rw [hskip, htake, hdrop, skipWs_append hfol.space hfol.notSpace]

theorem parseToken_word (hword : IsWord word) (hfol : Follows trail rest) :
    parseToken (word ++ (trail ++ rest)) = (word, rest) := by
  have hlead : ∀ c ∈ ([] : Str), Json.isSpace c := nofun
  exact parseToken_append hlead hword hfol

theorem skipWs_word (hword : IsWord word) (rest : Str) : skipWs (word ++ rest) = word ++ rest := by
  have hlead : ∀ c ∈ ([] : Str), Json.isSpace c := nofun
  exact skipWs_append hlead (hword.not_isSpace rest)

theorem Blank.follows (blank : Blank) (hspc : Json.isSpace c = false) (htok : isTokenChar c = false)
    (rest : Str) : Follows blank.chars (c :: rest) :=
  ⟨blank.space, hspc, fun _ => htok⟩

theorem Gap.follows (gap : Gap) (hword : IsWord word) (rest : Str) :
    Follows gap.chars (word ++ rest) := by
  exact ⟨gap.space, hword.not_isSpace rest, fun h => absurd h gap.ne_nil⟩

theorem Name.isWord (name : Name) : IsWord name.chars :=
  ⟨name.ne_nil, fun c hc => isTokenChar_of_isAlphanum (name.alnum c hc)⟩

theorem Path.isWord (p : Path) : IsWord p.text := by
  refine ⟨by simp [Path.text, p.first.ne_nil], fun c hc => ?_⟩
  rw [Path.text, mem_append, mem_flatMap] at hc
  rcases hc with hc | ⟨chars, hcha, hc⟩
  · exact p.first.isWord.token c hc
  · obtain ⟨name, _, rfl⟩ := mem_map.mp hcha
    rcases mem_cons.mp hc with rfl | hc
    · rfl
    · exact name.isWord.token c hc

theorem Path.split_text (p : Path) :
    Text.split '.' p.text = (p.first :: p.rest).map Name.chars := by
  have hname (name : Name) : name.chars ≠ [] ∧ '.' ∉ name.chars :=
    ⟨name.ne_nil, fun h => absurd (name.alnum '.' h) (by decide)⟩
  refine Text.split_flatMap (hname p.first) fun item hitem => ?_
  obtain ⟨name, _, rfl⟩ := mem_map.mp hitem
  exact hname name

/-! ## Finding the data -/

theorem toOption_getKey (key : Str) (j : Json) : (getKey key j).toOption = field key j := by
  cases j with
  | object fields =>
    rw [getKey, field]
    cases SortedMap.get key fields <;> rfl
  | _ => rfl

theorem toOption_atPath (p : Path) (data : Json) : (atPath p.text data).toOption = p.find data := by
  unfold atPath Path.find
  rw [p.split_text]
  generalize p.first :: p.rest = names
  induction names generalizing data with
  | nil => rfl
  | cons name names ih =>
    rw [map_cons, foldlM_cons, foldlM_cons]
    have hget := toOption_getKey name.chars data
    cases hkey : getKey name.chars data with
    | ok j =>
      rw [hkey] at hget
      rw [← hget]
      exact ih j
    | error e =>
      rw [hkey] at hget
      rw [← hget]
      rfl

theorem atPath_of_find {p : Path} {data j : Json} (h : p.find data = some j) :
    atPath p.text data = .ok j := by
  have hfind := toOption_atPath p data
  cases hpath : atPath p.text data with
  | ok j' =>
    rw [hpath, h] at hfind
    exact congrArg Except.ok (some.inj hfind)
  | error e =>
    rw [hpath, h] at hfind
    cases hfind

theorem evaluate_of_test (env : TemplateEnv) {p : Path} {data : Json} {b : Bool}
    (h : p.test data = some b) : (Expression.value p.text).evaluate env data = .ok b := by
  have hfind := toOption_atPath p data
  unfold Path.test at h
  rw [Expression.evaluate]
  cases hpath : atPath p.text data with
  | ok j =>
    rw [hpath] at hfind
    rw [← hfind] at h
    cases j with
    | boolean b' =>
      cases h
      rfl
    | _ => cases h
  | error e =>
    rw [hpath] at hfind
    rw [← hfind] at h
    cases h
    rfl

theorem loopItem_eq {name : Str} (hname : name ≠ "forloop".toList) (elem data : Json) :
    loopItem name elem data = loopData name elem data := by
  have hget : SortedMap.get "forloop".toList (SortedMap.set name elem []) = none := by
    rw [SortedMap.set, SortedMap.get, if_neg (Ne.symm hname)]
    rfl
  unfold loopItem
  simp only [hget]
  rfl

/-! ## Rendering the parts -/

section Rendering

variable {env : TemplateEnv} {data : Json}

theorem renderParts_append (parts parts' : List Part) : renderParts env (parts ++ parts') data =
      (renderParts env parts data).bind fun s => (renderParts env parts' data).map (s ++ ·) := by
  induction parts with
  | nil =>
    rw [nil_append]
    cases renderParts env parts' data <;> rfl
  | cons part parts ih =>
    rw [cons_append, renderParts, renderParts, ih]
    cases part.render env data with
    | error e => rfl
    | ok text =>
      cases renderParts env parts data with
      | error e => rfl
      | ok rest =>
        cases renderParts env parts' data with
        | error e => rfl
        | ok rest' => exact congrArg Except.ok (append_assoc ..).symm

theorem renderParts_singleton (part : Part) :
    renderParts env [part] data = part.render env data := by
  rw [renderParts]
  cases part.render env data with
  | error e => rfl
  | ok text => exact congrArg Except.ok (append_nil text)

theorem renderParts_closed (acc : Placed) :
    renderParts env (closed acc) data = (renderParts env acc.1 data).map (· ++ acc.2) := by
  rw [closed, renderParts_append, renderParts_singleton]
  cases renderParts env acc.1 data <;> rfl

theorem renderParts_closed_nil : renderParts env (closed ([], [])) data = .ok [] := rfl

theorem renderParts_push {part : Part} {acc : Placed} {s s' : Str}
    (h : renderParts env (closed acc) data = .ok s) (h' : part.render env data = .ok s') :
    renderParts env (closed (push part acc)) data = .ok (s ++ s') := by
  rw [renderParts_closed, push, renderParts_append, h, renderParts_singleton, h']
  exact congrArg Except.ok (append_nil _)

theorem renderParts_closed_append {acc : Placed} {s : Str}
    (h : renderParts env (closed acc) data = .ok s) (text : Str) :
    renderParts env (closed (acc.1, acc.2 ++ text)) data = .ok (s ++ text) := by
  rw [renderParts_closed] at h ⊢
  obtain ⟨s', hpts, rfl⟩ := map_eq_ok.mp h
  rw [hpts, append_assoc]
  rfl

theorem mapM_ok {α : Type} {f : α → Option Str} {g : α → Except TemplateError Str} {items : List α}
    {texts : List Str} (hfg : ∀ elem ∈ items, ∀ m, f elem = some m → g elem = .ok m)
    (h : items.mapM f = some texts) : items.mapM g = .ok texts := by
  induction items generalizing texts with
  | nil =>
    cases h
    rfl
  | cons elem items ih =>
    rw [mapM_cons] at h ⊢
    obtain ⟨text, htext, h⟩ := bind_eq_some_iff.mp h
    obtain ⟨rest, hrest, h⟩ := bind_eq_some_iff.mp h
    cases h
    rw [hfg elem mem_cons_self text htext, ih (forall_mem_cons.mp hfg).2 hrest]
    rfl

mutual

theorem rendered_place (t : Tree) (data : Json) {acc : Placed} {s m : Str}
    (hs : renderParts env (closed acc) data = .ok s) (hm : t.meaning data = some m) :
    renderParts env (closed (t.place acc)) data = .ok (s ++ m) := by
  match t with
  | .plain text =>
    cases hm
    exact renderParts_closed_append hs text.chars
  | .variable tag path =>
    refine renderParts_push hs ?_
    rw [Tree.meaning] at hm
    split at hm
    · next hfind =>
      cases hm
      rw [Part.render, atPath_of_find hfind]
      rfl
    · cases hm
  | .loop tag body empty close =>
    refine renderParts_push hs ?_
    rw [Tree.meaning] at hm
    split at hm
    · next hfind =>
      rw [Part.render, atPath_of_find hfind]
      exact rendered_placeOption empty data hm
    · next items hne hfind =>
      rw [Part.render, atPath_of_find hfind]
      cases items with
      | nil => exact absurd rfl hne
      | cons item items =>
        obtain ⟨texts, htex, rfl⟩ := map_eq_some_iff.mp hm
        have hbody (elem : Json) (_ : elem ∈ item :: items) (m : Str)
            (h : meaningAll body (loopData tag.name.chars elem data) = some m) :
            renderLoop env (some (closed (placeAll body ([], []))))
              (loopItem tag.name.chars elem data) = .ok m := by
          rw [renderLoop, loopItem_eq tag.name_ne]
          exact rendered_placeAll body _ renderParts_closed_nil h
        exact congrArg (Except.map flatten) (mapM_ok hbody htex)
    · cases hm
  | .branch tag body elifs otherwise close =>
    refine renderParts_push hs ?_
    rw [Tree.meaning] at hm
    rw [Part.render, renderBranches]
    split at hm
    · next htest =>
      rw [evaluate_of_test env htest]
      exact rendered_placeAll body data renderParts_closed_nil hm
    · next htest =>
      rw [evaluate_of_test env htest]
      exact rendered_placeElifs elifs data (fun h => rendered_placeOption otherwise data h) hm
    · cases hm

theorem rendered_placeAll (ts : List Tree) (data : Json) {acc : Placed} {s m : Str}
    (hs : renderParts env (closed acc) data = .ok s) (hm : meaningAll ts data = some m) :
    renderParts env (closed (placeAll ts acc)) data = .ok (s ++ m) := by
  match ts with
  | [] =>
    cases hm
    rw [append_nil]
    exact hs
  | t :: ts =>
    obtain ⟨text, htext, hm⟩ := bind_eq_some_iff.mp hm
    obtain ⟨rest, hrest, hm⟩ := bind_eq_some_iff.mp hm
    cases hm
    rw [← append_assoc]
    exact rendered_placeAll ts data (rendered_place t data hs htext) hrest

theorem rendered_placeOption (o : Option (Tag × List Tree)) (data : Json) {m : Str}
    (hm : meaningOption o data = some m) : renderParts env (placeOption o) data = .ok m := by
  match o with
  | none =>
    cases hm
    rfl
  | some (tag, ts) => exact rendered_placeAll ts data renderParts_closed_nil hm

theorem rendered_placeElifs (elifs : List (CondTag × List Tree)) (data : Json)
    {otherwise : Option Str} {result : Except TemplateError Str} {m : Str}
    (hother : ∀ {m}, otherwise = some m → result = .ok m)
    (hm : meaningElifs elifs otherwise data = some m) :
    renderBranches env (placeElifs elifs) result data = .ok m := by
  match elifs with
  | [] => exact hother hm
  | (tag, ts) :: elifs =>
    rw [meaningElifs] at hm
    rw [placeElifs, renderBranches]
    split at hm
    · next htest =>
      rw [evaluate_of_test env htest]
      exact rendered_placeAll ts data renderParts_closed_nil hm
    · next htest =>
      rw [evaluate_of_test env htest]
      exact rendered_placeElifs elifs data hother hm
    · cases hm

end

end Rendering

/-! ## Parsing the text -/

def reading (state : TemplateState) (acc : Placed) (cursor : Str) : TemplateParser :=
  { cursor, state, currentPart := acc.2, parts := acc.1 }

/-- Commands inside of a block are left to the factory. -/
structure Defers {σ : Type} (onCommand : OnCommand σ) : Prop where
  loop (s : σ) (parts : List Part) (cursor : Str) :
    onCommand "for".toList s parts cursor = .ok (.nextCommand, s, parts, cursor)
  branch (s : σ) (parts : List Part) (cursor : Str) :
    onCommand "if".toList s parts cursor = .ok (.nextCommand, s, parts, cursor)

theorem defers_onAnyCommand : Defers onAnyCommand := ⟨fun _ _ _ => rfl, fun _ _ _ => rfl⟩

theorem defers_onLoopCommand : Defers onLoopCommand := ⟨fun _ _ _ => rfl, fun _ _ _ => rfl⟩

theorem defers_onBranchCommand (env : TemplateEnv) : Defers (onBranchCommand env) :=
  ⟨fun _ _ _ => rfl, fun _ _ _ => rfl⟩

section Passing

variable {env : TemplateEnv} {included : Str → Except TemplateError (List Part)} {σ : Type}
  {onCommand : OnCommand σ} {s s' s'' : σ} {state state' state'' : TemplateState}
  {acc acc' acc'' : Placed} {u v : Str}

variable (env included onCommand) in
/-- The parser passes a piece of text, with at most one round for each character. -/
def Passes (u : Str) (s : σ) (state : TemplateState) (acc : Placed) (s' : σ)
    (state' : TemplateState) (acc' : Placed) : Prop :=
  ∀ n rest, u.length ≤ n → ∃ m, n ≤ m + u.length ∧
    parseTemplate env included n σ onCommand s (reading state acc (u ++ rest)) =
      parseTemplate env included m σ onCommand s' (reading state' acc' rest)

theorem Passes.nil : Passes env included onCommand [] s state acc s state acc :=
  fun n _ _ => ⟨n, by simp, rfl⟩

theorem Passes.append (hu : Passes env included onCommand u s state acc s' state' acc')
    (hv : Passes env included onCommand v s' state' acc' s'' state'' acc'') :
    Passes env included onCommand (u ++ v) s state acc s'' state'' acc'' := by
  intro n rest hn
  rw [length_append] at hn
  obtain ⟨m, hm, hpar⟩ := hu n (v ++ rest) (by omega)
  obtain ⟨k, hk, hpar'⟩ := hv m rest (by omega)
  refine ⟨k, ?_, ?_⟩
  · rw [length_append]
    omega
  · rw [append_assoc, hpar, hpar']

variable {n : Nat}

theorem parseTemplate_advance {p : TemplateParser} (heos : ¬ isEos (current p.cursor))
    (hsta : ¬ (p.state = .processCommand ∧ current p.cursor ≠ '%')) :
    parseTemplate env included (n + 1) σ onCommand s p =
      parseTemplate env included n σ onCommand s p.advance := by
  rw [parseTemplate, if_neg heos, if_neg hsta]

theorem Passes.char (hc : c ≠ '\x00') (hsta : ¬ (state = .processCommand ∧ c ≠ '%'))
    (hadv : ∀ rest, (reading state acc (c :: rest)).advance = reading state' acc' rest) :
    Passes env included onCommand [c] s state acc s state' acc' := by
  intro n rest hn
  match n, hn with
  | n + 1, _ =>
    refine ⟨n, by simp, ?_⟩
    have heos : ¬ isEos (current (reading state acc ([c] ++ rest)).cursor) := by
      simpa [reading, current, isEos] using hc
    exact (parseTemplate_advance heos hsta).trans (congrArg _ (hadv rest))

theorem Passes.round (hu : u ≠ []) (hrou : ∀ n rest, u.length + v.length ≤ n + 1 →
      parseTemplate env included (n + 1) σ onCommand s (reading state acc (u ++ (v ++ rest))) =
        parseTemplate env included n σ onCommand s' (reading state' acc' (v ++ rest)))
    (hv : Passes env included onCommand v s' state' acc' s'' state'' acc'') :
    Passes env included onCommand (u ++ v) s state acc s'' state'' acc'' := by
  intro n rest hn
  have hpos := length_pos_iff.mpr hu
  rw [length_append] at hn ⊢
  cases n with
  | zero => omega
  | succ n =>
    obtain ⟨m, hm, hpar⟩ := hv n rest (by omega)
    refine ⟨m, by omega, ?_⟩
    rw [append_assoc, hrou n rest hn, hpar]

theorem Passes.openCommand :
    Passes env included onCommand ['{', '%'] s .staticText acc s .processCommand
      (closed acc, []) := by
  have hbra :
      Passes env included onCommand ['{'] s .staticText acc s .initiateTemplate (closed acc, []) :=
    .char (by decide) nofun fun _ => rfl
  exact hbra.append (.char (by decide) nofun fun _ => rfl)

theorem Passes.openVariable :
    Passes env included onCommand ['{', '{'] s .staticText acc s .processVariable
      (closed acc, []) := by
  have hbra :
      Passes env included onCommand ['{'] s .staticText acc s .initiateTemplate (closed acc, []) :=
    .char (by decide) nofun fun _ => rfl
  exact hbra.append (.char (by decide) nofun fun _ => rfl)

theorem Passes.tagEnd :
    Passes env included onCommand tagEnd s .processCommand acc s .staticText acc := by
  have hper :
      Passes env included onCommand ['%'] s .processCommand acc s .processCommandFinish acc :=
    .char (by decide) (by simp) fun _ => rfl
  exact hper.append (.char (by decide) nofun fun _ => rfl)

theorem Passes.variableEnd :
    Passes env included onCommand ['}', '}'] s .processVariableRead acc s .staticText acc := by
  have hbra :
      Passes env included onCommand ['}'] s .processVariableRead acc s .processVariableFinish acc :=
    .char (by decide) nofun fun _ => rfl
  exact hbra.append (.char (by decide) nofun fun _ => rfl)

theorem Passes.plain (text : Plain) :
    Passes env included onCommand text.chars s .staticText acc s .staticText
      (acc.1, acc.2 ++ text.chars) := by
  obtain ⟨chars, hbra, hnul⟩ := text
  induction chars generalizing acc with
  | nil =>
    rw [append_nil]
    exact .nil
  | cons c chars ih =>
    rw [mem_cons, not_or] at hbra hnul
    have hchar :
        Passes env included onCommand [c] s .staticText acc s .staticText (acc.1, acc.2 ++ [c]) :=
      .char (Ne.symm hnul.1) nofun fun rest => by
        simp [TemplateParser.advance, reading, current, Ne.symm hbra.1]
    have hrest :
      Passes env included onCommand chars s .staticText (acc.1, acc.2 ++ [c]) s .staticText
        (acc.1, acc.2 ++ [c] ++ chars) := ih hbra.2 hnul.2
    rw [append_assoc] at hrest
    exact hchar.append hrest

theorem ne_end {f : Char → Bool} (hc : f c) (hnul : f '\x00' = false) (hper : f '%' = false) :
    ¬ isEos c ∧ c ≠ '%' := by
  constructor
  · intro heos
    rw [show c = '\x00' by simpa [isEos] using heos, hnul] at hc
    cases hc
  · rintro rfl
    rw [hper] at hc
    cases hc

theorem current_word (hlead : ∀ c ∈ lead, Json.isSpace c) (hword : IsWord word) (rest : Str) :
    ¬ isEos (current (lead ++ (word ++ rest))) ∧ current (lead ++ (word ++ rest)) ≠ '%' := by
  cases lead with
  | nil =>
    obtain ⟨c, word, rfl⟩ := exists_cons_of_ne_nil hword.ne_nil
    exact ne_end (hword.token c mem_cons_self) rfl rfl
  | cons c lead => exact ne_end (hlead c mem_cons_self) rfl rfl

theorem Passes.variable (tag : Tag) (path : Path) :
    Passes env included onCommand (Tree.text (.variable tag path)) s .staticText acc s .staticText
      (push (.variable path.text []) acc) := by
  refine Passes.openVariable.append ?_
  refine .round (by simp [path.isWord.ne_nil]) (fun n rest _ => ?_) .variableEnd
  have hword := current_word tag.lead.space path.isWord (tag.trail.chars ++ (['}', '}'] ++ rest))
  have htok := parseToken_append tag.lead.space path.isWord
    (tag.trail.follows (c := '}') rfl rfl ('}' :: rest))
  rw [append_assoc, append_assoc]
  refine (parseTemplate_advance hword.1 (by simp [reading])).trans (congrArg _ ?_)
  simp [TemplateParser.advance, reading, htok, push]

/-! ## Commands -/

variable {cursor : Str}

theorem parseTemplate_command {cur : Str} {parts : List Part}
    {r : CommandResult × σ × List Part × Str} (lead : Blank) (hword : IsWord word)
    (hfol : Follows trail cursor) (hcmd : onCommand word s parts cursor = .ok r) :
    parseTemplate env included (n + 1) σ onCommand s
        (reading .processCommand (parts, cur) (lead.chars ++ (word ++ (trail ++ cursor)))) =
      match r.1 with
      | .finished => .ok r.2
      | .intermediate =>
        parseTemplate env included n σ onCommand r.2.1
          (reading .processCommand (r.2.2.1, cur) r.2.2.2)
      | .nextCommand =>
        (parseCommand env included
            (fun σ onCommand s cursor => parseTemplate env included n σ onCommand s { cursor }) word
              r.2.2.2).bind
          fun part => parseTemplate env included n σ onCommand r.2.1
            (reading .processCommand (r.2.2.1 ++ [part.1], cur) part.2) := by
  have hcur := current_word lead.space hword (trail ++ cursor)
  have htok := parseToken_append lead.space hword hfol
  have hrou :
    ¬ isEos
      (current (reading .processCommand (parts, cur)
        (lead.chars ++ (word ++ (trail ++ cursor)))).cursor) ∧
      (reading .processCommand (parts, cur) (lead.chars ++ (word ++ (trail ++ cursor)))).state =
        .processCommand ∧
      current (reading .processCommand (parts, cur)
        (lead.chars ++ (word ++ (trail ++ cursor)))).cursor ≠ '%' :=
    ⟨hcur.1, rfl, hcur.2⟩
  rw [parseTemplate, if_neg hrou.1, if_pos hrou.2]
  simp only [reading, htok, hcmd]
  rfl

theorem Passes.intermediate (tag : Tag) (hword : IsWord word)
    (hcmd : ∀ cursor, onCommand word s (closed acc) cursor = .ok (.intermediate, s', [], cursor)) :
    Passes env included onCommand (tag.text word ++ Template.tagEnd) s .staticText acc s'
      .staticText ([], []) := by
  refine Passes.openCommand.append ?_
  refine .round (by simp [hword.ne_nil]) (fun n rest _ => ?_) .tagEnd
  rw [append_assoc, append_assoc]
  exact parseTemplate_command tag.lead hword (tag.trail.follows rfl rfl _) (hcmd _)

variable (env included onCommand) in
/-- The parser ends a block with the last tag of a piece of text. The cursor stays in this tag. -/
def Ends (u : Str) (s : σ) (acc : Placed) (s' : σ) (parts : List Part) : Prop :=
  ∀ n rest, u.length ≤ n →
    parseTemplate env included n σ onCommand s
      (reading .staticText acc (u ++ (Template.tagEnd ++ rest))) =
      .ok (s', parts, Template.tagEnd ++ rest)

variable {parts : List Part}

theorem Passes.ends (hu : Passes env included onCommand u s .staticText acc s' .staticText acc')
    (hv : Ends env included onCommand v s' acc' s'' parts) :
    Ends env included onCommand (u ++ v) s acc s'' parts := by
  intro n rest hn
  rw [length_append] at hn
  obtain ⟨m, hm, hpar⟩ := hu n (v ++ (Template.tagEnd ++ rest)) (by omega)
  rw [append_assoc, hpar]
  exact hv m rest (by omega)

theorem ends_tag (tag : Tag) (hword : IsWord word)
    (hcmd : ∀ cursor, onCommand word s (closed acc) cursor = .ok (.finished, s', parts, cursor)) :
    Ends env included onCommand (tag.text word) s acc s' parts := by
  intro n rest hn
  have hpos := length_pos_iff.mpr hword.ne_nil
  rw [Tag.text, length_cons, length_cons, length_append, length_append] at hn
  obtain ⟨m, hm, hpar⟩ :=
    Passes.openCommand n (tag.lead.chars ++ word ++ tag.trail.chars ++ (Template.tagEnd ++ rest))
      (by simp; omega)
  rw [length_cons, length_cons, length_nil] at hm
  refine hpar.trans ?_
  cases m with
  | zero => omega
  | succ m =>
    rw [append_assoc, append_assoc]
    exact parseTemplate_command tag.lead hword (tag.trail.follows rfl rfl _) (hcmd _)

theorem Passes.next {block : Str} {part : Part} (lead : Blank) (gap : Gap) (hword : IsWord word)
    (hfol : ∀ rest, Follows gap.chars (block ++ rest))
    (hcmd : ∀ parts cursor, onCommand word s parts cursor = .ok (.nextCommand, s, parts, cursor))
    (hpart : ∀ n rest, block.length ≤ n →
      parseCommand env included
      (fun σ onCommand s cursor => parseTemplate env included n σ onCommand s { cursor })
        word (block ++ (Template.tagEnd ++ rest)) = .ok (part, Template.tagEnd ++ rest)) :
    Passes env included onCommand
      ('{' :: '%' :: (lead.chars ++ word ++ gap.chars ++ block) ++ Template.tagEnd)
      s .staticText acc s .staticText (push part acc) := by
  have hpos := length_pos_iff.mpr hword.ne_nil
  refine Passes.openCommand.append ?_
  refine .round (by simp [hword.ne_nil]) (fun n rest hn => ?_) .tagEnd
  rw [append_assoc, append_assoc, append_assoc]
  refine (parseTemplate_command lead hword (hfol _) (hcmd _ _)).trans ?_
  simp only [length_append] at hn
  rw [hpart n rest (by omega)]
  rfl

/-! ## Blocks -/

theorem parseExpression_path (env : TemplateEnv) (p : Path) (trail : Blank) (rest : Str) :
    parseExpression env (p.text ++ (trail.chars ++ (Template.tagEnd ++ rest))) =
      .ok (.value p.text, Template.tagEnd ++ rest) := by
  have hfol : Follows trail.chars (Template.tagEnd ++ rest) := trail.follows rfl rfl _
  unfold parseExpression
  rw [parseToken_word p.isWord hfol]
  rfl

theorem Passes.elif {s : Branches} (tag : CondTag) :
    Passes env included (onBranchCommand env) (tag.text "elif".toList ++ Template.tagEnd) s
      .staticText acc
      { s.addExpression (closed acc) with expr := .value tag.path.text } .staticText ([], []) := by
  have hword : IsWord "elif".toList := ⟨by decide, all_eq_true.mp rfl⟩
  refine Passes.openCommand.append ?_
  refine .round (by simp) (fun n rest _ => ?_) .tagEnd
  have hexpr : onBranchCommand env "elif".toList s (closed acc)
      (tag.path.text ++ (tag.trail.chars ++ (Template.tagEnd ++ rest))) =
      .ok (.intermediate, { s.addExpression (closed acc) with expr := .value tag.path.text }, [],
        Template.tagEnd ++ rest) := by
    rw [onBranchCommand, parseExpression_path]
    rfl
  simp only [CondTag.words, append_assoc]
  exact parseTemplate_command tag.lead hword (tag.gap.follows tag.path.isWord _) hexpr

def LoopTag.block (tag : LoopTag) (u : Str) : Str :=
  tag.name.chars ++ (tag.beforeIn.chars ++
    ("in".toList ++ (tag.behindIn.chars ++ (tag.path.text ++ (tag.trail.chars ++
      (Template.tagEnd ++ u))))))

def CondTag.block (tag : CondTag) (u : Str) : Str :=
  tag.path.text ++ (tag.trail.chars ++ (Template.tagEnd ++ u))

theorem LoopTag.block_append (tag : LoopTag) (u v : Str) :
    tag.block u ++ v = tag.block (u ++ v) := by
  simp [LoopTag.block]

theorem CondTag.block_append (tag : CondTag) (u v : Str) :
    tag.block u ++ v = tag.block (u ++ v) := by
  simp [CondTag.block]

theorem parseForeach_words (parse : ParseBlock) (tag : LoopTag) (cursor : Str) :
    parseForeach parse (tag.block cursor) = (parse _ onLoopCommand none cursor).map fun r =>
      (.loop r.2.1 r.1 tag.path.text tag.name.chars, r.2.2) := by
  have hin : IsWord "in".toList := ⟨by decide, all_eq_true.mp rfl⟩
  have hfol : Follows tag.trail.chars (Template.tagEnd ++ cursor) := tag.trail.follows rfl rfl _
  unfold parseForeach LoopTag.block
  simp only [skipWs_word tag.name.isWord,
    parseToken_word tag.name.isWord (tag.beforeIn.follows hin _), skipWs_word hin,
    parseToken_word hin (tag.behindIn.follows tag.path.isWord _), skipWs_word tag.path.isWord,
    parseToken_word tag.path.isWord hfol]
  show (parse _ onLoopCommand none cursor).bind _ = _
  cases parse _ onLoopCommand none cursor <;> rfl

theorem parseIfElse_words (parse : ParseBlock) (tag : CondTag) (cursor : Str) :
    parseIfElse env parse (tag.block cursor) =
      (parse _ (onBranchCommand env) { expr := .value tag.path.text } cursor).map fun r =>
        (.branch r.1.expressionList r.2.1, r.2.2) := by
  unfold parseIfElse CondTag.block
  rw [skipWs_word tag.path.isWord, parseExpression_path]
  show (parse _ (onBranchCommand env) { expr := .value tag.path.text } cursor).bind _ = _
  cases parse _ (onBranchCommand env) { expr := .value tag.path.text } cursor <;> rfl

variable (env included) in
/-- What the parser does with the text of trees in a block. -/
def PassesAll (ts : List Tree) : Prop :=
  ∀ {σ : Type} {onCommand : OnCommand σ}, Defers onCommand → ∀ s acc,
    Passes env included onCommand (textAll ts) s .staticText acc s .staticText (placeAll ts acc)

variable {body : List Tree} {otherwise : Option (Tag × List Tree)}

section Blocks

variable (hother : ∀ tag ts, otherwise = some (tag, ts) → PassesAll env included ts) (close : Tag)

include hother

theorem ends_loop :
    Ends env included onLoopCommand
      (textOption "empty".toList otherwise ++ close.text "endfor".toList) none acc
      (some (closed acc)) (placeOption otherwise) := by
  have hword : IsWord "endfor".toList := ⟨by decide, all_eq_true.mp rfl⟩
  match otherwise with
  | none => exact ends_tag close hword fun _ => rfl
  | some (tag, ts) =>
    have htag : Passes env included onLoopCommand (tag.text "empty".toList ++ Template.tagEnd) none
      .staticText acc
        (some (closed acc)) .staticText ([], []) :=
          .intermediate tag ⟨by decide, all_eq_true.mp rfl⟩ fun _ => rfl
    exact (htag.append (hother tag ts rfl defers_onLoopCommand _ _)).ends
      (ends_tag close hword fun _ => rfl)

theorem ends_branch {s : Branches} (hs : s.hasElse = false) :
    ∃ s', Ends env included (onBranchCommand env)
      (textOption "else".toList otherwise ++ close.text "endif".toList) s acc
        s' (placeOption otherwise) ∧
      s'.expressionList = s.expressionList ++ [(s.expr, closed acc)] := by
  have hword : IsWord "endif".toList := ⟨by decide, all_eq_true.mp rfl⟩
  match otherwise with
  | none =>
    refine ⟨s.addExpression (closed acc), ends_tag close hword fun cursor => ?_, rfl⟩
    rw [onBranchCommand, if_neg (by decide), if_neg (by decide), if_pos rfl, if_neg (by simp [hs])]
    rfl
  | some (tag, ts) =>
    have htag : Passes env included (onBranchCommand env)
      (tag.text "else".toList ++ Template.tagEnd) s .staticText acc
        { s.addExpression (closed acc) with hasElse := true } .staticText ([], []) :=
      .intermediate tag ⟨by decide, all_eq_true.mp rfl⟩ fun _ => rfl
    exact ⟨_, (htag.append (hother tag ts rfl (defers_onBranchCommand env) _ _)).ends
      (ends_tag close hword fun _ => rfl), rfl⟩

theorem ends_elifs {elifs : List (CondTag × List Tree)}
    (heli : ∀ tag ts, (tag, ts) ∈ elifs → PassesAll env included ts) {s : Branches}
    (hs : s.hasElse = false) : ∃ s', Ends env included (onBranchCommand env) (textElifs elifs ++
        (textOption "else".toList otherwise ++ close.text "endif".toList)) s acc s'
          (placeOption otherwise) ∧
      s'.expressionList = s.expressionList ++ (s.expr, closed acc) :: placeElifs elifs := by
  induction elifs generalizing s acc with
  | nil => exact ends_branch hother close hs
  | cons elif elifs ih =>
    obtain ⟨tag, ts⟩ := elif
    obtain ⟨s', hrest, hlist⟩ := ih (fun tag ts h => heli tag ts (mem_cons_of_mem _ h))
      (s := { s.addExpression (closed acc) with expr := .value tag.path.text }) hs
    refine ⟨s', ?_, ?_⟩
    · rw [textElifs, append_assoc]
      exact ((Passes.elif tag).append
        (heli tag ts mem_cons_self (defers_onBranchCommand env) _ _)).ends hrest
    · simp [hlist, placeElifs, Branches.addExpression]

theorem Passes.loop {tag : LoopTag} (hdef : Defers onCommand)
    (hbody : PassesAll env included body) :
    Passes env included onCommand (Tree.text (.loop tag body otherwise close)) s .staticText acc
      s .staticText (Tree.place (.loop tag body otherwise close) acc) := by
  have hword : IsWord "for".toList := ⟨by decide, all_eq_true.mp rfl⟩
  have htext : Tree.text (.loop tag body otherwise close) =
      '{' :: '%' :: (tag.lead.chars ++ "for".toList ++ tag.gap.chars ++ tag.block (textAll body ++
        (textOption "empty".toList otherwise ++ close.text "endfor".toList))) ++
        Template.tagEnd := by
    simp [Tree.text, LoopTag.text, LoopTag.words, LoopTag.block]
  rw [htext]
  refine .next tag.lead tag.gap hword (fun rest => ?_) (hdef.loop s) fun n rest hn => ?_
  · rw [LoopTag.block_append]
    exact tag.gap.follows tag.name.isWord _
  · have hblk := ((hbody defers_onLoopCommand none ([], [])).ends (ends_loop hother close)) n rest
      (by simp only [LoopTag.block, length_append] at hn ⊢; omega)
    rw [parseCommand, if_pos rfl, LoopTag.block_append]
    exact (parseForeach_words ..).trans (congrArg (Except.map _) hblk)

theorem Passes.branch {tag : CondTag} {elifs : List (CondTag × List Tree)} (hdef : Defers onCommand)
    (hbody : PassesAll env included body)
    (heli : ∀ tag ts, (tag, ts) ∈ elifs → PassesAll env included ts) :
    Passes env included onCommand (Tree.text (.branch tag body elifs otherwise close)) s .staticText
      acc s .staticText (Tree.place (.branch tag body elifs otherwise close) acc) := by
  have hword : IsWord "if".toList := ⟨by decide, all_eq_true.mp rfl⟩
  have htext : Tree.text (.branch tag body elifs otherwise close) =
    '{' :: '%' :: (tag.lead.chars ++ "if".toList ++
      tag.gap.chars ++ tag.block (textAll body ++ (textElifs elifs ++
        (textOption "else".toList otherwise ++ close.text "endif".toList)))) ++
        Template.tagEnd := by
    simp [Tree.text, CondTag.text, CondTag.words, CondTag.block]
  rw [htext]
  refine .next tag.lead tag.gap hword (fun rest => ?_) (hdef.branch s) fun n rest hn => ?_
  · rw [CondTag.block_append]
    exact tag.gap.follows tag.path.isWord _
  · obtain ⟨s', hrest, hlist⟩ :=
      ends_elifs hother close heli (s := { expr := .value tag.path.text }) rfl
    have hblk := ((hbody (defers_onBranchCommand env) _ ([], [])).ends hrest) n rest
      (by simp only [CondTag.block, length_append] at hn ⊢; omega)
    rw [parseCommand, if_neg (by decide), if_pos rfl, CondTag.block_append]
    refine (parseIfElse_words ..).trans ((congrArg (Except.map _) hblk).trans ?_)
    rw [Except.map, hlist]
    rfl

end Blocks

end Passing

mutual

/-- **The parser passes the text of a tree** and is where the parts of the tree are placed. -/
theorem passes_tree (env : TemplateEnv) (included : Str → Except TemplateError (List Part))
    (t : Tree) {σ : Type} {onCommand : OnCommand σ} (hdef : Defers onCommand) (s : σ)
    (acc : Placed) :
    Passes env included onCommand t.text s .staticText acc s .staticText (t.place acc) := by
  match t with
  | .plain text => exact .plain text
  | .variable tag path => exact .variable tag path
  | .loop tag body empty close =>
    exact .loop (passes_option env included empty) close hdef (passes_trees env included body)
  | .branch tag body elifs otherwise close =>
    exact .branch (passes_option env included otherwise) close hdef (passes_trees env included body)
      (passes_elifs env included elifs)

theorem passes_trees (env : TemplateEnv) (included : Str → Except TemplateError (List Part))
    (ts : List Tree) : PassesAll env included ts := by
  intro σ onCommand hdef s acc
  match ts with
  | [] => exact .nil
  | t :: ts =>
      exact (passes_tree env included t hdef s acc).append (passes_trees env included ts hdef s _)

theorem passes_option (env : TemplateEnv) (included : Str → Except TemplateError (List Part))
    (o : Option (Tag × List Tree)) : ∀ tag ts, o = some (tag, ts) → PassesAll env included ts := by
  match o with
  | none => exact nofun
  | some (tag, ts) =>
    rintro _ _ ⟨⟩
    exact passes_trees env included ts

theorem passes_elifs (env : TemplateEnv) (included : Str → Except TemplateError (List Part))
    (elifs : List (CondTag × List Tree)) : ∀ tag ts, (tag, ts) ∈ elifs →
    PassesAll env included ts := by
  match elifs with
  | [] => exact nofun
  | (tag, ts) :: elifs =>
    intro tag' ts' hmem
    rcases mem_cons.mp hmem with heq | hmem
    · cases heq
      exact passes_trees env included ts
    · exact passes_elifs env included elifs tag' ts' hmem

end

theorem parseText_textAll (env : TemplateEnv) (included : Str → Except TemplateError (List Part))
    (ts : List Tree) :
    parseText env included (textAll ts) = .ok (closed (placeAll ts ([], []))) := by
  obtain ⟨m, hm, hpar⟩ := passes_trees env included ts defers_onAnyCommand () ([], [])
    (2 * (textAll ts).length + 2) [] (by omega)
  rw [append_nil] at hpar
  unfold parseText
  rw [show ({ cursor := textAll ts } : TemplateParser) =
    reading .staticText ([], []) (textAll ts) from rfl, hpar]
  cases m with
  | zero => omega
  | succ m => rfl

/-- **Rendering the text of a template gives its meaning**, whenever the data give it one. -/
theorem render_template (env : TemplateEnv) (depth : Nat) (ts : List Tree) (data : Json) (s : Str)
    (h : meaningAll ts data = some s) : render env depth (textAll ts) data = .ok s := by
  have hbui : build env depth (textAll ts) = .ok (closed (placeAll ts ([], []))) := by
    cases depth with
    | zero => exact parseText_textAll env _ ts
    | succ depth => exact parseText_textAll env _ ts
  unfold render
  rw [hbui]
  exact rendered_placeAll ts data renderParts_closed_nil h

/-- `Hi {{ user }}:{% for x in items %}{{ x }}{% if forloop.parent.last %}!{% else %},{% endif %}{%
empty %}none{% endfor %}` -/
def greeting : List Tree :=
  let blank : Blank := ⟨[' '], all_eq_true.mp rfl⟩
  let gap : Gap := ⟨blank, by decide⟩
  let tag : Tag := ⟨blank, blank⟩
  let name (chars : Str) (hne : chars ≠ []) (halnum : ∀ c ∈ chars, c.isAlphanum = true) : Path :=
    ⟨⟨chars, hne, halnum⟩, []⟩
  let x : Path := name ['x'] (by decide) (all_eq_true.mp rfl)
  let last : Path := ⟨⟨"forloop".toList, by decide, all_eq_true.mp rfl⟩,
    [⟨"parent".toList, by decide, all_eq_true.mp rfl⟩,
      ⟨"last".toList, by decide, all_eq_true.mp rfl⟩]⟩
  [ .plain ⟨"Hi ".toList, by decide, by decide⟩,
    .variable tag (name "user".toList (by decide) (all_eq_true.mp rfl)),
    .plain ⟨[':'], by decide, by decide⟩,
    .loop ⟨blank, gap, ⟨['x'], by decide, all_eq_true.mp rfl⟩, by decide, gap, gap,
        name "items".toList (by decide) (all_eq_true.mp rfl), blank⟩
      [ .variable tag x, .branch ⟨blank, gap, last, blank⟩ [.plain ⟨['!'], by decide, by decide⟩] []
          (some (tag, [.plain ⟨[','], by decide, by decide⟩])) tag ]
      (some (tag, [.plain ⟨"none".toList, by decide, by decide⟩])) tag ]

def greetingData : Json :=
  .object [("items".toList, .array [.string ['a'], .string ['b']]), ("last".toList, .boolean true),
    ("user".toList, .string ['M'])]

def noFiles : TemplateEnv :=
  ⟨fun _ => none, ⟨fun _ => false, fun _ => false⟩, false, fun _ _ _ => false, id, fun _ => false⟩

theorem render_greeting : meaningAll greeting greetingData = some "Hi M:a!b!".toList ∧
    render noFiles 0 (textAll greeting) greetingData = .ok "Hi M:a!b!".toList :=
  ⟨rfl, render_template noFiles 0 greeting greetingData _ rfl⟩

end Template

end Matador.Http
