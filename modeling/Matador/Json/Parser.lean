import Matador.Json.GenericParser

/-!
# The value builder

`json_parser` builds the value from the calls of the character-level parser. It keeps the value, the
last key, and a stack of pointers into the value: to the root and to the container that is open in
the one below.

A pointer is the path from the root: the key of a field, or the last item of an array. It stays
good, since only the container at the top of the stack is changed.
-/

namespace Matador.Json

open List Lib Option

/-! ## Pointers -/

inductive Step
  | field (key : Str)
  | back

/-- A pointer into a value. -/
abbrev Pointer := List Step

def deref : Pointer → Json → Option Json
  | [], j => some j
  | .field key :: p, .object fields => (SortedMap.get key fields).bind (deref p)
  | .back :: p, .array items => items.getLast?.bind (deref p)
  | _, _ => none

def assign : Pointer → Json → Json → Json
  | [], value, _ => value
  | .field key :: p, value, .object fields =>
    match SortedMap.get key fields with
    | some j => .object (SortedMap.set key (assign p value j) fields)
    | none => .object fields
  | .back :: p, value, .array items =>
    match items.getLast? with
    | some j => .array (items.dropLast ++ [assign p value j])
    | none => .array items
  | _, _, j => j

/-! ## Changing a value -/

def isObject : Json → Bool
  | .object _ => true
  | _ => false

def isArray : Json → Bool
  | .array _ => true
  | _ => false

/-- `operator[](key) = value`. -/
def setKey : Json → Str → Json → Json
  | .object fields, key, value => .object (SortedMap.set key value fields)
  | _, key, value => .object [(key, value)]

def pushBack : Json → Json → Json
  | .array items, value => .array (items ++ [value])
  | _, value => .array [value]

/-! ## The callbacks -/

structure JsonParser where
  value : Json
  key : Str
  stateStack : List Pointer

/-- How a callback can fail: the `std::logic_error` of `on_value`, and a bad pointer or an empty
stack. -/
inductive BuildError
  | invalidJson
  | undefined
  deriving DecidableEq, Repr

namespace JsonParser

/-- `on_begin_object` and `on_begin_array`, which differ in the container. -/
def onBegin (container : Json) (s : JsonParser) : Except BuildError JsonParser :=
  match s.stateStack with
  | [] => .ok { s with value := container, stateStack := [[]] }
  | top :: stack =>
    match deref top s.value with
    | none => .error .undefined
    | some j =>
      if j.isObject then
        .ok { s with
          value := assign top (j.setKey s.key container) s.value
          stateStack := (top ++ [.field s.key]) :: top :: stack }
      else
        .ok { s with
          value := assign top (j.pushBack container) s.value
          stateStack := (top ++ [.back]) :: top :: stack }

/-- `on_end_object` and `on_end_array`. -/
def onEnd (s : JsonParser) : Except BuildError JsonParser :=
  match s.stateStack with
  | [] => .error .undefined
  | _ :: stack => .ok { s with stateStack := stack }

def onValue (value : Json) (s : JsonParser) : Except BuildError JsonParser :=
  match s.stateStack with
  | [] => .ok { s with value := value }
  | top :: _ =>
    match deref top s.value with
    | none => .error .undefined
    | some j =>
      if j.isObject then .ok { s with value := assign top (j.setKey s.key value) s.value }
      else if j.isArray then .ok { s with value := assign top (j.pushBack value) s.value }
      else .error .invalidJson

def onEvent (s : JsonParser) : Event → Except BuildError JsonParser
  | .beginObject => s.onBegin (.object [])
  | .objectKey key => .ok { s with key := key }
  | .endObject => s.onEnd
  | .beginArray => s.onBegin (.array [])
  | .endArray => s.onEnd
  | .string str => s.onValue (.string str)
  | .real text => s.onValue (.real text)
  | .integer i => s.onValue (.integer i)
  | .bool b => s.onValue (.boolean b)
  | .null => s.onValue .null

inductive Error
  | parser (e : ParseError)
  | builder (e : BuildError)

def parse (strtod : Strtod) (erange : Bool) (s : JsonParser) (str : Str) : Except Error Json :=
  match parseJson strtod erange str with
  | .error e => .error (.parser e)
  | .ok events =>
    match events.foldlM onEvent { s with stateStack := [] } with
    | .error e => .error (.builder e)
    | .ok s => .ok s.value

end JsonParser

/-! ## Events of a value -/

mutual

def events : Json → List Event
  | .null => [.null]
  | .integer i => [.integer i]
  | .real text => [.real text]
  | .boolean b => [.bool b]
  | .string s => [.string s]
  | .object fields => .beginObject :: fieldEvents fields ++ [.endObject]
  | .array items => .beginArray :: itemEvents items ++ [.endArray]

def fieldEvents : List (Str × Json) → List Event
  | [] => []
  | (key, value) :: fields => .objectKey key :: value.events ++ fieldEvents fields

def itemEvents : List Json → List Event
  | [] => []
  | item :: items => item.events ++ itemEvents items

end

mutual

/-- The value that is built from its calls: of fields with the same key the last one stays. -/
def built : Json → Json
  | .object fields => .object (builtFields [] fields)
  | .array items => .array (builtItems items)
  | j => j

def builtFields : List (Str × Json) → List (Str × Json) → List (Str × Json)
  | acc, [] => acc
  | acc, (key, value) :: fields => builtFields (SortedMap.set key value.built acc) fields

def builtItems : List Json → List Json
  | [] => []
  | item :: items => item.built :: builtItems items

end

/-! ## Laws of pointers -/

theorem deref_append (p q : Pointer) (j : Json) :
    deref (p ++ q) j = (deref p j).bind (deref q) := by
  induction p generalizing j with
  | nil => simp [deref]
  | cons step p ih =>
    have hq : deref (p ++ q) = fun j => (deref p j).bind (deref q) := funext ih
    cases step with
    | field _ | back => cases j <;> simp [deref, hq, bind_assoc]

theorem assign_laws {p : Pointer} {j old : Json} (h : deref p j = some old) (new : Json) :
    deref p (assign p new j) = some new ∧
      ∀ q new', assign (p ++ q) new' (assign p new j) = assign p (assign q new' new) j := by
  induction p generalizing j with
  | nil => exact ⟨rfl, fun _ _ => rfl⟩
  | cons step p ih =>
    cases step with
    | field key =>
      cases j with
      | object fields =>
        obtain ⟨child, hchd, hold⟩ := bind_eq_some_iff.mp h
        simp [deref, assign, hchd, SortedMap.get_set_self, SortedMap.set_set_self, ih hold]
      | _ => cases h
    | back =>
      cases j with
      | array items =>
        obtain ⟨child, hchd, hold⟩ := bind_eq_some_iff.mp h
        simp [deref, assign, hchd, ih hold]
      | _ => cases h

theorem deref_assign {p : Pointer} {j old : Json} (h : deref p j = some old) (new : Json) :
    deref p (assign p new j) = some new := (assign_laws h new).1

theorem assign_assign {p : Pointer} {j old : Json} (h : deref p j = some old) (new new' : Json) :
    assign p new' (assign p new j) = assign p new' j := by
  have hass := (assign_laws h new).2 [] new'
  rwa [append_nil] at hass

/-! ## Building -/

def isContainer (j : Json) : Bool := j.isObject || j.isArray

def attach (key : Str) (value container : Json) : Json :=
  if container.isObject then container.setKey key value else container.pushBack value

def attachStep (key : Str) (container : Json) : Step :=
  if container.isObject then .field key else .back

theorem deref_attach {c : Json} (h : c.isContainer) (key : Str) (value : Json) :
    deref [attachStep key c] (attach key value c) = some value := by
  cases c with
  | object fields => simp [attach, attachStep, isObject, setKey, deref, SortedMap.get_set_self]
  | array items => simp [attach, attachStep, isObject, pushBack, deref]
  | _ => cases h

theorem assign_attach {c : Json} (h : c.isContainer) (key : Str) (value new : Json) :
    assign [attachStep key c] new (attach key value c) = attach key new c := by
  cases c with
  | object fields =>
    simp [attach, attachStep, isObject, setKey, assign, SortedMap.get_set_self,
      SortedMap.set_set_self]
  | array items => simp [attach, attachStep, isObject, pushBack, assign]
  | _ => cases h

namespace JsonParser

variable {s : JsonParser} {top : Pointer} {stack : List Pointer} {c : Json}

theorem onValue_attach (hs : s.stateStack = top :: stack) (hc : deref top s.value = some c)
    (hcont : c.isContainer) (value : Json) :
    s.onValue value = .ok { s with value := assign top (attach s.key value c) s.value } := by
  rw [onValue, hs]
  simp only [hc]
  cases c with
  | object fields => rfl
  | array items => rfl
  | _ => cases hcont

theorem onBegin_attach (hs : s.stateStack = top :: stack) (hc : deref top s.value = some c)
    (container : Json) : s.onBegin container = .ok { s with
        value := assign top (attach s.key container c) s.value
        stateStack := (top ++ [attachStep s.key c]) :: top :: stack } := by
  rw [onBegin, hs]
  simp only [hc, attach, attachStep]
  split <;> rfl

/-- While a container is open, the calls of a value attach it. The last key has changed then. -/
def Attaches (calls : List Event) (value : Json) : Prop :=
  ∀ (s : JsonParser) (top : Pointer) (stack : List Pointer) (c : Json),
    s.stateStack = top :: stack →
    deref top s.value = some c → c.isContainer = true →
    ∃ key, calls.foldlM onEvent s =
      .ok ⟨assign top (attach s.key value c) s.value, key, s.stateStack⟩

/-- The calls between the brackets fill a container. -/
def Fills (calls : List Event) (empty full : Json) : Prop :=
  ∀ (s : JsonParser) (top : Pointer) (stack : List Pointer) (j old : Json),
    s.stateStack = top :: stack → deref top j = some old → s.value = assign top empty j →
    ∃ key, calls.foldlM onEvent s = .ok ⟨assign top full j, key, s.stateStack⟩

theorem attaches_container {first last : Event} {calls : List Event} {empty full : Json}
    (hfst : ∀ s : JsonParser, s.onEvent first = s.onBegin empty)
    (hlast : ∀ s : JsonParser, s.onEvent last = s.onEnd) (hfil : Fills calls empty full) :
    Attaches (first :: calls ++ [last]) full := by
  intro s top stack c hs hc hcont
  have hopen := onBegin_attach hs hc empty
  have hder := deref_assign hc (attach s.key empty c)
  -- the new container is where the pushed pointer points to
  have hnew : deref (top ++ [attachStep s.key c]) (assign top (attach s.key empty c) s.value) =
      some empty := by
    rw [deref_append, hder, bind_some, deref_attach hcont]
  have hass (full : Json) : assign (top ++ [attachStep s.key c]) full
      (assign top (attach s.key empty c) s.value) = assign top (attach s.key full c) s.value := by
    rw [(assign_laws hc _).2, assign_attach hcont]
  obtain ⟨key, hfill⟩ := hfil { s with
      value := assign top (attach s.key empty c) s.value
      stateStack := (top ++ [attachStep s.key c]) :: top :: stack }
    _ _ _ _ rfl hnew (hass empty).symm
  refine ⟨key, ?_⟩
  rw [cons_append, foldlM_cons, hfst, hopen]
  show (calls ++ [last]).foldlM onEvent _ = _
  rw [foldlM_append, hfill, hass full]
  show [last].foldlM onEvent _ = _
  rw [foldlM_cons, hlast, hs]
  rfl

theorem Fills.attach {calls rest : List Event} {value next full : Json}
    (hrest : Fills rest next full) (hcal : Attaches calls value) (hcont : c.isContainer)
    {j old : Json} (hs : s.stateStack = top :: stack) (hj : deref top j = some old)
    (hval : s.value = assign top c j) (hnext : Json.attach s.key value c = next) :
    ∃ key, (calls ++ rest).foldlM onEvent s = .ok ⟨assign top full j, key, s.stateStack⟩ := by
  have hc : deref top s.value = some c := by rw [hval, deref_assign hj]
  obtain ⟨key, heve⟩ := hcal s top stack c hs hc hcont
  have hatt : assign top (Json.attach s.key value c) s.value = assign top next j := by
    rw [hval, assign_assign hj, hnext]
  rw [foldlM_append, heve, hatt]
  exact hrest ⟨assign top next j, key, s.stateStack⟩ top stack j old hs hj rfl

theorem builds_container {first last : Event} {calls : List Event} {empty full : Json}
    (hfst : ∀ s : JsonParser, s.onEvent first = s.onBegin empty)
    (hlast : ∀ s : JsonParser, s.onEvent last = s.onEnd) (hfil : Fills calls empty full)
    (s : JsonParser) (hs : s.stateStack = []) :
    ∃ key, (first :: calls ++ [last]).foldlM onEvent s = .ok ⟨full, key, []⟩ := by
  have hopen : s.onBegin empty = .ok { s with value := empty, stateStack := [[]] } := by
    rw [onBegin, hs]
  obtain ⟨key, hfill⟩ :=
    hfil { s with value := empty, stateStack := [[]] } [] [] empty empty rfl rfl rfl
  refine ⟨key, ?_⟩
  rw [cons_append, foldlM_cons, hfst, hopen]
  show (calls ++ [last]).foldlM onEvent _ = _
  rw [foldlM_append, hfill]
  show [last].foldlM onEvent _ = _
  rw [foldlM_cons, hlast]
  rfl

end JsonParser

open JsonParser

theorem attaches_value {e : Event} {value : Json}
    (h : ∀ s : JsonParser, s.onEvent e = s.onValue value) : Attaches [e] value := by
  intro s top stack c hs hc hcont
  refine ⟨s.key, ?_⟩
  rw [foldlM_cons, h, onValue_attach hs hc hcont]
  rfl

mutual

theorem attaches_events (j : Json) : Attaches j.events j.built := by
  match j with
  | .null => exact attaches_value fun _ => rfl
  | .integer _ | .real _ | .boolean _ | .string _ => exact attaches_value fun _ => rfl
  | .object fields =>
      exact attaches_container (fun _ => rfl) (fun _ => rfl) (fills_fieldEvents [] fields)
  | .array items =>
    have hfil := fills_itemEvents [] items
    exact attaches_container (fun _ => rfl) (fun _ => rfl) hfil

theorem fills_fieldEvents (acc fields : List (Str × Json)) :
    Fills (fieldEvents fields) (.object acc) (.object (builtFields acc fields)) := by
  intro s top stack j old hs hj hval
  match fields with
  | [] => exact ⟨s.key, by rw [builtFields, ← hval]; rfl⟩
  | (key, value) :: fields =>
    have hrest := fills_fieldEvents (SortedMap.set key value.built acc) fields
    exact hrest.attach (s := { s with key := key }) (attaches_events value) rfl hs hj hval rfl

theorem fills_itemEvents (acc items : List Json) :
    Fills (itemEvents items) (.array acc) (.array (acc ++ builtItems items)) := by
  intro s top stack j old hs hj hval
  match items with
  | [] => exact ⟨s.key, by rw [builtItems, append_nil, ← hval]; rfl⟩
  | item :: items =>
    have hrest := fills_itemEvents (acc ++ [item.built]) items
    rw [append_assoc] at hrest
    exact hrest.attach (attaches_events item) rfl hs hj hval rfl

end

/-- **The calls of a value build it**, whatever the parser was used for before. -/
theorem foldlM_events (j : Json) (s : JsonParser) :
    ∃ key, j.events.foldlM onEvent { s with stateStack := [] } = .ok ⟨j.built, key, []⟩ := by
  cases j with
  | object fields =>
      exact builds_container (fun _ => rfl) (fun _ => rfl) (fills_fieldEvents [] fields) _ rfl
  | array items =>
    have hfil := fills_itemEvents [] items
    exact builds_container (fun _ => rfl) (fun _ => rfl) hfil _ rfl
  | _ => exact ⟨s.key, rfl⟩

theorem get_builtFields (key : Str) (acc fields : List (Str × Json)) :
    SortedMap.get key (builtFields acc fields) =
      ((fields.reverse.lookup key).map built).or (SortedMap.get key acc) := by
  induction fields generalizing acc with
  | nil => rfl
  | cons field fields ih =>
    obtain ⟨k, value⟩ := field
    rw [builtFields, ih, reverse_cons, lookup_append]
    by_cases hk : key = k
    · subst hk
      cases hlast : fields.reverse.lookup key with
      | none => simp [SortedMap.get_set_self]
      | some last => rfl
    · rw [SortedMap.get_set_of_ne hk, lookup_cons, beq_false_of_ne hk, lookup_nil, or_none]

/-- **Traversing a value builds it**, a repeated key having its last value, and leaves no container
open. -/
theorem builds_traversed (j : Json) (s : JsonParser) :
    (∃ key, j.events.foldlM onEvent { s with stateStack := [] } = .ok ⟨j.built, key, []⟩) ∧
      ∀ fields key, SortedMap.get key (builtFields [] fields) =
        (fields.reverse.lookup key).map built := by
  refine ⟨foldlM_events j s, fun fields key => ?_⟩
  rw [get_builtFields, SortedMap.get, or_none]

end Matador.Json
