import Matador.Json.Completeness

/-!
# The serializer

`json_serializer` writes an object by calling `process`, which names its fields one after the other.
Behind each field stands a comma; the one behind the last field is removed by erasing the last comma
of the whole buffer, wherever that is. `is_array` says that no comma is to be written behind an
object, but it is one flag for all levels: it holds for the objects inside an element as well, and
the end of any array clears it.

An object is given by its fields in the order of `process`, a number by the text that
`std::to_string` makes of it. Lists and sets are written like vectors.
-/

namespace Matador.Json

open List Rfc

/-! ## Objects -/

/-- A string without quotes, backslashes and control characters. -/
structure PlainText where
  chars : Str
  plain : ∀ c ∈ chars, ' ' ≤ c ∧ c ≠ '"' ∧ c ≠ '\\'

/-- An arithmetic value; a real by its sign and its digits. -/
inductive Numeral
  | integer (i : Int)
  | real (minus : Bool) (int : Nat) (frac : Fin 6 → Fin 10)

/-- `std::to_string`. -/
def Numeral.text : Numeral → Str
  | .integer i => integerText i
  | .real minus int frac =>
    (if minus then ['-'] else []) ++
      (Nat.toDigits 10 int ++ '.' :: ofFn fun k => Nat.digitChar (frac k))

inductive Attribute
  | number (n : Numeral)
  | boolean (b : Bool)
  | string (s : PlainText)
  /-- a string that is the primary key -/
  | primaryKey (s : PlainText)
  | object (fields : List (PlainText × Attribute))
  | numbers (ns : List Numeral)
  | strings (ss : List PlainText)
  | objects (os : List (List (PlainText × Attribute)))

structure JsonFormat where
  enableLineBreak : Bool
  indentation : Nat

namespace JsonFormat

def compact : JsonFormat := ⟨false, 0⟩

def pretty : JsonFormat := ⟨true, 2⟩

end JsonFormat

/-! ## The serializer -/

/-- `json_serializer` without the format. -/
structure JsonSerializer where
  json : Str := []
  depth : Nat := 0
  isArray : Bool := false

/-- `find_last_of` and `erase`; if there is no comma, `erase` throws `std::out_of_range`. -/
def eraseLastComma : Str → Option Str
  | [] => none
  | c :: cs =>
    match eraseLastComma cs with
    | some cs => some (c :: cs)
    | none => if c = ',' then some cs else none

namespace JsonSerializer

variable (f : JsonFormat)

/-- `json_.append`. -/
def write (text : Str) (s : JsonSerializer) : JsonSerializer := { s with json := s.json ++ text }

def newline (s : JsonSerializer) : JsonSerializer := if f.enableLineBreak then s.write ['\n'] else s

def indent (s : JsonSerializer) : JsonSerializer :=
  s.write (replicate (s.depth * f.indentation) ' ')

def writeId (id : PlainText) (s : JsonSerializer) : JsonSerializer :=
  (s.indent f).write ('"' :: (id.chars ++ ['"', ':', ' ']))

def beginObject (s : JsonSerializer) : JsonSerializer :=
  let s := (s.write ['{']).newline f
  { s with depth := s.depth + 1 }

def endObject (s : JsonSerializer) : JsonSerializer :=
  let s := (({ s with depth := s.depth - 1 } : JsonSerializer).indent f).write ['}']
  if 0 < s.depth ∧ s.isArray = false then s.write [','] else s

def beginArray (s : JsonSerializer) : JsonSerializer := { s.write ['['] with isArray := true }

def endArray (s : JsonSerializer) : JsonSerializer :=
  let s := s.write [']']
  let s := if 0 < s.depth then s.write [','] else s
  { s with isArray := false }

/-- `on_attribute` of a value that is written in one piece. -/
def onPlain (id : PlainText) (text : Str) (s : JsonSerializer) : JsonSerializer :=
  (((s.writeId f id).write text).write [',']).newline f

/-- `append` of an object whose fields are written by `body`. -/
def appendWith (body : JsonSerializer → Option JsonSerializer) (s : JsonSerializer) :
    Option JsonSerializer :=
  (body (s.beginObject f)).bind fun s =>
    (eraseLastComma s.json).map fun json => endObject f { s with json := json }

/-- `join` of values that are written in one piece. -/
def join : List Str → JsonSerializer → JsonSerializer
  | [], s => s
  | text :: texts, s => texts.foldl (fun s text => (s.write [',']).write text) (s.write text)

/-- `on_attribute` of a container, whose items are written by `items`. -/
def onContainer (id : PlainText) (items : JsonSerializer → Option JsonSerializer)
    (s : JsonSerializer) : Option JsonSerializer :=
  (items (s.writeId f id).beginArray).map fun s => s.endArray.newline f

mutual

/-- `on_attribute`, and `on_primary_key` and `on_revision`. -/
def onAttribute : Attribute → PlainText → JsonSerializer → Option JsonSerializer
  | .number n, id, s => some (s.onPlain f id n.text)
  | .boolean true, id, s => some (s.onPlain f id ['t', 'r', 'u', 'e'])
  | .boolean false, id, s => some (s.onPlain f id ['f', 'a', 'l', 's', 'e'])
  | .string str, id, s =>
      if str.chars.isEmpty then some s else some (s.onPlain f id (quoted str.chars))
  | .primaryKey str, id, s => some (s.onPlain f id (quoted str.chars))
  | .object fields, id, s => (appendWith f (process fields) (s.writeId f id)).map (newline f)
  | .numbers ns, id, s => s.onContainer f id fun s => some (s.join (ns.map Numeral.text))
  | .strings ss, id, s =>
      s.onContainer f id fun s => some (s.join (ss.map fun str => quoted str.chars))
  | .objects os, id, s => s.onContainer f id (joinObjects true os)

def process : List (PlainText × Attribute) → JsonSerializer → Option JsonSerializer
  | [], s => some s
  | (id, a) :: fields, s => (onAttribute a id s).bind (process fields)

/-- `join` of objects; a comma stands in front of all but the first. -/
def joinObjects : Bool → List (List (PlainText × Attribute)) → JsonSerializer →
    Option JsonSerializer
  | _, [], s => some s
  | first, o :: os, s =>
      (appendWith f (process o) (if first then s else s.write [','])).bind (joinObjects false os)

end

/-- `append` of an object. -/
def appendObject (o : List (PlainText × Attribute)) : JsonSerializer → Option JsonSerializer :=
  appendWith f (process f o)

/-- `to_json`: the serializer with the text in `json`. -/
def toJson (o : List (PlainText × Attribute)) (s : JsonSerializer) : Option JsonSerializer :=
  (appendObject f o { s with json := [] }).map (newline f)

end JsonSerializer

/-! ## Conditions -/

namespace Attribute

def writes : Attribute → Bool
  | .string s => !s.chars.isEmpty
  | _ => true

def isPlain : Attribute → Bool
  | .number _ | .boolean _ | .string _ | .primaryKey _ => true
  | _ => false

mutual

/-- Every object writes a field, and an element of a container has plain fields only. -/
def closes : Attribute → Bool
  | .object fields => fields.any (·.2.writes) && allClose fields
  | .objects os => os.all fun o => o.any (·.2.writes) && o.all (·.2.isPlain)
  | _ => true

def allClose : List (PlainText × Attribute) → Bool
  | [] => true
  | (_, a) :: fields => a.closes && allClose fields

end

end Attribute

/-! ## The tree that is written -/

def PlainText.strChars (s : PlainText) : List StrChar :=
  s.chars.pmap (fun c h => .unescaped c h.1 h.2.1 h.2.2) s.plain

theorem stringText_strChars (s : PlainText) : stringText s.strChars = quoted s.chars := by
  have hmap : s.strChars.flatMap StrChar.text = s.chars := by
    rw [PlainText.strChars, flatMap_def, map_pmap]
    show (s.chars.pmap (fun c _ => [c]) _).flatten = _
    rw [pmap_eq_map, ← flatMap_def, flatMap_singleton']
  rw [stringText, hmap]
  rfl

theorem head_toDigits (n : Nat) (h : (Nat.toDigits 10 n).head? = some '0') :
    Nat.toDigits 10 n = ['0'] := by
  induction n using Nat.strongRecOn with
  | ind n ih =>
    by_cases hn : n < 10
    · rw [Nat.toDigits_of_lt_base hn] at h ⊢
      rw [head?_cons, Option.some.injEq] at h
      rw [h]
    · rw [Nat.toDigits_of_base_le (by omega) (by omega),
        head?_append_of_ne_nil _ Nat.toDigits_ne_nil] at h
      have hzero := ih (n / 10) (by omega) h
      have hval : Nat.ofDigitChars 10 (Nat.toDigits 10 (n / 10)) 0 = n / 10 :=
        Nat.ofDigitChars_toDigits (by omega) (by omega)
      rw [hzero] at hval
      have : (0 : Nat) = n / 10 := hval
      omega

def natDigits (n : Nat) : Digits :=
  ⟨Nat.toDigits 10 n, Nat.toDigits_ne_nil, fun _ hc => isDigit_of_mem_toDigits hc⟩

def fracDigits (frac : Fin 6 → Fin 10) : Digits where
  chars := ofFn fun k => Nat.digitChar (frac k)
  ne_nil := by simp
  digit := by
    have hdigit : ∀ d : Fin 10, (Nat.digitChar d).isDigit = true := by decide
    intro c hc
    obtain ⟨k, rfl⟩ := mem_ofFn.mp hc
    exact hdigit (frac k)

def Numeral.number : Numeral → Number
  | .integer (.ofNat n) => ⟨false, natDigits n, head_toDigits _, none, none⟩
  | .integer (.negSucc n) => ⟨true, natDigits (n + 1), head_toDigits _, none, none⟩
  | .real minus int frac => ⟨minus, natDigits int, head_toDigits _, some (fracDigits frac), none⟩

theorem text_number (n : Numeral) : n.number.text = n.text := by
  cases n with
  | integer i =>
    cases i with
    | ofNat n =>
      show [] ++ (Nat.toDigits 10 n ++ []) = Nat.toDigits 10 n
      simp
    | negSucc n =>
      show ['-'] ++ (Nat.toDigits 10 (n + 1) ++ []) = '-' :: Nat.toDigits 10 (n + 1)
      simp
  | real minus int frac => rfl

section Tree

variable (f : JsonFormat)

def lineBreak : Str := if f.enableLineBreak then ['\n'] else []

def indentation (d : Nat) : Str := replicate (d * f.indentation) ' '

def lineWs (d : Nat) : Ws where
  chars := lineBreak f ++ indentation f d
  ws := by
    intro c hc
    rcases mem_append.mp hc with hc | hc
    · unfold lineBreak at hc
      split at hc
      · rw [mem_singleton.mp hc]
        rfl
      · cases hc
    · rw [eq_of_mem_replicate hc]
      rfl

theorem ws_nil : ∀ c ∈ [], isWs c := nofun

def members (d : Nat) : PlainText × Value → List (PlainText × Value) → Members
  | (id, v), [] =>
      .last (lineWs f (d + 1)) id.strChars ⟨[], ws_nil⟩ ⟨[' '], all_eq_true.mp rfl⟩ v (lineWs f d)
  | (id, v), x :: xs =>
    .cons (lineWs f (d + 1)) id.strChars ⟨[], ws_nil⟩ ⟨[' '], all_eq_true.mp rfl⟩ v ⟨[], ws_nil⟩
      (members d x xs)

def objectValue (d : Nat) : List (PlainText × Value) → Value
  | [] => .emptyObject (lineWs f d)
  | x :: xs => .object (members f d x xs)

def items : Value → List Value → Items
  | v, [] => .last ⟨[], ws_nil⟩ v ⟨[], ws_nil⟩
  | v, x :: xs => .cons ⟨[], ws_nil⟩ v ⟨[], ws_nil⟩ (items x xs)

def arrayValue : List Value → Value
  | [] => .emptyArray ⟨[], ws_nil⟩
  | v :: vs => .array (items v vs)

mutual

def Attribute.value (d : Nat) : Attribute → Value
  | .number n => .number n.number
  | .boolean b => .boolean b
  | .string s => .string s.strChars
  | .primaryKey s => .string s.strChars
  | .object fields => objectValue f d (written (d + 1) fields)
  | .numbers ns => arrayValue (ns.map fun n => .number n.number)
  | .strings ss => arrayValue (ss.map fun s => .string s.strChars)
  | .objects os => arrayValue (elements d os)

def written (d : Nat) : List (PlainText × Attribute) → List (PlainText × Value)
  | [] => []
  | (id, a) :: fields => if a.writes then (id, a.value d) :: written d fields else written d fields

def elements (d : Nat) : List (List (PlainText × Attribute)) → List Value
  | [] => []
  | o :: os => objectValue f d (written (d + 1) o) :: elements d os

end

def document (o : List (PlainText × Attribute)) : Document :=
  ⟨⟨[], ws_nil⟩, objectValue f 0 (written f 1 o), lineWs f 0⟩

/-! ## What is written -/

def fieldText (d : Nat) (x : PlainText × Value) : Str :=
  indentation f d ++ (quoted x.1.chars ++ (':' :: ' ' :: x.2.text))

def fieldsText (d : Nat) (xs : List (PlainText × Value)) : Str :=
  xs.flatMap fun x => fieldText f d x ++ ',' :: lineBreak f

variable (d : Nat)

theorem members_text (x : PlainText × Value) (xs : List (PlainText × Value)) :
    ∃ text, fieldsText f (d + 1) (x :: xs) = text ++ ',' :: lineBreak f ∧
      (members f d x xs).text = lineBreak f ++ (text ++ (lineBreak f ++ indentation f d)) := by
  induction xs generalizing x with
  | nil =>
    obtain ⟨id, v⟩ := x
    refine ⟨fieldText f (d + 1) (id, v), by simp [fieldsText], ?_⟩
    simp [members, Members.text, lineWs, fieldText, stringText_strChars]
  | cons y ys ih =>
    obtain ⟨id, v⟩ := x
    obtain ⟨text, hfie, htext⟩ := ih y
    refine ⟨fieldText f (d + 1) (id, v) ++ ',' :: (lineBreak f ++ text), ?_, ?_⟩
    · rw [fieldsText, flatMap_cons, ← fieldsText, hfie]
      simp
    · rw [members, Members.text, htext]
      simp [lineWs, fieldText, stringText_strChars]

variable (vs : List Value)

theorem items_text (v : Value) : (items v vs).text = v.text ++ vs.flatMap fun v =>
    ',' :: v.text := by
  induction vs generalizing v with
  | nil => simp [items, Items.text]
  | cons w ws ih => simp [items, Items.text, ih]

theorem arrayValue_text :
    (arrayValue vs).text = '[' ::
      (vs.head?.elim [] Value.text ++ (vs.tail.flatMap fun v => ',' :: v.text) ++ [']']) := by
  cases vs with
  | nil => rfl
  | cons v vs => simp [arrayValue, Value.text, items_text]

/-! ## The run -/

theorem eraseLastComma_append {b : Str} (h : ',' ∉ b) (a : Str) :
    eraseLastComma (a ++ ',' :: b) = some (a ++ b) := by
  have hnone : eraseLastComma b = none := by
    induction b with
    | nil => rfl
    | cons c b ih =>
      rw [mem_cons, not_or] at h
      rw [eraseLastComma, ih h.2]
      exact if_neg (Ne.symm h.1)
  induction a with
  | nil => simp [eraseLastComma, hnone]
  | cons c a ih => rw [cons_append, eraseLastComma, ih]; rfl

namespace JsonSerializer

variable (a : Str) (s : JsonSerializer)

@[simp] theorem write_write (b : Str) : (s.write a).write b = s.write (a ++ b) := by
  simp [write]

@[simp] theorem write_nil : s.write [] = s := by simp [write]

@[simp] theorem write_depth : (s.write a).depth = s.depth := rfl

@[simp] theorem write_isArray : (s.write a).isArray = s.isArray := rfl

theorem newline_eq : s.newline f = s.write (lineBreak f) := by
  unfold newline lineBreak
  split <;> simp

@[simp] theorem beginObject_depth : (s.beginObject f).depth = s.depth + 1 := by
  simp [beginObject, newline_eq]

@[simp] theorem beginObject_isArray : (s.beginObject f).isArray = s.isArray := by
  simp [beginObject, newline_eq]

variable (id : PlainText)

theorem writeId_eq :
    s.writeId f id = s.write (indentation f s.depth ++ (quoted id.chars ++ [':', ' '])) := by
  simp [writeId, indent, indentation, quoted]

theorem onPlain_eq (v : Value) :
    s.onPlain f id v.text = s.write (fieldText f s.depth (id, v) ++ ',' :: lineBreak f) := by
  simp [onPlain, newline_eq, writeId_eq, fieldText]

theorem join_eq : s.join (vs.map Value.text) =
      s.write (vs.head?.elim [] Value.text ++ vs.tail.flatMap fun v => ',' :: v.text) := by
  have hfold (vs : List Value) (s : JsonSerializer) :
      (vs.map Value.text).foldl (fun s text => (s.write [',']).write text) s =
        s.write (vs.flatMap fun v => ',' :: v.text) := by
    induction vs generalizing s with
    | nil => simp
    | cons v vs ih =>
      rw [map_cons, foldl_cons, ih]
      simp
  cases vs with
  | nil => simp [join]
  | cons v vs =>
    rw [map_cons, join, hfold]
    simp

theorem written_cons (a : Attribute) (fields : List (PlainText × Attribute)) :
    written f d ((id, a) :: fields) = written f d [(id, a)] ++ written f d fields := by
  rw [written, written]
  split <;> rfl

theorem fieldsText_append (xs ys : List (PlainText × Value)) :
    fieldsText f d (xs ++ ys) = fieldsText f d xs ++ fieldsText f d ys := flatMap_append

theorem written_ne_nil {d : Nat} {fields : List (PlainText × Attribute)}
    (h : fields.any (·.2.writes)) : ∃ x xs, written f d fields = x :: xs := by
  induction fields with
  | nil => cases h
  | cons field fields ih =>
    obtain ⟨id, a⟩ := field
    rw [written]
    cases ha : a.writes with
    | true => exact ⟨_, _, if_pos rfl⟩
    | false =>
      rw [any_cons, ha] at h
      exact ih h

theorem not_comma_mem_lineBreak : ',' ∉ lineBreak f := by
  unfold lineBreak
  split <;> decide

/-- An object is written if its fields are, and if there is one: the comma behind it goes. -/
theorem appendWith_eq {body : JsonSerializer → Option JsonSerializer} {s : JsonSerializer}
    {xs : List (PlainText × Value)} (hxs : ∃ y ys, xs = y :: ys)
    (hbody : body (s.beginObject f) =
      some ((s.beginObject f).write (fieldsText f (s.depth + 1) xs))) :
    appendWith f body s =
      some (s.write ((objectValue f s.depth xs).text ++
        if 0 < s.depth ∧ s.isArray = false then [','] else [])) := by
  obtain ⟨y, ys, rfl⟩ := hxs
  obtain ⟨text, hfie, htext⟩ := members_text f s.depth y ys
  have hjson : ((s.beginObject f).write (fieldsText f (s.depth + 1) (y :: ys))).json =
      (s.json ++ '{' :: (lineBreak f ++ text)) ++ ',' :: lineBreak f := by
    simp [beginObject, newline_eq, write, hfie]
  rw [appendWith, hbody, Option.bind_some, hjson, eraseLastComma_append (not_comma_mem_lineBreak f),
    objectValue, Value.text, htext]
  simp only [endObject, beginObject_depth, beginObject_isArray, indent, write, Nat.add_sub_cancel]
  split <;> simp [indentation]

theorem onAttribute_of_isPlain {a : Attribute} (h : a.isPlain) (id : PlainText)
    (s : JsonSerializer) :
    onAttribute f a id s = some (s.write (fieldsText f s.depth (written f s.depth [(id, a)]))) := by
  have hpln (v : Value) :
      some (s.onPlain f id v.text) = some (s.write (fieldsText f s.depth [(id, v)])) := by
    rw [onPlain_eq]
    simp [fieldsText]
  cases a with
  | number n =>
    rw [onAttribute, ← text_number]
    exact hpln (.number n.number)
  | boolean b =>
    cases b with
    | true => exact hpln (.boolean true)
    | false => exact hpln (.boolean false)
  | string str =>
    cases hemp : str.chars.isEmpty with
    | true => simp [onAttribute, written, Attribute.writes, hemp, fieldsText]
    | false =>
      rw [onAttribute, ← stringText_strChars]
      simp only [written, Attribute.writes, hemp]
      exact hpln (.string str.strChars)
  | primaryKey str =>
    rw [onAttribute, ← stringText_strChars]
    exact hpln (.string str.strChars)
  | object _ | numbers _ | strings _ | objects _ => cases h

theorem process_of_isPlain {fields : List (PlainText × Attribute)} (h : fields.all (·.2.isPlain))
    (s : JsonSerializer) :
    process f fields s = some (s.write (fieldsText f s.depth (written f s.depth fields))) := by
  induction fields generalizing s with
  | nil => simp [process, written, fieldsText]
  | cons field fields ih =>
    obtain ⟨id, a⟩ := field
    rw [all_cons, Bool.and_eq_true] at h
    rw [process, onAttribute_of_isPlain f h.1, Option.bind_some, ih h.2,
      written_cons f _ id a fields, fieldsText_append]
    simp

theorem joinObjects_of_isPlain {os : List (List (PlainText × Attribute))}
    (h : os.all (fun o => o.any (·.2.writes) && o.all (·.2.isPlain))) {s : JsonSerializer}
    (harr : s.isArray) :
    joinObjects f false os s =
      some (s.write ((elements f s.depth os).flatMap fun v => ',' :: v.text)) ∧
      joinObjects f true os s = some (s.write ((elements f s.depth os).head?.elim [] Value.text ++
        (elements f s.depth os).tail.flatMap fun v => ',' :: v.text)) := by
  induction os generalizing s with
  | nil => simp [joinObjects, elements]
  | cons o os ih =>
    rw [all_cons, Bool.and_eq_true, Bool.and_eq_true] at h
    have hobj (s : JsonSerializer) (hs : s.isArray) :
        appendWith f (process f o) s =
          some (s.write (objectValue f s.depth (written f (s.depth + 1) o)).text) := by
      have hbody := process_of_isPlain f h.1.2 (s.beginObject f)
      rw [beginObject_depth] at hbody
      rw [appendWith_eq f (written_ne_nil f h.1.1) hbody, hs]
      simp
    constructor
    · rw [joinObjects, if_neg (by decide), hobj (s.write _) harr, Option.bind_some,
        (ih h.2 (s := (s.write _).write _) harr).1, elements]
      simp
    · rw [joinObjects, if_pos rfl, hobj s harr, Option.bind_some,
        (ih h.2 (s := s.write _) harr).1, elements]
      simp

theorem onContainer_eq {items : JsonSerializer → Option JsonSerializer} {vs : List Value}
    {s : JsonSerializer} (hdep : 0 < s.depth) (harr : s.isArray = false)
    (hitm : ∀ t : JsonSerializer, t.depth = s.depth → t.isArray →
      items t = some
      (t.write (vs.head?.elim [] Value.text ++ vs.tail.flatMap fun v => ',' :: v.text))) :
    s.onContainer f id items = some (s.write (fieldsText f s.depth [(id, arrayValue vs)])) := by
  rw [onContainer, hitm _ (by simp [beginArray, writeId_eq]) rfl]
  simp only [Option.map_some, endArray, newline_eq, beginArray, writeId_eq, write, hdep,
    fieldsText, fieldText]
  rw [harr]
  simp [arrayValue_text]

mutual

theorem onAttribute_of_closes (a : Attribute) (h : a.closes) (id : PlainText) {s : JsonSerializer}
    (hdep : 0 < s.depth) (harr : s.isArray = false) :
    onAttribute f a id s = some (s.write (fieldsText f s.depth (written f s.depth [(id, a)]))) := by
  match a with
  | .number _ | .boolean _ | .string _ | .primaryKey _ => exact onAttribute_of_isPlain f rfl id s
  | .object fields =>
    rw [Attribute.closes, Bool.and_eq_true] at h
    have hid : (s.writeId f id).depth = s.depth ∧ (s.writeId f id).isArray = false := by
      simp [writeId_eq, harr]
    have hbody :=
      process_of_closes fields h.2 (s := (s.writeId f id).beginObject f) (by simp) (by simp [hid.2])
    rw [beginObject_depth] at hbody
    rw [onAttribute, appendWith_eq f (written_ne_nil f h.1) hbody, hid.1, hid.2, if_pos ⟨hdep, rfl⟩,
      Option.map_some, newline_eq, writeId_eq]
    simp [fieldsText, fieldText, written, Attribute.writes, Attribute.value]
  | .numbers ns =>
    have htex : ns.map Numeral.text = (ns.map fun n => Value.number n.number).map Value.text := by
      simp [Value.text, text_number]
    rw [onAttribute, htex]
    exact onContainer_eq f id hdep harr fun t _ _ => congrArg some (join_eq _ t)
  | .strings ss =>
    have htex : ss.map (fun str => quoted str.chars) =
        (ss.map fun str => Value.string str.strChars).map Value.text := by
      simp [Value.text, stringText_strChars]
    rw [onAttribute, htex]
    exact onContainer_eq f id hdep harr fun t _ _ => congrArg some (join_eq _ t)
  | .objects os =>
    refine onContainer_eq f id hdep harr fun t ht hta => ?_
    rw [(joinObjects_of_isPlain f h hta).2, ht]

theorem process_of_closes (fields : List (PlainText × Attribute)) (h : Attribute.allClose fields)
    {s : JsonSerializer} (hdep : 0 < s.depth) (harr : s.isArray = false) :
    process f fields s = some (s.write (fieldsText f s.depth (written f s.depth fields))) := by
  match fields with
  | [] => simp [process, written, fieldsText]
  | (id, a) :: fields =>
    rw [Attribute.allClose, Bool.and_eq_true] at h
    rw [process, onAttribute_of_closes a h.1 id hdep harr, Option.bind_some,
      process_of_closes fields h.2 (s := s.write _) hdep harr, written_cons f _ id a fields,
      fieldsText_append]
    simp

end

/-- **The text of an object that closes is that of its tree**, and the serializer can be used
again. -/
theorem toJson_eq_text {o : List (PlainText × Attribute)} (h : (Attribute.object o).closes)
    {s : JsonSerializer} (hdep : s.depth = 0) (harr : s.isArray = false) :
    toJson f o s = some ⟨(document f o).text, 0, false⟩ := by
  rw [Attribute.closes, Bool.and_eq_true] at h
  have hbody :=
    process_of_closes f o h.2 (s := ({ s with json := [] } : JsonSerializer).beginObject f)
      (by simp)
    (by simp [harr])
  rw [beginObject_depth] at hbody
  rw [toJson, appendObject, appendWith_eq f (written_ne_nil f h.1) hbody,
    Option.map_some, newline_eq]
  simp [write, hdep, harr, Document.text, document, lineWs, indentation]

end JsonSerializer

end Tree

end Matador.Json
