import Matador.Json.Misclosed

/-!
# Reading what the serializer has written

The text of an object is a tree of the grammar if the object closes. The parser accepts it if its
numbers are in the range of `long long`, and none is one that it takes for a failed conversion while
`errno` is `ERANGE`.
-/

namespace Matador.Json

open List Rfc

/-! ## Numbers -/

/-- In the range of `long long`, a real in front of its point. -/
def Numeral.fits : Numeral → Prop
  | .integer i => llongMin ≤ i ∧ i ≤ llongMax
  | .real minus int _ => llongMin ≤ (if minus then -(int : Int) else int) ∧
      (if minus then -(int : Int) else int) ≤ llongMax

theorem fits_number (n : Numeral) : n.number.fits ↔ n.fits := by
  have hdig (n : Nat) : Nat.ofDigitChars 10 (natDigits n).chars 0 = n :=
    Nat.ofDigitChars_toDigits (by omega) (by omega)
  cases n with
  | integer i =>
    cases i with
    | ofNat n => simp [Numeral.number, Number.fits, Number.intValue, Numeral.fits, hdig]
    | negSucc n =>
      simp only [Numeral.number, Number.fits, Number.intValue, hdig]
      rfl
  | real minus int frac =>
      simp only [Numeral.number, Number.fits, Number.intValue, Numeral.fits, hdig]

mutual

def Attribute.numerals : Attribute → List Numeral
  | .number n => [n]
  | .numbers ns => ns
  | .object fields => fieldNumerals fields
  | .objects os => elementNumerals os
  | _ => []

def fieldNumerals : List (PlainText × Attribute) → List Numeral
  | [] => []
  | (_, a) :: fields => a.numerals ++ fieldNumerals fields

def elementNumerals : List (List (PlainText × Attribute)) → List Numeral
  | [] => []
  | o :: os => fieldNumerals o ++ elementNumerals os

end

/-- The numbers of a tree are `ns`, and behind each stands a character that may follow one. -/
structure Prints (numbers : List (Number × Char)) (ns : List Numeral) : Prop where
  nums : numbers.map Prod.fst = ns.map Numeral.number
  ends : ∀ p ∈ numbers, endsNumber p.2 = true

theorem Prints.nil : Prints [] [] := ⟨rfl, nofun⟩

theorem Prints.append {a b : List (Number × Char)} {ns ms : List Numeral} (ha : Prints a ns)
    (hb : Prints b ms) : Prints (a ++ b) (ns ++ ms) :=
  ⟨by rw [map_append, map_append, ha.nums, hb.nums], forall_mem_append.mpr ⟨ha.ends, hb.ends⟩⟩

/-- This is so for a value, if such a character stands behind it. -/
def Rfc.Value.Has (v : Value) (ns : List Numeral) : Prop :=
  ∀ c, endsNumber c = true → Prints (v.numbers c) ns

theorem has_number (n : Numeral) : (Value.number n.number).Has [n] :=
  fun _ hc => ⟨rfl, forall_mem_singleton.mpr hc⟩

variable {nss : List (List Numeral)}

theorem has_arrayValue {vs : List Value} (h : Forall₂ Value.Has vs nss) :
    (arrayValue vs).Has nss.flatten := by
  have hitm {v : Value} {vs : List Value} {ns : List Numeral} {nss : List (List Numeral)}
    (hv : v.Has ns)
      (h : Forall₂ Value.Has vs nss) : Prints (items v vs).numbers (ns ++ nss.flatten) := by
    induction h generalizing v ns with
    | nil =>
      rw [flatten_nil, append_nil]
      exact hv _ rfl
    | cons hw _ ih => exact (hv _ rfl).append (ih hw)
  cases h with
  | nil => exact fun _ _ => .nil
  | cons hv hvs => exact fun _ _ => hitm hv hvs

section Tree

variable (f : JsonFormat)

theorem endsNumber_line (d : Nat) {rest : Str} (hrest : endsNumber (current rest)) :
    endsNumber (current ((lineWs f d).chars ++ rest)) := by
  cases hws : (lineWs f d).chars with
  | nil => exact hrest
  | cons c cs =>
    have hc : c ∈ lineBreak f ++ indentation f d := by
      show c ∈ (lineWs f d).chars
      simp [hws]
    rcases mem_append.mp hc with hc | hc
    · unfold lineBreak at hc
      split at hc
      · rw [mem_singleton.mp hc]
        rfl
      · cases hc
    · rw [eq_of_mem_replicate hc]
      rfl

theorem has_objectValue {d : Nat} {xs : List (PlainText × Value)}
    (h : Forall₂ (fun x ns => x.2.Has ns) xs nss) : (objectValue f d xs).Has nss.flatten := by
  have hmbs {x : PlainText × Value} {xs : List (PlainText × Value)} {ns : List Numeral}
      {nss : List (List Numeral)} (hx : x.2.Has ns) (h : Forall₂ (fun x ns => x.2.Has ns) xs nss) :
        Prints (members f d x xs).numbers (ns ++ nss.flatten) := by
    induction h generalizing x ns with
    | nil =>
      rw [flatten_nil, append_nil]
      exact hx _ (endsNumber_line f d rfl)
    | cons hy _ ih => exact (hx _ rfl).append (ih hy)
  cases h with
  | nil => exact fun _ _ => .nil
  | cons hx hxs => exact fun _ _ => hmbs hx hxs

theorem numerals_of_not_writes {a : Attribute} (h : a.writes = false) : a.numerals = [] := by
  cases a with
  | string s => rfl
  | number _ | boolean _ | primaryKey _ | object _ | numbers _ | strings _ | objects _ => cases h

mutual

theorem has_value (d : Nat) (a : Attribute) : (a.value f d).Has a.numerals := by
  match a with
  | .number n => exact has_number n
  | .object fields =>
    obtain ⟨nss, hfie, hnss⟩ := has_written (d + 1) fields
    rw [Attribute.value, Attribute.numerals, ← hnss]
    exact has_objectValue f hfie
  | .numbers ns =>
    have hitm : Forall₂ Value.Has (ns.map fun n => .number n.number) (ns.map ([·])) := by
      rw [forall₂_map_left_iff, forall₂_map_right_iff, forall₂_same]
      exact fun n _ => has_number n
    have harr := has_arrayValue hitm
    rwa [← flatMap_def, flatMap_singleton'] at harr
  | .strings ss =>
    have hitm : Forall₂ Value.Has (ss.map fun s => .string s.strChars) (ss.map fun _ => []) := by
      rw [forall₂_map_left_iff, forall₂_map_right_iff, forall₂_same]
      exact fun _ _ _ _ => .nil
    have hflat : (ss.map fun _ => ([] : List Numeral)).flatten = [] := by simp
    show (arrayValue _).Has []
    rw [← hflat]
    exact has_arrayValue hitm
  | .objects os =>
    obtain ⟨nss, hos, hnss⟩ := has_elements d os
    rw [Attribute.value, Attribute.numerals, ← hnss]
    exact has_arrayValue hos
  | .boolean _ | .string _ | .primaryKey _ => exact fun _ _ => .nil

theorem has_written (d : Nat) (fields : List (PlainText × Attribute)) :
    ∃ nss, Forall₂ (fun x ns => x.2.Has ns) (written f d fields) nss ∧
    nss.flatten = fieldNumerals fields := by
  match fields with
  | [] => exact ⟨[], .nil, rfl⟩
  | (id, a) :: fields =>
    obtain ⟨nss, hfie, hnss⟩ := has_written d fields
    rw [written, fieldNumerals, ← hnss]
    split
    · exact ⟨a.numerals :: nss, .cons (has_value d a) hfie, rfl⟩
    · next hwrs =>
        exact ⟨nss, hfie, by rw [numerals_of_not_writes (Bool.eq_false_iff.mpr hwrs), nil_append]⟩

theorem has_elements (d : Nat) (os : List (List (PlainText × Attribute))) :
    ∃ nss, Forall₂ Value.Has (elements f d os) nss ∧ nss.flatten = elementNumerals os := by
  match os with
  | [] => exact ⟨[], .nil, rfl⟩
  | o :: os =>
    obtain ⟨nss, ho, hnss⟩ := has_written (d + 1) o
    obtain ⟨nss', hos, hnss'⟩ := has_elements d os
    exact ⟨nss.flatten :: nss', .cons (has_objectValue f ho) hos,
      by rw [flatten_cons, hnss, hnss', elementNumerals]⟩

end

/-- A number that the parser takes for a failed conversion while `errno` is `ERANGE`. -/
def Numeral.extreme (strtod : Strtod) (n : Numeral) : Bool := n.number.extreme strtod

structure InRange (strtod : Strtod) (erange : Bool) (o : List (PlainText × Attribute)) : Prop where
  fits : ∀ n ∈ fieldNumerals o, n.fits
  errno : erange = true → ∀ n ∈ fieldNumerals o, n.extreme strtod = false

theorem accepts_document_iff (strtod : Strtod) (erange : Bool) (p : JsonParser)
    {o : List (PlainText × Attribute)}
    (hstr : ∀ n ∈ fieldNumerals o, strtod.outOfRange n.text = false) :
    (∃ j, p.parse strtod erange (document f o).text = .ok j) ↔ InRange strtod erange o := by
  obtain ⟨hnums, hends⟩ : Prints (document f o).numbers (fieldNumerals o) := by
    obtain ⟨nss, hfie, hnss⟩ := has_written f 1 o
    rw [← hnss]
    refine has_objectValue f hfie _ ?_
    rw [← append_nil (document f o).behind.chars]
    exact endsNumber_line f 0 rfl
  have hmem : ∀ q ∈ (document f o).numbers, ∃ n ∈ fieldNumerals o, q.1 = n.number := by
    intro q hq
    have hq' : q.1 ∈ (fieldNumerals o).map Numeral.number := by
      rw [← hnums]
      exact mem_map_of_mem hq
    obtain ⟨n, hn, hnq⟩ := mem_map.mp hq'
    exact ⟨n, hn, hnq.symm⟩
  have hmem' : ∀ n ∈ fieldNumerals o, ∃ q ∈ (document f o).numbers, q.1 = n.number := by
    intro n hn
    have hn' : n.number ∈ (document f o).numbers.map Prod.fst := by
      rw [hnums]
      exact mem_map_of_mem hn
    exact mem_map.mp hn'
  have hera : ∀ q ∈ (document f o).numbers, strtod.outOfRange q.1.text = false := by
    intro q hq
    obtain ⟨n, hn, hnq⟩ := hmem q hq
    rw [hnq, text_number]
    exact hstr n hn
  have hrng : ∀ q ∈ (document f o).numbers, q.1.frac.isSome → q.1.inRange strtod := by
    rintro q hq - ⟨hout, -⟩
    rw [hera q hq] at hout
    cases hout
  rw [accepts_iff_readable strtod erange p _ hrng]
  constructor
  · rintro ⟨hext, hrea⟩
    refine ⟨fun n hn => ?_, fun he n hn => ?_⟩
    · obtain ⟨q, hq, hqn⟩ := hmem' n hn
      rw [← fits_number, ← hqn]
      exact hrea.fits q hq
    · obtain ⟨q, hq, hqn⟩ := hmem' n hn
      rw [Numeral.extreme, ← hqn]
      exact hext he q hq
  · intro h
    refine ⟨fun he q hq => ?_, hends, fun q hq hexp => ?_, fun q hq => ?_, ?_⟩
    · obtain ⟨n, hn, hnq⟩ := hmem q hq
      rw [hnq]
      exact h.errno he n hn
    · obtain ⟨n, -, hnq⟩ := hmem q hq
      rw [hnq] at hexp
      rcases n with (_ | _) | _ <;> cases hexp
    · obtain ⟨n, hn, hnq⟩ := hmem q hq
      rw [hnq, fits_number]
      exact h.fits n hn
    · refine List.Pairwise.imp_of_mem (fun {q r} hq _ _ hsets => ?_)
        (pairwise_of_forall fun _ _ => trivial)
      rw [Number.setsErange, hera q hq, Bool.and_false] at hsets
      cases hsets

/-- The serializer writes a JSON text, and the parser accepts it. -/
def Accepted (strtod : Strtod) (erange : Bool) (p : JsonParser) (s : JsonSerializer)
    (o : List (PlainText × Attribute)) : Prop :=
  ∃ s', s.toJson f o = some s' ∧ IsText s'.json ∧ ∃ j, p.parse strtod erange s'.json = .ok j

/-- **The text of an object is a JSON text that the parser accepts, if the object closes and its
numbers are in range**, and only then if no name and no string has a comma. The reals come from
`double`, so `strtod` sets no range error. -/
theorem toJson_accepted_iff (strtod : Strtod) (erange : Bool) (p : JsonParser) (s : JsonSerializer)
    (hdepth : s.depth = 0) (harray : s.isArray = false) (o : List (PlainText × Attribute))
    (hstrtod : ∀ n ∈ fieldNumerals o, strtod.outOfRange n.text = false) :
    ((Attribute.object o).closes = true ∧ InRange strtod erange o →
      Accepted f strtod erange p s o) ∧ (fieldsCommaFree o → Accepted f strtod erange p s o →
        (Attribute.object o).closes = true ∧ InRange strtod erange o) := by
  have hacc := accepts_document_iff f strtod erange p hstrtod
  constructor
  · rintro ⟨hclo, hnum⟩
    exact ⟨_, JsonSerializer.toJson_eq_text f hclo hdepth harray, ⟨_, rfl⟩, hacc.mpr hnum⟩
  · rintro hfree ⟨s', hs, htext, hpar⟩
    cases hclo : (Attribute.object o).closes with
    | false => exact absurd htext (JsonSerializer.not_isText_of_toJson f hfree hclo harray hs)
    | true =>
      rw [JsonSerializer.toJson_eq_text f hclo hdepth harray] at hs
      cases hs
      exact ⟨rfl, hacc.mp hpar⟩

end Tree

def plainText (cs : Str) (h : cs.all (fun c => decide (' ' ≤ c) && c != '"' && c != '\\') = true) :
    PlainText where
  chars := cs
  plain := by
    intro c hc
    have hplain := all_eq_true.mp h c hc
    simp only [Bool.and_eq_true, decide_eq_true_eq, bne_iff_ne] at hplain
    exact ⟨hplain.1.1, hplain.1.2, hplain.2⟩

/-- The object `{"n": 1, "v": [{"b": true}, {"b": false}]}`. -/
def elementsObject : List (PlainText × Attribute) :=
  [(plainText ['n'] rfl, .number (.integer 1)),
    (plainText ['v'] rfl,
      .objects [[(plainText ['b'] rfl, .boolean true)], [(plainText ['b'] rfl, .boolean false)]])]

/-- Its text in both formats. -/
theorem toJson_elementsObject :
    Accepted .compact inRange false freshParser {} elementsObject ∧
    Accepted .pretty inRange false freshParser {} elementsObject ∧
      (JsonSerializer.toJson .compact elementsObject {}).map (·.json) =
        some "\x7b\"n\": 1,\"v\": [\x7b\"b\": true\x7d,\x7b\"b\": false\x7d]\x7d".toList := by
  have hrng : InRange inRange false elementsObject := by
    refine ⟨fun n hn => ?_, nofun⟩
    rw [show fieldNumerals elementsObject = [.integer 1] from rfl] at hn
    rw [mem_singleton.mp hn]
    show llongMin ≤ 1 ∧ 1 ≤ llongMax
    decide
  have hacc (f : JsonFormat) : Accepted f inRange false freshParser {} elementsObject :=
    (toJson_accepted_iff f inRange false freshParser {} rfl rfl elementsObject
      fun _ _ => rfl).1 ⟨rfl, hrng⟩
  exact ⟨hacc .compact, hacc .pretty, by decide⟩

/-- The object `{"n": 1, "o": {}}` loses the comma behind its first field, for `{"o": {}}` `erase`
throws, an element with a vector leaves a comma in front of the bracket, and the parser rejects an
`unsigned long long` above `LLONG_MAX`. -/
theorem toJson_not_accepted :
    ((JsonSerializer.toJson .compact [(plainText ['n'] rfl, .number (.integer 1)),
      (plainText ['o'] rfl, .object [])] {}).map
        (·.json) = some "\x7b\"n\": 1\"o\": \x7b\x7d\x7d".toList ∧
      ¬ IsText "\x7b\"n\": 1\"o\": \x7b\x7d\x7d".toList) ∧
    (JsonSerializer.toJson .compact [(plainText ['o'] rfl, .object [])] {}).isNone = true ∧
    ((JsonSerializer.toJson .compact
      [(plainText ['v'] rfl, .objects [[(plainText ['w'] rfl, .numbers [])]])] {}).map
        (·.json) = some "\x7b\"v\": [\x7b\"w\": []\x7d,]\x7d".toList ∧
      ¬ IsText "\x7b\"v\": [\x7b\"w\": []\x7d,]\x7d".toList) ∧
    (JsonSerializer.toJson .compact [(plainText ['n'] rfl, .number (.integer (2 ^ 63)))] {}).map
      (·.json) = some "\x7b\"n\": 9223372036854775808\x7d".toList ∧
      ¬ ∃ j, freshParser.parse inRange false "\x7b\"n\": 9223372036854775808\x7d".toList =
        .ok j := by
  have hnot {text : Str} (h : Spot.meets Spot.juxtaposes .opening text ∨
    Spot.meets Spot.trails .opening text) : ¬ IsText text := by
    intro htext
    have hrds := reads_of_isText htext
    rw [hrds.juxtaposes, hrds.trails] at h
    rcases h with h | h <;> cases h
  have hrej : ¬ ∃ j, freshParser.parse inRange false "\x7b\"n\": 9223372036854775808\x7d".toList =
      .ok j := by
    have htext : (document .compact [(plainText ['n'] rfl, .number (.integer (2 ^ 63)))]).text =
        "\x7b\"n\": 9223372036854775808\x7d".toList := by decide
    rw [← htext, accepts_document_iff .compact inRange false freshParser fun _ _ => rfl]
    intro h
    have hfits : llongMin ≤ 2 ^ 63 ∧ (2 ^ 63 : Int) ≤ llongMax :=
      h.fits (.integer (2 ^ 63)) (mem_singleton_self _)
    exact absurd hfits.2 (by decide)
  exact ⟨⟨by decide, hnot (.inl (by decide))⟩,
    by decide, ⟨by decide, hnot (.inr (by decide))⟩, by decide, hrej⟩

end Matador.Json
