import Mathlib

/-!
# Regular expressions

Regular expressions with captures, as ECMAScript defines them. What an expression makes of a text at
a position is the list of its outcomes, the one that is tried first in front; a match of a whole
text is the first outcome that reaches the end.

* groups are numbered by their opening brackets; `off` is the number of groups in front of an
  expression
* an expression that is repeated forgets its captures at the begin of each round, and a round that
  is not needed has to read something
* `first` continues with the first outcome from which the rest of the match succeeds; its equations
  follow the expression
-/

namespace Matador.Lib

open List

/-- A position in a text: what is in front of it, from its end, and what is behind it. -/
structure Position where
  before : List Char
  rest : List Char
  deriving DecidableEq

variable {n : Nat} {p : Position} {rest : List Char}

namespace Position

/-- `n` characters further. -/
def advance (p : Position) (n : Nat) : Position :=
  ⟨(p.rest.take n).reverse ++ p.before, p.rest.drop n⟩

def upTo (p q : Position) : List Char := p.rest.take (p.rest.length - q.rest.length)

@[simp] theorem rest_advance (p : Position) (n : Nat) : (p.advance n).rest = p.rest.drop n := rfl

@[simp] theorem advance_zero (p : Position) : p.advance 0 = p := by simp [advance]

theorem advance_advance (p : Position) (m n : Nat) :
    (p.advance m).advance n = p.advance (m + n) := by
  simp [advance, take_add]

theorem upTo_advance (h : n ≤ p.rest.length) : p.upTo (p.advance n) = p.rest.take n := by
  rw [upTo, rest_advance, length_drop, Nat.sub_sub_self h]

theorem upTo_word (w : List Char) {b b' : List Char} : upTo ⟨b, w ++ rest⟩ ⟨b', rest⟩ = w := by
  simp [upTo]

@[simp] theorem upTo_end (p : Position) (b : List Char) : p.upTo ⟨b, []⟩ = p.rest := by
  simp [upTo]

end Position

/-- The captured text of each group. -/
abbrev Captures := Nat → Option (List Char)

namespace Captures

/-- Forgets `count` groups behind the first `off`. -/
def reset (c : Captures) (off count : Nat) : Captures :=
  fun n => if off < n ∧ n ≤ off + count then none else c n

def set (c : Captures) (n : Nat) (text : List Char) : Captures := Function.update c n (some text)

def str (c : Captures) (n : Nat) : List Char := (c n).getD []

@[simp] theorem reset_zero (c : Captures) (off : Nat) : c.reset off 0 = c := by
  funext n
  exact if_neg (by omega)

@[simp] theorem set_self (c : Captures) (n : Nat) (text : List Char) :
    c.set n text n = some text := by simp [set]

theorem set_of_ne (c : Captures) {m : Nat} (text : List Char) (h : m ≠ n) :
    c.set n text m = c m := by
  simp [set, h]

end Captures

inductive Regex
  | empty
  /-- One character of a class, with the text of the class. -/
  | chars (text : List Char) (mem : Char → Bool)
  | seq (r s : Regex)
  | alt (r s : Regex)
  | rep (min : Nat) (max : Option Nat) (greedy : Bool) (r : Regex)
  | group (r : Regex)
  | look (negative : Bool) (r : Regex)
  | backref (n : Nat)
  /-- A condition on what is in front of the position and behind it, as for `^`, `$` and `\b`. -/
  | assertion (text : List Char) (holds : List Char → List Char → Bool)

namespace Regex

/-- Where a match gets to, and what it has captured. -/
abbrev Outcome := Position × Captures

abbrev star (r : Regex) : Regex := rep 0 none true r

abbrev plus (r : Regex) : Regex := rep 1 none true r

abbrev optional (r : Regex) : Regex := rep 0 (some 1) true r

abbrev char (x : Char) : Regex := chars [x] (· = x)

abbrev escaped (x : Char) : Regex := chars ['\\', x] (· = x)

/-- The class `\w`. -/
def isWord (x : Char) : Bool := x.isAlphanum || x = '_'

/-- The class `.`: everything but the ends of lines. -/
def notLineEnd (x : Char) : Bool := x ≠ '\n' && x ≠ '\r'

def seqs : List Regex → Regex
  | [] => empty
  | [r] => r
  | r :: rs => seq r (seqs rs)

/-! ## Outcomes -/

def count : Regex → Nat
  | empty => 0
  | chars _ _ => 0
  | seq r s => r.count + s.count
  | alt r s => r.count + s.count
  | rep _ _ _ r => r.count
  | group r => r.count + 1
  | look _ r => r.count
  | backref _ => 0
  | assertion _ _ => 0

/-- Rounds of a repetition. Each uses up one of `min` or a character, which bounds their number. -/
def rounds (step : Position → Captures → List Outcome) (greedy : Bool) :
    Nat → Nat → Option Nat → Position → Captures → List Outcome
  | 0, _, _, p, c => [(p, c)]
  | n + 1, min, max, p, c =>
    if max = some 0 then [(p, c)]
    else
      let more :=
        ((step p c).filter fun m => min ≠ 0 || m.1.rest.length < p.rest.length).flatMap fun m =>
          rounds step greedy n (min - 1) (max.map (· - 1)) m.1 m.2
      if min ≠ 0 then more else if greedy then more ++ [(p, c)] else (p, c) :: more

/-- The outcomes at a position, in the order in which they are tried. -/
def outcomes : Regex → Nat → Position → Captures → List Outcome
  | empty, _, p, c => [(p, c)]
  | chars _ mem, _, p, c =>
    match p.rest with
    | [] => []
    | x :: _ => if mem x then [(p.advance 1, c)] else []
  | seq r s, off, p, c => (r.outcomes off p c).flatMap fun m => s.outcomes (off + r.count) m.1 m.2
  | alt r s, off, p, c => r.outcomes off p c ++ s.outcomes (off + r.count) p c
  | rep min max greedy r, off, p, c =>
    rounds (fun p c => r.outcomes off p (c.reset off r.count)) greedy
      (min + p.rest.length) min max p c
  | group r, off, p, c =>
      (r.outcomes (off + 1) p c).map fun m => (m.1, m.2.set (off + 1) (p.upTo m.1))
  | look negative r, off, p, c =>
    match negative, r.outcomes off p c with
    | false, [] => []
    | false, m :: _ => [(p, m.2)]
    | true, [] => [(p, c)]
    | true, _ :: _ => []
  | backref n, _, p, c =>
    let text := (c n).getD []
    if text.isPrefixOf p.rest then [(p.advance text.length, c)] else []
  | assertion _ holds, _, p, c => if holds p.before p.rest then [(p, c)] else []

/-- The first result of the rest of the match over the outcomes. -/
def first {β : Type} (r : Regex) (off : Nat) (p : Position) (c : Captures)
    (k : Position → Captures → Option β) : Option β :=
  (r.outcomes off p c).findSome? fun m => k m.1 m.2

def atEnd (p : Position) (c : Captures) : Option Captures := if p.rest = [] then some c else none

/-- `std::regex_match`: the captures of the first match of the whole text. -/
def regexMatch (r : Regex) (text : List Char) : Option Captures :=
  r.first 0 ⟨[], text⟩ (fun _ => none) atEnd

/-! ## What an outcome can be -/

/-- `Matches r off p c q d`: from the position `p` with the captures `c` the expression can get to
`q` and `d`, in whatever order. -/
inductive Matches : Regex → Nat → Position → Captures → Position → Captures → Prop
  | empty {off p c} : Matches empty off p c p c
  | chars {off p c text mem x rest} : p.rest = x :: rest → mem x = true →
    Matches (chars text mem) off p c (p.advance 1) c
  | seq {off p c q d o e r s} : Matches r off p c q d → Matches s (off + r.count) q d o e →
    Matches (seq r s) off p c o e
  | altLeft {off p c q d r s} : Matches r off p c q d → Matches (alt r s) off p c q d
  | altRight {off p c q d r s} : Matches s (off + r.count) p c q d → Matches (alt r s) off p c q d
  | repStop {off p c min max greedy r} : min = 0 ∨ max = some 0 →
      Matches (rep min max greedy r) off p c p c
  | repRound {off p c q d o e min max greedy r} : Matches r off p (c.reset off r.count) q d →
    Matches (rep (min - 1) (max.map (· - 1)) greedy r) off q d o e →
      Matches (rep min max greedy r) off p c o e
  | group {off p c q d r} : Matches r (off + 1) p c q d →
      Matches (group r) off p c q (d.set (off + 1) (p.upTo q))
  | look {off p c q d r} : Matches r off p c q d → Matches (look false r) off p c p d
  | lookNot {off p c r} : r.outcomes off p c = [] → Matches (look true r) off p c p c
  | backref {off p c n} : (c n).getD [] <+: p.rest →
      Matches (backref n) off p c (p.advance ((c n).getD []).length) c
  | assertion {off p c text holds} : holds p.before p.rest = true →
      Matches (assertion text holds) off p c p c

variable {r : Regex} {off : Nat}

theorem matches_of_mem_rounds {greedy : Bool}
    (ih : ∀ {p c m}, m ∈ r.outcomes off p c → Matches r off p c m.1 m.2) :
    ∀ {n min : Nat} {max : Option Nat} {p : Position} {c : Captures} {m : Outcome}, min ≤ n →
      m ∈ rounds (fun p c => r.outcomes off p (c.reset off r.count)) greedy n min max p c →
      Matches (rep min max greedy r) off p c m.1 m.2
  | 0, min, max, p, c, m, hn, h => by
    obtain rfl := mem_singleton.mp h
    exact .repStop (.inl (by omega))
  | n + 1, min, max, p, c, m, hn, h => by
    have hmore : ∀ {m}, m ∈ ((r.outcomes off p (c.reset off r.count)).filter
        fun m => min ≠ 0 || m.1.rest.length < p.rest.length).flatMap (fun m =>
          rounds (fun p c => r.outcomes off p (c.reset off r.count)) greedy n (min - 1)
            (max.map (· - 1)) m.1 m.2) →
        Matches (rep min max greedy r) off p c m.1 m.2 := by
      intro m hm
      obtain ⟨m', hm', hrest⟩ := mem_flatMap.mp hm
      exact .repRound (ih (mem_filter.mp hm').1) (matches_of_mem_rounds ih (by omega) hrest)
    rw [rounds] at h
    split_ifs at h with hmax hmin hgre
    · obtain rfl := mem_singleton.mp h
      exact .repStop (.inr hmax)
    · exact hmore h
    · obtain h | h := mem_append.mp h
      · exact hmore h
      · obtain rfl := mem_singleton.mp h
        exact .repStop (.inl (not_not.mp hmin))
    · obtain h | h := mem_cons.mp h
      · rw [h]
        exact .repStop (.inl (not_not.mp hmin))
      · exact hmore h

theorem matches_of_mem : ∀ (r : Regex) {off : Nat} {p : Position} {c : Captures} {m : Outcome},
    m ∈ r.outcomes off p c → Matches r off p c m.1 m.2 := by
  intro r
  induction r with
  | empty =>
    intro off p c m h
    obtain rfl := mem_singleton.mp h
    exact .empty
  | chars text mem =>
    intro off p c m h
    rw [outcomes] at h
    split at h
    · exact absurd h not_mem_nil
    · next x rest hrest =>
      split_ifs at h with hx
      · obtain rfl := mem_singleton.mp h
        exact .chars hrest hx
      · exact absurd h not_mem_nil
  | seq r s ihr ihs =>
    intro off p c m h
    obtain ⟨m', hm', h⟩ := mem_flatMap.mp h
    exact .seq (ihr hm') (ihs h)
  | alt r s ihr ihs =>
    intro off p c m h
    obtain h | h := mem_append.mp h
    · exact .altLeft (ihr h)
    · exact .altRight (ihs h)
  | rep min max greedy r ih =>
    intro off p c m h
    exact matches_of_mem_rounds ih (Nat.le_add_right _ _) h
  | group r ih =>
    intro off p c m h
    obtain ⟨m', hm', rfl⟩ := mem_map.mp h
    exact .group (ih hm')
  | look negative r ih =>
    intro off p c m h
    simp only [outcomes] at h
    split at h
    · exact absurd h not_mem_nil
    · next m' ms hms =>
      obtain rfl := mem_singleton.mp h
      have hm' : m' ∈ r.outcomes off p c := hms ▸ mem_cons_self
      exact .look (q := m'.1) (ih hm')
    · next hnone =>
      obtain rfl := mem_singleton.mp h
      exact .lookNot hnone
    · exact absurd h not_mem_nil
  | backref n =>
    intro off p c m h
    simp only [outcomes] at h
    split_ifs at h with hpre
    · obtain rfl := mem_singleton.mp h
      exact .backref ( isPrefixOf_iff_prefix.mp hpre)
    · exact absurd h not_mem_nil
  | assertion text holds =>
    intro off p c m h
    rw [outcomes] at h
    split_ifs at h with hhld
    · obtain rfl := mem_singleton.mp h
      exact .assertion hhld
    · exact absurd h not_mem_nil

/-- A position behind another one in the text. -/
def Behind (p q : Position) : Prop := ∃ n ≤ p.rest.length, q = p.advance n

theorem Behind.refl (p : Position) : Behind p p := ⟨0, Nat.zero_le _, p.advance_zero.symm⟩

variable {q : Position}

theorem Behind.trans {o : Position} : Behind p q → Behind q o → Behind p o := by
  rintro ⟨m, hm, rfl⟩ ⟨n, hn, rfl⟩
  rw [Position.rest_advance, length_drop] at hn
  exact ⟨m + n, by omega, Position.advance_advance p m n⟩

theorem Behind.length_le : Behind p q → q.rest.length ≤ p.rest.length := by
  rintro ⟨n, -, rfl⟩
  rw [Position.rest_advance, length_drop]
  omega

theorem Behind.upTo_trans {o : Position} :
    Behind p q → Behind q o → p.upTo o = p.upTo q ++ q.upTo o := by
  rintro ⟨m, hm, rfl⟩ ⟨n, hn, rfl⟩
  rw [Position.rest_advance, length_drop] at hn
  rw [Position.advance_advance, Position.upTo_advance hm,
    Position.upTo_advance (by omega), take_add,
    ← Position.advance_advance,
    Position.upTo_advance (by rw [Position.rest_advance, length_drop]; omega),
    Position.rest_advance]

theorem Behind.upTo_append : Behind p q → p.upTo q ++ q.rest = p.rest := by
  rintro ⟨n, hn, rfl⟩
  rw [Position.upTo_advance hn, Position.rest_advance, take_append_drop]

variable {d : Captures} {c : Captures}

theorem Matches.behind (h : Matches r off p c q d) :
    Behind p q := by
  induction h with
  | empty | look _ _ | lookNot _ | assertion _ | repStop _ => exact Behind.refl _
  | chars hrest _ => exact ⟨1, by simp [hrest], rfl⟩
  | seq _ _ ihr ihs => exact ihr.trans ihs
  | altLeft _ ih | altRight _ ih | group _ ih => exact ih
  | repRound _ _ ihr ihs => exact ihr.trans ihs
  | backref hpre => exact ⟨_, hpre.length_le, rfl⟩

/-- **An expression sets its own groups only.** -/
theorem Matches.captures_eq (h : Matches r off p c q d) (hn : n ≤ off ∨ off + r.count < n) :
    d n = c n := by
  induction h with
  | empty | chars _ _ | lookNot _ | assertion _ | repStop _ | backref _ => rfl
  | seq _ _ ihr ihs =>
    rw [count] at hn
    rw [ihs (by omega), ihr (by omega)]
  | altLeft _ ih | altRight _ ih =>
    rw [count] at hn
    exact ih (by omega)
  | repRound _ _ ihr ihs =>
    rw [count] at hn
    rw [ihs (by rw [count]; omega), ihr (by omega), Captures.reset, if_neg (by omega)]
  | group _ ih =>
    rw [count] at hn
    rw [Captures.set_of_ne _ _ (by omega), ih (by omega)]
  | look _ ih => exact ih hn

def reads : Regex → Bool
  | chars _ _ => true
  | seq r s => r.reads || s.reads
  | alt r s => r.reads && s.reads
  | rep min max _ r => min ≠ 0 && max ≠ some 0 && r.reads
  | group r => r.reads
  | _ => false

theorem Matches.length_lt (h : Matches r off p c q d) (hrds : r.reads) :
    q.rest.length < p.rest.length := by
  induction h with
  | empty | look _ _ | lookNot _ | assertion _ | backref _ => exact absurd hrds Bool.false_ne_true
  | chars hrest _ => simp [hrest]
  | seq hr hs ihr ihs =>
    have hle := hr.behind.length_le
    have hle' := hs.behind.length_le
    obtain h | h := (Bool.or_eq_true _ _).mp hrds
    · exact Nat.lt_of_le_of_lt hle' (ihr h)
    · exact Nat.lt_of_lt_of_le (ihs h) hle
  | altLeft _ ih => exact ih ((Bool.and_eq_true _ _).mp hrds).1
  | altRight _ ih => exact ih ((Bool.and_eq_true _ _).mp hrds).2
  | repStop hstop =>
    simp only [reads, Bool.and_eq_true, decide_eq_true_eq] at hrds
    exact absurd hstop (not_or.mpr hrds.1)
  | repRound _ hs ihr _ =>
      exact Nat.lt_of_le_of_lt hs.behind.length_le (ihr ((Bool.and_eq_true _ _).mp hrds).2)
  | group _ ih => exact ih hrds

/-- No class of the expression has the character `x`, and no text is read that is not of a class. -/
def avoids (x : Char) : Regex → Bool
  | empty => true
  | chars _ mem => !mem x
  | seq r s => r.avoids x && s.avoids x
  | alt r s => r.avoids x && s.avoids x
  | rep _ _ _ r => r.avoids x
  | group r => r.avoids x
  | look _ _ => true
  | backref _ => false
  | assertion _ _ => true

variable {x : Char}

theorem Matches.not_mem_upTo (h : Matches r off p c q d) (havo : r.avoids x) : x ∉ p.upTo q := by
  have hself (p : Position) : p.upTo p = [] := by simp [Position.upTo]
  induction h with
  | empty | look _ _ | lookNot _ | assertion _ | repStop _ =>
    rw [hself]
    exact not_mem_nil
  | @chars _ p _ _ mem y rest hrest hy =>
    rw [Position.upTo_advance (by simp [hrest]), hrest]
    simp only [take_succ_cons, take_zero, mem_singleton]
    rintro rfl
    simp [avoids, hy] at havo
  | seq hr hs ihr ihs =>
    obtain ⟨hr', hs'⟩ := (Bool.and_eq_true _ _).mp havo
    rw [hr.behind.upTo_trans hs.behind, mem_append, not_or]
    exact ⟨ihr hr', ihs hs'⟩
  | altLeft _ ih => exact ih ((Bool.and_eq_true _ _).mp havo).1
  | altRight _ ih => exact ih ((Bool.and_eq_true _ _).mp havo).2
  | repRound hr hs ihr ihs =>
    rw [hr.behind.upTo_trans hs.behind, mem_append, not_or]
    exact ⟨ihr havo, ihs havo⟩
  | group _ ih => exact ih havo
  | backref _ => exact absurd havo Bool.false_ne_true

/-- The characters with which a match that reads something can begin. -/
def heads : Regex → Char → Bool
  | empty, _ => false
  | chars _ mem, x => mem x
  | seq r s, x => r.heads x || (!r.reads && s.heads x)
  | alt r s, x => r.heads x || s.heads x
  | rep _ _ _ r, x => r.heads x
  | group r, x => r.heads x
  | look _ _, _ => false
  | backref _, _ => true
  | assertion _ _, _ => false

theorem Matches.heads (h : Matches r off p c q d)
    (hlt : q.rest.length < p.rest.length) : ∃ x ∈ p.rest.head?, r.heads x := by
  -- what begins with the second of two matches if the first one reads nothing
  have hsec {p q : Position} {r : Regex} {off : Nat} {c d : Captures} (hr : Matches r off p c q d)
      (hle : ¬ q.rest.length < p.rest.length) : q.rest = p.rest ∧ r.reads = false := by
    obtain ⟨n, hn, rfl⟩ := hr.behind
    rw [Position.rest_advance, length_drop] at hle
    refine ⟨?_, ?_⟩
    · rcases Nat.eq_zero_or_pos n with rfl | hpos
      · simp
      · rw [Position.rest_advance, eq_nil_of_length_eq_zero (by omega : p.rest.length = 0),
          drop_nil]
    · by_contra hrds
      have := hr.length_lt (Bool.not_eq_false _ ▸ hrds)
      rw [Position.rest_advance, length_drop] at this
      omega
  induction h with
  | empty | look _ _ | lookNot _ | assertion _ | repStop _ => exact absurd hlt (Nat.lt_irrefl _)
  | chars hrest hx => exact ⟨_, by simp [hrest], hx⟩
  | @seq _ p _ q _ _ _ _ _ hr hs ihr ihs =>
    by_cases hfst : q.rest.length < p.rest.length
    · obtain ⟨x, hx, hhead⟩ := ihr hfst
      exact ⟨x, hx, by simp [Regex.heads, hhead]⟩
    · obtain ⟨hsame, hrds⟩ := hsec hr hfst
      rw [hsame] at ihs
      obtain ⟨x, hx, hhead⟩ := ihs hlt
      exact ⟨x, hx, by simp [Regex.heads, hhead, hrds]⟩
  | altLeft _ ih | altRight _ ih =>
    obtain ⟨x, hx, hhead⟩ := ih hlt
    exact ⟨x, hx, by simp [Regex.heads, hhead]⟩
  | @repRound _ p _ q _ _ _ _ _ _ _ hr hs ihr ihs =>
    by_cases hfst : q.rest.length < p.rest.length
    · exact ihr hfst
    · rw [(hsec hr hfst).1] at ihs
      exact ihs hlt
  | group _ ih => exact ih hlt
  | @backref _ p _ _ hpre =>
    cases hrest : p.rest with
    | nil => simp [hrest] at hlt
    | cons x rest => exact ⟨x, rfl, rfl⟩

/-! ## The text of an expression -/

/-- A part of an expression that binds less than what is around it stands in brackets. -/
def bracket (b : Bool) (text : List Char) : List Char :=
  if b then '(' :: '?' :: ':' :: text ++ [')'] else text

def quantifier (min : Nat) (max : Option Nat) (greedy : Bool) : List Char :=
  (match min, max with
    | 0, none => ['*']
    | 1, none => ['+']
    | 0, some 1 => ['?']
    | m, none => '\x7b' :: Nat.toDigits 10 m ++ [',', '\x7d']
    | m, some n => '\x7b' :: Nat.toDigits 10 m ++ ',' :: Nat.toDigits 10 n ++ ['\x7d']) ++
  if greedy then [] else ['?']

/-- The text of an expression: `level` is 0 where alternatives can stand, 1 in a sequence, 2 in
front of a quantifier. -/
def textAt : Nat → Regex → List Char
  | _, empty => []
  | _, chars text _ => text
  | level, seq r s => bracket (2 ≤ level) (r.textAt 1 ++ s.textAt 1)
  | level, alt r s => bracket (1 ≤ level) (r.textAt 0 ++ '|' :: s.textAt 0)
  | level, rep min max greedy r => bracket (2 ≤ level) (r.textAt 2 ++ quantifier min max greedy)
  | _, group r => '(' :: r.textAt 0 ++ [')']
  | _, look negative r => '(' :: '?' :: (if negative then '!' else '=') :: r.textAt 0 ++ [')']
  | _, backref n => '\\' :: Nat.toDigits 10 n
  | _, assertion text _ => text

def text (r : Regex) : List Char := r.textAt 0

/-! ## Equations of `first` -/

variable {mem : Char → Bool}

section First

variable {β : Type} (off : Nat) (p : Position) (c : Captures) (k : Position → Captures → Option β)

theorem first_seq (r s : Regex) :
    (seq r s).first off p c k = r.first off p c fun q d => s.first (off + r.count) q d k := by
  simp only [first, outcomes]
  induction r.outcomes off p c with
  | nil => rfl
  | cons m ms ih =>
    rw [flatMap_cons, findSome?_append, ih, findSome?_cons]
    cases findSome? (fun m => k m.1 m.2) (s.outcomes (off + r.count) m.1 m.2) <;> rfl

theorem first_seqs (r s : Regex) (rs : List Regex) :
    (seqs (r :: s :: rs)).first off p c k = r.first off p c fun q d =>
    (seqs (s :: rs)).first (off + r.count) q d k :=
  first_seq off p c k r (seqs (s :: rs))

theorem first_seqs_singleton (r : Regex) : (seqs [r]).first off p c k = r.first off p c k := rfl

theorem first_alt (r s : Regex) :
    (alt r s).first off p c k = (r.first off p c k).or (s.first (off + r.count) p c k) := by
  simp only [first, outcomes, findSome?_append]

theorem first_group (r : Regex) :
    (group r).first off p c k = r.first (off + 1) p c fun q d =>
    k q (d.set (off + 1) (p.upTo q)) := by
  simp only [first, outcomes, findSome?_map]
  rfl

theorem first_chars_nil (text : List Char) (mem : Char → Bool) (h : p.rest = []) :
    (chars text mem).first off p c k = none := by
  simp [first, outcomes, h]

theorem first_chars_of_mem (text : List Char) (h : p.rest = x :: rest) (hx : mem x) :
    (chars text mem).first off p c k = k (p.advance 1) c := by
  simp [first, outcomes, h, hx]

theorem first_optional (hrds : r.reads) :
    (optional r).first off p c k = (r.first off p (c.reset off r.count) k).or (k p c) := by
  have hlt (m : Outcome) (hm : m ∈ r.outcomes off p (c.reset off r.count)) :
      m.1.rest.length < p.rest.length :=
    (matches_of_mem r hm).length_lt hrds
  have hone : (optional r).outcomes off p c = r.outcomes off p (c.reset off r.count) ++
      [(p, c)] := by
    have hfil : (r.outcomes off p (c.reset off r.count)).filter
        (fun m => (0 : Nat) ≠ 0 || m.1.rest.length < p.rest.length) =
          r.outcomes off p (c.reset off r.count) :=
      filter_eq_self.mpr fun m hm => by simp [hlt m hm]
    have hstop (step : Position → Captures → List Outcome) (n : Nat) (q : Position) (d : Captures) :
        rounds step true n 0 (some 0) q d = [(q, d)] := by
      cases n <;> simp [rounds]
    rw [outcomes, Nat.zero_add]
    cases hlen : p.rest.length with
    | zero =>
      have hnone : r.outcomes off p (c.reset off r.count) = [] :=
        eq_nil_iff_forall_not_mem.mpr fun m hm => by have := hlt m hm; omega
      rw [rounds, hnone, nil_append]
    | succ n =>
      rw [rounds]
      simp only [hfil]
      simp [hstop]
  rw [first, hone, first]
  simp

theorem first_eq_none (hrds : r.reads) (h : ∀ x ∈ p.rest.head?, r.heads x = false) :
    r.first off p c k = none := by
  have hnone : r.outcomes off p c = [] := by
    refine eq_nil_iff_forall_not_mem.mpr fun m hm => ?_
    have hmat := matches_of_mem r hm
    obtain ⟨x, hx, hhead⟩ := hmat.heads (hmat.length_lt hrds)
    exact Bool.false_ne_true ((h x hx).symm.trans hhead)
  rw [first, hnone, findSome?_nil]

theorem first_optional_skip (hrds : r.reads) (h : ∀ x ∈ p.rest.head?, r.heads x = false) :
    (optional r).first off p c k = k p c := by
  rw [first_optional off p c k hrds, first_eq_none _ _ _ _ hrds h, Option.none_or]

theorem captures_of_first (h : r.first off p c atEnd = some d) (hn : n ≤ off) : d n = c n := by
  obtain ⟨m, hm, hend⟩ := exists_of_findSome?_eq_some h
  unfold atEnd at hend
  split_ifs at hend
  cases hend
  exact (matches_of_mem r hm).captures_eq (.inl hn)

end First

/-! ## Repeated classes -/

variable {i : Nat}

theorem findSome?_down {β : Type} {f : Nat → Option β} (hi : i ≤ n)
    (habo : ∀ j, i < j → j ≤ n → f j = none) (hbel : (f i).isSome ∨ ∀ j < i, f j = none) :
    (range (n + 1)).reverse.findSome? f = f i := by
  induction n with
  | zero =>
    obtain rfl : i = 0 := by omega
    simp
  | succ n ih =>
    rw [range_succ, reverse_append, reverse_singleton, singleton_append, findSome?_cons]
    obtain hlt | rfl := Nat.lt_or_eq_of_le hi
    · rw [habo (n + 1) hlt (Nat.le_refl _)]
      exact ih (by omega) fun j hj hjn => habo j hj (by omega)
    · obtain hsome | hnone := hbel
      · obtain ⟨x, hx⟩ := Option.isSome_iff_exists.mp hsome
        rw [hx]
      · cases hf : f (n + 1) with
        | some x => rfl
        | none =>
          simp only [findSome?_eq_none_iff, mem_reverse, mem_range]
          exact fun j hj => hnone j hj

def runLength (mem : Char → Bool) (p : Position) : Nat := (p.rest.takeWhile mem).length

def runs (mem : Char → Bool) (p : Position) (c : Captures) : List Outcome :=
  (range (runLength mem p + 1)).reverse.map fun n => (p.advance n, c)

theorem runs_cons (h : p.rest = x :: rest)
    (hx : mem x) (c : Captures) : runs mem p c = runs mem (p.advance 1) c ++ [(p, c)] := by
  have hlen : runLength mem p = runLength mem (p.advance 1) + 1 := by simp [runLength, h, hx]
  simp only [runs, hlen, Position.advance_advance]
  rw [range_succ_eq_map]
  simp [Nat.add_comm]

theorem runs_of_not_mem (h : ∀ x ∈ p.rest.head?, mem x = false) (c : Captures) :
    runs mem p c = [(p, c)] := by
  have hlen : runLength mem p = 0 := by
    cases hrest : p.rest with
    | nil => simp [runLength, hrest]
    | cons x rest => simp [runLength, hrest, h x (by simp [hrest])]
  simp [runs, hlen]

theorem rounds_chars (text : List Char) (mem : Char → Bool) (off : Nat) :
    ∀ {n : Nat} {p : Position} (c : Captures), runLength mem p ≤ n →
      rounds (fun p c => (chars text mem).outcomes off p (c.reset off (chars text mem).count)) true
        n 0 none p c = runs mem p c := by
  intro n
  induction n with
  | zero =>
    intro p c hn
    have hlen : runLength mem p = 0 := by omega
    simp [rounds, runs, hlen]
  | succ n ih =>
    intro p c hn
    rw [rounds]
    cases hrest : p.rest with
    | nil =>
      rw [runs_of_not_mem (by simp [hrest])]
      simp [outcomes]
    | cons x rest =>
      by_cases hx : mem x
      · have hlen : runLength mem p = runLength mem (p.advance 1) + 1 := by
          simp [runLength, hrest, hx]
        rw [runs_cons hrest hx, ← ih c (by omega)]
        simp [outcomes, hrest, hx, count]
      · rw [runs_of_not_mem (by simp [hrest, hx])]
        simp [outcomes, hrest, hx]

theorem outcomes_star (text : List Char) (mem : Char → Bool) (off : Nat) (p : Position)
    (c : Captures) : (star (chars text mem)).outcomes off p c = runs mem p c := by
  rw [outcomes, Nat.zero_add]
  exact rounds_chars text mem off c (takeWhile_sublist _).length_le

theorem outcomes_plus (h : p.rest = x :: rest) (hx : mem x) (text : List Char) (off : Nat)
    (c : Captures) : (plus (chars text mem)).outcomes off p c = runs mem (p.advance 1) c := by
  have hlen : runLength mem (p.advance 1) ≤ p.rest.length := by
    refine Nat.le_trans (takeWhile_sublist _).length_le ?_
    simp [h]
  rw [outcomes, Nat.add_comm, rounds, ← rounds_chars text mem off c hlen]
  simp [outcomes, h, hx, count]

section Words

variable {β : Type} {mem : Char → Bool} {p : Position} {w rest : List Char}
  {k : Position → Captures → Option β}

section

variable (hp : p.rest = w ++ rest) (hw : ∀ x ∈ w, mem x = true)
  (hrest : ∀ x ∈ rest.head?, mem x = false)

include hp hw hrest

theorem runLength_word : runLength mem p = w.length := by
  have hstop : rest.takeWhile mem = [] := by
    cases rest with
    | nil => rfl
    | cons x rest => simp [hrest x (by simp)]
  rw [runLength, hp, takeWhile_append_of_pos hw, hstop, append_nil]

/-- What a repeated class makes of a word that is not continued: `i` characters of it are read if
the match does not go on behind more of them. -/
theorem first_star_word (text : List Char) (off : Nat) (c : Captures) (hi : i ≤ w.length)
    (habo : ∀ j, i < j → j ≤ w.length → k (p.advance j) c = none)
    (hbel : (k (p.advance i) c).isSome ∨ ∀ j < i, k (p.advance j) c = none) :
    (star (chars text mem)).first off p c k = k (p.advance i) c := by
  rw [first, outcomes_star, runs, runLength_word hp hw hrest, findSome?_map]
  exact findSome?_down hi habo hbel

theorem first_plus_word (text : List Char) (off : Nat) (c : Captures) (h1 : 1 ≤ i)
    (hi : i ≤ w.length) (habo : ∀ j, i < j → j ≤ w.length → k (p.advance j) c = none)
    (hbel : (k (p.advance i) c).isSome ∨ ∀ j, 1 ≤ j → j < i → k (p.advance j) c = none) :
    (plus (chars text mem)).first off p c k = k (p.advance i) c := by
  cases w with
  | nil => simp at hi; omega
  | cons x w =>
    have hword : runLength mem (p.advance 1) = w.length :=
      runLength_word (by simp [hp]) (forall_mem_cons.mp hw).2 hrest
    rw [first, outcomes_plus hp (hw x mem_cons_self), runs, hword, findSome?_map]
    have hdown :=
      findSome?_down (f := fun n => k (p.advance (1 + n)) c) (n := w.length) (i := i - 1)
      (by simp at hi; omega) (fun j hj hjn => habo _ (by omega) (by simp; omega))
      (hbel.imp (by rw [Nat.add_sub_cancel' h1]; exact id) fun h j hj => h _ (by omega) (by omega))
    rw [Nat.add_sub_cancel' h1] at hdown
    simpa [Function.comp_def, Position.advance_advance] using hdown

end

variable {b : List Char}

theorem first_char (hx : mem x) (text : List Char) (off : Nat) (c : Captures) :
    (chars text mem).first off ⟨b, x :: rest⟩ c k = k ⟨x :: b, rest⟩ c :=
  first_chars_of_mem off ⟨b, x :: rest⟩ c k text rfl hx

/-- A word of a class at a known position, if the match cannot go on with a character of the
class. -/
theorem first_word (hne : w ≠ []) (hw : ∀ x ∈ w, mem x) (hrest : ∀ x ∈ rest.head?, mem x = false)
    (text : List Char) (off : Nat) (c : Captures)
    (hk : ∀ q, (∃ x ∈ q.rest.head?, mem x) → k q c = none) :
    (plus (chars text mem)).first off ⟨b, w ++ rest⟩ c k = k ⟨w.reverse ++ b, rest⟩ c := by
  have hpos : 1 ≤ w.length := length_pos_iff.mpr hne
  rw [first_plus_word rfl hw hrest text off c hpos (Nat.le_refl _) (fun j hj hjw => by omega)]
  · simp [Position.advance]
  · refine .inr fun j _ hj => hk _ ⟨w.get ⟨j, hj⟩, ?_, hw _ (get_mem _ _)⟩
    simp [getElem?_append_left hj]

theorem first_word_end (hne : w ≠ []) (hw : ∀ x ∈ w, mem x) (text : List Char) (off : Nat)
    (c : Captures) (hk : ∀ q, (∃ x ∈ q.rest.head?, mem x) → k q c = none) :
    (plus (chars text mem)).first off ⟨b, w⟩ c k = k ⟨w.reverse ++ b, []⟩ c := by
  have hword : (plus (chars text mem)).first off ⟨b, w ++ []⟩ c k = k ⟨w.reverse ++ b, []⟩ c :=
    first_word hne hw (by simp) text off c hk
  rwa [append_nil] at hword

end Words

end Regex

end Matador.Lib
