import Matador.Http.RouteText
import Matador.Lib.Run

/-!
# Parameters of a path

A parameter should be the text of the path at its position. A match gives a text for each part of
the route (`reads_of_match`), and the parameter with number `i` gets the text of the group `i`. The
two are the same behind words and plain parts; a part `*.*`, or an expression with groups of its
own, shifts the numbers of the parameters behind it, and an expression that reads slashes shifts the
positions.
-/

namespace Matador.Http

open List hiding count
open Option
open Lib Lib.Regex RoutingEngine

/-! ## Texts of the parts -/

/-- `ws` are texts that the expressions read one after the other, with the captures `d` in the
end. -/
inductive Reads : List Regex → Nat → List Str → Captures → Prop
  | nil {off d} : Reads [] off [] d
  | cons {r rs off w ws d p c m} : m ∈ r.outcomes off p c → p.upTo m.1 = w →
      (∀ n ≤ off + r.count, d n = m.2 n) →
    Reads rs (off + r.count) ws d → Reads (r :: rs) off (w :: ws) d

variable {off : Nat} {ws : List Str} {d : Captures} {rs : List Regex}

theorem Reads.length_eq (h : Reads rs off ws d) : ws.length = rs.length := by
  induction h with
  | nil => rfl
  | cons _ _ _ _ ih => rw [length_cons, length_cons, ih]

theorem reads_of_mem_pathRegex :
    ∀ {rs : List Regex} {off : Nat} {p : Position} {c : Captures} {m : Regex.Outcome},
    m ∈ (pathRegex rs).outcomes off p c → ∃ ws, Reads rs off ws m.2 ∧
    p.rest = ws.flatMap ('/' :: ·) ++ m.1.rest
  | [], off, p, c, m, h => by
    obtain rfl := mem_singleton.mp h
    exact ⟨[], .nil, rfl⟩
  | r :: rs, off, p, c, m, h => by
    rw [pathRegex, outcomes, mem_flatMap] at h
    obtain ⟨m₁, hsls, h⟩ := h
    rw [outcomes, mem_flatMap] at h
    obtain ⟨m₂, hr, h⟩ := h
    obtain ⟨ws, hws, hrest⟩ := reads_of_mem_pathRegex h
    have hbhd := (matches_of_mem _ hr).behind.upTo_append
    have hfrt : p.rest = '/' :: m₁.1.rest := by
      rw [outcomes] at hsls
      split at hsls
      · exact absurd hsls not_mem_nil
      · next x rest hp =>
        split_ifs at hsls with hx
        · obtain rfl := mem_singleton.mp hsls
          obtain rfl : x = '/' := by simpa using hx
          simp [hp]
        · exact absurd hsls not_mem_nil
    refine ⟨m₁.1.upTo m₂.1 :: ws, .cons hr rfl ?_ hws, ?_⟩
    · intro n hn
      exact (matches_of_mem _ h).captures_eq (.inl hn)
    · rw [hfrt, ← hbhd, hrest]
      simp

def groupsBefore (rs : List Regex) (i : Nat) : Nat := ((rs.take i).map count).sum

variable {r : Regex}

theorem groupsBefore_succ (i : Nat) :
    groupsBefore (r :: rs) (i + 1) = r.count + groupsBefore rs i := by
  simp [groupsBefore]

variable {i : Nat}

theorem Reads.capture (h : Reads rs off ws d) (hr : rs[i]? = some (group r)) :
    d (off + groupsBefore rs i + 1) = ws[i]? := by
  induction h generalizing i with
  | nil => simp at hr
  | @cons r' rs off w ws d p c m hm hw hd _ ih =>
    cases i with
    | zero =>
      obtain rfl : r' = group r := by simpa using hr
      obtain ⟨m', hm', rfl⟩ := mem_map.mp hm
      rw [hd _ (by simp [groupsBefore, count])]
      simpa [groupsBefore] using hw
    | succ i =>
      rw [groupsBefore_succ, getElem?_cons_succ, ← ih hr]
      congr 1
      omega

/-! ## The loop over the groups -/

variable {m : UnorderedMap Nat Str} {k : Nat} {name : Str}

theorem find_indexMap_of_some (h : m.find k = some name) (i : Nat)
    (names : List Str) : (indexMap m i names).find k = some name := by
  induction names generalizing m i with
  | nil => exact h
  | cons _ names ih => exact ih (UnorderedMap.find_insert_of_some h _ _) (i + 1)

theorem find_indexMap (hm : ∀ k, i < k → m.find k = none) (names : List Str) (j : Nat) :
    (indexMap m i names).find (i + j + 1) = names[j]? := by
  induction names generalizing m i j with
  | nil => exact hm _ (by omega)
  | cons name names ih =>
    have hm' : ∀ k, i + 1 < k → (m.insert (i + 1) name).find k = none := by
      intro k hk
      rw [UnorderedMap.find_insert_of_ne (by omega)]
      exact hm k (by omega)
    cases j with
    | zero => exact find_indexMap_of_some (UnorderedMap.find_insert_self (hm _ (by omega))) _ _
    | succ j =>
      have h := ih hm' j
      rw [getElem?_cons_succ, ← h]
      congr 1
      omega

theorem find_indexMap_empty (names : List Str) (j : Nat) :
    (indexMap .empty 0 names).find (j + 1) = names[j]? := by
  have hfind := find_indexMap (m := .empty) (i := 0) (fun k _ => rfl) names j
  rwa [Nat.zero_add] at hfind

/-- The first of the names that is `name` has the number `j`. -/
def FirstAt (names : List Str) (name : Str) (j : Nat) : Prop :=
  names[j]? = some name ∧ ∀ i < j, names[i]? ≠ some name

variable {names : List Str} {j : Nat}

theorem FirstAt.unique (hi : FirstAt names name i) (hj : FirstAt names name j) : i = j := by
  obtain h | h | h := Nat.lt_trichotomy i j
  · exact absurd hi.1 (hj.2 i h)
  · exact h
  · exact absurd hj.1 (hi.2 j h)

theorem find_setPathParams_eq (hm : ∀ j, m.find (j + 1) = names[j]?) (what : Captures) (n : Nat)
    (name : Str) : (setPathParams m what n .empty).find name =
      ((range n).find? (names[·]? = some name)).map fun j => what.str (j + 1) := by
  induction n with
  | zero => rfl
  | succ n ih =>
    rw [setPathParams] at ih ⊢
    rw [range_succ, foldl_append, foldl_cons, find?_append, hm]
    cases hoth : names[n]? with
    | none => simp [ih, hoth]
    | some other =>
      by_cases hname : other = name
      · subst hname
        cases hfind : (range n).find? (names[·]? = some other) with
        | none => simp [UnorderedMap.find_insert_self, ih, hfind, hoth]
        | some j => simp [UnorderedMap.find_insert_of_some (ih.trans (congrArg _ hfind))]
      · simp [UnorderedMap.find_insert_of_ne (Ne.symm hname), ih, hoth, hname]

theorem find_setPathParams (hm : ∀ j, m.find (j + 1) = names[j]?) (what : Captures) (n : Nat)
    (name v : Str) : (setPathParams m what n .empty).find name = some v ↔
    ∃ j < n, FirstAt names name j ∧ what.str (j + 1) = v := by
  rw [find_setPathParams_eq hm, map_eq_some_iff]
  refine exists_congr fun j => ?_
  rw [find?_range_eq_some, FirstAt]
  simp only [decide_eq_true_eq, mem_range, Bool.not_eq_true', decide_eq_false_iff_not]
  tauto

/-! ## Segments of a path -/

/-- The texts between the slashes of a path that begins with a slash. -/
def pathSegments (url : Str) : List Str := (url.splitOn '/').tail

variable {w : Str}

theorem pathSegments_cons (hw : '/' ∉ w) (ws : List Str) :
    pathSegments ((w :: ws).flatMap ('/' :: ·)) = w :: pathSegments (ws.flatMap ('/' :: ·)) := by
  have hsls (url : Str) : ('/' :: url).splitOn '/' = [] :: url.splitOn '/' :=
    splitOn_append_cons_self_of_not_mem (not_mem_nil) url
  rw [pathSegments, flatMap_cons, cons_append, hsls, tail_cons]
  cases ws with
  | nil =>
      rw [flatMap_nil, append_nil, splitOn_eq_singleton hw, pathSegments, splitOn_nil, tail_cons]
  | cons v ws =>
    rw [flatMap_cons, cons_append, splitOn_append_cons_self_of_not_mem hw, pathSegments,
      hsls, tail_cons]

theorem getElem?_pathSegments (hi : i < ws.length) (h : ∀ w ∈ ws.take (i + 1), '/' ∉ w) :
    (pathSegments (ws.flatMap ('/' :: ·)))[i]? = ws[i]? := by
  induction ws generalizing i with
  | nil => simp at hi
  | cons w ws ih =>
    rw [pathSegments_cons (h w (by simp))]
    cases i with
    | zero => rfl
    | succ i => exact ih (by simpa using hi) fun v hv => h v (by simp [hv])

/-! ## Routes whose parameters are set -/

/-- The parameters of a route are the segments of the path at their positions. -/
def SetsParams (segments : List Segment) (url : Str) (params : ParamMap) : Prop :=
  ∀ (i : Nat) (name : Str), segments[i]?.bind Segment.name = some name →
    params.find name = (pathSegments url)[i]?

/-- The expression reads no slash. -/
def SlashFree (r : Regex) : Prop := ∀ off p c m, m ∈ r.outcomes off p c → '/' ∉ p.upTo m.1

/-- A part that shifts neither the positions nor the numbers of the parameters behind it. -/
def Segment.Transparent (compile : Str → Option Regex) : Segment → Prop
  | file => False
  | plain _ => True
  | param _ => True
  | paramRegex _ regex => ∀ r, compile regex = some r → r.count = 0 ∧ SlashFree r

/-- A parameter reads no slash itself. -/
def Segment.ReadsNoSlash (compile : Str → Option Regex) : Segment → Prop
  | paramRegex _ regex => ∀ r, compile regex = some r → SlashFree r
  | _ => True

/-- In front of each parameter only transparent parts stand, none of them with the same name. -/
def Aligned (compile : Str → Option Regex) (segments : List Segment) : Prop :=
  ∀ before s behind, segments = before ++ s :: behind → s.name ≠ none →
    s.ReadsNoSlash compile ∧ ∀ t ∈ before, t.Transparent compile ∧ t.name ≠ s.name

theorem slashFree_of_avoids (h : r.avoids '/') : SlashFree r :=
  fun _ _ _ _ hm => (matches_of_mem r hm).not_mem_upTo h

theorem SlashFree.group (h : SlashFree r) : SlashFree (group r) := by
  intro off p c m hm
  obtain ⟨m', hm', rfl⟩ := mem_map.mp hm
  exact h _ _ _ m' hm'

theorem avoids_seqs {x : Char} : ∀ {rs : List Regex}, (∀ r ∈ rs, r.avoids x) → (seqs rs).avoids x
  | [], _ => rfl
  | [r], h => h r mem_cons_self
  | r :: s :: rs, h => by
    have hrest := avoids_seqs (forall_mem_cons.mp h).2
    simp [seqs, avoids, h r mem_cons_self, hrest]

theorem count_seqs_char : ∀ text : Str, (seqs (text.map char)).count = 0
  | [] => rfl
  | [_] => rfl
  | x :: y :: text => by
    have hrest := count_seqs_char (y :: text)
    simpa [seqs, count] using hrest

section Parts

variable {compile : Str → Option Regex} {s : Segment} {r : Regex} (hvalid : s.Valid compile)
  (hr : s.regex compile = some r)

include hvalid hr

theorem slashFree_plain {text : Str} (hs : s = .plain text) : SlashFree r := by
  subst hs
  cases hr
  refine slashFree_of_avoids (avoids_seqs fun t ht => ?_)
  obtain ⟨x, hx, rfl⟩ := mem_map.mp ht
  have hne : '/' ≠ x := by
    rintro rfl
    exact absurd (hvalid.2 _ hx) (by decide)
  simpa [avoids] using hne

theorem transparent_facts (htra : s.Transparent compile) :
    SlashFree r ∧ r.count = if s.name = none then 0 else 1 := by
  cases s with
  | file => exact htra.elim
  | plain text =>
    refine ⟨slashFree_plain hvalid hr rfl, ?_⟩
    cases hr
    exact count_seqs_char text
  | param name =>
    cases hr
    exact ⟨slashFree_of_avoids (by decide), rfl⟩
  | paramRegex name regex =>
    obtain ⟨r', hr', rfl⟩ := map_eq_some_iff.mp hr
    obtain ⟨hcou, hsls⟩ := htra r' hr'
    exact ⟨hsls.group, by rw [count, hcou]; rfl⟩

omit hvalid in
theorem exists_group (hname : s.name ≠ none) :
    ∃ r', r = group r' ∧ (s.ReadsNoSlash compile → SlashFree (group r')) := by
  cases s with
  | file | plain _ => exact absurd rfl hname
  | param name =>
    cases hr
    exact ⟨_, rfl, fun _ => slashFree_of_avoids (by decide)⟩
  | paramRegex name regex =>
    obtain ⟨r', hr', rfl⟩ := map_eq_some_iff.mp hr
    exact ⟨r', rfl, fun hsls => (hsls r' hr').group⟩

end Parts

theorem count_pathRegex (rs : List Regex) : (pathRegex rs).count = (rs.map count).sum := by
  induction rs with
  | nil => rfl
  | cons r rs ih => simp [pathRegex, count, ih]

variable {compile : Str → Option Regex}

theorem transparent_parts {before : List Segment} {front : List Regex}
    (hparts : Parts compile before front) (h : ∀ s ∈ before, s.Transparent compile) :
    (front.map count).sum = (before.filterMap Segment.name).length ∧ ∀ r ∈ front, SlashFree r := by
  induction hparts with
  | nil => exact ⟨rfl, fun r hr => absurd hr not_mem_nil⟩
  | @cons s r before front hs _ ih =>
    obtain ⟨hsum, hsls⟩ := ih (forall_mem_cons.mp h).2
    obtain ⟨hfree, hcou⟩ := transparent_facts hs.1 hs.2 (h s mem_cons_self)
    refine ⟨?_, forall_mem_cons.mpr ⟨hfree, hsls⟩⟩
    rw [map_cons, sum_cons, hcou, hsum]
    cases hname : s.name with
    | none => rw [filterMap_cons_none hname, if_pos rfl, Nat.zero_add]
    | some name => rw [filterMap_cons_some hname, if_neg nofun, length_cons, Nat.add_comm]

theorem Parts.exists_group {segments : List Segment} (hparts : Parts compile segments rs)
    {s : Segment} (hs : segments[i]? = some s) (hname : s.name ≠ none) :
    ∃ r, rs[i]? = some (group r) ∧ (s.ReadsNoSlash compile → SlashFree (group r)) := by
  induction hparts generalizing i with
  | nil => cases hs
  | cons hpart _ ih =>
    cases i with
    | zero =>
      cases hs
      obtain ⟨r, rfl, hsls⟩ := Http.exists_group hpart.2 hname
      exact ⟨r, rfl, hsls⟩
    | succ i => exact ih hs

theorem groupsBefore_lt (hr : rs[i]? = some (group r)) (hik : i < k) :
    groupsBefore rs i < groupsBefore rs k := by
  induction rs generalizing i k with
  | nil => simp at hr
  | cons r' rs ih =>
    obtain ⟨k, rfl⟩ : ∃ l, k = l + 1 := ⟨k - 1, by omega⟩
    rw [groupsBefore_succ]
    cases i with
    | zero =>
      obtain rfl : r' = group r := by simpa using hr
      have hzero : groupsBefore (group r :: rs) 0 = 0 := rfl
      have hcou : (group r).count = r.count + 1 := rfl
      omega
    | succ i =>
      rw [groupsBefore_succ]
      have := ih hr (k := k) (by omega)
      omega

theorem Reads.slash_not_mem (h : Reads rs off ws d)
    (hfree : ∀ r ∈ rs.take k, SlashFree r) : ∀ w ∈ ws.take k, '/' ∉ w := by
  induction h generalizing k with
  | nil => simp
  | @cons r rs off w ws d p c m hm hw _ _ ih =>
    cases k with
    | zero => simp
    | succ k =>
      intro v hv
      obtain rfl | hv := mem_cons.mp hv
      · exact hw ▸ hfree r mem_cons_self _ _ _ _ hm
      · exact ih (forall_mem_cons.mp hfree).2 v hv

variable {url : Str} {what : Captures}

theorem reads_of_match (h : (pathRegex rs).regexMatch url = some what) :
    ∃ ws, Reads rs 0 ws what ∧ url = ws.flatMap ('/' :: ·) := by
  obtain ⟨m, hm, hend⟩ := exists_of_findSome?_eq_some h
  unfold atEnd at hend
  split_ifs at hend with hrest
  cases hend
  obtain ⟨ws, hws, hurl⟩ := reads_of_mem_pathRegex hm
  rw [hrest, append_nil] at hurl
  exact ⟨ws, hws, hurl⟩

variable {segments : List Segment}

/-- **The parameters of an aligned route are set to the segments at their positions.** -/
theorem setsParams_of_aligned (hparts : Parts compile segments rs) (hali : Aligned compile segments)
    (h : (pathRegex rs).regexMatch url = some what) :
    SetsParams segments url
      (setPathParams (indexMap .empty 0 (segments.filterMap Segment.name)) what (pathRegex rs).count
        .empty) := by
  obtain ⟨ws, hrds, rfl⟩ := reads_of_match h
  intro i name hi
  obtain ⟨s, hs, hname⟩ := bind_eq_some_iff.mp hi
  have hsome : s.name ≠ none := by rw [hname]; nofun
  -- the parts in front of the parameter and behind it
  obtain ⟨behind, hspl⟩ : ∃ behind, segments = segments.take i ++ s :: behind := by
    obtain ⟨hlt, rfl⟩ := List.getElem?_eq_some_iff.mp hs
    exact ⟨segments.drop (i + 1), by simp⟩
  obtain ⟨hsls, htra⟩ := hali _ s behind hspl hsome
  obtain ⟨hsum, hfree⟩ := transparent_parts (forall₂_take i hparts) fun t ht => (htra t ht).1
  obtain ⟨r, hr, hfree'⟩ := hparts.exists_group hs hsome
  have hlt : i < rs.length := (List.getElem?_eq_some_iff.mp hr).1
  have hws : i < ws.length := by rwa [hrds.length_eq]
  have hgro : groupsBefore rs i = ((segments.take i).filterMap Segment.name).length := hsum
  have hcap := hrds.capture hr
  have htex : ∀ w ∈ ws.take (i + 1), '/' ∉ w := by
    refine hrds.slash_not_mem fun t ht => ?_
    rw [take_add_one, hr] at ht
    obtain ht | ht := mem_append.mp ht
    · exact hfree t ht
    · exact mem_singleton.mp ht ▸ hfree' hsls
  have hfst : FirstAt (segments.filterMap Segment.name) name (groupsBefore rs i) := by
    rw [hgro, hspl, filterMap_append, filterMap_cons_some hname, ← hspl]
    refine ⟨by simp, fun j hj => ?_⟩
    rw [getElem?_append_left hj]
    intro hsame
    obtain ⟨t, ht, htna⟩ := mem_filterMap.mp (mem_of_getElem? hsame)
    exact (htra t ht).2 (by rw [htna, hname])
  rw [getElem?_pathSegments hws htex, getElem?_eq_getElem hws,
    find_setPathParams (find_indexMap_empty _)]
  refine ⟨_, ?_, hfst, ?_⟩
  · have hbef := groupsBefore_lt hr hlt
    have htot : groupsBefore rs rs.length = (pathRegex rs).count := by
      rw [groupsBefore, take_length, count_pathRegex]
    rwa [htot] at hbef
  · rw [Nat.zero_add] at hcap
    rw [Captures.str, hcap, getElem?_eq_getElem hws, getD_some]

/-! ## No other routes

A path shows every shift if the texts of its segments differ: a segment for a word has as many
letters as the number of its position. -/

/-- The expression can read `w` in front of any text. -/
def CanRead (r : Regex) (w : Str) : Prop :=
  ∀ off p c rest, p.rest = w ++ rest → ∃ m ∈ r.outcomes off p c, m.1.rest = rest

theorem CanRead.group (h : CanRead r w) : CanRead (group r) w := by
  intro off p c rest hp
  obtain ⟨m, hm, hrest⟩ := h (off + 1) p c rest hp
  exact ⟨_, mem_map.mpr ⟨m, hm, rfl⟩, hrest⟩

theorem CanRead.seq {s : Regex} {v : Str} (hr : CanRead r v) (hs : CanRead s w) :
    CanRead (seq r s) (v ++ w) := by
  intro off p c rest hp
  rw [append_assoc] at hp
  obtain ⟨m, hm, hrest⟩ := hr off p c (w ++ rest) hp
  obtain ⟨m', hm', hrest'⟩ := hs (off + r.count) m.1 m.2 rest hrest
  exact ⟨m', mem_flatMap.mpr ⟨m, hm, hm'⟩, hrest'⟩

variable {mem : Char → Bool}

theorem canRead_chars {x : Char} (hx : mem x) (text : Str) : CanRead (chars text mem) [x] := by
  intro off p c rest hp
  simp [outcomes, hp, hx]

theorem canRead_text : ∀ text : Str, CanRead (seqs (text.map char)) text
  | [] => fun _ p c _ hp => ⟨(p, c), mem_singleton_self _, hp⟩
  | [x] => canRead_chars (by simp) [x]
  | x :: y :: text => (canRead_chars (by simp) [x]).seq (canRead_text (y :: text))

theorem mem_runs {p : Position} {rest : Str} (hp : p.rest = w ++ rest) (hw : ∀ x ∈ w, mem x)
    (c : Captures) : (p.advance w.length, c) ∈ runs mem p c := by
  have hlen : w.length ≤ runLength mem p := by
    rw [runLength, hp, takeWhile_append_of_pos hw, length_append]
    omega
  exact mem_map.mpr ⟨w.length, by simp; omega, rfl⟩

theorem canRead_star (hw : ∀ x ∈ w, mem x) (text : Str) : CanRead (star (chars text mem)) w := by
  intro off p c rest hp
  rw [outcomes_star]
  exact ⟨_, mem_runs hp hw c, by simp [hp]⟩

theorem canRead_plus (hne : w ≠ []) (hw : ∀ x ∈ w, mem x) (text : Str) :
    CanRead (plus (chars text mem)) w := by
  obtain ⟨x, v, rfl⟩ := exists_cons_of_ne_nil hne
  intro off p c rest hp
  have hp' : (p.advance 1).rest = v ++ rest := by simp [hp]
  rw [outcomes_plus hp (hw x mem_cons_self)]
  exact ⟨_, mem_runs hp' (forall_mem_cons.mp hw).2 c, by simp [hp]⟩

def Segment.probe (i : Nat) : Segment → Str
  | plain text => text
  | _ => replicate (i + 1) 'a'

def probes : Nat → List Segment → List Str
  | _, [] => []
  | i, s :: segments => s.probe i :: probes (i + 1) segments

theorem getElem?_probes (k : Nat) (segments : List Segment) (i : Nat) :
    (probes k segments)[i]? = segments[i]?.map (Segment.probe (k + i)) := by
  induction segments generalizing k i with
  | nil => rfl
  | cons s segments ih =>
    cases i with
    | zero => rfl
    | succ i =>
      rw [probes, getElem?_cons_succ, getElem?_cons_succ, ih]
      congr 2
      omega

theorem length_probes (k : Nat) (segments : List Segment) :
    (probes k segments).length = segments.length := by
  induction segments generalizing k with
  | nil => rfl
  | cons s segments ih => rw [probes, length_cons, length_cons, ih]

/-- A part without an expression of its own. -/
def Segment.Simple : Segment → Prop
  | paramRegex _ _ => False
  | _ => True

section Simple

variable {compile : Str → Option Regex}

theorem canRead_probe {s : Segment} (hvalid : s.Valid compile) (hsimple : s.Simple)
    (hr : s.regex compile = some r) (i : Nat) : CanRead r (s.probe i) ∧ '/' ∉ s.probe i := by
  have hword : ∀ x ∈ replicate (i + 1) 'a', x = 'a' := fun x hx => eq_of_mem_replicate hx
  have hsls : '/' ∉ replicate (i + 1) 'a' := fun hx => absurd (hword _ hx) (by decide)
  cases s with
  | file =>
    cases hr
    exact ⟨(canRead_star (fun x hx => by rw [hword x hx]; decide) _).group, hsls⟩
  | plain text =>
    cases hr
    exact ⟨canRead_text text, slash_not_mem_text hvalid⟩
  | param name =>
    cases hr
    exact
      ⟨(canRead_plus (by simp [Segment.probe]) (fun x hx => by rw [hword x hx]; decide) _).group,
        hsls⟩
  | paramRegex name regex => exact hsimple.elim

theorem canRead_probes (hparts : Parts compile segments rs)
    (hsimple : ∀ s ∈ segments, s.Simple) (i : Nat) :
    CanRead (pathRegex rs) ((probes i segments).flatMap ('/' :: ·)) ∧
    ∀ w ∈ probes i segments, '/' ∉ w := by
  induction hparts generalizing i with
  | nil => exact ⟨canRead_text [], fun w hw => absurd hw not_mem_nil⟩
  | @cons s r segments rs hs _ ih =>
    obtain ⟨hread, hfree⟩ := ih (forall_mem_cons.mp hsimple).2 (i + 1)
    obtain ⟨hread', hfree'⟩ := canRead_probe hs.1 (hsimple s mem_cons_self) hs.2 i
    refine ⟨?_, forall_mem_cons.mpr ⟨hfree', hfree⟩⟩
    have hsls : CanRead (escaped '/') ['/'] := canRead_chars (by simp) _
    have hseq := hsls.seq (hread'.seq hread)
    simpa [probes, pathRegex] using hseq

theorem eq_of_flatMap_eq {vs : List Str} (hlen : ws.length = vs.length) (hfree : ∀ w ∈ ws, '/' ∉ w)
    (h : ws.flatMap ('/' :: ·) = vs.flatMap ('/' :: ·)) : vs = ws := by
  have hcou (us : List Str) :
      (us.flatMap ('/' :: ·)).count '/' = us.length + (us.map (List.count '/')).sum := by
    induction us with
    | nil => rfl
    | cons u us ih =>
      rw [flatMap_cons, count_append, count_cons_self, length_cons, map_cons, sum_cons]
      omega
  have hseg (us : List Str) (hus : ∀ u ∈ us, '/' ∉ u) :
      pathSegments (us.flatMap ('/' :: ·)) = us := by
    induction us with
    | nil => rfl
    | cons u us ih => rw [pathSegments_cons (hus u mem_cons_self), ih (forall_mem_cons.mp hus).2]
  have hnone (us : List Str) : (us.map (List.count '/')).sum = 0 ↔ ∀ u ∈ us, '/' ∉ u := by
    induction us with
    | nil => simp
    | cons u us ih => simp [ih, count_eq_zero]
  have hfree' : ∀ v ∈ vs, '/' ∉ v := by
    have hboth := (hcou ws).symm.trans ((congrArg (List.count '/') h).trans (hcou vs))
    have hzero := (hnone ws).mpr hfree
    exact (hnone vs).mp (by omega)
  rw [← hseg vs hfree', ← h, hseg ws hfree]

theorem simple_facts {s : Segment} (hsimple : s.Simple) (hr : s.regex compile = some r) :
    (r.count = 0 ∧ s.name = none ∧ s.Transparent compile) ∨
      (r.count = 1 ∧ (∃ r', r = group r') ∧ (∀ i, s.probe i = replicate (i + 1) 'a') ∧
        (s.name ≠ none → s.Transparent compile)) := by
  cases s with
  | file =>
    cases hr
    exact .inr ⟨rfl, ⟨_, rfl⟩, fun _ => rfl, fun h => absurd rfl h⟩
  | plain text =>
    cases hr
    exact .inl ⟨count_seqs_char text, rfl, trivial⟩
  | param name =>
    cases hr
    exact .inr ⟨rfl, ⟨_, rfl⟩, fun _ => rfl, fun _ => trivial⟩
  | paramRegex name regex => exact hsimple.elim

theorem length_names_le (hparts : Parts compile segments rs) (hsimple : ∀ s ∈ segments, s.Simple) :
    (segments.filterMap Segment.name).length ≤ (rs.map count).sum ∧
      ((segments.filterMap Segment.name).length = (rs.map count).sum →
        ∀ s ∈ segments, s.Transparent compile) := by
  induction hparts with
  | nil => simp
  | @cons s r segments rs hs _ ih =>
    obtain ⟨hle, htra⟩ := ih (forall_mem_cons.mp hsimple).2
    rw [map_cons, sum_cons]
    have hcas : (s.name = none ∧ (r.count = 0 → s.Transparent compile)) ∨
        (r.count = 1 ∧ s.name ≠ none ∧ s.Transparent compile) := by
      obtain ⟨-, hname, hs⟩ | ⟨hcou, -, -, hs⟩ := simple_facts (hsimple s mem_cons_self) hs.2
      · exact .inl ⟨hname, fun _ => hs⟩
      · by_cases hname : s.name = none
        · exact .inl ⟨hname, fun h => by omega⟩
        · exact .inr ⟨hcou, hname, hs hname⟩
    obtain ⟨hname, hs⟩ | ⟨hcou, hname, hs⟩ := hcas
    · rw [filterMap_cons_none hname]
      exact ⟨by omega, fun heq => forall_mem_cons.mpr ⟨hs (by omega), htra (by omega)⟩⟩
    · obtain ⟨name, hname⟩ := ne_none_iff_exists'.mp hname
      rw [filterMap_cons_some hname, length_cons]
      exact ⟨by omega, fun heq => forall_mem_cons.mpr ⟨hs, htra (by omega)⟩⟩

theorem exists_part_of_group (hparts : Parts compile segments rs)
    (hsimple : ∀ s ∈ segments, s.Simple) {j : Nat} (hj : j < (rs.map count).sum) :
    ∃ i s r, segments[i]? = some s ∧ rs[i]? = some (group r) ∧
    (∀ k, s.probe k = replicate (k + 1) 'a') ∧ groupsBefore rs i = j := by
  induction hparts generalizing j with
  | nil => simp at hj
  | @cons s r segments rs hs _ ih =>
    have ih' := @ih (forall_mem_cons.mp hsimple).2
    rw [map_cons, sum_cons] at hj
    obtain ⟨hcou, -⟩ | ⟨hcou, ⟨r', rfl⟩, hpro, -⟩ := simple_facts (hsimple s mem_cons_self) hs.2
    · obtain ⟨i, t, r', ht, hr', hpro, hbef⟩ := ih' (j := j) (by omega)
      exact ⟨i + 1, t, r', ht, hr', hpro, by rw [groupsBefore_succ]; omega⟩
    · cases j with
      | zero => exact ⟨0, s, r', rfl, rfl, hpro, rfl⟩
      | succ j =>
        obtain ⟨i, t, r'', ht, hr'', hpro, hbef⟩ := ih' (j := j) (by omega)
        exact ⟨i + 1, t, r'', ht, hr'', hpro, by rw [groupsBefore_succ]; omega⟩

end Simple

theorem exists_part_of_name (h : (segments.filterMap Segment.name)[j]? = some name) :
    ∃ i : Nat, segments[i]?.bind Segment.name = some name ∧
    ((segments.take i).filterMap Segment.name).length = j := by
  induction segments generalizing j with
  | nil => simp at h
  | cons s segments ih =>
    cases hname : s.name with
    | none =>
      rw [filterMap_cons_none hname] at h
      obtain ⟨i, hi, hlen⟩ := ih h
      exact ⟨i + 1, hi, by rw [take_succ_cons, filterMap_cons_none hname, hlen]⟩
    | some other =>
      rw [filterMap_cons_some hname] at h
      cases j with
      | zero =>
        rw [getElem?_cons_zero] at h
        exact ⟨0, by rw [getElem?_cons_zero, bind_some, hname, h], rfl⟩
      | succ j =>
        obtain ⟨i, hi, hlen⟩ := ih h
        exact ⟨i + 1, hi, by rw [take_succ_cons, filterMap_cons_some hname, length_cons, hlen]⟩

theorem exists_match_of_canRead (h : CanRead r w) : ∃ what, r.regexMatch w = some what := by
  obtain ⟨m, hm, hrest⟩ := h 0 ⟨[], w⟩ (fun _ => none) [] (append_nil w).symm
  refine ne_none_iff_exists'.mp fun hnone => ?_
  have hend := findSome?_eq_none_iff.mp hnone m hm
  rw [atEnd, if_pos hrest] at hend
  cases hend

section Necessity

variable {compile : Str → Option Regex} {segments : List Segment} {rs : List Regex}
  (hparts : Parts compile segments rs) (hsimple : ∀ s ∈ segments, s.Simple)
  (hsets : ∀ url what, (pathRegex rs).regexMatch url = some what → SetsParams segments url
      (setPathParams (indexMap .empty 0 (segments.filterMap Segment.name)) what
        (pathRegex rs).count .empty))

include hparts hsimple hsets

/-- On the probe a parameter gets its own segment only if its group has the number of the first
parameter with its name. -/
theorem firstAt_groupsBefore (hname : segments[i]?.bind Segment.name = some name) :
    FirstAt (segments.filterMap Segment.name) name (groupsBefore rs i) := by
  obtain ⟨hread, hfree⟩ := canRead_probes hparts hsimple 0
  obtain ⟨what, hwhat⟩ := exists_match_of_canRead hread
  obtain ⟨ws, hrds, htex⟩ := reads_of_match hwhat
  have hlen : (probes 0 segments).length = ws.length := by
    rw [hrds.length_eq, length_probes, hparts.length_eq]
  obtain rfl := eq_of_flatMap_eq hlen hfree htex
  obtain ⟨s, hs, hsna⟩ := bind_eq_some_iff.mp hname
  have hpro : (pathSegments ((probes 0 segments).flatMap ('/' :: ·)))[i]? =
      some (replicate (i + 1) 'a') := by
    have hi : i < (probes 0 segments).length := by
      rw [length_probes]
      exact (List.getElem?_eq_some_iff.mp hs).1
    rw [getElem?_pathSegments hi fun w hw => hfree w (mem_of_mem_take hw), getElem?_probes, hs,
      Nat.zero_add]
    cases s with
    | plain text => cases hsna
    | _ => rfl
  have hfind := (hsets _ what hwhat i name hname).trans hpro
  obtain ⟨j, hj, hfst, hstr⟩ := (find_setPathParams (find_indexMap_empty _) _ _ _ _).mp hfind
  rw [count_pathRegex] at hj
  -- the group with this number is that of the part at `i`
  obtain ⟨k, t, r, ht, hr, hpro', rfl⟩ := exists_part_of_group hparts hsimple hj
  have hcap := hrds.capture hr
  rw [Nat.zero_add, getElem?_probes, ht, map_some, hpro'] at hcap
  rw [Captures.str, hcap] at hstr
  have hki : k = i := by
    have := congrArg length hstr
    simpa using this
  exact hki ▸ hfst

theorem groupsBefore_eq (hname : segments[i]?.bind Segment.name = some name) :
    groupsBefore rs i = ((segments.take i).filterMap Segment.name).length := by
  have hfst := firstAt_groupsBefore hparts hsimple hsets hname
  -- the first parameter with this name is this one
  obtain ⟨k, hk, hlen⟩ := exists_part_of_name hfst.1
  have hsame := hfst.unique (firstAt_groupsBefore hparts hsimple hsets hk)
  have hgro {l : Nat} (h : segments[l]?.bind Segment.name = some name) :
      ∃ r, rs[l]? = some (group r) := by
    obtain ⟨s, hs, hsna⟩ := bind_eq_some_iff.mp h
    obtain ⟨r, hr, -⟩ := hparts.exists_group hs (by rw [hsna]; nofun)
    exact ⟨r, hr⟩
  obtain ⟨r, hr⟩ := hgro hname
  obtain ⟨r', hr'⟩ := hgro hk
  obtain hlt | rfl | hlt := Nat.lt_trichotomy i k
  · have := groupsBefore_lt hr hlt
    omega
  · exact hlen.symm
  · have := groupsBefore_lt hr' hlt
    omega

/-- **A route without expressions of its own whose parameters are always set to their segments is
aligned.** -/
theorem aligned_of_setsParams : Aligned compile segments := by
  intro before s behind hspl hname
  obtain ⟨name, hname⟩ := ne_none_iff_exists'.mp hname
  have hat : segments[before.length]?.bind Segment.name = some name := by simp [hspl, hname]
  have htake : segments.take before.length = before := by simp [hspl]
  have hfst := firstAt_groupsBefore hparts hsimple hsets hat
  have hgro := groupsBefore_eq hparts hsimple hsets hat
  rw [htake] at hgro
  have hfrt := forall₂_take before.length hparts
  rw [htake] at hfrt
  have htra := (length_names_le hfrt fun t ht => hsimple t (by simp [hspl, ht])).2 hgro.symm
  refine ⟨?_, fun t ht => ⟨htra t ht, fun hsame => ?_⟩⟩
  · cases s with
    | paramRegex other regex => exact (hsimple (.paramRegex other regex) (by simp [hspl])).elim
    | _ => trivial
  · have hmem : name ∈ before.filterMap Segment.name := mem_filterMap.mpr ⟨t, ht, hsame.trans hname⟩
    obtain ⟨k, hk, hget⟩ := getElem_of_mem hmem
    refine hfst.2 k (by omega) ?_
    rw [hspl, filterMap_append, getElem?_append_left hk, getElem?_eq_getElem hk, hget]

end Necessity

/-! ## The engine -/

namespace RoutingEngine

def register (compile : Str → Option Regex) (routes : List (List Segment × Method)) :
    Except RouteError RoutingEngine :=
  routes.foldlM (fun engine route => engine.add compile (specText route.1) route.2) {}

end RoutingEngine

variable {method : Method} {ep : RouteEndpoint}

theorem routes_add {engine engine' : RoutingEngine} {path : Str}
    (h : engine.add compile path method = .ok engine') (hep : ep ∈ engine'.routes) :
    ep ∈ engine.routes ∨ createRouteEndpoint compile path method = .ok ep := by
  unfold add at h
  split_ifs at h with hfind
  · cases h
    exact .inl hep
  · cases hcre : createRouteEndpoint compile path method with
    | error e =>
      rw [hcre] at h
      cases h
    | ok endpoint =>
      rw [hcre] at h
      cases h
      obtain hep | hep := mem_append.mp hep
      · exact .inl hep
      · exact .inr (by rw [mem_singleton.mp hep])

theorem exists_route {routes : List (List Segment × Method)} {engine : RoutingEngine}
    (h : register compile routes = .ok engine) (hep : ep ∈ engine.routes) :
    ∃ route ∈ routes, createRouteEndpoint compile (specText route.1) route.2 = .ok ep := by
  -- over the routes still to come, for any engine
  have hrun : ∀ (routes : List (List Segment × Method)) (start : RoutingEngine),
      routes.foldlM (fun engine route => engine.add compile (specText route.1) route.2) start =
        .ok engine →
      ep ∈ start.routes ∨ ∃ route ∈ routes,
        createRouteEndpoint compile (specText route.1) route.2 = .ok ep := by
    intro routes
    induction routes with
    | nil =>
      intro start hsta
      cases hsta
      exact .inl hep
    | cons route routes ih =>
      intro start hsta
      obtain ⟨next, hadd, hsta⟩ := bind_eq_ok.mp hsta
      obtain hnext | ⟨other, hmem, hoth⟩ := ih next hsta
      · obtain hold | hnew := routes_add hadd hnext
        · exact .inl hold
        · exact .inr ⟨route, mem_cons_self, hnew⟩
      · exact .inr ⟨other, mem_cons_of_mem route hmem, hoth⟩
  obtain hnone | hrou := hrun routes {} h
  · exact absurd hnone not_mem_nil
  · exact hrou

theorem setsParams_matchRequest (hvalid : ∀ s ∈ segments, s.Valid compile)
    (hcre : createRouteEndpoint compile (specText segments) method = .ok ep) :
    ep.pathSpec = specText segments ∧ ep.method = method ∧
      ∀ url req, ep.matchRequest ⟨method, url, .empty⟩ = some req → Aligned compile segments →
        SetsParams segments url req.pathParams := by
  by_cases hne : segments = []
  · subst hne
    cases hcre
    exact ⟨rfl, rfl, fun url req _ _ i name hi => by cases hi⟩
  · obtain ⟨rs, hparts, hep⟩ := createRouteEndpoint_text hvalid hne method
    rw [hep] at hcre
    cases hcre
    refine ⟨rfl, rfl, fun url req hmat hali => ?_⟩
    rw [RouteEndpoint.matchRequest, if_neg (not_not.mpr rfl)] at hmat
    cases hwhat : (pathRegex rs).regexMatch url with
    | none =>
      rw [hwhat] at hmat
      cases hmat
    | some what =>
      rw [hwhat] at hmat
      cases hmat
      exact setsParams_of_aligned hparts hali hwhat

theorem matchRequest_singleton (h : ep.pathRegex.regexMatch url = some what) :
    (⟨[ep]⟩ : RoutingEngine).matchRequest ⟨ep.method, url, .empty⟩ =
      some
        (ep, ⟨ep.method, url, setPathParams ep.paramIndexMap what ep.pathRegex.count .empty⟩) := by
  rw [matchRequest, findSome?_cons, RouteEndpoint.matchRequest, if_neg (not_not.mpr rfl), h]
  rfl

theorem register_singleton
    (hcre : createRouteEndpoint compile (specText segments) method = .ok ep) :
    register compile [(segments, method)] = .ok ⟨[ep]⟩ := by
  rw [register, foldlM_cons, add, hcre]
  rfl

/-- **Whatever routes are registered, the parameters of the matching one are the segments of the
path at their positions if the route is aligned.** Among the routes without expressions of their own
no others have this property. -/
theorem matchRequest_setsParams (compile : Str → Option Regex) :
    (∀ routes engine, (∀ route ∈ routes, ∀ s ∈ route.1, s.Valid compile) →
      RoutingEngine.register compile routes = .ok engine →
        ∀ method url ep req, engine.matchRequest ⟨method, url, .empty⟩ = some (ep, req) →
          ∃ route ∈ routes, ep.pathSpec = specText route.1 ∧ ep.method = route.2 ∧
            (Aligned compile route.1 → SetsParams route.1 url req.pathParams)) ∧
      ∀ segments method, (∀ s ∈ segments, s.Valid compile ∧ s.Simple) →
        ∃ engine, RoutingEngine.register compile [(segments, method)] = .ok engine ∧
          ((∀ url ep req, engine.matchRequest ⟨method, url, .empty⟩ = some (ep, req) →
            SetsParams segments url req.pathParams) ↔ Aligned compile segments) := by
  have hmatc :
    ∀ {engine : RoutingEngine} {req : RouteRequest} {ep : RouteEndpoint} {req' : RouteRequest},
      engine.matchRequest req = some (ep, req') → ep ∈ engine.routes ∧
        ep.matchRequest req = some req' := by
    intro engine req ep req' h
    obtain ⟨ep', hmem, hmap⟩ := exists_of_findSome?_eq_some h
    obtain ⟨r, hr, hpair⟩ := map_eq_some_iff.mp hmap
    cases hpair
    exact ⟨hmem, hr⟩
  refine ⟨?_, ?_⟩
  · intro routes engine hvalid hreg method url ep req hmat
    obtain ⟨hmem, hep⟩ := hmatc hmat
    obtain ⟨route, hrou, hcre⟩ := exists_route hreg hmem
    obtain ⟨hspec, hmtd, hsets⟩ := setsParams_matchRequest (hvalid route hrou) hcre
    obtain rfl : route.2 = method := by
      rw [RouteEndpoint.matchRequest, hmtd] at hep
      by_contra hne
      rw [if_pos hne] at hep
      cases hep
    exact ⟨route, hrou, hspec, hmtd, hsets url req hep⟩
  · intro segments method hsimple
    have hvalid : ∀ s ∈ segments, s.Valid compile := fun s hs => (hsimple s hs).1
    by_cases hne : segments = []
    · subst hne
      refine ⟨_, register_singleton rfl, fun _ before s behind hspl => ?_,
        fun _ _ _ _ _ i name hi => by cases hi⟩
      simp at hspl
    · obtain ⟨rs, hparts, hcre⟩ := createRouteEndpoint_text hvalid hne method
      refine ⟨_, register_singleton hcre, fun h => ?_, fun hali url ep req hmat => ?_⟩
      · refine aligned_of_setsParams hparts (fun s hs => (hsimple s hs).2) fun url what hwhat => ?_
        exact h url _ _ (matchRequest_singleton hwhat)
      · obtain ⟨hmem, hep⟩ := hmatc hmat
        obtain rfl := mem_singleton.mp hmem
        exact (setsParams_matchRequest hvalid hcre).2.2 url req hep hali

/-- The route `/a/{i}` and the path `/a/7`. -/
theorem matchRequest_setsParams_seven :
    ∃ engine req, RoutingEngine.register (fun _ => none) [([.plain ['a'], .param ['i']], .get)] =
      .ok engine ∧
      (∃ ep, engine.matchRequest ⟨.get, ['/', 'a', '/', '7'], .empty⟩ = some (ep, req)) ∧
      SetsParams [.plain ['a'], .param ['i']] ['/', 'a', '/', '7'] req.pathParams := by
  have hparts : ∀ s ∈ [Segment.plain ['a'], .param ['i']], s.Valid (fun _ => none) ∧ s.Simple := by
    simp [Segment.Valid, Segment.Simple]
    decide
  have hali : Aligned (fun _ => none) [Segment.plain ['a'], .param ['i']] := by
    intro before s behind hspl hname
    match before, hspl with
    | [], hspl =>
      cases hspl
      exact absurd rfl hname
    | [_], hspl =>
      cases hspl
      simp [Segment.ReadsNoSlash, Segment.Transparent, Segment.name]
    | _ :: _ :: _, hspl => simp at hspl
  obtain ⟨engine, hreg, hiff⟩ :=
    (matchRequest_setsParams fun _ => none).2 [.plain ['a'], .param ['i']] .get hparts
  have hmat : ∃ ep req, engine.matchRequest ⟨.get, ['/', 'a', '/', '7'], .empty⟩ =
      some (ep, req) := by
    cases hreg
    exact ⟨_, _, rfl⟩
  obtain ⟨ep, req, hmat⟩ := hmat
  exact ⟨engine, req, hreg, ⟨ep, hmat⟩, hiff.mpr hali _ ep req hmat⟩

/-- The route `/*.*/{x}` and the path `/b/a`: the parameter gets the text of the file. -/
theorem matchRequest_shifted :
    ∃ engine ep req, RoutingEngine.register (fun _ => none) [([.file, .param ['x']], .get)] =
      .ok engine ∧ engine.matchRequest ⟨.get, ['/', 'b', '/', 'a'], .empty⟩ = some (ep, req) ∧
      req.pathParams.find ['x'] = some ['b'] ∧
      ¬SetsParams [.file, .param ['x']] ['/', 'b', '/', 'a'] req.pathParams := by
  refine ⟨_, _, _, rfl, rfl, by decide, fun h => ?_⟩
  have := h 1 ['x'] rfl
  revert this
  decide

end Matador.Http
