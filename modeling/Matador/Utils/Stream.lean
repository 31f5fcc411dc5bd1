import Matador.Lib.Pull

/-!
# Streams

A `stream` is a chain of processors. The last one is asked for a value, asks the one before it, and
so on to the source; each has its own counters and the last value it has found. A pipeline
(`Pipeline`) is built by the functions of `stream`, and means the list that the functions on lists
of the same names make.

A value behind the end of a container, a null pointer and a division by zero are undefined.
-/

namespace Matador

open List Lib
open Option hiding map_map

/-! ## Sources -/

/-- `iterator_element_processor` and `container_element_processor`: `first_`, and the elements from
`value_` to `end_`. -/
structure Cursor (α : Type) where
  first : Bool
  rest : List α

namespace Cursor

variable {α : Type}

def begin (xs : List α) : Cursor α := ⟨true, xs⟩

/-- `process_impl`. The iterator is not moved behind the end. -/
def process (c : Cursor α) : Option (Bool × Cursor α) :=
  if c.first then some (!c.rest.isEmpty, ⟨false, c.rest⟩)
  else
    match c.rest with
    | [] => none
    | _ :: rest => some (!rest.isEmpty, ⟨false, rest⟩)

def value (c : Cursor α) : Option α := c.rest.head?

def size (c : Cursor α) : Nat := c.rest.length + if c.first then 1 else 0

theorem size_lt_of_process {c c' : Cursor α} (h : c.process = some (true, c')) :
    c'.size < c.size := by
  unfold process at h
  split at h
  · next hfst =>
    obtain ⟨-, rfl⟩ := Prod.mk.inj (some.inj h)
    simp [size, hfst]
  · next hfst =>
    split at h
    · cases h
    · next hrest =>
      obtain ⟨-, rfl⟩ := Prod.mk.inj (some.inj h)
      simp [size, hfst, hrest]

end Cursor

namespace Stream

variable {α β : Type}

/-- `make_stream` of a container. -/
def makeStream (xs : List α) : Pull α where
  State := Cursor α
  start := .begin xs
  process := Cursor.process
  value := Cursor.value
  wf :=
    Subrelation.wf (fun h => Cursor.size_lt_of_process h) (InvImage.wf Cursor.size Nat.lt_wfRel.wf)

/-! ## Processors with one loop -/

/-- The loop of `filter_element_processor`. -/
def filterLoop (pred : α → Bool) (_ : Option α) (val : Option α) : Option (Signal × Option α) :=
  val.map fun x => if pred x then (.done true, some x) else (.next, none)

/-- `filter_element_processor`. -/
def filter (pred : α → Bool) (successor : Pull α) : Pull α :=
  successor.stage none (filterLoop pred) id id

/-- The loop of `peek_element_processor`. -/
def peekLoop (pred : α → Unit) (_ : Option α) (val : Option α) : Option (Signal × Option α) :=
  val.map fun x =>
    let _ := pred x
    (.done true, some x)

/-- `peek_element_processor`. -/
def peek (pred : α → Unit) (successor : Pull α) : Pull α :=
  successor.stage none (peekLoop pred) id id

/-- The loop of `every_element_processor`, with `current_count_` and `value_`. -/
def everyLoop (every : Nat) (x : Nat × Option α) (val : Option α) :
    Option (Signal × Nat × Option α) :=
  if every = 0 then none
  else if (x.1 + 1) % every = 0 then some (.done true, x.1 + 1, val)
  else some (.next, x.1 + 1, none)

/-- `every_element_processor`. -/
def every (every : Nat) (successor : Pull α) : Pull α :=
  successor.stage (0, none) (everyLoop every) Prod.snd id

/-- The loop of `take_element_processor`, which asks for one value more than it gives. -/
def takeLoop (count : Nat) (x : Nat × Option α) (val : Option α) :
    Option (Signal × Nat × Option α) :=
  if x.1 < count then some (.done true, x.1 + 1, val) else some (.done false, x.1 + 1, x.2)

/-- `take_element_processor`. -/
def take (count : Nat) (successor : Pull α) : Pull α :=
  successor.stage (0, none) (takeLoop count) Prod.snd id

/-- The loop of `take_while_element_processor`. -/
def takeWhileLoop (pred : α → Bool) (_ : Option α) (val : Option α) : Option (Signal × Option α) :=
  val.map fun x => (.done (pred x), some x)

/-- `take_while_element_processor`. -/
def takeWhile (pred : α → Bool) (successor : Pull α) : Pull α :=
  successor.stage none (takeWhileLoop pred) id id

/-- The loop of `skip_element_processor`. -/
def skipLoop (count : Nat) (x : Nat × Option α) (val : Option α) :
    Option (Signal × Nat × Option α) :=
  if x.1 < count then some (.next, x.1 + 1, x.2) else some (.done true, x.1 + 1, val)

/-- `skip_element_processor`. -/
def skip (count : Nat) (successor : Pull α) : Pull α :=
  successor.stage (0, none) (skipLoop count) Prod.snd id

/-- The loop of `skip_while_element_processor`, with `should_skip_` and `value_`. -/
def skipWhileLoop (pred : α → Bool) (x : Bool × Option α) (val : Option α) :
    Option (Signal × Bool × Option α) :=
  val.map fun v => if x.1 && pred v then (.next, x.1, some v) else (.done true, false, some v)

/-- `skip_while_element_processor`. -/
def skipWhile (pred : α → Bool) (successor : Pull α) : Pull α :=
  successor.stage (true, none) (skipWhileLoop pred) Prod.snd id

/-- The body of `map_element_processor`, which has no loop. -/
def mapOnce (pred : α → β) (_ : Option β) (val : Option α) : Option (Signal × Option β) :=
  val.map fun x => (.done true, some (pred x))

/-- `map_element_processor`. -/
def map (pred : α → β) (successor : Pull α) : Pull β :=
  successor.stage none (mapOnce pred) id fun _ => none

/-! ## Flattening -/

structure FlatMap (β : Type) where
  first : Bool
  value : Option β
  currentStream : Option (Cursor β)

namespace FlatMap

def body (pred : α → List β) (x : FlatMap β) (val : Option α) : Option (Signal × FlatMap β) :=
  val.bind fun v =>
    (Cursor.begin (pred v)).process.map fun r =>
      if r.1 then (.done true, { x with value := r.2.value, currentStream := some r.2 })
      else (.next, { x with currentStream := some r.2 })

def advance (pred : α → List β) (successor : Pull α) (s : successor.State) (x : FlatMap β) :
    Option (Bool × successor.State × FlatMap β) :=
  (successor.search (body pred) s x).map fun r =>
    (r.1, r.2.1, if r.1 then r.2.2 else { r.2.2 with value := none })

/-- `process_impl`. -/
def process (pred : α → List β) (successor : Pull α) (s : successor.State × FlatMap β) :
    Option (Bool × successor.State × FlatMap β) :=
  if s.2.first then advance pred successor s.1 { s.2 with first := false }
  else
    s.2.currentStream.bind fun c =>
      c.process.bind fun r =>
        if r.1 then some (true, s.1, { s.2 with value := r.2.value, currentStream := some r.2 })
        else advance pred successor s.1 { s.2 with currentStream := some r.2 }

def size (x : FlatMap β) : Nat := (x.currentStream.map Cursor.size).getD 0

theorem transGen_of_advance {pred : α → List β} {successor : Pull α} {s s' : successor.State}
    {x x' : FlatMap β} (h : advance pred successor s x = some (true, s', x')) :
    Relation.TransGen successor.Steps s' s := by
  obtain ⟨⟨b, t, y⟩, hsea, heq⟩ := map_eq_some_iff.mp h
  cases heq
  exact Pull.transGen_of_search hsea

theorem wf_process (pred : α → List β) (successor : Pull α) :
    WellFounded fun s' s => process pred successor s = some (true, s') := by
  refine Subrelation.wf ?_ (InvImage.wf (fun s : successor.State × FlatMap β => (s.1, s.2.size))
    (successor.wf.transGen.prod_lex Nat.lt_wfRel.wf))
  rintro ⟨s', x'⟩ ⟨s, x⟩ h
  unfold process at h
  split at h
  · exact .left _ _ (transGen_of_advance h)
  · obtain ⟨c, hc, h⟩ := bind_eq_some_iff.mp h
    obtain ⟨⟨b, c'⟩, hc', h⟩ := bind_eq_some_iff.mp h
    cases b with
    | false => exact .left _ _ (transGen_of_advance h)
    | true =>
      cases h
      refine .right _ ?_
      simp only [size, show x.currentStream = some c from hc]
      exact Cursor.size_lt_of_process hc'

end FlatMap

/-- `flatmap_element_processor`. -/
def flatmap (pred : α → List β) (successor : Pull α) : Pull β where
  State := successor.State × FlatMap β
  start := (successor.start, ⟨true, none, none⟩)
  process := FlatMap.process pred successor
  value s := s.2.value
  wf := FlatMap.wf_process pred successor

/-! ## Packing -/

structure Pack (α : Type) where
  currentPacksize : Nat
  value : Option (List α)

namespace Pack

/-- The loop, which runs `n` times more. -/
def fill (successor : Pull α) : Nat → successor.State → Pack α →
    Option (Bool × successor.State × Pack α)
  | 0, s, x => some (true, s, { x with currentPacksize := x.currentPacksize + 1 })
  | n + 1, s, x =>
    (successor.process s).bind fun r =>
      if r.1 then
        x.value.bind fun pack => (successor.value r.2).bind fun v =>
          fill successor n r.2 ⟨x.currentPacksize + 1, some (pack ++ [v])⟩
      else some (false, r.2, { x with currentPacksize := x.currentPacksize + 1 })

/-- `process_impl`. -/
def process (packsize : Nat) (successor : Pull α) (s : successor.State × Pack α) :
    Option (Bool × successor.State × Pack α) :=
  let x := if s.2.currentPacksize ≥ packsize then ⟨0, some []⟩ else s.2
  fill successor (packsize - x.currentPacksize) s.1 x

theorem reflTransGen_of_fill {successor : Pull α} {n : Nat} {s s' : successor.State} {x x' : Pack α}
    (h : fill successor n s x = some (true, s', x')) :
    Relation.ReflTransGen successor.Steps s' s := by
  induction n generalizing s x with
  | zero =>
    cases h
    exact .refl
  | succ n ih =>
    obtain ⟨⟨b, t⟩, ht, h⟩ := bind_eq_some_iff.mp h
    cases b with
    | false => cases h
    | true =>
      obtain ⟨pack, -, h⟩ := bind_eq_some_iff.mp h
      obtain ⟨v, -, h⟩ := bind_eq_some_iff.mp h
      exact .tail (ih h) ht

theorem wf_process {packsize : Nat} (hpos : 0 < packsize) (successor : Pull α) :
    WellFounded fun s' s => process packsize successor s = some (true, s') := by
  refine Subrelation.wf ?_ (InvImage.wf Prod.fst successor.wf.transGen)
  rintro ⟨s', x'⟩ ⟨s, x⟩ h
  unfold process at h
  -- the loop runs at least once
  obtain ⟨n, hn⟩ : ∃ n, packsize - (if x.currentPacksize ≥ packsize then
      (⟨0, some []⟩ : Pack α) else x).currentPacksize = n + 1 := by
    refine Nat.exists_eq_succ_of_ne_zero ?_
    split
    · simpa using hpos.ne'
    · omega
  dsimp only at h hn
  rw [hn] at h
  obtain ⟨⟨b, t⟩, ht, h⟩ := bind_eq_some_iff.mp h
  cases b with
  | false => cases h
  | true =>
    obtain ⟨pack, -, h⟩ := bind_eq_some_iff.mp h
    obtain ⟨v, -, h⟩ := bind_eq_some_iff.mp h
    exact .tail' (reflTransGen_of_fill h) ht

end Pack

/-- `pack_every_element_processor`. -/
def packEvery (packsize : Nat) (hpos : 0 < packsize) (successor : Pull α) : Pull (List α) where
  State := successor.State × Pack α
  start := (successor.start, ⟨packsize, none⟩)
  process := Pack.process packsize successor
  value s := s.2.value
  wf := Pack.wf_process hpos successor

/-! ## Concatenating -/

/-- What `concat_element_processor` keeps: the processors that are left, and `value_`. -/
structure Concat (P Q : Pull α) where
  successor : Option P.State
  next : Option Q.State
  value : Option α

namespace Concat

variable {P Q : Pull α}

def processNext (s : Concat P Q) : Option (Bool × Concat P Q) :=
  match s.next with
  | none => some (false, { s with value := none })
  | some t =>
    (Q.process t).map fun r =>
      if r.1 then (true, { s with next := some r.2, value := Q.value r.2 })
      else (false, { s with next := none, value := none })

/-- `process_impl`. -/
def process (s : Concat P Q) : Option (Bool × Concat P Q) :=
  match s.successor with
  | none => processNext s
  | some t =>
    (P.process t).bind fun r =>
      if r.1 then some (true, { s with successor := some r.2, value := P.value r.2 })
      else processNext { s with successor := none }

def place {σ : Type} : Option σ → Unit ⊕ σ
  | none => .inl ()
  | some s => .inr s

theorem lex_of_processNext {s s' : Concat P Q} (h : processNext s = some (true, s')) :
    s'.successor = s.successor ∧ Sum.Lex emptyRelation Q.Steps (place s'.next) (place s.next) := by
  unfold processNext at h
  split at h
  · cases h
  · next t ht =>
    obtain ⟨⟨b, t'⟩, ht', heq⟩ := map_eq_some_iff.mp h
    cases b with
    | false => cases heq
    | true =>
      obtain ⟨-, rfl⟩ := Prod.mk.inj heq
      rw [ht]
      exact ⟨rfl, .inr ht'⟩

theorem wf_process : WellFounded fun s' s : Concat P Q => process s = some (true, s') := by
  have hemp : WellFounded (emptyRelation : Unit → Unit → Prop) := emptyWf.wf
  refine Subrelation.wf ?_ (InvImage.wf (fun s : Concat P Q => (place s.successor, place s.next))
    ((Sum.lex_wf hemp P.wf).prod_lex (Sum.lex_wf hemp Q.wf)))
  intro s' s h
  unfold process at h
  split at h
  · obtain ⟨hsame, hlex⟩ := lex_of_processNext h
    rw [InvImage, hsame]
    exact .right _ hlex
  · next t ht =>
    obtain ⟨⟨b, t'⟩, ht', h⟩ := bind_eq_some_iff.mp h
    cases b with
    | true =>
      cases h
      exact .left _ _ (by rw [ht]; exact .inr ht')
    | false =>
      obtain ⟨hsame, -⟩ := lex_of_processNext h
      refine .left _ _ ?_
      rw [hsame, ht]
      exact .sep _ _

end Concat

/-- `concat_element_processor`. -/
def concat (successor next : Pull α) : Pull α where
  State := Concat successor next
  start := ⟨some successor.start, some next.start, none⟩
  process := Concat.process
  value := Concat.value
  wf := Concat.wf_process

/-! ## What the processors give -/

section Yields

variable {P Q : Pull α} {xs ys : List α}

theorem yields_makeStream (xs : List α) : (makeStream xs).Yields (makeStream xs).start xs := by
  have hrest (x : α) (ys : List α) : (makeStream xs).Yields (⟨false, x :: ys⟩ : Cursor α) ys := by
    induction ys generalizing x with
    | nil => exact .done (rfl : (makeStream xs).process (⟨false, [x]⟩ : Cursor α) = _)
    | cons y ys ih =>
        exact .next (rfl : (makeStream xs).process (⟨false, x :: y :: ys⟩ : Cursor α) = _) rfl
          (ih y)
  have hsta : (makeStream xs).process (makeStream xs).start =
      some (!xs.isEmpty, (⟨false, xs⟩ : Cursor α)) := rfl
  cases xs with
  | nil => exact .done hsta
  | cons x xs => exact .next hsta rfl (hrest x xs)

/-! The processors with one loop, on the values of their successor. -/

theorem feed_filter (pred : α → Bool) (v : Option α) (xs : List α) :
    Pull.feed (filterLoop pred) id v xs = some (xs.filter pred) := by
  induction xs generalizing v with
  | nil => rfl
  | cons x xs ih =>
    rw [Pull.feed, filterLoop, map_some, filter_cons]
    cases pred x with
    | true => exact congrArg (Option.map (x :: ·)) (ih _)
    | false => exact ih _

theorem feed_peek (pred : α → Unit) (v : Option α) (xs : List α) :
    Pull.feed (peekLoop pred) id v xs = some xs := by
  induction xs generalizing v with
  | nil => rfl
  | cons x xs ih => exact congrArg (Option.map (x :: ·)) (ih _)

theorem feed_map (pred : α → β) (v : Option β) (xs : List α) :
    Pull.feed (mapOnce pred) id v xs = some (xs.map pred) := by
  induction xs generalizing v with
  | nil => rfl
  | cons x xs ih => exact congrArg (Option.map (pred x :: ·)) (ih _)

theorem feed_take (count n : Nat) (v : Option α) (xs : List α) :
    Pull.feed (takeLoop count) Prod.snd (n, v) xs = some (xs.take (count - n)) := by
  induction xs generalizing n v with
  | nil => rw [take_nil, Pull.feed]
  | cons x xs ih =>
    rw [Pull.feed, takeLoop]
    by_cases hn : n < count
    · rw [if_pos hn, show count - n = count - (n + 1) + 1 by omega]
      exact congrArg (Option.map (x :: ·)) (ih _ _)
    · rw [if_neg hn, show count - n = 0 by omega]
      rfl

theorem feed_takeWhile (pred : α → Bool) (v : Option α) (xs : List α) :
    Pull.feed (takeWhileLoop pred) id v xs = some (xs.takeWhile pred) := by
  induction xs generalizing v with
  | nil => rfl
  | cons x xs ih =>
    rw [Pull.feed, takeWhileLoop, map_some, takeWhile_cons]
    cases pred x with
    | true => exact congrArg (Option.map (x :: ·)) (ih _)
    | false => rfl

theorem feed_skip (count n : Nat) (v : Option α) (xs : List α) :
    Pull.feed (skipLoop count) Prod.snd (n, v) xs = some (xs.drop (count - n)) := by
  induction xs generalizing n v with
  | nil => rw [drop_nil, Pull.feed]
  | cons x xs ih =>
    rw [Pull.feed, skipLoop]
    by_cases hn : n < count
    · rw [if_pos hn, show count - n = count - (n + 1) + 1 by omega]
      exact ih _ _
    · have hrest := ih (n + 1) (some x)
      rw [show count - (n + 1) = 0 by omega] at hrest
      rw [if_neg hn, show count - n = 0 by omega]
      exact congrArg (Option.map (x :: ·)) hrest

theorem feed_skipWhile_false (pred : α → Bool) (v : Option α) (xs : List α) :
    Pull.feed (skipWhileLoop pred) Prod.snd (false, v) xs = some xs := by
  induction xs generalizing v with
  | nil => rfl
  | cons x xs ih => exact congrArg (Option.map (x :: ·)) (ih _)

theorem feed_skipWhile (pred : α → Bool) (v : Option α) (xs : List α) :
    Pull.feed (skipWhileLoop pred) Prod.snd (true, v) xs = some (xs.dropWhile pred) := by
  induction xs generalizing v with
  | nil => rfl
  | cons x xs ih =>
    rw [Pull.feed, skipWhileLoop, map_some, dropWhile_cons]
    cases pred x with
    | true => exact ih _
    | false => exact congrArg (Option.map (x :: ·)) (feed_skipWhile_false pred _ xs)

/-- The elements of a list at the positions `k`, `2 * k`, …; the first element has position `n +
1`. -/
def everyNth (k n : Nat) (xs : List α) : List α :=
  ((xs.zipIdx (n + 1)).filter fun x => x.2 % k = 0).map Prod.fst

theorem feed_every {k : Nat} (hpos : 0 < k) (n : Nat) (v : Option α) (xs : List α) :
    Pull.feed (everyLoop k) Prod.snd (n, v) xs = some (everyNth k n xs) := by
  induction xs generalizing n v with
  | nil => rfl
  | cons x xs ih =>
    rw [Pull.feed, everyLoop, if_neg hpos.ne', everyNth, zipIdx_cons, filter_cons]
    by_cases hn : (n + 1) % k = 0
    · rw [if_pos hn, if_pos (decide_eq_true hn)]
      exact congrArg (Option.map (x :: ·)) (ih _ _)
    · rw [if_neg hn, if_neg (by simpa using hn)]
      exact ih _ _

/-! The other processors. -/

section FlatMap

variable {pred : α → List β} {s : P.State}

theorem advance_of_yields (pred : α → List β) (h : P.Yields s xs) (x : FlatMap β) :
    (xs.flatMap pred = [] ∧ ∃ s' x', FlatMap.advance pred P s x = some (false, s', x')) ∨
      ∃ y zs xs' s', xs.flatMap pred = y :: (zs ++ xs'.flatMap pred) ∧ P.Yields s' xs' ∧
        FlatMap.advance pred P s x = some (true, s', ⟨x.first, some y, some ⟨false, y :: zs⟩⟩) := by
  induction h generalizing x with
  | done h =>
    refine .inl ⟨rfl, ?_⟩
    rw [FlatMap.advance, Pull.search_of_finished _ _ h]
    exact ⟨_, _, rfl⟩
  | @next s s' v xs h hv hxs ih =>
    have hsea := Pull.search_of_valid (FlatMap.body pred) x h
    rw [hv] at hsea
    rw [FlatMap.advance, hsea, flatMap_cons]
    cases hpred : pred v with
    | nil =>
      rw [FlatMap.body, bind_some, hpred]
      exact ih _
    | cons y zs =>
      refine .inr ⟨y, zs, xs, s', rfl, hxs, ?_⟩
      rw [FlatMap.body, bind_some, hpred]
      rfl

theorem yields_of_advance {x x₀ : FlatMap β} (h : P.Yields s xs)
    (hsta : (flatmap pred P).process (s, x) = FlatMap.advance pred P s x₀) (hfst : x₀.first = false)
    (hopen : ∀ s' y zs xs', xs.flatMap pred = y :: (zs ++ xs'.flatMap pred) → P.Yields s' xs' →
      (flatmap pred P).Yields (s', ⟨false, some y, some ⟨false, y :: zs⟩⟩)
      (zs ++ xs'.flatMap pred)) :
    (flatmap pred P).Yields (s, x) (xs.flatMap pred) := by
  obtain ⟨hnil, s', x', hadv⟩ | ⟨y, zs, xs', s', hcons, hxs', hadv⟩ := advance_of_yields pred h x₀
  · rw [hnil]
    exact .done (hsta.trans hadv)
  · rw [hfst] at hadv
    rw [hcons]
    exact .next (hsta.trans hadv) rfl (hopen s' y zs xs' hcons hxs')

theorem process_flatmap_open {x : FlatMap β} {z : β} {zs : List β} (hfst : x.first = false)
    (hcur : x.currentStream = some ⟨false, z :: zs⟩) :
    (flatmap pred P).process (s, x) = (Cursor.process ⟨false, z :: zs⟩).bind fun r =>
      if r.1 then some (true, s, { x with value := r.2.value, currentStream := some r.2 })
      else FlatMap.advance pred P s { x with currentStream := some r.2 } := by
  show FlatMap.process pred P (s, x) = _
  rw [FlatMap.process, if_neg (by simp [hfst]), hcur]
  rfl

theorem yields_flatmap_open {out : List β} {x : FlatMap β} {z : β} {zs : List β} (h : P.Yields s xs)
    (hfst : x.first = false) (hcur : x.currentStream = some ⟨false, z :: zs⟩)
    (hout : zs ++ xs.flatMap pred = out) : (flatmap pred P).Yields (s, x) out := by
  induction out generalizing s x z zs xs with
  | nil =>
    obtain ⟨rfl, hxs⟩ := append_eq_nil_iff.mp hout
    rw [← hxs]
    exact yields_of_advance h (process_flatmap_open hfst hcur) hfst
      fun _ _ _ _ hcons => by cases hxs.symm.trans hcons
  | cons y out ih =>
    cases zs with
    | nil =>
      rw [← show xs.flatMap pred = y :: out from hout]
      refine yields_of_advance h (process_flatmap_open hfst hcur) hfst
        fun s' y' zs xs' hcons hxs' => ?_
      obtain ⟨-, hout'⟩ := cons.inj (hout.symm.trans hcons)
      rw [← hout']
      exact ih hxs' rfl rfl hout'.symm
    | cons y' zs =>
      obtain ⟨rfl, hout'⟩ := cons.inj hout
      exact .next (process_flatmap_open hfst hcur) rfl (ih h hfst rfl hout')

theorem yields_flatmap (pred : α → List β) (h : P.Yields P.start xs) :
    (flatmap pred P).Yields (flatmap pred P).start (xs.flatMap pred) :=
  yields_of_advance h rfl rfl fun _ _ _ _ _ hxs' => yields_flatmap_open hxs' rfl rfl rfl

end FlatMap

section Pack

def blocks (k : Nat) (xs : List α) : List (List α) :=
  (range (xs.length / k)).map fun i => (xs.drop (i * k)).take k

theorem blocks_of_lt {k : Nat} (h : xs.length < k) : blocks k xs = [] := by
  rw [blocks, Nat.div_eq_of_lt h, range_zero, map_nil]

theorem blocks_of_le {k : Nat} (hpos : 0 < k) (h : k ≤ xs.length) :
    blocks k xs = xs.take k :: blocks k (xs.drop k) := by
  have hdiv : xs.length / k = (xs.drop k).length / k + 1 := by
    rw [length_drop, Nat.div_eq_sub_div hpos h]
  rw [blocks, hdiv, range_succ_eq_map, map_cons, Nat.zero_mul, map_map]
  congr 1
  refine map_congr_left fun i _ => ?_
  rw [Function.comp_apply, drop_drop, Nat.succ_mul, Nat.add_comm]

theorem fill_of_le {s : P.State} {n : Nat} (h : P.Yields s xs) (hn : n ≤ xs.length) (c : Nat)
    (pack : List α) :
    ∃ s', Pack.fill P n s ⟨c, some pack⟩ = some (true, s', ⟨c + n + 1, some (pack ++ xs.take n)⟩) ∧
      P.Yields s' (xs.drop n) := by
  induction n generalizing s xs c pack with
  | zero => exact ⟨s, by rw [take_zero, append_nil]; rfl, h⟩
  | succ n ih =>
    cases h with
    | done h => cases hn
    | @next _ s' x xs h hx hxs =>
      obtain ⟨t, ht, hyie⟩ := ih hxs (Nat.le_of_succ_le_succ hn) (c + 1) (pack ++ [x])
      refine ⟨t, ?_, hyie⟩
      rw [Pack.fill, h, bind_some, bind_some, hx, bind_some, ht, append_assoc,
        Nat.add_right_comm c 1 n]
      rfl

theorem fill_of_lt {s : P.State} {n : Nat} (h : P.Yields s xs) (hn : xs.length < n) (c : Nat)
    (pack : List α) : ∃ s' x', Pack.fill P n s ⟨c, some pack⟩ = some (false, s', x') := by
  induction n generalizing s xs c pack with
  | zero => cases hn
  | succ n ih =>
    cases h with
    | @done _ s' h => exact ⟨s', ⟨c + 1, some pack⟩, by rw [Pack.fill, h]; rfl⟩
    | @next _ s' x xs h hx hxs =>
      obtain ⟨t, x', ht⟩ := ih hxs (Nat.lt_of_succ_lt_succ hn) (c + 1) (pack ++ [x])
      refine ⟨t, x', ?_⟩
      rw [Pack.fill, h, bind_some, if_pos rfl, bind_some, hx, bind_some, ht]

theorem yields_packEvery_full {k : Nat} (hpos : 0 < k) {s : P.State} {xs : List α}
    (h : P.Yields s xs) {x : Pack α} (hx : k ≤ x.currentPacksize) :
    (packEvery k hpos P).Yields (s, x) (blocks k xs) := by
  have hpro : (packEvery k hpos P).process (s, x) = Pack.fill P k s ⟨0, some []⟩ := by
    show Pack.process k P (s, x) = _
    rw [Pack.process, if_pos hx]
    rfl
  rcases Nat.lt_or_ge xs.length k with hlt | hle
  · obtain ⟨s', x', hfill⟩ := fill_of_lt h hlt 0 []
    rw [blocks_of_lt hlt]
    exact .done (hpro.trans hfill)
  · obtain ⟨s', hfill, hrest⟩ := fill_of_le h hle 0 []
    rw [blocks_of_le hpos hle]
    have hfull : k ≤ 0 + k + 1 := by omega
    exact .next (hpro.trans hfill) rfl (yields_packEvery_full hpos hrest hfull)
termination_by xs.length

theorem yields_packEvery {k : Nat} (hpos : 0 < k) (h : P.Yields P.start xs) :
    (packEvery k hpos P).Yields (packEvery k hpos P).start (blocks k xs) :=
  yields_packEvery_full hpos h (Nat.le_refl k)

end Pack

section Concat

theorem process_concat_none (t : Q.State) (v : Option α) :
    (concat P Q).process (⟨none, some t, v⟩ : Concat P Q) = (Q.process t).map fun r =>
      if r.1 then (true, (⟨none, some r.2, Q.value r.2⟩ : Concat P Q))
      else (false, ⟨none, none, none⟩) := rfl

theorem process_concat_some (s : P.State) (t : Q.State) (v : Option α) :
    (concat P Q).process (⟨some s, some t, v⟩ : Concat P Q) = (P.process s).bind fun r =>
      if r.1 then some (true, (⟨some r.2, some t, P.value r.2⟩ : Concat P Q))
      else (concat P Q).process (⟨none, some t, v⟩ : Concat P Q) := rfl

theorem yields_concat_next {t : Q.State} (h : Q.Yields t ys) (v : Option α) :
    (concat P Q).Yields (⟨none, some t, v⟩ : Concat P Q) ys := by
  induction h generalizing v with
  | @done t t' h => exact .done ((process_concat_none t v).trans (by rw [h]; rfl))
  | @next t t' y ys h hy _ ih =>
    have hvld : (concat P Q).process (⟨none, some t, v⟩ : Concat P Q) =
        some (true, (⟨none, some t', Q.value t'⟩ : Concat P Q)) := by
      rw [process_concat_none, h]
      rfl
    exact .next hvld hy (ih (Q.value t'))

theorem yields_concat_some {s : P.State} {t : Q.State} (hP : P.Yields s xs) (hQ : Q.Yields t ys)
    (v : Option α) : (concat P Q).Yields (⟨some s, some t, v⟩ : Concat P Q) (xs ++ ys) := by
  induction hP generalizing v with
  | @done s s' h =>
      exact (yields_concat_next hQ v).congr ((process_concat_some s t v).trans (by rw [h]; rfl))
  | @next s s' x xs h hx _ ih =>
    have hvld : (concat P Q).process (⟨some s, some t, v⟩ : Concat P Q) =
        some (true, (⟨some s', some t, P.value s'⟩ : Concat P Q)) := by
      rw [process_concat_some, h]
      rfl
    exact .next hvld hx (ih (P.value s'))

theorem yields_concat (hP : P.Yields P.start xs) (hQ : Q.Yields Q.start ys) :
    (concat P Q).Yields (concat P Q).start (xs ++ ys) := yields_concat_some hP hQ none

end Concat

theorem yields_filter (pred : α → Bool) (h : P.Yields P.start xs) :
    (filter pred P).Yields (filter pred P).start (xs.filter pred) :=
  h.stage (feed_filter pred none xs)

theorem yields_map (pred : α → β) (h : P.Yields P.start xs) :
    (map pred P).Yields (map pred P).start (xs.map pred) := h.stage (feed_map pred none xs)

theorem yields_skip (count : Nat) (h : P.Yields P.start xs) :
    (skip count P).Yields (skip count P).start (xs.drop count) :=
  h.stage (feed_skip count 0 none xs)

end Yields

/-! ## Ending a stream -/

section Ends

variable {σ : Type} (P : Pull α)

/-- The loops from `begin()` to `end()` without an exit, such as `std::for_each`. -/
def forEach (f : σ → α → σ) (x : σ) : Option σ :=
  (P.search (fun x val => val.map fun v => (.next, f x v)) P.start x).map fun r => r.2.2

/-- The loops from `begin()` to `end()` of `any`, `all` and `none`, which end with `result` at a
value. -/
def exitAt (stop : α → Bool) (result : Bool) : Option Bool :=
  (P.search (fun x val => val.map fun v => if stop v then (.done true, result) else (.next, x))
    P.start (!result)).map fun r => r.2.2

def collect : Option (List α) := forEach P (fun result v => result ++ [v]) []

/-- `reduce(identity, accu)`. -/
def reduceFrom (identity : σ) (accu : σ → α → σ) : Option σ := forEach P accu identity

/-- `reduce_idfunc`: the first value is taken before the loop. -/
def reduceIdfunc (identity : α → σ) (accu : σ → α → σ) : Option (Option σ) :=
  (P.process P.start).bind fun r =>
    if r.1 then
      (P.value r.2).bind fun v =>
        (P.search (fun x val => val.map fun v => (.next, accu x v)) r.2 (identity v)).map fun r =>
          some r.2.2
    else some none

/-- `reduce(accu)`. -/
def reduce (accu : α → α → α) : Option (Option α) := reduceIdfunc P id accu

def count : Option Nat := forEach P (fun n _ => n + 1) 0

/-- `count(pred)`. -/
def countIf (pred : α → Bool) : Option Nat := count (filter pred P)

def first : Option (Option α) :=
  (P.process P.start).bind fun r => if r.1 then (P.value r.2).map some else some none

def last : Option (Option α) := reduce P fun _ next => next

/-- `at`. -/
def elementAt (index : Nat) : Option (Option α) := first (skip index P)

def any (pred : α → Bool) : Option Bool := exitAt P pred true

def all (pred : α → Bool) : Option Bool := exitAt P (fun v => !pred v) false

/-- `none`. -/
def noneOf (pred : α → Bool) : Option Bool := exitAt P pred false

/-- Everything that ends a stream is what it is for the list. -/
structure Agrees (xs : List α) : Prop where
  collect : collect P = some xs
  reduceFrom : ∀ (σ : Type) (identity : σ) (accu : σ → α → σ),
    reduceFrom P identity accu = some (xs.foldl accu identity)
  reduceIdfunc : ∀ (σ : Type) (identity : α → σ) (accu : σ → α → σ),
    reduceIdfunc P identity accu = some (xs.head?.map fun x => xs.tail.foldl accu (identity x))
  reduce : ∀ accu, reduce P accu = some (xs.head?.map fun x => xs.tail.foldl accu x)
  count : count P = some xs.length
  countIf : ∀ pred, countIf P pred = some (xs.countP pred)
  first : first P = some xs.head?
  last : last P = some xs.getLast?
  elementAt : ∀ index, elementAt P index = some xs[index]?
  any : ∀ pred, any P pred = some (xs.any pred)
  all : ∀ pred, all P pred = some (xs.all pred)
  noneOf : ∀ pred, noneOf P pred = some (!xs.any pred)

variable {P} {xs : List α}

theorem search_fold {s : P.State} (h : P.Yields s xs) (f : σ → α → σ) (x : σ) :
    (P.search (fun x val => val.map fun v => (Signal.next, f x v)) s x).map (fun r => r.2.2) =
      some (xs.foldl f x) := by
  have hscan (x : σ) : Pull.scan (fun x val => val.map fun v => (Signal.next, f x v)) x xs =
      some (false, xs.foldl f x) := by
    clear h
    induction xs generalizing x with
    | nil => rfl
    | cons a xs ih => exact ih _
  have hsea := congrArg (Option.map Prod.snd)
    (Pull.search_of_yields (fun x val => val.map fun v => (Signal.next, f x v)) h x)
  rw [hscan, Option.map_map] at hsea
  exact hsea

theorem search_exit (h : P.Yields P.start xs) (stop : α → Bool) (result : Bool) :
    exitAt P stop result = some (if xs.any stop then result else !result) := by
  have hscan : Pull.scan (fun x val => val.map fun v =>
      if stop v then (Signal.done true, result) else (Signal.next, x)) (!result) xs =
      some (xs.any stop, if xs.any stop then result else !result) := by
    clear h
    induction xs with
    | nil => rfl
    | cons a xs ih =>
      rw [Pull.scan]
      cases hstop : stop a with
      | true => simp [hstop]
      | false => simpa [hstop] using ih
  have hsea := congrArg (Option.map Prod.snd) (Pull.search_of_yields (fun x val => val.map fun v =>
    if stop v then (Signal.done true, result) else (Signal.next, x)) h (!result))
  rw [hscan, Option.map_map] at hsea
  exact hsea

theorem foldl_append_singleton (ys xs : List α) :
    xs.foldl (fun result v => result ++ [v]) ys = ys ++ xs := by
  induction xs generalizing ys with
  | nil => simp
  | cons a xs ih => rw [foldl_cons, ih, append_assoc]; rfl

theorem foldl_count (n : Nat) (xs : List α) : xs.foldl (fun n _ => n + 1) n = n + xs.length := by
  induction xs generalizing n with
  | nil => rfl
  | cons a xs ih => rw [foldl_cons, ih, length_cons, Nat.add_assoc, Nat.add_comm 1]

theorem foldl_last (x : α) (xs : List α) :
    xs.foldl (fun _ next => next) x = (x :: xs).getLast (by simp) := by
  induction xs generalizing x with
  | nil => rfl
  | cons a xs ih => rw [foldl_cons, ih, getLast_cons_cons]

section

variable (h : P.Yields P.start xs)

include h

theorem count_eq : count P = some xs.length := by
  rw [count, forEach, search_fold h, foldl_count, Nat.zero_add]

theorem reduceIdfunc_eq (identity : α → σ) (accu : σ → α → σ) :
    reduceIdfunc P identity accu =
      some (xs.head?.map fun x => xs.tail.foldl accu (identity x)) := by
  unfold reduceIdfunc
  cases h with
  | done h => simp [h]
  | @next _ s' x xs h hx hxs =>
    have hfold := congrArg (Option.map some) (search_fold hxs accu (identity x))
    rw [Option.map_map] at hfold
    rw [h, bind_some, hx]
    exact hfold

theorem first_eq : first P = some xs.head? := by
  unfold first
  cases h with
  | done h => simp [h]
  | next h hx _ => simp [h, hx]

theorem last_eq : last P = some xs.getLast? := by
  rw [last, reduce, reduceIdfunc_eq h]
  cases xs with
  | nil => rfl
  | cons x xs => rw [head?_cons, map_some, tail_cons, id, foldl_last, ← getLast?_eq_some_getLast]

theorem agrees_of_yields : Agrees P xs where
  collect := by rw [collect, forEach, search_fold h, foldl_append_singleton, nil_append]
  reduceFrom _ identity accu := search_fold h accu identity
  reduceIdfunc _ identity accu := reduceIdfunc_eq h identity accu
  reduce accu := reduceIdfunc_eq h id accu
  count := count_eq h
  countIf pred := by rw [countIf, count_eq (yields_filter pred h), countP_eq_length_filter]
  first := first_eq h
  last := last_eq h
  elementAt index := by rw [elementAt, first_eq (yields_skip index h), head?_drop]
  any pred := by rw [any, search_exit h]; cases xs.any pred <;> rfl
  all pred := by
    rw [all, search_exit h, all_eq_not_any_not]
    cases xs.any (fun v => !pred v) <;> rfl
  noneOf pred := by rw [noneOf, search_exit h]; cases xs.any pred <;> rfl

end

end Ends

/-! ## Pipelines -/

/-- A stream as it is built: a source, and the functions of `stream` that have been called on it. -/
inductive Pipeline : Type → Type 1
  | source {α : Type} (xs : List α) : Pipeline α
  | filter {α : Type} (pred : α → Bool) (p : Pipeline α) : Pipeline α
  | map {α β : Type} (pred : α → β) (p : Pipeline α) : Pipeline β
  | flatmap {α β : Type} (pred : α → List β) (p : Pipeline α) : Pipeline β
  | peek {α : Type} (pred : α → Unit) (p : Pipeline α) : Pipeline α
  | take {α : Type} (count : Nat) (p : Pipeline α) : Pipeline α
  | takeWhile {α : Type} (pred : α → Bool) (p : Pipeline α) : Pipeline α
  | skip {α : Type} (count : Nat) (p : Pipeline α) : Pipeline α
  | skipWhile {α : Type} (pred : α → Bool) (p : Pipeline α) : Pipeline α
  | every {α : Type} (count : Nat) (hpos : 0 < count) (p : Pipeline α) : Pipeline α
  | packEvery {α : Type} (packsize : Nat) (hpos : 0 < packsize) (p : Pipeline α) : Pipeline (List α)
  | concat {α : Type} (p other : Pipeline α) : Pipeline α

namespace Pipeline

def processor : {α : Type} → Pipeline α → Pull α
  | _, source xs => makeStream xs
  | _, filter pred p => Stream.filter pred p.processor
  | _, map pred p => Stream.map pred p.processor
  | _, flatmap pred p => Stream.flatmap pred p.processor
  | _, peek pred p => Stream.peek pred p.processor
  | _, take count p => Stream.take count p.processor
  | _, takeWhile pred p => Stream.takeWhile pred p.processor
  | _, skip count p => Stream.skip count p.processor
  | _, skipWhile pred p => Stream.skipWhile pred p.processor
  | _, every count _ p => Stream.every count p.processor
  | _, packEvery packsize hpos p => Stream.packEvery packsize hpos p.processor
  | _, concat p other => Stream.concat p.processor other.processor

def list : {α : Type} → Pipeline α → List α
  | _, source xs => xs
  | _, filter pred p => p.list.filter pred
  | _, map pred p => p.list.map pred
  | _, flatmap pred p => p.list.flatMap pred
  | _, peek _ p => p.list
  | _, take count p => p.list.take count
  | _, takeWhile pred p => p.list.takeWhile pred
  | _, skip count p => p.list.drop count
  | _, skipWhile pred p => p.list.dropWhile pred
  | _, every count _ p => everyNth count 0 p.list
  | _, packEvery packsize _ p => blocks packsize p.list
  | _, concat p other => p.list ++ other.list

/-- **The processors of a pipeline give the values of its list.** -/
theorem yields {α : Type} (p : Pipeline α) : p.processor.Yields p.processor.start p.list := by
  induction p with
  | source xs => exact yields_makeStream xs
  | filter pred _ ih => exact yields_filter pred ih
  | map pred _ ih => exact yields_map pred ih
  | flatmap pred _ ih => exact yields_flatmap pred ih
  | peek pred p ih => exact ih.stage (feed_peek pred none p.list)
  | take count p ih => exact ih.stage (feed_take count 0 none p.list)
  | takeWhile pred p ih => exact ih.stage (feed_takeWhile pred none p.list)
  | skip count _ ih => exact yields_skip count ih
  | skipWhile pred p ih => exact ih.stage (feed_skipWhile pred none p.list)
  | every count hpos p ih => exact ih.stage (feed_every hpos 0 none p.list)
  | packEvery packsize hpos _ ih => exact yields_packEvery hpos ih
  | concat _ _ ih ih' => exact yields_concat ih ih'

/-- **`collect` and the other functions that end a stream agree with the list.** -/
theorem agrees {α : Type} (p : Pipeline α) : Agrees p.processor p.list := agrees_of_yields p.yields

example : (packEvery 2 (by decide) (filter (· % 2 = 1) (source [1, 2, 3, 5, 7, 9]))).list =
      [[1, 3], [5, 7]] := by
  decide

end Pipeline

end Stream

end Matador
